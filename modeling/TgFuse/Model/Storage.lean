/-
  TgFuse.Model.Storage

  The table of entries of `tg_storage.c`.

  `files` is the allocated block, slot by slot, and `live` its first `size`
  slots.  What fresh slots hold is the parameter `slots`.  `size` and `cap` are
  `int`s: growing past `INT_MAX` is undefined (`none`).
-/

import TgFuse.Lib.KeyedList
import TgFuse.Model.TgFile

namespace TgFuse

open CString KeyedList

/-- `tg_storage`. -/
structure TgStorage where
  files : List TgFile
  size : Nat
  cap : Nat
deriving DecidableEq

/-- The entries in use. -/
def TgStorage.live (st : TgStorage) : List TgFile := st.files.take st.size

/-- `INT_MAX`. -/
def intMax : Nat := 2 ^ 31 - 1

/-- `realloc(files, sizeof(tg_file) * n)`: the first `min(old, n)` slots stay. -/
def reallocFiles (slots : Nat → TgFile) (files : List TgFile) (n : Nat) : List TgFile :=
  files.take n ++ (List.range' files.length (n - files.length)).map slots

/-- `tg_storage_new`. -/
def tgStorageNew (slots : Nat → TgFile) : TgStorage :=
  { files := reallocFiles slots [] 2, size := 0, cap := 2 }

/-- `tg_storage_push`. -/
def tgStoragePush (slots : Nat → TgFile) (st : TgStorage) (f : TgFile) : Option TgStorage :=
  if st.size ≥ st.cap then
    let cap := st.cap * 2 + 1
    if cap ≤ intMax then
      some { files := (reallocFiles slots st.files cap).set st.size f, size := st.size + 1, cap }
    else none
  else some { st with files := st.files.set st.size f, size := st.size + 1 }

/-- `tg_storage_pop`: the entry and the table; `none` is the failed assertion. -/
def tgStoragePop (slots : Nat → TgFile) (st : TgStorage) : Option (TgFile × TgStorage) :=
  if st.size ≤ 0 then none
  else
    let st := if st.size < st.cap / 2 then
        { st with cap := st.cap / 2, files := reallocFiles slots st.files (st.cap / 2) }
      else st
    (st.files[st.size - 1]?).map fun f => (f, { st with size := st.size - 1 })

/-- The loop of `tg_storage_find_by_path`: the slot of the first entry with this
    path. -/
def tgStorageFindByPath (st : TgStorage) (path : List UInt8) : Option Nat :=
  st.live.findIdx? fun f => f.pathStr = path

/-- `tg_storage_remove_by_path`: the entry taken out (a zeroed one when there is
    none) and the table, where the last entry has moved into its slot. -/
def tgStorageRemoveByPath (st : TgStorage) (path : List UInt8) : TgFile × TgStorage :=
  if st.size = 0 then (TgFile.zero, st)
  else
    match tgStorageFindByPath st path with
    | some i =>
        (st.files.getD i TgFile.zero,
          { st with
            files := st.files.set i (st.files.getD (st.size - 1) TgFile.zero)
            size := st.size - 1 })
    | none => (TgFile.zero, st)

/-- An uninitialised `char a[100]` of the caller; what it holds before the call
    does not reach the string it holds after it. -/
def uninit : List UInt8 := List.replicate 100 0

theorem uninit_length : uninit.length = 100 := rfl

/-- The loop of `tg_storage_find_files_by_dir` over the entries from slot `i` on.
    The inner option is the slot, `none` the `-1`. -/
def findFilesByDirFrom (dir : List UInt8) : List TgFile → Nat → Option (Option Nat)
  | [], _ => some none
  | f :: fs, i =>
      if f.pathStr ≠ dir then
        match tgFileExtractDirectory uninit f with
        | none => none
        | some fileDir =>
            if cstr fileDir = dir then some (some i) else findFilesByDirFrom dir fs (i + 1)
      else findFilesByDirFrom dir fs (i + 1)

/-- `tg_storage_find_files_by_dir`. -/
def tgStorageFindFilesByDir (st : TgStorage) (dir : List UInt8) (toSearchFrom : Nat) :
    Option (Option Nat) :=
  findFilesByDirFrom dir (st.live.drop toSearchFrom) toSearchFrom

-- ============================================================================
-- The table as a list of entries
-- ============================================================================

/-- The block has `cap` slots, of which `size` are in use. -/
structure TgStorage.Valid (st : TgStorage) : Prop where
  length_files : st.files.length = st.cap
  size_le : st.size ≤ st.cap

variable {slots : Nat → TgFile} {st st' : TgStorage} {f : TgFile} {path : List UInt8}

@[simp] theorem reallocFiles_length (slots : Nat → TgFile) (files : List TgFile) (n : Nat) :
    (reallocFiles slots files n).length = n := by
  simp [reallocFiles]
  omega

theorem tgStorageNew_valid (slots : Nat → TgFile) : (tgStorageNew slots).Valid :=
  ⟨by simp [tgStorageNew], by simp [tgStorageNew]⟩

@[simp] theorem tgStorageNew_live (slots : Nat → TgFile) : (tgStorageNew slots).live = [] := rfl

theorem TgStorage.Valid.length_live (h : st.Valid) : st.live.length = st.size := by
  rw [TgStorage.live, List.length_take, h.length_files]
  exact Nat.min_eq_left h.size_le

theorem TgStorage.getElem?_live {i : Nat} (h : st.live[i]? = some f) :
    i < st.size ∧ st.files[i]? = some f := by
  rw [TgStorage.live, List.getElem?_take] at h
  split at h
  · next hi => exact ⟨hi, h⟩
  · cases h

theorem take_set_length {α : Type} (l : List α) {n : Nat} (x : α) (h : n < l.length) :
    (l.set n x).take (n + 1) = l.take n ++ [x] := by
  rw [List.take_add_one, List.getElem?_set_self h, List.take_set_of_le (Nat.le_refl n)]
  rfl

/-- A push appends to the live entries. -/
theorem tgStoragePush_spec (hv : st.Valid) (h : tgStoragePush slots st f = some st') :
    st'.Valid ∧ st'.live = st.live ++ [f] ∧ st'.size = st.size + 1 := by
  obtain ⟨hlen, hsize⟩ := hv
  unfold tgStoragePush at h
  split at h
  · next hfull =>
    dsimp only at h
    split at h
    · cases h
      refine ⟨⟨by simp, by simp only; omega⟩, ?_, rfl⟩
      have htake : (reallocFiles slots st.files (st.cap * 2 + 1)).take st.size
          = st.files.take st.size := by
        rw [reallocFiles, List.take_append_of_le_length (by simp; omega), List.take_take,
          Nat.min_eq_left (by omega)]
      simp only [TgStorage.live]
      rw [take_set_length _ _ (by simp; omega), htake]
    · cases h
  · next hroom =>
    cases h
    refine ⟨⟨by simpa using hlen, by simp only; omega⟩, ?_, rfl⟩
    exact take_set_length _ _ (by omega)

/-- A push fails only where the capacity leaves `int`. -/
theorem tgStoragePush_some (hroom : st.cap * 2 + 1 ≤ intMax) (slots : Nat → TgFile) (f : TgFile) :
    ∃ st', tgStoragePush slots st f = some st' := by
  unfold tgStoragePush
  split
  · exact ⟨_, if_pos hroom⟩
  · exact ⟨_, rfl⟩

/-- A pop takes the last live entry, from the block that is left. -/
theorem tgStoragePop_spec (hv : st.Valid) (hpos : 0 < st.size) (slots : Nat → TgFile) :
    ∃ f st', tgStoragePop slots st = some (f, st') ∧ st'.Valid ∧ st'.size + 1 = st.size ∧
      st.size - 1 < st'.files.length ∧ st.live = st'.live ++ [f] := by
  obtain ⟨hlen, hsize⟩ := hv
  obtain ⟨n, hn⟩ : ∃ n, st.size = n + 1 := ⟨st.size - 1, by omega⟩
  obtain ⟨f, hf⟩ : ∃ f, st.files[n]? = some f := ⟨_, List.getElem?_eq_getElem (by omega)⟩
  have hlive : st.live = st.files.take n ++ [f] := by
    rw [TgStorage.live, hn, List.take_add_one, hf]
    rfl
  have hlast : st.size - 1 = n := by omega
  unfold tgStoragePop
  rw [if_neg (by omega)]
  by_cases hshrink : st.size < st.cap / 2
  · -- what is cut off lies behind the live entries
    have hblock : reallocFiles slots st.files (st.cap / 2) = st.files.take (st.cap / 2) := by
      rw [reallocFiles, Nat.sub_eq_zero_of_le (by omega)]
      simp
    simp only [if_pos hshrink, hblock, hlast]
    rw [List.getElem?_take_of_lt (by omega), hf]
    refine ⟨f, _, rfl, ⟨by simp only [List.length_take]; omega, by simp only; omega⟩, hn.symm,
      by simp only [List.length_take]; omega, ?_⟩
    show st.live = (st.files.take (st.cap / 2)).take n ++ [f]
    rw [hlive, List.take_take, Nat.min_eq_left (by omega)]
  · simp only [if_neg hshrink, hlast]
    rw [hf]
    exact ⟨f, _, rfl, ⟨hlen, by simp only; omega⟩, hn.symm, by simp only; omega, hlive⟩

theorem tgStorageFindByPath_some {i : Nat} (h : tgStorageFindByPath st path = some i) :
    ∃ f, st.live[i]? = some f ∧ f.pathStr = path := by
  obtain ⟨hi, hp, -⟩ := List.findIdx?_eq_some_iff_getElem.mp h
  exact ⟨st.live[i], List.getElem?_eq_getElem hi, by simpa using hp⟩

theorem tgStorageFindByPath_none :
    tgStorageFindByPath st path = none ↔ ∀ f ∈ st.live, f.pathStr ≠ path := by
  rw [tgStorageFindByPath, List.findIdx?_eq_none_iff]
  simp

/-- Under distinct paths the slot found is the only one. -/
theorem tgStorageFindByPath_of_getElem? (hd : Distinct TgFile.pathStr st.live) {i : Nat}
    (h : st.live[i]? = some f) : tgStorageFindByPath st f.pathStr = some i := by
  cases hf : tgStorageFindByPath st f.pathStr with
  | none => exact absurd rfl (tgStorageFindByPath_none.mp hf f (List.mem_of_getElem? h))
  | some j =>
      obtain ⟨g, hg, hgp⟩ := tgStorageFindByPath_some hf
      obtain rfl := hd.eq_of_key (List.mem_of_getElem? hg) (List.mem_of_getElem? h) hgp
      have hnd : st.live.Nodup := List.Nodup.of_map _ hd
      obtain ⟨hi, hie⟩ := List.getElem?_eq_some_iff.mp h
      obtain ⟨hj, hje⟩ := List.getElem?_eq_some_iff.mp hg
      rw [hnd.getElem_inj_iff.mp (hje.trans hie.symm)]

/-- Removing a stored path takes its first entry out of the live ones. -/
theorem tgStorageRemoveByPath_some (hv : st.Valid) {i : Nat}
    (h : tgStorageFindByPath st path = some i) :
    ∃ f, st.live[i]? = some f ∧ f.pathStr = path ∧ (tgStorageRemoveByPath st path).1 = f ∧
      (tgStorageRemoveByPath st path).2.Valid ∧
      (tgStorageRemoveByPath st path).2.live = swapRemove st.live i := by
  obtain ⟨hlen, hsize⟩ := hv
  obtain ⟨f, hf, hp⟩ := tgStorageFindByPath_some h
  obtain ⟨hi, hfile⟩ := TgStorage.getElem?_live hf
  have hne : st.size ≠ 0 := by omega
  have hget : st.files.getD i TgFile.zero = f := by
    rw [List.getD_eq_getElem?_getD, hfile]
    rfl
  simp only [tgStorageRemoveByPath, hne, if_false, h, hget]
  refine ⟨f, hf, hp, rfl, ⟨by simpa using hlen, by simp only; omega⟩, ?_⟩
  -- the live part is everything but its last entry, with that entry at `i`
  obtain ⟨n, hn⟩ : ∃ n, st.size = n + 1 := ⟨st.size - 1, by omega⟩
  obtain ⟨z, hz⟩ : ∃ z, st.files[n]? = some z := ⟨_, List.getElem?_eq_getElem (by omega)⟩
  have hlive : st.live = st.files.take n ++ [z] := by
    rw [TgStorage.live, hn, List.take_add_one, hz]
    rfl
  have hlast : st.files.getD (st.size - 1) TgFile.zero = z := by
    rw [List.getD_eq_getElem?_getD, hn, Nat.add_sub_cancel, hz]
    rfl
  have hl : (st.files.take n).length = n := by rw [List.length_take]; omega
  rw [hlive, swapRemove_append_singleton, hlast, TgStorage.live]
  simp only [hn, Nat.add_sub_cancel, hl]
  rw [List.take_set]
  split
  · rfl
  · exact List.set_eq_of_length_le (by omega)

theorem tgStorageRemoveByPath_none (h : tgStorageFindByPath st path = none) :
    tgStorageRemoveByPath st path = (TgFile.zero, st) := by
  simp [tgStorageRemoveByPath, h]

end TgFuse

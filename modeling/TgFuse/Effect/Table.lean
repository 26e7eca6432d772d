/-
  TgFuse.Effect.Table

  What the operations that only touch the table do: `getattr`, `open`, `create`,
  `mkdir`, `unlink`.

  `TgStorage.lookup` is what a search by path finds, and `TgStorage.Wf` is the
  invariant of the table under calls on valid paths.
-/

import TgFuse.Effect.Transfer

namespace TgFuse

open CString Interact Interact.Prog KeyedList

-- ============================================================================
-- Entries and tables
-- ============================================================================

/-- The entry holds its path inside `path`, and the path is valid. -/
structure TgFile.Named (f : TgFile) : Prop where
  valid : ValidPath f.pathStr
  hasPath : f.HasPath f.pathStr

theorem TgFile.HasPath.named {f : TgFile} {p : List UInt8} (hf : f.HasPath p) (hp : ValidPath p) :
    f.Named := by
  have h := hf.pathStr_eq hp
  exact ⟨h.symm ▸ hp, h.symm ▸ hf⟩

/-- Entries that agree on `path` hold the same one. -/
theorem TgFile.Named.congr {f g : TgFile} (hf : f.Named) (h : g.path = f.path) :
    g.Named ∧ g.pathStr = f.pathStr := by
  have hg : g.HasPath f.pathStr := h.trans hf.hasPath
  exact ⟨hg.named hf.valid, hg.pathStr_eq hf.valid⟩

/-- The entry `tg_file_new_file` makes for a valid path. -/
def newFile (p : List UInt8) (n : Nat) : TgFile :=
  { TgFile.zero with path := .ofList p, type := .tgFile, fileSize := n }

/-- The entry `tg_file_new_dir` makes for a valid path. -/
def newDir (p : List UInt8) : TgFile :=
  { TgFile.zero with path := .ofList p, type := .tgDir }

theorem newFile_hasPath (p : List UInt8) (n : Nat) : (newFile p n).HasPath p := rfl

theorem newDir_hasPath (p : List UInt8) : (newDir p).HasPath p := rfl

theorem newFile_pathStr {p : List UInt8} (hp : ValidPath p) (n : Nat) :
    (newFile p n).pathStr = p := (newFile_hasPath p n).pathStr_eq hp

theorem newDir_pathStr {p : List UInt8} (hp : ValidPath p) : (newDir p).pathStr = p :=
  (newDir_hasPath p).pathStr_eq hp

theorem fileIdStr_of_zeros {f : TgFile} (h : f.fileId = .zeros) : f.fileIdStr = [] := by
  rw [TgFile.fileIdStr, TgFile.fileIdMemory, h]
  rfl

theorem newFile_fileIdStr (p : List UInt8) (n : Nat) : (newFile p n).fileIdStr = [] :=
  fileIdStr_of_zeros rfl

theorem newDir_fileIdStr (p : List UInt8) : (newDir p).fileIdStr = [] := fileIdStr_of_zeros rfl

theorem newFile_messageIdStr (p : List UInt8) (n : Nat) : (newFile p n).messageIdStr = [] :=
  CharArray.str_zeros

theorem newDir_messageIdStr (p : List UInt8) : (newDir p).messageIdStr = [] :=
  CharArray.str_zeros

/-- The entry that a search by path finds. -/
def TgStorage.lookup (st : TgStorage) (p : List UInt8) : Option TgFile :=
  st.live.find? fun f => f.pathStr = p

/-- A table whose entries all hold valid paths. -/
structure TgStorage.Wf (st : TgStorage) : Prop where
  valid : st.Valid
  named : ∀ f ∈ st.live, f.Named

section Lookup

variable {st st' : TgStorage} {p : List UInt8} {f g : TgFile} {i : Nat}

theorem lookup_some (h : st.lookup p = some f) : f ∈ st.live ∧ f.pathStr = p :=
  ⟨List.mem_of_find?_eq_some h, by simpa using List.find?_some h⟩

theorem lookup_none : st.lookup p = none ↔ ∀ f ∈ st.live, f.pathStr ≠ p := by
  simp [TgStorage.lookup]

theorem lookup_isSome_of_mem (h : f ∈ st.live) : ∃ g, st.lookup f.pathStr = some g := by
  cases hl : st.lookup f.pathStr with
  | none => exact absurd rfl (lookup_none.mp hl f h)
  | some g => exact ⟨g, rfl⟩

/-- Under distinct paths a search finds the entry that is there. -/
theorem lookup_of_mem (hd : Distinct TgFile.pathStr st.live) (h : f ∈ st.live) :
    st.lookup f.pathStr = some f := by
  obtain ⟨g, hg⟩ := lookup_isSome_of_mem h
  obtain ⟨hgl, hgp⟩ := lookup_some hg
  rw [hg, hd.eq_of_key hgl h hgp]

theorem lookup_eq_getElem? (h : tgStorageFindByPath st p = some i) :
    st.lookup p = st.live[i]? := by
  rw [tgStorageFindByPath] at h
  rw [TgStorage.lookup, List.find?_eq_bind_findIdx?_getElem?, h]
  rfl

theorem lookup_eq_none (h : tgStorageFindByPath st p = none) : st.lookup p = none :=
  lookup_none.mpr (tgStorageFindByPath_none.mp h)

/-- The slot a search ends at holds the entry it finds. -/
theorem tgStorageFindByPath_lookup (h : tgStorageFindByPath st p = some i) :
    ∃ f, st.lookup p = some f ∧ st.live[i]? = some f ∧ st.files[i]? = some f ∧ f.pathStr = p := by
  obtain ⟨f, hf, hp⟩ := tgStorageFindByPath_some h
  exact ⟨f, by rw [lookup_eq_getElem? h, hf], hf, (TgStorage.getElem?_live hf).2, hp⟩

theorem findByPath_of_lookup (h : st.lookup p = some f) :
    ∃ i, tgStorageFindByPath st p = some i ∧ st.live[i]? = some f ∧ st.files[i]? = some f := by
  cases hi : tgStorageFindByPath st p with
  | none => rw [lookup_eq_none hi] at h; cases h
  | some i =>
      obtain ⟨g, hg, hl, hfl, -⟩ := tgStorageFindByPath_lookup hi
      rw [hg] at h
      cases h
      exact ⟨i, rfl, hl, hfl⟩

theorem lookup_eq_none_iff : st.lookup p = none ↔ tgStorageFindByPath st p = none := by
  rw [lookup_none, tgStorageFindByPath_none]

/-- An entry that leaves, wherever it stood, updates the map. -/
theorem lookup_leave (hd : Distinct TgFile.pathStr st.live) (h : st.live.Perm (f :: st'.live)) :
    Distinct TgFile.pathStr st'.live ∧ st.lookup f.pathStr = some f ∧
      st'.lookup = Function.update st.lookup f.pathStr none := by
  have hd' := hd.perm h
  refine ⟨(distinct_cons.mp hd').2, lookup_of_mem hd (h.symm.subset (List.mem_cons_self ..)), ?_⟩
  show lookup TgFile.pathStr st'.live = Function.update (lookup TgFile.pathStr st.live) _ _
  rw [hd.lookup_perm h]
  exact hd'.lookup_tail

/-- So does an entry under a new path. -/
theorem lookup_enter (hd : Distinct TgFile.pathStr st.live) (hl : st.lookup f.pathStr = none)
    (h : st'.live = st.live ++ [f]) : Distinct TgFile.pathStr st'.live ∧
      st'.lookup = Function.update st.lookup f.pathStr (some f) := by
  have hd' : Distinct TgFile.pathStr st'.live := by
    rw [h]
    exact hd.append_singleton (lookup_none.mp hl)
  refine ⟨hd', ?_⟩
  show lookup TgFile.pathStr st'.live = Function.update (lookup TgFile.pathStr st.live) _ _
  rw [hd'.lookup_perm (h ▸ List.perm_append_singleton f st.live), lookup_cons]

/-- So does an entry that another one under its path takes the place of. -/
theorem lookup_replace (hd : Distinct TgFile.pathStr st.live) (hi : st.live[i]? = some f)
    (hg : g.pathStr = f.pathStr) (h : st'.live = st.live.set i g) :
    Distinct TgFile.pathStr st'.live ∧
      st'.lookup = Function.update st.lookup f.pathStr (some g) := by
  have hd' : Distinct TgFile.pathStr st'.live := by
    rw [h]
    exact hd.set hi hg
  have hold := getElem?_perm hi
  refine ⟨hd', ?_⟩
  show lookup TgFile.pathStr st'.live = Function.update (lookup TgFile.pathStr st.live) _ _
  rw [hd'.lookup_perm (h ▸ set_perm hi g), lookup_cons, hg, (hd.perm hold).lookup_tail,
    hd.lookup_perm hold, Function.update_idem]

end Lookup

-- ============================================================================
-- getattr and open
-- ============================================================================

/-- What `hello_getattr` reports of an entry. -/
def statOf (f : TgFile) : Stat :=
  match f.type with
  | .tgFile => { stMode := modeReg, stNlink := 1, stSize := offT f.fileSize }
  | .tgDir => { stMode := modeDir, stNlink := 1, stSize := 0 }

/-- What `hello_getattr` answers. -/
def getattrReply (st : TgStorage) (p : List UInt8) : Int × Stat :=
  if p = text "/" then (0, { stMode := modeDir, stNlink := 2, stSize := 0 })
  else
    match st.lookup p with
    | some f => (0, statOf f)
    | none => (-enoent, { stMode := 0, stNlink := 0, stSize := 0 })

section Queries

variable {s s' : Statics} {log : List (Request × Response)} {p : List UInt8}

theorem exec_slot_load_bind {i : Nat} {f : TgFile} (h : s.storage.files[i]? = some f) {β : Type}
    {k : TgFile → Handler β} {o : Option β} :
    Exec receive ((FilePtr.slot i).load >>= k) s log o s' ↔ Exec receive (k f) s log o s' :=
  exec_load_bind (.slot i) h

theorem exec_findByPath_bind {β : Type} {k : Option Nat → Handler β} {o : Option β} :
    Exec receive (findByPath p >>= k) s log o s' ↔
      Exec receive (k (tgStorageFindByPath s.storage p)) s log o s' := Iff.rfl

/-- `hello_getattr` completes and changes nothing. -/
theorem exec_helloGetattr {o : Option (Int × Stat)} :
    Exec receive (helloGetattr p) s log o s' ↔
      log = [] ∧ o = some (getattrReply s.storage p) ∧ s' = s := by
  unfold helloGetattr getattrReply
  by_cases hr : p = text "/"
  · simp only [if_pos hr, exec_pure]
  · simp only [if_neg hr]
    rw [exec_findByPath_bind]
    cases hi : tgStorageFindByPath s.storage p with
    | none => simp only [exec_pure, lookup_eq_none hi]
    | some i =>
        obtain ⟨f, hl, -, hf, -⟩ := tgStorageFindByPath_lookup hi
        simp only [exec_slot_load_bind hf, hl, statOf]
        cases f.type <;> simp only [exec_pure]

/-- `hello_open` completes and changes nothing. -/
theorem exec_helloOpen {o : Option Int} :
    Exec receive (helloOpen p) s log o s' ↔
      log = [] ∧ o = some (if s.storage.lookup p = none then -enoent else 0) ∧ s' = s := by
  unfold helloOpen
  rw [exec_findByPath_bind]
  cases hi : tgStorageFindByPath s.storage p with
  | none => simp [lookup_eq_none hi]
  | some i =>
      obtain ⟨f, hl, -⟩ := tgStorageFindByPath_lookup hi
      simp [hl]

end Queries

-- ============================================================================
-- create and mkdir
-- ============================================================================

section Pushes

variable {s s' : Statics} {log : List (Request × Response)} {p : List UInt8} {heap : Heap}

theorem exec_pushFile_bind_some {f : TgFile} {β : Type} {k : Unit → Handler β} {a : β} :
    Exec receive (pushFile heap f >>= k) s log (some a) s' ↔
      ∃ st', tgStoragePush heap.slots s.storage f = some st' ∧
        Exec receive (k ()) (s.withStorage st') log (some a) s' := by
  unfold pushFile
  simp only [bind_assoc, exec_getState_bind, exec_liftOption_bind_some]
  exact Iff.rfl

/-- The part of `hello_create` and `hello_mkdir` that pushes the new entry. -/
theorem exec_pushNew {o : Option TgFile} {f : TgFile} (ho : o = some f) {res : Int} :
    Exec receive (liftOption o >>= fun f => pushFile heap f >>= fun _ => (pure 0 : Handler Int))
      s log (some res) s' ↔
      log = [] ∧ ∃ st', tgStoragePush heap.slots s.storage f = some st' ∧
        res = 0 ∧ s' = s.withStorage st' := by
  rw [ho, exec_liftOption_some_bind, exec_pushFile_bind_some]
  simp only [exec_pure, Option.some.injEq]
  constructor
  · rintro ⟨st', hst, rfl, rfl, rfl⟩
    exact ⟨rfl, st', hst, rfl, rfl⟩
  · rintro ⟨rfl, st', hst, rfl, rfl⟩
    exact ⟨st', hst, rfl, rfl, rfl⟩

/-- `hello_create`, where it completes. -/
theorem exec_helloCreate (hp : ValidPath p) {res : Int} :
    Exec receive (helloCreate heap p) s log (some res) s' ↔ log = [] ∧
      ((∃ f, s.storage.lookup p = some f ∧ f.type = .tgDir ∧ res = -eisdir ∧ s' = s) ∨
       ((∀ f, s.storage.lookup p = some f → f.type = .tgFile) ∧
          ∃ st', tgStoragePush heap.slots s.storage (newFile p 0) = some st' ∧
            res = 0 ∧ s' = s.withStorage st')) := by
  have hnew : tgFileNewFile p 0 = some (newFile p 0) := tgFileNewFile_of_valid hp 0
  unfold helloCreate
  rw [exec_findByPath_bind]
  cases hi : tgStorageFindByPath s.storage p with
  | none =>
      simp only [exec_pure_bind, Bool.false_eq_true, if_false]
      rw [exec_pushNew hnew, lookup_eq_none hi]
      simp
  | some i =>
      obtain ⟨f, hl, -, hf, -⟩ := tgStorageFindByPath_lookup hi
      simp only [exec_slot_load_bind hf, exec_pure_bind, hl]
      by_cases hd : f.type = .tgDir
      · simp only [hd, decide_true, if_true, exec_pure, Option.some.injEq]
        constructor
        · rintro ⟨rfl, rfl, rfl⟩
          exact ⟨rfl, Or.inl ⟨f, rfl, hd, rfl, rfl⟩⟩
        · rintro ⟨rfl, ⟨g, rfl, -, rfl, rfl⟩ | ⟨hfile, -⟩⟩
          · exact ⟨rfl, rfl, rfl⟩
          · rw [hfile f rfl] at hd
            cases hd
      · have hfile : f.type = .tgFile := by cases h : f.type <;> simp_all
        simp only [hd, decide_false, Bool.false_eq_true, if_false]
        rw [exec_pushNew hnew]
        constructor
        · rintro ⟨rfl, h⟩
          exact ⟨rfl, Or.inr ⟨fun g hg => by cases hg; exact hfile, h⟩⟩
        · rintro ⟨rfl, ⟨g, hg, hgd, -⟩ | ⟨-, h⟩⟩
          · cases hg
            exact absurd hgd hd
          · exact ⟨rfl, h⟩

/-- `hello_mkdir`, where it completes. -/
theorem exec_helloMkdir (hp : ValidPath p) {res : Int} :
    Exec receive (helloMkdir heap p) s log (some res) s' ↔ log = [] ∧
      ∃ st', tgStoragePush heap.slots s.storage (newDir p) = some st' ∧
        res = 0 ∧ s' = s.withStorage st' := by
  exact exec_pushNew (tgFileNewDir_of_valid hp)

end Pushes

-- ============================================================================
-- unlink
-- ============================================================================

section Unlink

variable {s s' : Statics} {log : List (Request × Response)} {p : List UInt8} {config : TgConfig}

/-- The table after `tg_storage_remove_by_path`. -/
def TgStorage.without (st : TgStorage) (p : List UInt8) : TgStorage :=
  (tgStorageRemoveByPath st p).2

theorem exec_removeByPath_bind {β : Type} {k : TgFile → Handler β} {o : Option β} :
    Exec receive (removeByPath p >>= k) s log o s' ↔
      Exec receive (k (tgStorageRemoveByPath s.storage p).1)
        (s.withStorage (s.storage.without p)) log o s' := Iff.rfl

theorem removeByPath_of_lookup_none {st : TgStorage} (h : st.lookup p = none) :
    tgStorageRemoveByPath st p = (TgFile.zero, st) :=
  tgStorageRemoveByPath_none (lookup_eq_none_iff.mp h)

theorem removeByPath_of_lookup {st : TgStorage} {f : TgFile} (hv : st.Valid)
    (h : st.lookup p = some f) :
    (tgStorageRemoveByPath st p).1 = f ∧ (st.without p).Valid ∧
      ∃ i, tgStorageFindByPath st p = some i ∧ st.live[i]? = some f ∧
        (st.without p).live = swapRemove st.live i := by
  obtain ⟨i, hi, hl, -⟩ := findByPath_of_lookup h
  obtain ⟨g, hg, -, h1, hv', hlive⟩ := tgStorageRemoveByPath_some hv hi
  rw [hl] at hg
  cases hg
  exact ⟨h1, hv', i, hi, hl, hlive⟩

/-- A removal takes out the entry the search finds, and no other. -/
theorem without_perm {st : TgStorage} {f : TgFile} (hv : st.Valid) (h : st.lookup p = some f) :
    st.live.Perm (f :: (st.without p).live) := by
  obtain ⟨-, -, i, -, hi, hlive⟩ := removeByPath_of_lookup hv h
  rw [hlive]
  exact swapRemove_perm hi

theorem without_of_lookup_none {st : TgStorage} (h : st.lookup p = none) : st.without p = st := by
  rw [TgStorage.without, removeByPath_of_lookup_none h]

theorem mem_without {st : TgStorage} {f : TgFile} (hv : st.Valid)
    (h : f ∈ (st.without p).live) : f ∈ st.live := by
  cases hl : st.lookup p with
  | none => rwa [without_of_lookup_none hl] at h
  | some g => exact (without_perm hv hl).symm.subset (List.mem_cons_of_mem _ h)

theorem zero_pathStr : TgFile.zero.pathStr = [] := by decide

/-- `hello_unlink`, where it completes. -/
theorem exec_helloUnlink (hwf : s.storage.Wf) {res : Int} :
    Exec receive (helloUnlink config p) s log (some res) s' ↔
      (s.storage.lookup p = none ∧ log = [] ∧ res = -enoent ∧ s' = s) ∨
      (∃ f r b, s.storage.lookup p = some f ∧
        log = [(.deleteMessage config f.messageIdStr, r)] ∧
        receiveJson r s.jsonResponseBuf = some b ∧
        (r.code = curleOk → checkOkStatusInJson b.bytes ≠ none) ∧
        res = 0 ∧ s' = (s.withStorage (s.storage.without p)).withJson b) := by
  unfold helloUnlink
  rw [exec_removeByPath_bind]
  cases hl : s.storage.lookup p with
  | none =>
      have hw : s.withStorage (s.storage.without p) = s := by
        rw [without_of_lookup_none hl]
        rfl
      rw [removeByPath_of_lookup_none hl, hw, zero_pathStr]
      simp only [List.length_nil, if_true, exec_pure, Option.some.injEq]
      constructor
      · rintro ⟨rfl, rfl, rfl⟩
        exact Or.inl ⟨trivial, rfl, rfl, rfl⟩
      · rintro (⟨-, rfl, rfl, rfl⟩ | ⟨f, r, b, hf, -⟩)
        · exact ⟨rfl, rfl, rfl⟩
        · cases hf
  | some f =>
      obtain ⟨h1, -⟩ := removeByPath_of_lookup hwf.valid hl
      obtain ⟨hmem, hpath⟩ := lookup_some hl
      have hne : f.pathStr.length ≠ 0 := by
        have := (hwf.named f hmem).valid.ne_nil
        simpa using this
      rw [h1, if_neg hne, exec_bind_some]
      constructor
      · rintro ⟨a, t, l₁, l₂, rfl, hrm, hk⟩
        obtain ⟨r, b, rfl, hb, hok, rfl, rfl⟩ :=
          (exec_tgRemoveMessageWithFile (.var f) (f := f) rfl).mp hrm
        simp only [exec_pure, Option.some.injEq] at hk
        obtain ⟨rfl, rfl, rfl⟩ := hk
        exact Or.inr ⟨f, r, b, rfl, rfl, hb, hok, rfl, rfl⟩
      · rintro (⟨h, -⟩ | ⟨g, r, b, hg, rfl, hb, hok, rfl, rfl⟩)
        · cases h
        · cases hg
          refine ⟨0, _, _, [], (List.append_nil _).symm,
            (exec_tgRemoveMessageWithFile (.var f) (f := f) rfl).mpr
              ⟨r, b, rfl, hb, hok, rfl, rfl⟩, ?_⟩
          exact ⟨rfl, rfl, rfl⟩

end Unlink

end TgFuse

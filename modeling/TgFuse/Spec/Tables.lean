/-
  TgFuse.Spec.Tables

  The table of entries, over whole runs of its operations.

  * `BagStep` — what the operations mean for an unordered collection of entries.
  * `MapStep` — what they mean for a finite map from paths to entries.

  The live entries follow the first in every run, and `TgStorage.lookup` follows
  the second in every run that never pushes a path that is there.
-/

import Mathlib.Data.Multiset.Basic
import TgFuse.Effect.Table
import TgFuse.Lib.Lts

namespace TgFuse

open CString KeyedList Lts

-- ============================================================================
-- Operations
-- ============================================================================

/-- An operation on the table, with the entry it takes or returns. -/
inductive TableEvent where
  | push (f : TgFile)
  | pop (f : TgFile)
  | find (path : List UInt8) (found : Option TgFile)
  | remove (path : List UInt8) (f : TgFile)

/-- The functions of `tg_storage.c`; `tg_storage_find_by_path` is observed through
    the entry that its result points to. -/
inductive TableCall (st : TgStorage) : TableEvent → TgStorage → Prop
  | push {slots : Nat → TgFile} {f : TgFile} {st' : TgStorage} :
      st.size < 2 ^ 30 → tgStoragePush slots st f = some st' → TableCall st (.push f) st'
  | pop {slots : Nat → TgFile} {f : TgFile} {st' : TgStorage} :
      0 < st.size → tgStoragePop slots st = some (f, st') → TableCall st (.pop f) st'
  | find {path : List UInt8} :
      TableCall st (.find path ((tgStorageFindByPath st path).bind fun i => st.files[i]?)) st
  | remove {path : List UInt8} :
      TableCall st (.remove path (tgStorageRemoveByPath st path).1)
        (tgStorageRemoveByPath st path).2

/-- The slots that an operation reads or writes, after it has resized the block. -/
def TableEvent.slots (st : TgStorage) : TableEvent → List Nat
  | .push _ => [st.size]
  | .pop _ => [st.size - 1]
  | .find .. | .remove .. => List.range st.size

/-- A push of a path that is not there. -/
def TableEvent.Fresh (st : TgStorage) : TableEvent → Prop
  | .push f => st.lookup f.pathStr = none
  | _ => True

/-- The operations on a bag of entries. -/
inductive BagStep : Multiset TgFile → TableEvent → Multiset TgFile → Prop
  | push {bag : Multiset TgFile} {f : TgFile} : BagStep bag (.push f) (f ::ₘ bag)
  | pop {bag : Multiset TgFile} {f : TgFile} : BagStep (f ::ₘ bag) (.pop f) bag
  | find {bag : Multiset TgFile} {path : List UInt8} {f : TgFile} :
      f ∈ bag → f.pathStr = path → BagStep bag (.find path (some f)) bag
  | findNone {bag : Multiset TgFile} {path : List UInt8} :
      (∀ f ∈ bag, f.pathStr ≠ path) → BagStep bag (.find path none) bag
  | remove {bag : Multiset TgFile} {path : List UInt8} {f : TgFile} :
      f.pathStr = path → BagStep (f ::ₘ bag) (.remove path f) bag
  | removeNone {bag : Multiset TgFile} {path : List UInt8} :
      (∀ f ∈ bag, f.pathStr ≠ path) → BagStep bag (.remove path TgFile.zero) bag

/-- The operations on a map from paths to entries. -/
inductive MapStep : (List UInt8 → Option TgFile) → TableEvent → (List UInt8 → Option TgFile) → Prop
  | push {m : List UInt8 → Option TgFile} {f : TgFile} :
      m f.pathStr = none → MapStep m (.push f) (Function.update m f.pathStr (some f))
  | pop {m : List UInt8 → Option TgFile} {f : TgFile} :
      m f.pathStr = some f → MapStep m (.pop f) (Function.update m f.pathStr none)
  | find {m : List UInt8 → Option TgFile} {path : List UInt8} : MapStep m (.find path (m path)) m
  | remove {m : List UInt8 → Option TgFile} {path : List UInt8} :
      MapStep m (.remove path ((m path).getD TgFile.zero)) (Function.update m path none)

-- ============================================================================
-- Steps
-- ============================================================================

section Steps

variable {st st' : TgStorage} {ev : TableEvent}

/-- The entry that a search points to is the one it finds. -/
theorem found_eq_lookup (st : TgStorage) (path : List UInt8) :
    ((tgStorageFindByPath st path).bind fun i => st.files[i]?) = st.lookup path := by
  cases hi : tgStorageFindByPath st path with
  | none => rw [lookup_eq_none hi, Option.bind_none]
  | some i =>
      obtain ⟨f, hl, -, hfile, -⟩ := tgStorageFindByPath_lookup hi
      rw [hl, Option.bind_some, hfile]

/-- What a pop that went through took out. -/
theorem tgStoragePop_inv (hv : st.Valid) {slots : Nat → TgFile} {f : TgFile}
    (hpos : 0 < st.size) (h : tgStoragePop slots st = some (f, st')) :
    st'.Valid ∧ st.size - 1 < st'.files.length ∧ st.live = st'.live ++ [f] := by
  obtain ⟨g, t, ht, hv', -, hlast, hlive⟩ := tgStoragePop_spec hv hpos slots
  rw [ht] at h
  cases h
  exact ⟨hv', hlast, hlive⟩

/-- An operation keeps the capacity invariant, and its accesses are in the block. -/
theorem TableCall.valid (hv : st.Valid) (h : TableCall st ev st') :
    st'.Valid ∧ ∀ k ∈ ev.slots st, k < st'.files.length := by
  cases h with
  | push _ hpush =>
      obtain ⟨hv', hlive, hsize⟩ := tgStoragePush_spec hv hpush
      refine ⟨hv', fun k hk => ?_⟩
      rw [List.mem_singleton.mp hk]
      have := hv'.length_files
      have := hv'.size_le
      omega
  | pop hpos hpop =>
      obtain ⟨hv', hlast, -⟩ := tgStoragePop_inv hv hpos hpop
      refine ⟨hv', fun k hk => ?_⟩
      rw [List.mem_singleton.mp hk]
      exact hlast
  | find =>
      refine ⟨hv, fun k hk => ?_⟩
      have := List.mem_range.mp hk
      have := hv.length_files
      have := hv.size_le
      omega
  | @remove path =>
      have hblock : (tgStorageRemoveByPath st path).2.files.length = st.files.length := by
        unfold tgStorageRemoveByPath
        split
        · rfl
        · split
          · exact List.length_set ..
          · rfl
      refine ⟨?_, fun k hk => ?_⟩
      · cases hi : tgStorageFindByPath st path with
        | none =>
            rw [tgStorageRemoveByPath_none hi]
            exact hv
        | some i =>
            obtain ⟨-, -, -, -, hv', -⟩ := tgStorageRemoveByPath_some hv hi
            exact hv'
      · rw [hblock]
        have := List.mem_range.mp hk
        have := hv.length_files
        have := hv.size_le
        omega

/-- The live entries follow the bag. -/
theorem TableCall.bag (hv : st.Valid) (h : TableCall st ev st') :
    BagStep (st.live : Multiset TgFile) ev (st'.live : Multiset TgFile) := by
  cases h with
  | @push _ f _ _ hpush =>
      have hperm : (st'.live : Multiset TgFile) = f ::ₘ (st.live : Multiset TgFile) := by
        rw [(tgStoragePush_spec hv hpush).2.1]
        exact Multiset.coe_eq_coe.mpr (List.perm_append_singleton f st.live)
      rw [hperm]
      exact .push
  | @pop slots f _ hpos hpop =>
      obtain ⟨-, -, hlive⟩ := tgStoragePop_inv hv hpos hpop
      have hperm : (st.live : Multiset TgFile) = f ::ₘ (st'.live : Multiset TgFile) := by
        rw [hlive]
        exact Multiset.coe_eq_coe.mpr (List.perm_append_singleton f st'.live)
      rw [hperm]
      exact .pop
  | @find path =>
      rw [found_eq_lookup]
      cases hl : st.lookup path with
      | none => exact .findNone (lookup_none.mp hl)
      | some f => exact .find (lookup_some hl).1 (lookup_some hl).2
  | @remove path =>
      cases hi : tgStorageFindByPath st path with
      | none =>
          rw [tgStorageRemoveByPath_none hi]
          exact .removeNone (tgStorageFindByPath_none.mp hi)
      | some i =>
          obtain ⟨f, hf, hp, hfst, -, hlive⟩ := tgStorageRemoveByPath_some hv hi
          have hperm : (st.live : Multiset TgFile)
              = f ::ₘ ((tgStorageRemoveByPath st path).2.live : Multiset TgFile) := by
            rw [hlive]
            exact Multiset.coe_eq_coe.mpr (swapRemove_perm hf)
          rw [hperm, hfst]
          exact .remove hp

/-- As long as paths are distinct, a search by path follows the map. -/
theorem TableCall.map (hv : st.Valid) (hd : Distinct TgFile.pathStr st.live) (hf : ev.Fresh st)
    (h : TableCall st ev st') :
    MapStep st.lookup ev st'.lookup ∧ Distinct TgFile.pathStr st'.live := by
  cases h with
  | @push _ f _ _ hpush =>
      have hlive := (tgStoragePush_spec hv hpush).2.1
      obtain ⟨hd', hmap⟩ := lookup_enter hd hf hlive
      rw [hmap]
      exact ⟨.push hf, hd'⟩
  | @pop slots f _ hpos hpop =>
      obtain ⟨-, -, hlive⟩ := tgStoragePop_inv hv hpos hpop
      obtain ⟨hd', hfound, hmap⟩ :=
        lookup_leave hd (hlive ▸ List.perm_append_singleton f st'.live)
      rw [hmap]
      exact ⟨.pop hfound, hd'⟩
  | @find path =>
      rw [found_eq_lookup]
      exact ⟨.find, hd⟩
  | @remove path =>
      cases hi : tgStorageFindByPath st path with
      | none =>
          have hl := lookup_eq_none hi
          rw [tgStorageRemoveByPath_none hi]
          have hmap : st.lookup = Function.update st.lookup path none := by
            rw [← hl, Function.update_eq_self]
          refine ⟨?_, hd⟩
          have hstep : MapStep st.lookup (.remove path _) _ := .remove
          rw [hl, ← hmap] at hstep
          exact hstep
      | some i =>
          obtain ⟨f, hfi, hp, hfst, -, hlive⟩ := tgStorageRemoveByPath_some hv hi
          obtain ⟨hd', hfound, hmap⟩ := lookup_leave hd (by rw [hlive]; exact swapRemove_perm hfi)
          rw [hp] at hfound hmap
          rw [hmap, hfst]
          refine ⟨?_, hd'⟩
          have hstep : MapStep st.lookup (.remove path _) _ := .remove
          rw [hfound] at hstep
          exact hstep

end Steps

-- ============================================================================
-- Runs
-- ============================================================================

/-- What holds of a table that a run reaches. -/
structure TableSafe (st : TgStorage) : Prop where
  size_le : st.size ≤ st.cap
  length_files : st.files.length = st.cap
  /-- Every slot that an operation reads or writes is in the block. -/
  inBlock : ∀ ev st', TableCall st ev st' → ∀ k ∈ ev.slots st, k < st'.files.length
  /-- Pushes and pops go through. -/
  push_some : ∀ slots f, st.size < 2 ^ 30 → ∃ st', tgStoragePush slots st f = some st'
  pop_some : ∀ slots, 0 < st.size → ∃ f st', tgStoragePop slots st = some (f, st')
  /-- Removing an absent path changes nothing. -/
  remove_absent : ∀ path, (∀ f ∈ st.live, f.pathStr ≠ path) →
    tgStorageRemoveByPath st path = (TgFile.zero, st)

section Runs

variable {slots : Nat → TgFile} {st : TgStorage} {evs : List TableEvent}

theorem table_safe (hv : st.Valid) : TableSafe st where
  size_le := hv.size_le
  length_files := hv.length_files
  inBlock := fun _ _ h => (h.valid hv).2
  push_some := by
    intro slots f hsize
    unfold tgStoragePush
    split
    · next hfull =>
      have hle := hv.size_le
      exact ⟨_, if_pos (by unfold intMax; omega)⟩
    · exact ⟨_, rfl⟩
  pop_some := fun slots hpos =>
    let ⟨f, st', h, _⟩ := tgStoragePop_spec hv hpos slots
    ⟨f, st', h⟩
  remove_absent := fun _ hno => tgStorageRemoveByPath_none (tgStorageFindByPath_none.mpr hno)

/-- The live entries follow the bag. -/
theorem bag_simulates (st : TgStorage) (ev : TableEvent) (st' : TgStorage) (bag : Multiset TgFile)
    (h : st.Valid ∧ (st.live : Multiset TgFile) = bag) (hstep : TableCall st ev st') :
    ∃ new, BagStep bag ev new ∧ st'.Valid ∧ (st'.live : Multiset TgFile) = new := by
  obtain ⟨hv, rfl⟩ := h
  exact ⟨_, hstep.bag hv, (hstep.valid hv).1, rfl⟩

/-- A search by path follows the map. -/
theorem map_simulates (st : TgStorage) (ev : TableEvent) (st' : TgStorage)
    (m : List UInt8 → Option TgFile)
    (h : st.Valid ∧ Distinct TgFile.pathStr st.live ∧ st.lookup = m)
    (hstep : ev.Fresh st ∧ TableCall st ev st') :
    ∃ new, MapStep m ev new ∧
      st'.Valid ∧ Distinct TgFile.pathStr st'.live ∧ st'.lookup = new := by
  obtain ⟨hv, hd, rfl⟩ := h
  obtain ⟨hmap, hd'⟩ := hstep.2.map hv hd hstep.1
  exact ⟨_, hmap, (hstep.2.valid hv).1, hd', rfl⟩

theorem tableRun_bag (hrun : Run TableCall (tgStorageNew slots) evs st) :
    st.Valid ∧ Run BagStep 0 evs (st.live : Multiset TgFile) := by
  have hinit : (tgStorageNew slots).Valid ∧
      ((tgStorageNew slots).live : Multiset TgFile) = 0 := ⟨tgStorageNew_valid slots, rfl⟩
  obtain ⟨bag, hbag, hv, rfl⟩ := hrun.simulate bag_simulates hinit
  exact ⟨hv, hbag⟩

theorem tableRun_map
    (hrun : Run (fun st ev st' => ev.Fresh st ∧ TableCall st ev st') (tgStorageNew slots) evs st) :
    Run MapStep (fun _ => none) evs st.lookup := by
  have hinit : (tgStorageNew slots).Valid ∧ Distinct TgFile.pathStr (tgStorageNew slots).live ∧
      (tgStorageNew slots).lookup = fun _ => none :=
    ⟨tgStorageNew_valid slots, List.nodup_nil, rfl⟩
  obtain ⟨m, hmap, -, -, rfl⟩ := hrun.simulate map_simulates hinit
  exact hmap

/-- Every run of the table is a run of a bag of entries, and one of a map from
    paths to entries when no path is pushed twice. -/
theorem table_refines (hrun : Run TableCall (tgStorageNew slots) evs st) :
    TableSafe st ∧ Run BagStep 0 evs (st.live : Multiset TgFile) ∧
      ∀ evs' st', Run (fun st ev st' => ev.Fresh st ∧ TableCall st ev st') (tgStorageNew slots)
        evs' st' → Run MapStep (fun _ => none) evs' st'.lookup := by
  obtain ⟨hv, hbag⟩ := tableRun_bag hrun
  exact ⟨table_safe hv, hbag, fun _ _ h => tableRun_map h⟩

/-- The table after an operation that takes or returns this entry, if it does. -/
def TableEvent.next (slots : Nat → TgFile) (st : TgStorage) : TableEvent → Option TgStorage
  | .push f =>
      if st.size < 2 ^ 30 ∧ st.lookup f.pathStr = none then tgStoragePush slots st f else none
  | .pop f =>
      if 0 < st.size then
        (tgStoragePop slots st).bind fun r => if r.1 = f then some r.2 else none
      else none
  | .find path found =>
      if ((tgStorageFindByPath st path).bind fun i => st.files[i]?) = found then some st else none
  | .remove path f =>
      if (tgStorageRemoveByPath st path).1 = f then some (tgStorageRemoveByPath st path).2 else none

theorem TableEvent.next_some {st' : TgStorage} {ev : TableEvent}
    (h : ev.next slots st = some st') : ev.Fresh st ∧ TableCall st ev st' := by
  cases ev with
  | push f =>
      obtain ⟨⟨hsize, hfresh⟩, hpush⟩ := Option.ite_none_right_eq_some.mp h
      exact ⟨hfresh, .push hsize hpush⟩
  | pop f =>
      obtain ⟨hpos, hnext⟩ := Option.ite_none_right_eq_some.mp h
      obtain ⟨⟨g, t⟩, hpop, heq⟩ := Option.bind_eq_some_iff.mp hnext
      obtain ⟨rfl, ht⟩ := Option.ite_none_right_eq_some.mp heq
      cases ht
      exact ⟨trivial, .pop hpos hpop⟩
  | find path found =>
      obtain ⟨rfl, hst⟩ := Option.ite_none_right_eq_some.mp h
      cases hst
      exact ⟨trivial, .find⟩
  | remove path f =>
      obtain ⟨rfl, hst⟩ := Option.ite_none_right_eq_some.mp h
      cases hst
      exact ⟨trivial, .remove⟩

/-- An entry with a path and a size. -/
def sampleEntry (path : String) (size : Nat) : TgFile :=
  (tgFileNewFile (text path) size).getD TgFile.zero

/-- Six entries go in, so that the block grows twice; one is taken out of the middle and
    enters again at the end, and two leave from the end, so that the block shrinks. -/
def sampleScript : List TableEvent :=
  [.push (sampleEntry "/a" 1), .push (sampleEntry "/b" 2), .find (text "/c") none,
    .push (sampleEntry "/c" 3), .push (sampleEntry "/d" 4), .push (sampleEntry "/e" 5),
    .push (sampleEntry "/f" 6), .find (text "/c") (some (sampleEntry "/c" 3)),
    .remove (text "/b") (sampleEntry "/b" 2), .find (text "/b") none,
    .find (text "/f") (some (sampleEntry "/f" 6)), .remove (text "/x") TgFile.zero,
    .pop (sampleEntry "/e" 5), .pop (sampleEntry "/d" 4), .push (sampleEntry "/b" 7),
    .find (text "/b") (some (sampleEntry "/b" 7))]

/-- The script is a run, and the table, the bag and the map have their entries. -/
theorem table_refines_sample :
    ∃ mid st, (sampleScript.take 7).foldlM (fun t ev => ev.next (fun _ => TgFile.zero) t)
        (tgStorageNew fun _ => TgFile.zero) = some mid ∧ mid.cap = 11 ∧ st.cap = 5 ∧
      st.live = [sampleEntry "/a" 1, sampleEntry "/f" 6, sampleEntry "/c" 3, sampleEntry "/b" 7] ∧
      TableSafe st ∧ Run BagStep 0 sampleScript (st.live : Multiset TgFile) ∧
      Run MapStep (fun _ => none) sampleScript st.lookup ∧
      st.lookup (text "/b") = some (sampleEntry "/b" 7) ∧ st.lookup (text "/e") = none := by
  obtain ⟨mid, hmid, hgrown⟩ : ∃ mid, (sampleScript.take 7).foldlM
      (fun t ev => ev.next (fun _ => TgFile.zero) t)
      (tgStorageNew fun _ => TgFile.zero) = some mid ∧ mid.cap = 11 :=
    Option.map_eq_some_iff.mp (by decide +kernel)
  obtain ⟨st, hst, hcheck⟩ : ∃ st, sampleScript.foldlM
      (fun t ev => ev.next (fun _ => TgFile.zero) t) (tgStorageNew fun _ => TgFile.zero) = some st ∧
      decide (st.cap = 5 ∧ st.live = [sampleEntry "/a" 1, sampleEntry "/f" 6, sampleEntry "/c" 3,
        sampleEntry "/b" 7] ∧ st.lookup (text "/b") = some (sampleEntry "/b" 7) ∧
        st.lookup (text "/e") = none) = true :=
    Option.map_eq_some_iff.mp (by decide +kernel)
  obtain ⟨hcap, hlive, hb, he⟩ := of_decide_eq_true hcheck
  have hrun : Run (fun st ev st' => ev.Fresh st ∧ TableCall st ev st')
      (tgStorageNew fun _ => TgFile.zero) sampleScript st :=
    .of_foldlM (fun _ _ _ h => TableEvent.next_some h) hst
  obtain ⟨hsafe, hbag, hmap⟩ := table_refines (hrun.mono fun _ _ _ h => h.2)
  exact ⟨mid, st, hmid, hgrown, hcap, hlive, hsafe, hbag, hmap _ _ hrun, hb, he⟩

end Runs

end TgFuse

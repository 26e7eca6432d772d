/-
  TgFuse.Lib.KeyedList

  Unordered tables kept in a list: entries are found by a key, replaced in
  place, and removed by moving the last one into the gap.

  Positions do not matter to what such a table stands for, so every operation is
  described up to permutation: `set_perm` and `swapRemove_perm` single out the
  entry concerned and leave the same rest.  `Distinct key l` says that no key
  occurs twice; under it membership is lookup, and `lookup key l` is a map that
  adding and removing entries update.
-/

import Mathlib.Data.List.Nodup
import Mathlib.Data.List.Perm.Basic
import Mathlib.Logic.Function.Basic

namespace KeyedList

variable {α κ : Type}

-- ============================================================================
-- Replacing and removing
-- ============================================================================

/-- Remove the entry at `i`: the last entry takes its place. -/
def swapRemove (l : List α) (i : Nat) : List α :=
  match l.getLast? with
  | none => []
  | some x => (l.set i x).dropLast

theorem getElem?_perm {l : List α} {i : Nat} {x : α} (h : l[i]? = some x) :
    l.Perm (x :: l.eraseIdx i) := by
  obtain ⟨hi, rfl⟩ := List.getElem?_eq_some_iff.mp h
  exact (List.getElem_cons_eraseIdx_perm hi).symm

/-- Replacing an entry leaves the others. -/
theorem set_perm {l : List α} {i : Nat} {x : α} (h : l[i]? = some x) (y : α) :
    (l.set i y).Perm (y :: l.eraseIdx i) := by
  obtain ⟨hi, -⟩ := List.getElem?_eq_some_iff.mp h
  exact List.set_perm_cons_eraseIdx hi y

theorem swapRemove_append_singleton (l : List α) (x : α) (i : Nat) :
    swapRemove (l ++ [x]) i = if i < l.length then l.set i x else l := by
  have hlast : (l ++ [x]).getLast? = some x := by simp
  rw [swapRemove, hlast]
  dsimp only
  split
  · next hi => rw [List.set_append_left i x hi, List.dropLast_concat]
  · next hi =>
    rw [List.set_append_right i x (by omega)]
    cases hk : i - l.length with
    | zero => simp
    | succ k => simp

/-- Swap-removal takes out just the entry asked for. -/
theorem swapRemove_perm {l : List α} {i : Nat} {x : α} (h : l[i]? = some x) :
    l.Perm (x :: swapRemove l i) := by
  obtain ⟨hi, -⟩ := List.getElem?_eq_some_iff.mp h
  obtain rfl | ⟨init, z, rfl⟩ := List.eq_nil_or_concat l
  · simp at hi
  · rw [List.concat_eq_append] at h hi ⊢
    rw [swapRemove_append_singleton]
    split
    · next hlt =>
      rw [List.getElem?_append_left hlt] at h
      calc (init ++ [z]).Perm (z :: init) := List.perm_append_singleton z init
        _ |>.Perm (z :: x :: init.eraseIdx i) := (getElem?_perm h).cons z
        _ |>.Perm (x :: z :: init.eraseIdx i) := List.Perm.swap x z _
        _ |>.Perm (x :: init.set i z) := (set_perm h z).symm.cons x
    · next hge =>
      rw [List.getElem?_append_right (by omega)] at h
      simp only [List.length_append, List.length_singleton] at hi
      obtain rfl : z = x := by
        have h0 : i - init.length = 0 := by omega
        simpa [h0] using h
      exact List.perm_append_singleton z init

theorem swapRemove_length {l : List α} {i : Nat} : (swapRemove l i).length = l.length - 1 := by
  rw [swapRemove]
  cases h : l.getLast? with
  | none => simp [List.getLast?_eq_none_iff.mp h]
  | some x => simp

-- ============================================================================
-- Keys
-- ============================================================================

variable {key : α → κ}

/-- No key occurs twice. -/
def Distinct (key : α → κ) (l : List α) : Prop := (l.map key).Nodup

theorem Distinct.perm {l l' : List α} (h : Distinct key l) (hp : l.Perm l') :
    Distinct key l' := (hp.map key).nodup_iff.mp h

theorem distinct_cons {x : α} {l : List α} :
    Distinct key (x :: l) ↔ (∀ y ∈ l, key y ≠ key x) ∧ Distinct key l := by
  simp only [Distinct, List.map_cons, List.nodup_cons, List.mem_map, not_exists, not_and]

theorem Distinct.eq_of_key {l : List α} (h : Distinct key l) {x y : α} (hx : x ∈ l) (hy : y ∈ l)
    (hk : key x = key y) : x = y := List.inj_on_of_nodup_map h hx hy hk

/-- Appending an entry under a new key. -/
theorem Distinct.append_singleton {l : List α} (h : Distinct key l) {x : α}
    (hx : ∀ y ∈ l, key y ≠ key x) : Distinct key (l ++ [x]) :=
  (distinct_cons.mpr ⟨hx, h⟩).perm (List.perm_append_singleton x l).symm

/-- Replacing an entry under its own key. -/
theorem Distinct.set {l : List α} (h : Distinct key l) {i : Nat} {x y : α}
    (hi : l[i]? = some x) (hk : key y = key x) : Distinct key (l.set i y) := by
  have hsplit := distinct_cons.mp (h.perm (getElem?_perm hi))
  exact (distinct_cons.mpr ⟨fun z hz => hk ▸ hsplit.1 z hz, hsplit.2⟩).perm (set_perm hi y).symm

theorem Distinct.swapRemove {l : List α} (h : Distinct key l) {i : Nat} {x : α}
    (hi : l[i]? = some x) : Distinct key (swapRemove l i) :=
  (distinct_cons.mp (h.perm (swapRemove_perm hi))).2

/-- An element is in one place only. -/
theorem Distinct.index_eq {l : List α} (h : Distinct key l) {i j : Nat} {x : α}
    (hi : l[i]? = some x) (hj : l[j]? = some x) : i = j := by
  have hnd : l.Nodup := List.Nodup.of_map _ h
  obtain ⟨hil, hie⟩ := List.getElem?_eq_some_iff.mp hi
  obtain ⟨hjl, hje⟩ := List.getElem?_eq_some_iff.mp hj
  exact hnd.getElem_inj_iff.mp (hie.trans hje.symm)

theorem mem_set_iff {l : List α} (h : Distinct key l) {i : Nat} {x y z : α}
    (hi : l[i]? = some x) : z ∈ l.set i y ↔ z = y ∨ (z ∈ l ∧ key z ≠ key x) := by
  have hsplit := distinct_cons.mp (h.perm (getElem?_perm hi))
  rw [(set_perm hi y).mem_iff, (getElem?_perm hi).mem_iff, List.mem_cons, List.mem_cons]
  constructor
  · rintro (rfl | hz)
    · exact Or.inl rfl
    · exact Or.inr ⟨Or.inr hz, hsplit.1 z hz⟩
  · rintro (rfl | ⟨rfl | hz, hne⟩)
    · exact Or.inl rfl
    · exact absurd rfl hne
    · exact Or.inr hz

theorem mem_swapRemove_iff {l : List α} (h : Distinct key l) {i : Nat} {x z : α}
    (hi : l[i]? = some x) : z ∈ swapRemove l i ↔ z ∈ l ∧ key z ≠ key x := by
  have hsplit := distinct_cons.mp (h.perm (swapRemove_perm hi))
  rw [(swapRemove_perm hi).mem_iff, List.mem_cons]
  constructor
  · intro hz
    exact ⟨Or.inr hz, hsplit.1 z hz⟩
  · rintro ⟨rfl | hz, hne⟩
    · exact absurd rfl hne
    · exact hz

-- ============================================================================
-- Lists as maps
-- ============================================================================

section Lookup

variable [DecidableEq κ]

/-- The first entry under a key. -/
def lookup (key : α → κ) (l : List α) (k : κ) : Option α := l.find? fun x => key x = k

theorem Distinct.lookup_eq_some_iff {l : List α} (h : Distinct key l) {k : κ} {x : α} :
    lookup key l k = some x ↔ x ∈ l ∧ key x = k := by
  constructor
  · intro hx
    exact ⟨List.mem_of_find?_eq_some hx, by simpa using List.find?_some hx⟩
  · rintro ⟨hx, rfl⟩
    cases hl : lookup key l (key x) with
    | none =>
        have := List.find?_eq_none.mp hl x hx
        simp at this
    | some y =>
        have hy : key y = key x := by simpa using List.find?_some hl
        rw [h.eq_of_key (List.mem_of_find?_eq_some hl) hx hy]

/-- Positions do not matter to a lookup. -/
theorem Distinct.lookup_perm {l l' : List α} (h : Distinct key l) (hp : l.Perm l') :
    lookup key l = lookup key l' := by
  funext k
  apply Option.ext
  intro x
  rw [h.lookup_eq_some_iff, (h.perm hp).lookup_eq_some_iff, hp.mem_iff]

/-- A further entry updates the map. -/
theorem lookup_cons (x : α) (l : List α) :
    lookup key (x :: l) = Function.update (lookup key l) (key x) (some x) := by
  funext k
  rw [lookup, List.find?_cons]
  by_cases hk : key x = k
  · subst hk
    simp
  · simp only [hk, decide_false, Function.update_of_ne (Ne.symm hk)]
    rfl

/-- An entry less updates the map. -/
theorem Distinct.lookup_tail {x : α} {l : List α} (h : Distinct key (x :: l)) :
    lookup key l = Function.update (lookup key (x :: l)) (key x) none := by
  obtain ⟨hx, hl⟩ := distinct_cons.mp h
  rw [lookup_cons, Function.update_idem]
  funext k
  by_cases hk : k = key x
  · subst hk
    rw [Function.update_self, lookup, List.find?_eq_none]
    intro y hy
    simpa using hx y hy
  · rw [Function.update_of_ne hk]

end Lookup

end KeyedList

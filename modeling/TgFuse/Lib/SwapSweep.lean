/-
  TgFuse.Lib.SwapSweep

  Scanning a table upwards and removing every entry that matches, where each
  removal moves the last entry into the gap and the scan goes on behind the gap.

  The entry that fills a gap is not looked at, so the scan may leave matching
  entries behind.  `sweep_complete_iff` says exactly when it does not, and `reached`
  are the entries it looks at, by their place in the table before the scan.
-/

import Mathlib.Data.List.Perm.Basic
import TgFuse.Lib.KeyedList

namespace SwapSweep

open KeyedList

variable {α : Type} (c : α → Bool)

/-- The first position from `start` on with a matching entry. -/
def nextIn (l : List α) (start : Nat) : Option Nat :=
  ((l.drop start).findIdx? c).map (· + start)

/-- The scan: the entries removed, in order, and what is left. -/
def sweep : Nat → Nat → List α → List α × List α
  | 0, _, l => ([], l)
  | rounds + 1, start, l =>
      match nextIn c l start with
      | none => ([], l)
      | some i =>
          let r := sweep rounds (i + 1) (swapRemove l i)
          (l[i]?.toList ++ r.1, r.2)

variable {c} {l : List α} {start i : Nat}

theorem nextIn_some (h : nextIn c l start = some i) :
    start ≤ i ∧ (∃ x, l[i]? = some x ∧ c x = true) ∧
      ∀ j, start ≤ j → j < i → ∀ x, l[j]? = some x → c x = false := by
  obtain ⟨k, hk, rfl⟩ := Option.map_eq_some_iff.mp h
  obtain ⟨hlt, hck, hmin⟩ := List.findIdx?_eq_some_iff_getElem.mp hk
  refine ⟨Nat.le_add_left _ _, ⟨(l.drop start)[k], ?_, hck⟩, ?_⟩
  · rw [Nat.add_comm, ← List.getElem?_drop]
    exact List.getElem?_eq_getElem hlt
  · intro j hj hji x hx
    have hd : (l.drop start)[j - start]? = some x := by
      rw [List.getElem?_drop, Nat.add_sub_cancel' hj]
      exact hx
    obtain ⟨hjl, hjx⟩ := List.getElem?_eq_some_iff.mp hd
    have := hmin (j - start) (by omega)
    rw [hjx] at this
    simpa using this

theorem nextIn_none (h : nextIn c l start = none) :
    ∀ j, start ≤ j → ∀ x, l[j]? = some x → c x = false := by
  intro j hj x hx
  have hd : (l.drop start)[j - start]? = some x := by
    rw [List.getElem?_drop, Nat.add_sub_cancel' hj]
    exact hx
  have hall := List.findIdx?_eq_none_iff.mp (Option.map_eq_none_iff.mp h)
  exact hall x (List.mem_of_getElem? hd)

/-- What the search skips, what it finds, and what stands behind it. -/
theorem nextIn_split (h : nextIn c l start = some i) :
    ∃ y pre, l[i]? = some y ∧ c y = true ∧ (∀ z ∈ pre, c z = false) ∧
      l.take i = l.take start ++ pre ∧ l.drop start = pre ++ y :: l.drop (i + 1) := by
  obtain ⟨hsi, ⟨y, hy, hc⟩, hmin⟩ := nextIn_some h
  obtain ⟨hi, hget⟩ := List.getElem?_eq_some_iff.mp hy
  refine ⟨y, (l.drop start).take (i - start), hy, hc, ?_, ?_, ?_⟩
  · intro z hz
    obtain ⟨j, hj⟩ := List.mem_iff_getElem?.mp hz
    rw [List.getElem?_take] at hj
    split at hj
    · rw [List.getElem?_drop] at hj
      exact hmin _ (Nat.le_add_right _ _) (by omega) z hj
    · cases hj
  · rw [← List.take_add, Nat.add_sub_cancel' hsi]
  · conv_lhs => rw [← List.take_append_drop (i - start) (l.drop start)]
    rw [List.drop_drop, Nat.add_sub_cancel' hsi, ← List.getElem_cons_drop hi, hget]

/-- The scan only moves entries around and takes some out. -/
theorem sweep_perm (rounds start : Nat) (l : List α) :
    l.Perm ((sweep c rounds start l).1 ++ (sweep c rounds start l).2) := by
  induction rounds generalizing start l with
  | zero => exact List.Perm.refl l
  | succ rounds ih =>
      rw [sweep]
      cases h : nextIn c l start with
      | none => exact List.Perm.refl l
      | some i =>
          obtain ⟨-, ⟨x, hx, -⟩, -⟩ := nextIn_some h
          have hrest := ih (i + 1) (swapRemove l i)
          simp only [hx, Option.toList_some, List.cons_append, List.nil_append]
          exact (swapRemove_perm hx).trans (hrest.cons x)

/-- What it takes out matches. -/
theorem sweep_removed (rounds start : Nat) (l : List α) :
    ∀ x ∈ (sweep c rounds start l).1, c x = true := by
  induction rounds generalizing start l with
  | zero =>
      intro x hx
      simp [sweep] at hx
  | succ rounds ih =>
      rw [sweep]
      cases h : nextIn c l start with
      | none =>
          intro x hx
          simp at hx
      | some i =>
          obtain ⟨-, ⟨x, hx, hcx⟩, -⟩ := nextIn_some h
          intro y hy
          simp only [hx, Option.toList_some, List.cons_append, List.nil_append,
            List.mem_cons] at hy
          rcases hy with rfl | hy
          · exact hcx
          · exact ih _ _ y hy

/-- An entry of a swapped list stood in the list, at its place or at its end. -/
theorem swapRemove_getElem? {x : α} (hi : i < l.length) {j : Nat}
    (h : (swapRemove l i)[j]? = some x) :
    j + 1 < l.length ∧ ((j = i ∧ l[l.length - 1]? = some x) ∨ (j ≠ i ∧ l[j]? = some x)) := by
  obtain rfl | ⟨init, z, rfl⟩ := List.eq_nil_or_concat l
  · simp at hi
  · rw [List.concat_eq_append] at h hi ⊢
    rw [swapRemove_append_singleton] at h
    simp only [List.length_append, List.length_singleton] at hi ⊢
    split at h
    · next hlt =>
      rw [List.getElem?_set] at h
      split at h
      · next hij =>
        subst hij
        exact ⟨by omega, Or.inl ⟨rfl, by simpa using h⟩⟩
      · next hij =>
        obtain ⟨hj, -⟩ := List.getElem?_eq_some_iff.mp h
        exact ⟨by omega, Or.inr ⟨fun h => hij h.symm, by rw [List.getElem?_append_left hj, h]⟩⟩
    · next hge =>
      obtain ⟨hj, -⟩ := List.getElem?_eq_some_iff.mp h
      exact ⟨by omega, Or.inr ⟨by omega, by rw [List.getElem?_append_left hj, h]⟩⟩

/-- An entry before the end stays, unless it is the one removed. -/
theorem getElem?_swapRemove {x : α} {j : Nat} (hi : i < l.length) (h : l[j]? = some x)
    (hji : j ≠ i) :
    (j + 1 < l.length ∧ (swapRemove l i)[j]? = some x) ∨
      (j + 1 = l.length ∧ i < j ∧ (swapRemove l i)[i]? = some x) := by
  obtain rfl | ⟨init, z, rfl⟩ := List.eq_nil_or_concat l
  · simp at hi
  · rw [List.concat_eq_append] at h hi ⊢
    rw [swapRemove_append_singleton]
    obtain ⟨hj, -⟩ := List.getElem?_eq_some_iff.mp h
    simp only [List.length_append, List.length_singleton] at hi hj ⊢
    by_cases hjl : j < init.length
    · rw [List.getElem?_append_left hjl] at h
      refine Or.inl ⟨by omega, ?_⟩
      split
      · rw [List.getElem?_set_ne (Ne.symm hji), h]
      · exact h
    · rw [List.getElem?_append_right (by omega)] at h
      have hj0 : j - init.length = 0 := by omega
      rw [hj0] at h
      have hlt : i < init.length := by omega
      refine Or.inr ⟨by omega, by omega, ?_⟩
      rw [if_pos hlt, List.getElem?_set_self hlt]
      simpa using h

/-- Two matching positions count twice. -/
theorem two_le_countP {j : Nat} {x y : α} (hi : l[i]? = some x) (hx : c x = true)
    (hj : l[j]? = some y) (hy : c y = true) (hne : i ≠ j) : 2 ≤ l.countP c := by
  have hp := swapRemove_perm hi
  have hc := hp.countP_eq c
  rw [List.countP_cons_of_pos hx] at hc
  obtain ⟨hil, -⟩ := List.getElem?_eq_some_iff.mp hi
  have hmem : y ∈ swapRemove l i := by
    rcases getElem?_swapRemove hil hj hne.symm with ⟨-, h⟩ | ⟨-, -, h⟩
    · exact List.mem_of_getElem? h
    · exact List.mem_of_getElem? h
  have := List.countP_pos_iff.mpr ⟨y, hmem, hy⟩
  omega

/-- Every matching entry stands from `start` on, with as many entries behind the
    last of them as there are others. -/
def Layout (c : α → Bool) (start : Nat) (l : List α) : Prop :=
  ∀ i x, l[i]? = some x → c x = true → start ≤ i ∧ i + l.countP c ≤ l.length

instance (c : α → Bool) (start : Nat) (l : List α) : Decidable (Layout c start l) :=
  decidable_of_iff (∀ i < l.length, ∀ x ∈ l[i]?, c x = true → start ≤ i ∧ i + l.countP c ≤ l.length)
    ⟨fun h i x hi => h i (List.getElem?_eq_some_iff.mp hi).1 x hi, fun h i _ x hi => h i x hi⟩

/-- One removal keeps the layout condition, in both directions. -/
theorem layout_swapRemove (h : nextIn c l start = some i) :
    Layout c start l ↔ Layout c (i + 1) (swapRemove l i) := by
  obtain ⟨hsi, ⟨x, hx, hcx⟩, hmin⟩ := nextIn_some h
  obtain ⟨hi, -⟩ := List.getElem?_eq_some_iff.mp hx
  have hlen : (swapRemove l i).length = l.length - 1 := swapRemove_length
  have hcount : l.countP c = (swapRemove l i).countP c + 1 := by
    rw [(swapRemove_perm hx).countP_eq c, List.countP_cons_of_pos hcx]
  constructor
  · intro hl j y hy hcy
    obtain ⟨hjl, ⟨rfl, hlast⟩ | ⟨hne, hj⟩⟩ := swapRemove_getElem? hi hy
    · -- the entry that fills the gap would stand too far behind
      have := two_le_countP hx hcx hlast hcy (by omega)
      have := (hl _ _ hlast hcy).2
      omega
    · obtain ⟨hsj, hjk⟩ := hl j y hj hcy
      have hij : ¬ j < i := fun hlt => by
        rw [hmin j hsj hlt y hj] at hcy
        cases hcy
      omega
  · intro hl j y hj hcy
    by_cases hne : j = i
    · subst hne
      refine ⟨hsi, ?_⟩
      by_cases hk : (swapRemove l j).countP c = 0
      · omega
      · obtain ⟨z, hz, hcz⟩ := List.countP_pos_iff.mp (Nat.pos_of_ne_zero hk)
        obtain ⟨m, hm⟩ := List.mem_iff_getElem?.mp hz
        obtain ⟨h1, h2⟩ := hl m z hm hcz
        omega
    · rcases getElem?_swapRemove hi hj hne with ⟨hjl, hj'⟩ | ⟨-, -, hi'⟩
      · obtain ⟨h1, h2⟩ := hl j y hj' hcy
        omega
      · obtain ⟨h1, -⟩ := hl i y hi' hcy
        omega

/-- Given enough rounds, the scan leaves no matching entry behind exactly under
    the layout condition. -/
theorem sweep_complete_iff {rounds : Nat} (hr : l.length < start + rounds) :
    (∀ x ∈ (sweep c rounds start l).2, c x = false) ↔ Layout c start l := by
  induction rounds generalizing start l with
  | zero =>
      constructor
      · intro h i x hi hc
        rw [h x (List.mem_of_getElem? hi)] at hc
        cases hc
      · intro h x hx
        change x ∈ l at hx
        obtain ⟨i, hi⟩ := List.mem_iff_getElem?.mp hx
        by_contra hc
        obtain ⟨hil, -⟩ := List.getElem?_eq_some_iff.mp hi
        obtain ⟨h1, -⟩ := h i x hi (by simpa using hc)
        omega
  | succ rounds ih =>
      rw [sweep]
      cases h : nextIn c l start with
      | none =>
          have hnone := nextIn_none h
          constructor
          · intro hall i x hi hc
            rw [hall x (List.mem_of_getElem? hi)] at hc
            cases hc
          · intro hl x hx
            obtain ⟨i, hi⟩ := List.mem_iff_getElem?.mp hx
            by_contra hc
            have hc : c x = true := by simpa using hc
            rw [hnone i (hl i x hi hc).1 x hi] at hc
            cases hc
      | some i =>
          obtain ⟨hsi, -⟩ := nextIn_some h
          have hlen : (swapRemove l i).length = l.length - 1 := swapRemove_length
          rw [layout_swapRemove h]
          exact ih (by omega)

-- ============================================================================
-- What is looked at
-- ============================================================================

/-- The matching entries whose slot is not cut off by the time the scan gets there: each
    matching entry before them has taken one slot from the end. -/
def reached (c : α → Bool) (l : List α) : List α :=
  (l.zipIdx.filter fun e => c e.1 ∧ e.2 + (l.take e.2).countP c < l.length).map Prod.fst

variable {pre rest : List α} {x y : α}

theorem mem_reached :
    x ∈ reached c l ↔ ∃ i, l[i]? = some x ∧ c x = true ∧ i + (l.take i).countP c < l.length := by
  simp only [reached, List.mem_map, List.mem_filter, decide_eq_true_eq, Prod.exists,
    List.mem_zipIdx_iff_getElem?]
  constructor
  · rintro ⟨y, i, ⟨hy, hc, hlt⟩, rfl⟩
    exact ⟨i, hy, hc, hlt⟩
  · rintro ⟨i, hx, hc, hlt⟩
    exact ⟨x, i, ⟨hx, hc, hlt⟩, rfl⟩

theorem mem_of_reached (h : x ∈ reached c l) : x ∈ l ∧ c x = true := by
  obtain ⟨i, hx, hc, -⟩ := mem_reached.mp h
  exact ⟨List.mem_of_getElem? hx, hc⟩

/-- Behind the first matching entry the scan goes on in a list that is one shorter. -/
theorem mem_reached_cons (hpre : ∀ z ∈ pre, c z = false) (hy : c y = true) :
    x ∈ reached c (pre ++ y :: rest) ↔ x = y ∨ x ∈ reached c rest.dropLast := by
  have hnone : ∀ m, (pre.take m).countP c = 0 := fun m =>
    List.countP_eq_zero.mpr fun z hz => by simp [hpre z (List.mem_of_mem_take hz)]
  have hcount : ∀ m, ((pre ++ y :: rest).take (pre.length + 1 + m)).countP c
      = 1 + (rest.take m).countP c := by
    intro m
    rw [Nat.add_assoc, List.take_length_add_append, Nat.add_comm 1 m, List.take_succ_cons,
      List.countP_append, List.countP_cons_of_pos hy, ← List.take_length (l := pre), hnone]
    omega
  have hget : ∀ m, (pre ++ y :: rest)[pre.length + 1 + m]? = rest[m]? := by
    intro m
    rw [List.getElem?_append_right (by omega), Nat.add_assoc, Nat.add_sub_cancel_left,
      Nat.add_comm, List.getElem?_cons_succ]
  rw [mem_reached, mem_reached]
  constructor
  · rintro ⟨i, hx, hc, hlt⟩
    rcases Nat.lt_trichotomy i pre.length with hi | rfl | hi
    · rw [List.getElem?_append_left hi] at hx
      rw [hpre x (List.mem_of_getElem? hx)] at hc
      cases hc
    · rw [List.getElem?_append_right (Nat.le_refl _), Nat.sub_self] at hx
      exact Or.inl (Option.some.inj hx).symm
    · obtain ⟨m, rfl⟩ := Nat.exists_eq_add_of_le hi
      rw [Nat.succ_eq_add_one] at hx hlt
      rw [hget] at hx
      rw [hcount, List.length_append, List.length_cons] at hlt
      refine Or.inr ⟨m, ?_, hc, ?_⟩
      · rw [List.getElem?_dropLast, if_pos (by omega)]
        exact hx
      · rw [List.length_dropLast, List.dropLast_eq_take, List.take_take,
          Nat.min_eq_left (by omega)]
        omega
  · rintro (rfl | ⟨m, hx, hc, hlt⟩)
    · refine ⟨pre.length, ?_, hy, ?_⟩
      · rw [List.getElem?_append_right (Nat.le_refl _), Nat.sub_self]
        rfl
      · rw [List.take_left, ← List.take_length (l := pre), hnone, List.take_length,
          List.length_append, List.length_cons]
        omega
    · rw [List.getElem?_dropLast] at hx
      rw [List.length_dropLast, List.dropLast_eq_take, List.take_take] at hlt
      split at hx
      · next hm =>
        rw [Nat.min_eq_left (by omega)] at hlt
        refine ⟨pre.length + 1 + m, ?_, hc, ?_⟩
        · rw [hget]
          exact hx
        · rw [hcount, List.length_append, List.length_cons]
          omega
      · cases hx

/-- From a slot on, by the search for the next entry. -/
theorem reached_of_nextIn_none (h : nextIn c l start = none) : x ∉ reached c (l.drop start) := by
  intro hx
  obtain ⟨hmem, hc⟩ := mem_of_reached hx
  obtain ⟨j, hj⟩ := List.mem_iff_getElem?.mp hmem
  rw [List.getElem?_drop] at hj
  rw [nextIn_none h _ (Nat.le_add_right _ _) x hj] at hc
  cases hc

theorem mem_reached_of_nextIn (h : nextIn c l start = some i) :
    x ∈ reached c (l.drop start) ↔ l[i]? = some x ∨ x ∈ reached c (l.drop (i + 1)).dropLast := by
  obtain ⟨y, pre, hy, hc, hpre, -, hdrop⟩ := nextIn_split h
  rw [hdrop, mem_reached_cons hpre hc, hy, Option.some.injEq, eq_comm]

/-- A removal at or before a slot takes one entry from the end of what stands behind it. -/
theorem drop_swapRemove {j : Nat} (hj : j ≤ i) (hi : i < l.length) :
    (swapRemove l j).drop (i + 1) = (l.drop (i + 1)).dropLast := by
  obtain rfl | ⟨init, z, rfl⟩ := List.eq_nil_or_concat l
  · rfl
  · rw [List.concat_eq_append] at hi ⊢
    rw [List.length_append, List.length_singleton] at hi
    rw [swapRemove_append_singleton]
    have hdrop : (if j < init.length then init.set j z else init).drop (i + 1)
        = init.drop (i + 1) := by
      split
      · exact List.drop_set_of_lt (by omega)
      · rfl
    rw [hdrop]
    by_cases hlast : i + 1 ≤ init.length
    · rw [List.drop_append_of_le_length hlast, List.dropLast_concat]
    · rw [List.drop_eq_nil_of_le (by omega), List.drop_eq_nil_of_le (by simp; omega)]
      rfl

-- ============================================================================
-- How much is left
-- ============================================================================

theorem take_swapRemove (hi : i < l.length) : (swapRemove l i).take i = l.take i := by
  obtain rfl | ⟨init, z, rfl⟩ := List.eq_nil_or_concat l
  · simp at hi
  · rw [List.concat_eq_append] at hi ⊢
    rw [List.length_append, List.length_singleton] at hi
    rw [swapRemove_append_singleton, List.take_append_of_le_length (by omega)]
    split
    · rw [List.take_set_of_le (Nat.le_refl i)]
    · rfl

/-- Given enough rounds, the scan leaves at most as many matching entries from `start` on as
    it takes out: each of them has filled a gap. -/
theorem sweep_half {rounds : Nat} (hr : l.length < start + rounds) :
    (sweep c rounds start l).2.countP c ≤
      (sweep c rounds start l).1.length + (l.take start).countP c := by
  induction rounds generalizing start l with
  | zero =>
      rw [List.take_of_length_le (by omega)]
      exact Nat.le_add_left _ _
  | succ rounds ih =>
      rw [sweep]
      cases h : nextIn c l start with
      | none =>
          have hdrop : (l.drop start).countP c = 0 := by
            refine List.countP_eq_zero.mpr fun x hx => ?_
            obtain ⟨j, hj⟩ := List.mem_iff_getElem?.mp hx
            rw [List.getElem?_drop] at hj
            rw [nextIn_none h _ (Nat.le_add_right _ _) x hj]
            exact Bool.false_ne_true
          have hsplit : l.countP c = (l.take start).countP c + (l.drop start).countP c := by
            rw [← List.countP_append, List.take_append_drop]
          simp only [List.length_nil]
          omega
      | some i =>
          obtain ⟨hsi, ⟨x, hx, -⟩, -⟩ := nextIn_some h
          obtain ⟨hi, -⟩ := List.getElem?_eq_some_iff.mp hx
          have hlen : (swapRemove l i).length = l.length - 1 := swapRemove_length
          have hrest : (sweep c rounds (i + 1) (swapRemove l i)).2.countP c ≤
              (sweep c rounds (i + 1) (swapRemove l i)).1.length +
                ((swapRemove l i).take (i + 1)).countP c := ih (by omega)
          -- up to the gap nothing matches that did not before, and one entry fills the gap
          have hskip : (l.take i).countP c = (l.take start).countP c := by
            obtain ⟨-, pre, -, -, hpre, htake, -⟩ := nextIn_split h
            have hnone : pre.countP c = 0 :=
              List.countP_eq_zero.mpr fun z hz => by simp [hpre z hz]
            rw [htake, List.countP_append, hnone, Nat.add_zero]
          have hgap : ((swapRemove l i).take (i + 1)).countP c ≤ (l.take start).countP c + 1 := by
            rw [List.take_add_one, List.countP_append, take_swapRemove hi, hskip]
            refine Nat.add_le_add_left (Nat.le_trans List.countP_le_length ?_) _
            exact Option.length_toList_le
          simp only [hx, Option.toList_some, List.length_append, List.length_singleton]
          omega

end SwapSweep

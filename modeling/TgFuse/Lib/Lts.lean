/-
  TgFuse.Lib.Lts

  Runs of a labelled transition system, as the list of labels they took.

  `Run step s ls t` grows at its end, so that an invariant of the reached state
  may speak about the whole history `ls`.
-/

import Mathlib.Algebra.Ring.Nat

namespace Lts

variable {σ ℓ : Type}

/-- A run from `s` to `t` that takes the steps `ls`. -/
inductive Run (step : σ → ℓ → σ → Prop) (s : σ) : List ℓ → σ → Prop
  | nil : Run step s [] s
  | snoc {ls : List ℓ} {t u : σ} {l : ℓ} :
      Run step s ls t → step t l u → Run step s (ls ++ [l]) u

variable {step step' : σ → ℓ → σ → Prop} {s t u : σ} {ls ms : List ℓ}

/-- What holds at the start and survives every step holds after every run. -/
theorem Run.invariant {P : List ℓ → σ → Prop} (h : Run step s ls t) (h0 : P [] s)
    (hstep : ∀ ls t l u, Run step s ls t → P ls t → step t l u → P (ls ++ [l]) u) :
    P ls t := by
  induction h with
  | nil => exact h0
  | snoc hrun hl ih => exact hstep _ _ _ _ hrun ih hl

theorem Run.mono_of_mem (h : Run step s ls t)
    (himp : ∀ t l u, l ∈ ls → step t l u → step' t l u) : Run step' s ls t := by
  induction h with
  | nil => exact .nil
  | snoc _ hl ih =>
      refine .snoc (ih fun t l u hmem => himp t l u (List.mem_append_left _ hmem)) ?_
      exact himp _ _ _ (List.mem_append_right _ (List.mem_singleton_self _)) hl

theorem Run.mono (h : Run step s ls t) (himp : ∀ t l u, step t l u → step' t l u) :
    Run step' s ls t :=
  h.mono_of_mem fun t l u _ => himp t l u

theorem Run.single {l : ℓ} (h : step s l t) : Run step s [l] t := .snoc .nil h

theorem Run.append (h : Run step s ls t) (h' : Run step t ms u) : Run step s (ls ++ ms) u := by
  induction h' with
  | nil => simpa using h
  | snoc _ hl ih =>
      rw [← List.append_assoc]
      exact .snoc ih hl

theorem Run.cons {l : ℓ} (h : step s l t) (h' : Run step t ls u) : Run step s (l :: ls) u :=
  (Run.single h).append h'

/-- Steps that a function finds make a run when it finds them one after the other. -/
theorem Run.of_foldlM {next : σ → ℓ → Option σ} (hnext : ∀ s l t, next s l = some t → step s l t)
    (h : ls.foldlM next s = some t) : Run step s ls t := by
  induction ls generalizing s with
  | nil =>
      cases h
      exact .nil
  | cons l ls ih =>
      rw [List.foldlM_cons] at h
      obtain ⟨u, hu, hrest⟩ := Option.bind_eq_some_iff.mp h
      exact .cons (hnext s l u hu) (ih hrest)

/-- Steps that a second system follows make runs that it follows. -/
theorem Run.simulate {τ : Type} {stepA : τ → ℓ → τ → Prop} {R : σ → τ → Prop} {a : τ}
    (hstep : ∀ s l t a, R s a → step s l t → ∃ b, stepA a l b ∧ R t b)
    (h : Run step s ls t) (h0 : R s a) : ∃ b, Run stepA a ls b ∧ R t b := by
  induction h with
  | nil => exact ⟨a, .nil, h0⟩
  | snoc _ hl ih =>
      obtain ⟨b, hb, hR⟩ := ih
      obtain ⟨c, hc, hR'⟩ := hstep _ _ _ _ hR hl
      exact ⟨c, .snoc hb hc, hR'⟩

theorem Run.eq_of_nil (h : Run step s [] t) : t = s := by
  generalize hall : ([] : List ℓ) = all at h
  cases h with
  | nil => rfl
  | snoc => exact absurd hall.symm (List.append_ne_nil_of_right_ne_nil _ (List.cons_ne_nil _ _))

/-- The last step of a run. -/
theorem Run.of_snoc {l : ℓ} (h : Run step s (ls ++ [l]) u) : ∃ t, Run step s ls t ∧ step t l u := by
  generalize hall : ls ++ [l] = all at h
  cases h with
  | nil => exact absurd hall (List.append_ne_nil_of_right_ne_nil _ (List.cons_ne_nil _ _))
  | snoc hrun hl =>
      obtain ⟨rfl, hlast⟩ := List.append_inj' hall rfl
      cases hlast
      exact ⟨_, hrun, hl⟩

/-- A run splits at every point of its history. -/
theorem Run.split (h : Run step s (ls ++ ms) u) : ∃ t, Run step s ls t ∧ Run step t ms u := by
  generalize hall : ls ++ ms = all at h
  induction h generalizing ms with
  | nil =>
      obtain ⟨rfl, rfl⟩ := List.append_eq_nil_iff.mp hall
      exact ⟨s, .nil, .nil⟩
  | @snoc ns t u l hrun hl ih =>
      rcases List.eq_nil_or_concat ms with rfl | ⟨ms', m, rfl⟩
      · rw [List.append_nil] at hall
        subst hall
        exact ⟨u, .snoc hrun hl, .nil⟩
      · rw [List.concat_eq_append, ← List.append_assoc] at hall
        obtain ⟨hns, hm⟩ := List.append_inj' hall rfl
        cases hm
        obtain ⟨v, h₁, h₂⟩ := ih hns
        exact ⟨v, h₁, by rw [List.concat_eq_append]; exact .snoc h₂ hl⟩

theorem Run.of_singleton {l : ℓ} (h : Run step s [l] u) : step s l u := by
  rw [← List.nil_append [l]] at h
  obtain ⟨t, hnil, hl⟩ := h.of_snoc
  rwa [hnil.eq_of_nil] at hl

/-- The first step of a run. -/
theorem Run.of_cons {l : ℓ} (h : Run step s (l :: ls) u) : ∃ t, step s l t ∧ Run step t ls u := by
  rw [← List.singleton_append] at h
  obtain ⟨t, hl, hrest⟩ := h.split
  exact ⟨t, hl.of_singleton, hrest⟩

/-- Amortised cost: where each step's cost and what it adds to the potential `Φ` stay within
    its allowance, the cost of a run stays within the allowances and the potential that
    was there. -/
theorem Run.amortised {P : σ → Prop} {cost allowance : ℓ → Nat} (Φ : σ → Nat)
    (h : Run step s ls t) (h0 : P s)
    (hstep : ∀ t l u, P t → step t l u → P u ∧ cost l + Φ u ≤ Φ t + allowance l) :
    P t ∧ (ls.map cost).sum + Φ t ≤ Φ s + (ls.map allowance).sum := by
  induction h with
  | nil => exact ⟨h0, Nat.le_of_eq (Nat.add_comm 0 (Φ s))⟩
  | snoc _ hl ih =>
      obtain ⟨hP, hsum⟩ := ih
      obtain ⟨hP', hcost⟩ := hstep _ _ _ hP hl
      refine ⟨hP', ?_⟩
      rw [List.map_append, List.sum_append, List.map_append, List.sum_append, List.map_singleton,
        List.map_singleton, List.sum_singleton, List.sum_singleton]
      omega

end Lts

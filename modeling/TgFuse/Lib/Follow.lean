/-
  TgFuse.Lib.Follow

  Two programs side by side.  `Follows` says that whatever the first does, the
  second does with the same exchanges: it crashes where the first one does and
  returns where the first one does, with results and states related as asked.
  The two may run over different states.

  * the rules, one for each way to build a program (`Follows.bind`, `.exchange`,
    `.liftOption`, `.foldlM`);
  * `zoom` — a program over a part of the state as one over the whole, which
    follows it.
-/

import TgFuse.Lib.Interact

namespace Interact

open Prog

variable {S T Q A α β γ δ : Type}

/-- From `s` and `t`, with the same exchanges, `q` does what `p` does, and where they
    return, `Post log a b s' t'` holds of the results and of the states left. -/
def Follows (recv₁ : Q → A → S → Option S) (recv₂ : Q → A → T → Option T) (p : Prog S Q A α)
    (s : S) (q : Prog T Q A β) (t : T) (Post : List (Q × A) → α → β → S → T → Prop) : Prop :=
  ∀ log o s', Exec recv₁ p s log o s' → ∃ o' t', Exec recv₂ q t log o' t' ∧
    (o = none ∧ o' = none ∨ ∃ a b, o = some a ∧ o' = some b ∧ Post log a b s' t')

-- ============================================================================
-- Rules
-- ============================================================================

section Rules

variable {recv₁ : Q → A → S → Option S} {recv₂ : Q → A → T → Option T} {p : Prog S Q A α}
  {q : Prog T Q A β} {f : α → Prog S Q A γ} {g : β → Prog T Q A δ} {s : S} {t : T}
  {Mid Post' : List (Q × A) → α → β → S → T → Prop} {Post : List (Q × A) → γ → δ → S → T → Prop}

theorem Follows.mono (h : Follows recv₁ recv₂ p s q t Mid)
    (hpost : ∀ log a b s' t', Mid log a b s' t' → Post' log a b s' t') :
    Follows recv₁ recv₂ p s q t Post' := by
  intro log o s' he
  obtain ⟨o', t', he', hnone | ⟨a, b, ha, hb, hmid⟩⟩ := h log o s' he
  · exact ⟨o', t', he', Or.inl hnone⟩
  · exact ⟨o', t', he', Or.inr ⟨a, b, ha, hb, hpost _ _ _ _ _ hmid⟩⟩

theorem Follows.pure {a : α} {b : β} (h : Post' [] a b s t) :
    Follows recv₁ recv₂ (Pure.pure a) s (Pure.pure b) t Post' := by
  rintro log o s' ⟨rfl, rfl, rfl⟩
  exact ⟨some b, t, ⟨rfl, rfl, rfl⟩, Or.inr ⟨a, b, rfl, rfl, h⟩⟩

theorem Follows.fault : Follows recv₁ recv₂ .fault s .fault t Post' := by
  rintro log o s' ⟨rfl, rfl, rfl⟩
  exact ⟨none, t, ⟨rfl, rfl, rfl⟩, Or.inl ⟨rfl, rfl⟩⟩

/-- One part after the other; the exchanges add up. -/
theorem Follows.bind (hp : Follows recv₁ recv₂ p s q t Mid)
    (hf : ∀ l a b s' t', Mid l a b s' t' →
      Follows recv₁ recv₂ (f a) s' (g b) t' fun log => Post (l ++ log)) :
    Follows recv₁ recv₂ (p >>= f) s (q >>= g) t Post := by
  intro log o s' he
  rcases (exec_bind _).mp he with ⟨a, u, l₁, l₂, rfl, h₁, h₂⟩ | ⟨rfl, h₁⟩
  · obtain ⟨o', v, hq, ⟨hnone, -⟩ | ⟨a', b, ha, rfl, hmid⟩⟩ := hp _ _ _ h₁
    · cases hnone
    · cases ha
      obtain ⟨o'', t', hg, hpost⟩ := hf _ _ _ _ _ hmid _ _ _ h₂
      exact ⟨o'', t', (exec_bind _).mpr (Or.inl ⟨b, v, l₁, l₂, rfl, hq, hg⟩), hpost⟩
  · obtain ⟨o', v, hq, ⟨-, rfl⟩ | ⟨a, -, ha, -⟩⟩ := hp _ _ _ h₁
    · exact ⟨none, v, (exec_bind _).mpr (Or.inr ⟨rfl, hq⟩), Or.inl ⟨rfl, rfl⟩⟩
    · cases ha

/-- The same request on both sides. -/
theorem Follows.exchange {r : Q} {f : A → Prog S Q A γ} {g : A → Prog T Q A δ}
    (hnone : ∀ a, recv₁ r a s = none → recv₂ r a t = none)
    (hsome : ∀ a s', recv₁ r a s = some s' → ∃ t', recv₂ r a t = some t' ∧
      Follows recv₁ recv₂ (f a) s' (g a) t' fun log => Post ((r, a) :: log)) :
    Follows recv₁ recv₂ (Prog.exchange r >>= f) s (Prog.exchange r >>= g) t Post := by
  rintro log o s' ⟨a, rest, rfl, ⟨hr, rfl, rfl, rfl⟩ | ⟨u, hr, he⟩⟩
  · exact ⟨none, t, ⟨a, [], rfl, Or.inl ⟨hnone a hr, rfl, rfl, rfl⟩⟩, Or.inl ⟨rfl, rfl⟩⟩
  · obtain ⟨t', hr', hfollow⟩ := hsome a u hr
    obtain ⟨o', t'', he', hpost⟩ := hfollow _ _ _ he
    exact ⟨o', t'', ⟨a, rest, rfl, Or.inr ⟨t', hr', he'⟩⟩, hpost⟩

/-- Partial operations that are undefined together. -/
theorem Follows.liftOption {x : Option α} {y : Option β} (hnone : x = none → y = none)
    (hsome : ∀ a, x = some a → ∃ b, y = some b ∧ Follows recv₁ recv₂ (f a) s (g b) t Post) :
    Follows recv₁ recv₂ (Prog.liftOption x >>= f) s (Prog.liftOption y >>= g) t Post := by
  cases x with
  | none =>
      rw [hnone rfl]
      exact Follows.fault
  | some a =>
      obtain ⟨b, rfl, hfollow⟩ := hsome a rfl
      exact hfollow

theorem Follows.liftOption_last {x : Option α} {y : Option β} (hnone : x = none → y = none)
    (hsome : ∀ a, x = some a → ∃ b, y = some b ∧ Post' [] a b s t) :
    Follows recv₁ recv₂ (Prog.liftOption x) s (Prog.liftOption y) t Post' := by
  cases x with
  | none =>
      rw [hnone rfl]
      exact Follows.fault
  | some a =>
      obtain ⟨b, rfl, hpost⟩ := hsome a rfl
      exact Follows.pure hpost

theorem Follows.liftOption_self {x : Option α} {f : α → Prog S Q A γ} {g : α → Prog T Q A δ}
    (h : ∀ a, x = some a → Follows recv₁ recv₂ (f a) s (g a) t Post) :
    Follows recv₁ recv₂ (Prog.liftOption x >>= f) s (Prog.liftOption x >>= g) t Post :=
  Follows.liftOption id fun a ha => ⟨a, ha, h a ha⟩

theorem Follows.ite {c : Prop} [Decidable c] {p₁ p₂ : Prog S Q A α} {q₁ q₂ : Prog T Q A β}
    (hpos : c → Follows recv₁ recv₂ p₁ s q₁ t Post')
    (hneg : ¬ c → Follows recv₁ recv₂ p₂ s q₂ t Post') :
    Follows recv₁ recv₂ (if c then p₁ else p₂) s (if c then q₁ else q₂) t Post' := by
  by_cases hc : c
  · rw [if_pos hc, if_pos hc]
    exact hpos hc
  · rw [if_neg hc, if_neg hc]
    exact hneg hc

/-- The first program alone reads or replaces its state. -/
theorem Follows.getState_left {k : S → Prog S Q A α}
    (h : Follows recv₁ recv₂ (k s) s q t Post') :
    Follows recv₁ recv₂ (getState >>= k) s q t Post' := h

theorem Follows.setState_left {k : Unit → Prog S Q A α} {s' : S}
    (h : Follows recv₁ recv₂ (k ()) s' q t Post') :
    Follows recv₁ recv₂ (setState s' >>= k) s q t Post' := h

/-- The second program alone reads its state. -/
theorem Follows.getState_right {k : T → Prog T Q A β}
    (h : Follows recv₁ recv₂ p s (k t) t Post') :
    Follows recv₁ recv₂ p s (getState >>= k) t Post' := h

/-- The second program alone replaces its state. -/
theorem Follows.setState_right {k : Unit → Prog T Q A β} {t' : T}
    (h : Follows recv₁ recv₂ p s (k ()) t' Post') :
    Follows recv₁ recv₂ p s (setState t' >>= k) t Post' := h

/-- The second program alone makes a step that is defined. -/
theorem Follows.liftOption_right {x : Option γ} {c : γ} {k : γ → Prog T Q A β} (hx : x = some c)
    (h : Follows recv₁ recv₂ p s (k c) t Post') :
    Follows recv₁ recv₂ p s (Prog.liftOption x >>= k) t Post' := by
  rw [hx]
  exact h

/-- What the first program does may be used of the second. -/
theorem Follows.exec (h : Follows recv₁ recv₂ p s q t Post') :
    Follows recv₁ recv₂ p s q t fun log a b s' t' =>
      Exec recv₁ p s log (some a) s' ∧ Post' log a b s' t' := by
  intro log o s' he
  obtain ⟨o', t', he', hnone | ⟨a, b, rfl, hb, hpost⟩⟩ := h log o s' he
  · exact ⟨o', t', he', Or.inl hnone⟩
  · exact ⟨o', t', he', Or.inr ⟨a, b, rfl, hb, he, hpost⟩⟩

/-- A loop of partial operations is a loop. -/
theorem liftOption_foldlM {ε : Type} (f : α → ε → Option α) (l : List ε) (a : α) :
    (Prog.liftOption (l.foldlM f a) : Prog S Q A α) =
      l.foldlM (fun a e => Prog.liftOption (f a e)) a := by
  induction l generalizing a with
  | nil => rfl
  | cons e l ih =>
      rw [List.foldlM_cons, List.foldlM_cons]
      cases f a e with
      | none => rfl
      | some b => exact ih b

/-- A loop over the same list, with an invariant of the values and the states. -/
theorem Follows.foldlM {ε : Type} {f : α → ε → Prog S Q A α} {g : β → ε → Prog T Q A β}
    {Inv : α → β → S → T → Prop}
    (hstep : ∀ a b e s t, Inv a b s t → Follows recv₁ recv₂ (f a e) s (g b e) t
      fun log a' b' s' t' => log = [] ∧ Inv a' b' s' t')
    (l : List ε) {a : α} {b : β} (h : Inv a b s t) :
    Follows recv₁ recv₂ (l.foldlM f a) s (l.foldlM g b) t
      fun log a' b' s' t' => log = [] ∧ Inv a' b' s' t' := by
  induction l generalizing a b s t with
  | nil => exact Follows.pure ⟨rfl, h⟩
  | cons e l ih =>
      rw [List.foldlM_cons, List.foldlM_cons]
      refine Follows.bind (hstep a b e s t h) ?_
      rintro l' a' b' s' t' ⟨rfl, hinv⟩
      exact ih hinv

end Rules

-- ============================================================================
-- Parts of a state
-- ============================================================================

/-- A program over a part of the state, as a program over the whole. -/
def zoom (view : T → S) (update : T → S → T) : Prog S Q A α → Prog T Q A α
  | .ret a => .ret a
  | .fault => .fault
  | .get k => .get fun t => zoom view update (k (view t))
  | .put s k => .get fun t => .put (update t s) (zoom view update k)
  | .call q k => .call q fun a => zoom view update (k a)

/-- It follows the program, and leaves the rest of the state alone. -/
theorem follows_zoom (view : T → S) (update : T → S → T) {recv₁ : Q → A → S → Option S}
    {recv₂ : Q → A → T → Option T} (hview : ∀ t s, view (update t s) = s)
    (hself : ∀ t, update t (view t) = t) (htwice : ∀ t s s', update (update t s) s' = update t s')
    (hrecv : ∀ q a t, recv₂ q a t = (recv₁ q a (view t)).map (update t)) (p : Prog S Q A α)
    (t : T) : Follows recv₁ recv₂ p (view t) (zoom view update p) t
      fun _ a b s' t' => a = b ∧ t' = update t s' := by
  suffices h : ∀ s₀ log o s', Exec recv₁ p s₀ log o s' → ∀ t, view t = s₀ →
      Exec recv₂ (zoom view update p) t log o (update t s') by
    intro log o s' he
    refine ⟨o, _, h _ _ _ _ he t rfl, ?_⟩
    cases o with
    | none => exact Or.inl ⟨rfl, rfl⟩
    | some a => exact Or.inr ⟨a, a, rfl, rfl, rfl, rfl⟩
  induction p with
  | ret a =>
      rintro s₀ log o s' ⟨rfl, rfl, rfl⟩ t rfl
      exact ⟨rfl, rfl, hself t⟩
  | fault =>
      rintro s₀ log o s' ⟨rfl, rfl, rfl⟩ t rfl
      exact ⟨rfl, rfl, hself t⟩
  | get k ih =>
      rintro s₀ log o s' he t rfl
      exact ih (view t) _ _ _ _ he t rfl
  | put s k ih =>
      rintro s₀ log o s' he t rfl
      have h := ih s _ _ _ he (update t s) (hview t s)
      rw [htwice] at h
      exact h
  | call q k ih =>
      rintro s₀ log o s' ⟨a, rest, rfl, ⟨hr, rfl, rfl, rfl⟩ | ⟨u, hr, he⟩⟩ t rfl
      · refine ⟨a, [], rfl, Or.inl ⟨?_, rfl, rfl, hself t⟩⟩
        rw [hrecv, hr]
        rfl
      · refine ⟨a, rest, rfl, Or.inr ⟨update t u, ?_, ?_⟩⟩
        · rw [hrecv, hr]
          rfl
        · have h := ih a _ _ _ _ he (update t u) (hview t u)
          rw [htwice] at h
          exact h

end Interact

/-
  TgFuse.Lib.Interact

  Programs that share a state and exchange requests for answers with an outside
  world.  `Prog` is the tree of what a program does next: read or replace the
  shared state, or send a request and continue with the answer.  What the
  arrival of an answer does to the shared state before the program looks at it
  (a callback that stores the response) is the parameter `recv`.

  * `Exec recv p s log o s'` — from `s`, exchanging exactly `log`, the program
    ends in `s'` with result `o`; `none` is a crash.
  * `run recv p s env` — the same as a function of the answers to come; it
    evaluates, and `exec_run` says that it is an execution.
  * `Requests P p` — whatever it is answered, the program makes only requests with `P`;
    `Asks recv P p s past` — where `P` may look at what has been exchanged before.
-/

import Mathlib.Init

namespace Interact

/-- A program over the shared state `S`, with requests `Q` and answers `A`. -/
inductive Prog (S Q A α : Type) : Type where
  | ret (a : α)
  | fault
  | get (k : S → Prog S Q A α)
  | put (s : S) (k : Prog S Q A α)
  | call (q : Q) (k : A → Prog S Q A α)

namespace Prog

variable {S Q A α β : Type}

/-- Sequencing: `f` takes over where the program returns. -/
def bind : Prog S Q A α → (α → Prog S Q A β) → Prog S Q A β
  | .ret a, f => f a
  | .fault, _ => .fault
  | .get k, f => .get fun s => (k s).bind f
  | .put s k, f => .put s (k.bind f)
  | .call q k, f => .call q fun a => (k a).bind f

instance : Monad (Prog S Q A) where
  pure := .ret
  bind := Prog.bind

/-- The shared state. -/
def getState : Prog S Q A S := .get .ret

/-- Replace the shared state. -/
def setState (s : S) : Prog S Q A Unit := .put s (.ret ())

/-- Send a request, wait for its answer. -/
def exchange (q : Q) : Prog S Q A A := .call q .ret

/-- Crash where a partial operation is undefined. -/
def liftOption : Option α → Prog S Q A α
  | some a => .ret a
  | none => .fault

end Prog

open Prog

variable {S Q A α β : Type} (recv : Q → A → S → Option S)

-- ============================================================================
-- Executions
-- ============================================================================

/-- `Exec recv p s log o s'`: run from `s` while the exchanges are `log`, the
    program ends in `s'`, returning `o` (`none`: it crashed). -/
def Exec : Prog S Q A α → S → List (Q × A) → Option α → S → Prop
  | .ret a, s, log, o, s' => log = [] ∧ o = some a ∧ s' = s
  | .fault, s, log, o, s' => log = [] ∧ o = none ∧ s' = s
  | .get k, s, log, o, s' => Exec (k s) s log o s'
  | .put t k, _, log, o, s' => Exec k t log o s'
  | .call q k, s, log, o, s' =>
      ∃ a rest, log = (q, a) :: rest ∧
        ((recv q a s = none ∧ rest = [] ∧ o = none ∧ s' = s) ∨
         ∃ t, recv q a s = some t ∧ Exec (k a) t rest o s')

@[simp] theorem exec_pure {a : α} {s s' : S} {log : List (Q × A)} {o : Option α} :
    Exec recv (pure a : Prog S Q A α) s log o s' ↔ log = [] ∧ o = some a ∧ s' = s := Iff.rfl

@[simp] theorem exec_fault {s s' : S} {log : List (Q × A)} {o : Option α} :
    Exec recv (.fault : Prog S Q A α) s log o s' ↔ log = [] ∧ o = none ∧ s' = s := Iff.rfl

@[simp] theorem exec_getState_bind {f : S → Prog S Q A α} {s s' : S} {log : List (Q × A)}
    {o : Option α} : Exec recv (getState >>= f) s log o s' ↔ Exec recv (f s) s log o s' := Iff.rfl

@[simp] theorem exec_setState_bind {f : Unit → Prog S Q A α} {s s' t : S}
    {log : List (Q × A)} {o : Option α} :
    Exec recv (setState t >>= f) s log o s' ↔ Exec recv (f ()) t log o s' := Iff.rfl

@[simp] theorem exec_pure_bind {a : α} {f : α → Prog S Q A β} {s s' : S} {log : List (Q × A)}
    {o : Option β} : Exec recv (pure a >>= f) s log o s' ↔ Exec recv (f a) s log o s' := Iff.rfl

@[simp] theorem exec_liftOption_some_bind {a : α} {f : α → Prog S Q A β} {s s' : S}
    {log : List (Q × A)} {o : Option β} :
    Exec recv (liftOption (some a) >>= f) s log o s' ↔ Exec recv (f a) s log o s' := Iff.rfl

@[simp] theorem exec_liftOption_none_bind {f : α → Prog S Q A β} {s s' : S}
    {log : List (Q × A)} {o : Option β} :
    Exec recv (liftOption none >>= f) s log o s' ↔ log = [] ∧ o = none ∧ s' = s := Iff.rfl

theorem exec_exchange_bind {q : Q} {f : A → Prog S Q A α} {s s' : S} {log : List (Q × A)}
    {o : Option α} :
    Exec recv (exchange q >>= f) s log o s' ↔
      ∃ a rest, log = (q, a) :: rest ∧
        ((recv q a s = none ∧ rest = [] ∧ o = none ∧ s' = s) ∨
         ∃ t, recv q a s = some t ∧ Exec recv (f a) t rest o s') := Iff.rfl

theorem bind_assoc (p : Prog S Q A α) (f : α → Prog S Q A β) {γ : Type} (g : β → Prog S Q A γ) :
    (p >>= f) >>= g = p >>= fun a => f a >>= g := by
  show (p.bind f).bind g = p.bind fun a => (f a).bind g
  induction p with
  | ret a => rfl
  | fault => rfl
  | get k ih => exact congrArg Prog.get (funext ih)
  | put s k ih => exact congrArg (Prog.put s) ih
  | call q k ih => exact congrArg (Prog.call q) (funext ih)

/-- An execution of a sequence splits where its first part ends. -/
theorem exec_bind {p : Prog S Q A α} {f : α → Prog S Q A β} {s s' : S}
    {log : List (Q × A)} {o : Option β} :
    Exec recv (p >>= f) s log o s' ↔
      (∃ a t l₁ l₂, log = l₁ ++ l₂ ∧ Exec recv p s l₁ (some a) t ∧ Exec recv (f a) t l₂ o s') ∨
      (o = none ∧ Exec recv p s log none s') := by
  show Exec recv (p.bind f) s log o s' ↔ _
  induction p generalizing s log with
  | ret a =>
      constructor
      · intro h
        exact Or.inl ⟨a, s, [], log, rfl, ⟨rfl, rfl, rfl⟩, h⟩
      · rintro (⟨b, t, l₁, l₂, rfl, ⟨rfl, hb, rfl⟩, h⟩ | ⟨_, _, hb, _⟩)
        · cases hb
          exact h
        · cases hb
  | fault =>
      constructor
      · rintro ⟨rfl, rfl, rfl⟩
        exact Or.inr ⟨rfl, rfl, rfl, rfl⟩
      · rintro (⟨b, t, l₁, l₂, rfl, ⟨rfl, hb, rfl⟩, h⟩ | ⟨rfl, rfl, _, rfl⟩)
        · cases hb
        · exact ⟨rfl, rfl, rfl⟩
  | get k ih => exact ih s
  | put t k ih => exact ih
  | call q k ih =>
      constructor
      · rintro ⟨a, rest, rfl, ⟨hr, rfl, rfl, rfl⟩ | ⟨t, hr, h⟩⟩
        · exact Or.inr ⟨rfl, a, [], rfl, Or.inl ⟨hr, rfl, rfl, rfl⟩⟩
        · rcases (ih a).mp h with ⟨b, u, l₁, l₂, rfl, h₁, h₂⟩ | ⟨rfl, h₁⟩
          · exact Or.inl ⟨b, u, (q, a) :: l₁, l₂, rfl, ⟨a, l₁, rfl, Or.inr ⟨t, hr, h₁⟩⟩, h₂⟩
          · exact Or.inr ⟨rfl, a, rest, rfl, Or.inr ⟨t, hr, h₁⟩⟩
      · rintro (⟨b, u, l₁, l₂, rfl, ⟨a, rest, rfl, h⟩, h₂⟩ | ⟨rfl, a, rest, rfl, h⟩)
        · rcases h with ⟨_, _, hb, _⟩ | ⟨t, hr, h₁⟩
          · cases hb
          · exact ⟨a, rest ++ l₂, rfl,
              Or.inr ⟨t, hr, (ih a).mpr (Or.inl ⟨b, u, rest, l₂, rfl, h₁, h₂⟩)⟩⟩
        · refine ⟨a, rest, rfl, ?_⟩
          rcases h with ⟨hr, rfl, _, rfl⟩ | ⟨t, hr, h⟩
          · exact Or.inl ⟨hr, rfl, rfl, rfl⟩
          · exact Or.inr ⟨t, hr, (ih a).mpr (Or.inr ⟨rfl, h⟩)⟩

/-- A completed sequence is a completed first part and a completed rest. -/
theorem exec_bind_some {p : Prog S Q A α} {f : α → Prog S Q A β} {s s' : S}
    {log : List (Q × A)} {b : β} :
    Exec recv (p >>= f) s log (some b) s' ↔
      ∃ a t l₁ l₂, log = l₁ ++ l₂ ∧ Exec recv p s l₁ (some a) t ∧
        Exec recv (f a) t l₂ (some b) s' := by
  simp [exec_bind]

/-- The exchanges determine the result. -/
theorem exec_unique {p : Prog S Q A α} {s s₁ s₂ : S} {log : List (Q × A)} {o₁ o₂ : Option α}
    (h₁ : Exec recv p s log o₁ s₁) (h₂ : Exec recv p s log o₂ s₂) : o₁ = o₂ ∧ s₁ = s₂ := by
  induction p generalizing s log with
  | ret a =>
      obtain ⟨-, rfl, rfl⟩ := h₁
      obtain ⟨-, rfl, rfl⟩ := h₂
      exact ⟨rfl, rfl⟩
  | fault =>
      obtain ⟨-, rfl, rfl⟩ := h₁
      obtain ⟨-, rfl, rfl⟩ := h₂
      exact ⟨rfl, rfl⟩
  | get k ih => exact ih s h₁ h₂
  | put t k ih => exact ih h₁ h₂
  | call q k ih =>
      obtain ⟨a, rest, rfl, h₁⟩ := h₁
      obtain ⟨_, _, heq, h₂⟩ := h₂
      cases heq
      rcases h₁ with ⟨hr, -, rfl, rfl⟩ | ⟨t, hr, h₁⟩
      · rcases h₂ with ⟨-, -, rfl, rfl⟩ | ⟨u, hr', -⟩
        · exact ⟨rfl, rfl⟩
        · rw [hr] at hr'
          cases hr'
      · rcases h₂ with ⟨hr', -, -, -⟩ | ⟨u, hr', h₂⟩
        · rw [hr] at hr'
          cases hr'
        · rw [hr] at hr'
          cases hr'
          exact ih a h₁ h₂

/-- An execution without exchanges is the only one. -/
theorem exec_eq_of_nil {p : Prog S Q A α} {s s₁ s₂ : S} {log : List (Q × A)} {o₁ o₂ : Option α}
    (h₁ : Exec recv p s [] o₁ s₁) (h₂ : Exec recv p s log o₂ s₂) : log = [] ∧ o₂ = o₁ := by
  induction p generalizing s with
  | ret a =>
      obtain ⟨-, rfl, -⟩ := h₁
      obtain ⟨hlog, ho, -⟩ := h₂
      exact ⟨hlog, ho⟩
  | fault =>
      obtain ⟨-, rfl, -⟩ := h₁
      obtain ⟨hlog, ho, -⟩ := h₂
      exact ⟨hlog, ho⟩
  | get k ih => exact ih s h₁ h₂
  | put t k ih => exact ih h₁ h₂
  | call q k ih =>
      obtain ⟨a, rest, hnil, -⟩ := h₁
      cases hnil

-- ============================================================================
-- Requests
-- ============================================================================

/-- Whatever the state and the answers, the program makes only requests with `P`. -/
def Requests (P : Q → Prop) : Prog S Q A α → Prop
  | .ret _ => True
  | .fault => True
  | .get k => ∀ s, Requests P (k s)
  | .put _ k => Requests P k
  | .call q k => P q ∧ ∀ a, Requests P (k a)

section Requests

variable {P : Q → Prop} {p : Prog S Q A α} {f : α → Prog S Q A β}

theorem requests_pure (a : α) : Requests P (pure a : Prog S Q A α) := trivial

theorem requests_getState : Requests P (getState : Prog S Q A S) := fun _ => trivial

theorem requests_setState (s : S) : Requests P (setState s : Prog S Q A Unit) := trivial

theorem requests_liftOption (x : Option α) : Requests P (liftOption x : Prog S Q A α) := by
  cases x <;> trivial

theorem requests_exchange {q : Q} (h : P q) : Requests P (exchange q : Prog S Q A A) :=
  ⟨h, fun _ => trivial⟩

theorem Requests.bind (hp : Requests P p) (hf : ∀ a, Requests P (f a)) :
    Requests P (p >>= f) := by
  show Requests P (p.bind f)
  induction p with
  | ret a => exact hf a
  | fault => trivial
  | get k ih => exact fun s => ih s (hp s)
  | put s k ih => exact ih hp
  | call q k ih => exact ⟨hp.1, fun a => ih a (hp.2 a)⟩

/-- What has been exchanged are such requests. -/
theorem Requests.of_exec (hp : Requests P p) {s s' : S} {log : List (Q × A)} {o : Option α}
    (h : Exec recv p s log o s') : ∀ e ∈ log, P e.1 := by
  induction p generalizing s log with
  | ret a =>
      obtain ⟨rfl, -⟩ := h
      exact nofun
  | fault =>
      obtain ⟨rfl, -⟩ := h
      exact nofun
  | get k ih => exact ih s (hp s) h
  | put t k ih => exact ih hp h
  | call q k ih =>
      obtain ⟨a, rest, rfl, ⟨-, rfl, -⟩ | ⟨t, -, h⟩⟩ := h
      · exact List.forall_mem_singleton.mpr hp.1
      · exact List.forall_mem_cons.mpr ⟨hp.1, ih a (hp.2 a) h⟩

end Requests

/-- From `s`, and after the exchanges `past`, the program makes only requests that have `P`
    with what has been exchanged before them, whatever it is answered. -/
def Asks (P : List (Q × A) → Q → Prop) : Prog S Q A α → S → List (Q × A) → Prop
  | .ret _, _, _ => True
  | .fault, _, _ => True
  | .get k, s, past => Asks P (k s) s past
  | .put t k, _, past => Asks P k t past
  | .call q k, s, past =>
      P past q ∧ ∀ a t, recv q a s = some t → Asks P (k a) t (past ++ [(q, a)])

section Asks

variable {recv} {P : List (Q × A) → Q → Prop} {s : S} {past : List (Q × A)}

theorem asks_pure (a : α) : Asks recv P (pure a : Prog S Q A α) s past := trivial

theorem asks_liftOption (x : Option α) : Asks recv P (liftOption x : Prog S Q A α) s past := by
  cases x <;> trivial

theorem asks_getState_bind {f : S → Prog S Q A α} :
    Asks recv P (getState >>= f) s past ↔ Asks recv P (f s) s past := Iff.rfl

theorem asks_setState_bind {f : Unit → Prog S Q A α} {t : S} :
    Asks recv P (setState t >>= f) s past ↔ Asks recv P (f ()) t past := Iff.rfl

theorem asks_liftOption_bind {x : Option α} {f : α → Prog S Q A β} :
    Asks recv P (liftOption x >>= f) s past ↔ ∀ a, x = some a → Asks recv P (f a) s past := by
  cases x with
  | none => exact iff_of_true trivial fun a h => nomatch h
  | some a =>
      constructor
      · rintro h _ ⟨⟩
        exact h
      · exact fun h => h a rfl

theorem asks_exchange_bind {q : Q} {f : A → Prog S Q A α} :
    Asks recv P (exchange q >>= f) s past ↔
      P past q ∧ ∀ a t, recv q a s = some t → Asks recv P (f a) t (past ++ [(q, a)]) := Iff.rfl

/-- A sequence asks what its first part asks, and then what the rest does. -/
theorem Asks.bind {p : Prog S Q A α} {f : α → Prog S Q A β} (hp : Asks recv P p s past)
    (hf : ∀ a t l, Exec recv p s l (some a) t → Asks recv P (f a) t (past ++ l)) :
    Asks recv P (p >>= f) s past := by
  show Asks recv P (p.bind f) s past
  induction p generalizing s past with
  | ret a =>
      have h := hf a s [] ⟨rfl, rfl, rfl⟩
      rwa [List.append_nil] at h
  | fault => trivial
  | get k ih => exact ih s hp hf
  | put t k ih => exact ih hp hf
  | call q k ih =>
      refine ⟨hp.1, fun a t ht => ih a (hp.2 a t ht) fun b u l hb => ?_⟩
      rw [List.append_assoc]
      exact hf b u ((q, a) :: l) ⟨a, l, rfl, Or.inr ⟨t, ht, hb⟩⟩

theorem Asks.bind_pure {p : Prog S Q A α} {g : α → β} (hp : Asks recv P p s past) :
    Asks recv P (p >>= fun a => pure (g a)) s past :=
  hp.bind fun _ _ _ _ => trivial

/-- What has been exchanged are such requests, however the program ends. -/
theorem Asks.of_exec {p : Prog S Q A α} (hp : Asks recv P p s past) {s' : S}
    {log l r : List (Q × A)} {q : Q} {a : A} {o : Option α} (h : Exec recv p s log o s')
    (hlog : log = l ++ (q, a) :: r) : P (past ++ l) q := by
  induction p generalizing s past log l with
  | ret b =>
      rw [h.1] at hlog
      exact absurd hlog.symm (List.append_ne_nil_of_right_ne_nil _ (List.cons_ne_nil _ _))
  | fault =>
      rw [h.1] at hlog
      exact absurd hlog.symm (List.append_ne_nil_of_right_ne_nil _ (List.cons_ne_nil _ _))
  | get k ih => exact ih s hp h hlog
  | put t k ih => exact ih hp h hlog
  | call q' k ih =>
      obtain ⟨b, rest, rfl, hrest⟩ := h
      cases l with
      | nil =>
          obtain ⟨heq, -⟩ := List.cons.inj hlog
          cases heq
          rw [List.append_nil]
          exact hp.1
      | cons e l =>
          obtain ⟨rfl, hrest'⟩ := List.cons.inj hlog
          rcases hrest with ⟨-, rfl, -⟩ | ⟨t, ht, h⟩
          · exact absurd hrest'.symm (List.append_ne_nil_of_right_ne_nil _ (List.cons_ne_nil _ _))
          · rw [← List.singleton_append, ← List.append_assoc]
            exact ih b (hp.2 b t ht) h hrest'

/-- Requests that satisfy `R` always. -/
theorem Requests.asks {R : Q → Prop} {p : Prog S Q A α} (hp : Requests R p)
    (hR : ∀ past q, R q → P past q) : Asks recv P p s past := by
  induction p generalizing s past with
  | ret a => trivial
  | fault => trivial
  | get k ih => exact ih s (hp s)
  | put t k ih => exact ih hp
  | call q k ih => exact ⟨hR past q hp.1, fun a t _ => ih a (hp.2 a)⟩

end Asks

-- ============================================================================
-- Segments
-- ============================================================================

/-- Where a program gets by itself: to its end, or to a request. -/
inductive Pause (S Q A α : Type) : Type where
  | done (o : Option α) (s : S)
  | waiting (q : Q) (k : A → Prog S Q A α) (s : S)

/-- Run a program from `s` until it ends or waits for an answer. -/
def advance : Prog S Q A α → S → Pause S Q A α
  | .ret a, s => .done (some a) s
  | .fault, s => .done none s
  | .get k, s => advance (k s) s
  | .put t k, _ => advance k t
  | .call q k, s => .waiting q k s

@[simp] theorem advance_pure {a : α} {s : S} :
    advance (pure a : Prog S Q A α) s = .done (some a) s := rfl

@[simp] theorem advance_fault {s : S} : advance (.fault : Prog S Q A α) s = .done none s := rfl

@[simp] theorem advance_getState_bind {f : S → Prog S Q A α} {s : S} :
    advance (getState >>= f) s = advance (f s) s := rfl

@[simp] theorem advance_setState_bind {f : Unit → Prog S Q A α} {s t : S} :
    advance (setState t >>= f) s = advance (f ()) t := rfl

@[simp] theorem advance_pure_bind {a : α} {f : α → Prog S Q A β} {s : S} :
    advance (pure a >>= f) s = advance (f a) s := rfl

@[simp] theorem advance_liftOption_some_bind {a : α} {f : α → Prog S Q A β} {s : S} :
    advance (liftOption (some a) >>= f) s = advance (f a) s := rfl

@[simp] theorem advance_liftOption_none_bind {f : α → Prog S Q A β} {s : S} :
    advance (liftOption none >>= f) s = .done none s := rfl

@[simp] theorem advance_exchange_bind {q : Q} {f : A → Prog S Q A α} {s : S} :
    advance (exchange q >>= f) s = .waiting q f s := rfl

@[simp] theorem advance_liftOption {x : Option α} {s : S} :
    advance (liftOption x : Prog S Q A α) s = .done x s := by cases x <;> rfl

/-- A sequence waits where its first part waits. -/
theorem advance_bind_waiting {p : Prog S Q A α} {f : α → Prog S Q A β} {s t : S} {q : Q}
    {k : A → Prog S Q A α} (h : advance p s = .waiting q k t) :
    advance (p >>= f) s = .waiting q (fun a => k a >>= f) t := by
  show advance (p.bind f) s = _
  induction p generalizing s with
  | ret a => cases h
  | fault => cases h
  | get k ih => exact ih s h
  | put u k ih => exact ih h
  | call q k ih =>
      cases h
      rfl

/-- Where the first part ends, the rest takes over, unless it crashed. -/
theorem advance_bind_done {p : Prog S Q A α} {f : α → Prog S Q A β} {s t : S} {o : Option α}
    (h : advance p s = .done o t) :
    advance (p >>= f) s = o.elim (.done none t) fun a => advance (f a) t := by
  show advance (p.bind f) s = _
  induction p generalizing s with
  | ret a =>
      cases h
      rfl
  | fault =>
      cases h
      rfl
  | get k ih => exact ih s h
  | put u k ih => exact ih h
  | call q k ih => cases h

/-- First parts that get equally far. -/
theorem advance_bind_congr {p p' : Prog S Q A α} {f : α → Prog S Q A β} {s s' : S}
    (h : advance p s = advance p' s') : advance (p >>= f) s = advance (p' >>= f) s' := by
  cases hp : advance p s with
  | done o t => rw [advance_bind_done hp, advance_bind_done (h.symm.trans hp)]
  | waiting q k t => rw [advance_bind_waiting hp, advance_bind_waiting (h.symm.trans hp)]

/-- An execution without exchanges is a single segment. -/
theorem advance_of_exec_nil {p : Prog S Q A α} {s s' : S} {o : Option α}
    (h : Exec recv p s [] o s') : advance p s = .done o s' := by
  induction p generalizing s with
  | ret a =>
      obtain ⟨-, rfl, rfl⟩ := h
      rfl
  | fault =>
      obtain ⟨-, rfl, rfl⟩ := h
      rfl
  | get k ih => exact ih s h
  | put t k ih => exact ih h
  | call q k ih =>
      obtain ⟨a, rest, hnil, -⟩ := h
      cases hnil

-- ============================================================================
-- The other side of the exchanges
-- ============================================================================

/-- The outside world goes through the exchanges `log` from `c` to `c'`, each of
    them a `step`. -/
def Serve {C : Type} (step : C → Q → A → C → Prop) : C → List (Q × A) → C → Prop
  | c, [], c' => c' = c
  | c, (q, a) :: log, c' => ∃ d, step c q a d ∧ Serve step d log c'

section Serve

variable {C : Type} {step : C → Q → A → C → Prop}

@[simp] theorem serve_nil {c c' : C} : Serve step c [] c' ↔ c' = c := Iff.rfl

@[simp] theorem serve_cons {c c' : C} {q : Q} {a : A} {log : List (Q × A)} :
    Serve step c ((q, a) :: log) c' ↔ ∃ d, step c q a d ∧ Serve step d log c' := Iff.rfl

theorem serve_append {c c' : C} {l₁ l₂ : List (Q × A)} :
    Serve step c (l₁ ++ l₂) c' ↔ ∃ d, Serve step c l₁ d ∧ Serve step d l₂ c' := by
  induction l₁ generalizing c with
  | nil => simp
  | cons e l₁ ih =>
      obtain ⟨q, a⟩ := e
      simp only [List.cons_append, serve_cons, ih]
      constructor
      · rintro ⟨d, hd, e, h₁, h₂⟩
        exact ⟨e, ⟨d, hd, h₁⟩, h₂⟩
      · rintro ⟨e, ⟨d, hd, h₁⟩, h₂⟩
        exact ⟨d, hd, e, h₁, h₂⟩

theorem serve_snoc {c c' : C} {q : Q} {a : A} {log : List (Q × A)} :
    Serve step c (log ++ [(q, a)]) c' ↔ ∃ d, Serve step c log d ∧ step d q a c' := by
  simp only [serve_append, serve_cons, serve_nil]
  constructor
  · rintro ⟨d, hs, e, he, rfl⟩
    exact ⟨d, hs, he⟩
  · rintro ⟨d, hs, he⟩
    exact ⟨d, hs, c', he, rfl⟩

theorem Serve.step_of_mem {c c' : C} {log : List (Q × A)} (h : Serve step c log c') {e : Q × A}
    (he : e ∈ log) : ∃ d d', step d e.1 e.2 d' := by
  induction log generalizing c with
  | nil => cases he
  | cons x log ih =>
      obtain ⟨d, hd, h⟩ := h
      rcases List.mem_cons.mp he with rfl | he
      · exact ⟨c, d, hd⟩
      · exact ih h he

/-- A property of the outside world that each exchange keeps. -/
theorem Serve.invariant {P : C → Prop} (hstep : ∀ c q a d, P c → step c q a d → P d)
    {c c' : C} {log : List (Q × A)} (h : Serve step c log c') (hc : P c) : P c' := by
  induction log generalizing c with
  | nil =>
      obtain rfl := serve_nil.mp h
      exact hc
  | cons e log ih =>
      obtain ⟨d, hd, h⟩ := h
      exact ih h (hstep _ _ _ _ hc hd)

theorem Serve.mono {step' : C → Q → A → C → Prop} (himp : ∀ c q a d, step c q a d → step' c q a d)
    {c c' : C} {log : List (Q × A)} (h : Serve step c log c') : Serve step' c log c' := by
  induction log generalizing c with
  | nil => exact h
  | cons e log ih =>
      obtain ⟨d, hd, h⟩ := h
      exact ⟨d, himp _ _ _ _ hd, ih h⟩

end Serve

-- ============================================================================
-- Running against given answers
-- ============================================================================

/-- How a run ended: result, final state, exchanges made. -/
structure Outcome (S Q A α : Type) where
  result : Option α
  state : S
  log : List (Q × A)

/-- Run a program, taking the answers from `env` in order. -/
def run : Prog S Q A α → S → (Nat → A) → Outcome S Q A α
  | .ret a, s, _ => ⟨some a, s, []⟩
  | .fault, s, _ => ⟨none, s, []⟩
  | .get k, s, env => run (k s) s env
  | .put t k, _, env => run k t env
  | .call q k, s, env =>
      match recv q (env 0) s with
      | none => ⟨none, s, [(q, env 0)]⟩
      | some t =>
          let rest := run (k (env 0)) t fun n => env (n + 1)
          { rest with log := (q, env 0) :: rest.log }

/-- Every program runs to an end, whatever it is answered. -/
theorem exec_run (p : Prog S Q A α) (s : S) (env : Nat → A) :
    Exec recv p s (run recv p s env).log (run recv p s env).result (run recv p s env).state := by
  induction p generalizing s env with
  | ret a => exact ⟨rfl, rfl, rfl⟩
  | fault => exact ⟨rfl, rfl, rfl⟩
  | get k ih => exact ih s s env
  | put t k ih => exact ih t env
  | call q k ih =>
      unfold run
      cases hr : recv q (env 0) s with
      | none => exact ⟨env 0, [], rfl, Or.inl ⟨hr, rfl, rfl, rfl⟩⟩
      | some t => exact ⟨env 0, _, rfl, Or.inr ⟨t, hr, ih _ t _⟩⟩

/-- An execution read off an evaluated run. -/
theorem exec_of_run {p : Prog S Q A α} {s s' : S} {env : Nat → A} {log : List (Q × A)}
    {o : Option α} (h : run recv p s env = ⟨o, s', log⟩) : Exec recv p s log o s' := by
  have := exec_run recv p s env
  rwa [h] at this

/-- An execution with the result and the exchanges that its evaluation has. -/
theorem exec_of_result {p : Prog S Q A α} {s : S} {env : Nat → A} {a : α} {log : List (Q × A)}
    (h : (run recv p s env).result = some a) (hlog : (run recv p s env).log = log) :
    Exec recv p s log (some a) (run recv p s env).state := by
  rw [← h, ← hlog]
  exact exec_run recv p s env

end Interact

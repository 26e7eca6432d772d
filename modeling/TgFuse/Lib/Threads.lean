/-
  TgFuse.Lib.Threads

  Programs that run side by side, over one shared state and one outside world.

  A thread takes four kinds of steps, all of them atomic: it starts and runs to its
  first request; it sends the request, and the outside world serves it; the answer
  arrives in the shared state (`recv`); it resumes and runs to its next request or
  to its end.  Between them the other threads take any steps of theirs.

  * `System.Step` — one step of one thread, labelled with its number.
  * `play` — the same as a function of the turns and the answers; it evaluates, and
    `run_of_play` says that it is a run.
-/

import TgFuse.Lib.Interact
import TgFuse.Lib.Lts

namespace Interact

open Lts

/-- How far a program is. -/
inductive Thread (S Q A α : Type) : Type where
  | idle (p : Prog S Q A α)
  | asking (q : Q) (k : A → Prog S Q A α)
  | asked (q : Q) (a : A) (k : A → Prog S Q A α)
  | told (q : Q) (a : A) (k : A → Prog S Q A α)
  | ended (o : Option α)

variable {S C Q A α : Type}

/-- The shared state after a segment. -/
def Pause.state : Pause S Q A α → S
  | .done _ s | .waiting _ _ s => s

/-- The thread after a segment. -/
def Pause.thread : Pause S Q A α → Thread S Q A α
  | .done o _ => .ended o
  | .waiting q k _ => .asking q k

/-- The thread is past its start, and not at its end. -/
def Thread.Underway : Thread S Q A α → Prop
  | .asking .. | .asked .. | .told .. => True
  | .idle _ | .ended _ => False

instance (t : Thread S Q A α) : Decidable t.Underway :=
  match t with
  | .asking .. | .asked .. | .told .. => .isTrue trivial
  | .idle _ | .ended _ => .isFalse not_false

/-- What a thread ended with. -/
def Thread.result? : Thread S Q A α → Option α
  | .ended o => o
  | _ => none

section Steps

variable (recv : Q → A → S → Option S) (serve : C → Q → A → C → Prop)

/-- The steps of a thread. -/
inductive ThreadStep (s : S) (c : C) : Thread S Q A α → S → C → Thread S Q A α → Prop
  | start {p : Prog S Q A α} : ThreadStep s c (.idle p) (advance p s).state c (advance p s).thread
  | send {q : Q} {a : A} {k : A → Prog S Q A α} {d : C} :
      serve c q a d → ThreadStep s c (.asking q k) s d (.asked q a k)
  | deliver {q : Q} {a : A} {k : A → Prog S Q A α} {t : S} :
      recv q a s = some t → ThreadStep s c (.asked q a k) t c (.told q a k)
  | crash {q : Q} {a : A} {k : A → Prog S Q A α} :
      recv q a s = none → ThreadStep s c (.asked q a k) s c (.ended none)
  | resume {q : Q} {a : A} {k : A → Prog S Q A α} :
      ThreadStep s c (.told q a k) (advance (k a) s).state c (advance (k a) s).thread

/-- Threads with what they share, and the outside world. -/
structure System (S C Q A α : Type) : Type where
  shared : S
  outside : C
  threads : List (Thread S Q A α)

/-- Thread `i` takes a step. -/
def System.Step (x : System S C Q A α) (i : Nat) (y : System S C Q A α) : Prop :=
  ∃ t t', x.threads[i]? = some t ∧ y.threads = x.threads.set i t' ∧
    ThreadStep recv serve x.shared x.outside t y.shared y.outside t'

-- ============================================================================
-- Evaluating runs
-- ============================================================================

/-- The next step of a thread; `a` is the answer if it sends a request. -/
def Thread.turn (a : A) (s : S) : Thread S Q A α → Option (S × Thread S Q A α × List (Q × A))
  | .idle p => some ((advance p s).state, (advance p s).thread, [])
  | .asking q k => some (s, .asked q a k, [(q, a)])
  | .asked q a k =>
      match recv q a s with
      | some t => some (t, .told q a k, [])
      | none => some (s, .ended none, [])
  | .told _ a k => some ((advance (k a) s).state, (advance (k a) s).thread, [])
  | .ended _ => none

variable {recv serve}

theorem ThreadStep.of_turn {a : A} {s s' : S} {t t' : Thread S Q A α} {log : List (Q × A)}
    {c c' : C}
    (h : t.turn recv a s = some (s', t', log)) (hs : Serve serve c log c') :
    ThreadStep recv serve s c t s' c' t' := by
  cases t with
  | idle p =>
      cases h
      rw [serve_nil.mp hs]
      exact .start
  | asking q k =>
      cases h
      obtain ⟨d, hd, hnil⟩ := hs
      rw [serve_nil.mp hnil]
      exact .send hd
  | asked q b k =>
      rw [Thread.turn] at h
      cases hr : recv q b s with
      | some u =>
          rw [hr] at h
          cases h
          rw [serve_nil.mp hs]
          exact .deliver hr
      | none =>
          rw [hr] at h
          cases h
          rw [serve_nil.mp hs]
          exact .crash hr
  | told q b k =>
      cases h
      rw [serve_nil.mp hs]
      exact .resume
  | ended o => cases h

variable (recv)

/-- Let the threads take their turns, as long as each turn is `allowed`. -/
def play (allowed : S → List (Thread S Q A α) → Nat → S → Bool) :
    List (Nat × A) → S → List (Thread S Q A α) →
      Option (S × List (Thread S Q A α) × List (Q × A))
  | [], s, ts => some (s, ts, [])
  | (i, a) :: turns, s, ts => do
      let t ← ts[i]?
      let (s', t', log) ← t.turn recv a s
      if allowed s ts i s' then
        let (s'', ts', log') ← play allowed turns s' (ts.set i t')
        some (s'', ts', log ++ log')
      else none

/-- What is played is a run. -/
theorem run_of_play {allowed : S → List (Thread S Q A α) → Nat → S → Bool}
    {turns : List (Nat × A)} {s s' : S} {ts ts' : List (Thread S Q A α)} {log : List (Q × A)}
    {c c' : C} (h : play recv allowed turns s ts = some (s', ts', log))
    (hs : Serve serve c log c') :
    Run (fun x i y => System.Step recv serve x i y ∧ allowed x.shared x.threads i y.shared = true)
      ⟨s, c, ts⟩ (turns.map Prod.fst) ⟨s', c', ts'⟩ := by
  induction turns generalizing s ts log c with
  | nil =>
      cases h
      rw [serve_nil.mp hs]
      exact .nil
  | cons turn turns ih =>
      obtain ⟨i, a⟩ := turn
      simp only [play, Option.bind_eq_bind, Option.bind_eq_some_iff] at h
      obtain ⟨t, ht, ⟨s₁, t₁, log₁⟩, hturn, h⟩ := h
      split at h
      · next hok =>
        obtain ⟨⟨s₂, ts₂, log₂⟩, hrest, heq⟩ := Option.bind_eq_some_iff.mp h
        cases heq
        obtain ⟨d, hs₁, hs₂⟩ := serve_append.mp hs
        exact .cons ⟨⟨t, t₁, ht, rfl, .of_turn hturn hs₁⟩, hok⟩ (ih hrest hs₂)
      · cases h

end Steps

end Interact

/-
  TgFuse.Spec.Run

  The program as a transition system: each step is one completed call of a FUSE
  operation, together with the requests it made and the responses it got.

  * `Step` — over the static state alone, for any responses.
  * `WorldStep` — with the channel, whose server is the parameter `net`.
-/

import TgFuse.Lib.Lts
import TgFuse.Model.Handlers
import TgFuse.Spec.Telegram

namespace TgFuse

open Interact Lts

/-- One completed call. -/
structure Event where
  call : Call
  log : List (Request × Response)
  reply : Reply
deriving DecidableEq

/-- A call completes. -/
def Step (config : TgConfig) (s : Statics) (ev : Event) (s' : Statics) : Prop :=
  ∃ heap, Exec receive (ev.call.handler heap config) s ev.log (some ev.reply) s'

/-- The states that `main` starts in. -/
def Initial (s : Statics) : Prop := ∃ heap, mainInit heap = some s

/-- The program and the channel. -/
structure World where
  statics : Statics
  channel : Channel

/-- A call completes, its requests answered by `net`. -/
def WorldStep (net : Channel → Request → Response → Channel → Prop) (config : TgConfig)
    (w : World) (ev : Event) (w' : World) : Prop :=
  Step config w.statics ev w'.statics ∧ Serve net w.channel ev.log w'.channel

/-- A run whose requests the server answers is a run of program and channel. -/
theorem run_world {net : Channel → Request → Response → Channel → Prop} {config : TgConfig}
    {A : Statics → Event → Prop} {s₀ s : Statics} {evs : List Event} {ch ch' : Channel}
    (h : Run (fun s ev s' => Step config s ev s' ∧ A s ev) s₀ evs s)
    (hs : Serve net ch (evs.flatMap Event.log) ch') :
    Run (fun w ev w' => A w.statics ev ∧ WorldStep net config w ev w') ⟨s₀, ch⟩ evs ⟨s, ch'⟩ := by
  induction h generalizing ch' with
  | nil =>
      rw [List.flatMap_nil, serve_nil] at hs
      rw [hs]
      exact .nil
  | snoc _ hstep ih =>
      rw [List.flatMap_append, serve_append] at hs
      obtain ⟨d, hs₁, hs₂⟩ := hs
      rw [List.flatMap_singleton] at hs₂
      exact .snoc (ih hs₁) ⟨hstep.2, hstep.1, hs₂⟩

-- ============================================================================
-- Evaluating runs
-- ============================================================================

/-- Make the calls one after the other, each with the responses given for it.
    `none` when one of them crashes or is not `allowed`. -/
def runCalls (heap : Heap) (config : TgConfig) (allowed : Statics → Call → Bool) :
    List (Call × List Response) → Statics → Option (List Event × Statics)
  | [], s => some ([], s)
  | (call, rs) :: calls, s =>
      if allowed s call then
        match run receive (call.handler heap config) s fun n => rs.getD n ⟨curleOk, []⟩ with
        | ⟨some reply, s', log⟩ =>
            (runCalls heap config allowed calls s').map fun r =>
              (⟨call, log, reply⟩ :: r.1, r.2)
        | _ => none
      else none

/-- What is evaluated is a run. -/
theorem run_of_runCalls {heap : Heap} {config : TgConfig} {allowed : Statics → Call → Bool}
    {calls : List (Call × List Response)} {s s' : Statics} {evs : List Event}
    (h : runCalls heap config allowed calls s = some (evs, s')) :
    Run (fun s ev s' => Step config s ev s' ∧ allowed s ev.call = true) s evs s' := by
  induction calls generalizing s evs with
  | nil =>
      cases h
      exact .nil
  | cons c calls ih =>
      obtain ⟨call, rs⟩ := c
      rw [runCalls] at h
      split at h
      · next hok =>
        split at h
        · next reply t log hrun =>
          obtain ⟨⟨evs', t'⟩, hrest, heq⟩ := Option.map_eq_some_iff.mp h
          cases heq
          exact .cons ⟨⟨heap, exec_of_run receive hrun⟩, hok⟩ (ih hrest)
        · cases h
      · cases h

/-- Fresh memory that happens to be zero, and a bot without a name. -/
def zeroHeap : Heap := ⟨fun _ => 0, fun _ => TgFile.zero⟩
def blankConfig : TgConfig := ⟨.zeros, .zeros⟩

/-- A run from the start of the program, evaluated. -/
def runFromMain (allowed : Statics → Call → Bool) (calls : List (Call × List Response)) :
    Option (Statics × List Event × Statics) := do
  let s₀ ← mainInit zeroHeap
  let r ← runCalls zeroHeap blankConfig allowed calls s₀
  some (s₀, r.1, r.2)

/-- An evaluated run that passes a check is a run with the property checked. -/
theorem run_of_runFromMain (allowed : Statics → Call → Bool)
    (calls : List (Call × List Response)) (P : List Event → Statics → Prop)
    [∀ evs s, Decidable (P evs s)]
    (h : (runFromMain allowed calls).any (fun r => P r.2.1 r.2.2) = true) :
    ∃ s₀ evs s, Initial s₀ ∧ P evs s ∧
      Run (fun s ev s' => Step blankConfig s ev s' ∧ allowed s ev.call = true) s₀ evs s := by
  obtain ⟨⟨s₀, evs, s⟩, hrun, hP⟩ := (Option.any_eq_true _ _).mp h
  simp only [runFromMain, Option.bind_eq_bind, Option.bind_eq_some_iff, Option.some.injEq,
    Prod.mk.injEq] at hrun
  obtain ⟨t, ht, r, hr, rfl, rfl, rfl⟩ := hrun
  exact ⟨t, _, _, ⟨zeroHeap, ht⟩, of_decide_eq_true hP, run_of_runCalls hr⟩

end TgFuse

/-
  TgFuse.Effect.Step

  What a completed call does to the table, over all operations (`TableStep`),
  and the invariant of the table that follows for every run on valid paths.
-/

import TgFuse.Effect.Data
import TgFuse.Effect.Rmdir
import TgFuse.Spec.Run

namespace TgFuse

open CString Interact Interact.Prog KeyedList Lts

/-- The changes a call makes to the table, with the value it returns. -/
inductive TableStep (st : TgStorage) : Call → Int → TgStorage → Prop
  | query {call : Call} {ret : Int} :
      (∀ p, call ≠ .create p) → (∀ p, call ≠ .mkdir p) → (∀ p b o, call ≠ .write p b o) →
      (∀ p, call ≠ .unlink p) → (∀ p, call ≠ .rmdir p) → TableStep st call ret st
  | createDir {p : List UInt8} {f : TgFile} :
      st.lookup p = some f → f.type = .tgDir → TableStep st (.create p) (-eisdir) st
  | create {p : List UInt8} {st' : TgStorage} :
      (∀ f, st.lookup p = some f → f.type = .tgFile) → st'.Wf →
      st'.live = st.live ++ [newFile p 0] → TableStep st (.create p) 0 st'
  | mkdir {p : List UInt8} {st' : TgStorage} :
      st'.Wf → st'.live = st.live ++ [newDir p] → TableStep st (.mkdir p) 0 st'
  | writeMissing {p buf : List UInt8} {offset : Int} {n : Nat} {st' : TgStorage} :
      st.lookup p = none → st'.Wf → st'.live = st.live ++ [newFile p n] →
      TableStep st (.write p buf offset) (cint buf.length) st'
  | writeDir {p buf : List UInt8} {offset : Int} {f : TgFile} :
      st.lookup p = some f → f.type = .tgDir →
      TableStep st (.write p buf offset) (-enoent) st
  | writeFile {p buf : List UInt8} {offset : Int} {i : Nat} {f f' : TgFile} {r : Response}
      {b : CharArray jsonResponseBufSize} {data : Buffer} :
      tgStorageFindByPath st p = some i → st.live[i]? = some f → f.type = .tgFile →
      afterPut f r b.bytes = some f' →
      TableStep st (.write p buf offset) (cint buf.length) (st.setSlot i (written f' data))
  | unlinkMissing {p : List UInt8} :
      st.lookup p = none → TableStep st (.unlink p) (-enoent) st
  | unlink {p : List UInt8} {f : TgFile} :
      st.lookup p = some f → TableStep st (.unlink p) 0 (st.without p)
  | rmdirOther {p : List UInt8} :
      (∀ f, st.lookup p = some f → f.type = .tgFile) → TableStep st (.rmdir p) (-enotdir) st
  | rmdir {p : List UInt8} {f : TgFile} :
      st.lookup p = some f → f.type = .tgDir → TableStep st (.rmdir p) 0 (rmdirTable p st)

variable {config : TgConfig} {s s' : Statics} {ev : Event}

/-- A handler with its result wrapped up. -/
theorem exec_reply {α : Type} {p : Handler α} {g : α → Reply} {log : List (Request × Response)}
    {reply : Reply} :
    Exec receive (p >>= fun r => pure (g r)) s log (some reply) s' ↔
      ∃ a, Exec receive p s log (some a) s' ∧ reply = g a := by
  rw [exec_bind_some]
  constructor
  · rintro ⟨a, t, l₁, l₂, rfl, hp, rfl, hreply, rfl⟩
    rw [List.append_nil]
    exact ⟨a, hp, Option.some.inj hreply⟩
  · rintro ⟨a, hp, hreply⟩
    exact ⟨a, s', log, [], (List.append_nil _).symm, hp, rfl, congrArg some hreply, rfl⟩

/-- Every completed call on a valid path is one of these changes. -/
theorem step_table (hwf : s.storage.Wf) (hp : ValidPath ev.call.path)
    (h : Step config s ev s') : TableStep s.storage ev.call ev.reply.ret s'.storage := by
  obtain ⟨heap, h⟩ := h
  obtain ⟨call, log, reply⟩ := ev
  cases call with
  | getattr p =>
      obtain ⟨a, ha, rfl⟩ := exec_reply.mp h
      obtain ⟨-, -, rfl⟩ := exec_helloGetattr.mp ha
      exact .query (by simp) (by simp) (by simp) (by simp) (by simp)
  | readdir p =>
      obtain ⟨a, ha, rfl⟩ := exec_reply.mp h
      obtain ⟨-, rfl, -⟩ := (exec_helloReaddir hwf).mp ha
      exact .query (by simp) (by simp) (by simp) (by simp) (by simp)
  | «open» p =>
      obtain ⟨a, ha, rfl⟩ := exec_reply.mp h
      obtain ⟨-, -, rfl⟩ := exec_helloOpen.mp ha
      exact .query (by simp) (by simp) (by simp) (by simp) (by simp)
  | read p size offset =>
      obtain ⟨a, ha, rfl⟩ := exec_reply.mp h
      rcases exec_helloRead.mp ha with ⟨-, -, -, rfl⟩ | ⟨f, -, -, -, -, rfl⟩ |
        ⟨f, b, src, -, -, -, rfl, -⟩
      all_goals exact .query (by simp) (by simp) (by simp) (by simp) (by simp)
  | setxattr p =>
      obtain ⟨a, ⟨-, -, rfl⟩, rfl⟩ := exec_reply.mp h
      exact .query (by simp) (by simp) (by simp) (by simp) (by simp)
  | utimens p =>
      obtain ⟨a, ⟨-, -, rfl⟩, rfl⟩ := exec_reply.mp h
      exact .query (by simp) (by simp) (by simp) (by simp) (by simp)
  | create p =>
      obtain ⟨a, ha, rfl⟩ := exec_reply.mp h
      obtain ⟨-, ⟨f, hl, hd, rfl, rfl⟩ | ⟨hfile, st', hst, rfl, rfl⟩⟩ :=
        (exec_helloCreate hp).mp ha
      · exact .createDir hl hd
      · obtain ⟨hwf', hlive⟩ := hwf.push ((newFile_hasPath p 0).named hp) hst
        exact .create hfile hwf' hlive
  | mkdir p =>
      obtain ⟨a, ha, rfl⟩ := exec_reply.mp h
      obtain ⟨-, st', hst, rfl, rfl⟩ := (exec_helloMkdir hp).mp ha
      obtain ⟨hwf', hlive⟩ := hwf.push ((newDir_hasPath p).named hp) hst
      exact .mkdir hwf' hlive
  | write p buf offset =>
      obtain ⟨a, ha, rfl⟩ := exec_reply.mp h
      rcases (exec_helloWrite hwf hp).mp ha with ⟨hl, hres, st', b, data', r, f', hw⟩ |
        ⟨f, hl, hd, -, rfl, rfl⟩ | ⟨i, f, hi, hf, hfile, hres, _, _, b, _, data', r, f', hw⟩
      · obtain ⟨hwf', hlive⟩ := hwf.push ((newFile_hasPath p _).named hp) hw.pushed
        rw [hw.state_eq, show Reply.ret (.status a) = a from rfl, hres]
        exact .writeMissing hl hwf' hlive
      · exact .writeDir hl hd
      · rw [hw.state_eq, show Reply.ret (.status a) = a from rfl, hres]
        exact .writeFile hi hf hfile hw.after
  | unlink p =>
      obtain ⟨a, ha, rfl⟩ := exec_reply.mp h
      rcases (exec_helloUnlink hwf).mp ha with ⟨hl, -, rfl, rfl⟩ | ⟨f, r, b, hl, -, -, -, rfl, rfl⟩
      · exact .unlinkMissing hl
      · exact .unlink hl
  | rmdir p =>
      obtain ⟨a, ha, rfl⟩ := exec_reply.mp h
      rcases (exec_helloRmdir hwf).mp ha with ⟨hl, -, rfl, rfl⟩ | ⟨f, b, hl, hd, -, rfl, rfl⟩
      · exact .rmdirOther hl
      · exact .rmdir hl hd

/-- No change leaves the tables of valid paths. -/
theorem TableStep.wf {st st' : TgStorage} {call : Call} {ret : Int} (hwf : st.Wf)
    (h : TableStep st call ret st') : st'.Wf := by
  cases h with
  | query | createDir | writeDir | unlinkMissing | rmdirOther => exact hwf
  | create _ hwf' _ => exact hwf'
  | mkdir hwf' _ => exact hwf'
  | writeMissing _ hwf' _ => exact hwf'
  | writeFile _ hf _ hafter =>
      exact hwf.setSlot (written_named _ (hwf.named _ (List.mem_of_getElem? hf)) hafter).1
  | unlink _ => exact hwf.without _
  | rmdir _ _ => exact rmdirTable_wf hwf

/-- Directory entries are as `tg_file_new_dir` made them. -/
def TgStorage.PlainDirs (st : TgStorage) : Prop :=
  ∀ f ∈ st.live, f.type = .tgDir → f = newDir f.pathStr

theorem TableStep.plainDirs {st st' : TgStorage} {call : Call} {ret : Int} (hwf : st.Wf)
    (hdirs : st.PlainDirs) (hp : ValidPath call.path) (h : TableStep st call ret st') :
    st'.PlainDirs := by
  have happ : ∀ {g : TgFile}, st'.live = st.live ++ [g] → (g.type = .tgDir → g = newDir g.pathStr) →
      st'.PlainDirs := by
    intro g hlive hg f hf hd
    rw [hlive, List.mem_append, List.mem_singleton] at hf
    rcases hf with hf | rfl
    · exact hdirs f hf hd
    · exact hg hd
  cases h with
  | query | createDir | writeDir | unlinkMissing | rmdirOther => exact hdirs
  | create _ _ hlive => exact happ hlive fun hd => nomatch hd
  | mkdir _ hlive => exact happ hlive fun _ => congrArg newDir (newDir_pathStr hp).symm
  | writeMissing _ _ hlive => exact happ hlive fun hd => nomatch hd
  | writeFile _ hf hfile hafter =>
      intro g hg hd
      rw [setSlot_live] at hg
      rcases List.mem_or_eq_of_mem_set hg with hg | rfl
      · exact hdirs g hg hd
      · rw [(written_named _ (hwf.named _ (List.mem_of_getElem? hf)) hafter).2.2, hfile] at hd
        cases hd
  | unlink _ => exact fun g hg => hdirs g (mem_without hwf.valid hg)
  | rmdir _ _ => exact fun g hg => hdirs g (mem_rmdirTable hwf hg)

/-- `"/"` is a valid path. -/
theorem validPath_root : ValidPath (text "/") := by decide

theorem initial_live (h : Initial s) :
    s.storage.Wf ∧ s.storage.live = [newDir (text "/")] ∧ s.jsonResponseBuf = .zeros := by
  obtain ⟨heap, h⟩ := h
  simp only [mainInit, tgFileNewDir_of_valid validPath_root, Option.bind_eq_bind,
    Option.bind_some, Option.bind_eq_some_iff] at h
  obtain ⟨st, hst, h⟩ := h
  cases h
  have hnew : (tgStorageNew heap.slots).Wf := ⟨tgStorageNew_valid _, by simp⟩
  obtain ⟨hwf, hlive⟩ := hnew.push ((newDir_hasPath _).named validPath_root) hst
  exact ⟨hwf, hlive, rfl⟩

/-- A step whose path is absolute and fits. -/
def PathStep (config : TgConfig) (s : Statics) (ev : Event) (s' : Statics) : Prop :=
  ValidPath ev.call.path ∧ Step config s ev s'

/-- Runs that an evaluation provides, with valid paths. -/
theorem pathRun_of_runFromMain (calls : List (Call × List Response))
    (P : List Event → Statics → Prop) [∀ evs s, Decidable (P evs s)]
    (h : (runFromMain (fun _ call => ValidPath call.path) calls).any
      (fun r => P r.2.1 r.2.2) = true) :
    ∃ s₀ evs s, Initial s₀ ∧ P evs s ∧ Run (PathStep blankConfig) s₀ evs s := by
  obtain ⟨s₀, evs, s, h0, hP, hrun⟩ := run_of_runFromMain _ calls P h
  exact ⟨s₀, evs, s, h0, hP, hrun.mono fun t e u ⟨hstep, hok⟩ => ⟨of_decide_eq_true hok, hstep⟩⟩

/-- Whatever is called and answered, the table stays well-formed. -/
theorem reachable_wf {s₀ : Statics} {evs : List Event} (h0 : Initial s₀)
    (hrun : Run (PathStep config) s₀ evs s) : s.storage.Wf ∧ s.storage.PlainDirs := by
  refine hrun.invariant (P := fun _ t => t.storage.Wf ∧ t.storage.PlainDirs) ?_ ?_
  · obtain ⟨hwf, hlive, -⟩ := initial_live h0
    refine ⟨hwf, fun f hf _ => ?_⟩
    rw [hlive, List.mem_singleton] at hf
    rw [hf, newDir_pathStr validPath_root]
  · intro _ t ev u _ ⟨hwf, hdirs⟩ ⟨hp, hstep⟩
    have htab := step_table hwf hp hstep
    exact ⟨htab.wf hwf, htab.plainDirs hwf hdirs hp⟩

end TgFuse

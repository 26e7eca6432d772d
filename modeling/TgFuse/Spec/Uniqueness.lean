/-
  TgFuse.Spec.Uniqueness

  One entry per path: which calls keep it, and that under it a removal is final.

  `create` looks its path up only to refuse directories, and `mkdir` does not
  look at all, so both push a second entry for a path that has one.
  `hello_getattr` answers for `"/"` without a look at the table.
-/

import TgFuse.Effect.Step
import TgFuse.Spec.Answers

namespace TgFuse

open CString Interact KeyedList SwapSweep Lts

-- ============================================================================
-- The property
-- ============================================================================

/-- A call that gives its path an entry. -/
def Call.Makes (p : List UInt8) : Call → Prop
  | .create q | .mkdir q | .write q _ _ => q = p
  | _ => False

/-- `p` was removed by a call that returned 0, and not made again since. -/
def Removed (evs : List Event) (p : List UInt8) : Prop :=
  ∃ l₁ ev l₂, evs = l₁ ++ ev :: l₂ ∧ (ev.call = .unlink p ∨ ev.call = .rmdir p) ∧
    ev.reply.ret = 0 ∧ ∀ e ∈ l₂, ¬ e.call.Makes p

/-- `hello_getattr(p)` and `hello_open(p)` return `-ENOENT`. -/
def Gone (s : Statics) (p : List UInt8) : Prop :=
  (∀ log o s', Exec receive (helloGetattr p) s log o s' → ∃ st, o = some (-enoent, st)) ∧
    ∀ log o s', Exec receive (helloOpen p) s log o s' → o = some (-enoent)

/-- No two entries share a path, and what was removed is gone. -/
structure OneEntryPerPath (evs : List Event) (s : Statics) : Prop where
  distinct : Distinct TgFile.pathStr s.storage.live
  gone : ∀ p, Removed evs p → Gone s p

/-- The calls that keep it: `create` where there is no file, `mkdir` where there
    is nothing, and no removal of an existing `"/"`. -/
def KeepsPaths (st : TgStorage) : Call → Prop
  | .create p => ∀ f, st.lookup p = some f → f.type = .tgDir
  | .mkdir p => st.lookup p = none
  | .unlink p => p = text "/" → st.lookup p = none
  | .rmdir p => p = text "/" → ∀ f, st.lookup p = some f → f.type = .tgFile
  | _ => True

instance (st : TgStorage) : (call : Call) → Decidable (KeepsPaths st call)
  | .create p => inferInstanceAs (Decidable (∀ f ∈ st.lookup p, f.type = .tgDir))
  | .mkdir p => inferInstanceAs (Decidable (st.lookup p = none))
  | .unlink p => inferInstanceAs (Decidable (p = text "/" → st.lookup p = none))
  | .rmdir p =>
      inferInstanceAs (Decidable (p = text "/" → ∀ f ∈ st.lookup p, f.type = .tgFile))
  | .getattr _ | .readdir _ | .open _ | .read .. | .write .. | .setxattr _ | .utimens _ =>
      inferInstanceAs (Decidable True)

-- ============================================================================
-- Gone entries
-- ============================================================================

/-- Exactly the paths without an entry are gone, the root excepted. -/
theorem gone_iff {s : Statics} {p : List UInt8} :
    Gone s p ↔ s.storage.lookup p = none ∧ p ≠ text "/" := by
  constructor
  · rintro ⟨hattr, hopen⟩
    have hattr := hattr _ _ _ (exec_helloGetattr.mpr ⟨rfl, rfl, rfl⟩)
    have hopen := hopen _ _ _ (exec_helloOpen.mpr ⟨rfl, rfl, rfl⟩)
    refine ⟨?_, ?_⟩
    · by_contra hne
      rw [if_neg hne] at hopen
      exact absurd hopen (by decide)
    · rintro rfl
      obtain ⟨st, hst⟩ := hattr
      rw [getattrReply, if_pos rfl] at hst
      have hret : (0 : Int) = -enoent := congrArg Prod.fst (Option.some.inj hst)
      exact absurd hret (by decide)
  · rintro ⟨hl, hne⟩
    refine ⟨fun log o s' h => ?_, fun log o s' h => ?_⟩
    · obtain ⟨-, rfl, -⟩ := exec_helloGetattr.mp h
      rw [getattrReply, if_neg hne, hl]
      exact ⟨_, rfl⟩
    · obtain ⟨-, rfl, -⟩ := exec_helloOpen.mp h
      rw [if_pos hl]

theorem removed_snoc {evs : List Event} {ev : Event} {p : List UInt8} :
    Removed (evs ++ [ev]) p ↔
      (Removed evs p ∧ ¬ ev.call.Makes p) ∨
      ((ev.call = .unlink p ∨ ev.call = .rmdir p) ∧ ev.reply.ret = 0) := by
  constructor
  · rintro ⟨l₁, e, l₂, heq, hcall, hret, hl₂⟩
    rcases List.eq_nil_or_concat l₂ with rfl | ⟨l₂, e', rfl⟩
    · obtain ⟨rfl, he⟩ := List.append_inj' heq rfl
      cases he
      exact Or.inr ⟨hcall, hret⟩
    · rw [List.concat_eq_append, ← List.cons_append, ← List.append_assoc] at heq
      obtain ⟨rfl, he⟩ := List.append_inj' heq rfl
      cases he
      refine Or.inl ⟨⟨l₁, e, l₂, rfl, hcall, hret, fun x hx => hl₂ x ?_⟩, hl₂ ev ?_⟩
      · rw [List.concat_eq_append]
        exact List.mem_append_left _ hx
      · rw [List.concat_eq_append]
        exact List.mem_append_right _ (List.mem_singleton_self _)
  · rintro (⟨⟨l₁, e, l₂, rfl, hcall, hret, hl₂⟩, hmk⟩ | ⟨hcall, hret⟩)
    · refine ⟨l₁, e, l₂ ++ [ev], by simp, hcall, hret, fun x hx => ?_⟩
      rcases List.mem_append.mp hx with hx | hx
      · exact hl₂ x hx
      · rw [List.mem_singleton.mp hx]
        exact hmk
    · exact ⟨evs, ev, [], rfl, hcall, hret, fun x hx => nomatch hx⟩

-- ============================================================================
-- One step
-- ============================================================================

section Step

variable {st st' : TgStorage} {call : Call} {ret : Int} {dir p : List UInt8}

/-- Distinct paths stay distinct where `create` and `mkdir` make what is not there. -/
theorem TableStep.distinct_of_new (hwf : st.Wf) (hd : Distinct TgFile.pathStr st.live)
    (hp : ValidPath call.path) (h : TableStep st call ret st')
    (hcreate : ∀ p, call = .create p → ∀ f, st.lookup p = some f → f.type = .tgDir)
    (hmkdir : ∀ p, call = .mkdir p → st.lookup p = none) :
    Distinct TgFile.pathStr st'.live := by
  cases h with
  | query | createDir | writeDir | unlinkMissing | rmdirOther => exact hd
  | @create p _ hfile _ hlive =>
      have hl : st.lookup p = none := by
        cases hl : st.lookup p with
        | none => rfl
        | some f =>
            have hdir := hcreate p rfl f hl
            rw [hfile f hl] at hdir
            cases hdir
      rw [hlive]
      exact hd.append_singleton (not_mem_of_lookup_none hl (newFile_pathStr hp 0))
  | mkdir _ hlive =>
      have hl := hmkdir _ rfl
      rw [hlive]
      exact hd.append_singleton (not_mem_of_lookup_none hl (newDir_pathStr hp))
  | writeMissing hl _ hlive =>
      rw [hlive]
      exact hd.append_singleton (not_mem_of_lookup_none hl (newFile_pathStr hp _))
  | writeFile _ hf _ hafter =>
      rw [setSlot_live]
      exact hd.set hf (written_named _ (hwf.named _ (List.mem_of_getElem? hf)) hafter).2.1
  | unlink _ => exact distinct_without hwf.valid hd
  | rmdir _ _ => exact distinct_rmdirTable hwf hd

theorem TableStep.distinct (hwf : st.Wf) (hd : Distinct TgFile.pathStr st.live)
    (hp : ValidPath call.path) (h : TableStep st call ret st') (hk : KeepsPaths st call) :
    Distinct TgFile.pathStr st'.live := by
  apply h.distinct_of_new hwf hd hp
  · rintro p rfl
    exact hk
  · rintro p rfl
    exact hk

/-- No entry appears under a path unless the call makes that path. -/
theorem TableStep.lookup_none_of_not_makes (hwf : st.Wf) (hp : ValidPath call.path)
    (h : TableStep st call ret st') (hl : st.lookup p = none)
    (hmk : ¬ call.Makes p) : st'.lookup p = none := by
  have hold := lookup_none.mp hl
  have happ : ∀ {f : TgFile} {q : List UInt8} {l : List TgFile}, l = st.live ++ [f] →
      f.pathStr = q → q ≠ p → ∀ g ∈ l, g.pathStr ≠ p := by
    rintro f q l rfl rfl hne g hg
    rcases List.mem_append.mp hg with hg | hg
    · exact hold g hg
    · rw [List.mem_singleton.mp hg]
      exact hne
  rw [lookup_none]
  cases h with
  | query | createDir | writeDir | unlinkMissing | rmdirOther => exact hold
  | create _ _ hlive => exact happ hlive (newFile_pathStr hp 0) hmk
  | mkdir _ hlive => exact happ hlive (newDir_pathStr hp) hmk
  | writeMissing _ _ hlive => exact happ hlive (newFile_pathStr hp _) hmk
  | writeFile _ hf _ hafter =>
      intro g hg
      rw [setSlot_live] at hg
      rcases List.mem_or_eq_of_mem_set hg with hg | rfl
      · exact hold g hg
      · rw [(written_named _ (hwf.named _ (List.mem_of_getElem? hf)) hafter).2.1]
        exact hold _ (List.mem_of_getElem? hf)
  | unlink _ => exact fun g hg => hold g (mem_without hwf.valid hg)
  | rmdir _ _ => exact fun g hg => hold g (mem_rmdirTable hwf hg)

end Step

-- ============================================================================
-- Runs
-- ============================================================================

variable {config : TgConfig} {s₀ s s' : Statics} {evs : List Event} {ev : Event}

/-- A call that leads to a good state has kept the paths apart. -/
theorem OneEntryPerPath.keepsPaths (hwf : s.storage.Wf) (hstep : PathStep config s ev s')
    (hgood' : OneEntryPerPath (evs ++ [ev]) s') : KeepsPaths s.storage ev.call := by
  have htab := step_table hwf hstep.1 hstep.2
  have hd' := hgood'.distinct
  obtain ⟨call, log, reply⟩ := ev
  simp only at htab ⊢
  generalize hret : reply.ret = ret at htab
  have htwice : ∀ {f g : TgFile} {p : List UInt8}, s.storage.lookup p = some f →
      g.pathStr = p → s'.storage.live = s.storage.live ++ [g] → False := by
    intro f g p hl hg hlive
    obtain ⟨hf, hfp⟩ := lookup_some hl
    rw [hlive] at hd'
    have hcons := distinct_cons.mp (hd'.perm (List.perm_append_singleton g _))
    exact hcons.1 f hf (by rw [hfp, hg])
  cases call with
  | create p =>
      intro f hl
      by_contra hne
      generalize hst : s'.storage = st' at htab
      cases htab with
      | query h => exact h p rfl
      | createDir hl' hdir =>
          rw [hl] at hl'
          cases hl'
          exact hne hdir
      | create _ _ hlive => exact htwice hl (newFile_pathStr hstep.1 0) (hst ▸ hlive)
  | mkdir p =>
      show s.storage.lookup p = none
      by_contra hne
      obtain ⟨f, hl⟩ := Option.ne_none_iff_exists'.mp hne
      generalize hst : s'.storage = st' at htab
      cases htab with
      | query _ h => exact h p rfl
      | mkdir _ hlive => exact htwice hl (newDir_pathStr hstep.1) (hst ▸ hlive)
  | unlink p =>
      rintro rfl
      by_contra hne
      obtain ⟨f, hl⟩ := Option.ne_none_iff_exists'.mp hne
      have hret0 : reply.ret = 0 := by
        generalize s'.storage = st' at htab
        cases htab with
        | query _ _ _ h => exact absurd rfl (h _)
        | unlinkMissing hl' => exact absurd hl' hne
        | unlink _ => exact hret
      have hgone := hgood'.gone (text "/") (removed_snoc.mpr (Or.inr ⟨Or.inl rfl, hret0⟩))
      exact (gone_iff.mp hgone).2 rfl
  | rmdir p =>
      rintro rfl f hl
      by_contra hne
      have hret0 : reply.ret = 0 := by
        generalize s'.storage = st' at htab
        cases htab with
        | query _ _ _ _ h => exact absurd rfl (h _)
        | rmdirOther hl' => exact absurd (hl' f hl) hne
        | rmdir _ _ => exact hret
      have hgone := hgood'.gone (text "/") (removed_snoc.mpr (Or.inr ⟨Or.inr rfl, hret0⟩))
      exact (gone_iff.mp hgone).2 rfl
  | _ => trivial

/-- A call that keeps the paths apart leads from a good state to a good state. -/
theorem OneEntryPerPath.snoc (hwf : s.storage.Wf) (hgood : OneEntryPerPath evs s)
    (hstep : PathStep config s ev s') (hk : KeepsPaths s.storage ev.call) :
    OneEntryPerPath (evs ++ [ev]) s' := by
  have htab := step_table hwf hstep.1 hstep.2
  have hd := hgood.distinct
  refine ⟨htab.distinct hwf hd hstep.1 hk, fun p hrm => gone_iff.mpr ?_⟩
  rcases removed_snoc.mp hrm with ⟨hold, hmk⟩ | ⟨hcall, hret⟩
  · obtain ⟨hl, hne⟩ := gone_iff.mp (hgood.gone p hold)
    exact ⟨htab.lookup_none_of_not_makes hwf hstep.1 hl hmk, hne⟩
  · obtain ⟨call, log, reply⟩ := ev
    simp only at htab hk hcall hret
    rw [hret] at htab
    generalize hst : s'.storage = st' at htab ⊢
    rcases hcall with rfl | rfl
    · generalize hz : (0 : Int) = ret at htab
      cases htab with
      | query _ _ _ h => exact absurd rfl (h _)
      | unlinkMissing => exact absurd hz (by decide)
      | unlink hl =>
          refine ⟨lookup_none.mpr fun g hg => ((mem_without_iff hwf.valid hd).mp hg).2, ?_⟩
          intro hroot
          rw [hk hroot] at hl
          cases hl
    · generalize hz : (0 : Int) = ret at htab
      cases htab with
      | query _ _ _ _ h => exact absurd rfl (h _)
      | rmdirOther => exact absurd hz (by decide)
      | rmdir hl hdir =>
          refine ⟨lookup_none.mpr fun g hg => (mem_rmdirTable_ne hwf hd hg).2, ?_⟩
          intro hroot
          rw [hk hroot _ hl] at hdir
          cases hdir

/-- A step from a good state leads to a good state exactly if the call keeps the
    paths apart. -/
theorem oneEntryPerPath_snoc (hwf : s.storage.Wf) (hgood : OneEntryPerPath evs s)
    (hstep : PathStep config s ev s') :
    OneEntryPerPath (evs ++ [ev]) s' ↔ KeepsPaths s.storage ev.call :=
  ⟨OneEntryPerPath.keepsPaths hwf hstep, hgood.snoc hwf hstep⟩

theorem initial_distinct (h0 : Initial s) : Distinct TgFile.pathStr s.storage.live := by
  rw [(initial_live h0).2.1]
  exact List.nodup_singleton _

theorem initial_oneEntryPerPath (h0 : Initial s) : OneEntryPerPath [] s :=
  ⟨initial_distinct h0, fun p ⟨l₁, ev, l₂, h, _⟩ => by simp at h⟩

/-- A step on a valid path that keeps the paths apart. -/
def KeepingStep (config : TgConfig) (s : Statics) (ev : Event) (s' : Statics) : Prop :=
  PathStep config s ev s' ∧ KeepsPaths s.storage ev.call

/-- In every run whose calls keep the paths apart, whatever the server answers, no
    two entries ever share a path, and what was removed is gone. -/
theorem one_entry_per_path (h0 : Initial s₀) (hrun : Run (KeepingStep config) s₀ evs s) :
    OneEntryPerPath evs s := by
  have h := hrun.invariant (P := fun evs t => t.storage.Wf ∧ OneEntryPerPath evs t)
    ⟨(initial_live h0).1, initial_oneEntryPerPath h0⟩ ?_
  · exact h.2
  · rintro evs t ev u - ⟨hwf, hgood⟩ ⟨hstep, hk⟩
    exact ⟨(step_table hwf hstep.1 hstep.2).wf hwf,
      (oneEntryPerPath_snoc hwf hgood hstep).mpr hk⟩

/-- A file and a directory are made, and the file is unlinked. -/
theorem one_entry_per_path_sample :
    ∃ s₀ evs s, Initial s₀ ∧ Removed evs (text "/a") ∧ OneEntryPerPath evs s := by
  obtain ⟨s₀, evs, s, h0, hlast, hrun⟩ := run_of_runFromMain
    (fun s call => ValidPath call.path ∧ KeepsPaths s.storage call)
    [(.create (text "/a"), []), (.mkdir (text "/d"), []),
      (.unlink (text "/a"), [deletedAnswer])]
    (fun evs _ => evs.getLast?.map (fun ev => (ev.call, ev.reply.ret)) =
      some (.unlink (text "/a"), 0)) (by decide +kernel)
  obtain ⟨ev, hev, hcall⟩ := Option.map_eq_some_iff.mp hlast
  obtain ⟨l, rfl⟩ := List.getLast?_eq_some_iff.mp hev
  obtain ⟨hcall, hret⟩ := Prod.mk.inj hcall
  exact ⟨s₀, _, s, h0, removed_snoc.mpr (Or.inr ⟨Or.inl hcall, hret⟩),
    one_entry_per_path h0 (hrun.mono fun t e u ⟨hstep, hok⟩ =>
      ⟨⟨(of_decide_eq_true hok).1, hstep⟩, (of_decide_eq_true hok).2⟩)⟩

/-- Creating a file twice gives its path two entries. -/
theorem create_twice_shares_path :
    ¬ ∀ (config : TgConfig) (s₀ s : Statics) (evs : List Event), Initial s₀ →
      Run (PathStep config) s₀ evs s → OneEntryPerPath evs s := by
  intro hall
  obtain ⟨s₀, evs, s, h0, hdup, hrun⟩ := pathRun_of_runFromMain
    [(.create (text "/a"), []), (.create (text "/a"), [])]
    (fun _ s => ¬ (s.storage.live.map TgFile.pathStr).Nodup) (by decide +kernel)
  exact hdup (hall blankConfig s₀ s evs h0 hrun).distinct

end TgFuse

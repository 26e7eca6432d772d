/-
  TgFuse.Spec.Leftovers

  How much of a directory `hello_rmdir` leaves behind.

  Its loop does not look at the entries that fill the gaps it makes, so that a directory
  may go while some of its entries stay.  These are never more than half of them, and
  making the directory again and removing it again halves them again.
-/

import TgFuse.Spec.Uniqueness

namespace TgFuse

open CString KeyedList Lts SwapSweep

/-- The entries filed under `d`. -/
def children (d : List UInt8) (st : TgStorage) : Nat := st.live.countP (inDir d)

/-- The call may add an entry to `d`. -/
def Call.AddsTo (d : List UInt8) (call : Call) : Prop :=
  call.Makes call.path ∧ call.path ≠ d ∧ dirOf call.path = d

instance (p : List UInt8) : (call : Call) → Decidable (call.Makes p)
  | .create q | .mkdir q | .write q _ _ => inferInstanceAs (Decidable (q = p))
  | .getattr _ | .rmdir _ | .readdir _ | .open _ | .read .. | .unlink _ | .setxattr _
  | .utimens _ => .isFalse not_false

instance (d : List UInt8) (call : Call) : Decidable (call.AddsTo d) :=
  inferInstanceAs (Decidable (call.Makes call.path ∧ call.path ≠ d ∧ dirOf call.path = d))

/-- The call has removed `d`. -/
def Event.removes (d : List UInt8) (ev : Event) : Bool :=
  decide (ev.call = .rmdir d ∧ ev.reply.ret = 0)

section Step

variable {st st' : TgStorage} {call : Call} {ret : Int} {d p : List UInt8} {f g : TgFile}

theorem children_without_le (hv : st.Valid) (p : List UInt8) :
    children d (st.without p) ≤ children d st := by
  cases hl : st.lookup p with
  | none => rw [without_of_lookup_none hl]
  | some f =>
      rw [children, children, (without_perm hv hl).countP_eq, List.countP_cons]
      exact Nat.le_add_right _ _

theorem children_push (hlive : st'.live = st.live ++ [f]) (hf : inDir d f = false) :
    children d st' = children d st := by
  rw [children, hlive, List.countP_append, List.countP_singleton, if_neg (by rw [hf]; decide),
    Nat.add_zero, children]

theorem children_setSlot {i : Nat} (hf : st.live[i]? = some f) (hg : g.pathStr = f.pathStr) :
    children d (st.setSlot i g) = children d st := by
  have hsame : inDir d g = inDir d f := by rw [inDir, inDir, hg]
  rw [children, setSlot_live, (set_perm hf g).countP_eq, children, (getElem?_perm hf).countP_eq,
    List.countP_cons, List.countP_cons, hsame]

/-- A directory that is removed keeps at most half of its entries. -/
theorem children_rmdirTable (hwf : st.Wf) (hd : Distinct TgFile.pathStr st.live) :
    children d (rmdirTable d st) * 2 ≤ children d st := by
  obtain ⟨-, hleft, hwf'⟩ := rmdirSweep_eq d hwf hd (st.size + 1) 0
  have hlast : children d (rmdirTable d st) ≤ children d (rmdirSweep d (st.size + 1) 0 st).2 :=
    children_without_le hwf'.valid d
  rw [children, children, hleft] at hlast
  have hsplit := (sweep_perm (c := inDir d) (st.size + 1) 0 st.live).countP_eq (inDir d)
  have hout := List.countP_eq_length.mpr (sweep_removed (c := inDir d) (st.size + 1) 0 st.live)
  rw [List.countP_append, hout] at hsplit
  have hhalf : (sweep (inDir d) (st.size + 1) 0 st.live).2.countP (inDir d) ≤
      (sweep (inDir d) (st.size + 1) 0 st.live).1.length + (st.live.take 0).countP (inDir d) :=
    sweep_half (by rw [hwf.valid.length_live]; omega)
  rw [List.take_zero, List.countP_nil, Nat.add_zero] at hhalf
  rw [children, children, hsplit]
  omega

/-- One call that adds nothing to `d`. -/
theorem TableStep.children_le (hwf : st.Wf) (hd : Distinct TgFile.pathStr st.live)
    (hp : ValidPath call.path) (h : TableStep st call ret st') (hadd : ¬ call.AddsTo d) :
    children d st' * (if call = .rmdir d ∧ ret = 0 then 2 else 1) ≤ children d st := by
  have hfiled : ∀ f : TgFile, f.pathStr = call.path → call.Makes call.path → inDir d f = false := by
    intro f hf hmakes
    by_contra hin
    rw [Bool.not_eq_false, inDir_iff, hf] at hin
    exact hadd ⟨hmakes, hin⟩
  by_cases hrm : call = .rmdir d ∧ ret = 0
  · obtain ⟨rfl, rfl⟩ := hrm
    rw [if_pos ⟨rfl, rfl⟩]
    cases h with
    | query _ _ _ _ hno => exact absurd rfl (hno d)
    | rmdir _ _ => exact children_rmdirTable hwf hd
  · rw [if_neg hrm, Nat.mul_one]
    cases h with
    | query | createDir | writeDir | unlinkMissing | rmdirOther => exact Nat.le_refl _
    | create _ _ hlive =>
        exact Nat.le_of_eq (children_push hlive (hfiled _ (newFile_pathStr hp 0) rfl))
    | mkdir _ hlive => exact Nat.le_of_eq (children_push hlive (hfiled _ (newDir_pathStr hp) rfl))
    | writeMissing _ _ hlive =>
        exact Nat.le_of_eq (children_push hlive (hfiled _ (newFile_pathStr hp _) rfl))
    | writeFile _ hf _ hafter =>
        exact Nat.le_of_eq (children_setSlot hf
          (written_named _ (hwf.named _ (List.mem_of_getElem? hf)) hafter).2.1)
    | unlink _ => exact children_without_le hwf.valid _
    | rmdir hl _ =>
        rw [children, children, (rmdirTable_perm hwf hl).1.countP_eq, List.countP_append,
          List.countP_cons]
        omega

end Step

section Runs

variable {config : TgConfig} {s₀ s t : Statics} {evs₀ evs : List Event} {d : List UInt8}

/-- As long as nothing is added to `d`, each time it is removed what is left of its entries
    is at least halved, whatever else is called and however it is answered. -/
theorem rmdir_halves (h0 : Initial s₀) (hrun₀ : Run (KeepingStep config) s₀ evs₀ s)
    (hrun : Run (KeepingStep config) s evs t) (hadd : ∀ ev ∈ evs, ¬ ev.call.AddsTo d) :
    children d t.storage * 2 ^ evs.countP (Event.removes d) ≤ children d s.storage := by
  have hinv : ∀ {evs t}, Run (KeepingStep config) s₀ evs t →
      t.storage.Wf ∧ Distinct TgFile.pathStr t.storage.live := fun h =>
    ⟨(reachable_wf h0 (h.mono fun _ _ _ hs => hs.1)).1, (one_entry_per_path h0 h).distinct⟩
  have hrun' : Run (fun t ev u => KeepingStep config t ev u ∧ ¬ ev.call.AddsTo d) s evs t :=
    hrun.mono_of_mem fun t ev u hev hstep => ⟨hstep, hadd ev hev⟩
  refine (hrun'.invariant (P := fun evs t => Run (KeepingStep config) s evs t ∧
    children d t.storage * 2 ^ evs.countP (Event.removes d) ≤ children d s.storage)
    ⟨.nil, by simp⟩ ?_).2
  rintro evs t ev u - ⟨hrun, hle⟩ ⟨hstep, hev⟩
  obtain ⟨hwf, hd⟩ := hinv (hrun₀.append hrun)
  refine ⟨hrun.snoc hstep, ?_⟩
  have hone := (step_table hwf hstep.1.1 hstep.1.2).children_le hwf hd hstep.1.1 hev
  have hpow : (if ev.call = .rmdir d ∧ ev.reply.ret = 0 then 2 else 1) =
      2 ^ (if ev.removes d = true then 1 else 0) := by
    simp only [Event.removes, decide_eq_true_eq]
    split <;> rfl
  rw [hpow] at hone
  calc children d u.storage * 2 ^ (evs ++ [ev]).countP (Event.removes d)
      = children d u.storage * 2 ^ (if ev.removes d = true then 1 else 0) *
          2 ^ evs.countP (Event.removes d) := by
        rw [List.countP_append, List.countP_singleton, Nat.add_comm, Nat.pow_add, Nat.mul_assoc]
    _ ≤ children d t.storage * 2 ^ evs.countP (Event.removes d) := Nat.mul_le_mul_right _ hone
    _ ≤ children d s.storage := hle

/-- A directory with three entries is removed, made again and removed again. -/
theorem rmdir_halves_sample :
    ∃ (s t : Statics) (evs : List Event), Run (KeepingStep blankConfig) s evs t ∧
      children (text "/d") s.storage = 3 ∧ evs.countP (Event.removes (text "/d")) = 2 ∧
      children (text "/d") t.storage = 0 := by
  let allowed : Statics → Call → Bool := fun s call =>
    ValidPath call.path ∧ KeepsPaths s.storage call
  let again : List (Call × List Response) :=
    [(.rmdir (text "/d"), []), (.mkdir (text "/d"), []), (.rmdir (text "/d"), [])]
  obtain ⟨s₀, evs₀, s, h0, ⟨hthree, hnext⟩, hrun₀⟩ := run_of_runFromMain allowed
    [(.mkdir (text "/d"), []), (.create (text "/d/a"), []), (.create (text "/d/b"), []),
      (.create (text "/d/c"), [])]
    (fun _ s => children (text "/d") s.storage = 3 ∧
      (runCalls zeroHeap blankConfig allowed again s).any (fun r =>
        (∀ ev ∈ r.1, ¬ ev.call.AddsTo (text "/d")) ∧
          r.1.countP (Event.removes (text "/d")) = 2) = true) (by decide +kernel)
  obtain ⟨⟨evs, t⟩, heval, hP⟩ := (Option.any_eq_true _ _).mp hnext
  obtain ⟨hadd, htwo⟩ := of_decide_eq_true hP
  have hkeeps : ∀ {s t evs}, Run (fun s ev s' => Step blankConfig s ev s' ∧
      allowed s ev.call = true) s evs t → Run (KeepingStep blankConfig) s evs t := fun h =>
    h.mono fun t e u ⟨hstep, hok⟩ =>
      ⟨⟨(of_decide_eq_true hok).1, hstep⟩, (of_decide_eq_true hok).2⟩
  have hrun := hkeeps (run_of_runCalls heval)
  have hhalves := rmdir_halves h0 (hkeeps hrun₀) hrun hadd
  rw [htwo, hthree] at hhalves
  exact ⟨s, t, evs, hrun, hthree, htwo, by omega⟩

end Runs

end TgFuse

/-
  TgFuse.Spec.Removal

  Whether a removal keeps hold of the messages it does not get deleted.

  `hello_unlink` takes the entry out before it contacts the server,
  `hello_rmdir` asks only for the entries with a positive `file_size`, and
  `tg_remove_message_with_file` returns 0 whatever it is answered.  `TracksAll` says of
  the table before the call that no message gets lost where all requests succeed.
-/

import TgFuse.Effect.Step
import TgFuse.Spec.Answers

namespace TgFuse

open CString Interact KeyedList Lts SwapSweep

-- ============================================================================
-- The property
-- ============================================================================

/-- No message is lost track of: an entry with a message leaves only when that
    message has been deleted, and after a failed request the call reports an
    error and the entry is still there. -/
structure KeepsTrack (config : TgConfig) (s : Statics) (log : List (Request × Response))
    (ret : Int) (s' : Statics) : Prop where
  leaves : ∀ f ∈ s.storage.live, f.messageIdStr ≠ [] →
    s'.storage.live.count f < s.storage.live.count f →
    ∃ r, (.deleteMessage config f.messageIdStr, r) ∈ log ∧ r.Ok
  fails : ∀ q r, (q, r) ∈ log → ¬ r.Ok → ret < 0 ∧
    ∃ f ∈ s.storage.live, q = .deleteMessage config f.messageIdStr ∧ f ∈ s'.storage.live

/-- No message is left behind by a removal whose requests succeed.  `hello_rmdir` gets to the
    entries of `reached`, deletes the messages of those with a positive `file_size`, and takes
    entries out at their paths and at that of the directory. -/
def TracksAll (st : TgStorage) : Call → Prop
  | .rmdir d =>
      (st.lookup d).any (fun f => f.type = .tgDir) = true →
        ∀ g ∈ st.live, g.messageIdStr ≠ [] →
          (g.pathStr = d ∨ g.pathStr ∈ (reached (inDir d) st.live).map TgFile.pathStr) →
          ∃ f ∈ reached (inDir d) st.live, f.fileSize > 0 ∧ f.messageIdStr = g.messageIdStr
  | _ => True

instance (st : TgStorage) (call : Call) : Decidable (TracksAll st call) :=
  match call with
  | .rmdir _ => inferInstanceAs (Decidable (_ → _))
  | .getattr _ | .readdir _ | .open _ | .create _ | .mkdir _ | .write .. | .read .. | .unlink _
  | .setxattr _ | .utimens _ => inferInstanceAs (Decidable True)

-- ============================================================================
-- The effect of a removal
-- ============================================================================

variable {config : TgConfig} {s s' : Statics} {log : List (Request × Response)}
  {call : Call} {p : List UInt8}

/-- `unlink` and `rmdir`. -/
def Call.Removes (p : List UInt8) (call : Call) : Prop := call = .unlink p ∨ call = .rmdir p

/-- The entries a removal takes out of the table. -/
def takenOut (st : TgStorage) : Call → List TgFile
  | .unlink p => (st.lookup p).toList
  | .rmdir p =>
      match st.lookup p with
      | some d =>
          if d.type = .tgDir then (rmdirVisited p st).map Prod.snd ++ [rmdirLast p st] else []
      | none => []
  | _ => []

/-- The entries for whose messages it issues `deleteMessage`. -/
def askedFor (st : TgStorage) : Call → List TgFile
  | .unlink p => (st.lookup p).toList
  | .rmdir p =>
      match st.lookup p with
      | some d =>
          if d.type = .tgDir then
            ((rmdirVisited p st).map Prod.fst).filter fun f => f.fileSize > 0
          else []
      | none => []
  | _ => []

/-- A removal returns whatever it is answered: it asks for the messages of
    `askedFor`, takes out `takenOut`, and reports success if it asked at all. -/
theorem removal_effect (hwf : s.storage.Wf) (hc : call.Removes p) {heap : Heap}
    {o : Option Reply} (he : Exec receive (call.handler heap config) s log o s')
    (hlog : ∀ e ∈ log, e.2.Settled) :
    ∃ reply, o = some reply ∧
      log.map Prod.fst = (askedFor s.storage call).map (fun f =>
        .deleteMessage config f.messageIdStr) ∧
      s.storage.live.Perm (takenOut s.storage call ++ s'.storage.live) ∧
      (log = [] ∨ reply.ret = 0) := by
  rcases hc with rfl | rfl
  · obtain ⟨res, rfl⟩ : ∃ reply, o = some reply := by
      rcases (exec_bind receive).mp he with ⟨a, t, l₁, l₂, rfl, -, hk⟩ | ⟨-, hcrash⟩
      · exact ⟨_, hk.2.1⟩
      · obtain ⟨res, hres⟩ := exec_helloUnlink_completes hcrash hlog
        cases hres
    obtain ⟨ret, hcall, rfl⟩ := exec_reply.mp he
    rcases (exec_helloUnlink hwf).mp hcall with ⟨hl, rfl, rfl, rfl⟩ |
      ⟨f, r, b, hl, rfl, -, -, rfl, rfl⟩
    · refine ⟨_, rfl, ?_, ?_, Or.inl rfl⟩
      · simp [askedFor, hl]
      · simp [takenOut, hl]
    · refine ⟨_, rfl, ?_, ?_, Or.inr rfl⟩
      · simp [askedFor, hl]
      · simpa [takenOut, hl] using without_perm hwf.valid hl
  · obtain ⟨res, rfl⟩ : ∃ reply, o = some reply := by
      rcases (exec_bind receive).mp he with ⟨a, t, l₁, l₂, rfl, -, hk⟩ | ⟨-, hcrash⟩
      · exact ⟨_, hk.2.1⟩
      · obtain ⟨res, hres⟩ := exec_helloRmdir_completes hwf hcrash hlog
        cases hres
    obtain ⟨ret, hcall, rfl⟩ := exec_reply.mp he
    rcases (exec_helloRmdir hwf).mp hcall with ⟨hno, rfl, rfl, rfl⟩ | ⟨d, b, hl, hd, hdel, rfl, rfl⟩
    · have hnone : takenOut s'.storage (.rmdir p) = [] ∧ askedFor s'.storage (.rmdir p) = [] := by
        cases hl : s'.storage.lookup p with
        | none => simp [takenOut, askedFor, hl]
        | some d => simp [takenOut, askedFor, hl, hno d hl]
      refine ⟨_, rfl, ?_, ?_, Or.inl rfl⟩
      · simp [hnone.2]
      · simp [hnone.1]
    · refine ⟨_, rfl, ?_, ?_, Or.inr rfl⟩
      · simp only [askedFor, hl, hd, if_true]
        exact hdel.requests
      · simp only [takenOut, hl, hd, if_true, List.append_assoc, List.singleton_append]
        exact (rmdirTable_perm hwf hl).1

/-- The entries that leave are the ones taken out. -/
theorem leaves_iff {l out l' : List TgFile} (h : l.Perm (out ++ l')) (f : TgFile) :
    l'.count f < l.count f ↔ f ∈ out := by
  rw [h.count_eq, List.count_append, ← List.count_pos_iff]
  omega

/-- Every message id that leaves the table is one that is asked for. -/
def AsksForAll (st : TgStorage) (call : Call) : Prop :=
  ∀ g ∈ takenOut st call, g.messageIdStr ≠ [] →
    ∃ f ∈ askedFor st call, f.messageIdStr = g.messageIdStr

/-- A removal keeps track of the messages exactly if all its requests succeed and it asks for
    every message id that leaves. -/
theorem keepsTrack_iff (hwf : s.storage.Wf) (hc : call.Removes p) {heap : Heap}
    {o : Option Reply} (he : Exec receive (call.handler heap config) s log o s')
    (hlog : ∀ e ∈ log, e.2.Settled) :
    (∃ reply, o = some reply ∧ KeepsTrack config s log reply.ret s') ↔
      (∀ e ∈ log, e.2.Ok) ∧ AsksForAll s.storage call := by
  obtain ⟨reply, rfl, hreq, hperm, hret⟩ := removal_effect hwf hc he hlog
  constructor
  · rintro ⟨reply', heq, hleaves, hfails⟩
    cases heq
    have hok : ∀ e ∈ log, e.2.Ok := by
      intro e hmem
      by_contra hno
      have hneg := (hfails e.1 e.2 hmem hno).1
      rcases hret with rfl | hzero
      · exact nomatch hmem
      · rw [hzero] at hneg
        exact absurd hneg (Int.lt_irrefl 0)
    refine ⟨hok, fun g hg hne => ?_⟩
    have hlive : g ∈ s.storage.live := hperm.symm.subset (List.mem_append_left _ hg)
    obtain ⟨r, hr, -⟩ := hleaves g hlive hne ((leaves_iff hperm g).mpr hg)
    have hmem := List.mem_map_of_mem (f := Prod.fst) hr
    rw [hreq] at hmem
    obtain ⟨f, hf, hfg⟩ := List.mem_map.mp hmem
    exact ⟨f, hf, (Request.deleteMessage.inj hfg).2⟩
  · rintro ⟨hok, hasks⟩
    refine ⟨reply, rfl, fun f hf hne hout => ?_, fun q r hmem hno => absurd (hok _ hmem) hno⟩
    obtain ⟨g, hg, hgf⟩ := hasks f ((leaves_iff hperm f).mp hout) hne
    have hmem : Request.deleteMessage config g.messageIdStr ∈ log.map Prod.fst := by
      rw [hreq]
      exact List.mem_map_of_mem hg
    obtain ⟨⟨q, r⟩, hr, rfl⟩ := List.mem_map.mp hmem
    exact ⟨r, by rw [← hgf]; exact hr, hok _ hr⟩

/-- What a visited entry of a directory asks for, and what goes with it. -/
theorem mem_askedFor_rmdir {st : TgStorage} (hwf : st.Wf) {d f g : TgFile}
    (hl : st.lookup p = some d) (hd : d.type = .tgDir) :
    (f ∈ askedFor st (.rmdir p) ↔ f ∈ reached (inDir p) st.live ∧ f.fileSize > 0) ∧
      (g ∈ takenOut st (.rmdir p) → g ∈ st.live ∧
        (g.pathStr = p ∨ g.pathStr ∈ (reached (inDir p) st.live).map TgFile.pathStr)) := by
  have hvisited : ∀ v, v ∈ (rmdirVisited p st).map Prod.fst ↔ v ∈ reached (inDir p) st.live :=
    fun v => mem_rmdirSweep_visited hwf (by omega)
  obtain ⟨hperm, hlast⟩ := rmdirTable_perm hwf hl
  constructor
  · simp only [askedFor, hl, hd, if_true, List.mem_filter, hvisited, decide_eq_true_eq]
  · simp only [takenOut, hl, hd, if_true]
    intro hg
    rcases List.mem_append.mp hg with hg | hg
    · refine ⟨hperm.symm.subset (List.mem_append_left _ hg), Or.inr ?_⟩
      obtain ⟨e, he, rfl⟩ := List.mem_map.mp hg
      rw [(rmdirSweep_visited hwf _ _ e he).2.1]
      exact List.mem_map_of_mem ((hvisited e.1).mp (List.mem_map_of_mem he))
    · rw [List.mem_singleton.mp hg]
      exact ⟨hperm.symm.subset (List.mem_append_right _ (List.mem_cons_self ..)), Or.inl hlast⟩

/-- A removal asks for what leaves if nothing is left behind in the table. -/
theorem asksForAll_of_tracksAll {st : TgStorage} (hwf : st.Wf) (hc : call.Removes p)
    (h : TracksAll st call) : AsksForAll st call := by
  intro g hg hne
  rcases hc with rfl | rfl
  · exact ⟨g, hg, rfl⟩
  · cases hl : st.lookup p with
    | none => simp [takenOut, hl] at hg
    | some d =>
        by_cases hd : d.type = .tgDir
        · obtain ⟨-, htaken⟩ := mem_askedFor_rmdir (f := d) (g := g) hwf hl hd
          obtain ⟨hlive, hpath⟩ := htaken hg
          obtain ⟨f, hf, hpos, hid⟩ := h (by simp [hl, hd]) g hlive hne hpath
          exact ⟨f, (mem_askedFor_rmdir (g := g) hwf hl hd).1.mpr ⟨hf, hpos⟩, hid⟩
        · simp [takenOut, hl, hd] at hg

/-- Where paths are distinct, an entry at a visited path is the one visited. -/
theorem tracksAll_of_asksForAll {st : TgStorage} (hwf : st.Wf) (hdirs : st.PlainDirs)
    (hc : call.Removes p) (hd : ∀ d, call = .rmdir d → Distinct TgFile.pathStr st.live)
    (h : AsksForAll st call) : TracksAll st call := by
  rcases hc with rfl | rfl
  · trivial
  · intro hdir g hg hne hpath
    obtain ⟨d, hl, htype⟩ := (Option.any_eq_true _ _).mp hdir
    have htype : d.type = .tgDir := of_decide_eq_true htype
    have hdist := hd p rfl
    obtain ⟨hmem, hdp⟩ := lookup_some hl
    have hg' : g ∈ takenOut st (.rmdir p) := by
      rcases hpath with hp | hp
      · -- the entry of the directory itself has no message
        rw [hdist.eq_of_key hg hmem (hp.trans hdp.symm), hdirs d hmem htype] at hne
        exact absurd (newDir_messageIdStr _) hne
      · obtain ⟨v, hv, hvg⟩ := List.mem_map.mp hp
        obtain ⟨hvl, -⟩ := mem_of_reached hv
        obtain rfl := hdist.eq_of_key hvl hg hvg
        have hrounds : st.size < 0 + (st.size + 1) := by omega
        obtain ⟨e, he, rfl⟩ := List.mem_map.mp ((mem_rmdirSweep_visited hwf hrounds).mpr hv)
        obtain ⟨-, hep, -⟩ := rmdirSweep_visited hwf _ _ e he
        have hout := List.mem_map_of_mem (f := Prod.snd) he
        have hel := (rmdirSweep_perm p hwf _ _).symm.subset (List.mem_append_left _ hout)
        rw [← hdist.eq_of_key hel hg hep]
        simp only [takenOut, hl, htype, if_true]
        exact List.mem_append_left _ hout
    obtain ⟨f, hf, hid⟩ := h g hg' hne
    obtain ⟨hreached, hpos⟩ := (mem_askedFor_rmdir (g := g) hwf hl htype).1.mp hf
    exact ⟨f, hreached, hpos, hid⟩

/-- A directory with two messages in it and room behind it for the sweep; and one with an
    empty file, whose message stays behind. -/
def sampleTree : List (Call × List Response) :=
  [(.mkdir (text "/d"), []), (.create (text "/d/a"), []), (.create (text "/d/b"), []),
    (.create (text "/d/c"), []), (.mkdir (text "/e"), []), (.create (text "/e/x"), []),
    (.create (text "/e/y"), []),
    (.write (text "/d/a") (text "x") 0, [sentAnswer (text "17") (text "AAA")]),
    (.write (text "/d/c") (text "yz") 0, [sentAnswer (text "18") (text "BBB")]),
    (.write (text "/e/x") [] 0, [sentAnswer (text "19") (text "CCC")])]

/-- A removal from that tree, each of its requests answered alike. -/
def sampleRemoval (call : Call) (s : Statics) : Outcome Statics Request Response Reply :=
  run receive (call.handler zeroHeap blankConfig) s fun _ => deletedAnswer

end TgFuse

/-
  TgFuse.Spec.Completion

  When a call ends the program.

  A state that has been reached holds what a call needs: paths that split, a table whose
  entries are where the search finds them, ids that are terminated.  What remains is the
  answers: `hello_write` asserts that its `editMessageMedia` goes through, and looks at
  the response of a `sendDocument` that did not.
-/

import TgFuse.Effect.Requests
import TgFuse.Spec.Atomicity
import TgFuse.Spec.Reference
import TgFuse.Spec.Traffic

namespace TgFuse

open CString Interact Interact.Prog Lts

/-- `sendDocument`. -/
def Request.sends : Request → Bool
  | .sendDocument .. => true
  | _ => false

/-- `editMessageMedia`. -/
def Request.edits : Request → Bool
  | .editMessageMedia .. => true
  | _ => false

section Completion

variable {config : TgConfig} {heap : Heap} {s s' : Statics} {ch ch' : Channel} {call : Call}
  {log : List (Request × Response)} {f : TgFile} {okMessage okFile : Channel → Id → Prop}
  {r : Response} {b b₀ : CharArray jsonResponseBufSize}

theorem afterPut_of_refused (hr : r.Refused) (hb : receiveJson r b₀ = some b) :
    afterPut f r b.bytes = some f := by
  have hcheck := hr.check_eq hb
  unfold afterPut
  split
  · rw [afterSend, hcheck]
    rfl
  · rw [if_neg (fun h => h hr.1), afterEdit, hcheck]
    rfl

/-- A handler that crashes has crashed before it replies. -/
theorem exec_reply_none {α : Type} {p : Handler α} {g : α → Reply} :
    Exec receive (p >>= fun a => pure (g a)) s log none s' ↔ Exec receive p s log none s' := by
  rw [exec_bind]
  constructor
  · rintro (⟨a, t, l₁, l₂, -, -, -, ho, -⟩ | ⟨-, h⟩)
    · cases ho
    · exact h
  · exact fun h => Or.inr ⟨rfl, h⟩

/-- What makes no request and completes does not crash. -/
theorem not_crash_of_nil {α : Type} {p : Handler α} {g : α → Reply} {a : α} {t : Statics}
    (h : Exec receive p s [] (some a) t) :
    ¬ Exec receive (p >>= fun a => pure (g a)) s log none s' := by
  intro he
  cases (exec_eq_of_nil receive h (exec_reply_none.mp he)).2

/-- A buffer that takes in a document does not leave `size_t`. -/
theorem room_of_docs (hdocs : ∀ fid d, ch.documents fid = some d → d.length < 2 ^ 63) (fid : Id) :
    ∀ d, ch.documents fid = some d → d.length + 100 < 2 ^ 64 := by
  intro d hd
  have hlen := hdocs fid d hd
  omega

/-- A read completes: whatever its download brings is no longer than the document. -/
theorem read_not_crash {p : List UInt8} {size : Nat} {offset : Int}
    (hrange : InRange (.read p size offset))
    (hdocs : ∀ fid d, ch.documents fid = some d → d.length < 2 ^ 63)
    (hs : Serve (Answers okMessage okFile) ch log ch') :
    ¬ Exec receive ((Call.read p size offset).handler heap config) s log none s' := by
  intro he
  obtain ⟨hsize, hoff, hend⟩ := hrange
  cases hi : tgStorageFindByPath s.storage p with
  | none =>
      have hmissing : Exec receive (helloRead heap config p size offset) s []
          (some (-enoent, [])) s := exec_helloRead.mpr (Or.inl ⟨lookup_eq_none hi, rfl, rfl, rfl⟩)
      exact not_crash_of_nil hmissing he
  | some i =>
      obtain ⟨f, hl, -, hf, -⟩ := tgStorageFindByPath_lookup hi
      by_cases hid : f.fileIdStr.length = 0
      · have hempty : Exec receive (helloRead heap config p size offset) s [] (some (0, [])) s :=
          exec_helloRead.mpr (Or.inr (Or.inl ⟨f, hl, hid, rfl, rfl, rfl⟩))
        exact not_crash_of_nil hempty he
      · have he := (exec_helloRead_file hi hf hid).mp (exec_reply_none.mp he)
        have hroom := room_of_docs hdocs f.fileIdStr
        rcases (exec_bind receive).mp he with ⟨src, t, l₁, l₂, rfl, hload, htail⟩ | ⟨-, hload⟩
        · obtain ⟨b, hloaded, -⟩ := (exec_tgFileLoadContents (.slot i) hf).mp hload
          obtain ⟨ch₁, hs₁, -⟩ := serve_append.mp hs
          have hshort : src.size < 2 ^ 63 := by
            have hle := (hloaded.answered hs₁).2.length_le
            rw [hloaded.valid.length_contents] at hle
            cases hd : ch.documents f.fileIdStr with
            | none =>
                rw [hd, Option.getD_none, List.length_nil] at hle
                omega
            | some d =>
                have := hdocs _ d hd
                rw [hd, Option.getD_some] at hle
                omega
          obtain ⟨pos, rfl⟩ := Int.eq_ofNat_of_zero_le hoff
          have hreply : ∃ res, readReply src size pos = some res := by
            by_cases hzero : src.size = 0
            · exact ⟨_, by rw [readReply, if_pos hzero]⟩
            · exact ⟨_, readReply_eq hloaded.valid hzero hsize (by omega) hshort⟩
          obtain ⟨res, hres⟩ := hreply
          rw [hres] at htail
          cases htail.2.1
        · obtain ⟨data, hdata⟩ := exec_tgFileLoadContents_completes (.slot i) hf hload hs hroom
          cases hdata

/-- The deletions of `unlink` and `rmdir` are settled, however they are answered. -/
theorem settled_of_answers (hs : Serve (Answers okMessage okFile) ch log ch')
    (hq : ∀ e ∈ log, NoDownload e.1) : ∀ e ∈ log, e.2.Settled := by
  intro e he
  obtain ⟨d, d', hd⟩ := hs.step_of_mem he
  exact (hd.outcome (hq e he)).settled

/-- Where the upload is not lost, a write completes. -/
theorem write_not_crash {p buf : List UInt8} {offset : Int} (hwf : s.storage.Wf)
    (hclean : ∀ f ∈ s.storage.live, f.Clean) (hl : s.storage.lookup p = some f)
    (hfile : f.type = .tgFile) (hrange : InRange (.write p buf offset))
    (hdocs : ∀ fid d, ch.documents fid = some d → d.length < 2 ^ 63)
    (hs : Serve (Answers okMessage okFile) ch log ch')
    (hup : ∀ e ∈ log, e.1.sends ∨ e.1.edits → ¬ e.2.Lost) :
    ¬ Exec receive ((Call.write p buf offset).handler heap config) s log none s' := by
  intro he
  obtain ⟨hbuf, hoff, hend⟩ := hrange
  have hroom := room_of_docs hdocs f.fileIdStr
  have hfits : sizeOfOff offset + buf.length < 2 ^ 64 := by
    rw [sizeOfOff_of_nonneg hoff (by omega)]
    omega
  obtain ⟨i, loadLog, b₀, b, data, data', r, hw⟩ :=
    exec_helloWrite_crash hwf hl hfile hroom hfits (exec_reply_none.mp he) hs
  rw [hw.log_eq] at hs hup
  obtain ⟨ch₁, -, hput⟩ := serve_snoc.mp hs
  have hlost : ¬ r.Lost := by
    refine hup _ (List.mem_append_right _ (List.mem_singleton_self _)) ?_
    unfold putRequest
    split
    · exact Or.inl rfl
    · exact Or.inr rfl
  have hafter : ∃ g, afterPut f r b.bytes = some g := by
    rcases hput.outcome (putRequest_json _ _ _ _ _) with hok | href | hl
    · obtain ⟨g, hg, -⟩ :=
        afterPut_of_ok (hclean f (lookup_some hl).1) hok hw.received hput
      exact ⟨g, hg⟩
    · exact ⟨f, afterPut_of_refused href hw.received⟩
    · exact absurd hl hlost
  obtain ⟨g, hg⟩ := hafter
  rcases hw.ends with ⟨hnone, -⟩ | ⟨f', -, ho, -⟩
  · rw [hg] at hnone
    cases hnone
  · cases ho

/-- Coming by a document edits nothing. -/
theorem Obtained.not_edits {data : Buffer} (h : Obtained heap config f b₀ log b data) :
    ∀ e ∈ log, ¬ e.1.edits := by
  unfold Obtained at h
  split at h
  · obtain ⟨r, -, ⟨-, rfl, -⟩ | ⟨-, -, path, r₂, -, rfl, -⟩⟩ := h
    · exact List.forall_mem_singleton.mpr Bool.false_ne_true
    · exact List.forall_mem_cons.mpr
        ⟨Bool.false_ne_true, List.forall_mem_singleton.mpr Bool.false_ne_true⟩
  · rw [h.1]
    exact nofun

/-- A call that completes has had its `editMessageMedia` go through. -/
theorem edit_of_completes {reply : Reply} (hwf : s.storage.Wf) (hp : ValidPath call.path)
    (h : Exec receive (call.handler heap config) s log (some reply) s') :
    ∀ e ∈ log, e.1.edits → e.2.code = curleOk := by
  intro e he hedit
  obtain ⟨q, r⟩ := e
  obtain ⟨before, after, hlog⟩ := List.append_of_mem he
  have hconf := (call_asks hwf hp).of_exec h hlog
  cases q with
  | editMessageMedia c mid caption filename document =>
      cases call with
      | write p buf offset =>
          obtain ⟨a, ha, -⟩ := exec_reply.mp h
          rcases (exec_helloWrite hwf hp).mp ha with ⟨-, -, st', b, data', r', f', hw⟩ |
            ⟨f, -, -, hlog, -⟩ | ⟨i, f, -, -, -, -, loadLog, b₀, b, data, data', r', f', hw⟩
          · rw [hw.log_eq, List.mem_singleton] at he
            cases he
          · rw [hlog] at he
            cases he
          · rw [hw.log_eq, List.mem_append, List.mem_singleton] at he
            rcases he with he | he
            · exact absurd hedit (hw.obtained.not_edits _ he)
            · obtain ⟨hq, rfl⟩ := Prod.mk.inj he
              have hafter := hw.after
              unfold putRequest at hq
              unfold afterPut at hafter
              split at hq
              · cases hq
              · next hid =>
                rw [if_neg hid] at hafter
                split at hafter
                · cases hafter
                · next hcode => exact not_not.mp hcode
      | _ => exact hconf.elim
  | _ => cases hedit

/-- Where no upload is lost, a call completes. -/
theorem call_not_crash (hwf : s.storage.Wf) (hclean : ∀ f ∈ s.storage.live, f.Clean)
    (hp : ValidPath call.path) (hk : KernelCall s.storage call) (hrange : InRange call)
    (hroom : s.storage.cap * 2 + 1 ≤ intMax)
    (hdocs : ∀ fid d, ch.documents fid = some d → d.length < 2 ^ 63)
    (hs : Serve (Answers okMessage okFile) ch log ch')
    (hup : ∀ e ∈ log, e.1.sends ∨ e.1.edits → ¬ e.2.Lost) :
    ¬ Exec receive (call.handler heap config) s log none s' := by
  intro he
  have hnothing : Exec receive (pure (0 : Int)) s [] (some 0) s := ⟨rfl, rfl, rfl⟩
  cases call with
  | getattr p => exact not_crash_of_nil (exec_helloGetattr.mpr ⟨rfl, rfl, rfl⟩) he
  | readdir p => exact not_crash_of_nil ((exec_helloReaddir hwf).mpr ⟨rfl, rfl, rfl⟩) he
  | «open» p => exact not_crash_of_nil (exec_helloOpen.mpr ⟨rfl, rfl, rfl⟩) he
  | setxattr p => exact not_crash_of_nil hnothing he
  | utimens p => exact not_crash_of_nil hnothing he
  | create p =>
      obtain ⟨st, hst⟩ := tgStoragePush_some hroom heap.slots (newFile p 0)
      have hnew : ∀ f, s.storage.lookup p = some f → f.type = .tgFile := fun f hf => by
        rw [show s.storage.lookup p = none from hk] at hf
        cases hf
      exact not_crash_of_nil
        ((exec_helloCreate hp).mpr ⟨rfl, Or.inr ⟨hnew, st, hst, rfl, rfl⟩⟩) he
  | mkdir p =>
      obtain ⟨st, hst⟩ := tgStoragePush_some hroom heap.slots (newDir p)
      exact not_crash_of_nil ((exec_helloMkdir hp).mpr ⟨rfl, st, hst, rfl, rfl⟩) he
  | read p size offset => exact read_not_crash hrange hdocs hs he
  | write p buf offset =>
      obtain ⟨f, hl, hfile⟩ := hk
      exact write_not_crash hwf hclean hl hfile hrange hdocs hs hup he
  | unlink p =>
      have hquiet : Requests NoDownload ((Call.unlink p).handler heap config) :=
        requests_handler nofun nofun
      obtain ⟨res, hres⟩ :=
        exec_helloUnlink_completes (exec_reply_none.mp he)
          (settled_of_answers hs (hquiet.of_exec receive he))
      cases hres
  | rmdir p =>
      have hquiet : Requests NoDownload ((Call.rmdir p).handler heap config) :=
        requests_handler nofun nofun
      obtain ⟨res, hres⟩ :=
        exec_helloRmdir_completes hwf (exec_reply_none.mp he)
          (settled_of_answers hs (hquiet.of_exec receive he))
      cases hres

/-- Whatever has been called and answered before, a call that is answered ends the
    program exactly if an `editMessageMedia` of it is lost, provided that no `sendDocument`
    of it is. -/
theorem crashes_iff_edit_lost {s₀ : Statics} {evs : List Event} (h0 : Initial s₀)
    (hrun : Run (PathStep config) s₀ evs s) (hp : ValidPath call.path)
    (hk : KernelCall s.storage call) (hrange : InRange call)
    (hroom : s.storage.cap * 2 + 1 ≤ intMax)
    (hdocs : ∀ fid d, ch.documents fid = some d → d.length < 2 ^ 63)
    (hs : Serve (Answers okMessage okFile) ch log ch')
    (hsent : ∀ e ∈ log, e.1.sends → ¬ e.2.Lost) {o : Option Reply}
    (he : Exec receive (call.handler heap config) s log o s') :
    o = none ↔ ∃ e ∈ log, e.1.edits ∧ e.2.Lost := by
  have hwf := (reachable_wf h0 hrun).1
  constructor
  · rintro rfl
    by_contra hno
    refine call_not_crash hwf (reachable_clean h0 hrun) hp hk hrange hroom hdocs hs ?_ he
    intro e hmem hkind hlost
    rcases hkind with hsend | hedit
    · exact hsent e hmem hsend hlost
    · exact hno ⟨e, hmem, hedit, hlost⟩
  · rintro ⟨e, hmem, hedit, hlost⟩
    cases o with
    | none => rfl
    | some reply => exact absurd (edit_of_completes hwf hp he e hmem hedit) hlost.1

end Completion

/-- A byte is appended, and the edit is lost. -/
def sampleLostEdit (s : Statics) : Outcome Statics Request Response Reply :=
  sampleEdit lostAnswer s

theorem sampleExchanges_lost :
    Serve (Answers Channel.AnyId Channel.AnyId) sampleStored (sampleExchanges lostAnswer)
      sampleLocated := by
  refine sampleExchanges_answered fun q hq => Or.inr (.lost ?_ lostAnswer_lost)
  rw [hq]
  exact fun _ _ => Request.noConfusion

/-- It ends the program. -/
theorem crashes_iff_edit_lost_sample :
    ∃ (s : Statics) (evs : List Event), evs.length = 2 ∧ (sampleLostEdit s).result = none := by
  obtain ⟨s₀, evs, s, h0, ⟨htwo, hk, hroom, hlog⟩, hrun⟩ := pathRun_of_runFromMain
    [(.create (text "/a"), []),
      (.write (text "/a") (text "x") 0, [sentAnswer (text "17") (text "AAA")])]
    (fun evs s => evs.length = 2 ∧ KernelCall s.storage (.write (text "/a") (text "y") 1) ∧
      s.storage.cap * 2 + 1 ≤ intMax ∧ (sampleLostEdit s).log = sampleExchanges lostAnswer)
    (by decide +kernel)
  have he : Exec receive ((Call.write (text "/a") (text "y") 1).handler zeroHeap blankConfig) s
      (sampleLostEdit s).log (sampleLostEdit s).result (sampleLostEdit s).state :=
    exec_run receive _ s _
  rw [hlog] at he
  have hsends : ∀ e ∈ sampleExchanges lostAnswer, e.1.sends = false := by decide
  refine ⟨s, evs, htwo, (crashes_iff_edit_lost h0 hrun (by decide) hk (by decide) hroom
    sampleStored_docs sampleExchanges_lost (fun e hmem hsend => ?_) he).mpr ?_⟩
  · rw [hsends e hmem] at hsend
    cases hsend
  · exact ⟨_, List.mem_of_getLast? rfl, rfl, lostAnswer_lost⟩

end TgFuse

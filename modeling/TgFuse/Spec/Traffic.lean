/-
  TgFuse.Spec.Traffic

  What the program asks of the server, and how much.

  Every request is about an entry of the call's own path, or of the directory that is
  removed; what is downloaded is what the `getFile` of the same call was answered
  (`Request.Confined`).  Every URL fits the array it is written to.  This holds of each
  request that is made, whether or not the call then completes.

  A read costs two requests, a write three.  What `unlink` and `rmdir` ask for is paid
  by the calls that made the entries: each entry that leaves the table takes at most one
  request with it.
-/

import TgFuse.Effect.Ids
import TgFuse.Effect.Requests
import TgFuse.Spec.Answers

namespace TgFuse

open CString Interact Interact.Prog KeyedList Lts Request

-- ============================================================================
-- What the requests are about
-- ============================================================================

/-- `URL_SIZE`. -/
def urlSize : Nat := 1000

/-- Which call asks for what, from the table `st` and after its exchanges `before`: always
    for the configured chat, and about the path of the call or an entry of it. -/
def Request.Confined (config : TgConfig) (st : TgStorage) (call : Call)
    (before : List (Request × Response)) (q : Request) : Prop :=
  match call, q with
  | .write p _ _, .sendDocument c caption filename _ =>
      c = config ∧ caption = dirOf p ∧ filename = baseOf p
  | .write p _ _, .editMessageMedia c mid caption filename _ =>
      c = config ∧ caption = dirOf p ∧ filename = baseOf p ∧
        ∃ f ∈ st.live, f.pathStr = p ∧ mid = f.messageIdStr
  | .read p _ _, .getFile c fid | .write p _ _, .getFile c fid =>
      c = config ∧ ∃ f ∈ st.live, f.pathStr = p ∧ fid = f.fileIdStr
  | .read p _ _, .download c path | .write p _ _, .download c path =>
      c = config ∧ ∃ f ∈ st.live, f.pathStr = p ∧ TellsPath config f before path
  | .unlink p, .deleteMessage c mid =>
      c = config ∧ ∃ f ∈ st.live, f.pathStr = p ∧ mid = f.messageIdStr
  | .rmdir d, .deleteMessage c mid =>
      c = config ∧ ∃ f ∈ st.live, inDir d f = true ∧ f.fileSize > 0 ∧ mid = f.messageIdStr
  | _, _ => False

section Confinement

variable {config : TgConfig} {s s' : Statics} {st : TgStorage} {f : TgFile} {call : Call}
  {p : List UInt8} {q : Request} {log before : List (Request × Response)}

theorem length_cstr_le (mem : List UInt8) : (cstr mem).length ≤ mem.length :=
  (List.takeWhile_sublist _).length_le

theorem length_str_le {n : Nat} (a : CharArray n) : a.str.length ≤ n := by
  have hlen := length_cstr_le a.bytes
  rwa [a.length_bytes] at hlen

theorem length_dirOf_le (hp : ValidPath p) : (dirOf p).length ≤ 99 := by
  obtain ⟨r, rfl⟩ := hp.exists_cons
  have hlen := hp.length_le
  rw [dirOf]
  split
  · have hsub := (List.takeWhile_sublist (· ≠ slash) (l := r)).length_le
    simp only [List.length_cons] at hlen ⊢
    omega
  · decide

/-- A path of `file_path` is no longer than the array it is parsed into. -/
theorem TellsPath.length_le {path : List UInt8} (h : TellsPath config f before path) :
    path.length ≤ fieldSize := by
  obtain ⟨r, b, out, -, -, -, -, hout, rfl⟩ := h
  obtain ⟨w, -, hfit, heq⟩ := parse_inv (by rw [List.length_replicate]; decide)
    (by rw [b.length_bytes]; decide) hout
  have hlen : out.2.length = fieldSize := by
    rw [heq, List.length_append, List.length_drop, List.length_replicate]
    rw [List.length_replicate] at hfit
    omega
  exact hlen ▸ length_cstr_le out.2

/-- The URL of such a request fits `url`, with its terminator. -/
theorem Request.Confined.url_fits (hp : ValidPath call.path)
    (h : q.Confined config st call before) : q.url.length < urlSize := by
  have hchat := length_str_le config.chatId
  have htoken := length_str_le config.token
  have hmid : ∀ f : TgFile, f.messageIdStr.length ≤ 100 := fun f => length_str_le f.messageId
  have hbot : (text "https://api.telegram.org/bot").length = 28 := by decide
  have hmessage : (text "&message_id=").length = 12 := by decide
  have hcaption : (text "&caption=").length = 9 := by decide
  have hget : ∀ f : TgFile, (getFile config f.fileIdStr).url.length < 1000 := by
    intro f
    have hfid := (length_cstr_le _).trans_eq (fileIdMemory_length f)
    have hmethod : (text "/getFile?file_id=").length = 17 := by decide
    simp only [url, TgFile.fileIdStr, List.length_append, hbot, hmethod]
    omega
  have hdownload : ∀ path : List UInt8, path.length ≤ 100 →
      (download config path).url.length < 1000 := by
    intro path hpath
    have hfile : (text "https://api.telegram.org/file/bot").length = 33 := by decide
    have hslash : (text "/").length = 1 := by decide
    simp only [url, List.length_append, hfile, hslash]
    omega
  have hdelete : ∀ f : TgFile, (deleteMessage config f.messageIdStr).url.length < 1000 := by
    intro f
    have hid := hmid f
    have hmethod : (text "/deleteMessage?chat_id=").length = 23 := by decide
    simp only [url, List.length_append, hbot, hmethod, hmessage]
    omega
  unfold urlSize
  unfold Request.Confined at h
  split at h
  · obtain ⟨rfl, rfl, -⟩ := h
    have hdir := length_dirOf_le hp
    have hmethod : (text "/sendDocument?chat_id=").length = 22 := by decide
    simp only [Call.path] at hdir
    simp only [url, List.length_append, hbot, hmethod, hcaption]
    omega
  · obtain ⟨rfl, rfl, -, f, -, -, rfl⟩ := h
    have hdir := length_dirOf_le hp
    have hid := hmid f
    have hmethod : (text "/editMessageMedia?chat_id=").length = 26 := by decide
    have hmedia : (text "&media=").length = 7 ∧ media.length = 47 := by decide
    simp only [Call.path] at hdir
    simp only [url, List.length_append, hbot, hmethod, hmessage, hmedia, hcaption]
    omega
  · obtain ⟨rfl, f, -, -, rfl⟩ := h
    exact hget f
  · obtain ⟨rfl, f, -, -, rfl⟩ := h
    exact hget f
  · obtain ⟨rfl, f, -, -, hloc⟩ := h
    exact hdownload _ hloc.length_le
  · obtain ⟨rfl, f, -, -, hloc⟩ := h
    exact hdownload _ hloc.length_le
  · obtain ⟨rfl, f, -, -, rfl⟩ := h
    exact hdelete f
  · obtain ⟨rfl, f, -, -, -, rfl⟩ := h
    exact hdelete f
  · exact h.elim

/-- The request of an upload. -/
theorem putRequest_confined {buf document : List UInt8} {offset : Int} (hf : f ∈ st.live)
    (hpath : f.pathStr = p) :
    (putRequest config f (dirOf p) (baseOf p) document).Confined config st
      (.write p buf offset) before := by
  unfold putRequest
  split
  · exact ⟨rfl, rfl, rfl⟩
  · exact ⟨rfl, rfl, rfl, f, hf, hpath, rfl⟩

/-- What one call asks for. -/
theorem call_asks {heap : Heap} (hwf : s.storage.Wf) (hp : ValidPath call.path) :
    Asks receive (Request.Confined config s.storage call) (call.handler heap config) s [] := by
  cases call with
  | read p size offset =>
      refine Asks.bind_pure ?_
      rw [helloRead, asks_findByPath_bind]
      cases hi : tgStorageFindByPath s.storage p with
      | none => exact asks_pure _
      | some i =>
          obtain ⟨f, -, hlive, hslot, hpath⟩ := tgStorageFindByPath_lookup hi
          have hf := List.mem_of_getElem? hlive
          dsimp only
          rw [asks_load_bind (.slot i) hslot]
          split
          · exact asks_pure _
          · refine (asks_tgFileLoadContents (.slot i) hslot ⟨rfl, f, hf, hpath, rfl⟩
              fun l path hloc => ⟨rfl, f, hf, hpath, hloc⟩).bind fun src t l _ => ?_
            rw [readTail_eq]
            exact asks_liftOption _
  | write p buf offset =>
      refine Asks.bind_pure ?_
      rw [helloWrite, asks_findByPath_bind]
      cases hi : tgStorageFindByPath s.storage p with
      | none =>
          have hnew : tgFileNewFile p (sizeT (sizeOfOff offset + buf.length))
              = some (newFile p (sizeT (sizeOfOff offset + buf.length))) :=
            tgFileNewFile_of_valid hp _
          dsimp only
          rw [asks_liftOption_bind]
          intro ifNo hif
          obtain rfl := Option.some.inj (hnew.symm.trans hif)
          refine Asks.bind (asks_of_silent (requests_pushFile _)) fun _ t l _ => ?_
          refine asks_writeData (.var _) rfl (newFile_hasPath p _) hp fun document => ?_
          rw [putRequest_newFile]
          exact ⟨rfl, rfl, rfl⟩
      | some i =>
          obtain ⟨f, -, hlive, hslot, hpath⟩ := tgStorageFindByPath_lookup hi
          have hf := List.mem_of_getElem? hlive
          have hhas : f.HasPath p := hpath ▸ (hwf.named f hf).hasPath
          dsimp only
          rw [asks_load_bind (.slot i) hslot]
          split
          · exact asks_pure _
          · split
            · refine (asks_tgFileLoadContents (.slot i) hslot ⟨rfl, f, hf, hpath, rfl⟩
                fun l path hloc => ⟨rfl, f, hf, hpath, hloc⟩).bind fun data t l he => ?_
              obtain ⟨b, -, rfl⟩ := (exec_tgFileLoadContents (.slot i) hslot).mp he
              exact asks_writeData (.slot i) hslot hhas hp fun _ => putRequest_confined hf hpath
            · exact asks_writeData (.slot i) hslot hhas hp fun _ => putRequest_confined hf hpath
  | unlink p =>
      refine Asks.bind_pure ?_
      rw [helloUnlink, asks_removeByPath_bind]
      cases hl : s.storage.lookup p with
      | none =>
          rw [removeByPath_of_lookup_none hl, if_pos (by rw [zero_pathStr, List.length_nil])]
          exact asks_pure _
      | some f =>
          obtain ⟨hf, hpath⟩ := lookup_some hl
          rw [(removeByPath_of_lookup hwf.valid hl).1]
          split
          · exact asks_pure _
          · exact Asks.bind_pure
              (asks_tgRemoveMessageWithFile (.var f) rfl ⟨rfl, f, hf, hpath, rfl⟩)
  | rmdir p =>
      refine Asks.bind_pure ?_
      rw [helloRmdir, asks_findByPath_bind]
      cases hi : tgStorageFindByPath s.storage p with
      | none => exact asks_pure _
      | some i =>
          obtain ⟨d, -, -, hslot, -⟩ := tgStorageFindByPath_lookup hi
          dsimp only
          rw [asks_load_bind (.slot i) hslot]
          split
          · exact asks_pure _
          · rw [asks_getState_bind]
            refine (asks_rmdirLoop hwf fun f hf hin hpos l =>
              ⟨rfl, f, hf, hin, hpos, rfl⟩).bind fun _ t l _ => asks_of_silent ?_
            exact requests_removeByPath.bind fun _ => requests_pure _
  | _ =>
      exact asks_of_silent (requests_local (fun _ _ _ => Call.noConfusion)
        (fun _ _ _ => Call.noConfusion) (fun _ => Call.noConfusion) fun _ => Call.noConfusion)

/-- A byte is appended to what the server has, and `last` answers the upload. -/
def sampleEdit (last : Response) (s : Statics) : Outcome Statics Request Response Reply :=
  run receive ((Call.write (text "/a") (text "y") 1).handler zeroHeap blankConfig) s
    fun n => [locatedAnswer (text "p"), .whole (text "x"), last].getD n last

end Confinement

-- ============================================================================
-- How many there are
-- ============================================================================

/-- The requests that a call may make, and the entry that it may add. -/
def Call.allowance : Call → Nat
  | .create _ | .mkdir _ => 1
  | .read .. => 2
  | .write .. => 3
  | _ => 0

section Costs

variable {config : TgConfig} {s s' : Statics} {st st' : TgStorage} {f : TgFile}
  {log : List (Request × Response)}

theorem Loaded.length_le {fill : Nat → UInt8} {fid : List UInt8}
    {b : CharArray jsonResponseBufSize} {data : Buffer}
    (h : Loaded fill config fid log b data) : log.length ≤ 2 := by
  obtain ⟨r, -, ⟨-, rfl, -⟩ | ⟨-, -, path, r₂, -, rfl, -⟩⟩ := h
  · exact Nat.le_succ 1
  · exact Nat.le_refl 2

theorem Obtained.length_le {heap : Heap} {b₀ b : CharArray jsonResponseBufSize} {data : Buffer}
    (h : Obtained heap config f b₀ log b data) : log.length ≤ 2 := by
  unfold Obtained at h
  split at h
  · exact h.length_le
  · rw [h.1]
    exact Nat.zero_le 2

theorem DeleteLog.length_le {fs : List TgFile} {b b' : CharArray jsonResponseBufSize}
    (h : DeleteLog config fs b log b') : log.length ≤ fs.length := by
  have hlen := congrArg List.length h.requests
  rw [List.length_map, List.length_map] at hlen
  rw [hlen]
  exact List.length_filter_le _ _

theorem size_push (hwf : st.Wf) (hwf' : st'.Wf) (hlive : st'.live = st.live ++ [f]) :
    st'.size = st.size + 1 := by
  rw [← hwf'.valid.length_live, hlive, List.length_append, hwf.valid.length_live,
    List.length_singleton]

/-- A removed directory leaves with everything that has been visited. -/
theorem size_rmdirTable {p : List UInt8} (hwf : st.Wf) (hl : st.lookup p = some f) :
    (rmdirVisited p st).length + (rmdirTable p st).size + 1 = st.size := by
  have hlen := (rmdirTable_perm hwf hl).1.length_eq
  rw [List.length_append, List.length_map, List.length_cons, hwf.valid.length_live,
    (rmdirTable_wf hwf).valid.length_live] at hlen
  omega

/-- One call stays within its allowance; an entry that leaves gives back its own. -/
theorem call_cost {heap : Heap} {call : Call} {reply : Reply} (hwf : s.storage.Wf)
    (hp : ValidPath call.path)
    (h : Exec receive (call.handler heap config) s log (some reply) s') :
    log.length + s'.storage.size ≤ s.storage.size + call.allowance := by
  cases call with
  | getattr p =>
      obtain ⟨a, ha, rfl⟩ := exec_reply.mp h
      obtain ⟨rfl, -, rfl⟩ := exec_helloGetattr.mp ha
      exact Nat.le_of_eq (Nat.zero_add _)
  | readdir p =>
      obtain ⟨a, ha, rfl⟩ := exec_reply.mp h
      obtain ⟨rfl, rfl, -⟩ := (exec_helloReaddir hwf).mp ha
      exact Nat.le_of_eq (Nat.zero_add _)
  | «open» p =>
      obtain ⟨a, ha, rfl⟩ := exec_reply.mp h
      obtain ⟨rfl, -, rfl⟩ := exec_helloOpen.mp ha
      exact Nat.le_of_eq (Nat.zero_add _)
  | setxattr p =>
      obtain ⟨a, ⟨rfl, -, rfl⟩, rfl⟩ := exec_reply.mp h
      exact Nat.le_of_eq (Nat.zero_add _)
  | utimens p =>
      obtain ⟨a, ⟨rfl, -, rfl⟩, rfl⟩ := exec_reply.mp h
      exact Nat.le_of_eq (Nat.zero_add _)
  | read p size offset =>
      obtain ⟨a, ha, rfl⟩ := exec_reply.mp h
      show log.length + s'.storage.size ≤ s.storage.size + 2
      rcases exec_helloRead.mp ha with ⟨-, rfl, -, rfl⟩ | ⟨f, -, -, rfl, -, rfl⟩ |
        ⟨f, b, src, -, -, hload, rfl, -⟩
      · exact (Nat.zero_add _).trans_le (Nat.le_add_right _ _)
      · exact (Nat.zero_add _).trans_le (Nat.le_add_right _ _)
      · have hlen := hload.length_le
        rw [Statics.withJson_storage]
        omega
  | create p =>
      obtain ⟨a, ha, rfl⟩ := exec_reply.mp h
      obtain ⟨rfl, ⟨f, -, -, -, rfl⟩ | ⟨-, st', hst, -, rfl⟩⟩ := (exec_helloCreate hp).mp ha
      · exact (Nat.zero_add _).trans_le (Nat.le_add_right _ _)
      · obtain ⟨hwf', hlive⟩ := hwf.push ((newFile_hasPath p 0).named hp) hst
        exact Nat.le_of_eq ((Nat.zero_add _).trans (size_push hwf hwf' hlive))
  | mkdir p =>
      obtain ⟨a, ha, rfl⟩ := exec_reply.mp h
      obtain ⟨rfl, st', hst, -, rfl⟩ := (exec_helloMkdir hp).mp ha
      obtain ⟨hwf', hlive⟩ := hwf.push ((newDir_hasPath p).named hp) hst
      exact Nat.le_of_eq ((Nat.zero_add _).trans (size_push hwf hwf' hlive))
  | write p buf offset =>
      obtain ⟨a, ha, rfl⟩ := exec_reply.mp h
      show log.length + s'.storage.size ≤ s.storage.size + 3
      rcases (exec_helloWrite hwf hp).mp ha with ⟨-, -, st', b, data', r, f', hw⟩ |
        ⟨f, -, -, rfl, -, rfl⟩ | ⟨i, f, -, -, -, -, loadLog, _, b, data, data', r, f', hw⟩
      · obtain ⟨hwf', hlive⟩ := hwf.push ((newFile_hasPath p _).named hp) hw.pushed
        have hsize := size_push hwf hwf' hlive
        rw [hw.state_eq, hw.log_eq, List.length_singleton, Statics.withJson_storage,
          Statics.withStorage_storage]
        omega
      · exact (Nat.zero_add _).trans_le (Nat.le_add_right _ _)
      · have hload : loadLog.length ≤ 2 := hw.obtained.length_le
        rw [hw.state_eq, hw.log_eq, List.length_append, List.length_singleton]
        show loadLog.length + 1 + s.storage.size ≤ s.storage.size + 3
        omega
  | unlink p =>
      obtain ⟨a, ha, rfl⟩ := exec_reply.mp h
      show log.length + s'.storage.size ≤ s.storage.size + 0
      rcases (exec_helloUnlink hwf).mp ha with ⟨-, rfl, -, rfl⟩ | ⟨f, r, b, hl, rfl, -, -, -, rfl⟩
      · exact Nat.le_of_eq (Nat.zero_add _)
      · have hsize := size_without hwf hl
        rw [List.length_singleton, Statics.withJson_storage, Statics.withStorage_storage]
        omega
  | rmdir p =>
      obtain ⟨a, ha, rfl⟩ := exec_reply.mp h
      show log.length + s'.storage.size ≤ s.storage.size + 0
      rcases (exec_helloRmdir hwf).mp ha with ⟨-, rfl, -, rfl⟩ | ⟨f, b, hl, -, hlog, -, rfl⟩
      · exact Nat.le_of_eq (Nat.zero_add _)
      · have hlen := hlog.length_le
        have hsize := size_rmdirTable hwf hl
        rw [List.length_map] at hlen
        rw [Statics.withJson_storage, Statics.withStorage_storage]
        omega

/-- Whatever is called, and however it is answered: the requests made so far, with one
    for each entry there is, stay within what the calls were allowed. -/
theorem requests_budget {s₀ : Statics} {evs : List Event} (h0 : Initial s₀)
    (hrun : Run (PathStep config) s₀ evs s) :
    (evs.map fun ev => ev.log.length).sum + s.storage.size ≤
      (evs.map fun ev => ev.call.allowance).sum + 1 := by
  obtain ⟨hwf, hlive, -⟩ := initial_live h0
  have hsize : s₀.storage.size = 1 := by rw [← hwf.valid.length_live, hlive, List.length_singleton]
  have hstep : ∀ t ev u, TgStorage.Wf t.storage → PathStep config t ev u →
      u.storage.Wf ∧ ev.log.length + u.storage.size ≤ t.storage.size + ev.call.allowance := by
    rintro t ev u hwft ⟨hp, hstep⟩
    refine ⟨(step_table hwft hp hstep).wf hwft, ?_⟩
    obtain ⟨heap, he⟩ := hstep
    exact call_cost hwft hp he
  obtain ⟨-, hsum⟩ := hrun.amortised (fun s => s.storage.size) hwf hstep
  omega

/-- A file is written twice, and goes with its directory. -/
theorem requests_budget_sample :
    ∃ (s₀ : Statics) (evs : List Event) (s : Statics), Initial s₀ ∧
      Run (PathStep blankConfig) s₀ evs s ∧
      evs.map (fun ev => ev.log.length) = [0, 0, 1, 0, 3, 1] ∧
      (evs.map fun ev => ev.log.length).sum + s.storage.size ≤
        (evs.map fun ev => ev.call.allowance).sum + 1 := by
  obtain ⟨s₀, evs, s, h0, hlogs, hrun⟩ := pathRun_of_runFromMain
    [(.mkdir (text "/d"), []), (.create (text "/d/a"), []),
      (.write (text "/d/a") (text "x") 0, [sentAnswer (text "17") (text "AAA")]),
      (.create (text "/b"), []),
      (.write (text "/d/a") (text "yy") 1, [locatedAnswer (text "f1"), .whole (text "x"),
        editedAnswer (text "BBB")]),
      (.rmdir (text "/d"), [deletedAnswer])]
    (fun evs _ => evs.map (fun ev => ev.log.length) = [0, 0, 1, 0, 3, 1]) (by decide +kernel)
  exact ⟨s₀, evs, s, h0, hrun, hlogs, requests_budget h0 hrun⟩

end Costs

end TgFuse

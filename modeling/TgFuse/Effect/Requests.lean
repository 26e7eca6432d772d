/-
  TgFuse.Effect.Requests

  Which requests the handlers make: only `hello_read` and `hello_write` download, and
  only they and the two removals make any (`Requests`); and what each part of a handler
  asks for, after what it has been told (`Asks`).
-/

import TgFuse.Effect.Rmdir

namespace TgFuse

open CString Interact Interact.Prog SwapSweep

/-- A request that does not download a file. -/
def NoDownload (q : Request) : Prop := ∀ config path, q ≠ .download config path

section Local

variable {P : Request → Prop} {path : List UInt8}

theorem requests_load (ptr : FilePtr) : Requests P ptr.load := by
  cases ptr with
  | slot i => exact requests_getState.bind fun s => requests_liftOption _
  | var f => exact requests_pure f

theorem requests_store (f : TgFile) (ptr : FilePtr) : Requests P (ptr.store f) := by
  cases ptr with
  | slot i => exact requests_getState.bind fun s => (requests_setState _).bind fun _ =>
      requests_pure _
  | var f => exact requests_pure _

theorem requests_findByPath : Requests P (findByPath path) :=
  requests_getState.bind fun _ => requests_pure _

theorem requests_removeByPath : Requests P (removeByPath path) :=
  requests_getState.bind fun _ => (requests_setState _).bind fun _ => requests_pure _

theorem requests_pushFile {heap : Heap} (f : TgFile) : Requests P (pushFile heap f) :=
  requests_getState.bind fun _ => (requests_liftOption _).bind fun _ => requests_setState _

theorem requests_reply {α : Type} {p : Handler α} (g : α → Reply) (hp : Requests P p) :
    Requests P (do let r ← p; return g r) := hp.bind fun _ => requests_pure _

/-- Reads, writes and removals apart, a call makes no requests. -/
theorem requests_local {config : TgConfig} {heap : Heap} {call : Call}
    (hread : ∀ p n o, call ≠ .read p n o) (hwrite : ∀ p b o, call ≠ .write p b o)
    (hunlink : ∀ p, call ≠ .unlink p) (hrmdir : ∀ p, call ≠ .rmdir p) :
    Requests P (call.handler heap config) := by
  cases call with
  | read p n o => exact absurd rfl (hread p n o)
  | write p b o => exact absurd rfl (hwrite p b o)
  | unlink p => exact absurd rfl (hunlink p)
  | rmdir p => exact absurd rfl (hrmdir p)
  | setxattr p => exact requests_reply _ (requests_pure _)
  | utimens p => exact requests_reply _ (requests_pure _)
  | getattr p =>
      refine requests_reply (fun r : Int × Stat => .stat r.1 r.2) ?_
      rw [helloGetattr]
      split
      · exact requests_pure _
      · refine requests_findByPath.bind fun found => ?_
        cases found with
        | none => exact requests_pure _
        | some i =>
            refine (requests_load _).bind fun file => ?_
            cases file.type <;> exact requests_pure _
  | readdir p =>
      refine requests_reply (fun r : Int × List (List UInt8) => .listing r.1 r.2) ?_
      rw [helloReaddir]
      refine requests_findByPath.bind fun found => ?_
      cases found with
      | none => exact requests_pure _
      | some i =>
          refine (requests_load _).bind fun dir => ?_
          split
          · exact requests_pure _
          · exact requests_getState.bind fun s => (requests_liftOption _).bind fun _ =>
              requests_pure _
  | «open» p =>
      refine requests_reply _ ?_
      rw [helloOpen]
      refine requests_findByPath.bind fun found => ?_
      cases found <;> exact requests_pure _
  | create p =>
      refine requests_reply _ ?_
      rw [helloCreate]
      refine requests_findByPath.bind fun found => ?_
      have hpush : ∀ isDir : Bool, Requests P (if isDir = true then pure (-eisdir) else do
          let newFile ← liftOption (tgFileNewFile p 0)
          pushFile heap newFile
          pure (0 : Int) : Handler Int) := fun isDir => by
        split
        · exact requests_pure _
        · exact (requests_liftOption _).bind fun f => (requests_pushFile f).bind fun _ =>
            requests_pure _
      cases found with
      | none => exact (requests_pure _).bind hpush
      | some i => exact (requests_load _).bind fun file => (requests_pure _).bind hpush
  | mkdir p =>
      refine requests_reply _ ?_
      rw [helloMkdir]
      exact (requests_liftOption _).bind fun f => (requests_pushFile f).bind fun _ =>
        requests_pure _

end Local

section NoDownloads

variable {config : TgConfig} {path : List UInt8}

theorem requests_tgPutFile (ptr : FilePtr) (data : Buffer) :
    Requests NoDownload (tgPutFile ptr config data) := by
  rw [tgPutFile]
  refine (requests_load ptr).bind fun f => (requests_liftOption _).bind fun filename =>
    (requests_liftOption _).bind fun directory => ?_
  split
  · exact (requests_exchange fun _ _ => nofun).bind fun _ => requests_getState.bind fun _ =>
      (requests_load ptr).bind fun f => (requests_liftOption _).bind fun f => requests_store f ptr
  · refine (requests_exchange fun _ _ => nofun).bind fun r => ?_
    split
    · trivial
    · exact requests_getState.bind fun _ => (requests_load ptr).bind fun f =>
        (requests_liftOption _).bind fun f => requests_store f ptr

theorem requests_writeData {heap : Heap} {buf : List UInt8} {offset : Int} (ptr : FilePtr)
    (data : Buffer) : Requests NoDownload (writeData heap config ptr data buf offset) := by
  rw [writeData]
  exact (requests_liftOption _).bind fun data => (requests_tgPutFile ptr data).bind fun ptr =>
    (requests_load ptr).bind fun f => (requests_store _ ptr).bind fun _ => requests_pure _

theorem requests_tgRemoveMessageWithFile (ptr : FilePtr) :
    Requests NoDownload (tgRemoveMessageWithFile config ptr) := by
  rw [tgRemoveMessageWithFile]
  refine (requests_load ptr).bind fun f => (requests_exchange fun _ _ => nofun).bind fun r => ?_
  split
  · exact requests_pure 0
  · exact requests_getState.bind fun _ => (requests_liftOption _).bind fun _ => requests_pure 0

theorem requests_rmdirLoop (rounds start : Nat) :
    Requests NoDownload (rmdirLoop config path rounds start) := by
  induction rounds generalizing start with
  | zero => trivial
  | succ rounds ih =>
      rw [rmdirLoop]
      refine requests_getState.bind fun s => (requests_liftOption _).bind fun next => ?_
      cases next with
      | none => exact requests_pure ()
      | some i =>
          refine (requests_load _).bind fun file => ?_
          have hrest : ∀ n : Int, Requests NoDownload (do
              let file ← (FilePtr.slot i).load
              let _ ← removeByPath file.pathStr
              rmdirLoop config path rounds (i + 1)) := fun n =>
            (requests_load _).bind fun file => requests_removeByPath.bind fun _ => ih (i + 1)
          dsimp only
          split
          · exact (requests_tgRemoveMessageWithFile _).bind hrest
          · exact (requests_pure _).bind hrest

/-- Only reads and writes download. -/
theorem requests_handler {heap : Heap} {call : Call} (hread : ∀ p n o, call ≠ .read p n o)
    (hwrite : ∀ p b o, call ≠ .write p b o) :
    Requests NoDownload (call.handler heap config) := by
  cases call with
  | read p n o => exact absurd rfl (hread p n o)
  | write p b o => exact absurd rfl (hwrite p b o)
  | rmdir p =>
      refine requests_reply _ ?_
      rw [helloRmdir]
      refine requests_findByPath.bind fun found => ?_
      cases found with
      | none => exact requests_pure _
      | some i =>
          refine (requests_load _).bind fun dir => ?_
          split
          · exact requests_pure _
          · exact requests_getState.bind fun s => (requests_rmdirLoop _ _).bind fun _ =>
              requests_removeByPath.bind fun _ => requests_pure _
  | unlink p =>
      refine requests_reply _ ?_
      rw [helloUnlink]
      refine requests_removeByPath.bind fun file => ?_
      split
      · exact requests_pure _
      · exact (requests_tgRemoveMessageWithFile _).bind fun _ => requests_pure _
  | _ => exact requests_local hread hwrite nofun nofun

end NoDownloads

-- ============================================================================
-- After what has been exchanged
-- ============================================================================

/-- All that has been exchanged is the `getFile` for the document of `f`, and its answer
    gives `path` as the place to download it from. -/
def TellsPath (config : TgConfig) (f : TgFile) (before : List (Request × Response))
    (path : List UInt8) : Prop :=
  ∃ r b out, before = [(.getFile config f.fileIdStr, r)] ∧ r.code = curleOk ∧
    receiveJson r .zeros = some b ∧ checkOkStatusInJson b.bytes = some true ∧
    parseResponseFieldFromJson (List.replicate fieldSize 0) b.bytes (text "file_path")
      = some out ∧
    path = cstr out.2

section Asked

variable {P : List (Request × Response) → Request → Prop} {α : Type} {config : TgConfig}
  {s : Statics} {f : TgFile} {p : List UInt8} {before : List (Request × Response)}

/-- What makes no requests asks for nothing. -/
theorem asks_of_silent {m : Handler α} (hm : Requests (fun _ => False) m) :
    Asks receive P m s before :=
  hm.asks fun _ _ => False.elim

theorem asks_load_bind (ptr : FilePtr) (h : ptr.peek s = some f) {k : TgFile → Handler α} :
    Asks receive P (ptr.load >>= k) s before ↔ Asks receive P (k f) s before := by
  cases ptr with
  | slot i =>
      have hi : s.storage.files[i]? = some f := h
      show Asks receive P (liftOption s.storage.files[i]? >>= k) s before ↔ _
      rw [hi]
      exact Iff.rfl
  | var g =>
      cases h
      exact Iff.rfl

theorem asks_findByPath_bind {k : Option Nat → Handler α} :
    Asks receive P (findByPath p >>= k) s before ↔
      Asks receive P (k (tgStorageFindByPath s.storage p)) s before := Iff.rfl

theorem asks_removeByPath_bind {k : TgFile → Handler α} :
    Asks receive P (removeByPath p >>= k) s before ↔
      Asks receive P (k (tgStorageRemoveByPath s.storage p).1)
        (s.withStorage (s.storage.without p)) before := Iff.rfl

/-- A load asks for the document of its entry, and downloads it from where that is. -/
theorem asks_tgFileLoadContents (ptr : FilePtr) {fill : Nat → UInt8} (h : ptr.peek s = some f)
    (hget : P [] (.getFile config f.fileIdStr))
    (hdown : ∀ l path, TellsPath config f l path → P l (.download config path)) :
    Asks receive P (tgFileLoadContents fill config ptr) s [] := by
  have h0 : ptr.peek (s.withJson .zeros) = some f := by simpa using h
  rw [tgFileLoadContents, asks_getState_bind, asks_setState_bind]
  change Asks receive P _ (s.withJson .zeros) []
  rw [asks_load_bind ptr h0, asks_exchange_bind]
  refine ⟨hget, fun r t ht => ?_⟩
  obtain ⟨b, hb, rfl⟩ := (receive_json_some fun _ _ => Request.noConfusion).mp ht
  split
  · exact asks_pure _
  · next hcode =>
    rw [asks_getState_bind, asks_liftOption_bind]
    intro ok hok
    split
    · exact asks_pure _
    · next htrue =>
      rw [not_not.mp htrue] at hok
      rw [asks_liftOption_bind]
      intro out hout
      rw [asks_exchange_bind]
      exact ⟨hdown _ _ ⟨r, b, out, rfl, not_not.mp hcode, hb, hok, hout, rfl⟩,
        fun r₂ u _ => asks_liftOption _⟩

/-- An upload asks for nothing else. -/
theorem asks_tgPutFile (ptr : FilePtr) {data : Buffer} (h : ptr.peek s = some f)
    (hf : f.HasPath p) (hp : ValidPath p)
    (hput : P before (putRequest config f (dirOf p) (baseOf p) data.contents)) :
    Asks receive P (tgPutFile ptr config data) s before := by
  obtain ⟨name, hname, hbase⟩ := tgFileExtractFilename_spec hf hp uninit_length
  obtain ⟨dir, hdir, hdirOf⟩ := tgFileExtractDirectory_spec hf hp uninit_length
  have hstore : ∀ after : TgFile → Statics → Option TgFile,
      Requests (fun _ => False) (do
        let s ← getState
        let f ← ptr.load
        let f ← liftOption (after f s)
        ptr.store f) := fun after =>
    requests_getState.bind fun _ => (requests_load ptr).bind fun _ =>
      (requests_liftOption _).bind fun f => requests_store f ptr
  unfold putRequest at hput
  rw [tgPutFile, asks_load_bind ptr h, hname, hdir, asks_liftOption_bind]
  rintro _ ⟨⟩
  rw [asks_liftOption_bind]
  rintro _ ⟨⟩
  rw [hbase, hdirOf]
  split at hput
  · next hid =>
    rw [if_pos hid, asks_exchange_bind]
    refine ⟨hput, fun r t _ => ?_⟩
    exact asks_of_silent (hstore fun f s => afterSend f s.jsonResponseBuf.bytes)
  · next hid =>
    rw [if_neg hid, asks_exchange_bind]
    refine ⟨hput, fun r t _ => ?_⟩
    split
    · trivial
    · exact asks_of_silent (hstore fun f s => afterEdit f s.jsonResponseBuf.bytes)

theorem asks_writeData (ptr : FilePtr) {heap : Heap} {data : Buffer} {buf : List UInt8}
    {offset : Int} (h : ptr.peek s = some f) (hf : f.HasPath p) (hp : ValidPath p)
    (hput : ∀ document, P before (putRequest config f (dirOf p) (baseOf p) document)) :
    Asks receive P (writeData heap config ptr data buf offset) s before := by
  rw [writeData, asks_liftOption_bind]
  intro data' _
  refine (asks_tgPutFile ptr h hf hp (hput _)).bind fun out t l _ => asks_of_silent ?_
  exact (requests_load out).bind fun _ => (requests_store _ out).bind fun _ => requests_pure _

theorem asks_tgRemoveMessageWithFile (ptr : FilePtr) (h : ptr.peek s = some f)
    (hdelete : P before (.deleteMessage config f.messageIdStr)) :
    Asks receive P (tgRemoveMessageWithFile config ptr) s before := by
  rw [tgRemoveMessageWithFile, asks_load_bind ptr h, asks_exchange_bind]
  refine ⟨hdelete, fun r t _ => asks_of_silent ?_⟩
  split
  · exact requests_pure 0
  · exact requests_getState.bind fun _ => (requests_liftOption _).bind fun _ => requests_pure 0

/-- The loop asks for the entries of the directory that have been uploaded. -/
theorem asks_rmdirLoop {dir : List UInt8} {rounds start : Nat} (hwf : s.storage.Wf)
    (hdelete : ∀ f ∈ s.storage.live, inDir dir f = true → f.fileSize > 0 →
      ∀ l, P l (.deleteMessage config f.messageIdStr)) :
    Asks receive P (rmdirLoop config dir rounds start) s before := by
  induction rounds generalizing s start before with
  | zero => trivial
  | succ rounds ih =>
      rw [rmdirLoop, asks_getState_bind, tgStorageFindFilesByDir_eq hwf, asks_liftOption_bind]
      rintro _ ⟨⟩
      cases hnext : nextIn (inDir dir) s.storage.live start with
      | none => exact asks_pure ()
      | some i =>
          obtain ⟨f, hf, -⟩ := exists_of_nextIn hwf hnext
          obtain ⟨-, ⟨g, hg, hin⟩, -⟩ := nextIn_some hnext
          obtain rfl : f = g := Option.some.inj (hf.symm.trans hg)
          have hslot := (TgStorage.getElem?_live hf).2
          -- the rest of the round, with the response to its request in the buffer
          have hrest : ∀ (t : Statics) l, t.storage = s.storage → Asks receive P (do
              let file ← (FilePtr.slot i).load
              let _ ← removeByPath file.pathStr
              rmdirLoop config dir rounds (i + 1)) t l := by
            intro t l ht
            rw [asks_load_bind (.slot i) (f := f) (by rw [FilePtr.peek, ht]; exact hslot),
              asks_removeByPath_bind]
            refine ih ?_ fun h hh => hdelete h ?_
            · rw [Statics.withStorage_storage, ht]
              exact hwf.without _
            · rw [Statics.withStorage_storage, ht] at hh
              exact mem_without hwf.valid hh
          dsimp only
          rw [asks_load_bind (.slot i) hslot]
          split
          · next hpos =>
            refine (asks_tgRemoveMessageWithFile (.slot i) hslot (hdelete f
              (List.mem_of_getElem? hf) hin hpos _)).bind fun a t l he => ?_
            obtain ⟨r, c, -, -, -, -, rfl⟩ := (exec_tgRemoveMessageWithFile (.slot i) hslot).mp he
            exact hrest _ _ rfl
          · exact hrest s before rfl

end Asked

end TgFuse

/-
  TgFuse.Effect.Segments

  The handlers cut at their requests: which request each segment ends with, what is
  left to do once the answer has arrived, and what the segment does to the static
  state.
-/

import TgFuse.Effect.Data

namespace TgFuse

open CString Interact Interact.Prog KeyedList

variable {s : Statics} {ptr : FilePtr} {f f' : TgFile} {config : TgConfig} {α β : Type}

theorem advance_load_bind (h : ptr.peek s = some f) {k : TgFile → Handler β} :
    advance (ptr.load >>= k) s = advance (k f) s := by
  cases ptr with
  | slot i =>
      have hi : s.storage.files[i]? = some f := h
      show advance (liftOption s.storage.files[i]? >>= k) s = _
      rw [hi]
      exact advance_liftOption_some_bind
  | var g =>
      cases h
      rfl

theorem advance_store_bind {k : FilePtr → Handler β} :
    advance (ptr.store f >>= k) s = advance (k (ptr.now f)) (s.poke ptr f) := by
  cases ptr <;> rfl

-- ============================================================================
-- tg_put_file
-- ============================================================================

/-- `tg_put_file` from the answer on; `f` is the entry at the time of the request. -/
def afterUpload (ptr : FilePtr) (f : TgFile) (r : Response) : Handler FilePtr :=
  if f.fileIdStr.length = 0 then do
    let s ← getState
    let f ← ptr.load
    let f ← liftOption (afterSend f s.jsonResponseBuf.bytes)
    ptr.store f
  else if r.code ≠ curleOk then .fault
  else do
    let s ← getState
    let f ← ptr.load
    let f ← liftOption (afterEdit f s.jsonResponseBuf.bytes)
    ptr.store f

/-- `tg_put_file` starts with an upload. -/
theorem advance_tgPutFile (config : TgConfig) (data : Buffer) (h : ptr.peek s = some f)
    (hf : f.Named) :
    advance (tgPutFile ptr config data) s =
      .waiting (putRequest config f (dirOf f.pathStr) (baseOf f.pathStr) data.contents)
        (afterUpload ptr f) s := by
  obtain ⟨name, hname, hbase⟩ := tgFileExtractFilename_spec hf.hasPath hf.valid uninit_length
  obtain ⟨dir, hdir, hdirOf⟩ := tgFileExtractDirectory_spec hf.hasPath hf.valid uninit_length
  unfold tgPutFile
  rw [advance_load_bind h, hname, hdir]
  simp only [advance_liftOption_some_bind, hbase, hdirOf, putRequest]
  by_cases hid : f.fileIdStr.length = 0
  · simp only [if_pos hid, advance_exchange_bind]
    congr 1
    funext r
    rw [afterUpload, if_pos hid]
  · simp only [if_neg hid, advance_exchange_bind]
    congr 1
    funext r
    rw [afterUpload, if_neg hid]

/-- The answer is taken into the entry, if it is still there. -/
theorem advance_afterUpload {r : Response} (h : ptr.peek s = some f) :
    advance (afterUpload ptr f r) s =
      match afterPut f r s.jsonResponseBuf.bytes with
      | some f' => .done (some (ptr.now f')) (s.poke ptr f')
      | none => .done none s := by
  have hstore : ∀ x : Option TgFile, advance (liftOption x >>= ptr.store) s =
      match x with
      | some f' => .done (some (ptr.now f')) (s.poke ptr f')
      | none => .done none s := by
    intro x
    cases x with
    | none => rfl
    | some f' => cases ptr <;> rfl
  unfold afterUpload afterPut
  split
  · rw [advance_getState_bind, advance_load_bind h, hstore]
  · split
    · rfl
    · rw [advance_getState_bind, advance_load_bind h, hstore]

-- ============================================================================
-- tg_file_load_contents
-- ============================================================================

/-- `tg_file_load_contents` from the end of the download on. -/
def afterDownload (fill : Nat → UInt8) (r : Response) : Handler Buffer :=
  liftOption (r.chunks.foldlM (curlResponseFileWriter fill) (bufferNew fill))

/-- `tg_file_load_contents` from the answer to `getFile` on. -/
def afterGetFile (fill : Nat → UInt8) (config : TgConfig) (r : Response) : Handler Buffer :=
  if r.code ≠ curleOk then pure (bufferNew fill)
  else do
    let s ← getState
    let ok ← liftOption (checkOkStatusInJson s.jsonResponseBuf.bytes)
    if ¬ ok then pure (bufferNew fill)
    else do
      let filePath ← liftOption (parseResponseFieldFromJson (List.replicate fieldSize 0)
        s.jsonResponseBuf.bytes (text "file_path"))
      let r ← exchange (.download config (cstr filePath.2))
      afterDownload fill r

/-- `tg_file_load_contents` clears the buffer first. -/
theorem advance_tgFileLoadContents (config : TgConfig) (fill : Nat → UInt8)
    (h : ptr.peek s = some f) :
    advance (tgFileLoadContents fill config ptr) s =
      .waiting (.getFile config f.fileIdStr) (afterGetFile fill config) (s.withJson .zeros) := by
  have h0 : ptr.peek (s.withJson .zeros) = some f := by simpa using h
  unfold tgFileLoadContents
  simp only [advance_getState_bind, advance_setState_bind]
  change advance _ (s.withJson .zeros) = _
  rw [advance_load_bind h0]
  rfl

/-- The file has been located, so it is downloaded. -/
theorem advance_afterGetFile {fill : Nat → UInt8} {r : Response} {out : Nat × List UInt8}
    (hcode : r.code = curleOk)
    (hok : checkOkStatusInJson s.jsonResponseBuf.bytes = some true)
    (hout : parseResponseFieldFromJson (List.replicate fieldSize 0) s.jsonResponseBuf.bytes
      (text "file_path") = some out) :
    advance (afterGetFile fill config r) s =
      .waiting (.download config (cstr out.2)) (afterDownload fill) s := by
  unfold afterGetFile
  rw [if_neg (not_not.mpr hcode), advance_getState_bind, hok, advance_liftOption_some_bind,
    if_neg (not_not.mpr rfl), hout, advance_liftOption_some_bind]
  rfl

-- ============================================================================
-- tg_remove_message_with_file
-- ============================================================================

/-- `tg_remove_message_with_file` from the answer on. -/
def afterDelete (r : Response) : Handler Int :=
  if r.code ≠ curleOk then pure 0
  else do
    let s ← getState
    let _ ← liftOption (checkOkStatusInJson s.jsonResponseBuf.bytes)
    return 0

/-- `tg_remove_message_with_file` starts with a deletion. -/
theorem advance_tgRemoveMessageWithFile (config : TgConfig) (h : ptr.peek s = some f) :
    advance (tgRemoveMessageWithFile config ptr) s =
      .waiting (.deleteMessage config f.messageIdStr) afterDelete s := by
  unfold tgRemoveMessageWithFile
  rw [advance_load_bind h]
  rfl

theorem advance_afterDelete {r : Response}
    (hok : checkOkStatusInJson s.jsonResponseBuf.bytes = some true) :
    advance (afterDelete r) s = .done (some 0) s := by
  unfold afterDelete
  split
  · rfl
  · rw [advance_getState_bind, hok]
    rfl

-- ============================================================================
-- The handlers
-- ============================================================================

section Handlers

variable {heap : Heap} {p buf : List UInt8} {offset : Int} {size : Nat} {i : Nat}

theorem advance_findByPath_bind {k : Option Nat → Handler β} :
    advance (findByPath p >>= k) s = advance (k (tgStorageFindByPath s.storage p)) s := rfl

/-- The rest of `hello_write` once `tg_put_file` has returned. -/
def afterPutFile (data : Buffer) (buf : List UInt8) (file : FilePtr) : Handler Int := do
  let f ← file.load
  let _ ← file.store { f with fileSize := data.size }
  return cint buf.length

/-- `hello_write` uploads what it has put together. -/
theorem advance_writeData {data data' : Buffer}
    (hins : bufferInsert heap.bytes data (sizeOfOff offset) buf = some data')
    (h : ptr.peek s = some f) (hf : f.Named) :
    advance (writeData heap config ptr data buf offset) s =
      .waiting (putRequest config f (dirOf f.pathStr) (baseOf f.pathStr) data'.contents)
        (fun r => afterUpload ptr f r >>= afterPutFile data' buf) s := by
  unfold writeData
  rw [hins, advance_liftOption_some_bind]
  exact advance_bind_waiting (advance_tgPutFile config data' h hf)

/-- The ids and the size are stored in one segment. -/
theorem advance_afterUpload_bind {r : Response} {data : Buffer} (h : ptr.peek s = some f) :
    advance (afterUpload ptr f r >>= afterPutFile data buf) s =
      match afterPut f r s.jsonResponseBuf.bytes with
      | some f' => .done (some (cint buf.length)) (s.poke ptr (written f' data))
      | none => .done none s := by
  have hadv := advance_afterUpload (r := r) h
  cases hafter : afterPut f r s.jsonResponseBuf.bytes with
  | none =>
      rw [hafter] at hadv
      exact advance_bind_done hadv
  | some f' =>
      rw [hafter] at hadv
      rw [advance_bind_done hadv]
      show advance (afterPutFile data buf (ptr.now f')) (s.poke ptr f') = _
      unfold afterPutFile
      rw [advance_load_bind (FilePtr.peek_poke h), advance_store_bind, advance_pure,
        Statics.poke_poke]
      rfl

/-- What `hello_read` does with what it has loaded. -/
theorem advance_helloRead (hi : tgStorageFindByPath s.storage p = some i)
    (hfile : s.storage.files[i]? = some f) (hid : f.fileIdStr.length ≠ 0) :
    advance (helloRead heap config p size offset) s =
      .waiting (.getFile config f.fileIdStr) (fun r => afterGetFile heap.bytes config r >>=
        fun src => liftOption (readReply src size offset)) (s.withJson .zeros) := by
  have hpeek : (FilePtr.slot i).peek s = some f := hfile
  unfold helloRead
  rw [advance_findByPath_bind, hi]
  change advance ((FilePtr.slot i).load >>= _) s = _
  rw [advance_load_bind hpeek, if_neg hid]
  simp only [readTail_eq]
  exact advance_bind_waiting (advance_tgFileLoadContents config heap.bytes hpeek)

/-- `hello_write` of a file loads its document first, if there is one. -/
theorem advance_helloWrite (hi : tgStorageFindByPath s.storage p = some i)
    (hfile : s.storage.files[i]? = some f) (htype : f.type = .tgFile) :
    advance (helloWrite heap config p buf offset) s =
      if f.fileSize > 0 then
        .waiting (.getFile config f.fileIdStr) (fun r => afterGetFile heap.bytes config r >>=
          fun data => writeData heap config (.slot i) data buf offset) (s.withJson .zeros)
      else advance (writeData heap config (.slot i) (bufferNew heap.bytes) buf offset) s := by
  have hpeek : (FilePtr.slot i).peek s = some f := hfile
  unfold helloWrite
  rw [advance_findByPath_bind, hi]
  change advance ((FilePtr.slot i).load >>= _) s = _
  rw [advance_load_bind hpeek, if_neg (by rw [htype]; exact TgFileType.noConfusion)]
  split
  · exact advance_bind_waiting (advance_tgFileLoadContents config heap.bytes hpeek)
  · rfl

/-- `hello_unlink` takes the entry out before it deletes the message. -/
theorem advance_helloUnlink (hwf : s.storage.Wf) :
    advance (helloUnlink config p) s =
      match s.storage.lookup p with
      | none => .done (some (-enoent)) s
      | some f => .waiting (.deleteMessage config f.messageIdStr)
          (fun r => afterDelete r >>= fun _ => pure 0) (s.withStorage (s.storage.without p)) := by
  unfold helloUnlink
  change advance (if (tgStorageRemoveByPath s.storage p).1.pathStr.length = 0 then _ else _)
    (s.withStorage (s.storage.without p)) = _
  cases hl : s.storage.lookup p with
  | none =>
      rw [without_of_lookup_none hl, removeByPath_of_lookup_none hl, zero_pathStr]
      rfl
  | some f =>
      obtain ⟨h1, -⟩ := removeByPath_of_lookup hwf.valid hl
      obtain ⟨hmem, -⟩ := lookup_some hl
      have hne : f.pathStr.length ≠ 0 := by
        have := (hwf.named f hmem).valid.ne_nil
        simpa using this
      have hpeek : (FilePtr.var f).peek (s.withStorage (s.storage.without p)) = some f := rfl
      rw [h1, if_neg hne]
      exact advance_bind_waiting (advance_tgRemoveMessageWithFile config hpeek)

/-- `hello_mkdir` is a single segment. -/
theorem advance_helloMkdir (hp : ValidPath p) :
    advance (helloMkdir heap p) s =
      match tgStoragePush heap.slots s.storage (newDir p) with
      | some st' => .done (some 0) (s.withStorage st')
      | none => .done none s := by
  unfold helloMkdir
  rw [show tgFileNewDir p = some (newDir p) from tgFileNewDir_of_valid hp,
    advance_liftOption_some_bind]
  unfold pushFile
  rw [bind_assoc, advance_getState_bind, bind_assoc]
  cases tgStoragePush heap.slots s.storage (newDir p) <;> rfl

/-- So is `hello_create`. -/
theorem advance_helloCreate (hp : ValidPath p) (hl : s.storage.lookup p = none) :
    advance (helloCreate heap p) s =
      match tgStoragePush heap.slots s.storage (newFile p 0) with
      | some st' => .done (some 0) (s.withStorage st')
      | none => .done none s := by
  unfold helloCreate
  rw [advance_findByPath_bind, lookup_eq_none_iff.mp hl]
  change advance (liftOption (tgFileNewFile p 0) >>= _) s = _
  rw [show tgFileNewFile p 0 = some (newFile p 0) from tgFileNewFile_of_valid hp 0,
    advance_liftOption_some_bind]
  unfold pushFile
  rw [bind_assoc, advance_getState_bind, bind_assoc]
  cases tgStoragePush heap.slots s.storage (newFile p 0) <;> rfl

end Handlers

end TgFuse

/-
  TgFuse.Spec.Served

  What the program and the channel do together when requests succeed.

  * `TgFile.sent` / `.edited` — the entry after an answer that carries its ids.
  * `Loaded.served` — a load brings the document that the file id stands for.
  * `ServedStep` — the joint changes of table and channel, call by call.
-/

import TgFuse.Effect.Ids

namespace TgFuse

open CString Interact KeyedList Overlay

-- ============================================================================
-- Ids in an entry
-- ============================================================================

section Ids

variable {f : TgFile} {fid mid : Id}

/-- The entry of a new message. -/
def TgFile.sent (f : TgFile) (fid mid : Id) : TgFile :=
  { f with fileId := .ofList fid, messageId := .ofList mid }

/-- The entry whose message has another document. -/
def TgFile.edited (f : TgFile) (fid : Id) : TgFile := { f with fileId := .ofList fid }

theorem fileIdStr_of_ofList (h : f.fileId = .ofList fid) (hfid : IsId fid) : f.fileIdStr = fid := by
  have hl := hfid.length_le
  rw [TgFile.fileIdStr, TgFile.fileIdMemory, h, CharArray.bytes_ofList_of_le (by
    unfold fieldSize
    omega), show fieldSize - fid.length = (99 - fid.length) + 1 by unfold fieldSize; omega,
    List.replicate_succ, List.append_assoc, List.cons_append]
  exact cstr_append_zero hfid.noNul _

theorem sent_fileIdStr (f : TgFile) (mid : Id) (hfid : IsId fid) :
    (f.sent fid mid).fileIdStr = fid := fileIdStr_of_ofList rfl hfid

theorem edited_fileIdStr (f : TgFile) (hfid : IsId fid) : (f.edited fid).fileIdStr = fid :=
  fileIdStr_of_ofList rfl hfid

theorem sent_messageIdStr (f : TgFile) (fid : Id) (hmid : IsId mid) :
    (f.sent fid mid).messageIdStr = mid := by
  have hl := hmid.length_le
  exact CharArray.str_ofList hmid.noNul (by unfold fieldSize; omega)

/-- The entry with another `file_size`. -/
def TgFile.withSize (f : TgFile) (n : Nat) : TgFile := { f with fileSize := n }

theorem withSize_fileIdStr (f : TgFile) (n : Nat) : (f.withSize n).fileIdStr = f.fileIdStr := rfl

theorem withSize_messageIdStr (f : TgFile) (n : Nat) :
    (f.withSize n).messageIdStr = f.messageIdStr := rfl

/-- An id stored in a blank array. -/
theorem setFileIdMemory_of_blank (hz : f.fileId = .zeros) (hfid : IsId fid) :
    f.setFileIdMemory (fid ++ f.fileIdMemory.drop fid.length) = f.edited fid := by
  have hl := hfid.length_le
  have hm : (f.setFileIdMemory (fid ++ f.fileIdMemory.drop fid.length)).messageId = f.messageId :=
    setFileIdMemory_messageId (by unfold fieldSize; omega)
  have hfile : (CharArray.ofList (fid ++ f.fileIdMemory.drop fid.length) : CharArray fieldSize)
      = .ofList fid := by
    ext1
    rw [CharArray.bytes_ofList, CharArray.bytes_ofList_of_le (by unfold fieldSize; omega),
      TgFile.fileIdMemory, hz, CharArray.bytes_zeros, List.drop_append_of_le_length (by
        rw [List.length_replicate]
        unfold fieldSize
        omega), List.drop_replicate, ← List.append_assoc]
    have hlen :
        (fid ++ List.replicate (fieldSize - fid.length) (0 : UInt8)).length = fieldSize := by
      rw [List.length_append, List.length_replicate]
      unfold fieldSize
      omega
    rw [List.take_left' hlen, List.length_append, hlen, Nat.sub_eq_zero_of_le (Nat.le_add_right ..),
      List.replicate_zero, List.append_nil]
  show { f with
    fileId := CharArray.ofList (fid ++ f.fileIdMemory.drop fid.length)
    messageId := (f.setFileIdMemory (fid ++ f.fileIdMemory.drop fid.length)).messageId } = _
  rw [hm, hfile, TgFile.edited]

variable {r : Response} {buf b : CharArray jsonResponseBufSize}

/-- An answer that carries the file id of an entry without one. -/
theorem parseFileId_of_carries (hz : f.fileId = .zeros) (hfid : IsId fid)
    (hcar : r.Carries (text "file_id") fid) (hr : receiveJson r buf = some b) :
    parseFileId f b.bytes = some (f.edited fid) := by
  have hl := hfid.length_le
  rw [parseFileId, hcar.of_receive hr _ (by rw [fileIdMemory_length]; omega), Option.map_some,
    setFileIdMemory_of_blank hz hfid]

/-- The entry of a document that has been sent. -/
theorem afterSend_of_ok (hz : f.fileId = .zeros) (hm : f.messageId = .zeros) (hok : r.Ok)
    (hfid : IsId fid) (hmid : IsId mid) (hcf : r.Carries (text "file_id") fid)
    (hcm : r.Carries (text "message_id") mid) (hr : receiveJson r buf = some b) :
    afterSend f b.bytes = some (f.sent fid mid) := by
  have hl := hmid.length_le
  have hstore : (f.edited fid).setMessageIdMemory
      (mid ++ (f.edited fid).messageId.bytes.drop mid.length) = f.sent fid mid := by
    have hmem : (CharArray.ofList (mid ++ f.messageId.bytes.drop mid.length) : CharArray fieldSize)
        = .ofList mid := by
      ext1
      rw [hm, CharArray.bytes_zeros, List.drop_replicate, CharArray.bytes_ofList_of_length (by
        rw [List.length_append, List.length_replicate]
        unfold fieldSize
        omega), CharArray.bytes_ofList_of_le (by unfold fieldSize; omega)]
    show { f.edited fid with
      messageId := CharArray.ofList (mid ++ f.messageId.bytes.drop mid.length) } = _
    rw [hmem]
    rfl
  rw [afterSend, hok.check_eq hr]
  simp only [Option.bind_eq_bind, Option.bind_some, if_true]
  rw [parseFileId_of_carries hz hfid hcf hr, Option.bind_some, parseMessageId,
    hcm.of_receive hr _ (by
      rw [(f.edited fid).messageId.length_bytes]
      unfold fieldSize
      omega), Option.map_some, hstore]

/-- The entry of a document that has been replaced. -/
theorem afterEdit_of_ok (hok : r.Ok) (hfid : IsId fid) (hcf : r.Carries (text "file_id") fid)
    (hr : receiveJson r buf = some b) : afterEdit f b.bytes = some (f.edited fid) := by
  rw [afterEdit, hok.check_eq hr]
  simp only [Option.bind_eq_bind, Option.bind_some, if_true]
  exact parseFileId_of_carries (f := { f with fileId := .zeros }) rfl hfid hcf hr

end Ids

-- ============================================================================
-- Loads
-- ============================================================================

/-- The channels differ at most in the file paths handed out. -/
structure Channel.Same (ch ch' : Channel) : Prop where
  messages : ch'.messages = ch.messages
  documents : ch'.documents = ch.documents
  issued : ch'.issued = ch.issued

theorem Channel.Same.refl (ch : Channel) : ch.Same ch := ⟨rfl, rfl, rfl⟩

theorem Channel.Same.post {ch ch' : Channel} (h : ch.Same ch') (mid fid : Id)
    (document : List UInt8) : (ch.post mid fid document).Same (ch'.post mid fid document) := by
  obtain ⟨hm, hd, hi⟩ := h
  exact ⟨by rw [post_messages, post_messages, hm], by rw [post_documents, post_documents, hd],
    by rw [post_issued, post_issued, hi]⟩

section Loads

variable {okMessage okFile : Channel → Id → Prop} {ch ch' : Channel} {config : TgConfig}
  {fill : Nat → UInt8} {fid : Id} {log : List (Request × Response)}
  {b : CharArray jsonResponseBufSize} {data : Buffer}

/-- A file path that is carried is read back as a string. -/
theorem filePath_of_carries {r : Response} {path : List UInt8} {buf : CharArray jsonResponseBufSize}
    (hid : IsId path) (hcar : r.Carries (text "file_path") path)
    (hr : receiveJson r buf = some b) :
    ∃ out, parseResponseFieldFromJson (List.replicate fieldSize 0) b.bytes (text "file_path")
      = some (0, out) ∧ cstr out = path := by
  have hl := hid.length_le
  refine ⟨_, hcar.of_receive hr _ (by rw [List.length_replicate]; unfold fieldSize; omega), ?_⟩
  rw [List.drop_replicate]
  exact cstr_append_replicate hid.noNul _

/-- A load whose requests succeed brings the document, and all of it. -/
theorem Loaded.served (h : Loaded fill config fid log b data)
    (hs : Serve (Serves okMessage okFile) ch log ch') :
    ch.Same ch' ∧ ch.documents fid = some data.contents := by
  obtain ⟨r, hr, ⟨hfail, rfl, rfl⟩ | ⟨-, -, out, r₂, hout, rfl, hd⟩⟩ := h
  · obtain ⟨d, hd, -⟩ := serve_cons.mp hs
    obtain ⟨-, -, -, -, -, hok, -⟩ := hd.of_getFile
    rcases hfail with hcode | hcheck
    · exact absurd hok.1 hcode
    · rw [hok.check_eq hr] at hcheck
      cases hcheck
  · obtain ⟨d, hd₁, hs⟩ := serve_cons.mp hs
    obtain ⟨e, hd₂, hs⟩ := serve_cons.mp hs
    rw [serve_nil] at hs
    subst hs
    obtain ⟨path, doc, hdoc, hid, -, -, hcar, rfl⟩ := hd₁.of_getFile
    obtain ⟨fid', doc', hfile, hdoc', -, hflat, rfl⟩ := hd₂.of_download
    obtain ⟨out', hout', hpath⟩ := filePath_of_carries hid hcar hr
    rw [hout] at hout'
    obtain rfl := Option.some.inj hout'
    rw [hpath] at hfile
    -- the path was handed out for this file id
    obtain rfl : fid = fid' := by simpa [Channel.locate] using hfile
    refine ⟨⟨rfl, rfl, rfl⟩, ?_⟩
    obtain ⟨-, hcont⟩ := foldlM_curlResponseFileWriter (bufferNew_valid fill) hd
    rw [hcont, bufferNew_contents, List.nil_append, hflat]
    exact hdoc'

/-- What becomes of a request for a file: it is located, or not. -/
theorem Answers.of_getFile {r : Response}
    (h : Answers okMessage okFile ch (.getFile config fid) r ch') :
    ch.Same ch' ∧ (r.Refused ∨ r.Lost ∨ ∃ path document, ch.documents fid = some document ∧
      IsId path ∧ r.Ok ∧ r.Carries (text "file_path") path ∧ ch'.files path = some fid) := by
  have hlocated : ∀ {r' : Response}, Serves okMessage okFile ch (.getFile config fid) r' ch' →
      ch.Same ch' ∧ ∃ path document, ch.documents fid = some document ∧ IsId path ∧ r'.Ok ∧
        r'.Carries (text "file_path") path ∧ ch'.files path = some fid := by
    intro r' hs
    obtain ⟨path, document, hdoc, hid, -, hok, hcar, rfl⟩ := hs.of_getFile
    exact ⟨⟨rfl, rfl, rfl⟩, path, document, hdoc, hid, hok, hcar, Function.update_self ..⟩
  rcases h with hs | hf
  · obtain ⟨hsame, hpath⟩ := hlocated hs
    exact ⟨hsame, Or.inr (Or.inr hpath)⟩
  · cases hf with
    | refused _ hr => exact ⟨Channel.Same.refl _, Or.inl hr⟩
    | lost _ hr => exact ⟨Channel.Same.refl _, Or.inr (Or.inl hr)⟩
    | lostAnswer _ hr hs => exact ⟨(hlocated hs).1, Or.inr (Or.inl hr)⟩

/-- A download delivers the document, or the start of it. -/
theorem Answers.of_download {path : List UInt8} {r : Response}
    (h : Answers okMessage okFile ch (.download config path) r ch') :
    ch' = ch ∧ ∃ fid document, ch.files path = some fid ∧ ch.documents fid = some document ∧
      r.chunks.flatten <+: document := by
  rcases h with hs | hf
  · obtain ⟨fid, document, hfile, hdoc, -, hflat, rfl⟩ := hs.of_download
    exact ⟨rfl, fid, document, hfile, hdoc, hflat ▸ List.prefix_rfl⟩
  · cases hf with
    | refused hq => exact absurd rfl (hq config path)
    | lost hq => exact absurd rfl (hq config path)
    | lostAnswer hq => exact absurd rfl (hq config path)
    | brokenOff hfile hdoc _ hpre => exact ⟨rfl, _, _, hfile, hdoc, hpre⟩

/-- A load brings the document or the start of it, whatever becomes of its requests. -/
theorem Loaded.answered (h : Loaded fill config fid log b data)
    (hs : Serve (Answers okMessage okFile) ch log ch') :
    ch.Same ch' ∧ data.contents <+: (ch.documents fid).getD [] := by
  obtain ⟨r, hr, ⟨hfail, rfl, rfl⟩ | ⟨hcode, hcheck, out, r₂, hout, rfl, hd⟩⟩ := h
  · obtain ⟨d, hd, hnil⟩ := serve_cons.mp hs
    rw [serve_nil] at hnil
    subst hnil
    exact ⟨hd.of_getFile.1, List.nil_prefix⟩
  · obtain ⟨d, hd₁, hs⟩ := serve_cons.mp hs
    obtain ⟨e, hd₂, hs⟩ := serve_cons.mp hs
    rw [serve_nil] at hs
    subst hs
    obtain ⟨hsame, hloc⟩ := hd₁.of_getFile
    obtain ⟨rfl, fid', doc', hfile, hdoc', hpre⟩ := hd₂.of_download
    refine ⟨hsame, ?_⟩
    rw [(foldlM_curlResponseFileWriter (bufferNew_valid fill) hd).2, bufferNew_contents,
      List.nil_append]
    rcases hloc with hr' | hr' | ⟨path, _, -, hid, -, hcar, hpath⟩
    · rw [hr'.check_eq hr] at hcheck
      cases hcheck
    · exact absurd hcode hr'.1
    · obtain ⟨out', hout', hstr⟩ := filePath_of_carries hid hcar hr
      rw [hout] at hout'
      obtain rfl := Option.some.inj hout'
      -- the path was handed out for this file id
      rw [hstr, hpath] at hfile
      obtain rfl := Option.some.inj hfile
      rw [hsame.documents] at hdoc'
      rw [hdoc']
      exact hpre

/-- A load completes, whatever becomes of its requests. -/
theorem exec_tgFileLoadContents_completes {s s' : Statics} (ptr : FilePtr) {f : TgFile}
    (h : ptr.peek s = some f) {o : Option Buffer}
    (he : Exec receive (tgFileLoadContents fill config ptr) s log o s')
    (hs : Serve (Answers okMessage okFile) ch log ch')
    (hroom : ∀ d, ch.documents f.fileIdStr = some d → d.length + 100 < 2 ^ 64) :
    ∃ data, o = some data := by
  have h0 : ptr.peek (s.withJson .zeros) = some f := by simpa using h
  unfold tgFileLoadContents at he
  simp only [exec_getState_bind, exec_setState_bind] at he
  change Exec receive _ (s.withJson .zeros) log o s' at he
  rw [exec_load_bind ptr h0, exec_exchange_bind] at he
  obtain ⟨r, rest, rfl, hcase⟩ := he
  obtain ⟨d, hd₁, hs⟩ := serve_cons.mp hs
  obtain ⟨hsame, hloc⟩ := hd₁.of_getFile
  have hget : ∀ c path, Request.getFile config f.fileIdStr ≠ .download c path :=
    fun c path => Request.noConfusion
  have hfits : ∃ b, receiveJson r (s.withJson .zeros).jsonResponseBuf = some b := by
    rcases hloc with hr | hr | ⟨path, _, -, -, hr, -⟩
    all_goals
      obtain ⟨b, hb, -⟩ := hr.2 (s.withJson .zeros).jsonResponseBuf
      exact ⟨b, hb⟩
  obtain ⟨b, hb⟩ := hfits
  obtain ⟨t, ht, hk⟩ := hcase.resolve_left fun hno => by
    rw [receive_json_none hget, hb] at hno
    cases hno.1
  obtain ⟨b', hb', rfl⟩ := (receive_json_some hget).mp ht
  rw [hb] at hb'
  cases hb'
  rcases hloc with hr | hr | ⟨path, doc, hdoc, hid, hr, hcar, hpath⟩
  · simp only [hr.1, ne_eq, not_true_eq_false, if_false, exec_getState_bind,
      Statics.withJson_json, hr.check_eq hb, exec_liftOption_some_bind, Bool.false_eq_true,
      not_false_eq_true, if_true, exec_pure] at hk
    exact ⟨_, hk.2.1⟩
  · simp only [if_pos hr.1, exec_pure] at hk
    exact ⟨_, hk.2.1⟩
  · obtain ⟨out, hout, hstr⟩ := filePath_of_carries hid hcar hb
    simp only [hr.1, ne_eq, not_true_eq_false, if_false, exec_getState_bind,
      Statics.withJson_json, hr.check_eq hb, hout, exec_liftOption_some_bind,
      exec_download_bind] at hk
    obtain ⟨r₂, rest', rfl, hk⟩ := hk
    obtain ⟨e, hd₂, -⟩ := serve_cons.mp hs
    obtain ⟨-, fid', doc', hfile, hdoc', hpre⟩ := hd₂.of_download
    rw [hstr, hpath] at hfile
    obtain rfl := Option.some.inj hfile
    rw [hsame.documents] at hdoc'
    have hlen := hroom doc' hdoc'
    have hle := hpre.length_le
    have hcap : (bufferNew fill).capacity + r₂.chunks.flatten.length < 2 ^ 64 := by
      show 100 + _ < _
      omega
    obtain ⟨data, hdata⟩ := foldlM_curlResponseFileWriter_some (bufferNew_valid fill) hcap
    rw [hdata] at hk
    exact ⟨data, hk.2.1⟩

end Loads

-- ============================================================================
-- Deletions
-- ============================================================================

/-- The message ids that are to be deleted. -/
def deletedIds (log : List (Request × Response)) : List Id :=
  log.filterMap fun e =>
    match e.1 with
    | .deleteMessage _ mid => some mid
    | _ => none

theorem deletedIds_deletes {config : TgConfig} {mids : List Id} {log : List (Request × Response)}
    (hq : log.map Prod.fst = mids.map (.deleteMessage config)) : deletedIds log = mids := by
  induction mids generalizing log with
  | nil =>
      obtain rfl := List.map_eq_nil_iff.mp hq
      rfl
  | cons mid mids ih =>
      obtain ⟨⟨q, r⟩, log, rfl, hq₁, hq₂⟩ := List.map_eq_cons_iff.mp hq
      obtain rfl : q = .deleteMessage config mid := hq₁
      exact congrArg (mid :: ·) (ih hq₂)

theorem deletedIds_append (l₁ l₂ : List (Request × Response)) :
    deletedIds (l₁ ++ l₂) = deletedIds l₁ ++ deletedIds l₂ := List.filterMap_append

theorem Loaded.deletedIds_eq {fill : Nat → UInt8} {config : TgConfig} {fid : Id}
    {log : List (Request × Response)} {b : CharArray jsonResponseBufSize} {data : Buffer}
    (h : Loaded fill config fid log b data) : deletedIds log = [] := by
  obtain ⟨r, -, ⟨-, rfl, -⟩ | ⟨-, -, out, r₂, -, rfl, -⟩⟩ := h
  · rfl
  · rfl

theorem WroteFile.deletedIds_eq {heap : Heap} {config : TgConfig} {s s' : Statics}
    {buf : List UInt8} {offset : Int} {i : Nat} {f f' : TgFile}
    {log loadLog : List (Request × Response)} {b₀ b : CharArray jsonResponseBufSize}
    {data data' : Buffer} {r : Response}
    (h : WroteFile heap config s buf offset i f log s' loadLog b₀ b data data' r f') :
    deletedIds log = [] := by
  have hload : deletedIds loadLog = [] := by
    have hob := h.obtained
    unfold Obtained at hob
    split at hob
    · exact hob.deletedIds_eq
    · rw [hob.1]
      rfl
  rw [h.log_eq, deletedIds_append, hload, putRequest]
  split <;> rfl

/-- The channel without these messages. -/
def Channel.removeAll (ch : Channel) (mids : List Id) : Channel :=
  { ch with messages := fun mid => if mid ∈ mids then none else ch.messages mid }

theorem Channel.removeAll_remove (ch : Channel) (mid : Id) (mids : List Id) :
    (ch.remove mid).removeAll mids = ch.removeAll (mid :: mids) := by
  unfold removeAll remove
  congr 1
  funext x
  by_cases hx : x = mid
  · simp [hx]
  · simp [hx, Function.update_of_ne]

theorem serve_deletes {okMessage okFile : Channel → Id → Prop} {ch ch' : Channel}
    {config : TgConfig} {mids : List Id} {log : List (Request × Response)}
    (hs : Serve (Serves okMessage okFile) ch log ch')
    (hq : log.map Prod.fst = mids.map (.deleteMessage config)) : ch' = ch.removeAll mids := by
  induction mids generalizing ch log with
  | nil =>
      obtain rfl := List.map_eq_nil_iff.mp hq
      rw [serve_nil.mp hs]
      simp [Channel.removeAll]
  | cons mid mids ih =>
      obtain ⟨⟨q, r⟩, log, rfl, hq₁, hq₂⟩ := List.map_eq_cons_iff.mp hq
      obtain ⟨d, hd, hs⟩ := serve_cons.mp hs
      rw [show q = _ from hq₁] at hd
      obtain ⟨-, rfl⟩ := hd.of_deleteMessage
      rw [ih hs hq₂, Channel.removeAll_remove]

-- ============================================================================
-- Steps
-- ============================================================================

/-- The calls that libfuse makes: it creates what is not there, and writes to files
    that are. -/
def KernelCall (st : TgStorage) : Call → Prop
  | .create p | .mkdir p => st.lookup p = none
  | .write p _ _ => ∃ f, st.lookup p = some f ∧ f.type = .tgFile
  | _ => True

instance (st : TgStorage) (call : Call) : Decidable (KernelCall st call) :=
  match call with
  | .create p | .mkdir p => inferInstanceAs (Decidable (st.lookup p = none))
  | .write p _ _ => inferInstanceAs (Decidable (∃ f ∈ st.lookup p, f.type = .tgFile))
  | .getattr _ | .rmdir _ | .readdir _ | .open _ | .read .. | .unlink _ | .setxattr _
  | .utimens _ => .isTrue trivial

/-- The calls that only look. -/
def Call.isQuery : Call → Bool
  | .create _ | .mkdir _ | .write .. | .unlink _ | .rmdir _ => false
  | _ => true

/-- An entry without a file id has no message id either. -/
def TgFile.Blank (f : TgFile) : Prop :=
  f.fileIdStr = [] → f.fileId = .zeros ∧ f.messageId = .zeros

/-- A document is uploaded for an entry. -/
inductive Uploaded (okMessage okFile : Channel → Id → Prop) (ch : Channel) (f : TgFile)
    (document : List UInt8) : TgFile → Channel → Prop
  | sent {mid fid : Id} :
      f.fileIdStr = [] → IsId mid → IsId fid → okMessage ch mid → okFile ch fid →
      Uploaded okMessage okFile ch f document (f.sent fid mid) (ch.post mid fid document)
  | edited {fid : Id} :
      f.fileIdStr ≠ [] → IsId fid → okFile ch fid →
      Uploaded okMessage okFile ch f document (f.edited fid) (ch.edit f.messageIdStr fid document)

theorem Uploaded.entry {okMessage okFile : Channel → Id → Prop} {ch ch' : Channel} {f g : TgFile}
    {document : List UInt8} (h : Uploaded okMessage okFile ch f document g ch') :
    g.path = f.path ∧ g.type = f.type ∧ IsId g.fileIdStr := by
  cases h with
  | sent _ hmid hfid => exact ⟨rfl, rfl, (sent_fileIdStr f _ hfid).symm ▸ hfid⟩
  | edited _ hfid => exact ⟨rfl, rfl, (edited_fileIdStr f hfid).symm ▸ hfid⟩

/-- What a call does when its requests succeed, with the messages it deletes. -/
inductive ServedStep (okMessage okFile : Channel → Id → Prop) (st : TgStorage) (ch : Channel) :
    Call → Int → List Id → TgStorage → Channel → Prop
  | query {call : Call} {ret : Int} {ch' : Channel} :
      call.isQuery = true → ch.Same ch' → ServedStep okMessage okFile st ch call ret [] st ch'
  | create {p : List UInt8} {st' : TgStorage} :
      st.lookup p = none → st'.live = st.live ++ [newFile p 0] →
      ServedStep okMessage okFile st ch (.create p) 0 [] st' ch
  | mkdir {p : List UInt8} {st' : TgStorage} :
      st.lookup p = none → st'.live = st.live ++ [newDir p] →
      ServedStep okMessage okFile st ch (.mkdir p) 0 [] st' ch
  | write {p buf old new : List UInt8} {offset : Int} {i : Nat} {f g : TgFile}
      {ch₁ ch' : Channel} :
      tgStorageFindByPath st p = some i → st.live[i]? = some f → f.type = .tgFile →
      (if f.fileSize > 0 then ch.documents f.fileIdStr = some old else old = []) →
      IsOverlay old (sizeOfOff offset) buf new → ch.Same ch₁ →
      Uploaded okMessage okFile ch₁ f new g ch' →
      ServedStep okMessage okFile st ch (.write p buf offset) (cint buf.length) []
        (st.setSlot i (g.withSize new.length)) ch'
  | unlinkMissing {p : List UInt8} :
      st.lookup p = none → ServedStep okMessage okFile st ch (.unlink p) (-enoent) [] st ch
  | unlink {p : List UInt8} {f : TgFile} :
      st.lookup p = some f →
      ServedStep okMessage okFile st ch (.unlink p) 0 [f.messageIdStr] (st.without p)
        (ch.removeAll [f.messageIdStr])
  | rmdirOther {p : List UInt8} :
      (∀ f, st.lookup p = some f → f.type = .tgFile) →
      ServedStep okMessage okFile st ch (.rmdir p) (-enotdir) [] st ch
  | rmdir {p : List UInt8} {f : TgFile} {mids : List Id} :
      st.lookup p = some f → f.type = .tgDir →
      mids = (((rmdirVisited p st).map Prod.fst).filter fun f => f.fileSize > 0).map
        TgFile.messageIdStr →
      ServedStep okMessage okFile st ch (.rmdir p) 0 mids (rmdirTable p st) (ch.removeAll mids)

section Steps

variable {okMessage okFile : Channel → Id → Prop} {config : TgConfig} {s : Statics}
  {ch ch' : Channel} {heap : Heap} {p buf : List UInt8} {offset : Int}
  {log : List (Request × Response)} {s' : Statics}

/-- The upload of a write whose requests succeed. -/
theorem uploaded_of_serve {f f' : TgFile} {caption filename document : List UInt8} {r : Response}
    {b₀ b : CharArray jsonResponseBufSize} (hblank : f.Blank)
    (hb : receiveJson r b₀ = some b) (hafter : afterPut f r b.bytes = some f')
    (hs : Serve (Serves okMessage okFile) ch
      [(putRequest config f caption filename document, r)] ch') :
    Uploaded okMessage okFile ch f document f' ch' := by
  obtain ⟨d, hd, hnil⟩ := serve_cons.mp hs
  rw [serve_nil] at hnil
  subst hnil
  unfold putRequest at hd
  unfold afterPut at hafter
  by_cases hid : f.fileIdStr.length = 0
  · rw [if_pos hid] at hd hafter
    obtain ⟨mid, fid, hmid, hfid, hm, hf, hok, hcm, hcf, rfl⟩ := hd.of_sendDocument
    have hnil := List.eq_nil_of_length_eq_zero hid
    obtain ⟨hz, hmz⟩ := hblank hnil
    rw [afterSend_of_ok hz hmz hok hfid hmid hcf hcm hb] at hafter
    cases hafter
    exact .sent hnil hmid hfid hm hf
  · rw [if_neg hid] at hd hafter
    obtain ⟨fid, hfid, hf, hok, hcf, rfl⟩ := hd.of_editMessageMedia
    rw [if_neg (fun h => h hok.1), afterEdit_of_ok hok hfid hcf hb] at hafter
    cases hafter
    exact .edited (fun h => hid (by rw [h]; rfl)) hfid hf

/-- A write of an existing file whose requests succeed. -/
theorem WroteFile.served {i : Nat} {f f' : TgFile} {loadLog : List (Request × Response)}
    {b₀ b : CharArray jsonResponseBufSize} {data data' : Buffer} {r : Response}
    (hw : WroteFile heap config s buf offset i f log s' loadLog b₀ b data data' r f')
    (hi : tgStorageFindByPath s.storage p = some i) (hf : s.storage.live[i]? = some f)
    (hfile : f.type = .tgFile) (hblank : f.Blank)
    (hs : Serve (Serves okMessage okFile) ch log ch') :
    ServedStep okMessage okFile s.storage ch (.write p buf offset) (cint buf.length)
      (deletedIds log) s'.storage ch' := by
  have hdel := hw.deletedIds_eq
  rw [hw.log_eq, serve_append] at hs
  obtain ⟨ch₁, hload, hput⟩ := hs
  obtain ⟨hvalid, hsize, hover⟩ := bufferInsert_spec hw.obtained.valid hw.inserted
  have hold : ch.Same ch₁ ∧
      if f.fileSize > 0 then ch.documents f.fileIdStr = some data.contents
      else data.contents = [] := by
    have hob := hw.obtained
    unfold Obtained at hob
    split at hob
    · next hpos =>
      rw [if_pos hpos]
      exact hob.served hload
    · next hzero =>
      obtain ⟨hlog, -, rfl⟩ := hob
      rw [hlog, serve_nil] at hload
      rw [if_neg hzero, hload]
      exact ⟨Channel.Same.refl _, bufferNew_contents _⟩
  have hup := uploaded_of_serve hblank hw.received hw.after hput
  have hentry : written f' data' = f'.withSize data'.contents.length := by
    rw [written, TgFile.withSize, hvalid.length_contents]
  rw [hw.state_eq, hdel]
  show ServedStep _ _ _ _ _ _ _ (s.storage.setSlot i (written f' data')) _
  rw [hentry]
  exact .write hi hf hfile hold.2 hover hold.1 hup

variable {w w' : World} {ev : Event}

/-- A call without requests leaves the channel alone. -/
theorem serve_eq_of_nil {log : List (Request × Response)} (hlog : log = [])
    (hs : Serve (Serves okMessage okFile) ch log ch') : ch' = ch := by
  rw [hlog, serve_nil] at hs
  exact hs

/-- Every call that libfuse makes and that is served is one of these steps. -/
theorem step_served (hwf : w.statics.storage.Wf) (hblank : ∀ f ∈ w.statics.storage.live, f.Blank)
    (hp : ValidPath ev.call.path) (hk : KernelCall w.statics.storage ev.call)
    (h : WorldStep (Serves okMessage okFile) config w ev w') :
    ServedStep okMessage okFile w.statics.storage w.channel ev.call ev.reply.ret
      (deletedIds ev.log) w'.statics.storage w'.channel := by
  obtain ⟨⟨heap, h⟩, hs⟩ := h
  obtain ⟨call, log, reply⟩ := ev
  have hquery : call.isQuery = true → log = [] → w'.statics = w.statics →
      ServedStep okMessage okFile w.statics.storage w.channel call reply.ret
        (deletedIds log) w'.statics.storage w'.channel := by
    intro hq hlog hst
    rw [hst, hlog]
    refine .query hq ?_
    rw [serve_eq_of_nil hlog hs]
    exact Channel.Same.refl _
  cases call with
  | getattr p =>
      obtain ⟨a, ha, -⟩ := exec_reply.mp h
      obtain ⟨hlog, -, hst⟩ := exec_helloGetattr.mp ha
      exact hquery rfl hlog hst
  | readdir p =>
      obtain ⟨a, ha, -⟩ := exec_reply.mp h
      obtain ⟨hlog, hst, -⟩ := (exec_helloReaddir hwf).mp ha
      exact hquery rfl hlog hst
  | «open» p =>
      obtain ⟨a, ha, -⟩ := exec_reply.mp h
      obtain ⟨hlog, -, hst⟩ := exec_helloOpen.mp ha
      exact hquery rfl hlog hst
  | setxattr p =>
      obtain ⟨a, ⟨hlog, -, hst⟩, -⟩ := exec_reply.mp h
      exact hquery rfl hlog hst
  | utimens p =>
      obtain ⟨a, ⟨hlog, -, hst⟩, -⟩ := exec_reply.mp h
      exact hquery rfl hlog hst
  | read p size offset =>
      obtain ⟨a, ha, -⟩ := exec_reply.mp h
      rcases exec_helloRead.mp ha with ⟨-, hlog, -, hst⟩ | ⟨f, -, -, hlog, -, hst⟩ |
        ⟨f, b, src, -, -, hload, hst, -⟩
      · exact hquery rfl hlog hst
      · exact hquery rfl hlog hst
      · have hsame := (hload.served hs).1
        show ServedStep _ _ _ _ _ _ (deletedIds log) _ _
        rw [hst, hload.deletedIds_eq]
        exact .query rfl hsame
  | create p =>
      obtain ⟨a, ha, rfl⟩ := exec_reply.mp h
      have hnone : w.statics.storage.lookup p = none := hk
      obtain ⟨hlog, ⟨f, hl, -⟩ | ⟨-, st', hst, rfl, hs'⟩⟩ := (exec_helloCreate (p := p) hp).mp ha
      · rw [hnone] at hl
        cases hl
      · rw [serve_eq_of_nil hlog hs, hs', hlog]
        exact .create hnone (hwf.push ((newFile_hasPath p 0).named hp) hst).2
  | mkdir p =>
      obtain ⟨a, ha, rfl⟩ := exec_reply.mp h
      obtain ⟨hlog, st', hst, rfl, hs'⟩ := (exec_helloMkdir (p := p) hp).mp ha
      rw [serve_eq_of_nil hlog hs, hs', hlog]
      exact .mkdir hk (hwf.push ((newDir_hasPath p).named hp) hst).2
  | write p buf offset =>
      obtain ⟨a, ha, rfl⟩ := exec_reply.mp h
      obtain ⟨f₀, hl₀, hf₀⟩ := hk
      rcases (exec_helloWrite (p := p) hwf hp).mp ha with ⟨hl, -⟩ | ⟨f, hl, hd, -⟩ |
        ⟨i, f, hi, hf, hfile, hres, _, _, b, _, data', r, f', hw⟩
      · rw [hl₀] at hl
        cases hl
      · rw [hl₀] at hl
        cases hl
        rw [hf₀] at hd
        cases hd
      · rw [show Reply.ret (.status a) = a from rfl, hres]
        exact hw.served hi hf hfile (hblank f (List.mem_of_getElem? hf)) hs
  | unlink p =>
      obtain ⟨a, ha, rfl⟩ := exec_reply.mp h
      rcases (exec_helloUnlink hwf).mp ha with ⟨hl, hlog, rfl, hs'⟩ |
        ⟨f, r, b, hl, hlog, -, -, rfl, hs'⟩
      · rw [serve_eq_of_nil hlog hs, hs', hlog]
        exact .unlinkMissing hl
      · have hq : log.map Prod.fst = [f.messageIdStr].map (.deleteMessage config) := by
          rw [show log = _ from hlog]
          rfl
        show ServedStep _ _ _ _ _ _ (deletedIds log) _ _
        rw [hs', serve_deletes hs hq, deletedIds_deletes hq]
        exact .unlink hl
  | rmdir p =>
      obtain ⟨a, ha, rfl⟩ := exec_reply.mp h
      rcases (exec_helloRmdir hwf).mp ha with ⟨hno, hlog, rfl, hs'⟩ | ⟨f, b, hl, hd, hdel, rfl, hs'⟩
      · rw [serve_eq_of_nil hlog hs, hs', hlog]
        exact .rmdirOther hno
      · have hq := hdel.requests.trans
          (List.map_map (f := TgFile.messageIdStr) (g := Request.deleteMessage config)).symm
        have hmids := deletedIds_deletes hq
        rw [hs', serve_deletes hs hq, ← hmids]
        exact .rmdir hl hd hmids

variable {st st' : TgStorage} {call : Call} {ret : Int} {mids : List Id}

/-- Entries are blank or have a file id. -/
theorem ServedStep.blank (hwf : st.Wf) (hblank : ∀ f ∈ st.live, f.Blank)
    (h : ServedStep okMessage okFile st ch call ret mids st' ch') : ∀ f ∈ st'.live, f.Blank := by
  have happ : ∀ {g : TgFile}, st'.live = st.live ++ [g] → g.fileId = .zeros →
      g.messageId = .zeros → ∀ f ∈ st'.live, f.Blank := by
    intro g hlive hg hm f hf
    rw [hlive, List.mem_append, List.mem_singleton] at hf
    rcases hf with hf | rfl
    · exact hblank f hf
    · exact fun _ => ⟨hg, hm⟩
  cases h with
  | query | unlinkMissing | rmdirOther => exact hblank
  | create _ hlive => exact happ hlive rfl rfl
  | mkdir _ hlive => exact happ hlive rfl rfl
  | write _ _ _ _ _ _ hup =>
      intro g hg
      rw [setSlot_live] at hg
      rcases List.mem_or_eq_of_mem_set hg with hg | rfl
      · exact hblank g hg
      · exact fun hnil => absurd hnil hup.entry.2.2.ne_nil
  | unlink _ => exact fun g hg => hblank g (mem_without hwf.valid hg)
  | rmdir _ _ _ => exact fun g hg => hblank g (mem_rmdirTable hwf hg)

/-- Paths stay distinct. -/
theorem ServedStep.distinct (hwf : st.Wf) (hd : Distinct TgFile.pathStr st.live)
    (hp : ValidPath call.path) (h : ServedStep okMessage okFile st ch call ret mids st' ch') :
    Distinct TgFile.pathStr st'.live := by
  cases h with
  | query | unlinkMissing | rmdirOther => exact hd
  | create hl hlive =>
      rw [hlive]
      exact hd.append_singleton (not_mem_of_lookup_none hl (newFile_pathStr hp 0))
  | mkdir hl hlive =>
      rw [hlive]
      exact hd.append_singleton (not_mem_of_lookup_none hl (newDir_pathStr hp))
  | @write _ _ _ new _ _ f g _ _ _ hf _ _ _ _ hup =>
      rw [setSlot_live]
      have hnamed := hwf.named f (List.mem_of_getElem? hf)
      exact hd.set hf (hnamed.congr (g := g.withSize new.length) hup.entry.1).2
  | unlink _ => exact distinct_without hwf.valid hd
  | rmdir _ _ _ => exact distinct_rmdirTable hwf hd

end Steps

end TgFuse

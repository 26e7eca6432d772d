/-
  TgFuse.Spec.Atomicity

  A write whose requests may fail: when it is done or undone.

  `hello_write` returns `size` and assigns `file_size` whatever becomes of its
  requests.  What it uploads is laid over what has arrived of the document, and
  where the upload is not taken the document stays what it was.
-/

import TgFuse.Effect.Ids
import TgFuse.Spec.Answers
import TgFuse.Spec.Served

namespace TgFuse

open CString Interact KeyedList Lts Overlay

-- ============================================================================
-- The property
-- ============================================================================

/-- The document that the entry refers to; nothing if there is none. -/
def contentsOf (ch : Channel) (f : TgFile) : List UInt8 := (ch.documents f.fileIdStr).getD []

/-- Either `size` is returned and the document is the old one with the data laid over it,
    or an error is and nothing has changed. -/
def DoneOrUndone (ch ch' : Channel) (s s' : Statics) (p buf : List UInt8) (offset : Int)
    (o : Option Int) : Prop :=
  ∃ f g ret, s.storage.lookup p = some f ∧ s'.storage.lookup p = some g ∧ o = some ret ∧
    (ret = cint buf.length → 0 ≤ offset ∧ g.fileSize = (contentsOf ch' g).length ∧
      IsOverlay (contentsOf ch f) offset.toNat buf (contentsOf ch' g)) ∧
    (ret ≠ cint buf.length → ret < 0 ∧ g.fileIdStr = f.fileIdStr ∧
      g.messageIdStr = f.messageIdStr ∧ g.fileSize = f.fileSize ∧
      contentsOf ch' g = contentsOf ch f)

/-- The upload is answered, what has arrived of the document reaches its end or the
    data, and the memory in between happens to hold the rest. -/
def Taken (heap : Heap) (old got : List UInt8) (pos size : Nat) (r : Response) : Prop :=
  r.Ok ∧ old.length ≤ max got.length (pos + size) ∧
    ∀ i, got.length ≤ i → i < old.length → i < pos → old[i]? = some (heap.bytes i)

/-- The upload is turned down, the data stood there before, and `file_size` comes out
    right. -/
def Declined (f : TgFile) (old got buf : List UInt8) (pos : Nat) (r : Response)
    (b : List UInt8) : Prop :=
  (r.Refused ∨ (r.Lost ∧ f.fileIdStr = [] ∧ checkOkStatusInJson b = some false)) ∧
    old.length = max got.length (pos + buf.length) ∧ (old.drop pos).take buf.length = buf

/-- The documents of the channel are known by ids. -/
def Channel.KnowsIds (ch : Channel) : Prop := ∀ fid d, ch.documents fid = some d → IsId fid

/-- A document has been received under this file id. -/
def Channel.Received (ch ch' : Channel) (fid : Id) : Prop :=
  ∃ mid document, (ch.post mid fid document).Same ch'

/-- A first upload is lost, but the buffer says ok, be it of what has arrived or of an earlier
    request.  The file id that it shows is the one under which the upload has been received
    all the same, or that of an older document that would have come out; or there is nothing
    to write, and it shows no document that is not empty. -/
structure Mistaken (ch ch' : Channel) (f : TgFile) (buf : List UInt8) (pos : Nat) (r : Response)
    (b : List UInt8) : Prop where
  lost : r.Lost
  first : f.fileIdStr = []
  ok : checkOkStatusInJson b = some true
  fileId : (parseFileId f b).isSome
  messageId : (parseMessageId f b).isSome
  document : (∃ fid, ShowsFileId b fid ∧ ch.Received ch' fid) ∨
    (∃ fid d, ShowsFileId b fid ∧ ch.documents fid = some d ∧ IsOverlay [] pos buf d) ∨
    (pos + buf.length = 0 ∧ ∀ fid d, ShowsFileId b fid → ch.documents fid = some d → d = [])

/-- The outcomes that leave a write done. -/
def LeavesDone (heap : Heap) (ch ch' : Channel) (s : Statics) (f : TgFile) (buf : List UInt8)
    (offset : Int) (log : List (Request × Response)) : Prop :=
  0 ≤ offset ∧ ∃ q r b, log.getLast? = some (q, r) ∧ jsonAfter s.jsonResponseBuf log = some b ∧
    (Taken heap (contentsOf ch f) (received log) offset.toNat buf.length r ∨
      Declined f (contentsOf ch f) (received log) buf offset.toNat r b.bytes ∨
      Mistaken ch ch' f buf offset.toNat r b.bytes)

-- ============================================================================
-- hello_write
-- ============================================================================

section Writes

variable {config : TgConfig} {heap : Heap} {s s' : Statics} {ch ch' : Channel} {f g : TgFile}
  {p buf : List UInt8} {offset : Int} {log : List (Request × Response)} {o : Option Int}
  {okMessage okFile : Channel → Id → Prop}

/-- A write of a file, however its requests are answered: a load, and an upload whose
    answer is taken in or ends the program. -/
structure Wrote (heap : Heap) (config : TgConfig) (s : Statics) (f : TgFile) (p buf : List UInt8)
    (offset : Int) (log : List (Request × Response)) (o : Option Int) (s' : Statics) (i : Nat)
    (loadLog : List (Request × Response)) (b₀ b : CharArray jsonResponseBufSize)
    (data data' : Buffer) (r : Response) : Prop where
  found : tgStorageFindByPath s.storage p = some i
  obtained : Obtained heap config f s.jsonResponseBuf loadLog b₀ data
  inserted : bufferInsert heap.bytes data (sizeOfOff offset) buf = some data'
  log_eq : log = loadLog ++
    [(putRequest config f (dirOf f.pathStr) (baseOf f.pathStr) data'.contents, r)]
  received : receiveJson r b₀ = some b
  ends : (afterPut f r b.bytes = none ∧ o = none) ∨
    ∃ f', afterPut f r b.bytes = some f' ∧ o = some (cint buf.length) ∧
      s'.storage = s.storage.setSlot i (written f' data')

/-- A write that ends the program has made its requests all the same. -/
theorem exec_helloWrite_crash (hwf : s.storage.Wf) (hl : s.storage.lookup p = some f)
    (hfile : f.type = .tgFile)
    (hroom : ∀ d, ch.documents f.fileIdStr = some d → d.length + 100 < 2 ^ 64)
    (hend : sizeOfOff offset + buf.length < 2 ^ 64)
    (he : Exec receive (helloWrite heap config p buf offset) s log none s')
    (hs : Serve (Answers okMessage okFile) ch log ch') :
    ∃ i loadLog b₀ b data data' r,
      Wrote heap config s f p buf offset log none s' i loadLog b₀ b data data' r := by
  obtain ⟨i, hi, hlive, hfiles⟩ := findByPath_of_lookup hl
  have hnamed := hwf.named f (List.mem_of_getElem? hlive)
  have hpath : f.pathStr = p := (lookup_some hl).2
  have hcrash := he
  unfold helloWrite at he
  rw [exec_findByPath_bind, hi] at he
  change Exec receive ((FilePtr.slot i).load >>= _) s log none s' at he
  rw [exec_slot_load_bind hfiles, if_neg (by rw [hfile]; exact TgFileType.noConfusion)] at he
  -- the load completes, whatever becomes of it
  obtain ⟨loadLog, b₀, data, rest, rfl, hob, hk⟩ : ∃ loadLog b₀ data rest, log = loadLog ++ rest ∧
      Obtained heap config f s.jsonResponseBuf loadLog b₀ data ∧
      Exec receive (writeData heap config (.slot i) data buf offset) (s.withJson b₀) rest none
        s' := by
    unfold Obtained
    split at he
    · next hpos =>
      simp only [if_pos hpos]
      rcases (exec_bind receive).mp he with ⟨data, t, l₁, l₂, rfl, hload, hk⟩ | ⟨-, hload⟩
      · obtain ⟨b₀, hl₀, rfl⟩ := (exec_tgFileLoadContents (.slot i) hfiles).mp hload
        exact ⟨l₁, b₀, data, l₂, rfl, hl₀, hk⟩
      · obtain ⟨data, hdata⟩ :=
          exec_tgFileLoadContents_completes (.slot i) hfiles hload hs hroom
        cases hdata
    · next hzero =>
      simp only [if_neg hzero]
      exact ⟨[], s.jsonResponseBuf, bufferNew heap.bytes, log, rfl, ⟨rfl, rfl, rfl⟩, he⟩
  obtain ⟨data', hins⟩ :
      ∃ data', bufferInsert heap.bytes data (sizeOfOff offset) buf = some data' :=
    bufferInsert_some hob.valid hend
  have hpeek : (FilePtr.slot i).peek (s.withJson b₀) = some f := by
    rw [FilePtr.peek_withJson]
    exact hfiles
  obtain ⟨r, rfl⟩ := exec_writeData_log (.slot i) hpeek hnamed.hasPath hnamed.valid hins hk
  obtain ⟨ch₁, -, hd⟩ := serve_snoc.mp hs
  obtain ⟨b, hb⟩ := (hd.outcome (putRequest_json _ _ _ _ _)).received b₀
  refine ⟨i, loadLog, b₀, b, data, data', r, hi, hob, hins, rfl, hb, Or.inl ⟨?_, rfl⟩⟩
  -- if the answer were taken in, the write would have completed
  cases hafter : afterPut f r b.bytes with
  | none => rfl
  | some f' =>
      have hcompletes := (exec_helloWrite hwf (hpath ▸ hnamed.valid)).mpr (Or.inr (Or.inr ⟨i, f, hi,
        hlive, hfile, rfl, loadLog, b₀, b, data, data', r, f', hob, hins, rfl, hb, hafter, rfl⟩))
      cases (exec_unique receive hcrash hcompletes).1

theorem exec_helloWrite_answered (hwf : s.storage.Wf) (hl : s.storage.lookup p = some f)
    (hfile : f.type = .tgFile)
    (hroom : ∀ d, ch.documents f.fileIdStr = some d → d.length + 100 < 2 ^ 64)
    (hend : sizeOfOff offset + buf.length < 2 ^ 64)
    (he : Exec receive (helloWrite heap config p buf offset) s log o s')
    (hs : Serve (Answers okMessage okFile) ch log ch') :
    ∃ i loadLog b₀ b data data' r,
      Wrote heap config s f p buf offset log o s' i loadLog b₀ b data data' r := by
  cases o with
  | none => exact exec_helloWrite_crash hwf hl hfile hroom hend he hs
  | some ret =>
      obtain ⟨j, hj, hjlive, -⟩ := findByPath_of_lookup hl
      have hnamed := hwf.named f (List.mem_of_getElem? hjlive)
      have hp : ValidPath p := (lookup_some hl).2 ▸ hnamed.valid
      rcases (exec_helloWrite hwf hp).mp he with ⟨hl', -⟩ | ⟨g, hl', hd, -⟩ |
        ⟨i, g, hi, hlive, -, hres, loadLog, b₀, b, data, data', r, f', hw⟩
      · rw [hl] at hl'
        cases hl'
      · rw [hl] at hl'
        cases hl'
        rw [hfile] at hd
        cases hd
      · rw [hj] at hi
        cases hi
        rw [hjlive] at hlive
        cases hlive
        exact ⟨j, loadLog, b₀, b, data, data', r, hj, hw.obtained, hw.inserted, hw.log_eq,
          hw.received, Or.inr ⟨f', hw.after, congrArg some hres, by rw [hw.state_eq]; rfl⟩⟩

/-- A load brings the document or the start of it, or there is none to bring. -/
theorem Obtained.answered {b₀ b : CharArray jsonResponseBufSize} {data : Buffer}
    (h : Obtained heap config f b₀ log b data) (hs : Serve (Answers okMessage okFile) ch log ch') :
    ch.Same ch' ∧ data.contents <+: contentsOf ch f := by
  unfold Obtained at h
  split at h
  · exact h.answered hs
  · obtain ⟨rfl, -, rfl⟩ := h
    rw [serve_nil] at hs
    rw [hs, bufferNew_contents]
    exact ⟨Channel.Same.refl _, List.nil_prefix⟩

/-- An upload that succeeds is taken in: the entry refers to what has been uploaded. -/
theorem afterPut_of_ok {caption filename document : List UInt8} {r : Response}
    {b₀ b : CharArray jsonResponseBufSize} (hclean : f.Clean) (hok : r.Ok)
    (hb : receiveJson r b₀ = some b)
    (hs : Answers okMessage okFile ch (putRequest config f caption filename document) r ch') :
    ∃ g, afterPut f r b.bytes = some g ∧ contentsOf ch' g = document := by
  have hserves :
      Serves okMessage okFile ch (putRequest config f caption filename document) r ch' := by
    rcases hs with hs | hf
    · exact hs
    · rcases hf.refused_or_lost (putRequest_json _ _ _ _ _) with hr | hr
      · exact absurd hr hok.not_refused
      · exact absurd hok.1 hr.1
  unfold putRequest at hserves
  unfold afterPut
  by_cases hid : f.fileIdStr.length = 0
  · rw [if_pos hid] at hserves ⊢
    obtain ⟨mid, fid, hmid, hfid, -, -, -, hcm, hcf, rfl⟩ := hserves.of_sendDocument
    have hz := hclean (List.eq_nil_of_length_eq_zero hid)
    have hlen := hmid.length_le
    refine ⟨(f.edited fid).setMessageIdMemory
      (mid ++ (f.edited fid).messageId.bytes.drop mid.length), ?_, ?_⟩
    · rw [afterSend, hok.check_eq hb]
      simp only [Option.bind_eq_bind, Option.bind_some, if_true]
      rw [parseFileId_of_carries hz hfid hcf hb, Option.bind_some, parseMessageId,
        hcm.of_receive hb _ (by
          rw [(f.edited fid).messageId.length_bytes]
          unfold fieldSize
          omega), Option.map_some]
    · have hstr : ∀ mem, ((f.edited fid).setMessageIdMemory mem).fileIdStr = fid :=
        fun mem => fileIdStr_of_ofList rfl hfid
      rw [contentsOf, hstr, Channel.post_documents, Function.update_self]
      rfl
  · rw [if_neg hid] at hserves ⊢
    obtain ⟨fid, hfid, -, -, hcf, rfl⟩ := hserves.of_editMessageMedia
    refine ⟨f.edited fid, ?_, ?_⟩
    · rw [if_neg (fun h => h hok.1)]
      exact afterEdit_of_ok hok hfid hcf hb
    · rw [contentsOf, edited_fileIdStr f hfid, Channel.edit_documents, Function.update_self]
      rfl

/-- A first upload that does not succeed has been received or has not. -/
theorem channel_of_not_ok {caption filename document : List UInt8} {r : Response}
    (hno : ¬ r.Ok) (hnil : f.fileIdStr = [])
    (hs : Answers okMessage okFile ch (putRequest config f caption filename document) r ch') :
    ch' = ch ∨ ∃ mid fid, IsId fid ∧ ch' = ch.post mid fid document := by
  rcases hs with hs | hf
  · exact absurd (hs.ok (putRequest_json _ _ _ _ _)) hno
  · refine hf.channel_eq_or.imp_right ?_
    rintro ⟨-, r', hs⟩
    rw [putRequest, if_pos (by rw [hnil]; rfl)] at hs
    obtain ⟨mid, fid, -, hid, -, -, -, -, -, rfl⟩ := hs.of_sendDocument
    exact ⟨mid, fid, hid, rfl⟩

/-- An upload that does not succeed leaves the document of its entry alone. -/
theorem contentsOf_of_not_ok {caption filename document : List UInt8} {r : Response}
    (hno : ¬ r.Ok) (hfid : r.Refused ∨ f.fileIdStr = [])
    (hs : Answers okMessage okFile ch (putRequest config f caption filename document) r ch') :
    contentsOf ch' f = contentsOf ch f := by
  by_cases hnil : f.fileIdStr = []
  · rcases channel_of_not_ok hno hnil hs with rfl | ⟨mid, fid, hid, rfl⟩
    · rfl
    · -- the document was posted under an id of its own, which is not empty
      rw [contentsOf, contentsOf, hnil, Channel.post_documents,
        Function.update_of_ne hid.ne_nil.symm]
  · rcases hs with hs | hf
    · exact absurd (hs.ok (putRequest_json _ _ _ _ _)) hno
    · rcases hf.channel_eq_or with rfl | ⟨hlost, -⟩
      · rfl
      · exact absurd (hfid.resolve_right hnil).1 hlost.1

end Writes

-- ============================================================================
-- Done or undone
-- ============================================================================

section Outcomes

variable {config : TgConfig} {heap : Heap} {s s' : Statics} {ch ch₁ ch' : Channel} {f f' : TgFile}
  {p buf : List UInt8} {offset : Int} {log loadLog : List (Request × Response)} {o : Option Int}
  {okMessage okFile : Channel → Id → Prop} {i : Nat} {data data' : Buffer} {r : Response}
  {b₀ b : CharArray jsonResponseBufSize}

/-- A write that completes always returns `size`, so it has to be done. -/
theorem doneOrUndone_iff (hwf : s.storage.Wf) (hl : s.storage.lookup p = some f)
    (hw : Wrote heap config s f p buf offset log o s' i loadLog b₀ b data data' r)
    (hafter : afterPut f r b.bytes = some f') :
    DoneOrUndone ch ch' s s' p buf offset o ↔ 0 ≤ offset ∧
      data'.size = (contentsOf ch' f').length ∧
      IsOverlay (contentsOf ch f) offset.toNat buf (contentsOf ch' f') := by
  have hcompletes : o = some (cint buf.length) ∧
      s'.storage = s.storage.setSlot i (written f' data') := by
    rcases hw.ends with ⟨hnone, -⟩ | ⟨f'', hsome, ho, hst⟩
    · rw [hafter] at hnone
      cases hnone
    · rw [hafter] at hsome
      cases hsome
      exact ⟨ho, hst⟩
  obtain ⟨hfm, hpath⟩ := lookup_some hl
  have hg : s'.storage.lookup p = some (written f' data') := by
    rw [hcompletes.2]
    refine lookup_setSlot hw.found ?_
    rw [(written_named data' (hwf.named f hfm) hafter).2.1, hpath]
  constructor
  · rintro ⟨f₀, g₀, ret, hf₀, hg₀, ho, hdone, -⟩
    rw [hl] at hf₀
    cases hf₀
    rw [hg] at hg₀
    cases hg₀
    exact hdone (Option.some.inj (ho.symm.trans hcompletes.1))
  · intro hdone
    refine ⟨f, written f' data', cint buf.length, hl, hg, hcompletes.1, fun _ => hdone, ?_⟩
    exact fun hne => absurd rfl hne

/-- A write that ends the program is neither done nor undone. -/
theorem not_doneOrUndone
    (hw : Wrote heap config s f p buf offset log o s' i loadLog b₀ b data data' r)
    (hafter : afterPut f r b.bytes = none) : ¬ DoneOrUndone ch ch' s s' p buf offset o := by
  rintro ⟨_, _, ret, -, -, ho, -⟩
  rcases hw.ends with ⟨-, hnone⟩ | ⟨f', hsome, -⟩
  · rw [hnone] at ho
    cases ho
  · rw [hafter] at hsome
    cases hsome

/-- The outcome is read off the answer to the upload. -/
theorem leavesDone_iff
    (hw : Wrote heap config s f p buf offset log o s' i loadLog b₀ b data data' r) :
    LeavesDone heap ch ch' s f buf offset log ↔ 0 ≤ offset ∧
      (Taken heap (contentsOf ch f) (received log) offset.toNat buf.length r ∨
        Declined f (contentsOf ch f) (received log) buf offset.toNat r b.bytes ∨
        Mistaken ch ch' f buf offset.toNat r b.bytes) := by
  have hlast : log.getLast? = some
      (putRequest config f (dirOf f.pathStr) (baseOf f.pathStr) data'.contents, r) := by
    rw [hw.log_eq, List.getLast?_append, List.getLast?_singleton, Option.some_or]
  have hjson : jsonAfter s.jsonResponseBuf log = some b := by
    rw [hw.log_eq]
    exact hw.obtained.jsonAfter_upload hw.received ..
  refine and_congr_right fun _ => ⟨?_, fun h => ⟨_, r, b, hlast, hjson, h⟩⟩
  rintro ⟨q, r', b', hlast', hjson', h⟩
  rw [hlast] at hlast'
  cases hlast'
  rw [hjson] at hjson'
  cases hjson'
  exact h

/-- What has been loaded is what has been received, and the upload adds nothing to that. -/
theorem Wrote.received_eq
    (hw : Wrote heap config s f p buf offset log o s' i loadLog b₀ b data data' r) :
    data.contents = TgFuse.received log := by
  rw [hw.log_eq, hw.obtained.contents_eq.1, TgFuse.received, TgFuse.received, List.flatMap_append,
    putRequest]
  split <;> simp

/-- Behind what has been received the upload holds what the memory held. -/
theorem Wrote.gap_eq
    (hw : Wrote heap config s f p buf offset log o s' i loadLog b₀ b data data' r)
    (h0 : 0 ≤ offset) (hoff : offset < 2 ^ 63) {j : Nat} (hj : data.contents.length ≤ j)
    (hpos : j < offset.toNat) : data'.contents[j]? = some (heap.bytes j) := by
  have hins := hw.inserted
  rw [sizeOfOff_of_nonneg h0 hoff] at hins
  rw [hw.obtained.valid.length_contents] at hj
  rw [bufferInsert_gap hw.obtained.valid hins hpos, hw.obtained.contents_eq.2 j hj]

/-- An upload that succeeds. -/
theorem doneOrUndone_of_ok (hwf : s.storage.Wf) (hl : s.storage.lookup p = some f) (h0 : 0 ≤ offset)
    (hoff : offset < 2 ^ 63)
    (hw : Wrote heap config s f p buf offset log o s' i loadLog b₀ b data data' r) (hok : r.Ok)
    (hafter : afterPut f r b.bytes = some f') (hdoc : contentsOf ch' f' = data'.contents)
    (hpre : data.contents <+: contentsOf ch f) :
    DoneOrUndone ch ch' s s' p buf offset o ↔
      Taken heap (contentsOf ch f) data.contents offset.toNat buf.length r := by
  obtain ⟨hvalid, -, hover⟩ := bufferInsert_spec hw.obtained.valid hw.inserted
  rw [sizeOfOff_of_nonneg h0 hoff] at hover
  rw [doneOrUndone_iff hwf hl hw hafter, hdoc, hover.extends_iff hpre, hvalid.length_contents]
  constructor
  · rintro ⟨-, -, hlen, hgap⟩
    refine ⟨hok, hlen, fun j hj hold hpos => ?_⟩
    rw [← hw.gap_eq h0 hoff hj hpos, hgap j hj hold hpos]
  · rintro ⟨-, hlen, hgap⟩
    refine ⟨h0, rfl, hlen, fun j hj hold hpos => ?_⟩
    rw [hw.gap_eq h0 hoff hj hpos, hgap j hj hold hpos]

/-- An upload that changes neither the entry nor its document. -/
theorem doneOrUndone_of_kept (hwf : s.storage.Wf) (hl : s.storage.lookup p = some f)
    (h0 : 0 ≤ offset) (hoff : offset < 2 ^ 63)
    (hw : Wrote heap config s f p buf offset log o s' i loadLog b₀ b data data' r)
    (hafter : afterPut f r b.bytes = some f) (hdoc : contentsOf ch' f = contentsOf ch f) :
    DoneOrUndone ch ch' s s' p buf offset o ↔
      (contentsOf ch f).length = max data.contents.length (offset.toNat + buf.length) ∧
        ((contentsOf ch f).drop offset.toNat).take buf.length = buf := by
  obtain ⟨-, hsize, -⟩ := bufferInsert_spec hw.obtained.valid hw.inserted
  rw [sizeOfOff_of_nonneg h0 hoff, ← hw.obtained.valid.length_contents] at hsize
  rw [doneOrUndone_iff hwf hl hw hafter, hdoc, hsize, isOverlay_self_iff]
  constructor
  · rintro ⟨-, hlen, -, hdata⟩
    exact ⟨hlen.symm, hdata⟩
  · rintro ⟨hlen, hdata⟩
    exact ⟨h0, hlen.symm, by omega, hdata⟩

/-- After an upload that may have been received, a file id either is the one it was received
    under, or stands for what it stood for. -/
theorem received_or_kept {P : List UInt8 → Prop}
    (hch : ch.Same ch' ∨
      ∃ mid fid document, IsId fid ∧ P document ∧ (ch.post mid fid document).Same ch') (w : Id) :
    (ch.Received ch' w ∧ IsId w ∧ ∃ d, ch'.documents w = some d ∧ P d) ∨
      (¬ ch.Received ch' w ∧ ch'.documents w = ch.documents w) := by
  rcases hch with hsame | ⟨mid, fid, document, hid, hP, hpost⟩
  · refine Or.inr ⟨?_, congrFun hsame.documents w⟩
    rintro ⟨mid, document, hpost⟩
    have hissued := hpost.issued.symm.trans hsame.issued
    rw [Channel.post_issued] at hissued
    exact List.cons_ne_self _ _ hissued
  · by_cases hw : w = fid
    · subst hw
      refine Or.inl ⟨⟨mid, document, hpost⟩, hid, document, ?_, hP⟩
      rw [hpost.documents, Channel.post_documents, Function.update_self]
    · refine Or.inr ⟨?_, ?_⟩
      · -- the message that was posted has one file id only
        rintro ⟨mid', document', hpost'⟩
        have hissued := hpost'.issued.symm.trans hpost.issued
        rw [Channel.post_issued, Channel.post_issued] at hissued
        obtain ⟨rfl, -⟩ := List.cons.inj hissued
        have hmessage := congrFun (hpost'.messages.symm.trans hpost.messages) mid'
        rw [Channel.post_messages, Channel.post_messages, Function.update_self,
          Function.update_self] at hmessage
        exact hw (Posted.mk.inj (Option.some.inj hmessage)).1
      · rw [hpost.documents, Channel.post_documents, Function.update_of_ne hw]

/-- What the entry refers to, if the buffer gives it its file id, is laid out as written exactly
    in the cases of `Mistaken`. -/
theorem isOverlay_shown_iff {pos : Nat} {shown : Id} {buffer : List UInt8} (hids : ch.KnowsIds)
    (hch : ch.Same ch' ∨ ∃ mid fid document, IsId fid ∧ IsOverlay [] pos buf document ∧
      (ch.post mid fid document).Same ch')
    (hshown : ∀ w, IsId w → (ShowsFileId buffer w ↔ shown = w)) :
    IsOverlay [] pos buf ((ch'.documents shown).getD []) ↔
      (∃ fid, ShowsFileId buffer fid ∧ ch.Received ch' fid) ∨
      (∃ fid d, ShowsFileId buffer fid ∧ ch.documents fid = some d ∧ IsOverlay [] pos buf d) ∨
      (pos + buf.length = 0 ∧
        ∀ fid d, ShowsFileId buffer fid → ch.documents fid = some d → d = []) := by
  have hold : ∀ fid d, ShowsFileId buffer fid → ch.documents fid = some d → shown = fid :=
    fun fid d hs hd => (hshown fid (hids fid d hd)).mp hs
  rcases received_or_kept hch shown with ⟨hrec, hid, d, hd, hover⟩ | ⟨hnot, hkept⟩
  · rw [hd]
    exact iff_of_true hover (Or.inl ⟨shown, (hshown shown hid).mpr rfl, hrec⟩)
  · have hnone : ¬ ∃ fid, ShowsFileId buffer fid ∧ ch.Received ch' fid := by
      rintro ⟨fid, hs, hrec⟩
      rcases received_or_kept hch fid with ⟨-, hid, -⟩ | ⟨hno, -⟩
      · exact hnot ((hshown fid hid).mp hs ▸ hrec)
      · exact hno hrec
    have hempty : IsOverlay [] pos buf [] ↔ pos + buf.length = 0 := by
      rw [isOverlay_self_iff, List.length_nil, Nat.le_zero]
      refine and_iff_left_of_imp fun h => ?_
      rw [List.drop_nil, List.take_nil, List.eq_nil_of_length_eq_zero (by omega : buf.length = 0)]
    rw [hkept, or_iff_right hnone]
    cases hd : ch.documents shown with
    | none =>
        rw [Option.getD_none, hempty, or_iff_right]
        · refine (and_iff_left fun fid d hs hdoc => ?_).symm
          rw [← hold fid d hs hdoc, hd] at hdoc
          cases hdoc
        · rintro ⟨fid, d, hs, hdoc, -⟩
          rw [← hold fid d hs hdoc, hd] at hdoc
          cases hdoc
    | some d =>
        have hs := (hshown shown (hids shown d hd)).mpr rfl
        rw [Option.getD_some]
        constructor
        · exact fun h => Or.inl ⟨shown, d, hs, hd, h⟩
        · rintro (⟨fid, d', hs', hdoc, hover⟩ | ⟨hzero, hall⟩)
          · rw [← hold fid d' hs' hdoc, hd] at hdoc
            cases hdoc
            exact hover
          · rw [hall shown d hs hd]
            exact hempty.mpr hzero

/-- A first upload that is lost while the buffer says ok. -/
theorem doneOrUndone_of_mistaken (hwf : s.storage.Wf) (hl : s.storage.lookup p = some f)
    (hclean : f.Clean) (hids : ch.KnowsIds) (h0 : 0 ≤ offset) (hoff : offset < 2 ^ 63)
    (hw : Wrote heap config s f p buf offset log o s' i loadLog b₀ b data data' r)
    (hpre : data.contents <+: contentsOf ch f)
    (hch : ch.Same ch' ∨
      ∃ mid fid, IsId fid ∧ (ch.post mid fid data'.contents).Same ch')
    (hlost : r.Lost) (hid : f.fileIdStr = []) (hcheck : checkOkStatusInJson b.bytes = some true) :
    DoneOrUndone ch ch' s s' p buf offset o ↔ Mistaken ch ch' f buf offset.toNat r b.bytes := by
  have hold : contentsOf ch f = [] := by
    rw [contentsOf, hid]
    cases hdoc : ch.documents [] with
    | none => rfl
    | some d => exact absurd rfl (hids [] d hdoc).ne_nil
  obtain ⟨-, hsize, hover⟩ := bufferInsert_spec hw.obtained.valid hw.inserted
  have hgot : data.contents = [] := List.prefix_nil.mp (hold ▸ hpre)
  rw [sizeOfOff_of_nonneg h0 hoff] at hsize hover
  rw [← hw.obtained.valid.length_contents, hgot] at hsize
  rw [hgot] at hover
  have hbuf : b.bytes.length < 2 ^ 64 := by
    rw [b.length_bytes]
    decide
  have hparse : afterPut f r b.bytes
      = (parseFileId f b.bytes).bind fun f₁ => parseMessageId f₁ b.bytes := by
    rw [afterPut, if_pos (by rw [hid]; rfl), afterSend, hcheck]
    rfl
  have hroom : ∀ f₁, (parseMessageId f₁ b.bytes).isSome = (parseMessageId f b.bytes).isSome := by
    intro f₁
    rw [parseMessageId, parseMessageId, Option.isSome_map, Option.isSome_map]
    exact parse_isSome_congr (f₁.messageId.length_bytes.trans f.messageId.length_bytes.symm)
  cases hafter : afterPut f r b.bytes with
  | none =>
      refine iff_of_false (not_doneOrUndone hw hafter) fun h => ?_
      obtain ⟨f₁, hf₁⟩ := Option.isSome_iff_exists.mp h.fileId
      rw [hparse, hf₁, Option.bind_some] at hafter
      have hsome := (hroom f₁).trans h.messageId
      rw [hafter] at hsome
      cases hsome
  | some g =>
      obtain ⟨f₁, hf₁, hg⟩ := Option.bind_eq_some_iff.mp (hparse.symm.trans hafter)
      have hfields : (parseFileId f b.bytes).isSome ∧ (parseMessageId f b.bytes).isSome := by
        rw [← hroom f₁, hf₁, hg]
        exact ⟨rfl, rfl⟩
      have hgid : g.fileId = f₁.fileId := by
        obtain ⟨mem, rfl⟩ := parseMessageId_inv hg
        rfl
      have hshown : ∀ w, IsId w → (ShowsFileId b.bytes w ↔ g.fileIdStr = w) := by
        intro w hw
        have hlt : w.length < fieldSize := by
          have := hw.length_le
          unfold fieldSize
          omega
        rw [showsFileId_iff (hclean hid) hbuf hf₁ hw.ne_nil hlt, ← fileId_holds_iff hlt, hgid]
      have hch' : ch.Same ch' ∨ ∃ mid fid document, IsId fid ∧
          IsOverlay [] offset.toNat buf document ∧ (ch.post mid fid document).Same ch' := by
        rcases hch with hsame | ⟨mid, fid, hfid, hpost⟩
        · exact Or.inl hsame
        · exact Or.inr ⟨mid, fid, _, hfid, hover, hpost⟩
      have hiff := isOverlay_shown_iff hids hch' hshown
      rw [doneOrUndone_iff hwf hl hw hafter, hold]
      constructor
      · rintro ⟨-, -, hdone⟩
        exact ⟨hlost, hid, hcheck, hfields.1, hfields.2, hiff.mp hdone⟩
      · intro h
        have hdone := hiff.mpr h.document
        exact ⟨h0, hsize.trans hdone.length_eq.symm, hdone⟩

/-- An upload that is lost: an edit ends the program, and for a first upload the buffer
    decides. -/
theorem doneOrUndone_of_lost (hwf : s.storage.Wf) (hl : s.storage.lookup p = some f)
    (hclean : f.Clean) (hids : ch.KnowsIds) (h0 : 0 ≤ offset) (hoff : offset < 2 ^ 63)
    (hw : Wrote heap config s f p buf offset log o s' i loadLog b₀ b data data' r)
    (hpre : data.contents <+: contentsOf ch f)
    (hch : f.fileIdStr = [] → ch.Same ch' ∨
      ∃ mid fid, IsId fid ∧ (ch.post mid fid data'.contents).Same ch')
    (hlost : r.Lost) (hdoc : f.fileIdStr = [] → contentsOf ch' f = contentsOf ch f) :
    DoneOrUndone ch ch' s s' p buf offset o ↔
      (f.fileIdStr = [] ∧ checkOkStatusInJson b.bytes = some false ∧
        (contentsOf ch f).length = max data.contents.length (offset.toNat + buf.length) ∧
        ((contentsOf ch f).drop offset.toNat).take buf.length = buf) ∨
      Mistaken ch ch' f buf offset.toNat r b.bytes := by
  by_cases hid : f.fileIdStr = []
  · have hput : afterPut f r b.bytes = afterSend f b.bytes := if_pos (by rw [hid]; rfl)
    cases hcheck : checkOkStatusInJson b.bytes with
    | none =>
        have hafter : afterPut f r b.bytes = none := by
          rw [hput, afterSend, hcheck]
          rfl
        refine iff_of_false (not_doneOrUndone hw hafter) ?_
        rintro (⟨-, h, -⟩ | h)
        · cases h
        · exact absurd (hcheck.symm.trans h.ok) (by decide)
    | some ok =>
        cases ok with
        | false =>
            have hafter : afterPut f r b.bytes = some f := by
              rw [hput, afterSend, hcheck]
              rfl
            rw [doneOrUndone_of_kept hwf hl h0 hoff hw hafter (hdoc hid)]
            constructor
            · exact fun h => Or.inl ⟨hid, rfl, h⟩
            · rintro (⟨-, -, h⟩ | h)
              · exact h
              · exact absurd (hcheck.symm.trans h.ok) (by decide)
        | true =>
            rw [doneOrUndone_of_mistaken hwf hl hclean hids h0 hoff hw hpre (hch hid) hlost hid
              hcheck]
            constructor
            · exact Or.inr
            · rintro (⟨-, h, -⟩ | h)
              · cases h
              · exact h
  · have hafter : afterPut f r b.bytes = none := by
      rw [afterPut, if_neg fun h => hid (List.eq_nil_of_length_eq_zero h), if_pos hlost.1]
    refine iff_of_false (not_doneOrUndone hw hafter) ?_
    rintro (⟨h, -⟩ | h)
    · exact hid h
    · exact hid h.first

/-- A done or undone write, by the answer to its upload. -/
theorem Wrote.doneOrUndone_iff (hwf : s.storage.Wf) (hclean : f.Clean) (hids : ch.KnowsIds)
    (hl : s.storage.lookup p = some f) (h0 : 0 ≤ offset) (hoff : offset < 2 ^ 63)
    (hw : Wrote heap config s f p buf offset log o s' i loadLog b₀ b data data' r)
    (hs : Serve (Answers okMessage okFile) ch log ch') :
    DoneOrUndone ch ch' s s' p buf offset o ↔
      (Taken heap (contentsOf ch f) data.contents offset.toNat buf.length r ∨
        Declined f (contentsOf ch f) data.contents buf offset.toNat r b.bytes ∨
        Mistaken ch ch' f buf offset.toNat r b.bytes) := by
  rw [hw.log_eq, serve_snoc] at hs
  obtain ⟨ch₁, hload, hd⟩ := hs
  obtain ⟨hsame, hpre⟩ := hw.obtained.answered hload
  have hold : contentsOf ch₁ f = contentsOf ch f := by
    rw [contentsOf, contentsOf, hsame.documents]
  rcases hd.outcome (putRequest_json _ _ _ _ _) with hok | hr | hlost
  · obtain ⟨g, hafter, hdoc⟩ := afterPut_of_ok hclean hok hw.received hd
    rw [doneOrUndone_of_ok hwf hl h0 hoff hw hok hafter hdoc hpre]
    constructor
    · exact Or.inl
    · rintro (h | ⟨hr | ⟨hlost, -⟩, -⟩ | h)
      · exact h
      · exact absurd hr hok.not_refused
      · exact absurd hok.1 hlost.1
      · exact absurd hok.1 h.lost.1
  · have hafter : afterPut f r b.bytes = some f := by
      have hcode : ¬ r.code ≠ curleOk := fun h => h hr.1
      unfold afterPut afterSend afterEdit
      rw [hr.check_eq hw.received, if_neg hcode]
      split <;> rfl
    have hdoc := (contentsOf_of_not_ok (fun h => h.not_refused hr) (Or.inl hr) hd).trans hold
    rw [doneOrUndone_of_kept hwf hl h0 hoff hw hafter hdoc]
    constructor
    · exact fun h => Or.inr (Or.inl ⟨Or.inl hr, h⟩)
    · rintro (⟨hok, -⟩ | ⟨-, h⟩ | h)
      · exact absurd hr hok.not_refused
      · exact h
      · exact absurd hr.1 h.lost.1
  · have hno : ¬ r.Ok := fun h => hlost.1 h.1
    have hch : f.fileIdStr = [] → ch.Same ch' ∨
        ∃ mid fid, IsId fid ∧ (ch.post mid fid data'.contents).Same ch' := fun hid => by
      rcases channel_of_not_ok hno hid hd with rfl | ⟨mid, fid, hfid, rfl⟩
      · exact Or.inl hsame
      · exact Or.inr ⟨mid, fid, hfid, hsame.post mid fid _⟩
    rw [doneOrUndone_of_lost hwf hl hclean hids h0 hoff hw hpre hch hlost fun hid =>
      hold ▸ contentsOf_of_not_ok hno (Or.inr hid) hd]
    constructor
    · rintro (⟨hid, hcheck, h⟩ | h)
      · exact Or.inr (Or.inl ⟨Or.inr ⟨hlost, hid, hcheck⟩, h⟩)
      · exact Or.inr (Or.inr h)
    · rintro (⟨hok, -⟩ | ⟨hr | ⟨-, hid, hcheck⟩, h⟩ | h)
      · exact absurd hok.1 hlost.1
      · exact absurd hr.1 hlost.1
      · exact Or.inl ⟨hid, hcheck, h⟩
      · exact Or.inr h

/-- In every reachable state a write of a file is done or undone exactly if its requests
    come out so. -/
theorem write_atomic_iff {s₀ : Statics} {evs : List Event} (h0 : Initial s₀)
    (hrun : Run (PathStep config) s₀ evs s) (hl : s.storage.lookup p = some f)
    (hfile : f.type = .tgFile) (hids : ch.KnowsIds)
    (hdocs : ∀ fid d, ch.documents fid = some d → d.length < 2 ^ 63)
    (hbuf : buf.length < 2 ^ 63) (hoff : offset < 2 ^ 63)
    (he : Exec receive (helloWrite heap config p buf offset) s log o s')
    (hs : Serve (Answers okMessage okFile) ch log ch') :
    DoneOrUndone ch ch' s s' p buf offset o ↔ LeavesDone heap ch ch' s f buf offset log := by
  have hwf := (reachable_wf h0 hrun).1
  obtain ⟨hfm, hpath⟩ := lookup_some hl
  by_cases hneg : 0 ≤ offset
  · have hend : sizeOfOff offset + buf.length < 2 ^ 64 := by
      rw [sizeOfOff_of_nonneg hneg hoff]
      omega
    have hroom : ∀ d, ch.documents f.fileIdStr = some d → d.length + 100 < 2 ^ 64 := by
      intro d hd
      have := hdocs _ _ hd
      omega
    obtain ⟨i, loadLog, b₀, b, data, data', r, hw⟩ :=
      exec_helloWrite_answered hwf hl hfile hroom hend he hs
    rw [hw.doneOrUndone_iff hwf (reachable_clean h0 hrun f hfm) hids hl hneg hoff hs,
      leavesDone_iff hw, ← hw.received_eq]
    exact (and_iff_right hneg).symm
  · -- the program returns `size` here as well
    refine iff_of_false ?_ fun h => hneg h.1
    rintro ⟨f₀, g, ret, hf₀, -, rfl, hdone, -⟩
    have hp : ValidPath p := hpath ▸ (hwf.named f hfm).valid
    refine hneg (hdone ?_).1
    rcases (exec_helloWrite hwf hp).mp he with ⟨-, hres, -⟩ | ⟨g, hl', hd, -⟩ |
      ⟨-, -, -, -, -, hres, -⟩
    · exact hres
    · rw [hl] at hl'
      cases hl'
      rw [hfile] at hd
      cases hd
    · exact hres

end Outcomes

/-- A byte is appended to `/a`, and the edit is answered with `r`. -/
def sampleAppend (r : Response) (s : Statics) : Outcome Statics Request Response Int :=
  run receive (helloWrite zeroHeap blankConfig (text "/a") (text "y") 1) s
    fun n => [locatedAnswer (text "p"), .whole (text "x"), r].getD n lostAnswer

/-- The exchanges of the write. -/
def sampleExchanges (r : Response) : List (Request × Response) :=
  [(.getFile blankConfig (text "AAA"), locatedAnswer (text "p")),
    (.download blankConfig (text "p"), .whole (text "x")),
    (.editMessageMedia blankConfig (text "17") (text "/") (text "a") (text "xy"), r)]

/-- The document of `/a`, and where it is found. -/
def sampleStored : Channel := Channel.empty.post (text "17") (text "AAA") (text "x")
def sampleLocated : Channel := sampleStored.locate (text "p") (text "AAA")

/-- The exchanges are possible, whether the edit succeeds or not. -/
theorem sampleExchanges_answered {r : Response} {ch : Channel}
    (h : ∀ q, q = .editMessageMedia blankConfig (text "17") (text "/") (text "a") (text "xy") →
      Answers Channel.AnyId Channel.AnyId sampleLocated q r ch) :
    Serve (Answers Channel.AnyId Channel.AnyId) sampleStored (sampleExchanges r) ch := by
  have hdoc : sampleStored.documents (text "AAA") = some (text "x") := by
    rw [sampleStored, Channel.post_documents, Function.update_self]
  exact serve_cons.mpr ⟨_, Or.inl (serves_located (by decide +kernel) hdoc (Or.inl rfl)),
    serve_cons.mpr ⟨_, Or.inl (serves_downloaded hdoc), serve_cons.mpr ⟨_, h _ rfl,
      serve_nil.mpr rfl⟩⟩⟩

theorem sampleExchanges_refused :
    Serve (Answers Channel.AnyId Channel.AnyId) sampleStored (sampleExchanges refusedAnswer)
      sampleLocated := by
  refine sampleExchanges_answered fun q hq => Or.inr (.refused ?_ refusedAnswer_refused)
  rw [hq]
  exact fun _ _ => Request.noConfusion

/-- The write of a second byte, whose edit succeeds or is refused. -/
theorem sampleAppend_exec :
    ∃ s₀ evs s f t u, Initial s₀ ∧ Run (PathStep blankConfig) s₀ evs s ∧
      s.storage.lookup (text "/a") = some f ∧ f.type = .tgFile ∧ f.fileIdStr = text "AAA" ∧
      Exec receive (helloWrite zeroHeap blankConfig (text "/a") (text "y") 1) s
        (sampleExchanges (editedAnswer (text "BBB"))) (some 1) t ∧
      Exec receive (helloWrite zeroHeap blankConfig (text "/a") (text "y") 1) s
        (sampleExchanges refusedAnswer) (some 1) u ∧
      ∃ g, u.storage.lookup (text "/a") = some g ∧ g.fileSize = 2 ∧ g.fileIdStr = text "AAA" := by
  obtain ⟨s₀, evs, s, h0, ⟨⟨f, hl, hfile, hfid⟩, hres, hlog, hres', hlog', hg⟩, hrun⟩ :=
    pathRun_of_runFromMain
    [(.create (text "/a"), []),
      (.write (text "/a") (text "x") 0, [sentAnswer (text "17") (text "AAA")])]
    (fun _ s => (∃ f ∈ s.storage.lookup (text "/a"), f.type = .tgFile ∧ f.fileIdStr = text "AAA") ∧
      (sampleAppend (editedAnswer (text "BBB")) s).result = some 1 ∧
      (sampleAppend (editedAnswer (text "BBB")) s).log
        = sampleExchanges (editedAnswer (text "BBB")) ∧
      (sampleAppend refusedAnswer s).result = some 1 ∧
      (sampleAppend refusedAnswer s).log = sampleExchanges refusedAnswer ∧
      ∃ g ∈ (sampleAppend refusedAnswer s).state.storage.lookup (text "/a"),
        g.fileSize = 2 ∧ g.fileIdStr = text "AAA")
    (by decide +kernel)
  have he := exec_of_result receive hres hlog
  have he' := exec_of_result receive hres' hlog'
  exact ⟨s₀, evs, s, f, _, _, h0, hrun, hl, hfile, hfid, he, he', hg⟩

theorem sampleStored_ids : sampleStored.KnowsIds := by
  intro fid d h
  rw [sampleStored, Channel.post_documents] at h
  by_cases hid : fid = text "AAA"
  · rw [hid]
    decide
  · rw [Function.update_of_ne hid] at h
    cases h

theorem sampleStored_docs (fid : Id) (d : List UInt8) (h : sampleStored.documents fid = some d) :
    d.length < 2 ^ 63 := by
  rw [sampleStored, Channel.post_documents] at h
  by_cases hid : fid = text "AAA"
  · rw [hid, Function.update_self] at h
    cases h
    decide
  · rw [Function.update_of_ne hid] at h
    cases h

theorem contentsOf_sample {f : TgFile} (h : f.fileIdStr = text "AAA") :
    contentsOf sampleStored f = text "x" := by
  rw [contentsOf, h, sampleStored, Channel.post_documents, Function.update_self]
  rfl

/-- Appended with an answer, the byte is there; appended without, it is not. -/
theorem write_atomic_iff_sample :
    ∃ s t u ch', DoneOrUndone sampleStored ch' s t (text "/a") (text "y") 1 (some 1) ∧
      ¬ DoneOrUndone sampleStored sampleLocated s u (text "/a") (text "y") 1 (some 1) := by
  obtain ⟨s₀, evs, s, f, t, u, h0, hrun, hl, hfile, hfid, he, he', -⟩ := sampleAppend_exec
  have hold := contentsOf_sample hfid
  have hserved : Serve (Answers Channel.AnyId Channel.AnyId) sampleStored
      (sampleExchanges (editedAnswer (text "BBB")))
      (sampleLocated.edit (text "17") (text "BBB") (text "xy")) :=
    sampleExchanges_answered fun q hq => hq ▸ Or.inl (serves_edited (by decide) trivial)
  refine ⟨s, t, u, sampleLocated.edit (text "17") (text "BBB") (text "xy"), ?_, ?_⟩
  · apply (write_atomic_iff h0 hrun hl hfile sampleStored_ids sampleStored_docs (by decide)
      (by decide) he hserved).mpr
    have hok := (editedAnswer_carries (show Plain (text "BBB") by decide) (by decide)).1
    obtain ⟨b, hb⟩ : ∃ b, jsonAfter .zeros (sampleExchanges (editedAnswer (text "BBB"))) = some b :=
      Option.isSome_iff_exists.mp (by decide +kernel)
    refine ⟨by decide, _, _, b, rfl, hb, Or.inl ⟨hok, ?_, ?_⟩⟩
    · rw [hold]
      decide
    · rw [hold]
      intro i hi hlt
      exact absurd hlt (Nat.not_lt.mpr hi)
  · intro h
    obtain ⟨-, q, r, b, hlast, -, hcase⟩ := (write_atomic_iff h0 hrun hl hfile sampleStored_ids
      sampleStored_docs (by decide) (by decide) he' sampleExchanges_refused).mp h
    obtain rfl : refusedAnswer = r := (Prod.mk.inj (Option.some.inj hlast)).2
    rw [hold] at hcase
    rcases hcase with ⟨hok, -⟩ | ⟨-, hlen, -⟩ | hmistaken
    · exact hok.not_refused refusedAnswer_refused
    · exact absurd hlen (by decide)
    · exact hmistaken.lost.1 refusedAnswer_refused.1

/-- A refused edit returns `size` and changes `file_size`. -/
theorem refused_edit_changes_size :
    ¬ ∀ (config : TgConfig) (heap : Heap) (s₀ s s' : Statics) (evs : List Event)
        (ch ch' : Channel) (f : TgFile) (p buf : List UInt8) (offset : Int)
        (log : List (Request × Response)) (o : Option Int),
      Initial s₀ → Run (PathStep config) s₀ evs s → s.storage.lookup p = some f →
      f.type = .tgFile → ch.KnowsIds →
      (∀ fid d, ch.documents fid = some d → d.length < 2 ^ 63) →
      buf.length < 2 ^ 63 → offset < 2 ^ 63 →
      Exec receive (helloWrite heap config p buf offset) s log o s' →
      Serve (Answers Channel.AnyId Channel.AnyId) ch log ch' →
      DoneOrUndone ch ch' s s' p buf offset o := by
  intro hall
  obtain ⟨s₀, evs, s, f, t, u, h0, hrun, hl, hfile, hfid, -, he, g, hg, hsize, hgid⟩ :=
    sampleAppend_exec
  obtain ⟨f₀, g₀, ret, -, hg₀, hret, hdone, -⟩ :=
    hall _ _ _ _ _ _ _ _ _ _ _ _ _ _ h0 hrun hl hfile sampleStored_ids sampleStored_docs (by decide)
      (by decide) he sampleExchanges_refused
  rw [hg] at hg₀
  cases hg₀
  have hsized : ret = cint (text "y").length := by
    rw [← Option.some.inj hret]
    decide
  have hlen := (hdone hsized).2.1
  have hdoc : contentsOf sampleLocated g = text "x" := by
    rw [sampleLocated, contentsOf, Channel.locate_documents]
    exact contentsOf_sample hgid
  rw [hsize, hdoc] at hlen
  exact absurd hlen (by decide)

end TgFuse

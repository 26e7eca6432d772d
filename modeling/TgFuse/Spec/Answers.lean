/-
  TgFuse.Spec.Answers

  Answers of the server, written out: for any ids there is one that carries
  them, so that the requirements of `Serves` and `Fails` can be met.
-/

import TgFuse.Spec.Telegram

namespace TgFuse

open CString

-- ============================================================================
-- Responses of one chunk
-- ============================================================================

/-- A response that arrives in one piece. -/
def Response.whole (body : List UInt8) : Response := ⟨curleOk, [body]⟩

/-- A body that fits lies at the start of the buffer, over whatever was there. -/
theorem receive_whole {body : List UInt8} {buf b : CharArray jsonResponseBufSize} :
    receiveJson (.whole body) buf = some b ↔
      body.length ≤ jsonResponseBufSize ∧ b.bytes = body ++ buf.bytes.drop body.length := by
  have hone : receiveJson (.whole body) buf = curlResponseJsonWriter buf body := by
    show Option.bind (curlResponseJsonWriter buf body) some = _
    cases curlResponseJsonWriter buf body <;> rfl
  rw [hone]
  exact curlResponseJsonWriter_eq_some

/-- What holds of the body, whatever follows it, is delivered. -/
theorem delivers_whole {body : List UInt8} {P : List UInt8 → Prop}
    (hlen : body.length ≤ jsonResponseBufSize) (h : ∀ rest, P (body ++ rest)) :
    (Response.whole body).Delivers P := by
  intro buf
  obtain ⟨b, -, hb⟩ := curlResponseJsonWriter_some buf hlen
  refine ⟨b, receive_whole.mpr ⟨hlen, hb⟩, ?_⟩
  rw [hb]
  exact h _

/-- A value behind the first occurrence of its key is carried, if it is copied from
    there whatever follows it. -/
theorem carries_of_copy {a t v w : List UInt8} {c : UInt8} (hc : c ∉ t)
    (ha : ¬ (c :: t) <:+: a) (hnul : 0 ∉ a ++ (c :: t))
    (hlen : (a ++ (c :: t) ++ 34 :: 58 :: w).length ≤ jsonResponseBufSize)
    (hcopy : ∀ dst rest, v.length ≤ dst.length →
      copyValue dst (w ++ rest) = some (0, v ++ dst.drop v.length)) :
    (Response.whole (a ++ (c :: t) ++ 34 :: 58 :: w)).Carries (c :: t) v := by
  refine delivers_whole hlen fun rest dst hdst => ?_
  have hs : 0 ∉ a ++ (c :: t) ++ 34 :: 58 :: [] := by
    simp only [List.mem_append, List.mem_cons, not_or] at hnul ⊢
    exact ⟨hnul, by decide, by decide, List.not_mem_nil⟩
  have hbody : a ++ (c :: t) ++ 34 :: 58 :: w ++ rest
      = a ++ (c :: t) ++ 34 :: 58 :: [] ++ (w ++ rest) := by
    simp
  rw [hbody, parse_at_key dst _ hs hc ha, List.nil_append, hcopy dst rest hdst]

/-- A quoted value is carried. -/
theorem carries_quoted {a t v more : List UInt8} {c q d : UInt8} (hc : c ∉ t)
    (ha : ¬ (c :: t) <:+: a) (hnul : 0 ∉ a ++ (c :: t)) (hv : Plain v)
    (hq : q ≠ 0 ∧ q ∉ valueEnd) (hd : d ∈ valueEnd)
    (hlen : (a ++ (c :: t) ++ 34 :: 58 :: quote :: (v ++ q :: d :: more)).length
      ≤ jsonResponseBufSize) :
    (Response.whole (a ++ (c :: t) ++ 34 :: 58 :: quote :: (v ++ q :: d :: more))).Carries
      (c :: t) v := by
  refine carries_of_copy hc ha hnul hlen fun dst rest hdst => ?_
  have hall : Plain (quote :: (v ++ [q])) :=
    Plain.cons (by decide) (hv.append (Plain.cons hq fun _ h => nomatch h))
  have hfit : v.length + 2 < 2 ^ 64 := by
    simp only [List.length_append, List.length_cons, jsonResponseBufSize] at hlen
    omega
  have hbody : quote :: (v ++ q :: d :: more) ++ rest
      = quote :: (v ++ [q]) ++ d :: (more ++ rest) := by
    simp
  rw [hbody, copyValue_quoted dst _ hall hd hfit, if_pos hdst]

/-- So is a value without quotes. -/
theorem carries_plain {a t v more : List UInt8} {c d : UInt8} (hc : c ∉ t)
    (ha : ¬ (c :: t) <:+: a) (hnul : 0 ∉ a ++ (c :: t)) (hv : Plain v)
    (hhead : (v ++ [d]).head? ≠ some quote) (hd : d ∈ valueEnd)
    (hlen : (a ++ (c :: t) ++ 34 :: 58 :: (v ++ d :: more)).length ≤ jsonResponseBufSize) :
    (Response.whole (a ++ (c :: t) ++ 34 :: 58 :: (v ++ d :: more))).Carries (c :: t) v := by
  refine carries_of_copy hc ha hnul hlen fun dst rest hdst => ?_
  have hhead' : v.head? ≠ some quote := fun h =>
    hhead (by rw [List.head?_append, h, Option.some_or])
  rw [List.append_assoc, List.cons_append, copyValue_plain dst _ hv hd hhead', if_pos hdst]

theorem Response.Carries.check_eq {r : Response} {v : List UInt8} (h : r.Carries (text "ok") v)
    (hv : 0 ∉ v) (hlen : v.length ≤ 100) :
    r.Delivers fun buf => checkOkStatusInJson buf = some (decide (v = text "true")) := by
  refine h.mono fun buf hbuf => ?_
  have hdst := hbuf (List.replicate 100 0) (by simpa using hlen)
  have hstr : cstr (v ++ (List.replicate 100 (0 : UInt8)).drop v.length) = v := by
    rw [List.drop_replicate]
    exact cstr_append_replicate hv _
  rw [checkOkStatusInJson, hdst]
  show some (decide (cstr _ = _)) = _
  rw [hstr]

-- ============================================================================
-- Answers in the compact form
-- ============================================================================

/-- The start of every successful answer. -/
def okHead : List UInt8 := text "\x7b\"ok\":true,\"result\":"

/-- `{"ok":true,"result":…` is an `ok` status. -/
theorem ok_of_okHead {more : List UInt8} (hlen : (okHead ++ more).length ≤ jsonResponseBufSize) :
    (Response.whole (okHead ++ more)).Ok := by
  have hbody : okHead ++ more = text "\x7b\"" ++ (111 :: [107]) ++ 34 :: 58 ::
      (text "true" ++ 44 :: (text "\"result\":" ++ more)) := by
    have : okHead = text "\x7b\"" ++ (111 :: [107]) ++ 34 :: 58 ::
      (text "true" ++ 44 :: text "\"result\":") := by decide
    rw [this]
    simp
  have hcarries : (Response.whole (okHead ++ more)).Carries (text "ok") (text "true") := by
    rw [hbody] at hlen ⊢
    exact carries_plain (by decide) (by decide) (by decide) (by decide) (by decide) (by decide)
      hlen
  exact ⟨rfl, (hcarries.check_eq (by decide) (by decide)).mono fun buf h => by simpa using h⟩

/-- The answer to `sendDocument`. -/
def sentAnswer (mid fid : Id) : Response :=
  .whole (okHead ++ text "\x7b\"message_id\":" ++ mid ++ text ",\"document\":\x7b\"file_id\":\"" ++
    fid ++ text "\"\x7d\x7d\x7d")

/-- The answer to `editMessageMedia`. -/
def editedAnswer (fid : Id) : Response :=
  .whole (okHead ++ text "\x7b\"document\":\x7b\"file_id\":\"" ++ fid ++ text "\"\x7d\x7d\x7d")

/-- The answer to `getFile`. -/
def locatedAnswer (path : List UInt8) : Response :=
  .whole (okHead ++ text "\x7b\"file_path\":\"" ++ path ++ text "\"\x7d\x7d")

/-- The answer to `deleteMessage`. -/
def deletedAnswer : Response := .whole (okHead ++ text "true\x7d")

/-- The answer to a request the server refuses. -/
def refusedAnswer : Response := .whole (text "\x7b\"ok\":false,\"error_code\":400\x7d")

/-- A transfer that ends with an error before anything has arrived. -/
def lostAnswer : Response := ⟨1, []⟩

theorem deletedAnswer_ok : deletedAnswer.Ok := ok_of_okHead (by decide)

theorem refusedAnswer_refused : refusedAnswer.Refused := by
  have hbody : text "\x7b\"ok\":false,\"error_code\":400\x7d" = text "\x7b\"" ++ (111 :: [107]) ++
      34 :: 58 :: (text "false" ++ 44 :: text "\"error_code\":400\x7d") := by decide
  have hcarries : refusedAnswer.Carries (text "ok") (text "false") := by
    rw [refusedAnswer, hbody]
    exact carries_plain (by decide) (by decide) (by decide) (by decide) (by decide) (by decide)
      (by decide)
  exact ⟨rfl, (hcarries.check_eq (by decide) (by decide)).mono fun buf h => by
    rw [h]
    decide⟩

theorem lostAnswer_lost : lostAnswer.Lost := ⟨by decide, fun buf => ⟨buf, rfl, trivial⟩⟩

/-- What precedes the file id in the answer to `sendDocument`. -/
def sentHead (mid : Id) : List UInt8 :=
  okHead ++ text "\x7b\"message_id\":" ++ mid ++ text ",\"document\":\x7b\""

/-- The answer, split at the key of its message id. -/
theorem sentBody_messageId (mid fid : Id) :
    okHead ++ text "\x7b\"message_id\":" ++ mid ++ text ",\"document\":\x7b\"file_id\":\"" ++
        fid ++ text "\"\x7d\x7d\x7d"
      = (okHead ++ text "\x7b\"") ++ (109 :: text "essage_id") ++ 34 :: 58 :: (mid ++ 44 ::
        (text "\"document\":\x7b\"file_id\":\"" ++ fid ++ text "\"\x7d\x7d\x7d")) := by
  have h1 : text "\x7b\"message_id\":" = text "\x7b\"" ++ (109 :: text "essage_id") ++
    34 :: 58 :: [] := by decide
  have h2 : text ",\"document\":\x7b\"file_id\":\""
    = 44 :: text "\"document\":\x7b\"file_id\":\"" := by decide
  rw [h1, h2]
  simp

/-- The answer, split at the key of its file id. -/
theorem sentBody_fileId (mid fid : Id) :
    okHead ++ text "\x7b\"message_id\":" ++ mid ++ text ",\"document\":\x7b\"file_id\":\"" ++
        fid ++ text "\"\x7d\x7d\x7d"
      = sentHead mid ++ (102 :: text "ile_id") ++
        34 :: 58 :: quote :: (fid ++ 34 :: 125 :: text "\x7d\x7d") := by
  have h1 : text ",\"document\":\x7b\"file_id\":\"" = text ",\"document\":\x7b\"" ++
    (102 :: text "ile_id") ++ 34 :: 58 :: quote :: [] := by decide
  have h2 : text "\"\x7d\x7d\x7d" = 34 :: 125 :: text "\x7d\x7d" := by decide
  rw [h1, h2, sentHead]
  simp

/-- The ids of a document that has been sent. -/
theorem sentAnswer_carries {mid fid : Id} (hmid : Plain mid)
    (hquote : (mid ++ [44]).head? ≠ some quote) (hfid : Plain fid)
    (hfree : ¬ text "file_id" <:+: sentHead mid)
    (hlen : mid.length + fid.length ≤ 900) :
    (sentAnswer mid fid).Ok ∧ (sentAnswer mid fid).Carries (text "message_id") mid ∧
      (sentAnswer mid fid).Carries (text "file_id") fid := by
  have hhead : okHead.length = 20 := by decide
  have hsize : jsonResponseBufSize = 1024 := rfl
  have htexts : (text "\x7b\"message_id\":").length = 14 ∧
      (text ",\"document\":\x7b\"file_id\":\"").length = 24 ∧
      (text "\"\x7d\x7d\x7d").length = 4 := by decide
  have hfits : (okHead ++ text "\x7b\"message_id\":" ++ mid ++
      text ",\"document\":\x7b\"file_id\":\"" ++ fid ++ text "\"\x7d\x7d\x7d").length
      ≤ jsonResponseBufSize := by
    simp only [List.length_append]
    omega
  rw [sentAnswer]
  refine ⟨?_, ?_, ?_⟩
  · simp only [List.append_assoc] at hfits ⊢
    exact ok_of_okHead hfits
  · rw [sentBody_messageId] at hfits ⊢
    exact carries_plain (by decide) (by decide) (by decide) hmid hquote (by decide) hfits
  · have hnul : 0 ∉ sentHead mid ++ (102 :: text "ile_id") := by
      have h1 : 0 ∉ okHead ++ text "\x7b\"message_id\":" := by decide
      have h2 : 0 ∉ text ",\"document\":\x7b\"" ++ (102 :: text "ile_id") := by decide
      simp only [sentHead, List.mem_append, not_or] at h1 h2 ⊢
      exact ⟨⟨⟨h1, hmid.zero_notMem⟩, h2.1⟩, h2.2⟩
    rw [sentBody_fileId] at hfits ⊢
    exact carries_quoted (by decide) hfree hnul hfid (by decide) (by decide) hfits

/-- A single quoted value at the end of an answer, under a key of its own. -/
theorem carries_last {a t v more : List UInt8} {c : UInt8} (hc : c ∉ t)
    (ha : ¬ (c :: t) <:+: okHead ++ a) (hnul : 0 ∉ okHead ++ a ++ (c :: t)) (hv : Plain v)
    (hlen : (okHead ++ a ++ (c :: t) ++ 34 :: 58 :: quote :: (v ++ 34 :: 125 :: more)).length
      ≤ jsonResponseBufSize) :
    let r := Response.whole
      (okHead ++ a ++ (c :: t) ++ 34 :: 58 :: quote :: (v ++ 34 :: 125 :: more))
    r.Ok ∧ r.Carries (c :: t) v := by
  refine ⟨?_, carries_quoted hc ha hnul hv (by decide) (by decide) hlen⟩
  simp only [List.append_assoc] at hlen ⊢
  exact ok_of_okHead hlen

/-- The file id of a document that has been replaced. -/
theorem editedAnswer_carries {fid : Id} (hfid : Plain fid) (hlen : fid.length ≤ 900) :
    (editedAnswer fid).Ok ∧ (editedAnswer fid).Carries (text "file_id") fid := by
  have hbody : okHead ++ text "\x7b\"document\":\x7b\"file_id\":\"" ++ fid ++
      text "\"\x7d\x7d\x7d"
      = okHead ++ text "\x7b\"document\":\x7b\"" ++ (102 :: text "ile_id") ++ 34 :: 58 ::
        quote :: (fid ++ 34 :: 125 :: text "\x7d\x7d") := by
    have h1 : text "\x7b\"document\":\x7b\"file_id\":\"" = text "\x7b\"document\":\x7b\"" ++
      (102 :: text "ile_id") ++ 34 :: 58 :: quote :: [] := by decide
    have h2 : text "\"\x7d\x7d\x7d" = 34 :: 125 :: text "\x7d\x7d" := by decide
    rw [h1, h2]
    simp
  have hconst : (okHead ++ text "\x7b\"document\":\x7b\"" ++ (102 :: text "ile_id")).length = 41 ∧
      (text "\x7d\x7d").length = 2 := by decide
  rw [editedAnswer, hbody]
  refine carries_last (by decide) (by decide) (by decide) hfid ?_
  rw [List.length_append, hconst.1]
  simp only [List.length_cons, List.length_append, hconst.2, jsonResponseBufSize]
  omega

/-- The path of a file that can be downloaded. -/
theorem locatedAnswer_carries {path : List UInt8} (hpath : Plain path)
    (hlen : path.length ≤ 900) :
    (locatedAnswer path).Ok ∧ (locatedAnswer path).Carries (text "file_path") path := by
  have hbody : okHead ++ text "\x7b\"file_path\":\"" ++ path ++ text "\"\x7d\x7d"
      = okHead ++ text "\x7b\"" ++ (102 :: text "ile_path") ++ 34 :: 58 ::
        quote :: (path ++ 34 :: 125 :: text "\x7d") := by
    have h1 : text "\x7b\"file_path\":\"" = text "\x7b\"" ++
      (102 :: text "ile_path") ++ 34 :: 58 :: quote :: [] := by decide
    have h2 : text "\"\x7d\x7d" = 34 :: 125 :: text "\x7d" := by decide
    rw [h1, h2]
    simp
  have hconst : (okHead ++ text "\x7b\"" ++ (102 :: text "ile_path")).length = 31 ∧
      (text "\x7d").length = 1 := by decide
  rw [locatedAnswer, hbody]
  refine carries_last (by decide) (by decide) (by decide) hpath ?_
  rw [List.length_append, hconst.1]
  simp only [List.length_cons, List.length_append, hconst.2, jsonResponseBufSize]
  omega

-- ============================================================================
-- Requests that are answered so
-- ============================================================================

section Serving

variable {okMessage okFile : Channel → Id → Prop} {ch : Channel} {config : TgConfig}
  {caption filename document : List UInt8} {mid fid : Id}

/-- An id that can be written into an answer and read back. -/
def Writable (v : Id) : Prop := IsId v ∧ Plain v ∧ (v ++ [44]).head? ≠ some quote

instance (v : Id) : Decidable (Writable v) :=
  inferInstanceAs (Decidable (IsId v ∧ Plain v ∧ (v ++ [44]).head? ≠ some quote))

theorem serves_sent (hmid : Writable mid) (hfid : Writable fid)
    (hfree : ¬ text "file_id" <:+: sentHead mid) (hm : okMessage ch mid) (hf : okFile ch fid) :
    Serves okMessage okFile ch (.sendDocument config caption filename document)
      (sentAnswer mid fid) (ch.post mid fid document) := by
  have h1 := hmid.1.length_le
  have h2 := hfid.1.length_le
  obtain ⟨hok, hcm, hcf⟩ := sentAnswer_carries hmid.2.1 hmid.2.2 hfid.2.1 hfree (by omega)
  exact .sent hmid.1 hfid.1 hm hf hok hcm hcf

theorem serves_edited (hfid : Writable fid) (hf : okFile ch fid) :
    Serves okMessage okFile ch (.editMessageMedia config mid caption filename document)
      (editedAnswer fid) (ch.edit mid fid document) := by
  have hl := hfid.1.length_le
  obtain ⟨hok, hcf⟩ := editedAnswer_carries hfid.2.1 (by omega)
  exact .edited hfid.1 hf hok hcf

theorem serves_deleted :
    Serves okMessage okFile ch (.deleteMessage config mid) deletedAnswer (ch.remove mid) :=
  .deleted deletedAnswer_ok

theorem serves_located {path : List UInt8} (hpath : Writable path)
    (hdoc : ch.documents fid = some document)
    (hfile : ch.files path = none ∨ ch.files path = some fid) :
    Serves okMessage okFile ch (.getFile config fid) (locatedAnswer path) (ch.locate path fid) := by
  have hl := hpath.1.length_le
  obtain ⟨hok, hcar⟩ := locatedAnswer_carries hpath.2.1 (by omega)
  exact .located hdoc hpath.1 hfile hok hcar

/-- A file that has been located is downloaded in one piece. -/
theorem serves_downloaded {path : List UInt8} (hdoc : ch.documents fid = some document) :
    Serves okMessage okFile (ch.locate path fid) (.download config path) (.whole document)
      (ch.locate path fid) :=
  .downloaded (Function.update_self ..) hdoc rfl (by simp [Response.whole])

/-- A download of a file that has been located may break off anywhere. -/
theorem fails_brokenOff {path : List UInt8} {r : Response}
    (hdoc : ch.documents fid = some document) (hcode : r.code ≠ curleOk)
    (hpre : r.chunks.flatten <+: document) :
    Fails okMessage okFile (ch.locate path fid) (.download config path) r (ch.locate path fid) :=
  .brokenOff (Function.update_self ..) hdoc hcode hpre

end Serving

end TgFuse

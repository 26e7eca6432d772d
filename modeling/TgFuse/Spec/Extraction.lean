/-
  TgFuse.Spec.Extraction

  Which ids `tg_put_file` stores when the answer echoes names that users chose.

  `parse_response_field_from_json` reads behind the first place where `file_id`
  occurs as a text, be it in the file name or in a nested object.
-/

import TgFuse.Effect.Ids
import TgFuse.Spec.Answers

namespace TgFuse

open CString Interact Interact.Prog Lts

-- ============================================================================
-- Answers with names
-- ============================================================================

/-- `"file_id"`, as the program looks for it. -/
def fileIdKey : List UInt8 := text "file_id"

/-- A character of a JSON string, as it is written. -/
inductive JsonChar where
  | plain (b : UInt8) (h : 32 ≤ b ∧ b ≠ quote ∧ b ≠ 92)
  | escape (b : UInt8) (h : b ∈ text "\"\\/bfnrt")
  | unicode (digits : List UInt8)
      (h : digits.length = 4 ∧ ∀ d ∈ digits, d ∈ text "0123456789abcdefABCDEF")
deriving DecidableEq

def JsonChar.bytes : JsonChar → List UInt8
  | .plain b _ => [b]
  | .escape b _ => [92, b]
  | .unicode digits _ => 92 :: 117 :: digits

/-- A JSON string literal. -/
def jsonString (s : List JsonChar) : List UInt8 := quote :: (s.flatMap JsonChar.bytes ++ [quote])

/-- An id without special characters. -/
def Simple (v : Id) : Prop := v ≠ [] ∧ Plain v ∧ quote ∉ v

instance (v : Id) : Decidable (Simple v) :=
  inferInstanceAs (Decidable (v ≠ [] ∧ Plain v ∧ quote ∉ v))

/-- A text without NUL in which `file_id` does not occur. -/
def Free (a : List UInt8) : Prop := 0 ∉ a ∧ ¬ fileIdKey <:+: a

instance (a : List UInt8) : Decidable (Free a) :=
  inferInstanceAs (Decidable (0 ∉ a ∧ ¬ fileIdKey <:+: a))

/-- Another field of an answer: it mentions no file id. -/
abbrev Field := {a : List UInt8 // Free a}

/-- Fields with a comma behind each of them, or before. -/
def fieldsBefore (fs : List Field) : List UInt8 := fs.flatMap fun g => g.1 ++ [44]
def fieldsAfter (fs : List Field) : List UInt8 := fs.flatMap fun g => 44 :: g.1

/-- The object `thumbnail`. -/
structure Thumbnail where
  before : List Field
  fileId : Id
  after : List Field
  simple : Simple fileId

def Thumbnail.bytes (t : Thumbnail) : List UInt8 :=
  text "\"thumbnail\":\x7b" ++ fieldsBefore t.before ++ text "\"file_id\":" ++
    quote :: (t.fileId ++ quote :: (fieldsAfter t.after ++ text "\x7d,"))

/-- A successful answer to an upload. -/
structure UploadReply where
  messageId : Id
  messageFields : List Field
  name : List JsonChar
  nameFields : List Field
  thumbnail : Option Thumbnail
  documentFields : List Field
  fileId : Id
  otherFields : List Field
  caption : List JsonChar
  digits : messageId ≠ [] ∧ ∀ b ∈ messageId, 48 ≤ b ∧ b ≤ 57
  simple : Simple fileId

namespace UploadReply

/-- What precedes the colon before the name. -/
def head (r : UploadReply) : List UInt8 :=
  okHead ++ text "\x7b\"message_id\":" ++ r.messageId ++
    44 :: (fieldsBefore r.messageFields ++ text "\"document\":\x7b\"file_name\"")

/-- What follows the file id: its closing quote comes first. -/
def tail (r : UploadReply) : List UInt8 :=
  quote :: (fieldsAfter r.otherFields ++
    125 :: (text ",\"caption\":" ++ jsonString r.caption ++ text "\x7d\x7d"))

/-- What follows the name: a comma comes first. -/
def rest (r : UploadReply) : List UInt8 :=
  44 :: (fieldsBefore r.nameFields ++ (r.thumbnail.elim [] Thumbnail.bytes ++
    (fieldsBefore r.documentFields ++ text "\"file_id\":" ++ quote :: (r.fileId ++ r.tail))))

def body (r : UploadReply) : List UInt8 := r.head ++ 58 :: (jsonString r.name ++ r.rest)

end UploadReply

-- ============================================================================
-- The property
-- ============================================================================

/-- `tg_put_file` on the entry `f` in slot `i`, answered with `r`, stores exactly
    the ids `mid` and `fid`; an edit keeps the message id. -/
def StoresIds (config : TgConfig) (s : Statics) (i : Nat) (f : TgFile) (data : Buffer)
    (r : Response) (mid fid : Id) : Prop :=
  ∃ q out s' g, Exec receive (tgPutFile (.slot i) config data) s [(q, r)] (some out) s' ∧
    s'.storage.live[i]? = some g ∧ g.fileId.Holds fid ∧
    if f.fileIdStr.length = 0 then g.messageId.Holds mid else g.messageId = f.messageId

/-- The first `file_id` of the answer stands before its own file id, or before a
    text that is read as that one. -/
def NamesRight (r : UploadReply) : Prop :=
  (¬ fileIdKey <:+: jsonString r.name ∧ ∀ t, r.thumbnail = some t → t.fileId = r.fileId) ∨
  ∃ n₁ n₂, jsonString r.name = n₁ ++ fileIdKey ++ n₂ ∧ ¬ fileIdKey <:+: n₁ ∧
    ValueAt ((n₂ ++ r.rest).drop 2) r.fileId

/-- The answer fits `json_response_buf`, and its ids fit their arrays. -/
def Fits (f : TgFile) (r : UploadReply) : Prop :=
  r.body.length ≤ jsonResponseBufSize ∧ r.fileId.length < fieldSize ∧
    (f.fileIdStr.length = 0 → f.messageId.bytes[r.messageId.length]? = some 0)

-- ============================================================================
-- Texts without a file id
-- ============================================================================

theorem Free.append_cons {a b : List UInt8} {q : UInt8} (ha : Free a) (hb : Free b)
    (hq : q ≠ 0 ∧ q ∉ fileIdKey) : Free (a ++ q :: b) := by
  refine ⟨?_, ?_⟩
  · simp only [List.mem_append, List.mem_cons, not_or]
    exact ⟨ha.1, hq.1.symm, hb.1⟩
  · rw [infix_append_cons_iff hq.2]
    exact fun h => h.elim ha.2 hb.2

theorem Free.fieldsBefore_append (fs : List Field) {b : List UInt8} (hb : Free b) :
    Free (fieldsBefore fs ++ b) := by
  induction fs with
  | nil => exact hb
  | cons g fs ih =>
      have hsplit : fieldsBefore (g :: fs) ++ b = g.1 ++ 44 :: (fieldsBefore fs ++ b) := by
        simp [fieldsBefore]
      rw [hsplit]
      exact g.2.append_cons ih (by decide)

theorem JsonChar.zero_notMem_bytes (c : JsonChar) : 0 ∉ c.bytes := by
  cases c with
  | plain b h =>
      have hb : b ≠ 0 := by
        rintro rfl
        exact absurd h.1 (by decide)
      simpa [JsonChar.bytes] using hb.symm
  | escape b h =>
      have hb : b ≠ 0 := by
        rintro rfl
        exact absurd h (by decide)
      simpa [JsonChar.bytes] using hb.symm
  | unicode digits h =>
      have hd : 0 ∉ digits := fun h0 => absurd (h.2 0 h0) (by decide)
      simpa [JsonChar.bytes] using hd

theorem zero_notMem_jsonString (s : List JsonChar) : 0 ∉ jsonString s := by
  have hchars : 0 ∉ s.flatMap JsonChar.bytes := by
    intro h
    obtain ⟨c, -, hc⟩ := List.mem_flatMap.mp h
    exact c.zero_notMem_bytes hc
  simpa [jsonString, quote] using hchars

/-- The first of the occurrences of a text. -/
theorem exists_first_infix {key l : List UInt8} (hne : key ≠ []) (h : key <:+: l) :
    ∃ n₁ n₂, l = n₁ ++ key ++ n₂ ∧ ¬ key <:+: n₁ := by
  induction l with
  | nil => exact absurd (List.infix_nil.mp h) hne
  | cons b l ih =>
      by_cases hp : key <+: b :: l
      · obtain ⟨n₂, hn⟩ := hp
        exact ⟨[], n₂, by rw [List.nil_append, hn], by rw [List.infix_nil]; exact hne⟩
      · obtain ⟨n₁, n₂, rfl, hn⟩ := ih ((List.infix_cons_iff.mp h).resolve_left hp)
        refine ⟨b :: n₁, n₂, rfl, ?_⟩
        rw [List.infix_cons_iff]
        rintro (hpre | hin)
        · exact hp (hpre.trans ⟨key ++ n₂, by simp⟩)
        · exact hn hin

namespace UploadReply

variable (r : UploadReply)

theorem digit_spec {r : UploadReply} {b : UInt8} (hb : b ∈ r.messageId) :
    b ≠ 0 ∧ b ∉ valueEnd ∧ b ≠ quote ∧ b ∉ fileIdKey := by
  obtain ⟨hlo, hhi⟩ := r.digits.2 b hb
  have hlo' : 48 ≤ b.toNat := hlo
  have hhi' : b.toNat ≤ 57 := hhi
  refine ⟨?_, ?_, ?_, ?_⟩
  · rintro rfl
    exact absurd hlo' (by decide)
  · intro h
    have hends : ∀ x ∈ valueEnd, x.toNat < 48 ∨ 57 < x.toNat := by decide +kernel
    have := hends b h
    omega
  · rintro rfl
    exact absurd hlo' (by decide)
  · intro h
    have hkey : ∀ x ∈ fileIdKey, 57 < x.toNat := by decide +kernel
    have := hkey b h
    omega

theorem messageId_free : Free r.messageId := by
  refine ⟨fun h => (digit_spec h).1 rfl, fun h => ?_⟩
  exact (digit_spec (h.subset (List.mem_cons_self (a := 102)))).2.2.2 (by decide)

theorem head_free : Free r.head := by
  have hsplit : r.head = (okHead ++ text "\x7b\"message_id\"") ++ 58 :: (r.messageId ++
      44 :: (fieldsBefore r.messageFields ++ text "\"document\":\x7b\"file_name\"")) := by
    have h1 : text "\x7b\"message_id\":" = text "\x7b\"message_id\"" ++ [58] := by decide
    rw [head, h1]
    simp
  rw [hsplit]
  refine Free.append_cons (by decide) ?_ (by decide)
  exact r.messageId_free.append_cons (Free.fieldsBefore_append _ (by decide)) (by decide)

/-- A quoted id, behind which an object ends. -/
theorem valueAt_id {v : Id} (hv : Simple v) (fs : List Field) (more : List UInt8) :
    ValueAt (quote :: (v ++ quote :: (fieldsAfter fs ++ 125 :: more))) v := by
  cases fs with
  | nil => exact valueAt_quoted hv.2.1 (by decide) more
  | cons g fs =>
      have hsplit : fieldsAfter (g :: fs) ++ 125 :: more
          = 44 :: (g.1 ++ fieldsAfter fs ++ 125 :: more) := by simp [fieldsAfter]
      rw [hsplit]
      exact valueAt_quoted hv.2.1 (by decide) _

theorem key_text : text "\"file_id\":" = quote :: (fileIdKey ++ [34, 58]) := by decide

/-- Where the program looks for the file id: behind the first `file_id` of the
    body and two more bytes. -/
structure FirstKey (r : UploadReply) (a : List UInt8) (x y : UInt8) (c : List UInt8) : Prop where
  body_eq : r.body = a ++ fileIdKey ++ x :: y :: c
  free : Free a
  nonzero : x ≠ 0 ∧ y ≠ 0
  delimited : ∃ d ∈ c, d ∈ valueEnd
  right : ValueAt c r.fileId ↔ NamesRight r

/-- The name itself has a `file_id`. -/
theorem firstKey_of_name (h : fileIdKey <:+: jsonString r.name) :
    ∃ a x y c, FirstKey r a x y c := by
  obtain ⟨n₁, n₂, hname, hn⟩ := exists_first_infix (by decide) h
  have hnul := zero_notMem_jsonString r.name
  rw [hname] at hnul
  simp only [List.mem_append, not_or] at hnul
  have hfree : Free (r.head ++ 58 :: n₁) := r.head_free.append_cons ⟨hnul.1.1, hn⟩ (by decide)
  have hright : ValueAt ((n₂ ++ r.rest).drop 2) r.fileId ↔ NamesRight r := by
    constructor
    · intro hval
      exact Or.inr ⟨n₁, n₂, hname, hn, hval⟩
    · rintro (⟨hno, -⟩ | ⟨m₁, m₂, hname', hm, hval⟩)
      · exact absurd h hno
      · -- the first occurrence is the same one
        have hlen : n₁.length = m₁.length := by
          have h1 := findSub_append (c := 102) (t := text "ile_id") (b := n₂) (by decide) hn
          have h2 := findSub_append (c := 102) (t := text "ile_id") (b := m₂) (by decide) hm
          change findSub _ (n₁ ++ fileIdKey ++ n₂) = _ at h1
          change findSub _ (m₁ ++ fileIdKey ++ m₂) = _ at h2
          rw [← hname, hname', h2] at h1
          exact (Option.some.inj h1).symm
        rw [hname', List.append_assoc, List.append_assoc] at hname
        obtain rfl := List.append_cancel_left (List.append_inj_right hname hlen.symm)
        exact hval
  have hbody : r.body = (r.head ++ 58 :: n₁) ++ fileIdKey ++ (n₂ ++ r.rest) := by
    rw [body, hname]
    simp
  -- a quote ends the name, so something follows the key in it
  cases n₂ with
  | nil =>
      have hlast := congrArg List.getLast? hname
      have hkey : fileIdKey.getLast? = some 100 := by decide
      rw [jsonString, ← List.cons_append, List.getLast?_concat, List.append_nil,
        List.getLast?_append, hkey] at hlast
      exact absurd (Option.some.inj hlast) (by decide)
  | cons x n₃ =>
      have hx : x ≠ 0 := fun h0 => hnul.2 (by simp [h0])
      cases n₃ with
      | nil =>
          exact ⟨r.head ++ 58 :: n₁, x, 44, _, hbody, hfree, ⟨hx, by decide⟩,
            ⟨125, by simp [tail], by decide⟩, hright⟩
      | cons y n₄ =>
          have hy : y ≠ 0 := fun h0 => hnul.2 (by simp [h0])
          exact ⟨r.head ++ 58 :: n₁, x, y, n₄ ++ r.rest, hbody, hfree, ⟨hx, hy⟩,
            ⟨44, by simp [rest], by decide⟩, hright⟩

/-- The first `file_id` is a key of the answer. -/
theorem firstKey_of_not_name (h : ¬ fileIdKey <:+: jsonString r.name) :
    ∃ a x y c, FirstKey r a x y c := by
  have hname : Free (jsonString r.name) := ⟨zero_notMem_jsonString r.name, h⟩
  have hright : NamesRight r ↔ ∀ t, r.thumbnail = some t → t.fileId = r.fileId := by
    refine ⟨fun hr => hr.elim And.right ?_, fun ht => Or.inl ⟨h, ht⟩⟩
    rintro ⟨n₁, n₂, hsplit, -⟩
    exact absurd ⟨n₁, n₂, hsplit.symm⟩ h
  have hstart : ∀ {b}, Free b →
      Free (r.head ++ 58 :: (jsonString r.name ++ 44 :: (fieldsBefore r.nameFields ++ b))) := by
    intro b hb
    exact r.head_free.append_cons
      (hname.append_cons (Free.fieldsBefore_append _ hb) (by decide)) (by decide)
  cases ht : r.thumbnail with
  | none =>
      refine ⟨_, 34, 58, quote :: (r.fileId ++ r.tail), ?_,
        hstart (Free.fieldsBefore_append r.documentFields (b := [quote]) (by decide)),
        by decide, ⟨125, by simp [tail], by decide⟩, ?_⟩
      · simp [body, rest, ht, key_text]
      · rw [hright, ht]
        exact iff_of_true (valueAt_id r.simple r.otherFields _) fun t h0 => nomatch h0
  | some t =>
      have hopen :
          Free (text "\"thumbnail\"" ++ 58 :: (123 :: (fieldsBefore t.before ++ [quote]))) :=
        Free.append_cons (by decide) (Free.append_cons (a := []) (by decide)
          (Free.fieldsBefore_append t.before (by decide)) (by decide)) (by decide)
      have hval := valueAt_id t.simple t.after (44 :: (fieldsBefore r.documentFields ++
        text "\"file_id\":" ++ quote :: (r.fileId ++ r.tail)))
      refine ⟨_, 34, 58, quote :: (t.fileId ++ quote :: (fieldsAfter t.after ++ 125 :: (44 ::
        (fieldsBefore r.documentFields ++ text "\"file_id\":" ++ quote :: (r.fileId ++ r.tail))))),
        ?_, hstart hopen, by decide, ⟨125, by simp, by decide⟩, ?_⟩
      · have h1 : text "\"thumbnail\":\x7b" = text "\"thumbnail\"" ++ [58, 123] := by decide
        have h2 : text "\x7d," = [125, 44] := by decide
        simp [body, rest, ht, Thumbnail.bytes, key_text, h1, h2]
      · rw [hright]
        constructor
        · intro hr t' ht'
          rw [ht] at ht'
          cases ht'
          exact hval.unique hr
        · intro hr
          exact hr t ht ▸ hval

theorem exists_firstKey : ∃ a x y c, FirstKey r a x y c := by
  by_cases h : fileIdKey <:+: jsonString r.name
  · exact r.firstKey_of_name h
  · exact r.firstKey_of_not_name h

end UploadReply

-- ============================================================================
-- The ids that are stored
-- ============================================================================

section Stored

variable {config : TgConfig} {s : Statics} {i : Nat} {f : TgFile} {data : Buffer}

/-- An upload stores what `afterPut` makes of the entry. -/
theorem storesIds_iff_afterPut (hwf : s.storage.Wf) (hf : s.storage.live[i]? = some f)
    {r : Response} {mid fid : Id} :
    StoresIds config s i f data r mid fid ↔
      ∃ b g, receiveJson r s.jsonResponseBuf = some b ∧ afterPut f r b.bytes = some g ∧
        g.fileId.Holds fid ∧
        if f.fileIdStr.length = 0 then g.messageId.Holds mid else g.messageId = f.messageId := by
  have hfile : (FilePtr.slot i).peek s = some f := (TgStorage.getElem?_live hf).2
  have hnamed := hwf.named f (List.mem_of_getElem? hf)
  have hlive : ∀ b g, ((s.withJson b).poke (.slot i) g).storage.live[i]? = some g := by
    intro b g
    obtain ⟨hi, -⟩ := List.getElem?_eq_some_iff.mp hf
    show (s.storage.setSlot i g).live[i]? = some g
    rw [setSlot_live, List.getElem?_set_self hi]
  constructor
  · rintro ⟨q, out, s', g, he, hg, hfid, hmid⟩
    obtain ⟨r', b, f', heq, hb, hafter, -, rfl⟩ :=
      (exec_tgPutFile hfile hnamed.hasPath hnamed.valid).mp he
    cases heq
    rw [hlive] at hg
    cases hg
    exact ⟨b, g, hb, hafter, hfid, hmid⟩
  · rintro ⟨b, g, hb, hafter, hfid, hmid⟩
    exact ⟨_, _, _, g, (exec_tgPutFile hfile hnamed.hasPath hnamed.valid).mpr
      ⟨r, b, g, rfl, hb, hafter, rfl, rfl⟩, hlive b g, hfid, hmid⟩

/-- The message id stands first. -/
theorem body_carries_messageId (r : UploadReply) (hlen : r.body.length ≤ jsonResponseBufSize) :
    (Response.whole r.body).Ok ∧
      (Response.whole r.body).Carries (text "message_id") r.messageId := by
  have hplain : Plain r.messageId := fun b hb =>
    ⟨(UploadReply.digit_spec hb).1, (UploadReply.digit_spec hb).2.1⟩
  have hquote : (r.messageId ++ [44]).head? ≠ some quote := by
    rw [List.head?_append]
    cases h : r.messageId with
    | nil => exact absurd h r.digits.1
    | cons b bs =>
        intro hq
        obtain rfl : b = quote := Option.some.inj hq
        exact (UploadReply.digit_spec (r := r) (by rw [h]; exact List.mem_cons_self ..)).2.2.1 rfl
  have hkey : text "\x7b\"message_id\":"
      = text "\x7b\"" ++ (109 :: text "essage_id") ++ 34 :: 58 :: [] := by decide
  obtain ⟨more, hmore⟩ : ∃ more, r.body = okHead ++ more := by
    simp only [UploadReply.body, UploadReply.head, List.append_assoc]
    exact ⟨_, rfl⟩
  obtain ⟨rest, hrest⟩ : ∃ rest, r.body = (okHead ++ text "\x7b\"") ++ (109 :: text "essage_id") ++
      34 :: 58 :: (r.messageId ++ 44 :: rest) := by
    simp only [UploadReply.body, UploadReply.head, hkey, List.append_assoc, List.cons_append,
      List.nil_append]
    exact ⟨_, rfl⟩
  constructor
  · rw [hmore] at hlen ⊢
    exact ok_of_okHead hlen
  · rw [hrest] at hlen ⊢
    exact carries_plain (by decide) (by decide) (by decide) hplain hquote (by decide) hlen

/-- Extraction of the file id starts behind the first `file_id`. -/
theorem parse_firstKey {r : UploadReply} {a c : List UInt8} {x y : UInt8}
    (h : r.FirstKey a x y c) (dst stale : List UInt8) :
    parseResponseFieldFromJson dst (r.body ++ stale) (text "file_id")
      = copyValue dst (c ++ stale) := by
  have hs : 0 ∉ a ++ (102 :: text "ile_id") ++ x :: y :: [] := by
    have hkey : 0 ∉ (102 :: text "ile_id" : List UInt8) := by decide
    simp only [List.mem_append, not_or]
    refine ⟨⟨h.free.1, hkey⟩, ?_⟩
    simp [h.nonzero.1.symm, h.nonzero.2.symm]
  have hparse := parse_at_key dst (c ++ stale) hs (by decide) h.free.2
  have hbody : r.body ++ stale = a ++ (102 :: text "ile_id") ++ x :: y :: [] ++ (c ++ stale) := by
    rw [h.body_eq, show fileIdKey = 102 :: text "ile_id" by decide]
    simp
  rw [hbody]
  exact hparse

/-- What a received body is read as: its status, and the file id behind its first
    `file_id`, where what the buffer held before may follow. -/
theorem received_body {r : UploadReply} {a c : List UInt8} {x y : UInt8}
    {buf b : CharArray jsonResponseBufSize} (hkey : r.FirstKey a x y c)
    (hb : receiveJson (.whole r.body) buf = some b) :
    checkOkStatusInJson b.bytes = some true ∧
      (∀ dst, parseResponseFieldFromJson dst b.bytes (text "file_id")
        = copyValue dst (c ++ buf.bytes.drop r.body.length)) ∧
      (c ++ buf.bytes.drop r.body.length).length < 2 ^ 64 := by
  obtain ⟨hlen, hbytes⟩ := receive_whole.mp hb
  obtain ⟨hok, -⟩ := body_carries_messageId r hlen
  refine ⟨hok.check_eq hb, fun dst => ?_, ?_⟩
  · rw [hbytes]
    exact parse_firstKey hkey dst _
  · have hlb := b.length_bytes
    have hc : c.length ≤ r.body.length := by
      rw [hkey.body_eq]
      simp only [List.length_append, List.length_cons]
      omega
    have hsize : jsonResponseBufSize = 1024 := rfl
    rw [hbytes, List.length_append] at hlb
    rw [List.length_append]
    omega

/-- Ids that were stored exactly have been found and have fitted. -/
theorem namesRight_of_afterPut {r : UploadReply} {b : CharArray jsonResponseBufSize}
    {g : TgFile} (hclean : f.Clean) (hb : receiveJson (.whole r.body) s.jsonResponseBuf = some b)
    (hafter : afterPut f (.whole r.body) b.bytes = some g) (hfid : g.fileId.Holds r.fileId)
    (hmid : if f.fileIdStr.length = 0 then g.messageId.Holds r.messageId
      else g.messageId = f.messageId) : Fits f r ∧ NamesRight r := by
  obtain ⟨a, x, y, c, hkey⟩ := r.exists_firstKey
  obtain ⟨hcheck, hparse, hclen⟩ := received_body hkey hb
  obtain ⟨hlen, -⟩ := receive_whole.mp hb
  obtain ⟨-, hcar⟩ := body_carries_messageId r hlen
  have hright : ∀ {f₁ g₁ : TgFile}, f₁.fileId = .zeros → parseFileId f₁ b.bytes = some g₁ →
      g₁.fileId.Holds r.fileId →
      NamesRight r ∧ r.fileId.length < fieldSize ∧ g₁.messageId = f₁.messageId := by
    intro f₁ g₁ hz hp hold
    obtain ⟨hval, hlt, hm⟩ := valueAt_of_parseFileId hz hparse hclen hp r.simple.1 hold
    exact ⟨hkey.right.mp ((valueAt_append_iff hkey.delimited _).mp hval), hlt, hm⟩
  unfold afterPut at hafter
  by_cases hid : f.fileIdStr.length = 0
  · rw [if_pos hid, afterSend, hcheck] at hafter
    rw [if_pos hid] at hmid
    simp only [Option.bind_eq_bind, Option.bind_some, if_true, Option.bind_eq_some_iff] at hafter
    obtain ⟨g₁, h₁, h₂⟩ := hafter
    obtain ⟨out, hout, rfl⟩ := Option.map_eq_some_iff.mp h₂
    obtain ⟨hn, hlt, hm⟩ := hright (hclean (List.eq_nil_of_length_eq_zero hid)) h₁ hfid
    rw [hcar.of_receive hb g₁.messageId.bytes (by
      rw [g₁.messageId.length_bytes]; exact Nat.le_of_lt hmid.length_lt)] at hout
    cases hout
    rw [setMessageIdMemory_holds_iff r.messageId_free.1, hm] at hmid
    exact ⟨⟨hlen, hlt, fun _ => hmid⟩, hn⟩
  · rw [if_neg hid, if_neg (fun h => h rfl), afterEdit, hcheck] at hafter
    simp only [Option.bind_eq_bind, Option.bind_some, if_true] at hafter
    obtain ⟨hn, hlt, -⟩ := hright rfl hafter hfid
    exact ⟨⟨hlen, hlt, fun h => absurd h hid⟩, hn⟩

/-- Ids that fit and are found are stored exactly. -/
theorem afterPut_of_namesRight {r : UploadReply} (hclean : f.Clean) (hfits : Fits f r)
    (hn : NamesRight r) :
    ∃ b g, receiveJson (.whole r.body) s.jsonResponseBuf = some b ∧
      afterPut f (.whole r.body) b.bytes = some g ∧ g.fileId.Holds r.fileId ∧
      if f.fileIdStr.length = 0 then g.messageId.Holds r.messageId
        else g.messageId = f.messageId := by
  obtain ⟨hlen, hlt, hroom⟩ := hfits
  obtain ⟨a, x, y, c, hkey⟩ := r.exists_firstKey
  obtain ⟨hok, hcar⟩ := body_carries_messageId r hlen
  obtain ⟨b, hb, -⟩ := hok.2 s.jsonResponseBuf
  obtain ⟨hcheck, hparse, -⟩ := received_body hkey hb
  have hval := (valueAt_append_iff hkey.delimited
    (s.jsonResponseBuf.bytes.drop r.body.length)).mpr (hkey.right.mpr hn)
  unfold afterPut
  by_cases hid : f.fileIdStr.length = 0
  · obtain ⟨g₁, h₁, hold, hm⟩ := parseFileId_of_valueAt
      (hclean (List.eq_nil_of_length_eq_zero hid)) hparse hval hlt
    have hroom' := hroom hid
    rw [← hm] at hroom'
    obtain ⟨hnlt, -⟩ := List.getElem?_eq_some_iff.mp hroom'
    have hout := hcar.of_receive hb g₁.messageId.bytes (Nat.le_of_lt hnlt)
    refine ⟨b, g₁.setMessageIdMemory
      (r.messageId ++ g₁.messageId.bytes.drop r.messageId.length), hb, ?_, hold, ?_⟩
    · rw [if_pos hid, afterSend, hcheck]
      simp only [Option.bind_eq_bind, Option.bind_some, if_true, h₁]
      rw [parseMessageId, hout, Option.map_some]
    · rw [if_pos hid]
      exact (setMessageIdMemory_holds_iff r.messageId_free.1).mpr hroom'
  · obtain ⟨g, hg, hold, hm⟩ := parseFileId_of_valueAt (f := { f with fileId := .zeros }) rfl
      hparse hval hlt
    refine ⟨b, g, hb, ?_, hold, ?_⟩
    · rw [if_neg hid, if_neg (fun h => h rfl), afterEdit, hcheck]
      simpa only [Option.bind_eq_bind, Option.bind_some, if_true] using hg
    · rw [if_neg hid]
      exact hm

/-- An upload of an entry stores the ids of its own document exactly if the
    answer fits and its first `file_id` is the right one. -/
theorem storesIds_iff (hwf : s.storage.Wf) (hf : s.storage.live[i]? = some f) (hclean : f.Clean)
    (r : UploadReply) :
    StoresIds config s i f data (.whole r.body) r.messageId r.fileId ↔
      Fits f r ∧ NamesRight r := by
  rw [storesIds_iff_afterPut hwf hf]
  constructor
  · rintro ⟨b, g, hb, hafter, hfid, hmid⟩
    exact namesRight_of_afterPut hclean hb hafter hfid hmid
  · rintro ⟨hfits, hn⟩
    exact afterPut_of_namesRight hclean hfits hn

/-- In every reachable state, `tg_put_file` stores exactly the ids of the answer
    if and only if the answer fits and no name or thumbnail gets in between. -/
theorem upload_ids_exact_iff {s₀ : Statics} {evs : List Event} (h0 : Initial s₀)
    (hrun : Run (PathStep config) s₀ evs s) (hf : s.storage.live[i]? = some f) (r : UploadReply) :
    StoresIds config s i f data (.whole r.body) r.messageId r.fileId ↔
      Fits f r ∧ NamesRight r :=
  storesIds_iff (reachable_wf h0 hrun).1 hf
    (reachable_clean h0 hrun f (List.mem_of_getElem? hf)) r

/-- A printable character. -/
def letter (b : UInt8) (h : 32 ≤ b ∧ b ≠ quote ∧ b ≠ 92 := by decide) : JsonChar := .plain b h

/-- An answer about message 17 and document `AAA` in the directory `/`. -/
def replyAbout (name : List JsonChar) (thumbnail : Option Thumbnail) : UploadReply where
  messageId := text "17"
  messageFields := []
  name := name
  nameFields := [⟨text "\"mime_type\":\"text/plain\"", by decide⟩]
  thumbnail := thumbnail
  documentFields := []
  fileId := text "AAA"
  otherFields := []
  caption := [letter 47]
  digits := by decide +kernel
  simple := by decide

/-- The thumbnail `TTT`. -/
def sampleThumbnail : Thumbnail := ⟨[], text "TTT", [], by decide⟩

/-- The names `a` and `file_id`. -/
def shortName : List JsonChar := [letter 97]
def keyName : List JsonChar :=
  [letter 102, letter 105, letter 108, letter 101, letter 95, letter 105, letter 100]

/-- The first upload of a file whose name is harmless. -/
theorem upload_ids_exact_iff_sample :
    ∃ s f, s.storage.live[1]? = some f ∧ f.pathStr = text "/a" ∧
      StoresIds blankConfig s 1 f (bufferNew fun _ => 0) (.whole (replyAbout shortName none).body)
        (text "17") (text "AAA") := by
  obtain ⟨s₀, evs, s, h0, ⟨f, hf, hpath, hfits⟩, hrun⟩ := pathRun_of_runFromMain
    [(.create (text "/a"), [])]
    (fun _ s => ∃ f ∈ s.storage.live[1]?, f.pathStr = text "/a" ∧
      (replyAbout shortName none).body.length ≤ jsonResponseBufSize ∧
      f.messageId.bytes[2]? = some 0)
    (by decide +kernel)
  refine ⟨s, f, hf, hpath, (upload_ids_exact_iff h0 hrun hf
    (replyAbout shortName none)).mpr ⟨⟨hfits.1, by decide, fun _ => hfits.2⟩, ?_⟩⟩
  exact Or.inl ⟨by decide, fun t ht => nomatch ht⟩

instance (f : TgFile) (r : UploadReply) : Decidable (Fits f r) :=
  inferInstanceAs (Decidable (r.body.length ≤ jsonResponseBufSize ∧ r.fileId.length < fieldSize ∧
    (f.fileIdStr.length = 0 → f.messageId.bytes[r.messageId.length]? = some 0)))

/-- The file id that the answer leaves in the entry. -/
def stored (f : TgFile) (r : UploadReply) (buf : CharArray jsonResponseBufSize) : Option Id := do
  let b ← receiveJson (.whole r.body) buf
  let g ← afterPut f (.whole r.body) b.bytes
  some g.fileId.str

/-- A thumbnail, or a file called `file_id`, makes another id of it. -/
theorem names_change_stored_ids :
    ∃ s₀ evs s f, Initial s₀ ∧ Run (PathStep blankConfig) s₀ evs s ∧
      s.storage.live[1]? = some f ∧ f.pathStr = text "/file_id" ∧
      ∀ r ∈ [replyAbout shortName (some sampleThumbnail), replyAbout keyName none], Fits f r ∧
        ¬ StoresIds blankConfig s 1 f (bufferNew fun _ => 0) (.whole r.body) r.messageId
          r.fileId := by
  obtain ⟨s₀, evs, s, h0, ⟨f, hf, hpath, hall⟩, hrun⟩ := pathRun_of_runFromMain
    [(.create (text "/file_id"), [])]
    (fun _ s => ∃ f ∈ s.storage.live[1]?, f.pathStr = text "/file_id" ∧
      ∀ r ∈ [replyAbout shortName (some sampleThumbnail), replyAbout keyName none],
        Fits f r ∧ stored f r s.jsonResponseBuf ≠ some r.fileId)
    (by decide +kernel)
  refine ⟨s₀, evs, s, f, h0, hrun, hf, hpath, fun r hr => ?_⟩
  obtain ⟨hfits, hno⟩ := hall r hr
  refine ⟨hfits, fun hstored => ?_⟩
  obtain ⟨b, g, hb, hg, hold, -⟩ :=
    (storesIds_iff_afterPut (reachable_wf h0 hrun).1 hf).mp hstored
  simp only [stored, hb, hg, Option.bind_eq_bind, Option.bind_some] at hno
  exact hno (congrArg some hold.2)

end Stored

end TgFuse

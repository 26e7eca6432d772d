/-
  TgFuse.Spec.Telegram

  The other side of the requests: a channel that holds messages with documents,
  and what its server answers.

  * `Response.Ok` / `.Refused` / `.Lost` / `.Carries` — what the program finds in
    `json_response_buf` after a response, whatever was in there before.
  * `Channel` — the messages of the channel, the documents file ids stand for,
    and the files that `getFile` has made available for download.
  * `Serves` — a request that succeeds.  Which ids an upload may be given is left
    to the parameters `okMessage` and `okFile`.
  * `Fails` — a request that does not: refused by the server, or lost on the way.
-/

import Mathlib.Logic.Function.Basic
import TgFuse.Model.TgApi

namespace TgFuse

open CString

-- ============================================================================
-- Responses
-- ============================================================================

namespace Response

/-- Received into `json_response_buf`, the response leaves a content with `P`,
    whatever the buffer held before. -/
def Delivers (r : Response) (P : List UInt8 → Prop) : Prop :=
  ∀ buf, ∃ buf', receiveJson r buf = some buf' ∧ P buf'.bytes

/-- The request went through. -/
def Ok (r : Response) : Prop :=
  r.code = curleOk ∧ r.Delivers fun buf => checkOkStatusInJson buf = some true

/-- The server answered `ok:false`. -/
def Refused (r : Response) : Prop :=
  r.code = curleOk ∧ r.Delivers fun buf => checkOkStatusInJson buf = some false

/-- A transport error, after anything that fits has been received. -/
def Lost (r : Response) : Prop := r.code ≠ curleOk ∧ r.Delivers fun _ => True

/-- The response does not break off the program: it fits the buffer and, unless the
    transfer failed, it has a status field. -/
def Settled (r : Response) : Prop :=
  r.Delivers fun buf => r.code = curleOk → checkOkStatusInJson buf ≠ none

/-- What can become of a request whose answer goes into `json_response_buf`. -/
def Outcome (r : Response) : Prop := r.Ok ∨ r.Refused ∨ r.Lost

/-- The value under `key` is extracted exactly. -/
def Carries (r : Response) (key value : List UInt8) : Prop :=
  r.Delivers fun buf => ∀ dst : List UInt8, value.length ≤ dst.length →
    parseResponseFieldFromJson dst buf key = some (0, value ++ dst.drop value.length)

variable {r : Response} {P : List UInt8 → Prop}

/-- What a response delivers holds of the buffer it has been received into. -/
theorem Delivers.of_receive (h : r.Delivers P) {buf buf' : CharArray jsonResponseBufSize}
    (hr : receiveJson r buf = some buf') : P buf'.bytes := by
  obtain ⟨b, hb, hP⟩ := h buf
  rw [hr] at hb
  cases hb
  exact hP

theorem Ok.check_eq (h : r.Ok) {buf buf' : CharArray jsonResponseBufSize}
    (hr : receiveJson r buf = some buf') : checkOkStatusInJson buf'.bytes = some true :=
  h.2.of_receive hr

theorem Refused.check_eq (h : r.Refused) {buf buf' : CharArray jsonResponseBufSize}
    (hr : receiveJson r buf = some buf') : checkOkStatusInJson buf'.bytes = some false :=
  h.2.of_receive hr

theorem Delivers.mono {Q : List UInt8 → Prop} (h : r.Delivers P) (hPQ : ∀ buf, P buf → Q buf) :
    r.Delivers Q := fun buf =>
  let ⟨buf', hr, hP⟩ := h buf
  ⟨buf', hr, hPQ _ hP⟩

theorem Ok.settled (h : r.Ok) : r.Settled :=
  h.2.mono fun _ hok _ hnone => by rw [hnone] at hok; cases hok

theorem Refused.settled (h : r.Refused) : r.Settled :=
  h.2.mono fun _ hok _ hnone => by rw [hnone] at hok; cases hok

theorem Lost.settled (h : r.Lost) : r.Settled := h.2.mono fun _ _ hok => absurd hok h.1

theorem Outcome.settled (h : r.Outcome) : r.Settled :=
  h.elim Ok.settled fun h => h.elim Refused.settled Lost.settled

theorem Outcome.received (h : r.Outcome) (buf : CharArray jsonResponseBufSize) :
    ∃ b, receiveJson r buf = some b := by
  obtain ⟨b, hb, -⟩ := h.settled buf
  exact ⟨b, hb⟩

theorem Ok.not_refused (h : r.Ok) : ¬ r.Refused := by
  intro h'
  obtain ⟨b, hb, hok⟩ := h.2 .zeros
  rw [h'.check_eq hb] at hok
  cases hok

end Response

-- ============================================================================
-- The channel
-- ============================================================================

/-- Message ids, file ids and file paths, as text. -/
abbrev Id := List UInt8

/-- A text that can be an id: not empty, and short enough for its array. -/
structure IsId (v : Id) : Prop where
  ne_nil : v ≠ []
  noNul : 0 ∉ v
  length_le : v.length ≤ 99

theorem isId_iff {v : Id} : IsId v ↔ v ≠ [] ∧ 0 ∉ v ∧ v.length ≤ 99 :=
  ⟨fun h => ⟨h.1, h.2, h.3⟩, fun ⟨h₁, h₂, h₃⟩ => ⟨h₁, h₂, h₃⟩⟩

instance (v : Id) : Decidable (IsId v) := decidable_of_iff _ isId_iff.symm

/-- A message of the channel. -/
structure Posted where
  fileId : Id
  document : List UInt8
deriving DecidableEq

/-- The channel and the files of the bot. -/
structure Channel where
  /-- The live messages, by message id. -/
  messages : Id → Option Posted
  /-- The bytes last uploaded under a file id. -/
  documents : Id → Option (List UInt8)
  /-- The file id a file path was handed out for. -/
  files : List UInt8 → Option Id
  /-- The message ids given so far. -/
  issued : List Id

namespace Channel

/-- A channel nothing has been sent to. -/
def empty : Channel := ⟨fun _ => none, fun _ => none, fun _ => none, []⟩

/-- A new message. -/
def post (ch : Channel) (mid fid : Id) (document : List UInt8) : Channel :=
  { ch with
    messages := Function.update ch.messages mid (some ⟨fid, document⟩)
    documents := Function.update ch.documents fid (some document)
    issued := mid :: ch.issued }

/-- Another document for the message, if it exists. -/
def edit (ch : Channel) (mid fid : Id) (document : List UInt8) : Channel :=
  { ch with
    messages := Function.update ch.messages mid
      ((ch.messages mid).map fun _ => ⟨fid, document⟩)
    documents := Function.update ch.documents fid (some document) }

/-- A file path handed out. -/
def locate (ch : Channel) (path : List UInt8) (fid : Id) : Channel :=
  { ch with files := Function.update ch.files path (some fid) }

/-- The message is gone. -/
def remove (ch : Channel) (mid : Id) : Channel :=
  { ch with messages := Function.update ch.messages mid none }

/-- A message id that was never given. -/
def FreshMessage (ch : Channel) (mid : Id) : Prop := mid ∉ ch.issued

/-- A file id nothing was uploaded under. -/
def FreshFile (ch : Channel) (fid : Id) : Prop := ch.documents fid = none

/-- Any id. -/
def AnyId (_ : Channel) (_ : Id) : Prop := True

section Updates

variable (ch : Channel) (mid fid : Id) (document path : List UInt8)

@[simp] theorem post_messages : (ch.post mid fid document).messages
    = Function.update ch.messages mid (some ⟨fid, document⟩) := rfl
@[simp] theorem post_documents : (ch.post mid fid document).documents
    = Function.update ch.documents fid (some document) := rfl
@[simp] theorem post_issued : (ch.post mid fid document).issued = mid :: ch.issued := rfl
@[simp] theorem edit_messages : (ch.edit mid fid document).messages
    = Function.update ch.messages mid ((ch.messages mid).map fun _ => ⟨fid, document⟩) := rfl
@[simp] theorem edit_documents : (ch.edit mid fid document).documents
    = Function.update ch.documents fid (some document) := rfl
@[simp] theorem edit_issued : (ch.edit mid fid document).issued = ch.issued := rfl
@[simp] theorem locate_messages : (ch.locate path fid).messages = ch.messages := rfl
@[simp] theorem locate_documents : (ch.locate path fid).documents = ch.documents := rfl
@[simp] theorem locate_issued : (ch.locate path fid).issued = ch.issued := rfl

end Updates

end Channel

-- ============================================================================
-- The server
-- ============================================================================

/-- A request succeeds; the answer carries the ids it is about. -/
inductive Serves (okMessage okFile : Channel → Id → Prop) :
    Channel → Request → Response → Channel → Prop
  | sent {ch : Channel} {config : TgConfig} {caption filename document : List UInt8}
      {mid fid : Id} {r : Response} :
      IsId mid → IsId fid → okMessage ch mid → okFile ch fid →
      r.Ok → r.Carries (text "message_id") mid → r.Carries (text "file_id") fid →
      Serves okMessage okFile ch (.sendDocument config caption filename document) r
        (ch.post mid fid document)
  | edited {ch : Channel} {config : TgConfig} {mid caption filename document : List UInt8}
      {fid : Id} {r : Response} :
      IsId fid → okFile ch fid → r.Ok → r.Carries (text "file_id") fid →
      Serves okMessage okFile ch (.editMessageMedia config mid caption filename document) r
        (ch.edit mid fid document)
  | located {ch : Channel} {config : TgConfig} {fid path document : List UInt8} {r : Response} :
      ch.documents fid = some document → IsId path →
      ch.files path = none ∨ ch.files path = some fid →
      r.Ok → r.Carries (text "file_path") path →
      Serves okMessage okFile ch (.getFile config fid) r (ch.locate path fid)
  | downloaded {ch : Channel} {config : TgConfig} {path fid document : List UInt8}
      {r : Response} :
      ch.files path = some fid → ch.documents fid = some document →
      r.code = curleOk → r.chunks.flatten = document →
      Serves okMessage okFile ch (.download config path) r ch
  | deleted {ch : Channel} {config : TgConfig} {mid : Id} {r : Response} :
      r.Ok → Serves okMessage okFile ch (.deleteMessage config mid) r (ch.remove mid)

section Served

variable {okMessage okFile : Channel → Id → Prop} {ch ch' : Channel} {config : TgConfig}
  {caption filename document path : List UInt8} {mid fid : Id} {r : Response}

theorem Serves.of_sendDocument
    (h : Serves okMessage okFile ch (.sendDocument config caption filename document) r ch') :
    ∃ mid fid, IsId mid ∧ IsId fid ∧ okMessage ch mid ∧ okFile ch fid ∧ r.Ok ∧
      r.Carries (text "message_id") mid ∧ r.Carries (text "file_id") fid ∧
      ch' = ch.post mid fid document := by
  cases h with
  | sent hmid hfid hm hf hok hcm hcf => exact ⟨_, _, hmid, hfid, hm, hf, hok, hcm, hcf, rfl⟩

theorem Serves.of_editMessageMedia
    (h : Serves okMessage okFile ch
      (.editMessageMedia config mid caption filename document) r ch') :
    ∃ fid, IsId fid ∧ okFile ch fid ∧ r.Ok ∧ r.Carries (text "file_id") fid ∧
      ch' = ch.edit mid fid document := by
  cases h with
  | edited hfid hf hok hcf => exact ⟨_, hfid, hf, hok, hcf, rfl⟩

theorem Serves.of_getFile (h : Serves okMessage okFile ch (.getFile config fid) r ch') :
    ∃ path document, ch.documents fid = some document ∧ IsId path ∧
      (ch.files path = none ∨ ch.files path = some fid) ∧ r.Ok ∧
      r.Carries (text "file_path") path ∧ ch' = ch.locate path fid := by
  cases h with
  | located hdoc hid hfile hok hcar => exact ⟨_, _, hdoc, hid, hfile, hok, hcar, rfl⟩

theorem Serves.of_download (h : Serves okMessage okFile ch (.download config path) r ch') :
    ∃ fid document, ch.files path = some fid ∧ ch.documents fid = some document ∧
      r.code = curleOk ∧ r.chunks.flatten = document ∧ ch' = ch := by
  cases h with
  | downloaded hfile hdoc hcode hflat => exact ⟨_, _, hfile, hdoc, hcode, hflat, rfl⟩

theorem Serves.of_deleteMessage (h : Serves okMessage okFile ch (.deleteMessage config mid) r ch') :
    r.Ok ∧ ch' = ch.remove mid := by
  cases h with
  | deleted hok => exact ⟨hok, rfl⟩

end Served

/-- A request fails.  One that is lost may have been carried out all the same:
    then only its answer did not arrive. -/
inductive Fails (okMessage okFile : Channel → Id → Prop) :
    Channel → Request → Response → Channel → Prop
  | refused {ch : Channel} {q : Request} {r : Response} :
      (∀ config path, q ≠ .download config path) → r.Refused → Fails okMessage okFile ch q r ch
  | lost {ch : Channel} {q : Request} {r : Response} :
      (∀ config path, q ≠ .download config path) → r.Lost → Fails okMessage okFile ch q r ch
  | lostAnswer {ch ch' : Channel} {q : Request} {r r' : Response} :
      (∀ config path, q ≠ .download config path) → r.Lost →
      Serves okMessage okFile ch q r' ch' → Fails okMessage okFile ch q r ch'
  | brokenOff {ch : Channel} {config : TgConfig} {path fid document : List UInt8}
      {r : Response} :
      ch.files path = some fid → ch.documents fid = some document →
      r.code ≠ curleOk → r.chunks.flatten <+: document →
      Fails okMessage okFile ch (.download config path) r ch

/-- A request succeeds or fails. -/
def Answers (okMessage okFile : Channel → Id → Prop) (ch : Channel) (q : Request)
    (r : Response) (ch' : Channel) : Prop :=
  Serves okMessage okFile ch q r ch' ∨ Fails okMessage okFile ch q r ch'

section Answered

variable {okMessage okFile : Channel → Id → Prop} {ch ch' : Channel} {q : Request} {r : Response}

/-- A request that does not succeed is refused or lost, unless it is a download. -/
theorem Fails.refused_or_lost (hq : ∀ config path, q ≠ .download config path)
    (h : Fails okMessage okFile ch q r ch') : r.Refused ∨ r.Lost := by
  cases h with
  | refused _ hr => exact Or.inl hr
  | lost _ hr | lostAnswer _ hr _ => exact Or.inr hr
  | brokenOff => exact absurd rfl (hq _ _)

/-- A request that fails leaves the channel alone, unless only its answer is lost. -/
theorem Fails.channel_eq_or (h : Fails okMessage okFile ch q r ch') :
    ch' = ch ∨ (r.Lost ∧ ∃ r', Serves okMessage okFile ch q r' ch') := by
  cases h with
  | refused | lost | brokenOff => exact Or.inl rfl
  | lostAnswer _ hr hs => exact Or.inr ⟨hr, _, hs⟩

theorem Serves.ok (hq : ∀ config path, q ≠ .download config path)
    (h : Serves okMessage okFile ch q r ch') : r.Ok := by
  cases h with
  | sent _ _ _ _ hok _ _ | edited _ _ hok _ | located _ _ _ hok _ | deleted hok => exact hok
  | downloaded => exact absurd rfl (hq _ _)

theorem Answers.outcome (hq : ∀ config path, q ≠ .download config path)
    (h : Answers okMessage okFile ch q r ch') : r.Outcome :=
  h.elim (fun hs => Or.inl (hs.ok hq)) fun hf => Or.inr (hf.refused_or_lost hq)

end Answered

end TgFuse

/-
  TgFuse.Spec.Identity

  Whose ids an entry holds, when any request may fail.

  `tg_put_file` looks at the transfer code after `editMessageMedia`, but not
  after `sendDocument`: when that breaks off, the answer to an earlier request is
  still in `json_response_buf`, and if it said ok its ids are taken.
-/

import TgFuse.Spec.Answers
import TgFuse.Spec.Served
import TgFuse.Spec.Uniqueness

namespace TgFuse

open CString Interact KeyedList Lts

-- ============================================================================
-- The property
-- ============================================================================

/-- The answers to the uploads among the requests. -/
def uploadAnswers (log : List (Request × Response)) : List Response :=
  log.filterMap fun e =>
    match e.1 with
    | .sendDocument .. | .editMessageMedia .. => some e.2
    | _ => none

/-- The answers to the uploads for the entry of `p` after one more call; those for an
    earlier entry of this path do not count. -/
def answersAfter (p : List UInt8) (rs : List Response) (ev : Event) : List Response :=
  match ev.call with
  | .create q | .mkdir q => if q = p then [] else rs
  | .write q _ _ => if q = p then rs ++ uploadAnswers ev.log else rs
  | _ => rs

/-- The answers to the uploads for the entry of `p`. -/
def answersFor (p : List UInt8) (evs : List Event) : List Response :=
  evs.foldl (answersAfter p) []

/-- `v` was returned under `key` in answer to an upload for the entry of `p`. -/
def ReturnedFor (evs : List Event) (p : List UInt8) (key : String) (v : Id) : Prop :=
  ∃ r ∈ answersFor p evs, r.Ok ∧ r.Carries (text key) v

/-- The ids of an entry were returned for it. -/
def HoldsOwn (evs : List Event) (f : TgFile) : Prop :=
  (f.fileIdStr ≠ [] → ReturnedFor evs f.pathStr "file_id" f.fileIdStr) ∧
    (f.messageIdStr ≠ [] → ReturnedFor evs f.pathStr "message_id" f.messageIdStr)

/-- All entries hold ids of their own, and an unlink deletes the message of the entry
    it removes and of no other. -/
structure IdsOwn (config : TgConfig) (evs : List Event) (s : Statics) : Prop where
  own : ∀ f ∈ s.storage.live, HoldsOwn evs f
  distinct : ∀ (i j : Nat) (f g : TgFile), s.storage.live[i]? = some f →
    s.storage.live[j]? = some g → f.messageIdStr ≠ [] → f.messageIdStr = g.messageIdStr → i = j
  unlinks : ∀ p log reply s', Step config s ⟨.unlink p, log, reply⟩ s' →
    ∀ mid ∈ deletedIds log, mid ≠ [] → ReturnedFor evs p "message_id" mid ∧
      ∀ f ∈ s.storage.live, f.messageIdStr = mid → f.pathStr = p

/-- A call that libfuse makes; each request succeeds or fails, and a new message has an
    id that no message had. -/
def IdStep (config : TgConfig) (w : World) (ev : Event) (w' : World) : Prop :=
  ValidPath ev.call.path ∧ KernelCall w.statics.storage ev.call ∧
    WorldStep (Answers Channel.FreshMessage Channel.AnyId) config w ev w'

/-- `sendDocument` broke off, and what stands in the buffer says ok. -/
def StaleOk (buf : CharArray jsonResponseBufSize) (log : List (Request × Response)) : Prop :=
  ∃ before config caption filename document r b,
    log = before ++ [(.sendDocument config caption filename document, r)] ∧ r.code ≠ curleOk ∧
      jsonAfter buf log = some b ∧ checkOkStatusInJson b.bytes = some true

/-- A call in which that does not happen. -/
def OwnStep (config : TgConfig) (w : World) (ev : Event) (w' : World) : Prop :=
  IdStep config w ev w' ∧ ¬ StaleOk w.statics.jsonResponseBuf ev.log

-- ============================================================================
-- The history of answers
-- ============================================================================

section History

variable {evs : List Event} {ev : Event} {p : List UInt8} {key : String} {v : Id} {f g : TgFile}

theorem answersFor_snoc (p : List UInt8) (evs : List Event) (ev : Event) :
    answersFor p (evs ++ [ev]) = answersAfter p (answersFor p evs) ev := by
  rw [answersFor, List.foldl_append]
  rfl

/-- An answer is kept until the path is made anew. -/
theorem ReturnedFor.snoc (h : ReturnedFor evs p key v) (hcreate : ev.call ≠ .create p)
    (hmkdir : ev.call ≠ .mkdir p) : ReturnedFor (evs ++ [ev]) p key v := by
  obtain ⟨r, hr, hok⟩ := h
  refine ⟨r, ?_, hok⟩
  rw [answersFor_snoc]
  unfold answersAfter
  split
  · next q hq =>
    have hne : q ≠ p := fun he => hcreate (by rw [hq, he])
    rw [if_neg hne]
    exact hr
  · next q hq =>
    have hne : q ≠ p := fun he => hmkdir (by rw [hq, he])
    rw [if_neg hne]
    exact hr
  · split
    · exact List.mem_append_left _ hr
    · exact hr
  · exact hr

/-- The answers of a write are for its path. -/
theorem returnedFor_write {buf : List UInt8} {offset : Int} {r : Response}
    (hcall : ev.call = .write p buf offset) (hr : r ∈ uploadAnswers ev.log) (hok : r.Ok)
    (hcar : r.Carries (text key) v) : ReturnedFor (evs ++ [ev]) p key v := by
  refine ⟨r, ?_, hok, hcar⟩
  rw [answersFor_snoc, answersAfter, hcall]
  show r ∈ if p = p then answersFor p evs ++ uploadAnswers ev.log else _
  rw [if_pos rfl]
  exact List.mem_append_right _ hr

theorem HoldsOwn.snoc (h : HoldsOwn evs f) (hcreate : ev.call ≠ .create f.pathStr)
    (hmkdir : ev.call ≠ .mkdir f.pathStr) : HoldsOwn (evs ++ [ev]) f :=
  ⟨fun hne => (h.1 hne).snoc hcreate hmkdir, fun hne => (h.2 hne).snoc hcreate hmkdir⟩

/-- An entry without ids holds none of anyone's. -/
theorem holdsOwn_of_zeros (hf : f.fileId = .zeros) (hm : f.messageId = .zeros) :
    HoldsOwn evs f := by
  refine ⟨fun hne => absurd (fileIdStr_of_zeros hf) hne, fun hne => absurd ?_ hne⟩
  rw [TgFile.messageIdStr, hm]
  exact CharArray.str_zeros

end History

-- ============================================================================
-- Uploads
-- ============================================================================

section Uploads

variable {okMessage okFile : Channel → Id → Prop} {config : TgConfig} {ch ch' : Channel}
  {q : Request} {r : Response} {log : List (Request × Response)} {f g : TgFile}
  {buf b : CharArray jsonResponseBufSize}

/-- Message ids are never taken back. -/
theorem Answers.issued_subset (h : Answers okMessage okFile ch q r ch') :
    ch.issued ⊆ ch'.issued := by
  have hserves : ∀ {r' : Response},
      Serves okMessage okFile ch q r' ch' → ch.issued ⊆ ch'.issued := by
    intro r' hs
    cases hs with
    | sent => exact List.subset_cons_self ..
    | edited | located | downloaded | deleted => exact List.Subset.refl _
  rcases h with hs | hf
  · exact hserves hs
  · cases hf with
    | refused | lost | brokenOff => exact List.Subset.refl _
    | lostAnswer _ _ hs => exact hserves hs

theorem issued_subset (h : Serve (Answers okMessage okFile) ch log ch') :
    ch.issued ⊆ ch'.issued := by
  refine h.invariant (P := fun d => ch.issued ⊆ d.issued) ?_ (List.Subset.refl _)
  intro c q r d hc hd
  exact List.Subset.trans hc hd.issued_subset

/-- What an upload makes of its entry, however it is answered: nothing, or the ids
    that were returned for it. -/
inductive Reissued (okMessage : Channel → Id → Prop) (ch ch' : Channel) (f : TgFile)
    (r : Response) :
    TgFile → Prop
  | kept : Reissued okMessage ch ch' f r f
  | sent {mid fid : Id} :
      IsId mid → IsId fid → okMessage ch mid → mid ∈ ch'.issued →
      r.Ok → r.Carries (text "message_id") mid → r.Carries (text "file_id") fid →
      Reissued okMessage ch ch' f r (f.sent fid mid)
  | edited {fid : Id} :
      IsId fid → f.fileIdStr ≠ [] → r.Ok → r.Carries (text "file_id") fid →
      Reissued okMessage ch ch' f r (f.edited fid)

theorem Reissued.path_eq (h : Reissued okMessage ch ch' f r g) : g.path = f.path := by
  cases h with
  | kept | sent | edited => rfl

/-- The message id of the entry stays, or is one that was given just now. -/
theorem Reissued.messageId (h : Reissued okMessage ch ch' f r g) :
    g.messageIdStr = f.messageIdStr ∨
      (okMessage ch g.messageIdStr ∧ g.messageIdStr ∈ ch'.issued) := by
  cases h with
  | kept => exact Or.inl rfl
  | edited => exact Or.inl rfl
  | sent hm _ hfresh hin _ _ _ =>
      rw [sent_messageIdStr f _ hm]
      exact Or.inr ⟨hfresh, hin⟩

theorem Reissued.blank (h : Reissued okMessage ch ch' f r g) (hblank : f.Blank) : g.Blank := by
  cases h with
  | kept => exact hblank
  | sent _ hfid _ _ _ _ _ =>
      intro hnil
      rw [sent_fileIdStr f _ hfid] at hnil
      exact absurd hnil hfid.ne_nil
  | edited hfid _ _ _ =>
      intro hnil
      rw [edited_fileIdStr f hfid] at hnil
      exact absurd hnil hfid.ne_nil

/-- An id that the entry did not have before is one that the answer carries. -/
theorem Reissued.carried (h : Reissued okMessage ch ch' f r g) :
    (g.fileIdStr = f.fileIdStr ∨ (r.Ok ∧ r.Carries (text "file_id") g.fileIdStr)) ∧
      (g.messageIdStr = f.messageIdStr ∨
        (r.Ok ∧ r.Carries (text "message_id") g.messageIdStr)) := by
  cases h with
  | kept => exact ⟨Or.inl rfl, Or.inl rfl⟩
  | sent hm hfid _ _ hok hcm hcf =>
      rw [sent_fileIdStr f _ hfid, sent_messageIdStr f _ hm]
      exact ⟨Or.inr ⟨hok, hcf⟩, Or.inr ⟨hok, hcm⟩⟩
  | edited hfid _ hok hcf =>
      rw [edited_fileIdStr f hfid]
      exact ⟨Or.inr ⟨hok, hcf⟩, Or.inl rfl⟩

/-- An answer without the status leaves the entry as it is. -/
theorem eq_of_not_ok {buf : List UInt8} {k : Bool → Option TgFile}
    (hno : checkOkStatusInJson buf ≠ some true) (hk : k false = some f)
    (h : (checkOkStatusInJson buf).bind k = some g) : g = f := by
  obtain ⟨ok, hok, h⟩ := Option.bind_eq_some_iff.mp h
  cases ok with
  | true => exact absurd hok hno
  | false => exact Option.some.inj (h.symm.trans hk)

/-- An upload whose answer is not mixed up with an older one. -/
theorem reissued_of_serve {caption filename document : List UInt8} (hblank : f.Blank)
    (hb : receiveJson r buf = some b) (hafter : afterPut f r b.bytes = some g)
    (hs : Answers okMessage okFile ch (putRequest config f caption filename document) r ch')
    (hno : f.fileIdStr = [] → r.code ≠ curleOk → checkOkStatusInJson b.bytes ≠ some true) :
    Reissued okMessage ch ch' f r g := by
  rcases hs with hs | hf
  · unfold putRequest at hs
    unfold afterPut at hafter
    by_cases hid : f.fileIdStr.length = 0
    · rw [if_pos hid] at hs hafter
      obtain ⟨mid, fid, hmid, hfid, hm, -, hok, hcm, hcf, rfl⟩ := hs.of_sendDocument
      obtain ⟨hz, hmz⟩ := hblank (List.eq_nil_of_length_eq_zero hid)
      rw [afterSend_of_ok hz hmz hok hfid hmid hcf hcm hb] at hafter
      cases hafter
      exact .sent hmid hfid hm (List.mem_cons_self ..) hok hcm hcf
    · rw [if_neg hid] at hs hafter
      obtain ⟨fid, hfid, -, hok, hcf, rfl⟩ := hs.of_editMessageMedia
      rw [if_neg (fun h => h hok.1), afterEdit_of_ok hok hfid hcf hb] at hafter
      cases hafter
      exact .edited hfid (fun h => hid (by rw [h]; rfl)) hok hcf
  · have hfails := hf.refused_or_lost (putRequest_json config f caption filename document)
    have hkept : g = f := by
      unfold afterPut at hafter
      by_cases hid : f.fileIdStr.length = 0
      · rw [if_pos hid] at hafter
        refine eq_of_not_ok ?_ rfl hafter
        rcases hfails with hr | hr
        · rw [hr.check_eq hb]
          exact fun h => nomatch h
        · exact hno (List.eq_nil_of_length_eq_zero hid) hr.1
      · rw [if_neg hid] at hafter
        -- here a lost answer ends the program
        split at hafter
        · cases hafter
        · next hcode =>
          refine eq_of_not_ok ?_ rfl hafter
          rcases hfails with hr | hr
          · rw [hr.check_eq hb]
            exact fun h => nomatch h
          · exact absurd hr.1 hcode
    rw [hkept]
    exact .kept

/-- The upload of a write that does not take an old answer for its own. -/
theorem WroteFile.reissued {heap : Heap} {s s' : Statics} {data : List UInt8} {offset : Int}
    {i : Nat} {loadLog : List (Request × Response)} {b₀ : CharArray jsonResponseBufSize}
    {old new : Buffer}
    (hw : WroteFile heap config s data offset i f log s' loadLog b₀ b old new r g)
    (hblank : f.Blank) (hs : Serve (Answers okMessage okFile) ch log ch')
    (hno : ¬ StaleOk s.jsonResponseBuf log) :
    r ∈ uploadAnswers log ∧ ch.issued ⊆ ch'.issued ∧
      ∃ ch₁, ch.issued ⊆ ch₁.issued ∧ Reissued okMessage ch₁ ch' f r g := by
  have hall := issued_subset hs
  have hjson : jsonAfter s.jsonResponseBuf log = some b := by
    rw [hw.log_eq]
    exact hw.obtained.jsonAfter_upload hw.received ..
  rw [hw.log_eq, serve_snoc] at hs
  obtain ⟨ch₁, hload, hd⟩ := hs
  refine ⟨?_, hall, ch₁, issued_subset hload, reissued_of_serve hblank hw.received hw.after hd ?_⟩
  · rw [hw.log_eq, uploadAnswers, List.filterMap_append, putRequest]
    apply List.mem_append_right
    split <;> exact List.mem_singleton_self r
  · intro hnil hcode hok
    refine hno ⟨loadLog, config, dirOf f.pathStr, baseOf f.pathStr, new.contents, r, b, ?_, hcode,
      hjson, hok⟩
    rw [hw.log_eq, putRequest, if_pos (by rw [hnil]; rfl)]

end Uploads

-- ============================================================================
-- Runs
-- ============================================================================

section Runs

variable {config : TgConfig} {st st' : TgStorage} {call : Call} {ret : Int} {evs : List Event}
  {ev : Event} {w₀ w w' : World} {f g : TgFile}

/-- What every run keeps. -/
structure IdInvariant (evs : List Event) (w : World) : Prop where
  wf : w.statics.storage.Wf
  paths : Distinct TgFile.pathStr w.statics.storage.live
  blank : ∀ f ∈ w.statics.storage.live, f.Blank
  issued : ∀ f ∈ w.statics.storage.live, f.messageIdStr ≠ [] → f.messageIdStr ∈ w.channel.issued
  apart : ∀ f ∈ w.statics.storage.live, ∀ g ∈ w.statics.storage.live, f.messageIdStr ≠ [] →
    f.messageIdStr = g.messageIdStr → f = g
  own : ∀ f ∈ w.statics.storage.live, HoldsOwn evs f

/-- Other calls than writes bring in no ids. -/
theorem TableStep.old_or_blank (hwf : st.Wf) (h : TableStep st call ret st')
    (hno : ∀ p buf o, call ≠ .write p buf o) :
    ∀ f ∈ st'.live, f ∈ st.live ∨ (f.fileId = .zeros ∧ f.messageId = .zeros) := by
  have happ : ∀ {g : TgFile}, st'.live = st.live ++ [g] → g.fileId = .zeros →
      g.messageId = .zeros →
      ∀ f ∈ st'.live, f ∈ st.live ∨ (f.fileId = .zeros ∧ f.messageId = .zeros) := by
    intro g hlive hg hm f hf
    rw [hlive, List.mem_append, List.mem_singleton] at hf
    rcases hf with hf | rfl
    · exact Or.inl hf
    · exact Or.inr ⟨hg, hm⟩
  cases h with
  | query | createDir | unlinkMissing | rmdirOther => exact fun f hf => Or.inl hf
  | create _ _ hlive => exact happ hlive rfl rfl
  | mkdir _ hlive => exact happ hlive rfl rfl
  | writeMissing | writeDir | writeFile => exact absurd rfl (hno _ _ _)
  | unlink _ => exact fun f hf => Or.inl (mem_without hwf.valid hf)
  | rmdir _ _ => exact fun f hf => Or.inl (mem_rmdirTable hwf hf)

/-- The path of an entry is not made a second time. -/
theorem KernelCall.not_made (hk : KernelCall st call) (hf : f ∈ st.live) :
    call ≠ .create f.pathStr ∧ call ≠ .mkdir f.pathStr := by
  have hmade : st.lookup f.pathStr ≠ none := fun hnone => lookup_none.mp hnone f hf rfl
  refine ⟨?_, ?_⟩
  · rintro rfl
    exact hmade hk
  · rintro rfl
    exact hmade hk

/-- A call other than a write. -/
theorem IdInvariant.snoc_of_old (h : IdInvariant evs w) (hwf : w'.statics.storage.Wf)
    (hpaths : Distinct TgFile.pathStr w'.statics.storage.live)
    (hissued : w.channel.issued ⊆ w'.channel.issued) (hk : KernelCall w.statics.storage ev.call)
    (hold : ∀ f ∈ w'.statics.storage.live,
      f ∈ w.statics.storage.live ∨ (f.fileId = .zeros ∧ f.messageId = .zeros)) :
    IdInvariant (evs ++ [ev]) w' := by
  have hid : ∀ f ∈ w'.statics.storage.live, f.messageIdStr ≠ [] → f ∈ w.statics.storage.live := by
    intro f hf hne
    refine (hold f hf).resolve_right fun hz => hne ?_
    rw [TgFile.messageIdStr, hz.2]
    exact CharArray.str_zeros
  refine ⟨hwf, hpaths, ?_, ?_, ?_, ?_⟩
  · intro f hf
    rcases hold f hf with hf | hz
    · exact h.blank f hf
    · exact fun _ => hz
  · exact fun f hf hne => hissued (h.issued f (hid f hf hne) hne)
  · exact fun f hf g hg hne heq => h.apart f (hid f hf hne) g (hid g hg (heq ▸ hne)) hne heq
  · intro f hf
    rcases hold f hf with hf | hz
    · obtain ⟨hcreate, hmkdir⟩ := hk.not_made hf
      exact (h.own f hf).snoc hcreate hmkdir
    · exact holdsOwn_of_zeros hz.1 hz.2

/-- A write of an entry. -/
theorem IdInvariant.snoc_write {p buf : List UInt8} {offset : Int} {i : Nat} {r : Response}
    {ch₁ : Channel} {data : Buffer} (h : IdInvariant evs w) (hwf : w'.statics.storage.Wf)
    (hpaths : Distinct TgFile.pathStr w'.statics.storage.live)
    (hissued : w.channel.issued ⊆ w'.channel.issued) (hcall : ev.call = .write p buf offset)
    (hf : w.statics.storage.live[i]? = some f) (hp : f.pathStr = p)
    (hst : w'.statics.storage.live = w.statics.storage.live.set i (written g data))
    (hr : r ∈ uploadAnswers ev.log) (hch₁ : w.channel.issued ⊆ ch₁.issued)
    (hre : Reissued Channel.FreshMessage ch₁ w'.channel f r g) : IdInvariant (evs ++ [ev]) w' := by
  have hfm := List.mem_of_getElem? hf
  have hmem : ∀ x ∈ w'.statics.storage.live,
      x = written g data ∨ (x ∈ w.statics.storage.live ∧ x.pathStr ≠ f.pathStr) := by
    intro x hx
    rw [hst] at hx
    exact (mem_set_iff h.paths hf).mp hx
  have hold : ∀ x ∈ w.statics.storage.live, HoldsOwn (evs ++ [ev]) x := fun x hx =>
    (h.own x hx).snoc (by rw [hcall]; exact Call.noConfusion)
      (by rw [hcall]; exact Call.noConfusion)
  -- the message id of the entry is its old one, or new
  have hmid : (written g data).messageIdStr = f.messageIdStr ∨
      ((written g data).messageIdStr ∉ w.channel.issued ∧
        (written g data).messageIdStr ∈ w'.channel.issued) := by
    rw [written_messageIdStr]
    exact hre.messageId.imp_right fun ⟨hfresh, hin⟩ => ⟨fun hmem => hfresh (hch₁ hmem), hin⟩
  have hother : ∀ x ∈ w.statics.storage.live, x.pathStr ≠ f.pathStr → x.messageIdStr ≠ [] →
      x.messageIdStr ≠ (written g data).messageIdStr := by
    intro x hx hne hxid heq
    rcases hmid with hsame | ⟨hfresh, -⟩
    · exact hne (congrArg TgFile.pathStr (h.apart x hx f hfm hxid (heq.trans hsame)))
    · exact hfresh (heq ▸ h.issued x hx hxid)
  refine ⟨hwf, hpaths, ?_, ?_, ?_, ?_⟩
  · intro x hx
    rcases hmem x hx with rfl | ⟨hx, -⟩
    · exact hre.blank (h.blank f hfm)
    · exact h.blank x hx
  · intro x hx hne
    rcases hmem x hx with rfl | ⟨hx, -⟩
    · rcases hmid with hsame | ⟨-, hin⟩
      · rw [hsame] at hne ⊢
        exact hissued (h.issued f hfm hne)
      · exact hin
    · exact hissued (h.issued x hx hne)
  · intro x hx y hy hne heq
    rcases hmem x hx with rfl | ⟨hx, hxp⟩ <;> rcases hmem y hy with rfl | ⟨hy, hyp⟩
    · rfl
    · exact absurd heq.symm (hother y hy hyp (heq ▸ hne))
    · exact absurd heq (hother x hx hxp hne)
    · exact h.apart x hx y hy hne heq
  · intro x hx
    rcases hmem x hx with rfl | ⟨hx, -⟩
    · have hown := hold f hfm
      have hpath : (written g data).pathStr = f.pathStr :=
        ((h.wf.named f hfm).congr ((written_path g data).trans hre.path_eq)).2
      have hret : ∀ {key : String} {v : Id}, r.Ok ∧ r.Carries (text key) v →
          ReturnedFor (evs ++ [ev]) (written g data).pathStr key v := by
        rintro key v ⟨hok, hcar⟩
        exact returnedFor_write (by rw [hcall, hpath, hp]) hr hok hcar
      obtain ⟨hfile, hmessage⟩ := hre.carried
      constructor
      · rw [written_fileIdStr]
        intro hne
        rcases hfile with hsame | hcar
        · rw [hsame] at hne ⊢
          rw [hpath]
          exact hown.1 hne
        · exact hret hcar
      · rw [written_messageIdStr]
        intro hne
        rcases hmessage with hsame | hcar
        · rw [hsame] at hne ⊢
          rw [hpath]
          exact hown.2 hne
        · exact hret hcar
    · exact hold x hx

theorem idInvariant_nil (h0 : Initial w₀.statics) : IdInvariant [] w₀ := by
  obtain ⟨hwf, hlive, -⟩ := initial_live h0
  have hmem : ∀ f ∈ w₀.statics.storage.live, f = newDir (text "/") := fun f hf => by
    rwa [hlive, List.mem_singleton] at hf
  refine ⟨hwf, ?_, ?_, ?_, ?_, ?_⟩
  · rw [hlive]
    exact List.nodup_singleton _
  · intro f hf _
    rw [hmem f hf]
    exact ⟨rfl, rfl⟩
  · intro f hf hne
    rw [hmem f hf] at hne
    exact absurd (newDir_messageIdStr _) hne
  · intro f hf g hg _ _
    rw [hmem f hf, hmem g hg]
  · intro f hf
    rw [hmem f hf]
    exact holdsOwn_of_zeros rfl rfl

theorem IdInvariant.snoc (h : IdInvariant evs w) (hstep : OwnStep config w ev w') :
    IdInvariant (evs ++ [ev]) w' := by
  obtain ⟨⟨hp, hk, hworld, hs⟩, hno⟩ := hstep
  have htab := step_table h.wf hp hworld
  have hwf := htab.wf h.wf
  have hissued := issued_subset hs
  have hpaths : Distinct TgFile.pathStr w'.statics.storage.live := by
    apply htab.distinct_of_new h.wf h.paths hp
    · intro p hcall f hl
      rw [hcall] at hk
      rw [show _ = none from hk] at hl
      cases hl
    · intro p hcall
      rw [hcall] at hk
      exact hk
  by_cases hwrite : ∃ p buf o, ev.call = .write p buf o
  · obtain ⟨p, buf, o, hcall⟩ := hwrite
    obtain ⟨heap, he⟩ := hworld
    rw [hcall] at he hk hp
    obtain ⟨a, ha, -⟩ := exec_reply.mp he
    obtain ⟨f₀, hl₀, hf₀⟩ := hk
    rcases (exec_helloWrite (p := p) h.wf hp).mp ha with ⟨hl, -⟩ | ⟨f, hl, hd, -⟩ |
      ⟨i, f, hi, hf, -, -, _, _, b, _, data, r, g, hw⟩
    · rw [hl₀] at hl
      cases hl
    · rw [hl₀] at hl
      cases hl
      rw [hf₀] at hd
      cases hd
    · obtain ⟨hr, -, ch₁, hch₁, hre⟩ :=
        hw.reissued (h.blank f (List.mem_of_getElem? hf)) hs hno
      obtain ⟨f', hf', hpath⟩ := tgStorageFindByPath_some hi
      rw [hf] at hf'
      cases hf'
      have hst : w'.statics.storage.live = w.statics.storage.live.set i (written g data) := by
        rw [hw.state_eq]
        exact setSlot_live
      exact h.snoc_write hwf hpaths hissued hcall hf hpath hst hr hch₁ hre
  · refine h.snoc_of_old hwf hpaths hissued hk (htab.old_or_blank h.wf ?_)
    exact fun p buf o hcall => hwrite ⟨p, buf, o, hcall⟩

theorem idInvariant (h0 : Initial w₀.statics) (hrun : Run (OwnStep config) w₀ evs w) :
    IdInvariant evs w :=
  hrun.invariant (P := IdInvariant) (idInvariant_nil h0) fun _ _ _ _ _ h hstep => h.snoc hstep

/-- Unless a `sendDocument` breaks off while an old answer says ok, every entry holds
    ids of its own in every state that a run reaches. -/
theorem ids_are_own (h0 : Initial w₀.statics) (hrun : Run (OwnStep config) w₀ evs w) :
    IdsOwn config evs w.statics := by
  have hinv := idInvariant h0 hrun
  refine ⟨hinv.own, ?_, ?_⟩
  · intro i j f g hi hj hne heq
    obtain rfl := hinv.apart f (List.mem_of_getElem? hi) g (List.mem_of_getElem? hj) hne heq
    exact hinv.paths.index_eq hi hj
  · intro p log reply s' ⟨heap, he⟩ mid hmid hne
    obtain ⟨a, ha, -⟩ := exec_reply.mp he
    rcases (exec_helloUnlink hinv.wf).mp ha with ⟨-, hlog, -⟩ | ⟨f, r, b, hl, hlog, -⟩
    · rw [show log = [] from hlog] at hmid
      cases hmid
    · have hids : deletedIds log = [f.messageIdStr] := by
        rw [show log = _ from hlog]
        rfl
      rw [hids, List.mem_singleton] at hmid
      obtain ⟨hfm, hpath⟩ := lookup_some hl
      rw [hmid, ← hpath]
      refine ⟨(hinv.own f hfm).2 (hmid ▸ hne), fun g hg heq => ?_⟩
      exact congrArg TgFile.pathStr (hinv.apart g hg f hfm (by rw [heq, ← hmid]; exact hne) heq)

/-- Requests that go through leave no room for an old answer. -/
theorem not_staleOk {buf : CharArray jsonResponseBufSize} {log : List (Request × Response)}
    (h : ∀ e ∈ log, e.2.code = curleOk) : ¬ StaleOk buf log := by
  rintro ⟨before, _, _, _, _, r, _, rfl, hcode, -⟩
  exact hcode (h _ (List.mem_append_right _ (List.mem_singleton_self _)))

/-- An upload is refused, the next one is lost, and the third one goes through. -/
theorem ids_are_own_sample :
    ∃ evs s f, IdsOwn blankConfig evs s ∧ s.storage.lookup (text "/a") = some f ∧
      f.messageIdStr = text "17" := by
  obtain ⟨s₀, evs, s, h0, ⟨hlogs, f, hf, hmid⟩, hrun⟩ := run_of_runFromMain
    (fun s call => ValidPath call.path ∧ KernelCall s.storage call)
    [(.create (text "/a"), []),
      (.write (text "/a") (text "x") 0, [refusedAnswer]),
      (.write (text "/a") (text "x") 0, [refusedAnswer, lostAnswer]),
      (.write (text "/a") (text "x") 0, [refusedAnswer, sentAnswer (text "17") (text "AAA")])]
    (fun evs s => evs.map Event.log =
        [[],
          [(.sendDocument blankConfig (text "/") (text "a") (text "x"), refusedAnswer)],
          [(.getFile blankConfig [], refusedAnswer),
            (.sendDocument blankConfig (text "/") (text "a") (text "x"), lostAnswer)],
          [(.getFile blankConfig [], refusedAnswer),
            (.sendDocument blankConfig (text "/") (text "a") (text "x"),
              sentAnswer (text "17") (text "AAA"))]] ∧
      ∃ f ∈ s.storage.lookup (text "/a"), f.messageIdStr = text "17")
    (by decide +kernel)
  have hlog : evs.flatMap Event.log = (evs.map Event.log).flatten := by simp [List.flatMap_def]
  have hrefused : ∀ {ch : Channel} {q : Request}, (∀ config path, q ≠ .download config path) →
      Answers Channel.FreshMessage Channel.AnyId ch q refusedAnswer ch :=
    fun hq => Or.inr (.refused hq refusedAnswer_refused)
  obtain ⟨ch, hserve⟩ : ∃ ch, Serve (Answers Channel.FreshMessage Channel.AnyId) Channel.empty
      (evs.flatMap Event.log) ch := by
    rw [hlog, hlogs]
    refine ⟨_, _, hrefused ?_, _, hrefused ?_, _, Or.inr (.lost ?_ lostAnswer_lost), _,
      hrefused ?_, _, Or.inl (serves_sent (by decide) (by decide) (by decide) ?_ trivial), rfl⟩
    all_goals first | exact fun _ _ => Request.noConfusion | exact List.not_mem_nil
  have hworld := run_world
    (A := fun s ev => decide (ValidPath ev.call.path ∧ KernelCall s.storage ev.call) = true)
    hrun hserve
  have hown : Run (OwnStep blankConfig) ⟨s₀, Channel.empty⟩ evs ⟨s, ch⟩ := by
    refine hworld.mono_of_mem fun w ev w' hev ⟨hcall, hstep⟩ => ?_
    obtain ⟨hp, hk⟩ := of_decide_eq_true hcall
    refine ⟨⟨hp, hk, hstep⟩, ?_⟩
    have hmem := List.mem_map_of_mem (f := Event.log) hev
    rw [hlogs] at hmem
    simp only [List.mem_cons, List.not_mem_nil, or_false] at hmem
    rcases hmem with h | h | h | h <;> rw [h]
    · exact not_staleOk (by simp)
    · exact not_staleOk (by simp [refusedAnswer, Response.whole])
    · -- the upload is lost while the buffer says `ok:false`
      rintro ⟨_, _, _, _, _, _, b, -, -, hb, hok⟩
      have hcheck : (jsonAfter .zeros [(.getFile blankConfig [], refusedAnswer),
          (.sendDocument blankConfig (text "/") (text "a") (text "x"), lostAnswer)]).bind
            (fun b => checkOkStatusInJson b.bytes) = some false := by decide +kernel
      rw [jsonAfter_getFile] at hb
      rw [hb, Option.bind_some, hok] at hcheck
      cases hcheck
    · exact not_staleOk (by simp [refusedAnswer, sentAnswer, Response.whole])
  exact ⟨evs, s, f, ids_are_own h0 hown, hf, hmid⟩

/-- Two files are written; the second upload breaks off, and its entry gets the ids
    of the first. -/
theorem stale_answer_gives_ids_away :
    ∃ w₀ evs w f g, Initial w₀.statics ∧ Run (IdStep blankConfig) w₀ evs w ∧
      w.statics.storage.lookup (text "/a") = some f ∧
      w.statics.storage.lookup (text "/b") = some g ∧
      f.messageIdStr = text "17" ∧ g.messageIdStr = text "17" ∧
      ¬ IdsOwn blankConfig evs w.statics := by
  obtain ⟨s₀, evs, s, h0, ⟨hlog, f, hf, g, hg, hfi, hgi, hfm, hgm⟩, hrun⟩ :=
    run_of_runFromMain
    (fun s call => ValidPath call.path ∧ KernelCall s.storage call)
    [(.create (text "/a"), []),
      (.write (text "/a") (text "x") 0, [sentAnswer (text "17") (text "AAA")]),
      (.create (text "/b"), []),
      (.write (text "/b") (text "y") 0, [lostAnswer])]
    (fun evs s => evs.flatMap Event.log =
        [(.sendDocument blankConfig (text "/") (text "a") (text "x"),
            sentAnswer (text "17") (text "AAA")),
          (.sendDocument blankConfig (text "/") (text "b") (text "y"), lostAnswer)] ∧
      ∃ f ∈ s.storage.lookup (text "/a"), ∃ g ∈ s.storage.lookup (text "/b"),
        s.storage.live[1]? = some f ∧ s.storage.live[2]? = some g ∧
        f.messageIdStr = text "17" ∧ g.messageIdStr = text "17")
    (by decide +kernel)
  obtain ⟨ch, hserve⟩ : ∃ ch, Serve (Answers Channel.FreshMessage Channel.AnyId) Channel.empty
      (evs.flatMap Event.log) ch := by
    rw [hlog]
    refine ⟨_, _, Or.inl (serves_sent (by decide) (by decide) (by decide) List.not_mem_nil trivial),
      _, Or.inr (.lost (fun _ _ => Request.noConfusion) lostAnswer_lost), rfl⟩
  have hworld := run_world
    (A := fun s ev => decide (ValidPath ev.call.path ∧ KernelCall s.storage ev.call) = true)
    hrun hserve
  have hsteps : Run (IdStep blankConfig) ⟨s₀, Channel.empty⟩ evs ⟨s, ch⟩ :=
    hworld.mono fun w ev w' ⟨hcall, hstep⟩ =>
      ⟨(of_decide_eq_true hcall).1, (of_decide_eq_true hcall).2, hstep⟩
  refine ⟨_, evs, _, f, g, h0, hsteps, hf, hg, hfm, hgm, fun hown => ?_⟩
  have hne : f.messageIdStr ≠ [] := by
    rw [hfm]
    decide
  exact absurd (hown.distinct 1 2 f g hfi hgi hne (hfm.trans hgm.symm)) (by decide)

end Runs

end TgFuse

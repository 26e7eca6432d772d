/-
  TgFuse.Spec.Accounting

  The messages of the channel and the entries of the table, when every request
  succeeds: each file with a document has a live message of its own, and there
  are no others.

  `Accounted` speaks about the entries as an unordered collection, so that the
  order in which removals leave them does not matter.
-/

import TgFuse.Spec.Answers
import TgFuse.Spec.Served

namespace TgFuse

open CString Interact KeyedList Lts

-- ============================================================================
-- The invariant
-- ============================================================================

/-- The entries with a document. -/
def uploaded (l : List TgFile) : List TgFile := l.filter fun f => f.fileSize > 0

theorem mem_uploaded {l : List TgFile} {f : TgFile} :
    f ∈ uploaded l ↔ f ∈ l ∧ f.fileSize > 0 := by simp [uploaded]

/-- The message of the entry is live, and holds the document that the entry
    describes. -/
structure Backed (ch : Channel) (f : TgFile) : Prop where
  fileId_ne : f.fileIdStr ≠ []
  messageId_ne : f.messageIdStr ≠ []
  current : ∃ document, ch.messages f.messageIdStr = some ⟨f.fileIdStr, document⟩ ∧
    ch.documents f.fileIdStr = some document ∧ f.fileSize = document.length

section Backed

variable {ch : Channel} {f : TgFile} {mid fid : Id}

theorem Backed.fileId_ne_of_fresh (h : Backed ch f) (hfree : Channel.FreshFile ch fid) :
    f.fileIdStr ≠ fid := by
  obtain ⟨document, -, hdoc, -⟩ := h.current
  rintro rfl
  rw [show ch.documents _ = none from hfree] at hdoc
  cases hdoc

/-- A message and a document under other ids. -/
theorem Backed.post (h : Backed ch f) (hm : f.messageIdStr ≠ mid) (hf : f.fileIdStr ≠ fid)
    (document : List UInt8) : Backed (ch.post mid fid document) f := by
  obtain ⟨h1, h2, h3⟩ := h
  refine ⟨h1, h2, ?_⟩
  simpa [Function.update_of_ne hm, Function.update_of_ne hf] using h3

theorem Backed.edit (h : Backed ch f) (hm : f.messageIdStr ≠ mid) (hf : f.fileIdStr ≠ fid)
    (document : List UInt8) : Backed (ch.edit mid fid document) f := by
  obtain ⟨h1, h2, h3⟩ := h
  refine ⟨h1, h2, ?_⟩
  simpa [Function.update_of_ne hm, Function.update_of_ne hf] using h3

end Backed

/-- The entries `l` account for the messages of the channel. -/
structure Accounted (l : List TgFile) (ch : Channel) : Prop where
  paths : Distinct TgFile.pathStr l
  ids : Distinct TgFile.messageIdStr (uploaded l)
  backed : ∀ f ∈ l, f.fileSize > 0 → Backed ch f
  blank : ∀ f ∈ l, f.fileSize = 0 → f.fileIdStr = [] ∧ f.messageIdStr = []
  known : ∀ mid p, ch.messages mid = some p →
    mid ∈ ch.issued ∧ ∃ f ∈ l, f.fileSize > 0 ∧ f.messageIdStr = mid

namespace Accounted

variable {l l' out rest : List TgFile} {ch ch' : Channel} {f g x : TgFile}

theorem perm (h : Accounted l ch) (hp : l.Perm l') : Accounted l' ch where
  paths := h.paths.perm hp
  ids := h.ids.perm (hp.filter _)
  backed := fun f hf => h.backed f (hp.symm.subset hf)
  blank := fun f hf => h.blank f (hp.symm.subset hf)
  known := fun mid p hmid =>
    let ⟨hi, f, hf, hrest⟩ := h.known mid p hmid
    ⟨hi, f, hp.subset hf, hrest⟩

theorem same (h : Accounted l ch) (hs : ch.Same ch') : Accounted l ch' where
  paths := h.paths
  ids := h.ids
  backed := fun f hf hpos =>
    let ⟨h1, h2, h3⟩ := h.backed f hf hpos
    ⟨h1, h2, by rw [hs.messages, hs.documents]; exact h3⟩
  blank := h.blank
  known := fun mid p hmid => by
    rw [hs.messages] at hmid
    rw [hs.issued]
    exact h.known mid p hmid

/-- A new entry without a document. -/
theorem cons (h : Accounted l ch) (hsize : x.fileSize = 0)
    (hids : x.fileIdStr = [] ∧ x.messageIdStr = []) (hpath : ∀ y ∈ l, y.pathStr ≠ x.pathStr) :
    Accounted (x :: l) ch where
  paths := distinct_cons.mpr ⟨hpath, h.paths⟩
  ids := by
    rw [uploaded, List.filter_cons_of_neg (by simp [hsize])]
    exact h.ids
  backed := fun f hf hpos => by
    rcases List.mem_cons.mp hf with rfl | hf
    · omega
    · exact h.backed f hf hpos
  blank := fun f hf hzero => by
    rcases List.mem_cons.mp hf with rfl | hf
    · exact hids
    · exact h.blank f hf hzero
  known := fun mid p hmid =>
    let ⟨hi, f, hf, hrest⟩ := h.known mid p hmid
    ⟨hi, f, List.mem_cons_of_mem _ hf, hrest⟩

/-- The message of another entry is not this one's. -/
theorem messageId_ne_of_mem (h : Accounted (f :: rest) ch) (hpos : f.fileSize > 0)
    (hg : g ∈ rest) (hgpos : g.fileSize > 0) : g.messageIdStr ≠ f.messageIdStr := by
  have hids := h.ids
  rw [uploaded, List.filter_cons_of_pos (by simpa using hpos)] at hids
  exact (distinct_cons.mp hids).1 g (mem_uploaded.mpr ⟨hg, hgpos⟩)

theorem tail_ids (h : Accounted (f :: rest) ch) : Distinct TgFile.messageIdStr (uploaded rest) := by
  have hids := h.ids
  rw [uploaded, List.filter_cons] at hids
  split at hids
  · exact (distinct_cons.mp hids).2
  · exact hids

/-- Another entry in the place of `f`, with a message that no other entry has. -/
theorem replace (h : Accounted (f :: rest) ch) (hpath : g.pathStr = f.pathStr)
    (hpos : g.fileSize > 0) (hback : Backed ch' g)
    (hrest : ∀ y ∈ rest, y.fileSize > 0 → y.messageIdStr ≠ g.messageIdStr ∧ Backed ch' y)
    (hknown : ∀ mid p, ch'.messages mid = some p → mid ∈ ch'.issued ∧
      (g.messageIdStr = mid ∨ ∃ y ∈ rest, y.fileSize > 0 ∧ y.messageIdStr = mid)) :
    Accounted (g :: rest) ch' where
  paths := by
    obtain ⟨h1, h2⟩ := distinct_cons.mp h.paths
    exact distinct_cons.mpr ⟨fun y hy => hpath ▸ h1 y hy, h2⟩
  ids := by
    rw [uploaded, List.filter_cons_of_pos (by simpa using hpos)]
    refine distinct_cons.mpr ⟨fun y hy => ?_, h.tail_ids⟩
    exact (hrest y (mem_uploaded.mp hy).1 (mem_uploaded.mp hy).2).1
  backed := fun y hy hypos => by
    rcases List.mem_cons.mp hy with rfl | hy
    · exact hback
    · exact (hrest y hy hypos).2
  blank := fun y hy hzero => by
    rcases List.mem_cons.mp hy with rfl | hy
    · omega
    · exact h.blank y (List.mem_cons_of_mem _ hy) hzero
  known := fun mid p hmid => by
    obtain ⟨hi, hg | ⟨y, hy, hypos, hym⟩⟩ := hknown mid p hmid
    · exact ⟨hi, g, List.mem_cons_self, hpos, hg⟩
    · exact ⟨hi, y, List.mem_cons_of_mem _ hy, hypos, hym⟩

/-- An entry whose document has been uploaded anew. -/
theorem upload (h : Accounted (f :: rest) ch) {document : List UInt8} (hne : document ≠ [])
    (hup : Uploaded Channel.FreshMessage Channel.FreshFile ch f document g ch')
    (hpath : (g.withSize document.length).pathStr = f.pathStr) :
    Accounted (g.withSize document.length :: rest) ch' := by
  have hlen : document.length > 0 := List.length_pos_of_ne_nil hne
  cases hup with
  | @sent mid fid hnil hmid hfid hfresh hfree =>
      have hmidStr : (f.sent fid mid).messageIdStr = mid := sent_messageIdStr f fid hmid
      have hfidStr : (f.sent fid mid).fileIdStr = fid := sent_fileIdStr f mid hfid
      -- the entry had no message, and no other one has the new id
      have hzero : ¬ f.fileSize > 0 := fun hpos =>
        (h.backed f List.mem_cons_self hpos).fileId_ne hnil
      have hother : ∀ y ∈ rest, y.fileSize > 0 → y.messageIdStr ≠ mid := by
        intro y hy hpos
        obtain ⟨doc, hmsg, -⟩ := (h.backed y (List.mem_cons_of_mem _ hy) hpos).current
        rintro rfl
        exact hfresh (h.known _ _ hmsg).1
      refine h.replace hpath hlen ⟨?_, ?_, document, ?_⟩ (fun y hy hpos => ⟨?_, ?_⟩) ?_
      · rw [withSize_fileIdStr, hfidStr]
        exact hfid.ne_nil
      · rw [withSize_messageIdStr, hmidStr]
        exact hmid.ne_nil
      · rw [withSize_fileIdStr, withSize_messageIdStr, hfidStr, hmidStr]
        simp [TgFile.withSize]
      · rw [withSize_messageIdStr, hmidStr]
        exact hother y hy hpos
      · have hy' := h.backed y (List.mem_cons_of_mem _ hy) hpos
        exact hy'.post (hother y hy hpos) (hy'.fileId_ne_of_fresh hfree) document
      · intro m p hm
        rw [withSize_messageIdStr, hmidStr]
        by_cases heq : m = mid
        · exact ⟨by simp [heq], Or.inl heq.symm⟩
        · rw [Channel.post_messages, Function.update_of_ne heq] at hm
          obtain ⟨hi, y, hy, hpos, hym⟩ := h.known m p hm
          refine ⟨List.mem_cons_of_mem _ hi, Or.inr ⟨y, ?_, hpos, hym⟩⟩
          rcases List.mem_cons.mp hy with rfl | hy
          · exact absurd hpos hzero
          · exact hy
  | @edited fid hne' hfid hfree =>
      have hfidStr : (f.edited fid).fileIdStr = fid := edited_fileIdStr f hfid
      have hmidStr : (f.edited fid).messageIdStr = f.messageIdStr := rfl
      have hpos : f.fileSize > 0 := by
        by_contra hzero
        exact hne' (h.blank f List.mem_cons_self (by omega)).1
      obtain ⟨-, hmne, old, hmsg, -⟩ := h.backed f List.mem_cons_self hpos
      refine h.replace hpath hlen ⟨?_, hmne, document, ?_⟩ (fun y hy hypos => ⟨?_, ?_⟩) ?_
      · rw [withSize_fileIdStr, hfidStr]
        exact hfid.ne_nil
      · rw [withSize_fileIdStr, withSize_messageIdStr, hfidStr, hmidStr]
        simp [TgFile.withSize, hmsg]
      · exact h.messageId_ne_of_mem hpos hy hypos
      · have hy' := h.backed y (List.mem_cons_of_mem _ hy) hypos
        exact hy'.edit (h.messageId_ne_of_mem hpos hy hypos) (hy'.fileId_ne_of_fresh hfree) document
      · intro m p hm
        rw [withSize_messageIdStr, hmidStr]
        have hlive : ∃ p', ch.messages m = some p' := by
          by_cases heq : m = f.messageIdStr
          · exact ⟨_, heq ▸ hmsg⟩
          · rw [Channel.edit_messages, Function.update_of_ne heq] at hm
            exact ⟨p, hm⟩
        obtain ⟨p', hp'⟩ := hlive
        obtain ⟨hi, y, hy, hypos, hym⟩ := h.known m p' hp'
        rcases List.mem_cons.mp hy with rfl | hy
        · exact ⟨hi, Or.inl hym⟩
        · exact ⟨hi, Or.inr ⟨y, hy, hypos, hym⟩⟩

/-- Entries that leave together with their messages. -/
theorem remove (h : Accounted (out ++ rest) ch) {mids : List Id}
    (hmids : ∀ mid ∈ mids, mid = [] ∨ ∃ f ∈ out, f.fileSize > 0 ∧ f.messageIdStr = mid)
    (hall : ∀ f ∈ out, f.fileSize > 0 → f.messageIdStr ∈ mids) :
    Accounted rest (ch.removeAll mids) := by
  have hids := h.ids
  rw [uploaded, List.filter_append, Distinct, List.map_append, List.nodup_append] at hids
  refine ⟨?_, hids.2.1, ?_, fun f hf => h.blank f (List.mem_append_right _ hf), ?_⟩
  · have hpaths := h.paths
    rw [Distinct, List.map_append, List.nodup_append] at hpaths
    exact hpaths.2.1
  · intro f hf hpos
    obtain ⟨h1, h2, h3⟩ := h.backed f (List.mem_append_right _ hf) hpos
    have hno : f.messageIdStr ∉ mids := by
      intro hmem
      rcases hmids _ hmem with hnil | ⟨g, hg, hgpos, hgf⟩
      · exact h2 hnil
      · exact hids.2.2 _ (List.mem_map_of_mem (mem_uploaded.mpr ⟨hg, hgpos⟩)) _
          (List.mem_map_of_mem (mem_uploaded.mpr ⟨hf, hpos⟩)) hgf
    exact ⟨h1, h2, by simpa [Channel.removeAll, hno] using h3⟩
  · intro mid p hm
    simp only [Channel.removeAll] at hm ⊢
    split at hm
    · cases hm
    · next hno =>
      obtain ⟨hi, f, hf, hpos, hfm⟩ := h.known mid p hm
      refine ⟨hi, f, ?_, hpos, hfm⟩
      rcases List.mem_append.mp hf with hf | hf
      · exact absurd (hfm ▸ hall f hf hpos) hno
      · exact hf

end Accounted

-- ============================================================================
-- Steps
-- ============================================================================

/-- Of the deletions `mids`, every one that names a message hits a live one, and
    what is deleted stays so. -/
structure DeletesLive (ch : Channel) (mids : List Id) (ch' : Channel) : Prop where
  live : ∀ mid ∈ mids, mid ≠ [] → ∃ p, ch.messages mid = some p
  once : (mids.filter fun mid => mid ≠ []).Nodup
  gone : ∀ mid ∈ mids, ch'.messages mid = none
  issued : ch.issued ⊆ ch'.issued
  dead : ∀ mid ∈ ch.issued, ch.messages mid = none → ch'.messages mid = none

section Steps

variable {st st' : TgStorage} {ch ch' : Channel} {call : Call} {ret : Int} {mids : List Id}
  {l out rest : List TgFile}

theorem deletesLive_nil (hi : ch.issued ⊆ ch'.issued)
    (hd : ∀ mid ∈ ch.issued, ch.messages mid = none → ch'.messages mid = none) :
    DeletesLive ch [] ch' :=
  ⟨fun _ h => (List.not_mem_nil h).elim, List.nodup_nil, fun _ h => (List.not_mem_nil h).elim, hi,
    hd⟩

theorem deletesLive_same (hs : ch.Same ch') : DeletesLive ch [] ch' :=
  deletesLive_nil (by rw [hs.issued]; exact List.Subset.refl _) fun _ _ h => by rwa [hs.messages]

theorem DeletesLive.of_same {ch₁ : Channel} (hs : ch.Same ch₁) (h : DeletesLive ch₁ mids ch') :
    DeletesLive ch mids ch' where
  live := fun mid hm hne => by
    rw [← hs.messages]
    exact h.live mid hm hne
  once := h.once
  gone := h.gone
  issued := by
    rw [← hs.issued]
    exact h.issued
  dead := fun mid hm hnone => by
    rw [← hs.issued] at hm
    rw [← hs.messages] at hnone
    exact h.dead mid hm hnone

/-- An upload brings no deleted message back. -/
theorem Uploaded.deletesLive {okFile : Channel → Id → Prop} {f g : TgFile} {document : List UInt8}
    (h : Uploaded Channel.FreshMessage okFile ch f document g ch') : DeletesLive ch [] ch' := by
  cases h with
  | @sent mid fid _ _ _ hfresh _ =>
      refine deletesLive_nil (List.subset_cons_self ..) fun m hm hnone => ?_
      have hne : m ≠ mid := fun e => hfresh (e ▸ hm)
      rw [Channel.post_messages, Function.update_of_ne hne]
      exact hnone
  | edited _ _ _ =>
      refine deletesLive_nil (List.Subset.refl _) fun m hm hnone => ?_
      rw [Channel.edit_messages]
      by_cases heq : m = f.messageIdStr
      · rw [heq, Function.update_self, ← heq, hnone]
        rfl
      · rw [Function.update_of_ne heq]
        exact hnone

/-- The messages of the entries that leave are deleted, each of them once. -/
theorem Accounted.deletesLive (h : Accounted (out ++ rest) ch)
    (hmids : mids = [] ∨ mids = out.map TgFile.messageIdStr ∧ out.length = 1 ∨
      mids = (uploaded out).map TgFile.messageIdStr) : DeletesLive ch mids (ch.removeAll mids) := by
  have hsrc : ∀ mid ∈ mids, mid ≠ [] → ∃ f ∈ out, f.fileSize > 0 ∧ f.messageIdStr = mid := by
    intro mid hmem hne
    rcases hmids with rfl | ⟨rfl, -⟩ | rfl
    · cases hmem
    · obtain ⟨f, hf, rfl⟩ := List.mem_map.mp hmem
      refine ⟨f, hf, ?_, rfl⟩
      by_contra hzero
      exact hne (h.blank f (List.mem_append_left _ hf) (by omega)).2
    · obtain ⟨f, hf, rfl⟩ := List.mem_map.mp hmem
      exact ⟨f, (mem_uploaded.mp hf).1, (mem_uploaded.mp hf).2, rfl⟩
  refine ⟨?_, ?_, ?_, List.Subset.refl _, ?_⟩
  · intro mid hmem hne
    obtain ⟨f, hf, hpos, rfl⟩ := hsrc mid hmem hne
    obtain ⟨-, -, doc, hm, -⟩ := h.backed f (List.mem_append_left _ hf) hpos
    exact ⟨_, hm⟩
  · rcases hmids with rfl | ⟨rfl, hone⟩ | rfl
    · exact List.nodup_nil
    · obtain ⟨f, rfl⟩ := List.length_eq_one_iff.mp hone
      exact (List.nodup_singleton _).filter _
    · have hids := h.ids
      rw [uploaded, List.filter_append, Distinct, List.map_append, List.nodup_append] at hids
      exact hids.1.filter _
  · intro mid hmem
    simp [Channel.removeAll, hmem]
  · intro mid _ hnone
    simp [Channel.removeAll, hnone]

/-- Served steps keep the accounts. -/
theorem Accounted.step (hwf : st.Wf) (hdirs : st.PlainDirs) (hp : ValidPath call.path)
    (h : Accounted st.live ch) (hsize : ∀ p buf o, call = .write p buf o → buf ≠ [])
    (hstep : ServedStep Channel.FreshMessage Channel.FreshFile st ch call ret mids st' ch') :
    Accounted st'.live ch' ∧ DeletesLive ch mids ch' := by
  have hnew : ∀ {g : TgFile} {p : List UInt8}, st'.live = st.live ++ [g] → st.lookup p = none →
      g.pathStr = p → g.fileSize = 0 → g.fileIdStr = [] ∧ g.messageIdStr = [] →
      Accounted st'.live ch := by
    intro g p hlive hl hpath hzero hids
    rw [hlive]
    refine (h.cons hzero hids ?_).perm (List.perm_append_singleton g st.live).symm
    rw [hpath]
    exact lookup_none.mp hl
  cases hstep with
  | query _ hsame => exact ⟨h.same hsame, deletesLive_same hsame⟩
  | unlinkMissing | rmdirOther => exact ⟨h, deletesLive_same (Channel.Same.refl ch)⟩
  | @create p _ hl hlive =>
      exact ⟨hnew hlive hl (newFile_pathStr hp 0) rfl
        ⟨newFile_fileIdStr p 0, newFile_messageIdStr p 0⟩, deletesLive_same (Channel.Same.refl ch)⟩
  | @mkdir p _ hl hlive =>
      exact ⟨hnew hlive hl (newDir_pathStr hp) rfl
        ⟨newDir_fileIdStr p, newDir_messageIdStr p⟩, deletesLive_same (Channel.Same.refl ch)⟩
  | @write p buf old new offset i f g ch₁ _ _ hf _ _ hover hsame hup =>
      have hne := hover.ne_nil (hsize p buf offset rfl)
      have hnamed := hwf.named f (List.mem_of_getElem? hf)
      have hpath : (g.withSize new.length).pathStr = f.pathStr := (hnamed.congr hup.entry.1).2
      refine ⟨?_, hup.deletesLive.of_same hsame⟩
      rw [setSlot_live]
      exact (((h.same hsame).perm (getElem?_perm hf)).upload hne hup hpath).perm
        (set_perm hf _).symm
  | @unlink p f hl =>
      have hsplit : Accounted ([f] ++ (st.without p).live) ch := h.perm (without_perm hwf.valid hl)
      refine ⟨hsplit.remove ?_ ?_, hsplit.deletesLive (Or.inr (Or.inl ⟨rfl, rfl⟩))⟩
      · intro mid hmid
        rw [List.mem_singleton] at hmid
        by_cases hpos : f.fileSize > 0
        · exact Or.inr ⟨f, List.mem_singleton_self f, hpos, hmid.symm⟩
        · refine Or.inl ?_
          rw [hmid]
          exact (h.blank f (lookup_some hl).1 (by omega)).2
      · intro g hg _
        rw [List.mem_singleton] at hg
        rw [hg]
        exact List.mem_singleton_self _
  | @rmdir p d _ hl hd hmids =>
      obtain ⟨hperm, hlast⟩ := rmdirTable_perm hwf hl
      -- the entry under the directory's own path is the directory
      have hlastd : rmdirLast p st = d := h.paths.eq_of_key
        (hperm.symm.subset (by simp)) (lookup_some hl).1 (hlast.trans (lookup_some hl).2.symm)
      have hdzero : d.fileSize = 0 := by
        rw [hdirs d (lookup_some hl).1 hd]
        rfl
      obtain ⟨hvis, -, -⟩ := rmdirSweep_eq p hwf h.paths (st.size + 1) 0
      have hfst : (rmdirVisited p st).map Prod.fst = (rmdirVisited p st).map Prod.snd := by
        rw [rmdirVisited, hvis]
        simp
      rw [hlastd, ← List.singleton_append, ← List.append_assoc] at hperm
      have hsplit := h.perm hperm
      have hup : uploaded ((rmdirVisited p st).map Prod.snd ++ [d])
          = ((rmdirVisited p st).map Prod.fst).filter fun f => f.fileSize > 0 := by
        rw [uploaded, List.filter_append, ← hfst]
        simp [hdzero]
      rw [← hup] at hmids
      refine ⟨hsplit.remove ?_ ?_, hsplit.deletesLive (Or.inr (Or.inr hmids))⟩
      · intro mid hmid
        rw [hmids] at hmid
        obtain ⟨f, hf, hfm⟩ := List.mem_map.mp hmid
        exact Or.inr ⟨f, (mem_uploaded.mp hf).1, (mem_uploaded.mp hf).2, hfm⟩
      · intro f hf hpos
        rw [hmids]
        exact List.mem_map_of_mem (mem_uploaded.mpr ⟨hf, hpos⟩)

end Steps

-- ============================================================================
-- Runs
-- ============================================================================

/-- The calls of a run: created is what is not there, written, at least one byte,
    what is a file, and unlinked what is not a directory. -/
def FileCall (st : TgStorage) (call : Call) : Prop :=
  ValidPath call.path ∧ KernelCall st call ∧
    match call with
    | .write _ buf _ => buf ≠ []
    | .unlink p => ∀ f, st.lookup p = some f → f.type = .tgFile
    | _ => True

instance (st : TgStorage) (call : Call) : Decidable (FileCall st call) :=
  have : Decidable (match call with
      | .write _ buf _ => buf ≠ []
      | .unlink p => ∀ f, st.lookup p = some f → f.type = .tgFile
      | _ => True) :=
    match call with
    | .write _ buf _ => inferInstanceAs (Decidable (buf ≠ []))
    | .unlink p => inferInstanceAs (Decidable (∀ f ∈ st.lookup p, f.type = .tgFile))
    | .create _ | .mkdir _ | .getattr _ | .rmdir _ | .readdir _ | .open _ | .read .. | .setxattr _
    | .utimens _ => .isTrue trivial
  inferInstanceAs (Decidable (ValidPath call.path ∧ KernelCall st call ∧ _))

/-- The deletions of a run that name a message. -/
def deletions (evs : List Event) : List Id :=
  (evs.flatMap fun ev => deletedIds ev.log).filter fun mid => mid ≠ []

/-- The live messages are those of the files with a document; none is deleted
    twice. -/
structure MessagesAccounted (evs : List Event) (w : World) : Prop where
  live_iff : ∀ mid, (∃ p, w.channel.messages mid = some p) ↔
    ∃ f ∈ w.statics.storage.live, f.fileSize > 0 ∧ f.messageIdStr = mid
  distinct : ∀ (i j : Nat) (f g : TgFile), w.statics.storage.live[i]? = some f →
    w.statics.storage.live[j]? = some g → f.fileSize > 0 → g.fileSize > 0 →
    f.messageIdStr = g.messageIdStr → i = j
  current : ∀ f ∈ w.statics.storage.live, f.fileSize > 0 → ∃ document,
    w.channel.messages f.messageIdStr = some ⟨f.fileIdStr, document⟩ ∧
    w.channel.documents f.fileIdStr = some document ∧ f.fileSize = document.length
  empty : ∀ f ∈ w.statics.storage.live, f.fileSize = 0 → f.fileIdStr = [] ∧ f.messageIdStr = []
  deleted_once : (deletions evs).Nodup

/-- Under distinct ids an id determines the slot. -/
theorem slot_of_messageId {l : List TgFile} (hp : Distinct TgFile.pathStr l)
    (hd : Distinct TgFile.messageIdStr (uploaded l)) {i j : Nat} {f g : TgFile}
    (hi : l[i]? = some f) (hj : l[j]? = some g) (hf : f.fileSize > 0) (hg : g.fileSize > 0)
    (heq : f.messageIdStr = g.messageIdStr) : i = j := by
  obtain rfl := hd.eq_of_key (mem_uploaded.mpr ⟨List.mem_of_getElem? hi, hf⟩)
    (mem_uploaded.mpr ⟨List.mem_of_getElem? hj, hg⟩) heq
  exact hp.index_eq hi hj

section Runs

variable {config : TgConfig} {w₀ w : World} {evs : List Event}

/-- One call of a run. -/
def FileStep (config : TgConfig) (w : World) (ev : Event) (w' : World) : Prop :=
  FileCall w.statics.storage ev.call ∧
    WorldStep (Serves Channel.FreshMessage Channel.FreshFile) config w ev w'

/-- What every run keeps. -/
structure RunInvariant (evs : List Event) (w : World) : Prop where
  wf : w.statics.storage.Wf
  plainDirs : w.statics.storage.PlainDirs
  blank : ∀ f ∈ w.statics.storage.live, f.Blank
  accounted : Accounted w.statics.storage.live w.channel
  once : (deletions evs).Nodup
  dead : ∀ mid ∈ deletions evs, mid ∈ w.channel.issued ∧ w.channel.messages mid = none

theorem runInvariant_nil (h0 : Initial w₀.statics) (hch : ∀ mid, w₀.channel.messages mid = none) :
    RunInvariant [] w₀ := by
  obtain ⟨hwf, hlive, -⟩ := initial_live h0
  have hmem : ∀ f ∈ w₀.statics.storage.live, f = newDir (text "/") := fun f hf => by
    rwa [hlive, List.mem_singleton] at hf
  refine ⟨hwf, ?_, ?_, ⟨?_, ?_, ?_, ?_, ?_⟩, List.nodup_nil, fun _ h => nomatch h⟩
  · intro f hf _
    rw [hmem f hf, newDir_pathStr validPath_root]
  · intro f hf _
    rw [hmem f hf]
    exact ⟨rfl, rfl⟩
  · rw [hlive]
    exact List.nodup_singleton _
  · rw [hlive]
    exact List.nodup_nil
  · intro f hf hpos
    rw [hmem f hf] at hpos
    exact absurd hpos (Nat.lt_irrefl 0)
  · intro f hf _
    rw [hmem f hf]
    exact ⟨newDir_fileIdStr _, newDir_messageIdStr _⟩
  · intro mid p hmid
    rw [hch] at hmid
    cases hmid

theorem RunInvariant.snoc {w' : World} {ev : Event} (h : RunInvariant evs w)
    (hstep : FileStep config w ev w') : RunInvariant (evs ++ [ev]) w' := by
  obtain ⟨⟨hp, hk, hcall⟩, hworld⟩ := hstep
  have hserved := step_served h.wf h.blank hp hk hworld
  have htab := step_table h.wf hp hworld.1
  obtain ⟨hacc, hdel⟩ := h.accounted.step h.wf h.plainDirs hp
    (by intro p buf o heq; rw [heq] at hcall; exact hcall) hserved
  have happ : deletions (evs ++ [ev])
      = deletions evs ++ (deletedIds ev.log).filter fun mid => mid ≠ [] := by
    simp [deletions, List.flatMap_append, List.filter_append]
  refine ⟨htab.wf h.wf, htab.plainDirs h.wf h.plainDirs hp, hserved.blank h.wf h.blank, hacc, ?_,
    ?_⟩
  · rw [happ, List.nodup_append]
    refine ⟨h.once, hdel.once, ?_⟩
    rintro mid hold _ hnew rfl
    obtain ⟨hmem, hne⟩ := List.mem_filter.mp hnew
    obtain ⟨p, hlive⟩ := hdel.live mid hmem (of_decide_eq_true hne)
    rw [(h.dead mid hold).2] at hlive
    cases hlive
  · intro mid hmid
    rw [happ, List.mem_append] at hmid
    rcases hmid with hold | hnew
    · obtain ⟨hi, hnone⟩ := h.dead mid hold
      exact ⟨hdel.issued hi, hdel.dead mid hi hnone⟩
    · obtain ⟨hmem, hne⟩ := List.mem_filter.mp hnew
      obtain ⟨p, hlive⟩ := hdel.live mid hmem (of_decide_eq_true hne)
      exact ⟨hdel.issued (h.accounted.known mid p hlive).1, hdel.gone mid hmem⟩

theorem runInvariant (h0 : Initial w₀.statics) (hch : ∀ mid, w₀.channel.messages mid = none)
    (hrun : Run (FileStep config) w₀ evs w) : RunInvariant evs w :=
  hrun.invariant (P := RunInvariant) (runInvariant_nil h0 hch) fun _ _ _ _ _ h hstep => h.snoc hstep

/-- As long as every request succeeds, the messages are accounted for in every
    state that a run reaches. -/
theorem messages_accounted (h0 : Initial w₀.statics)
    (hch : ∀ mid, w₀.channel.messages mid = none) (hrun : Run (FileStep config) w₀ evs w) :
    MessagesAccounted evs w := by
  have hinv := runInvariant h0 hch hrun
  refine ⟨fun mid => ⟨?_, ?_⟩, ?_, ?_, hinv.accounted.blank, hinv.once⟩
  · rintro ⟨p, hm⟩
    exact (hinv.accounted.known mid p hm).2
  · rintro ⟨f, hf, hpos, rfl⟩
    obtain ⟨-, -, doc, hm, -⟩ := hinv.accounted.backed f hf hpos
    exact ⟨_, hm⟩
  · intro i j f g hi hj hf hg heq
    exact slot_of_messageId hinv.accounted.paths hinv.accounted.ids hi hj hf hg heq
  · intro f hf hpos
    exact (hinv.accounted.backed f hf hpos).current

/-- Two files are written, and the first one is unlinked again. -/
theorem messages_accounted_sample :
    ∃ w evs f, MessagesAccounted evs w ∧ deletions evs = [text "17"] ∧
      w.statics.storage.lookup (text "/b") = some f ∧ f.messageIdStr = text "18" := by
  obtain ⟨s₀, evs, s, h0, ⟨hlog, hb⟩, hrun⟩ := run_of_runFromMain
    (fun s call => FileCall s.storage call)
    [(.create (text "/a"), []), (.create (text "/b"), []),
      (.write (text "/a") (text "x") 0, [sentAnswer (text "17") (text "AAA")]),
      (.write (text "/b") (text "y") 0, [sentAnswer (text "18") (text "BBB")]),
      (.unlink (text "/a"), [deletedAnswer])]
    (fun evs s => evs.flatMap Event.log =
        [(.sendDocument blankConfig (text "/") (text "a") (text "x"),
            sentAnswer (text "17") (text "AAA")),
          (.sendDocument blankConfig (text "/") (text "b") (text "y"),
            sentAnswer (text "18") (text "BBB")),
          (.deleteMessage blankConfig (text "17"), deletedAnswer)] ∧
      ∃ f ∈ s.storage.lookup (text "/b"), f.messageIdStr = text "18")
    (by decide +kernel)
  obtain ⟨f, hf, hmid⟩ := hb
  obtain ⟨ch, hserve⟩ : ∃ ch, Serve (Serves Channel.FreshMessage Channel.FreshFile) Channel.empty
      (evs.flatMap Event.log) ch := by
    rw [hlog]
    refine ⟨_, _, serves_sent (by decide) (by decide) (by decide) (List.not_mem_nil) rfl, _,
      serves_sent (by decide) (by decide) (by decide) ?_ ?_, _, serves_deleted, rfl⟩
    · show text "18" ∉ [text "17"]
      decide
    · rw [Channel.FreshFile, Channel.post_documents, Function.update_of_ne (by decide)]
      rfl
  have hworld := run_world (A := fun s ev => FileCall s.storage ev.call)
    (hrun.mono fun t e u ⟨hstep, hok⟩ => ⟨hstep, of_decide_eq_true hok⟩) hserve
  have hdel : deletions evs = [text "17"] := by
    have hmap : (evs.flatMap fun ev => deletedIds ev.log) = deletedIds (evs.flatMap Event.log) := by
      simp [deletedIds, List.filterMap_flatMap]
    rw [deletions, hmap, hlog]
    decide
  exact ⟨_, evs, f, messages_accounted h0 (fun _ => rfl) hworld, hdel, hf, hmid⟩

end Runs

end TgFuse

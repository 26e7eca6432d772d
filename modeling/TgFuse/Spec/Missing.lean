/-
  TgFuse.Spec.Missing

  A write to a path without an entry, against a create and the same write.

  `hello_write` pushes a copy of its local record and goes on with the record:
  the ids of the answer end up there.  The entry in the table is the one that a
  create and the write leave, with both ids wiped.
-/

import TgFuse.Spec.Answers
import TgFuse.Spec.Served

namespace TgFuse

open CString Interact KeyedList Lts Overlay

-- ============================================================================
-- What a create and a write promise
-- ============================================================================

/-- The entries agree but for the ids that the server chose. -/
structure SameButForIds (g h : TgFile) : Prop where
  path_eq : g.pathStr = h.pathStr
  type_eq : g.type = h.type
  fileSize_eq : g.fileSize = h.fileSize
  fileId_iff : g.fileIdStr = [] ↔ h.fileIdStr = []
  messageId_iff : g.messageIdStr = [] ↔ h.messageIdStr = []

/-- `s₁` has one entry more than `s`, and `s₂` has the same one for `p`. -/
def SameEntry (s s₁ s₂ : Statics) (p : List UInt8) : Prop :=
  ∃ g h, s₁.storage.live.Perm (g :: s.storage.live) ∧ g.pathStr = p ∧
    s₂.storage.lookup p = some h ∧ SameButForIds g h

/-- A read of the range that has been written, its requests served, gives the bytes. -/
def ReadsWritten (config : TgConfig) (s : Statics) (ch : Channel) (p buf : List UInt8)
    (offset : Int) : Prop :=
  ∀ heap log res t ch',
    Exec receive (helloRead heap config p buf.length offset) s log (some res) t →
    Serve (Serves Channel.FreshMessage Channel.AnyId) ch log ch' → res = (cint buf.length, buf)

/-- An unlink, its request served, deletes every message that was not in `ch₀`. -/
def DeletesUploaded (config : TgConfig) (s : Statics) (ch₀ ch : Channel) (p : List UInt8) : Prop :=
  ∀ log res t ch', Exec receive (helloUnlink config p) s log (some res) t →
    Serve (Serves Channel.FreshMessage Channel.AnyId) ch log ch' →
      ∀ mid ∈ ch.issued, mid ∉ ch₀.issued → ch'.messages mid = none

-- ============================================================================
-- The two entries
-- ============================================================================

section Entries

variable {config : TgConfig} {heap : Heap} {s s₁ s₂ t : Statics} {ch ch₁ ch₂ : Channel}
  {p buf : List UInt8} {offset ret : Int} {log log₁ log₂ : List (Request × Response)}
  {okMessage okFile : Channel → Id → Prop}

/-- The entry with both ids wiped. -/
def TgFile.withoutIds (f : TgFile) : TgFile := { f with fileId := .zeros, messageId := .zeros }

/-- The entry that is new in the table is found under its path. -/
theorem lookup_appended (hp : ValidPath p) (hnone : s.storage.lookup p = none)
    {n : Nat}
    (hlive : t.storage.live = s.storage.live ++ [newFile p n]) :
    t.storage.lookup p = some (newFile p n) := by
  rw [TgStorage.lookup, hlive, List.find?_append, show s.storage.live.find? _ = none from hnone]
  simp [newFile_pathStr hp]

/-- The size of a first document. -/
theorem firstInsert_size {data : Buffer}
    (h : bufferInsert heap.bytes (bufferNew heap.bytes) (sizeOfOff offset) buf = some data) :
    data.size = sizeT (sizeOfOff offset + buf.length) := by
  have hv := bufferNew_valid heap.bytes
  obtain ⟨hv', hsize, -⟩ := bufferInsert_spec hv h
  have hempty : (bufferNew heap.bytes).size = 0 := rfl
  rw [hempty, Nat.zero_max] at hsize
  have hle := hv'.size_le
  have hcap := hv'.capacity_lt
  rw [sizeT_of_lt (by omega), hsize]

/-- A write to a path without an entry: a blank entry, and a message for nobody. -/
theorem writeMissing_served (hwf : s.storage.Wf) (hp : ValidPath p)
    (hnone : s.storage.lookup p = none)
    (h : Exec receive (helloWrite heap config p buf offset) s log (some ret) t)
    (hs : Serve (Serves okMessage okFile) ch log ch₁) :
    t.storage.Wf ∧
      t.storage.live = s.storage.live ++ [newFile p (sizeT (sizeOfOff offset + buf.length))] ∧
      ∃ mid fid document, IsId mid ∧ okMessage ch mid ∧ ch₁ = ch.post mid fid document := by
  rcases (exec_helloWrite hwf hp).mp h with ⟨-, -, st', b, data', r, f', hw⟩ | ⟨f, hl, -⟩ |
    ⟨i, f, hi, -⟩
  · obtain ⟨hwf', hlive⟩ := hwf.push ((newFile_hasPath p _).named hp) hw.pushed
    rw [hw.log_eq] at hs
    obtain ⟨d, hd, hnil⟩ := serve_cons.mp hs
    rw [serve_nil] at hnil
    obtain ⟨mid, fid, hmid, -, hm, -, -, -, -, rfl⟩ := hd.of_sendDocument
    rw [hw.state_eq]
    exact ⟨hwf', hlive, mid, fid, _, hmid, hm, hnil⟩
  · rw [hnone] at hl
    cases hl
  · rw [lookup_eq_none_iff.mp hnone] at hi
    cases hi

/-- A create and the same write: the entry carries the ids of its message. -/
theorem createWrite_served (hwf : s.storage.Wf) (hp : ValidPath p)
    (hnone : s.storage.lookup p = none)
    (hcreate : Exec receive (helloCreate heap p) s log₁ (some 0) t)
    (hwrite : Exec receive (helloWrite heap config p buf offset) t log₂ (some ret) s₂)
    (hs : Serve (Serves okMessage okFile) ch log₂ ch₂) :
    ∃ g, s₂.storage.lookup p = some g ∧ IsId g.fileIdStr ∧ IsId g.messageIdStr ∧
      g.withoutIds = newFile p (sizeT (sizeOfOff offset + buf.length)) := by
  obtain ⟨-, ⟨f, hl, -⟩ | ⟨-, st', hst, -, rfl⟩⟩ := (exec_helloCreate hp).mp hcreate
  · rw [hnone] at hl
    cases hl
  obtain ⟨hwf', hlive⟩ := hwf.push ((newFile_hasPath p 0).named hp) hst
  have hfound : st'.lookup p = some (newFile p 0) :=
    lookup_appended (t := s.withStorage st') hp hnone hlive
  rcases (exec_helloWrite (s := s.withStorage st') hwf' hp).mp hwrite with ⟨hl, -⟩ |
    ⟨f, hl, hd, -⟩ | ⟨i, f, hi, hf, -, -, l₁, b₀, b, data, data', r, f', hw⟩
  · rw [show st'.lookup p = none from hl] at hfound
    cases hfound
  · rw [show st'.lookup p = some f from hl] at hfound
    cases hfound
    cases hd
  have hif : st'.lookup p = some f := (lookup_eq_getElem? hi).trans hf
  rw [hfound] at hif
  cases hif
  -- nothing is loaded for an entry of size 0
  obtain ⟨rfl, rfl, rfl⟩ : l₁ = [] ∧ b₀ = _ ∧ data = bufferNew heap.bytes := hw.obtained
  rw [hw.log_eq, List.nil_append] at hs
  have hup := uploaded_of_serve (fun _ => ⟨rfl, rfl⟩) hw.received hw.after hs
  have hentry : s₂.storage.lookup p = some (written f' data') := by
    have hnamed := (newFile_hasPath p 0).named hp
    have hpath := (written_named data' hnamed hw.after).2.1
    rw [hw.state_eq]
    exact lookup_setSlot hi (hpath.trans (newFile_pathStr hp 0))
  refine ⟨_, hentry, ?_⟩
  cases hup with
  | sent _ hmid hfid =>
      refine ⟨?_, ?_, ?_⟩
      · rw [written_fileIdStr, sent_fileIdStr _ _ hfid]
        exact hfid
      · rw [written_messageIdStr, sent_messageIdStr _ _ hmid]
        exact hmid
      · rw [← firstInsert_size hw.inserted]
        rfl
  | edited hne => exact absurd (newFile_fileIdStr p 0) hne

end Entries

-- ============================================================================
-- What becomes of the promise
-- ============================================================================

section Laws

variable {config : TgConfig} {heap heap' : Heap} {s s₁ s₂ t : Statics} {ch ch₁ ch₂ : Channel}
  {p buf : List UInt8} {offset ret ret' : Int} {n : Nat}
  {log₁ log₂ log₃ : List (Request × Response)}

/-- A file without an id is read as an empty one. -/
theorem not_readsWritten (hp : ValidPath p) (hnone : s.storage.lookup p = none)
    (hlive : t.storage.live = s.storage.live ++ [newFile p n]) (hbuf : buf ≠ []) :
    ¬ ReadsWritten config t ch p buf offset := by
  intro hreads
  have hfound := lookup_appended hp hnone hlive
  have hempty : (newFile p n).fileIdStr.length = 0 := by rw [newFile_fileIdStr, List.length_nil]
  have he : Exec receive (helloRead zeroHeap config p buf.length offset) t [] (some (0, [])) t := by
    apply exec_helloRead.mpr
    exact Or.inr (Or.inl ⟨_, hfound, hempty, rfl, rfl, rfl⟩)
  have hres := hreads _ _ _ _ _ he (serve_nil.mpr rfl)
  exact hbuf (Prod.mk.inj hres).2.symm

/-- A file without an id asks for no message of its own to be deleted. -/
theorem not_deletesUploaded {mid fid document : List UInt8} (hwf : t.storage.Wf) (hp : ValidPath p)
    (hnone : s.storage.lookup p = none)
    (hlive : t.storage.live = s.storage.live ++ [newFile p n]) (hmid : IsId mid)
    (hfresh : mid ∉ ch.issued) :
    ¬ DeletesUploaded config t ch (ch.post mid fid document) p := by
  intro hdeletes
  have hfound := lookup_appended hp hnone hlive
  obtain ⟨b, hb, hok⟩ := deletedAnswer_ok.2 t.jsonResponseBuf
  have hsettled : deletedAnswer.code = curleOk → checkOkStatusInJson b.bytes ≠ none := by
    intro _ hno
    rw [hok] at hno
    cases hno
  obtain ⟨t', he⟩ : ∃ t', Exec receive (helloUnlink config p) t
      [(.deleteMessage config (newFile p n).messageIdStr, deletedAnswer)] (some 0) t' :=
    ⟨_, (exec_helloUnlink hwf).mpr (Or.inr ⟨_, _, b, hfound, rfl, hb, hsettled, rfl, rfl⟩)⟩
  rw [newFile_messageIdStr] at he
  have hs : Serve (Serves Channel.FreshMessage Channel.AnyId) (ch.post mid fid document)
      [(.deleteMessage config [], deletedAnswer)] ((ch.post mid fid document).remove []) :=
    serve_cons.mpr ⟨_, serves_deleted, serve_nil.mpr rfl⟩
  have hgone := hdeletes _ _ _ _ he hs mid (List.mem_cons_self ..) hfresh
  have hstays : ((ch.post mid fid document).remove []).messages mid = some ⟨fid, document⟩ := by
    show Function.update (ch.post mid fid document).messages [] none mid = _
    rw [Function.update_of_ne hmid.ne_nil, Channel.post_messages, Function.update_self]
  rw [hstays] at hgone
  cases hgone

/-- From no reachable state does a write to a path without an entry do what a
    create and the write do: the two entries agree in path, type and size, but
    one has no ids; so nothing is read back, and no message is deleted. -/
theorem missing_write_unlike_create {s₀ : Statics} {evs : List Event} (h0 : Initial s₀)
    (hrun : Run (PathStep config) s₀ evs s) (hp : ValidPath p)
    (hnone : s.storage.lookup p = none) (hbuf : buf ≠ [])
    (hwrite : Exec receive (helloWrite heap config p buf offset) s log₁ (some ret) s₁)
    (hs₁ : Serve (Serves Channel.FreshMessage Channel.AnyId) ch log₁ ch₁)
    (hcreate : Exec receive (helloCreate heap' p) s log₂ (some 0) t)
    (hwrite' : Exec receive (helloWrite heap' config p buf offset) t log₃ (some ret') s₂)
    (hs₂ : Serve (Serves Channel.FreshMessage Channel.AnyId) ch log₃ ch₂) :
    (∃ g, s₂.storage.lookup p = some g ∧ s₁.storage.live = s.storage.live ++ [g.withoutIds]) ∧
      ¬ SameEntry s s₁ s₂ p ∧ ¬ ReadsWritten config s₁ ch₁ p buf offset ∧
      ¬ DeletesUploaded config s₁ ch ch₁ p := by
  obtain ⟨hwf, -⟩ := reachable_wf h0 hrun
  obtain ⟨hwf₁, hlive, mid, fid, document, hmid, hfresh, rfl⟩ :=
    writeMissing_served hwf hp hnone hwrite hs₁
  obtain ⟨h, hfound, hid, -, hblank⟩ := createWrite_served hwf hp hnone hcreate hwrite' hs₂
  refine ⟨⟨h, hfound, by rw [hblank, hlive]⟩, ?_, ?_, ?_⟩
  · rintro ⟨g, h', hperm, hg, hfound', hsame⟩
    rw [hfound] at hfound'
    cases hfound'
    have hmem : g ∈ s₁.storage.live := hperm.symm.subset (List.mem_cons_self ..)
    rw [hlive, List.mem_append, List.mem_singleton] at hmem
    rcases hmem with hmem | rfl
    · exact lookup_none.mp hnone g hmem hg
    · exact hid.ne_nil (hsame.fileId_iff.mp (newFile_fileIdStr p _))
  · exact not_readsWritten hp hnone hlive hbuf
  · exact not_deletesUploaded hwf₁ hp hnone hlive hmid hfresh

end Laws

/-- The write of one byte to `/a`, answered with ids. -/
def sampleFirstWrite (s : Statics) : Outcome Statics Request Response Int :=
  run receive (helloWrite zeroHeap blankConfig (text "/a") (text "x") 0) s
    fun _ => sentAnswer (text "7") (text "AAA")

/-- The create of `/a`. -/
def sampleCreate (s : Statics) : Outcome Statics Request Response Int :=
  run receive (helloCreate zeroHeap (text "/a")) s fun _ => lostAnswer

/-- The exchange of the write. -/
def sampleUpload : List (Request × Response) :=
  [(.sendDocument blankConfig (text "/") (text "a") (text "x"),
    sentAnswer (text "7") (text "AAA"))]

theorem sampleUpload_served :
    Serve (Serves Channel.FreshMessage Channel.AnyId) Channel.empty sampleUpload
      (Channel.empty.post (text "7") (text "AAA") (text "x")) :=
  serve_cons.mpr ⟨_, serves_sent (by decide +kernel) (by decide +kernel) (by decide +kernel)
    List.not_mem_nil trivial, serve_nil.mpr rfl⟩

/-- Both ways to write `/a` go through from the state that `main` sets up. -/
theorem sampleFirstWrite_exec :
    ∃ s₀ evs s s₁ t s₂, Initial s₀ ∧ Run (PathStep blankConfig) s₀ evs s ∧
      s.storage.lookup (text "/a") = none ∧
      Exec receive (helloWrite zeroHeap blankConfig (text "/a") (text "x") 0) s sampleUpload
        (some 1) s₁ ∧
      Exec receive (helloCreate zeroHeap (text "/a")) s [] (some 0) t ∧
      Exec receive (helloWrite zeroHeap blankConfig (text "/a") (text "x") 0) t sampleUpload
        (some 1) s₂ := by
  obtain ⟨s₀, evs, s, h0, ⟨hnone, hres, hlog, hres', hlog', hres'', hlog''⟩, hrun⟩ :=
    pathRun_of_runFromMain []
      (fun _ s => s.storage.lookup (text "/a") = none ∧ (sampleFirstWrite s).result = some 1 ∧
        (sampleFirstWrite s).log = sampleUpload ∧ (sampleCreate s).result = some 0 ∧
        (sampleCreate s).log = [] ∧
        (sampleFirstWrite (sampleCreate s).state).result = some 1 ∧
        (sampleFirstWrite (sampleCreate s).state).log = sampleUpload)
      (by decide +kernel)
  have he := exec_of_result receive hres hlog
  have he' := exec_of_result receive hres' hlog'
  have he'' := exec_of_result receive hres'' hlog''
  exact ⟨s₀, evs, s, _, _, _, h0, hrun, hnone, he, he', he''⟩

/-- One byte is written to `/a`, without and after a create. -/
theorem missing_write_unlike_create_sample :
    ∃ s s₁ s₂, s.storage.lookup (text "/a") = none ∧ ¬ SameEntry s s₁ s₂ (text "/a") ∧
      ¬ ReadsWritten blankConfig s₁ (Channel.empty.post (text "7") (text "AAA") (text "x"))
        (text "/a") (text "x") 0 := by
  obtain ⟨s₀, evs, s, s₁, t, s₂, h0, hrun, hnone, he, hcreate, he'⟩ := sampleFirstWrite_exec
  obtain ⟨-, hentry, hread, -⟩ := missing_write_unlike_create h0 hrun (by decide) hnone (by decide)
    he sampleUpload_served hcreate he' sampleUpload_served
  exact ⟨s, s₁, s₂, hnone, hentry, hread⟩

/-- What is written to `/a` without a create is not read back. -/
theorem missing_write_loses_ids :
    ¬ ∀ (config : TgConfig) (heap heap' : Heap) (s₀ s s₁ t s₂ : Statics) (ch ch₁ ch₂ : Channel)
        (evs : List Event) (p buf : List UInt8) (offset : Int)
        (log₁ log₂ log₃ : List (Request × Response)),
      Initial s₀ → Run (PathStep config) s₀ evs s → ValidPath p → s.storage.lookup p = none →
      buf ≠ [] →
      Exec receive (helloWrite heap config p buf offset) s log₁ (some buf.length) s₁ →
      Serve (Serves Channel.FreshMessage Channel.AnyId) ch log₁ ch₁ →
      Exec receive (helloCreate heap' p) s log₂ (some 0) t →
      Exec receive (helloWrite heap' config p buf offset) t log₃ (some buf.length) s₂ →
      Serve (Serves Channel.FreshMessage Channel.AnyId) ch log₃ ch₂ →
      SameEntry s s₁ s₂ p ∧ ReadsWritten config s₁ ch₁ p buf offset ∧
        DeletesUploaded config s₁ ch ch₁ p := by
  intro hall
  obtain ⟨s₀, evs, s, s₁, t, s₂, h0, hrun, hnone, he, hcreate, he'⟩ := sampleFirstWrite_exec
  obtain ⟨-, hread, -⟩ := hall _ _ _ _ _ _ _ _ _ _ _ _ _ _ _ _ _ _ h0 hrun (by decide) hnone
    (by decide) he sampleUpload_served hcreate he' sampleUpload_served
  obtain ⟨-, hlive, -⟩ := writeMissing_served (reachable_wf h0 hrun).1 (by decide) hnone he
    sampleUpload_served
  exact not_readsWritten (by decide) hnone hlive (by decide) hread

end TgFuse

/-
  TgFuse.Spec.Lengths

  Paths of any length, over whole runs of create, mkdir and write.

  `path`, `file_id` and `message_id` are consecutive arrays, and nothing checks
  the length of a path before it is copied.  As long as every path fits, each
  array keeps a NUL of its own and what is cut out of a path fits its buffer
  (`TgFile.Intact`); a longer path leaves an entry without.
-/

import TgFuse.Spec.Answers
import TgFuse.Spec.Served

namespace TgFuse

open CString Interact KeyedList Lts

-- ============================================================================
-- Intact entries
-- ============================================================================

/-- Each array of the entry has a NUL, and its name and its directory fit 100 bytes. -/
structure TgFile.Intact (f : TgFile) : Prop where
  path : 0 ∈ f.path.bytes
  fileId : 0 ∈ f.fileId.bytes
  messageId : 0 ∈ f.messageId.bytes
  filename : ∃ name, tgFileExtractFilename uninit f = some name
  directory : ∃ dir, tgFileExtractDirectory uninit f = some dir

/-- What a call makes of the table: an error leaves it alone; otherwise all entries are
    intact, and a new one has no ids. -/
def HandlesPath (st : TgStorage) (ret : Int) (st' : TgStorage) : Prop :=
  (ret < 0 ∧ st' = st) ∨
    ((∀ f ∈ st'.live, f.Intact) ∧
      ∀ f, st'.live = st.live ++ [f] → f.fileIdStr = [] ∧ f.messageIdStr = [])

/-- The calls that bring paths in. -/
def Call.Stores : Call → Prop
  | .create _ | .mkdir _ | .write .. => True
  | _ => False

/-- A call that brings in an absolute path of any length, its requests served. -/
def StoreStep (config : TgConfig) (w : World) (ev : Event) (w' : World) : Prop :=
  ev.call.Stores ∧ ev.call.path.head? = some slash ∧ 0 ∉ ev.call.path ∧
    WorldStep (Serves Channel.AnyId Channel.AnyId) config w ev w'

/-- One whose path fits. -/
def ShortStep (config : TgConfig) (w : World) (ev : Event) (w' : World) : Prop :=
  ev.call.path.length ≤ 99 ∧ StoreStep config w ev w'

section Intact

variable {f g : TgFile} {p fid mid : List UInt8} {n : Nat}

/-- An entry with a valid path is intact if its ids are terminated. -/
theorem TgFile.Named.intact (hf : f.Named) (hid : 0 ∈ f.fileId.bytes)
    (hmid : 0 ∈ f.messageId.bytes) : f.Intact := by
  obtain ⟨name, hname, -⟩ := tgFileExtractFilename_spec hf.hasPath hf.valid uninit_length
  obtain ⟨dir, hdir, -⟩ := tgFileExtractDirectory_spec hf.hasPath hf.valid uninit_length
  refine ⟨?_, hid, hmid, ⟨name, hname⟩, ⟨dir, hdir⟩⟩
  rw [hf.hasPath]
  exact CharArray.zero_mem_ofList (Nat.lt_succ_of_le hf.valid.length_le)

theorem zero_mem_zeros : 0 ∈ (CharArray.zeros : CharArray fieldSize).bytes := by decide

theorem newFile_intact (hp : ValidPath p) (n : Nat) : (newFile p n).Intact :=
  ((newFile_hasPath p n).named hp).intact zero_mem_zeros zero_mem_zeros

theorem newDir_intact (hp : ValidPath p) : (newDir p).Intact :=
  ((newDir_hasPath p).named hp).intact zero_mem_zeros zero_mem_zeros

/-- An upload that is served leaves ids that fit. -/
theorem Uploaded.intact {okMessage okFile : Channel → Id → Prop} {ch ch' : Channel}
    {document : List UInt8} (hf : f.Named) (hi : f.Intact)
    (h : Uploaded okMessage okFile ch f document g ch') (m : Nat) : (g.withSize m).Intact := by
  have hnamed := (hf.congr (g := g.withSize m) h.entry.1).1
  cases h with
  | sent _ hmid hfid =>
      exact hnamed.intact (CharArray.zero_mem_ofList (Nat.lt_succ_of_le hfid.length_le))
        (CharArray.zero_mem_ofList (Nat.lt_succ_of_le hmid.length_le))
  | edited _ hfid =>
      exact hnamed.intact (CharArray.zero_mem_ofList (Nat.lt_succ_of_le hfid.length_le))
        hi.messageId

end Intact

-- ============================================================================
-- Steps
-- ============================================================================

/-- The entries hold valid paths, are intact, and have both ids or none. -/
structure IntactTable (st : TgStorage) : Prop where
  wf : st.Wf
  intact : ∀ f ∈ st.live, f.Intact
  blank : ∀ f ∈ st.live, f.Blank

section Steps

variable {config : TgConfig} {w w' : World} {ev : Event} {st st' : TgStorage} {g : TgFile}

/-- A new entry. -/
theorem IntactTable.append (h : IntactTable st) (hwf : st'.Wf) (hlive : st'.live = st.live ++ [g])
    (hg : g.Intact) (hid : g.fileId = .zeros) (hmid : g.messageId = .zeros) (ret : Int) :
    IntactTable st' ∧ HandlesPath st ret st' := by
  have hintact : ∀ f ∈ st'.live, f.Intact := by
    intro f hf
    rw [hlive, List.mem_append, List.mem_singleton] at hf
    rcases hf with hf | rfl
    · exact h.intact f hf
    · exact hg
  refine ⟨⟨hwf, hintact, ?_⟩, Or.inr ⟨hintact, ?_⟩⟩
  · intro f hf
    rw [hlive, List.mem_append, List.mem_singleton] at hf
    rcases hf with hf | rfl
    · exact h.blank f hf
    · exact fun _ => ⟨hid, hmid⟩
  · intro f hf
    rw [hlive, List.append_cancel_left_eq, List.singleton_inj] at hf
    rw [← hf, TgFile.messageIdStr, hmid]
    exact ⟨fileIdStr_of_zeros hid, CharArray.str_zeros⟩

/-- An entry whose document has been uploaded. -/
theorem IntactTable.setSlot {i : Nat} (h : IntactTable st) (hg : g.Named) (hi : g.Intact)
    (hb : g.Blank) (ret : Int) :
    IntactTable (st.setSlot i g) ∧ HandlesPath st ret (st.setSlot i g) := by
  have hmem : ∀ f ∈ (st.setSlot i g).live, f ∈ st.live ∨ f = g := by
    intro f hf
    rw [setSlot_live] at hf
    exact List.mem_or_eq_of_mem_set hf
  have hintact : ∀ f ∈ (st.setSlot i g).live, f.Intact := by
    intro f hf
    rcases hmem f hf with hf | rfl
    · exact h.intact f hf
    · exact hi
  refine ⟨⟨h.wf.setSlot hg, hintact, ?_⟩, Or.inr ⟨hintact, ?_⟩⟩
  · intro f hf
    rcases hmem f hf with hf | rfl
    · exact h.blank f hf
    · exact hb
  · -- no entry is new
    intro f hf
    have hlen := congrArg List.length hf
    rw [setSlot_live, List.length_set, List.length_append] at hlen
    exact absurd hlen (by simp)

/-- A call whose path fits keeps the table intact. -/
theorem IntactTable.step (h : IntactTable w.statics.storage) (hstep : ShortStep config w ev w') :
    IntactTable w'.statics.storage ∧
      HandlesPath w.statics.storage ev.reply.ret w'.statics.storage := by
  obtain ⟨hlen, hstores, hhead, hnul, ⟨heap, he⟩, hs⟩ := hstep
  have hp : ValidPath ev.call.path := ⟨hhead, hnul, hlen⟩
  obtain ⟨call, log, reply⟩ := ev
  cases call with
  | getattr | rmdir | readdir | «open» | read | unlink | setxattr | utimens => cases hstores
  | create p =>
      obtain ⟨a, ha, rfl⟩ := exec_reply.mp he
      obtain ⟨-, ⟨f, -, -, rfl, hst⟩ | ⟨-, st', hst, -, hs'⟩⟩ := (exec_helloCreate hp).mp ha
      · rw [hst]
        exact ⟨h, Or.inl ⟨(by decide : -eisdir < 0), rfl⟩⟩
      · obtain ⟨hwf, hlive⟩ := h.wf.push ((newFile_hasPath p 0).named hp) hst
        rw [hs']
        exact h.append hwf hlive (newFile_intact hp 0) rfl rfl _
  | mkdir p =>
      obtain ⟨a, ha, rfl⟩ := exec_reply.mp he
      obtain ⟨-, st', hst, -, hs'⟩ := (exec_helloMkdir hp).mp ha
      obtain ⟨hwf, hlive⟩ := h.wf.push ((newDir_hasPath p).named hp) hst
      rw [hs']
      exact h.append hwf hlive (newDir_intact hp) rfl rfl _
  | write p buf offset =>
      obtain ⟨a, ha, rfl⟩ := exec_reply.mp he
      rcases (exec_helloWrite h.wf hp).mp ha with ⟨-, -, st', b, data', r, f', hw⟩ |
        ⟨f, -, -, -, rfl, hst⟩ | ⟨i, f, -, hf, -, -, l₁, b₀, b, data, data', r, f', hw⟩
      · obtain ⟨hwf, hlive⟩ := h.wf.push ((newFile_hasPath p _).named hp) hw.pushed
        rw [hw.state_eq]
        exact h.append hwf hlive (newFile_intact hp _) rfl rfl _
      · rw [hst]
        exact ⟨h, Or.inl ⟨(by decide : -enoent < 0), rfl⟩⟩
      · have hmem := List.mem_of_getElem? hf
        have hnamed := h.wf.named f hmem
        have hlog := hw.log_eq
        rw [show log = _ from hlog] at hs
        obtain ⟨d, -, hput⟩ := serve_append.mp hs
        have hup := uploaded_of_serve (h.blank f hmem) hw.received hw.after hput
        rw [hw.state_eq]
        have hintact := hup.intact hnamed (h.intact f hmem)
        apply h.setSlot (written_named data' hnamed hw.after).1 (hintact _)
        exact fun hnil => absurd hnil hup.entry.2.2.ne_nil

/-- A table that holds nothing but `"/"`. -/
theorem intactTable_initial {s : Statics} (h0 : Initial s) : IntactTable s.storage := by
  obtain ⟨hwf, hlive, -⟩ := initial_live h0
  refine ⟨hwf, fun f hf => ?_, fun f hf => ?_⟩
  · rw [hlive, List.mem_singleton] at hf
    rw [hf]
    exact newDir_intact validPath_root
  · rw [hlive, List.mem_singleton] at hf
    rw [hf]
    exact fun _ => ⟨rfl, rfl⟩

/-- As long as every path fits, the table stays intact. -/
theorem run_intact {w₀ : World} {evs : List Event} (h0 : Initial w₀.statics)
    (hrun : Run (ShortStep config) w₀ evs w) : IntactTable w.statics.storage :=
  hrun.invariant (P := fun _ w => IntactTable w.statics.storage) (intactTable_initial h0)
    fun _ _ _ _ _ h hstep => (h.step hstep).1

end Steps

-- ============================================================================
-- Paths that do not fit
-- ============================================================================

/-- A program that leaves the table alone, and whose result has `Q`. -/
def Keeps {α : Type} (p : Handler α) (Q : α → Prop) : Prop :=
  ∀ s log o s', Exec receive p s log o s' → s'.storage = s.storage ∧ ∀ a, o = some a → Q a

/-- A pointer to a handler's own record. -/
def FilePtr.IsVar (ptr : FilePtr) : Prop := ∃ f, ptr = .var f

section Keeps

variable {α β : Type} {p : Handler α} {k : α → Handler β} {Q : α → Prop} {R : β → Prop} {a : α}

theorem Keeps.bind (hp : Keeps p Q) (hk : ∀ a, Q a → Keeps (k a) R) : Keeps (p >>= k) R := by
  intro s log o s' he
  rcases (exec_bind receive).mp he with ⟨a, t, l₁, l₂, -, h₁, h₂⟩ | ⟨rfl, hcrash⟩
  · obtain ⟨hst₁, hQ⟩ := hp _ _ _ _ h₁
    obtain ⟨hst₂, hR⟩ := hk a (hQ a rfl) _ _ _ _ h₂
    exact ⟨hst₂.trans hst₁, hR⟩
  · exact ⟨(hp _ _ _ _ hcrash).1, fun b hb => by cases hb⟩

theorem keeps_pure (ha : Q a) : Keeps (pure a : Handler α) Q := by
  rintro s log o s' ⟨-, rfl, rfl⟩
  exact ⟨rfl, fun b hb => Option.some.inj hb ▸ ha⟩

theorem keeps_fault : Keeps (.fault : Handler α) Q := by
  rintro s log o s' ⟨-, rfl, rfl⟩
  exact ⟨rfl, fun b hb => by cases hb⟩

theorem keeps_getState : Keeps (Prog.getState : Handler Statics) fun _ => True := by
  rintro s log o s' ⟨-, -, rfl⟩
  exact ⟨rfl, fun _ _ => trivial⟩

theorem keeps_liftOption (x : Option α) :
    Keeps (Prog.liftOption x : Handler α) fun _ => True := by
  cases x with
  | none => exact keeps_fault
  | some a => exact keeps_pure trivial

theorem keeps_exchange (q : Request) :
    Keeps (Prog.exchange q : Handler Response) fun _ => True := by
  rintro s log o s' ⟨r, rest, -, ⟨-, -, -, rfl⟩ | ⟨t, ht, -, -, rfl⟩⟩
  · exact ⟨rfl, fun _ _ => trivial⟩
  · refine ⟨?_, fun _ _ => trivial⟩
    cases q with
    | download =>
        cases ht
        rfl
    | sendDocument | editMessageMedia | getFile | deleteMessage =>
        obtain ⟨b, -, rfl⟩ := Option.map_eq_some_iff.mp ht
        rfl

theorem keeps_load {ptr : FilePtr} (h : ptr.IsVar) : Keeps ptr.load fun _ => True := by
  obtain ⟨f, rfl⟩ := h
  exact keeps_pure trivial

theorem keeps_store {ptr : FilePtr} (h : ptr.IsVar) (f : TgFile) :
    Keeps (ptr.store f) FilePtr.IsVar := by
  obtain ⟨g, rfl⟩ := h
  exact keeps_pure ⟨f, rfl⟩

/-- An upload for a handler's own record. -/
theorem keeps_tgPutFile {ptr : FilePtr} (h : ptr.IsVar) (config : TgConfig) (data : Buffer) :
    Keeps (tgPutFile ptr config data) FilePtr.IsVar := by
  unfold tgPutFile
  refine (keeps_load h).bind fun f _ => (keeps_liftOption _).bind fun filename _ =>
    (keeps_liftOption _).bind fun directory _ => ?_
  split
  · exact (keeps_exchange _).bind fun _ _ => keeps_getState.bind fun s _ =>
      (keeps_load h).bind fun f _ => (keeps_liftOption _).bind fun f _ => keeps_store h f
  · refine (keeps_exchange _).bind fun r _ => ?_
    split
    · exact keeps_fault
    · exact keeps_getState.bind fun s _ => (keeps_load h).bind fun f _ =>
        (keeps_liftOption _).bind fun f _ => keeps_store h f

/-- A write into a handler's own record. -/
theorem keeps_writeData {ptr : FilePtr} (h : ptr.IsVar) (heap : Heap) (config : TgConfig)
    (data : Buffer) (buf : List UInt8) (offset : Int) :
    Keeps (writeData heap config ptr data buf offset) fun _ => True := by
  unfold writeData
  exact (keeps_liftOption _).bind fun data _ => (keeps_tgPutFile h config data).bind fun ptr h =>
    (keeps_load h).bind fun f _ => (keeps_store h _).bind fun _ _ => keeps_pure trivial

end Keeps

section Long

variable {config : TgConfig} {w w' : World} {ev : Event} {s s' : Statics} {st' : TgStorage}
  {f : TgFile} {p buf : List UInt8} {offset res : Int} {heap : Heap} {n : Nat}
  {log : List (Request × Response)}

/-- A path that does not fit leaves no NUL in its array. -/
theorem not_intact_of_long {file : TgFile} (hnul : 0 ∉ p) (hlen : 99 < p.length)
    (h : strcpyPath file p = some f) : ¬ f.Intact := by
  intro hi
  unfold strcpyPath at h
  split at h
  · cases h
    have hzero := hi.path
    have hfull : fieldSize - p.length = 0 := Nat.sub_eq_zero_of_le hlen
    rw [CharArray.bytes_ofList, hfull, List.replicate_zero, List.append_nil] at hzero
    exact hnul (List.mem_of_mem_take hzero)
  · cases h

/-- An entry whose path does not fit is pushed. -/
theorem not_handlesPath_of_pushed {st : TgStorage} {slots : Nat → TgFile} {ret : Int}
    (hv : st.Valid) (hf : ¬ f.Intact) (h : tgStoragePush slots st f = some st') :
    ¬ HandlesPath st ret st' := by
  obtain ⟨-, hlive, hsize⟩ := tgStoragePush_spec hv h
  rintro (⟨-, heq⟩ | ⟨hintact, -⟩)
  · rw [heq] at hsize
    omega
  · apply hf (hintact f _)
    rw [hlive]
    exact List.mem_append_right _ (List.mem_singleton_self f)

/-- No entry of an intact table has a path that does not fit. -/
theorem findByPath_long (h : IntactTable s.storage) (p : List UInt8) (hlen : 99 < p.length) :
    tgStorageFindByPath s.storage p = none := by
  apply tgStorageFindByPath_none.mpr
  rintro f hf rfl
  exact absurd (h.wf.named f hf).valid.length_le (Nat.not_le.mpr hlen)

/-- A call whose path does not fit breaks the table. -/
theorem IntactTable.long_path (h : IntactTable w.statics.storage)
    (hstep : StoreStep config w ev w') (hlen : 99 < ev.call.path.length) :
    ¬ HandlesPath w.statics.storage ev.reply.ret w'.statics.storage := by
  obtain ⟨hstores, -, hnul, ⟨heap, he⟩, -⟩ := hstep
  obtain ⟨call, log, reply⟩ := ev
  have hv := h.wf.valid
  cases call with
  | getattr | rmdir | readdir | «open» | read | unlink | setxattr | utimens => cases hstores
  | create p =>
      obtain ⟨a, ha, rfl⟩ := exec_reply.mp he
      unfold helloCreate at ha
      rw [exec_findByPath_bind, findByPath_long h p hlen] at ha
      simp only [exec_pure_bind, Bool.false_eq_true, if_false, exec_liftOption_bind_some,
        exec_pushFile_bind_some] at ha
      obtain ⟨f, hf, st', hst, -, -, hs'⟩ := ha
      rw [hs']
      exact not_handlesPath_of_pushed hv (not_intact_of_long hnul hlen hf) hst
  | mkdir p =>
      obtain ⟨a, ha, rfl⟩ := exec_reply.mp he
      unfold helloMkdir at ha
      simp only [exec_liftOption_bind_some, exec_pushFile_bind_some] at ha
      obtain ⟨f, hf, st', hst, -, -, hs'⟩ := ha
      rw [hs']
      exact not_handlesPath_of_pushed hv (not_intact_of_long hnul hlen hf) hst
  | write p buf offset =>
      obtain ⟨a, ha, rfl⟩ := exec_reply.mp he
      unfold helloWrite at ha
      rw [exec_findByPath_bind, findByPath_long h p hlen] at ha
      simp only [exec_liftOption_bind_some, exec_pushFile_bind_some] at ha
      obtain ⟨f, hf, st', hst, hwrite⟩ := ha
      -- the upload is for the local record
      obtain ⟨hkeeps, -⟩ := keeps_writeData ⟨f, rfl⟩ _ _ _ _ _ _ _ _ _ hwrite
      rw [hkeeps]
      exact not_handlesPath_of_pushed hv (not_intact_of_long hnul hlen hf) hst

/-- As long as every path fits, every state that is reached is intact; and the next call
    keeps it so exactly if its path fits too. -/
theorem short_paths_handled {w₀ : World} {evs : List Event} (h0 : Initial w₀.statics)
    (hrun : Run (ShortStep config) w₀ evs w) :
    (∀ f ∈ w.statics.storage.live, f.Intact) ∧
      ∀ ev w', StoreStep config w ev w' →
        (HandlesPath w.statics.storage ev.reply.ret w'.statics.storage ↔
          ev.call.path.length ≤ 99) := by
  have hinv := run_intact h0 hrun
  refine ⟨hinv.intact, fun ev w' hstep => ⟨fun hhandles => ?_, fun hlen => ?_⟩⟩
  · by_contra hlong
    exact hinv.long_path hstep (Nat.not_le.mp hlong) hhandles
  · exact (hinv.step ⟨hlen, hstep⟩).2

end Long

/-- A path of 101 bytes. -/
def longPath : List UInt8 := slash :: List.replicate 100 97

/-- A create, and a create whose path does not fit, both go through. -/
theorem sampleLong_step :
    ∃ s₀ s t ch, Initial s₀ ∧
      Run (ShortStep blankConfig) ⟨s₀, ch⟩ [⟨.create (text "/a"), [], .status 0⟩] ⟨s, ch⟩ ∧
      StoreStep blankConfig ⟨s, ch⟩ ⟨.create longPath, [], .status 0⟩ ⟨t, ch⟩ := by
  obtain ⟨s₀, evs, s, h0, ⟨rfl, hres, hlog⟩, hrun⟩ := run_of_runFromMain
    (fun _ call => call = .create (text "/a")) [(.create (text "/a"), [])]
    (fun evs s => evs = [⟨.create (text "/a"), [], .status 0⟩] ∧
      (run receive ((Call.create longPath).handler zeroHeap blankConfig) s
        fun _ => lostAnswer).result = some (.status 0) ∧
      (run receive ((Call.create longPath).handler zeroHeap blankConfig) s
        fun _ => lostAnswer).log = [])
    (by decide +kernel)
  have he := exec_of_result receive hres hlog
  refine ⟨s₀, s, _, Channel.empty, h0, ?_, trivial, rfl, by decide, ⟨zeroHeap, he⟩, rfl⟩
  have hs : Serve (Serves Channel.AnyId Channel.AnyId) Channel.empty
      ([⟨.create (text "/a"), [], .status 0⟩].flatMap Event.log) Channel.empty := rfl
  have hworld := run_world (A := fun _ ev => decide (ev.call = .create (text "/a")) = true) hrun hs
  refine hworld.mono fun w ev w' ⟨hcall, hstep⟩ => ?_
  have hcall := of_decide_eq_true hcall
  refine ⟨?_, ?_, ?_, ?_, hstep⟩ <;> rw [hcall]
  · decide
  · exact trivial
  · rfl
  · decide

/-- One path fits, and the next one does not. -/
theorem short_paths_handled_sample :
    ∃ s t : Statics, (∀ f ∈ s.storage.live, f.Intact) ∧ ¬ HandlesPath s.storage 0 t.storage := by
  obtain ⟨s₀, s, t, ch, h0, hrun, hstep⟩ := sampleLong_step
  obtain ⟨hintact, hnext⟩ := short_paths_handled h0 hrun
  refine ⟨s, t, hintact, fun h => ?_⟩
  exact absurd ((hnext _ _ hstep).mp h) (by decide)

/-- A long path runs on into the ids. -/
theorem long_path_spills :
    ¬ ∀ (config : TgConfig) (w₀ w w' : World) (evs : List Event) (ev : Event),
      Initial w₀.statics → Run (StoreStep config) w₀ evs w → StoreStep config w ev w' →
      HandlesPath w.statics.storage ev.reply.ret w'.statics.storage := by
  intro hall
  obtain ⟨s₀, s, t, ch, h0, hrun, hstep⟩ := sampleLong_step
  exact (run_intact h0 hrun).long_path hstep (by decide)
    (hall _ _ _ _ _ _ h0 (hrun.mono fun _ _ _ hs => hs.2) hstep)

end TgFuse

/-
  TgFuse.Spec.ReadBack

  Reading back what was written, over whole runs in which every request succeeds.

  `tracked` computes from the history of calls what a file has become: a `Sparse`
  file, known through its writes.  The table, the channel and the history agree
  (`ReadInvariant`), and therefore `getattr` and `read` answer from the history.
-/

import TgFuse.Spec.Accounting
import TgFuse.Spec.Paths

namespace TgFuse

open CString Interact KeyedList Lts Overlay

-- ============================================================================
-- The history of a file
-- ============================================================================

/-- What a call makes of the file `P`; `none` where there is none to speak of. -/
def track (P : List UInt8) (t : Option (Sparse UInt8)) (ev : Event) : Option (Sparse UInt8) :=
  match ev.call with
  | .create p => if p = P then some Sparse.empty else t
  | .write p buf offset => if p = P then t.map fun f => f.write offset.toNat buf else t
  | .unlink p => if p = P then none else t
  | .rmdir p => if ev.reply.ret = 0 ∧ (p = text "/" ∨ Below p P) then none else t
  | _ => t

/-- The file `P` after a history: created and not unlinked since, nor below a
    directory that was removed since. -/
def tracked (evs : List Event) (P : List UInt8) : Option (Sparse UInt8) :=
  evs.foldl (track P) none

theorem tracked_snoc (evs : List Event) (ev : Event) (P : List UInt8) :
    tracked (evs ++ [ev]) P = track P (tracked evs P) ev := by
  simp [tracked, List.foldl_append]

-- ============================================================================
-- The invariant
-- ============================================================================

/-- The entry and the channel have `bytes` for the file. -/
structure Stores (ch : Channel) (f : TgFile) (bytes : List UInt8) : Prop where
  type_eq : f.type = .tgFile
  size_eq : f.fileSize = bytes.length
  empty : bytes = [] → f.fileIdStr = []
  document : bytes ≠ [] → f.fileIdStr ≠ [] ∧ ch.documents f.fileIdStr = some bytes

/-- Table and channel agree with the history. -/
structure ReadInvariant (evs : List Event) (w : World) : Prop where
  wf : w.statics.storage.Wf
  blank : ∀ f ∈ w.statics.storage.live, f.Blank
  paths : Distinct TgFile.pathStr w.statics.storage.live
  stores : ∀ P t, tracked evs P = some t → t.len < 2 ^ 63 ∧
    ∃ f ∈ w.statics.storage.live, f.pathStr = P ∧
      ∃ bytes, t.Describes bytes ∧ Stores w.channel f bytes

/-- The calls of a run: what is created is not there, what is written is a file,
    and sizes and offsets stay within their types. -/
def RangedCall (st : TgStorage) (call : Call) : Prop :=
  ValidPath call.path ∧ KernelCall st call ∧
    match call with
    | .write _ buf offset =>
        buf ≠ [] ∧ buf.length < 2 ^ 31 ∧ 0 ≤ offset ∧ offset + buf.length < 2 ^ 63
    | _ => True

/-- The call changes none of the bytes that the file ids of other paths stand for. -/
def KeepsDocuments (w : World) (call : Call) (w' : World) : Prop :=
  ∀ f ∈ w.statics.storage.live, f.pathStr ≠ call.path → f.fileIdStr ≠ [] →
    w'.channel.documents f.fileIdStr = w.channel.documents f.fileIdStr

/-- One call of a run. -/
def RangedStep (config : TgConfig) (w : World) (ev : Event) (w' : World) : Prop :=
  RangedCall w.statics.storage ev.call ∧ KeepsDocuments w ev.call w' ∧
    WorldStep (Serves Channel.AnyId Channel.AnyId) config w ev w'

section Steps

variable {config : TgConfig} {w₀ w w' : World} {evs : List Event} {ev : Event}
  {f g : TgFile} {bytes : List UInt8} {ch ch' : Channel}

theorem Stores.congr (h : Stores ch f bytes)
    (hdoc : f.fileIdStr ≠ [] → ch'.documents f.fileIdStr = ch.documents f.fileIdStr) :
    Stores ch' f bytes :=
  ⟨h.type_eq, h.size_eq, h.empty, fun hne => by
    obtain ⟨h1, h2⟩ := h.document hne
    exact ⟨h1, (hdoc h1).trans h2⟩⟩

/-- An entry whose document has been uploaded. -/
theorem Stores.upload {okMessage okFile : Channel → Id → Prop} {new : List UInt8}
    (hf : f.type = .tgFile) (hne : new ≠ []) (h : Uploaded okMessage okFile ch f new g ch') :
    Stores ch' (g.withSize new.length) new := by
  obtain ⟨-, htype, hid⟩ := h.entry
  refine ⟨htype.trans hf, rfl, fun h0 => absurd h0 hne, fun _ => ⟨hid.ne_nil, ?_⟩⟩
  rw [withSize_fileIdStr]
  cases h with
  | sent _ _ hfid =>
      rw [sent_fileIdStr _ _ hfid, Channel.post_documents, Function.update_self]
  | edited _ hfid =>
      rw [edited_fileIdStr _ hfid, Channel.edit_documents, Function.update_self]

/-- What is loaded for an entry are the bytes it stores. -/
theorem Stores.old_eq {old : List UInt8} (h : Stores ch f bytes)
    (hold : if f.fileSize > 0 then ch.documents f.fileIdStr = some old else old = []) :
    old = bytes := by
  by_cases hne : bytes = []
  · have hzero : ¬ f.fileSize > 0 := by rw [h.size_eq, hne]; exact Nat.lt_irrefl 0
    rw [if_neg hzero] at hold
    rw [hold, hne]
  · have hpos : f.fileSize > 0 := by rw [h.size_eq]; exact List.length_pos_of_ne_nil hne
    rw [if_pos hpos, (h.document hne).2] at hold
    exact (Option.some.inj hold).symm

theorem readInvariant_nil (h0 : Initial w₀.statics) : ReadInvariant [] w₀ := by
  obtain ⟨hwf, hlive, -⟩ := initial_live h0
  refine ⟨hwf, fun f hf => ?_, ?_, fun P t ht => nomatch ht⟩
  · rw [hlive, List.mem_singleton] at hf
    rw [hf]
    exact fun _ => ⟨rfl, rfl⟩
  · rw [hlive]
    exact List.nodup_singleton _

/-- Table and channel have the file `P`, as far as the history `t` says what it is. -/
def Kept (w : World) (P : List UInt8) (t : Sparse UInt8) : Prop :=
  t.len < 2 ^ 63 ∧ ∃ f ∈ w.statics.storage.live, f.pathStr = P ∧
    ∃ bytes, t.Describes bytes ∧ Stores w.channel f bytes

/-- A file whose entry and document stay. -/
theorem ReadInvariant.kept {P : List UInt8} {t : Sparse UInt8} (h : ReadInvariant evs w)
    (ht : tracked evs P = some t)
    (hsurvive : ∀ f ∈ w.statics.storage.live, f.pathStr = P → f.type = .tgFile →
      f ∈ w'.statics.storage.live ∧ (f.fileIdStr ≠ [] →
        w'.channel.documents f.fileIdStr = w.channel.documents f.fileIdStr)) : Kept w' P t := by
  obtain ⟨hlen, f, hf, hpath, bytes, hdesc, hst⟩ := h.stores P t ht
  obtain ⟨hmem, hdoc⟩ := hsurvive f hf hpath hst.type_eq
  exact ⟨hlen, f, hmem, hpath, bytes, hdesc, hst.congr hdoc⟩

/-- The file that a write is about. -/
theorem ReadInvariant.kept_write {p buf old new : List UInt8} {offset : Int} {i : Nat}
    {t : Sparse UInt8} {ch₁ : Channel} (h : ReadInvariant evs w) (ht : tracked evs p = some t)
    (hbuf : buf ≠ []) (hoff : 0 ≤ offset) (hend : offset + buf.length < 2 ^ 63)
    (hf : w.statics.storage.live[i]? = some f) (hfp : f.pathStr = p) (hfile : f.type = .tgFile)
    (hold : if f.fileSize > 0 then w.channel.documents f.fileIdStr = some old else old = [])
    (hover : IsOverlay old (sizeOfOff offset) buf new)
    (hup : Uploaded Channel.AnyId Channel.AnyId ch₁ f new g w'.channel)
    (hlive : w'.statics.storage.live = w.statics.storage.live.set i (g.withSize new.length)) :
    Kept w' p (t.write offset.toNat buf) := by
  have hfmem := List.mem_of_getElem? hf
  obtain ⟨hlen, f₀, hf₀, hpath, bytes, hdesc, hst⟩ := h.stores p t ht
  obtain rfl : f₀ = f := h.paths.eq_of_key hf₀ hfmem (hpath.trans hfp.symm)
  obtain rfl := hst.old_eq hold
  have hpos : sizeOfOff offset = offset.toNat := sizeOfOff_of_nonneg hoff (by omega)
  rw [hpos] at hover
  have hnamed := h.wf.named f₀ hfmem
  refine ⟨?_, g.withSize new.length, ?_, ?_, new, hdesc.write hover,
    .upload hfile (hover.ne_nil hbuf) hup⟩
  · show max t.len (offset.toNat + buf.length) < 2 ^ 63
    omega
  · rw [hlive]
    exact List.mem_of_getElem? (List.getElem?_set_self (List.getElem?_eq_some_iff.mp hf).1)
  · exact ((hnamed.congr (g := g.withSize new.length) hup.entry.1).2).trans hfp

theorem ReadInvariant.snoc (h : ReadInvariant evs w) (hstep : RangedStep config w ev w') :
    ReadInvariant (evs ++ [ev]) w' := by
  obtain ⟨⟨hp, hk, hrange⟩, hkeep, hworld⟩ := hstep
  have hserved := step_served h.wf h.blank hp hk hworld
  have htab := step_table h.wf hp hworld.1
  refine ⟨htab.wf h.wf, hserved.blank h.wf h.blank, hserved.distinct h.wf h.paths hp, ?_⟩
  intro P t ht
  show Kept w' P t
  rw [tracked_snoc] at ht
  have hkeep' : ∀ f ∈ w.statics.storage.live, f.pathStr ≠ ev.call.path → f.fileIdStr ≠ [] →
      w'.channel.documents f.fileIdStr = w.channel.documents f.fileIdStr := hkeep
  obtain ⟨call, log, reply⟩ := ev
  obtain ⟨⟨st', json'⟩, ch'⟩ := w'
  dsimp only at hserved hp hk hrange hkeep' ht
  generalize hret : reply.ret = ret at hserved
  generalize deletedIds log = mids at hserved
  cases hserved with
  | query hq hsame =>
      have htrack : track P (tracked evs P) ⟨call, log, reply⟩ = tracked evs P := by
        cases call <;> first | rfl | cases hq
      rw [htrack] at ht
      exact h.kept ht fun f hf _ _ => ⟨hf, fun _ => by rw [hsame.documents]⟩
  | @create p _ hl hlive =>
      simp only [track] at ht
      split at ht
      · next heq =>
        subst heq
        cases ht
        refine ⟨by decide, newFile p 0, ?_, newFile_pathStr hp 0, [], Sparse.describes_empty,
          rfl, rfl, fun _ => newFile_fileIdStr p 0, fun hne => absurd rfl hne⟩
        rw [hlive]
        exact List.mem_append_right _ (List.mem_singleton_self _)
      · refine h.kept ht fun f hf _ _ => ⟨?_, fun _ => rfl⟩
        rw [hlive]
        exact List.mem_append_left _ hf
  | @mkdir p _ hl hlive =>
      refine h.kept ht fun f hf _ _ => ⟨?_, fun _ => rfl⟩
      rw [hlive]
      exact List.mem_append_left _ hf
  | @write p buf old new offset i f g ch₁ _ hi hf hfile hold hover hsame hup =>
      obtain ⟨hne, -, hoff, hend⟩ := hrange
      obtain ⟨f', hf', hfp⟩ := tgStorageFindByPath_some hi
      rw [hf] at hf'
      cases hf'
      simp only [track] at ht
      split at ht
      · next heq =>
        subst heq
        obtain ⟨t₀, ht₀, rfl⟩ := Option.map_eq_some_iff.mp ht
        exact h.kept_write ht₀ hne hoff hend hf hfp hfile hold hover hup setSlot_live
      · next hne' =>
        refine h.kept ht fun x hx hxp _ => ?_
        have hxne : x.pathStr ≠ p := hxp ▸ fun e => hne' e.symm
        refine ⟨?_, hkeep' x hx hxne⟩
        show x ∈ (w.statics.storage.setSlot i (g.withSize new.length)).live
        rw [setSlot_live]
        exact (mem_set_iff h.paths hf).mpr (Or.inr ⟨hx, hfp.symm ▸ hxne⟩)
  | @unlinkMissing p hl =>
      simp only [track] at ht
      split at ht
      · cases ht
      · exact h.kept ht fun f hf _ _ => ⟨hf, fun _ => rfl⟩
  | @unlink p f hl =>
      simp only [track] at ht
      split at ht
      · cases ht
      · next hne =>
        refine h.kept ht fun x hx hxp _ => ⟨?_, fun _ => rfl⟩
        exact (mem_without_iff h.wf.valid h.paths).mpr ⟨hx, hxp ▸ fun e => hne e.symm⟩
  | @rmdirOther p hno =>
      simp only [track] at ht
      split at ht
      · cases ht
      · exact h.kept ht fun f hf _ _ => ⟨hf, fun _ => rfl⟩
  | @rmdir p d _ hl hd hmids =>
      simp only [track, hret, true_and] at ht
      split at ht
      · cases ht
      · next hbelow =>
        rw [not_or] at hbelow
        refine h.kept ht fun x hx hxp hxt => ⟨?_, fun _ => rfl⟩
        refine mem_rmdirTable_of_not_inDir h.wf hl hx ?_ ?_
        · rw [Bool.eq_false_iff, Ne, inDir_iff]
          rintro ⟨-, hdir⟩
          exact hbelow.2 (hxp ▸ below_of_dirOf (h.wf.named x hx).valid hbelow.1 hdir)
        · intro heq
          obtain rfl := h.paths.eq_of_key hx (lookup_some hl).1 (heq.trans (lookup_some hl).2.symm)
          rw [hxt] at hd
          cases hd

end Steps

-- ============================================================================
-- Queries
-- ============================================================================

/-- `hello_getattr` reports the length of the file. -/
def ReportsSize (config : TgConfig) (w : World) (P : List UInt8) (t : Sparse UInt8) : Prop :=
  ∀ heap log o s', Exec receive ((Call.getattr P).handler heap config) w.statics log o s' →
    ∃ st, o = some (.stat 0 st) ∧ st.stSize = t.len

/-- `hello_read` returns what there is of the window asked for, with the bytes
    written last. -/
def ReadsBack (config : TgConfig) (w : World) (P : List UInt8) (t : Sparse UInt8) : Prop :=
  ∀ heap (size offset : Nat) log o s' ch', size < 2 ^ 31 → offset + size < 2 ^ 63 →
    Exec receive ((Call.read P size offset).handler heap config) w.statics log o s' →
    Serve (Serves Channel.AnyId Channel.AnyId) w.channel log ch' →
    ∃ buf, o = some (.data buf.length buf) ∧ buf.length = min size (t.len - offset) ∧
      ∀ i b, i < size → t.known (offset + i) = some b → buf[i]? = some b

section Queries

variable {config : TgConfig} {w₀ w : World} {evs : List Event} {s s' : Statics} {ch ch' : Channel}
  {P bytes : List UInt8} {f : TgFile} {heap : Heap} {log : List (Request × Response)}
  {t : Sparse UInt8}

/-- A handler with its result wrapped up, whatever becomes of it. -/
theorem exec_reply_some {α : Type} {p : Handler α} {k : α → Reply} {o : Option Reply}
    (he : Exec receive (p >>= fun r => pure (k r)) s log o s')
    (hdone : ∀ {o' : Option α}, Exec receive p s log o' s' → ∃ a, o' = some a) :
    ∃ a, Exec receive p s log (some a) s' ∧ o = some (k a) := by
  rcases (exec_bind receive).mp he with ⟨a, t, l₁, l₂, rfl, hp, hl₂, ho, ht⟩ | ⟨-, hcrash⟩
  · rw [hl₂, List.append_nil, ht]
    exact ⟨a, hp, ho⟩
  · obtain ⟨a, ha⟩ := hdone hcrash
    cases ha

/-- A served read of a stored file returns the window asked for. -/
theorem exec_helloRead_stored {size offset : Nat} {o : Option (Int × List UInt8)}
    (hl : s.storage.lookup P = some f) (hst : Stores ch f bytes) (hsize : size < 2 ^ 31)
    (hend : offset + size < 2 ^ 63) (hlen : bytes.length < 2 ^ 63)
    (he : Exec receive (helloRead heap config P size offset) s log o s')
    (hs : Serve (Serves Channel.AnyId Channel.AnyId) ch log ch') :
    o = some ((((bytes.drop offset).take size).length : Int), (bytes.drop offset).take size) := by
  obtain ⟨i, hi, hlive, hfile⟩ := findByPath_of_lookup hl
  by_cases hempty : bytes = []
  · -- without a file id nothing is requested
    have hid : f.fileIdStr.length = 0 := by rw [hst.empty hempty]; rfl
    unfold helloRead at he
    rw [exec_findByPath_bind, hi] at he
    simp only [exec_slot_load_bind hfile, if_pos hid] at he
    rw [hempty]
    simpa using he.2.1
  · obtain ⟨hid, hdoc⟩ := hst.document hempty
    have hid' : f.fileIdStr.length ≠ 0 := fun h => hid (List.eq_nil_of_length_eq_zero h)
    have hread : ∀ {src : Buffer}, src.Valid → src.contents = bytes →
        readReply src size offset
          = some ((((bytes.drop offset).take size).length : Int),
              (bytes.drop offset).take size) := by
      intro src hv hc
      have hsz := hv.length_contents
      rw [hc] at hsz
      have hpos := List.length_pos_of_ne_nil hempty
      rw [readReply_eq hv (by omega) hsize hend (by omega), hc]
    rw [exec_helloRead_file hi hfile hid'] at he
    rcases (exec_bind receive).mp he with ⟨src, t, l₁, l₂, rfl, hload, hk⟩ | ⟨-, hcrash⟩
    · obtain ⟨d, hs₁, -⟩ := serve_append.mp hs
      obtain ⟨b, hloaded, rfl⟩ := (exec_tgFileLoadContents (.slot i) hfile).mp hload
      obtain ⟨-, hsrc⟩ := hloaded.served hs₁
      rw [hdoc] at hsrc
      rw [hread hloaded.valid (Option.some.inj hsrc).symm] at hk
      exact hk.2.1
    · obtain ⟨data, hdata⟩ := exec_tgFileLoadContents_completes (.slot i) hfile hcrash
        (hs.mono fun _ _ _ _ => Or.inl)
        (fun d hd => by rw [hdoc] at hd; cases hd; omega)
      cases hdata

theorem readInvariant (h0 : Initial w₀.statics) (hrun : Run (RangedStep config) w₀ evs w) :
    ReadInvariant evs w :=
  hrun.invariant (P := ReadInvariant) (readInvariant_nil h0) fun _ _ _ _ _ h hstep => h.snoc hstep

/-- After every run, what was written to a file is read back, and its length is
    reported unless it is `"/"`. -/
theorem written_is_read_back (h0 : Initial w₀.statics) (hrun : Run (RangedStep config) w₀ evs w)
    (ht : tracked evs P = some t) :
    (P ≠ text "/" → ReportsSize config w P t) ∧ ReadsBack config w P t := by
  have hinv := readInvariant h0 hrun
  obtain ⟨hlen, f, hf, hpath, bytes, hdesc, hst⟩ := hinv.stores P t ht
  have hl : w.statics.storage.lookup P = some f := hpath ▸ lookup_of_mem hinv.paths hf
  have hbytes := hdesc.length_eq
  constructor
  · intro hP heap log o s' he
    obtain ⟨a, ha, rfl⟩ := exec_reply_some he fun h => ⟨_, (exec_helloGetattr.mp h).2.1⟩
    obtain ⟨-, hreply, -⟩ := exec_helloGetattr.mp ha
    have hstat : getattrReply w.statics.storage P = (0, statOf f) := by
      rw [getattrReply, if_neg hP, hl]
    rw [hstat] at hreply
    cases hreply
    refine ⟨statOf f, rfl, ?_⟩
    simp only [statOf, hst.type_eq, hst.size_eq, hbytes]
    unfold offT
    rw [Int.bmod_eq_of_le_mul_two] <;> omega
  · intro heap size offset log o s' ch' hsize hend he hs
    have hdone : ∀ {o' : Option (Int × List UInt8)},
        Exec receive (helloRead heap config P size offset) w.statics log o' s' → o' =
          some ((((bytes.drop offset).take size).length : Int), (bytes.drop offset).take size) :=
      fun h => exec_helloRead_stored hl hst hsize hend (by omega) h hs
    obtain ⟨a, ha, rfl⟩ := exec_reply_some he fun h => ⟨_, hdone h⟩
    cases hdone ha
    refine ⟨(bytes.drop offset).take size, rfl, ?_, fun i b hi hb => hdesc.window hi hb⟩
    rw [List.length_take, List.length_drop, hbytes]

end Queries

-- ============================================================================
-- Runs on fixed inputs
-- ============================================================================

instance (st : TgStorage) (call : Call) : Decidable (RangedCall st call) :=
  have : Decidable (match call with
      | .write _ buf offset =>
          buf ≠ [] ∧ buf.length < 2 ^ 31 ∧ 0 ≤ offset ∧ offset + buf.length < 2 ^ 63
      | _ => True) :=
    match call with
    | .write _ buf offset => inferInstanceAs (Decidable
        (buf ≠ [] ∧ buf.length < 2 ^ 31 ∧ 0 ≤ offset ∧ offset + buf.length < 2 ^ 63))
    | .create _ | .mkdir _ | .getattr _ | .rmdir _ | .readdir _ | .open _ | .read .. | .unlink _
    | .setxattr _ | .utimens _ => .isTrue trivial
  inferInstanceAs (Decidable (ValidPath call.path ∧ KernelCall st call ∧ _))

/-- A call of a run in which file ids may come back. -/
def ReusingStep (config : TgConfig) (w : World) (ev : Event) (w' : World) : Prop :=
  RangedCall w.statics.storage ev.call ∧
    WorldStep (Serves Channel.AnyId Channel.AnyId) config w ev w'

/-- The first write of a file called `name` in `"/"`, with its answer. -/
def firstWrite (name bytes mid fid : String) : Event :=
  ⟨.write (text "/" ++ text name) (text bytes) 0,
    [(.sendDocument blankConfig (text "/") (text name) (text bytes),
      sentAnswer (text mid) (text fid))], .status (text bytes).length⟩

/-- A run whose events are given. -/
theorem run_of_events (allowed : Statics → Call → Bool) (calls : List (Call × List Response))
    (evs : List Event) {ch : Channel}
    (hs : Serve (Serves Channel.AnyId Channel.AnyId) Channel.empty (evs.flatMap Event.log) ch)
    (P : Statics → Prop) [DecidablePred P]
    (h : (runFromMain allowed calls).any (fun r => r.2.1 = evs ∧ P r.2.2) = true) :
    ∃ s₀ s, Initial s₀ ∧ P s ∧ Run (fun w ev w' => allowed w.statics ev.call = true ∧
      WorldStep (Serves Channel.AnyId Channel.AnyId) blankConfig w ev w')
        ⟨s₀, Channel.empty⟩ evs ⟨s, ch⟩ := by
  obtain ⟨s₀, evs', s, h0, ⟨rfl, hP⟩, hrun⟩ := run_of_runFromMain allowed calls
    (fun evs' s => evs' = evs ∧ P s) h
  exact ⟨s₀, s, h0, hP, run_world (A := fun s ev => allowed s ev.call = true) hrun hs⟩

/-- A file is written, and written again at another place. -/
theorem written_is_read_back_sample :
    ∃ w t, t.len = 2 ∧ t.known 1 = some 122 ∧ ReportsSize blankConfig w (text "/a") t ∧
      ReadsBack blankConfig w (text "/a") t := by
  have hdoc : (Channel.empty.post (text "17") (text "AAA") (text "xy")).documents (text "AAA")
      = some (text "xy") := by
    rw [Channel.post_documents, Function.update_self]
  have hserve : Serve (Serves Channel.AnyId Channel.AnyId) Channel.empty
      ([⟨.create (text "/a"), [], .status 0⟩, firstWrite "a" "xy" "17" "AAA",
        ⟨.write (text "/a") (text "z") 1,
          [(.getFile blankConfig (text "AAA"), locatedAnswer (text "p")),
            (.download blankConfig (text "p"), .whole (text "xy")),
            (.editMessageMedia blankConfig (text "17") (text "/") (text "a") (text "xz"),
              editedAnswer (text "BBB"))], .status 1⟩].flatMap Event.log) _ :=
    ⟨_, serves_sent (by decide) (by decide) (by decide) trivial trivial,
      _, serves_located (by decide) hdoc (Or.inl rfl), _, serves_downloaded hdoc,
      _, serves_edited (by decide) trivial, rfl⟩
  obtain ⟨s₀, s, h0, -, hrun⟩ := run_of_events
    (fun s call => RangedCall s.storage call ∧
      ∀ f ∈ s.storage.live, f.pathStr ≠ call.path → f.fileIdStr = [])
    [(.create (text "/a"), []),
      (.write (text "/a") (text "xy") 0, [sentAnswer (text "17") (text "AAA")]),
      (.write (text "/a") (text "z") 1, [locatedAnswer (text "p"), .whole (text "xy"),
        editedAnswer (text "BBB")])] _ hserve (fun _ => True) (by decide +kernel)
  obtain ⟨hsize, hread⟩ := written_is_read_back (P := text "/a") h0
    (hrun.mono fun w ev w' ⟨hok, hstep⟩ => ⟨(of_decide_eq_true hok).1,
      fun f hf hne hid => absurd ((of_decide_eq_true hok).2 f hf hne) hid, hstep⟩) rfl
  exact ⟨_, _, rfl, rfl, hsize (by decide), hread⟩

/-- A file called `"/"`, and two uploads under one file id. -/
theorem root_and_reused_id_are_not_read_back :
    (∃ w₀ w evs t, Initial w₀.statics ∧ Run (RangedStep blankConfig) w₀ evs w ∧
      tracked evs (text "/") = some t ∧ ¬ ReportsSize blankConfig w (text "/") t) ∧
    (∃ w₀ w evs t, Initial w₀.statics ∧ Run (ReusingStep blankConfig) w₀ evs w ∧
      tracked evs (text "/a") = some t ∧ ¬ ReadsBack blankConfig w (text "/a") t) := by
  constructor
  · have hserve : Serve (Serves Channel.AnyId Channel.AnyId) Channel.empty
        ([⟨.rmdir (text "/"), [], .status 0⟩, ⟨.create (text "/"), [], .status 0⟩,
          firstWrite "" "x" "17" "AAA"].flatMap Event.log) _ :=
      ⟨_, serves_sent (by decide) (by decide) (by decide) trivial trivial, rfl⟩
    obtain ⟨s₀, s, h0, -, hrun⟩ := run_of_events
      (fun s call => RangedCall s.storage call ∧
        ∀ f ∈ s.storage.live, f.pathStr ≠ call.path → f.fileIdStr = [])
      [(.rmdir (text "/"), []), (.create (text "/"), []),
        (.write (text "/") (text "x") 0, [sentAnswer (text "17") (text "AAA")])] _ hserve
      (fun _ => True) (by decide +kernel)
    refine ⟨_, _, _, _, h0, hrun.mono fun w ev w' ⟨hok, hstep⟩ => ⟨(of_decide_eq_true hok).1,
      fun f hf hne hid => absurd ((of_decide_eq_true hok).2 f hf hne) hid, hstep⟩, rfl, ?_⟩
    intro hsize
    obtain ⟨st, hst, hlen⟩ := hsize zeroHeap _ _ _ (exec_run receive _ s fun _ => lostAnswer)
    cases hst
    exact absurd hlen (by decide)
  · have hserve : Serve (Serves Channel.AnyId Channel.AnyId) Channel.empty
        ([⟨.create (text "/a"), [], .status 0⟩, ⟨.create (text "/b"), [], .status 0⟩,
          firstWrite "a" "x" "17" "AAA", firstWrite "b" "y" "18" "AAA"].flatMap Event.log) _ :=
      ⟨_, serves_sent (by decide) (by decide) (by decide) trivial trivial,
        _, serves_sent (by decide) (by decide) (by decide) trivial trivial, rfl⟩
    obtain ⟨s₀, s, h0, ⟨hlog, hres⟩, hrun⟩ := run_of_events
      (fun s call => RangedCall s.storage call)
      [(.create (text "/a"), []), (.create (text "/b"), []),
        (.write (text "/a") (text "x") 0, [sentAnswer (text "17") (text "AAA")]),
        (.write (text "/b") (text "y") 0, [sentAnswer (text "18") (text "AAA")])] _ hserve
      (fun s =>
        (run receive ((Call.read (text "/a") 1 0).handler zeroHeap blankConfig) s
            fun n => [locatedAnswer (text "p"), .whole (text "y")].getD n lostAnswer).log
          = [(.getFile blankConfig (text "AAA"), locatedAnswer (text "p")),
            (.download blankConfig (text "p"), .whole (text "y"))] ∧
        (run receive ((Call.read (text "/a") 1 0).handler zeroHeap blankConfig) s
            fun n => [locatedAnswer (text "p"), .whole (text "y")].getD n lostAnswer).result
          = some (.data 1 (text "y"))) (by decide +kernel)
    refine ⟨_, _, _, _, h0, hrun.mono fun w ev w' ⟨hok, hstep⟩ => ⟨of_decide_eq_true hok, hstep⟩,
      rfl, ?_⟩
    intro hread
    have hdoc : ((Channel.empty.post (text "17") (text "AAA") (text "x")).post (text "18")
        (text "AAA") (text "y")).documents (text "AAA") = some (text "y") := by
      rw [Channel.post_documents, Function.update_self]
    obtain ⟨ch, hserved⟩ : ∃ ch, Serve (Serves Channel.AnyId Channel.AnyId)
        ((Channel.empty.post (text "17") (text "AAA") (text "x")).post (text "18") (text "AAA")
          (text "y"))
        [(.getFile blankConfig (text "AAA"), locatedAnswer (text "p")),
          (.download blankConfig (text "p"), .whole (text "y"))] ch :=
      ⟨_, _, serves_located (by decide) hdoc (Or.inl rfl), _, serves_downloaded hdoc, rfl⟩
    rw [← hlog] at hserved
    obtain ⟨buf, hbuf, -, hbyte⟩ := hread zeroHeap 1 0 _ _ _ _ (by decide) (by decide)
      (exec_run receive _ s _) hserved
    have heq := hres.symm.trans hbuf
    have hy : text "y" = buf := (Reply.data.inj (Option.some.inj heq)).2
    rw [← hy] at hbyte
    exact absurd (hbyte 0 120 (by decide) rfl) (by decide)

end TgFuse

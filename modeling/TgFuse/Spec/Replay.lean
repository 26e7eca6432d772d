/-
  TgFuse.Spec.Replay

  A call that was made among others, made once more on its own.

  From a world that agrees with `w` in what the call looks at (`Ready`), the answers
  it was given lead to the same result, the same entry and the same change of the
  channel (`Replays`).
-/

import TgFuse.Spec.Accounting
import TgFuse.Spec.Changes

namespace TgFuse

open CString Interact KeyedList

/-- A server that answers every request successfully, with new ids. -/
abbrev Serving : Channel → Request → Response → Channel → Prop :=
  Serves Channel.FreshMessage Channel.FreshFile

-- ============================================================================
-- Room in the table
-- ============================================================================

/-- Size and capacity of a table. -/
def TgStorage.dims (st : TgStorage) : Nat × Nat := (st.size, st.cap)

/-- What a push makes of them; `none` where the capacity leaves its type. -/
def pushDims (d : Nat × Nat) : Option (Nat × Nat) :=
  if d.1 ≥ d.2 then
    if d.2 * 2 + 1 ≤ intMax then some (d.1 + 1, d.2 * 2 + 1) else none
  else some (d.1 + 1, d.2)

/-- What a call makes of them, if it finds its path as it is in `st`. -/
def Call.dims (st : TgStorage) (d : Nat × Nat) : Call → Option (Nat × Nat)
  | .create _ | .mkdir _ => pushDims d
  | .unlink p => if st.lookup p = none then some d else some (d.1 - 1, d.2)
  | _ => some d

/-- Whether a push goes through depends on size and capacity only. -/
theorem dims_push (slots : Nat → TgFile) (st : TgStorage) (f : TgFile) :
    (tgStoragePush slots st f).map TgStorage.dims = pushDims st.dims := by
  unfold tgStoragePush pushDims TgStorage.dims
  split
  · dsimp only
    split <;> rfl
  · rfl

theorem dims_without {st : TgStorage} {p : List UInt8} {f : TgFile} (hwf : st.Wf)
    (hl : st.lookup p = some f) : (st.without p).dims = (st.size - 1, st.cap) := by
  have hsize := size_without hwf hl
  have hcap : (st.without p).cap = st.cap := by
    unfold TgStorage.without tgStorageRemoveByPath
    split
    · rfl
    · split <;> rfl
  rw [TgStorage.dims, hcap, ← hsize, Nat.add_sub_cancel]

-- ============================================================================
-- Answers
-- ============================================================================

section Answered

variable {ch ch' : Channel} {config : TgConfig} {f : TgFile} {r : Response} {x : Change}
  {caption filename document : List UInt8}

/-- What the answer to an upload for the entry `f` says. -/
inductive Answered (f : TgFile) (document : List UInt8) (r : Response) : Change → Prop
  | posted {mid fid : Id} :
      f.fileIdStr = [] → IsId mid → IsId fid → r.Ok → r.Carries (text "message_id") mid →
      r.Carries (text "file_id") fid → Answered f document r (.posted mid fid document)
  | edited {fid : Id} :
      f.fileIdStr ≠ [] → IsId fid → r.Ok → r.Carries (text "file_id") fid →
      Answered f document r (.edited f.messageIdStr fid document)

/-- The entry with the ids it has been given. -/
def Change.entry (f : TgFile) : Change → TgFile
  | .posted mid fid _ => f.sent fid mid
  | .edited _ fid _ => f.edited fid
  | .removed _ => f

theorem Answered.ok (h : Answered f document r x) : r.Ok := by
  cases h with
  | posted _ _ _ hok | edited _ _ hok => exact hok

/-- The program takes the ids in, whatever the buffer held. -/
theorem Answered.afterPut (h : Answered f document r x) (hblank : f.Blank)
    {b₀ b : CharArray jsonResponseBufSize} (hb : receiveJson r b₀ = some b) :
    afterPut f r b.bytes = some (x.entry f) := by
  unfold TgFuse.afterPut
  cases h with
  | posted hnil hmid hfid hok hcm hcf =>
      obtain ⟨hz, hmz⟩ := hblank hnil
      rw [if_pos (by rw [hnil]; rfl), afterSend_of_ok hz hmz hok hfid hmid hcf hcm hb]
      rfl
  | edited hne hfid hok hcf =>
      rw [if_neg (fun h => hne (List.eq_nil_of_length_eq_zero h)), if_neg (fun h => h hok.1),
        afterEdit_of_ok hok hfid hcf hb]
      rfl

/-- The server answers an upload so. -/
theorem Answered.of_serves
    (h : Serving ch (putRequest config f caption filename document) r ch') :
    ∃ x, Answered f document r x ∧ x.Fresh ch ∧ ch' = x.apply ch := by
  unfold putRequest at h
  split at h
  · next hid =>
    obtain ⟨mid, fid, hmid, hfid, hm, hf, hok, hcm, hcf, rfl⟩ := h.of_sendDocument
    refine ⟨_, .posted (List.eq_nil_of_length_eq_zero hid) hmid hfid hok hcm hcf, ⟨?_, ?_⟩, rfl⟩
    · rintro _ ⟨⟩
      exact hm
    · rintro _ _ ⟨⟩
      exact hf
  · next hid =>
    obtain ⟨fid, hfid, hf, hok, hcf, rfl⟩ := h.of_editMessageMedia
    refine ⟨_, .edited (fun hnil => hid (by rw [hnil]; rfl)) hfid hok hcf, ⟨?_, ?_⟩, rfl⟩
    · rintro _ ⟨⟩
    · rintro _ _ ⟨⟩
      exact hf

/-- Where the ids are new, it may answer so. -/
theorem Answered.serves (h : Answered f document r x) (hx : x.Fresh ch) :
    Serving ch (putRequest config f caption filename document) r (x.apply ch) := by
  unfold putRequest
  cases h with
  | posted hnil hmid hfid hok hcm hcf =>
      rw [if_pos (by rw [hnil]; rfl)]
      exact .sent hmid hfid (hx.1 _ rfl) (hx.2 _ _ rfl) hok hcm hcf
  | edited hne hfid hok hcf =>
      rw [if_neg (fun h => hne (List.eq_nil_of_length_eq_zero h))]
      exact .edited hfid (hx.2 _ _ rfl) hok hcf

end Answered

-- ============================================================================
-- Loads
-- ============================================================================

/-- The answer to `getFile` for the entry `f`. -/
structure Located (ch : Channel) (f : TgFile) (r : Response) (path : List UInt8) : Prop where
  isId : IsId path
  ok : r.Ok
  carries : r.Carries (text "file_path") path
  file : ch.files path = some f.fileIdStr

/-- The answer to the download that follows, from the channel as it was at the start. -/
structure Downloaded (ch₀ : Channel) (f : TgFile) (r : Response) : Prop where
  code : r.code = curleOk
  document : ch₀.documents f.fileIdStr = some r.chunks.flatten

/-- The two requests of a load, and what it brings. -/
def Fetched (heap : Heap) (config : TgConfig) (ch₀ ch : Channel) (f : TgFile)
    (log : List (Request × Response)) (data : Buffer) : Prop :=
  ∃ r path r₂, Located ch f r path ∧ Downloaded ch₀ f r₂ ∧
    log = [(.getFile config f.fileIdStr, r), (.download config path, r₂)] ∧
    r₂.chunks.foldlM (curlResponseFileWriter heap.bytes) (bufferNew heap.bytes) = some data

/-- How a write comes by the document it changes. -/
def Brought (heap : Heap) (config : TgConfig) (ch₀ ch : Channel) (f : TgFile)
    (log : List (Request × Response)) (data : Buffer) : Prop :=
  if f.fileSize > 0 then Fetched heap config ch₀ ch f log data
  else log = [] ∧ data = bufferNew heap.bytes

/-- The file paths of `ch'` are among those of `ch`, or were handed out later. -/
def Channel.Extends (ch' ch : Channel) : Prop :=
  ∀ path fid, ch.files path = some fid → ch'.files path = some fid

/-- The file paths of the two do not contradict each other. -/
def Channel.Agrees (ch ch' : Channel) : Prop :=
  ∀ path fid, ch.files path = some fid → ch'.files path = none ∨ ch'.files path = some fid

section Loads

variable {heap : Heap} {config : TgConfig} {ch₀ ch ch₁ ch' : Channel} {f : TgFile}
  {log : List (Request × Response)} {data : Buffer}

theorem Located.mono {r : Response} {path : List UInt8} (h : Located ch f r path)
    (he : ch'.Extends ch) : Located ch' f r path :=
  ⟨h.isId, h.ok, h.carries, he path _ h.file⟩

theorem Fetched.mono (h : Fetched heap config ch₀ ch f log data) (he : ch'.Extends ch) :
    Fetched heap config ch₀ ch' f log data := by
  obtain ⟨r, path, r₂, hloc, hdown, hlog, hdata⟩ := h
  exact ⟨r, path, r₂, hloc.mono he, hdown, hlog, hdata⟩

theorem Brought.mono (h : Brought heap config ch₀ ch f log data) (he : ch'.Extends ch) :
    Brought heap config ch₀ ch' f log data := by
  unfold Brought at h ⊢
  split at h
  · next hpos =>
    rw [if_pos hpos]
    exact h.mono he
  · next hzero =>
    rw [if_neg hzero]
    exact h

/-- The answers lead the program through the load. -/
theorem Fetched.loaded (h : Fetched heap config ch₀ ch f log data) :
    ∃ b, Loaded heap.bytes config f.fileIdStr log b data := by
  obtain ⟨r, path, r₂, hloc, hdown, rfl, hdata⟩ := h
  obtain ⟨b, hb, hcheck⟩ := hloc.ok.2 .zeros
  obtain ⟨out, hout, hpath⟩ := filePath_of_carries hloc.isId hloc.carries hb
  refine ⟨b, r, hb, Or.inr ⟨hloc.ok.1, hcheck, (0, out), r₂, hout, ?_, hdata⟩⟩
  rw [hpath]

/-- The server may give the same answers again. -/
theorem Fetched.serve (h : Fetched heap config ch₀ ch f log data)
    (hdocs : ∀ fid d, ch₀.documents fid = some d → ch₁.documents fid = some d)
    (hfiles : ch.Agrees ch₁) :
    ∃ d, Serve Serving ch₁ log d ∧ ch₁.Same d ∧ ∀ path fid, d.files path = some fid →
      ch₁.files path = some fid ∨ ch.files path = some fid := by
  obtain ⟨r, path, r₂, hloc, hdown, rfl, -⟩ := h
  have hdoc := hdocs _ _ hdown.document
  refine ⟨ch₁.locate path f.fileIdStr, ⟨_, .located hdoc hloc.isId (hfiles _ _ hloc.file) hloc.ok
    hloc.carries, _, ?_, rfl⟩, ⟨rfl, rfl, rfl⟩, fun q fid hq => ?_⟩
  · exact .downloaded (Function.update_self ..) hdoc hdown.code rfl
  · by_cases heq : q = path
    · subst heq
      obtain rfl : f.fileIdStr = fid := by simpa [Channel.locate] using hq
      exact Or.inr hloc.file
    · simp only [Channel.locate, Function.update_of_ne heq] at hq
      exact Or.inl hq

theorem Brought.obtained (h : Brought heap config ch₀ ch f log data)
    (b₀ : CharArray jsonResponseBufSize) :
    ∃ b, Obtained heap config f b₀ log b data := by
  unfold Brought at h
  unfold Obtained
  split at h
  · next hpos =>
    simp only [if_pos hpos]
    exact h.loaded
  · next hzero =>
    simp only [if_neg hzero]
    exact ⟨b₀, h.1, rfl, h.2⟩

theorem Brought.serve (h : Brought heap config ch₀ ch f log data)
    (hdocs : ∀ fid d, ch₀.documents fid = some d → ch₁.documents fid = some d)
    (hfiles : ch.Agrees ch₁) :
    ∃ d, Serve Serving ch₁ log d ∧ ch₁.Same d ∧ ∀ path fid, d.files path = some fid →
      ch₁.files path = some fid ∨ ch.files path = some fid := by
  unfold Brought at h
  split at h
  · exact h.serve hdocs hfiles
  · rw [h.1]
    exact ⟨ch₁, rfl, Channel.Same.refl _, fun _ _ => Or.inl⟩

end Loads

-- ============================================================================
-- Calls
-- ============================================================================

/-- A change, or none, and perhaps file paths handed out. -/
def Channel.Changed (ch : Channel) (x : Option Change) (ch' : Channel) : Prop :=
  ∃ d, ch.Same d ∧ ch' = x.elim d (Change.apply d)

/-- In the world `w'` the call finds what it found in `w`, and its answers are possible. -/
structure Ready (w w' : World) (ch : Channel) (call : Call) (x : Option Change) : Prop where
  entry : w'.statics.storage.lookup call.path = w.statics.storage.lookup call.path
  documents : ∀ fid d, w.channel.documents fid = some d → w'.channel.documents fid = some d
  files : ch.Agrees w'.channel
  fresh : ∀ y, x = some y → y.Fresh w'.channel

/-- The call has made of `w'` what it made of `w`. -/
structure Replayed (s : Statics) (ch : Channel) (w' w'' : World) (call : Call) (x : Option Change)
    (d : Nat × Nat) : Prop where
  entry : w''.statics.storage.lookup call.path = s.storage.lookup call.path
  others : ∀ q, q ≠ call.path → w''.statics.storage.lookup q = w'.statics.storage.lookup q
  dims : w''.statics.storage.dims = d
  channel : w'.channel.Changed x w''.channel
  files : ∀ path fid, w''.channel.files path = some fid →
    w'.channel.files path = some fid ∨ ch.files path = some fid

/-- A call that was started in `w` and is over can be made on its own: its entry is as
    in `s`, and `ch` has the file paths it was given. -/
def Replays (config : TgConfig) (w : World) (s : Statics) (ch : Channel) (ev : Event)
    (x : Option Change) : Prop :=
  ∀ evs w' d, RunInvariant evs w' → Ready w w' ch ev.call x →
    ev.call.dims w.statics.storage w'.statics.storage.dims = some d →
    ∃ w'', WorldStep Serving config w' ev w'' ∧ Replayed s ch w' w'' ev.call x d

section Calls

variable {config : TgConfig} {heap : Heap} {w : World} {s s' : Statics} {ch ch' : Channel}
  {ev : Event} {x : Option Change}

theorem Replays.mono (h : Replays config w s ch ev x)
    (hs : s'.storage.lookup ev.call.path = s.storage.lookup ev.call.path) (he : ch'.Extends ch) :
    Replays config w s' ch' ev x := by
  intro evs w' d hinv hready hd
  have hready' : Ready w w' ch ev.call x :=
    ⟨hready.entry, hready.documents, fun path fid hf => hready.files path fid (he path fid hf),
      hready.fresh⟩
  obtain ⟨w'', hstep, hr⟩ := h evs w' d hinv hready' hd
  exact ⟨w'', hstep, hr.entry.trans hs.symm, hr.others, hr.dims, hr.channel,
    fun path fid hf => (hr.files path fid hf).imp id (he path fid)⟩

/-- `create` and `mkdir`. -/
theorem replays_push {call : Call} {g : TgFile} (hl : w.statics.storage.lookup call.path = none)
    (hentry : s.storage.lookup call.path = some g) (hg : g.Named) (hpath : g.pathStr = call.path)
    (hdims : ∀ st d, call.dims st d = pushDims d)
    (hexec : ∀ t st', t.storage.lookup call.path = none →
      tgStoragePush heap.slots t.storage g = some st' →
      Exec receive (call.handler heap config) t [] (some (.status 0)) (t.withStorage st')) :
    Replays config w s ch ⟨call, [], .status 0⟩ none := by
  intro evs w' d hinv hready hd
  have hl' : w'.statics.storage.lookup call.path = none := hready.entry.trans hl
  rw [hdims, ← dims_push heap.slots _ g] at hd
  obtain ⟨st', hst, hdim⟩ := Option.map_eq_some_iff.mp hd
  obtain ⟨-, hlive⟩ := hinv.wf.push hg hst
  obtain ⟨-, hmap⟩ := lookup_enter hinv.accounted.paths (hpath.symm ▸ hl') hlive
  rw [hpath] at hmap
  refine ⟨⟨w'.statics.withStorage st', w'.channel⟩, ⟨⟨heap, hexec _ _ hl' hst⟩, rfl⟩, ?_, ?_, hdim,
    ⟨_, Channel.Same.refl _, rfl⟩, fun _ _ => Or.inl⟩
  · show st'.lookup call.path = _
    rw [hmap, Function.update_self, hentry]
  · intro q hq
    show st'.lookup q = _
    rw [hmap, Function.update_of_ne hq]

/-- Calls that leave the table alone. -/
theorem replays_query (hdims : ∀ d, ev.call.dims w.statics.storage d = some d)
    (hentry : s.storage.lookup ev.call.path = w.statics.storage.lookup ev.call.path)
    (hexec : ∀ t : Statics, t.storage.Wf →
      t.storage.lookup ev.call.path = w.statics.storage.lookup ev.call.path →
      ∃ b, Exec receive (ev.call.handler heap config) t ev.log (some ev.reply) (t.withJson b))
    (hserve : ∀ ch₁ : Channel,
      (∀ fid d, w.channel.documents fid = some d → ch₁.documents fid = some d) → ch.Agrees ch₁ →
      ∃ d, Serve Serving ch₁ ev.log d ∧ ch₁.Same d ∧ ∀ path fid, d.files path = some fid →
        ch₁.files path = some fid ∨ ch.files path = some fid) :
    Replays config w s ch ev none := by
  intro evs w' d hinv hready hd
  rw [hdims] at hd
  obtain ⟨b, hex⟩ := hexec w'.statics hinv.wf hready.entry
  obtain ⟨ch₁, hs, hsame, hfiles⟩ := hserve w'.channel hready.documents hready.files
  exact ⟨⟨w'.statics.withJson b, ch₁⟩, ⟨⟨heap, hex⟩, hs⟩, hready.entry.trans hentry.symm,
    fun _ _ => rfl, Option.some.inj hd, ⟨_, hsame, rfl⟩, hfiles⟩

theorem Change.Fresh.same {y : Change} (h : y.Fresh ch) (hs : ch.Same ch') : y.Fresh ch' := by
  refine ⟨fun mid hmid => ?_, fun fid d hfid => ?_⟩
  · rw [Channel.FreshMessage, hs.issued]
    exact h.1 mid hmid
  · rw [Channel.FreshFile, hs.documents]
    exact h.2 fid d hfid

variable {p buf : List UInt8} {offset : Int} {f : TgFile} {r : Response} {y : Change}
  {load : List (Request × Response)} {old data : Buffer}

/-- `write`, of a file. -/
theorem replays_write (hp : ValidPath p) (hl : w.statics.storage.lookup p = some f)
    (htype : f.type = .tgFile) (hblank : f.Blank)
    (hbrought : Brought heap config w.channel ch f load old)
    (hins : bufferInsert heap.bytes old (sizeOfOff offset) buf = some data)
    (hans : Answered f data.contents r y)
    (hentry : s.storage.lookup p = some (written (y.entry f) data)) :
    Replays config w s ch ⟨.write p buf offset, load ++
      [(putRequest config f (dirOf f.pathStr) (baseOf f.pathStr) data.contents, r)],
      .status (cint buf.length)⟩ (some y) := by
  intro evs w' d hinv hready hd
  have hl' : w'.statics.storage.lookup p = some f := hready.entry.trans hl
  obtain ⟨i, hi, hlive, -⟩ := findByPath_of_lookup hl'
  have hnamed := hinv.wf.named f (List.mem_of_getElem? hlive)
  have hpath : f.pathStr = p := (lookup_some hl').2
  -- the handler
  obtain ⟨b₀, hob⟩ := hbrought.obtained w'.statics.jsonResponseBuf
  obtain ⟨b, hb, -⟩ := hans.ok.2 b₀
  have hafter := hans.afterPut hblank hb
  have hexec := (exec_helloWrite hinv.wf hp).mpr (Or.inr (Or.inr ⟨i, f, hi, hlive, htype, rfl, load,
    b₀, b, old, data, r, _, hob, hins, rfl, hb, hafter, rfl⟩))
  -- the server
  obtain ⟨ch₁, hs, hsame, hfiles⟩ := hbrought.serve hready.documents hready.files
  have hserve : Serving ch₁ (putRequest config f (dirOf f.pathStr) (baseOf f.pathStr) data.contents)
      r (y.apply ch₁) := hans.serves ((hready.fresh y rfl).same hsame)
  obtain ⟨-, hpath', -⟩ := written_named data hnamed hafter
  have hset : (w'.statics.storage.setSlot i (written (y.entry f) data)).live = _ := setSlot_live
  obtain ⟨-, hmap⟩ := lookup_replace hinv.accounted.paths hlive hpath' hset
  rw [hpath] at hmap
  refine ⟨⟨_, y.apply ch₁⟩, ⟨⟨heap, exec_reply.mpr ⟨_, hexec, rfl⟩⟩,
    serve_snoc.mpr ⟨ch₁, hs, hserve⟩⟩, ?_, ?_, Option.some.inj hd, ⟨ch₁, hsame, rfl⟩, ?_⟩
  · exact (congrFun hmap p).trans ((Function.update_self ..).trans hentry.symm)
  · intro q hq
    exact (congrFun hmap q).trans (Function.update_of_ne hq ..)
  · intro path fid hf
    rw [Change.apply_files] at hf
    exact hfiles path fid hf

/-- `unlink`, of what is there. -/
theorem replays_unlink (hl : w.statics.storage.lookup p = some f) (hok : r.Ok)
    (hentry : s.storage.lookup p = none) :
    Replays config w s ch ⟨.unlink p, [(.deleteMessage config f.messageIdStr, r)], .status 0⟩
      (some (.removed f.messageIdStr)) := by
  intro evs w' d hinv hready hd
  have hl' : w'.statics.storage.lookup p = some f := hready.entry.trans hl
  obtain ⟨b, hb, hcheck⟩ := hok.2 w'.statics.jsonResponseBuf
  have hexec : Exec receive (helloUnlink config p) w'.statics _ (some 0) _ :=
    (exec_helloUnlink hinv.wf).mpr (Or.inr ⟨f, r, b, hl', rfl, hb,
      fun _ => by rw [hcheck]; exact Option.some_ne_none _, rfl, rfl⟩)
  obtain ⟨-, -, hmap⟩ := lookup_leave hinv.accounted.paths (without_perm hinv.wf.valid hl')
  rw [(lookup_some hl').2] at hmap
  have hdims : (w'.statics.storage.without p).dims = d := by
    rw [dims_without hinv.wf hl']
    simp only [Call.dims, hl, reduceCtorEq, if_false, Option.some.injEq] at hd
    exact hd
  refine ⟨⟨_, w'.channel.remove f.messageIdStr⟩, ⟨⟨zeroHeap, exec_reply.mpr ⟨_, hexec, rfl⟩⟩, _,
    .deleted hok, rfl⟩, ?_, ?_, hdims, ⟨_, Channel.Same.refl _, rfl⟩, fun _ _ => Or.inl⟩
  · exact (congrFun hmap p).trans ((Function.update_self ..).trans hentry.symm)
  · intro q hq
    exact (congrFun hmap q).trans (Function.update_of_ne hq ..)

end Calls

end TgFuse

/-
  TgFuse.Spec.Progress

  A call on its way, while others are on theirs.

  * `Stage` — the exchange that a call is in, with what it knows by then.
  * `Progress` — a thread is the call at some stage of it; once it has ended, the call
    can be replayed.
  * `start_lands`, `send_known`, `resume_lands` — the steps of the thread itself keep
    this.
  * `Progress.frame` — so do steps of others, as long as an answer stays in
    `json_response_buf` until it is read and the entry of a write stays in its slot.
-/

import TgFuse.Effect.Segments
import TgFuse.Lib.Threads
import TgFuse.Spec.Replay

namespace TgFuse

open CString Interact Interact.Prog KeyedList

/-- A handler under way. -/
abbrev CallThread := Thread Statics Request Response Reply

/-- The thread has an answer in `json_response_buf` that it has not looked at. -/
def Unread : CallThread → Prop
  | .told (.download ..) _ _ => False
  | .told .. => True
  | _ => False

instance (t : CallThread) : Decidable (Unread t) :=
  match t with
  | .told (.download ..) _ _ => .isFalse not_false
  | .told (.sendDocument ..) _ _ | .told (.editMessageMedia ..) _ _ | .told (.getFile ..) _ _
  | .told (.deleteMessage ..) _ _ => .isTrue trivial
  | .idle _ | .asking .. | .asked .. | .ended _ => .isFalse not_false

/-- The entry that a write points to stays where it is: in its slot, in the same block. -/
def Call.KeepsPlace (st st' : TgStorage) : Call → Prop
  | .write p _ _ => tgStorageFindByPath st' p = tgStorageFindByPath st p ∧ st'.cap = st.cap
  | _ => True

instance (st st' : TgStorage) (call : Call) : Decidable (call.KeepsPlace st st') :=
  match call with
  | .write p _ _ => inferInstanceAs
      (Decidable (tgStorageFindByPath st' p = tgStorageFindByPath st p ∧ st'.cap = st.cap))
  | .create _ | .mkdir _ | .getattr _ | .rmdir _ | .readdir _ | .open _ | .read .. | .unlink _
  | .setxattr _ | .utimens _ => .isTrue trivial

theorem Call.KeepsPlace.refl (st : TgStorage) (call : Call) : call.KeepsPlace st st := by
  cases call with
  | write => exact ⟨rfl, rfl⟩
  | _ => trivial

-- ============================================================================
-- Stages
-- ============================================================================

/-- What a call does with the document it has loaded. -/
inductive Use where
  | reply (size : Nat) (offset : Int)
  | upload (i : Nat) (buf : List UInt8) (offset : Int)

/-- The exchange that a call is in. -/
inductive Stage where
  | locating (f : TgFile) (use : Use)
  | downloading (f : TgFile) (r : Response) (path : List UInt8) (use : Use)
  | uploading (f : TgFile) (load : List (Request × Response)) (data : Buffer) (i : Nat)
      (buf : List UInt8)
  | removing (f : TgFile)

section Stages

variable (heap : Heap) (config : TgConfig) (w : World)

/-- The rest of the handler once the document is loaded. -/
def Use.handler : Use → Buffer → Handler Reply
  | .reply size offset, src => do
      let r ← liftOption (readReply src size offset)
      return .data r.1 r.2
  | .upload i buf offset, data => do
      let n ← writeData heap config (.slot i) data buf offset
      return .status n

/-- The request of the exchange. -/
def Stage.request : Stage → Request
  | .locating f _ => .getFile config f.fileIdStr
  | .downloading _ _ path _ => .download config path
  | .uploading f _ data _ _ =>
      putRequest config f (dirOf f.pathStr) (baseOf f.pathStr) data.contents
  | .removing f => .deleteMessage config f.messageIdStr

/-- The rest of the handler once it is answered. -/
def Stage.resume : Stage → Response → Handler Reply
  | .locating _ use, r => afterGetFile heap.bytes config r >>= use.handler heap config
  | .downloading _ _ _ use, r => afterDownload heap.bytes r >>= use.handler heap config
  | .uploading f _ data i buf, r =>
      (afterUpload (.slot i) f r >>= afterPutFile data buf) >>= fun n => pure (.status n)
  | .removing _, r => (afterDelete r >>= fun _ => pure 0) >>= fun n => pure (.status n)

/-- The exchanges before it. -/
def Stage.before : Stage → List (Request × Response)
  | .locating .. | .removing _ => []
  | .downloading f r _ _ => [(.getFile config f.fileIdStr, r)]
  | .uploading _ load _ _ _ => load

/-- A write of the file `f` that holds a pointer to slot `i`. -/
def PointsTo (st : TgStorage) (call : Call) (f : TgFile) (i : Nat) (buf : List UInt8)
    (offset : Int) : Prop :=
  call = .write call.path buf offset ∧ f.type = .tgFile ∧
    tgStorageFindByPath st call.path = some i

/-- The call loads the document of `f` for this use. -/
def Use.Of (st : TgStorage) (call : Call) (f : TgFile) : Use → Prop
  | .reply size offset => call = .read call.path size offset ∧ f.fileIdStr.length ≠ 0
  | .upload i buf offset => PointsTo st call f i buf offset ∧ f.fileSize > 0

/-- The entry is as it was when the calls started. -/
def Holds (st : TgStorage) (call : Call) (f : TgFile) : Prop :=
  w.statics.storage.lookup call.path = some f ∧ st.lookup call.path = some f

/-- The call is at this stage. -/
def Stage.Valid (st : TgStorage) (ch : Channel) (call : Call) : Stage → Prop
  | .locating f use => Holds w st call f ∧ use.Of st call f
  | .downloading f r path use => Holds w st call f ∧ use.Of st call f ∧ Located ch f r path
  | .uploading f load data i buf => ∃ offset old, Holds w st call f ∧
      PointsTo st call f i buf offset ∧ Brought heap config w.channel ch f load old ∧
      bufferInsert heap.bytes old (sizeOfOff offset) buf = some data
  | .removing f => call = .unlink call.path ∧ w.statics.storage.lookup call.path = some f ∧
      st.lookup call.path = none

/-- What the answer says, and what the request has changed. -/
def Stage.Known (ch : Channel) (r : Response) : Stage → Option Change → Prop
  | .locating f _, x => x = none ∧ ∃ path, Located ch f r path
  | .downloading f _ _ _, x => x = none ∧ Downloaded w.channel f r
  | .uploading f _ data _ _, x => ∃ y, x = some y ∧ Answered f data.contents r y
  | .removing f, x => x = some (.removed f.messageIdStr) ∧ r.Ok

/-- How far a call is, with its exchanges and what they have changed. -/
inductive Progress (s : Statics) (ch : Channel) (call : Call) :
    CallThread → List (Request × Response) → Option Change → Prop
  | asking {g : Stage} : g.Valid heap config w s.storage ch call →
      Progress s ch call (.asking (g.request config) (g.resume heap config)) (g.before config) none
  | asked {g : Stage} {r : Response} {x : Option Change} :
      g.Valid heap config w s.storage ch call → g.Known w ch r x →
      Progress s ch call (.asked (g.request config) r (g.resume heap config))
        (g.before config ++ [(g.request config, r)]) x
  | told {g : Stage} {r : Response} {x : Option Change} :
      g.Valid heap config w s.storage ch call → g.Known w ch r x →
      ((∀ c path, g.request config ≠ .download c path) →
        ∃ b, receiveJson r b = some s.jsonResponseBuf) →
      Progress s ch call (.told (g.request config) r (g.resume heap config))
        (g.before config ++ [(g.request config, r)]) x
  | ended {reply : Reply} {log : List (Request × Response)} {x : Option Change} :
      Replays config w s ch ⟨call, log, reply⟩ x → Progress s ch call (.ended (some reply)) log x

end Stages

section Frame

variable {heap : Heap} {config : TgConfig} {w : World} {s s' : Statics} {st st' : TgStorage}
  {ch ch' : Channel} {call : Call} {t : CallThread} {log : List (Request × Response)}
  {x : Option Change} {f : TgFile} {g : Stage} {r : Response}

theorem PointsTo.frame {i : Nat} {buf : List UInt8} {offset : Int}
    (h : PointsTo st call f i buf offset) (hplace : call.KeepsPlace st st') :
    PointsTo st' call f i buf offset := by
  obtain ⟨hcall, htype, hi⟩ := h
  rw [hcall] at hplace
  exact ⟨hcall, htype, hplace.1.trans hi⟩

theorem Use.Of.frame {use : Use} (h : use.Of st call f) (hplace : call.KeepsPlace st st') :
    use.Of st' call f := by
  cases use with
  | reply => exact h
  | upload => exact ⟨h.1.frame hplace, h.2⟩

/-- A stage outlasts the steps of others. -/
theorem Stage.Valid.frame (h : g.Valid heap config w st ch call)
    (hl : st'.lookup call.path = st.lookup call.path) (hplace : call.KeepsPlace st st')
    (he : ch'.Extends ch) : g.Valid heap config w st' ch' call := by
  have hholds : ∀ {f : TgFile}, Holds w st call f → Holds w st' call f :=
    fun hf => ⟨hf.1, hl.trans hf.2⟩
  cases g with
  | locating f use => exact ⟨hholds h.1, h.2.frame hplace⟩
  | downloading f r path use => exact ⟨hholds h.1, h.2.1.frame hplace, h.2.2.mono he⟩
  | uploading f load data i buf =>
      obtain ⟨offset, old, hf, hpoints, hbrought, hins⟩ := h
      exact ⟨offset, old, hholds hf, hpoints.frame hplace, hbrought.mono he, hins⟩
  | removing f => exact ⟨h.1, h.2.1, hl.trans h.2.2⟩

theorem Stage.Known.mono (h : g.Known w ch r x) (he : ch'.Extends ch) : g.Known w ch' r x := by
  cases g with
  | locating f use =>
      obtain ⟨hx, path, hloc⟩ := h
      exact ⟨hx, path, hloc.mono he⟩
  | downloading | uploading | removing => exact h

/-- Steps of others leave a call where it is. -/
theorem Progress.frame (h : Progress heap config w s ch call t log x)
    (hl : s'.storage.lookup call.path = s.storage.lookup call.path)
    (hplace : t.Underway → call.KeepsPlace s.storage s'.storage)
    (hjson : Unread t → s'.jsonResponseBuf = s.jsonResponseBuf) (he : ch'.Extends ch) :
    Progress heap config w s' ch' call t log x := by
  cases h with
  | asking hg => exact .asking (hg.frame hl (hplace trivial) he)
  | asked hg hk => exact .asked (hg.frame hl (hplace trivial) he) (hk.mono he)
  | @told g r _ hg hk hb =>
      refine .told (hg.frame hl (hplace trivial) he) (hk.mono he) fun hq => ?_
      have hunread : Unread (.told (g.request config) r (g.resume heap config)) := by
        cases hreq : g.request config with
        | download c path => exact absurd hreq (hq c path)
        | sendDocument | editMessageMedia | getFile | deleteMessage => exact trivial
      rw [hjson hunread]
      exact hb hq
  | ended hr => exact .ended (hr.mono hl he)

end Frame

-- ============================================================================
-- The calls
-- ============================================================================

/-- The calls that are made side by side. -/
def Call.Concurrent : Call → Prop
  | .create _ | .mkdir _ | .write .. | .read .. | .unlink _ => True
  | _ => False

instance (call : Call) : Decidable call.Concurrent :=
  match call with
  | .create _ | .mkdir _ | .write .. | .read .. | .unlink _ => .isTrue trivial
  | .getattr _ | .rmdir _ | .readdir _ | .open _ | .setxattr _ | .utimens _ => .isFalse not_false

/-- Where the thread of a call is after a segment: it has crashed, or got on, with the
    other entries as they were. -/
structure Landed (heap : Heap) (config : TgConfig) (w : World) (s : Statics) (ch : Channel)
    (call : Call) (log : List (Request × Response)) (x : Option Change) (d : Option (Nat × Nat))
    (s' : Statics) (t : CallThread) : Prop where
  wf : s'.storage.Wf
  paths : Distinct TgFile.pathStr s'.storage.live
  others : ∀ q, q ≠ call.path → s'.storage.lookup q = s.storage.lookup q
  dims : d = some s'.storage.dims
  progress : Progress heap config w s' ch call t log x

def Lands (heap : Heap) (config : TgConfig) (w : World) (s : Statics) (ch : Channel)
    (call : Call) (log : List (Request × Response)) (x : Option Change) (d : Option (Nat × Nat))
    (pz : Pause Statics Request Response Reply) : Prop :=
  pz.thread = .ended none ∨ Landed heap config w s ch call log x d pz.state pz.thread

section Calls

variable {heap : Heap} {config : TgConfig} {w : World} {evs : List Event} {s : Statics}
  {ch ch' : Channel} {call : Call} {log : List (Request × Response)} {x : Option Change}
  {f : TgFile} {data : Buffer} {p buf : List UInt8} {offset : Int} {size : Nat}

/-- A segment that changes `json_response_buf` at most. -/
theorem lands_same {b : CharArray jsonResponseBufSize} {t : CallThread} (hwf : s.storage.Wf)
    (hpaths : Distinct TgFile.pathStr s.storage.live)
    (h : Progress heap config w (s.withJson b) ch call t log x) :
    Landed heap config w s ch call log x (some s.storage.dims) (s.withJson b) t :=
  ⟨hwf, hpaths, fun _ _ => rfl, rfl, h⟩

/-- The upload is requested. -/
theorem upload_lands {i : Nat} (hwf : s.storage.Wf)
    (hpaths : Distinct TgFile.pathStr s.storage.live) (hf : Holds w s.storage call f)
    (hpoints : PointsTo s.storage call f i buf offset)
    (hbrought : Brought heap config w.channel ch f log data) :
    Lands heap config w s ch call log none (some s.storage.dims)
      (advance ((Use.upload i buf offset).handler heap config data) s) := by
  have hi := hpoints.2.2
  obtain ⟨g, hg, hlive, hfile, -⟩ := tgStorageFindByPath_lookup hi
  obtain rfl : g = f := Option.some.inj (hg.symm.trans hf.2)
  have hnamed := hwf.named g (List.mem_of_getElem? hlive)
  cases hins : bufferInsert heap.bytes data (sizeOfOff offset) buf with
  | none =>
      refine Or.inl ?_
      simp only [Use.handler, writeData, hins]
      rfl
  | some data' =>
      refine Or.inr ?_
      have hwrite : advance (writeData heap config (.slot i) data buf offset) s = _ :=
        advance_writeData hins hfile hnamed
      have hadv := advance_bind_waiting (f := fun n => (pure (.status n) : Handler Reply)) hwrite
      rw [Use.handler, hadv]
      exact lands_same hwf hpaths (.asking (g := .uploading g log data' i buf)
        ⟨offset, data, hf, hpoints, hbrought, hins⟩)

/-- The document has been loaded. -/
theorem use_lands {use : Use} (hwf : s.storage.Wf)
    (hpaths : Distinct TgFile.pathStr s.storage.live) (hf : Holds w s.storage call f)
    (huse : use.Of s.storage call f) (hfetched : Fetched heap config w.channel ch f log data) :
    Lands heap config w s ch call log none (some s.storage.dims)
      (advance (use.handler heap config data) s) := by
  cases use with
  | upload i buf offset =>
      refine upload_lands hwf hpaths hf huse.1 ?_
      rw [Brought, if_pos huse.2]
      exact hfetched
  | reply size offset =>
      obtain ⟨hcall, hid⟩ := huse
      unfold Use.handler
      rw [advance_bind_done advance_liftOption]
      cases hreply : readReply data size offset with
      | none => exact Or.inl rfl
      | some r =>
          have hdims : ∀ d, call.dims w.statics.storage d = some d := by
            intro d
            rw [hcall]
            rfl
          have hexec : ∀ t : Statics, t.storage.Wf →
              t.storage.lookup call.path = w.statics.storage.lookup call.path → ∃ b, Exec receive
                (call.handler heap config) t log (some (.data r.1 r.2)) (t.withJson b) := by
            intro t _ hl
            obtain ⟨b, hloaded⟩ := hfetched.loaded
            refine ⟨b, ?_⟩
            rw [hcall]
            exact exec_reply.mpr ⟨r, exec_helloRead.mpr (Or.inr (Or.inr ⟨f, b, data,
              hl.trans hf.1, hid, hloaded, rfl, hreply⟩)), rfl⟩
          exact Or.inr (lands_same hwf hpaths (.ended (replays_query hdims (hf.2.trans hf.1.symm)
            hexec fun ch₁ => hfetched.serve)))

/-- A push, and with it the whole call. -/
theorem push_lands {g : TgFile} (hwf : s.storage.Wf)
    (hpaths : Distinct TgFile.pathStr s.storage.live)
    (hw : w.statics.storage.lookup call.path = none) (hl : s.storage.lookup call.path = none)
    (hg : g.Named) (hpath : g.pathStr = call.path) (hdims : ∀ st d, call.dims st d = pushDims d)
    (hexec : ∀ t st', t.storage.lookup call.path = none →
      tgStoragePush heap.slots t.storage g = some st' →
      Exec receive (call.handler heap config) t [] (some (.status 0)) (t.withStorage st'))
    (hcrash : tgStoragePush heap.slots s.storage g = none →
      advance (call.handler heap config) s = .done none s) :
    Lands heap config w s ch call [] none (call.dims w.statics.storage s.storage.dims)
      (advance (call.handler heap config) s) := by
  cases hst : tgStoragePush heap.slots s.storage g with
  | none =>
      rw [hcrash hst]
      exact Or.inl rfl
  | some st' =>
      obtain ⟨hwf', hlive⟩ := hwf.push hg hst
      obtain ⟨hpaths', hmap⟩ := lookup_enter hpaths (hpath.symm ▸ hl) hlive
      rw [hpath] at hmap
      rw [advance_of_exec_nil receive (hexec s st' hl hst)]
      refine Or.inr ⟨hwf', hpaths', fun q hq => ?_, ?_, .ended ?_⟩
      · exact (congrFun hmap q).trans (Function.update_of_ne hq ..)
      · rw [hdims, ← dims_push heap.slots s.storage g, hst]
        rfl
      · exact replays_push hw ((congrFun hmap _).trans (Function.update_self ..)) hg hpath hdims
          hexec

/-- A call that only looks, and asks nothing. -/
theorem look_lands {reply : Reply} (hwf : s.storage.Wf)
    (hpaths : Distinct TgFile.pathStr s.storage.live)
    (hl : s.storage.lookup call.path = w.statics.storage.lookup call.path)
    (hdims : ∀ d, call.dims w.statics.storage d = some d)
    (hexec : ∀ t : Statics, t.storage.Wf →
      t.storage.lookup call.path = w.statics.storage.lookup call.path →
      Exec receive (call.handler heap config) t [] (some reply) t) :
    Lands heap config w s ch call [] none (call.dims w.statics.storage s.storage.dims)
      (advance (call.handler heap config) s) := by
  rw [advance_of_exec_nil receive (hexec s hwf hl), hdims]
  refine Or.inr (lands_same (b := s.jsonResponseBuf) hwf hpaths (.ended ?_))
  exact replays_query hdims hl (fun t hwf hl => ⟨t.jsonResponseBuf, hexec t hwf hl⟩)
    fun ch₁ _ _ => ⟨ch₁, rfl, Channel.Same.refl _, fun _ _ => Or.inl⟩

/-- A load starts, with an empty `json_response_buf`. -/
theorem locating_lands {use : Use} (hwf : s.storage.Wf)
    (hpaths : Distinct TgFile.pathStr s.storage.live) (hf : Holds w s.storage call f)
    (huse : use.Of s.storage call f)
    (hadv : advance (call.handler heap config) s = .waiting (.getFile config f.fileIdStr)
      ((Stage.locating f use).resume heap config) (s.withJson .zeros)) :
    Lands heap config w s ch call [] none (some s.storage.dims)
      (advance (call.handler heap config) s) := by
  rw [hadv]
  exact Or.inr (lands_same hwf hpaths (.asking (g := .locating f use) ⟨hf, huse⟩))

theorem start_read_lands {p : List UInt8} {size : Nat} {offset : Int} (hwf : s.storage.Wf)
    (hpaths : Distinct TgFile.pathStr s.storage.live)
    (hl : s.storage.lookup p = w.statics.storage.lookup p) :
    Lands heap config w s ch (.read p size offset) [] none (some s.storage.dims)
      (advance ((Call.read p size offset).handler heap config) s) := by
  have hdims : ∀ d, Call.dims w.statics.storage d (.read p size offset) = some d := fun _ => rfl
  cases hw : w.statics.storage.lookup p with
  | none =>
      refine look_lands hwf hpaths hl hdims fun t _ ht => exec_reply.mpr ⟨_, exec_helloRead.mpr
        (Or.inl ⟨ht.trans hw, rfl, rfl, rfl⟩), rfl⟩
  | some f =>
      by_cases hid : f.fileIdStr.length = 0
      · refine look_lands hwf hpaths hl hdims fun t _ ht => exec_reply.mpr ⟨_,
          exec_helloRead.mpr (Or.inr (Or.inl ⟨f, ht.trans hw, hid, rfl, rfl, rfl⟩)), rfl⟩
      · obtain ⟨i, hi, -, hfile⟩ := findByPath_of_lookup (hl.trans hw)
        have hadv : advance (helloRead heap config p size offset) s = _ :=
          advance_helloRead hi hfile hid
        have huse : (Use.reply size offset).Of s.storage (.read p size offset) f := ⟨rfl, hid⟩
        exact locating_lands hwf hpaths ⟨hw, hl.trans hw⟩ huse
          ((advance_bind_waiting hadv).trans (by simp only [bind_assoc]; rfl))

theorem start_write_lands {p buf : List UInt8} {offset : Int} (hwf : s.storage.Wf)
    (hpaths : Distinct TgFile.pathStr s.storage.live)
    (hl : s.storage.lookup p = w.statics.storage.lookup p)
    (hw : w.statics.storage.lookup p = some f) (htype : f.type = .tgFile) :
    Lands heap config w s ch (.write p buf offset) [] none (some s.storage.dims)
      (advance ((Call.write p buf offset).handler heap config) s) := by
  obtain ⟨i, hi, -, hfile⟩ := findByPath_of_lookup (hl.trans hw)
  have hf : Holds w s.storage (.write p buf offset) f := ⟨hw, hl.trans hw⟩
  have hpoints : PointsTo s.storage (.write p buf offset) f i buf offset := ⟨rfl, htype, hi⟩
  have hadv : advance (helloWrite heap config p buf offset) s = _ :=
    advance_helloWrite hi hfile htype
  by_cases hpos : f.fileSize > 0
  · rw [if_pos hpos] at hadv
    have huse : (Use.upload i buf offset).Of s.storage (.write p buf offset) f :=
      ⟨hpoints, hpos⟩
    exact locating_lands hwf hpaths hf huse
      ((advance_bind_waiting hadv).trans (by simp only [bind_assoc]; rfl))
  · rw [if_neg hpos] at hadv
    have hbrought : Brought heap config w.channel ch f [] (bufferNew heap.bytes) := by
      rw [Brought, if_neg hpos]
      exact ⟨rfl, rfl⟩
    rw [Call.handler, advance_bind_congr hadv]
    exact upload_lands hwf hpaths hf hpoints hbrought

theorem start_unlink_lands {p : List UInt8} (hwf : s.storage.Wf)
    (hpaths : Distinct TgFile.pathStr s.storage.live)
    (hl : s.storage.lookup p = w.statics.storage.lookup p) :
    Lands heap config w s ch (.unlink p) [] none
      (Call.dims w.statics.storage s.storage.dims (.unlink p))
      (advance ((Call.unlink p).handler heap config) s) := by
  have hadv : advance (helloUnlink config p) s = _ := advance_helloUnlink hwf
  cases hw : w.statics.storage.lookup p with
  | none =>
      refine look_lands hwf hpaths hl (fun d => ?_) fun t hwft ht => exec_reply.mpr ⟨_,
        (exec_helloUnlink hwft).mpr (Or.inl ⟨ht.trans hw, rfl, rfl, rfl⟩), rfl⟩
      exact if_pos hw
  | some f =>
      have hs : s.storage.lookup p = some f := hl.trans hw
      rw [hs] at hadv
      rw [Call.handler, advance_bind_waiting hadv]
      obtain ⟨hpaths', -, hmap⟩ := lookup_leave hpaths (without_perm hwf.valid hs)
      rw [(lookup_some hs).2] at hmap
      refine Or.inr ⟨hwf.without p, hpaths', fun q hq => ?_, ?_, ?_⟩
      · exact (congrFun hmap q).trans (Function.update_of_ne hq ..)
      · show Call.dims _ _ (.unlink p) = some (s.storage.without p).dims
        rw [dims_without hwf hs]
        exact if_neg (by rw [hw]; exact Option.some_ne_none f)
      · exact .asking (g := .removing f)
          ⟨rfl, hw, (congrFun hmap p).trans (Function.update_self ..)⟩

/-- The first segment of a call. -/
theorem start_lands (hwf : s.storage.Wf) (hpaths : Distinct TgFile.pathStr s.storage.live)
    (hcall : FileCall w.statics.storage call) (hconc : call.Concurrent)
    (hl : s.storage.lookup call.path = w.statics.storage.lookup call.path) :
    Lands heap config w s ch call [] none (call.dims w.statics.storage s.storage.dims)
      (advance (call.handler heap config) s) := by
  obtain ⟨hp, hk, -⟩ := hcall
  cases call with
  | create p =>
      refine push_lands hwf hpaths hk (hl.trans hk) ((newFile_hasPath p 0).named hp)
        (newFile_pathStr hp 0) (fun _ _ => rfl) ?_ fun hst => ?_
      · intro t st' ht hst
        refine exec_reply.mpr ⟨0, (exec_helloCreate hp).mpr ⟨rfl, Or.inr ⟨?_, st', hst, rfl, rfl⟩⟩,
          rfl⟩
        intro f hf
        cases ht.symm.trans hf
      · have hadv : advance (helloCreate heap p) s = _ := advance_helloCreate hp (hl.trans hk)
        rw [hst] at hadv
        exact advance_bind_done hadv
  | mkdir p =>
      refine push_lands hwf hpaths hk (hl.trans hk) ((newDir_hasPath p).named hp)
        (newDir_pathStr hp) (fun _ _ => rfl) ?_ fun hst => ?_
      · intro t st' _ hst
        exact exec_reply.mpr ⟨0, (exec_helloMkdir hp).mpr ⟨rfl, st', hst, rfl, rfl⟩, rfl⟩
      · have hadv : advance (helloMkdir heap p) s = _ := advance_helloMkdir hp
        rw [hst] at hadv
        exact advance_bind_done hadv
  | read p size offset => exact start_read_lands hwf hpaths hl
  | write p buf offset =>
      obtain ⟨f, hw, htype⟩ := hk
      exact start_write_lands hwf hpaths hl hw htype
  | unlink p => exact start_unlink_lands hwf hpaths hl
  | getattr | rmdir | readdir | «open» | setxattr | utimens => exact hconc.elim

/-- Every further segment of a call. -/
theorem resume_lands {q : Request} {r : Response} {k : Response → Handler Reply}
    (hinv : RunInvariant evs w) (hwf : s.storage.Wf)
    (hpaths : Distinct TgFile.pathStr s.storage.live) (hp : ValidPath call.path)
    (h : Progress heap config w s ch call (.told q r k) log x) :
    Lands heap config w s ch call log x (some s.storage.dims) (advance (k r) s) := by
  cases h with
  | @told g _ _ hg hk hb =>
  cases g with
  | locating f use =>
      obtain ⟨hf, huse⟩ := hg
      obtain ⟨rfl, path, hloc⟩ := hk
      obtain ⟨b, hb⟩ := hb fun c path => Request.noConfusion
      obtain ⟨out, hout, hpath⟩ := filePath_of_carries hloc.isId hloc.carries hb
      have hadv : advance (afterGetFile heap.bytes config r) s = _ :=
        advance_afterGetFile hloc.ok.1 (hloc.ok.check_eq hb) hout
      rw [hpath] at hadv
      rw [Stage.resume, advance_bind_waiting hadv]
      exact Or.inr (lands_same hwf hpaths (.asking (g := .downloading f r path use)
        ⟨hf, huse, hloc⟩))
  | downloading f r₁ path use =>
      obtain ⟨hf, huse, hloc⟩ := hg
      obtain ⟨rfl, hdown⟩ := hk
      have hadv : advance (afterDownload heap.bytes r) s = .done (r.chunks.foldlM
          (curlResponseFileWriter heap.bytes) (bufferNew heap.bytes)) s := advance_liftOption
      rw [Stage.resume, advance_bind_done hadv]
      cases hdata : r.chunks.foldlM (curlResponseFileWriter heap.bytes) (bufferNew heap.bytes) with
      | none => exact Or.inl rfl
      | some data => exact use_lands hwf hpaths hf huse ⟨r₁, path, r, hloc, hdown, rfl, hdata⟩
  | uploading f load data i buf =>
      obtain ⟨offset, old, hf, ⟨hcall, htype, hi⟩, hbrought, hins⟩ := hg
      obtain ⟨y, rfl, hans⟩ := hk
      obtain ⟨b, hb⟩ := hb (putRequest_json _ _ _ _ _)
      have hblank := hinv.blank f (lookup_some hf.1).1
      have hafter := hans.afterPut hblank hb
      obtain ⟨f', hf', hlive, hfile, -⟩ := tgStorageFindByPath_lookup hi
      obtain rfl : f' = f := Option.some.inj (hf'.symm.trans hf.2)
      have hnamed := hwf.named f' (List.mem_of_getElem? hlive)
      have hadv : advance (afterUpload (.slot i) f' r >>= afterPutFile data buf) s = _ :=
        advance_afterUpload_bind hfile
      rw [hafter] at hadv
      obtain ⟨hnamed', hpath', -⟩ := written_named data hnamed hafter
      obtain ⟨hpaths', hmap⟩ := lookup_replace hpaths hlive hpath'
        (show (s.storage.setSlot i _).live = _ from setSlot_live)
      rw [(lookup_some hf.2).2] at hmap
      rw [Stage.resume, advance_bind_done hadv]
      refine Or.inr ⟨hwf.setSlot hnamed', hpaths', fun q hq => ?_, rfl, .ended ?_⟩
      · exact (congrFun hmap q).trans (Function.update_of_ne hq ..)
      · rw [hcall]
        exact replays_write hp hf.1 htype hblank hbrought hins hans
          ((congrFun hmap _).trans (Function.update_self ..))
  | removing f =>
      obtain ⟨hcall, hw, hs⟩ := hg
      obtain ⟨rfl, hok⟩ := hk
      obtain ⟨b, hb⟩ := hb fun c path => Request.noConfusion
      have hadv := advance_bind_done (f := fun _ => (pure 0 : Handler Int))
        (advance_afterDelete (r := r) (hok.check_eq hb))
      rw [Stage.resume, advance_bind_done hadv]
      refine Or.inr (lands_same (b := s.jsonResponseBuf) hwf hpaths (.ended ?_))
      rw [hcall]
      exact replays_unlink hw hok hs

/-- The change is one of the message of the entry `f`, or posts it one. -/
def Change.OfEntry (f : TgFile) : Change → Prop
  | .posted mid _ _ => mid ≠ []
  | .edited mid _ _ => mid = f.messageIdStr ∧ f.fileIdStr ≠ []
  | .removed mid => mid = f.messageIdStr

/-- What a request has done to the channel: a change for the entry of the call, or
    none. -/
structure Sent (w : World) (call : Call) (ch ch' : Channel) (x : Option Change) : Prop where
  same : x = none → ch.Same ch'
  change : ∀ y, x = some y → y.Fresh ch ∧ ch' = y.apply ch ∧
    ∃ f, w.statics.storage.lookup call.path = some f ∧ y.OfEntry f

theorem sent_some {y : Change} (hf : w.statics.storage.lookup call.path = some f)
    (hfresh : y.Fresh ch) (hof : y.OfEntry f) : Sent w call ch (y.apply ch) (some y) where
  same := by rintro ⟨⟩
  change := by
    rintro _ ⟨⟩
    exact ⟨hfresh, rfl, f, hf, hof⟩

theorem sent_none (hs : ch.Same ch') : Sent w call ch ch' none where
  same := fun _ => hs
  change := by rintro _ ⟨⟩

/-- The documents that the channel had in `w` are there still. -/
def Channel.Keeps (ch₀ ch : Channel) : Prop :=
  ∀ fid d, ch₀.documents fid = some d → ch.documents fid = some d

/-- A document that is loaded was there in `w`. -/
theorem Use.Of.document {use : Use} (h : use.Of s.storage call f) (hinv : RunInvariant evs w)
    (hf : f ∈ w.statics.storage.live) : ∃ d, w.channel.documents f.fileIdStr = some d := by
  have hpos : f.fileSize > 0 := by
    cases use with
    | upload => exact h.2
    | reply =>
        by_contra hzero
        exact h.2 (by rw [(hinv.accounted.blank f hf (by omega)).1]; rfl)
  obtain ⟨-, -, d, -, hd, -⟩ := hinv.accounted.backed f hf hpos
  exact ⟨d, hd⟩

/-- A request is sent, and served. -/
theorem send_known {g : Stage} {r : Response} (hinv : RunInvariant evs w)
    (hkeeps : w.channel.Keeps ch) (hg : g.Valid heap config w s.storage ch call)
    (hs : Serving ch (g.request config) r ch') :
    ∃ x, g.Known w ch' r x ∧ ch'.Extends ch ∧ Sent w call ch ch' x := by
  cases g with
  | locating f use =>
      obtain ⟨path, document, -, hid, hfile, hok, hcar, rfl⟩ := hs.of_getFile
      refine ⟨none, ⟨rfl, path, hid, hok, hcar, Function.update_self ..⟩, fun q fid hq => ?_,
        sent_none ⟨rfl, rfl, rfl⟩⟩
      by_cases heq : q = path
      · subst heq
        have hfid : some f.fileIdStr = some fid := by
          rcases hfile with hnone | hsome
          · cases hnone.symm.trans hq
          · exact hsome.symm.trans hq
        exact (Function.update_self ..).trans hfid
      · exact (Function.update_of_ne heq ..).trans hq
  | downloading f r₁ path use =>
      obtain ⟨hf, huse, hloc⟩ := hg
      obtain ⟨fid, document, hfile, hdoc, hcode, hflat, rfl⟩ := hs.of_download
      obtain rfl : f.fileIdStr = fid := Option.some.inj (hloc.file.symm.trans hfile)
      obtain ⟨d, hd⟩ := huse.document hinv (lookup_some hf.1).1
      obtain rfl : d = document := Option.some.inj ((hkeeps _ _ hd).symm.trans hdoc)
      rw [← hflat] at hd
      exact ⟨none, ⟨rfl, hcode, hd⟩, fun _ _ => id, sent_none (Channel.Same.refl _)⟩
  | uploading f load data i buf =>
      obtain ⟨offset, old, hf, -⟩ := hg
      obtain ⟨y, hans, hfresh, rfl⟩ := Answered.of_serves hs
      refine ⟨some y, ⟨y, rfl, hans⟩, fun q fid hq => ?_, sent_some hf.1 hfresh ?_⟩
      · rw [Change.apply_files]
        exact hq
      · cases hans with
        | posted _ hmid => exact hmid.ne_nil
        | edited hne => exact ⟨rfl, hne⟩
  | removing f =>
      obtain ⟨-, hf, -⟩ := hg
      obtain ⟨hok, rfl⟩ := hs.of_deleteMessage
      have hfresh : (Change.removed f.messageIdStr).Fresh ch :=
        ⟨by rintro _ ⟨⟩, by rintro _ _ ⟨⟩⟩
      exact ⟨some (.removed f.messageIdStr), ⟨rfl, hok⟩, fun _ _ => id, sent_some hf hfresh rfl⟩

/-- The call has sent its request. -/
theorem Progress.sends {q : Request} {r : Response} {k : Response → Handler Reply}
    (h : Progress heap config w s ch call (.asking q k) log x) (hinv : RunInvariant evs w)
    (hkeeps : w.channel.Keeps ch) (hs : Serving ch q r ch') :
    x = none ∧ ∃ c, Progress heap config w s ch' call (.asked q r k) (log ++ [(q, r)]) c ∧
      ch'.Extends ch ∧ Sent w call ch ch' c := by
  cases h with
  | @asking g hg =>
      obtain ⟨c, hk, hext, hsent⟩ := send_known hinv hkeeps hg hs
      have hg' : g.Valid heap config w s.storage ch' call :=
        hg.frame rfl (Call.KeepsPlace.refl _ _) hext
      exact ⟨rfl, c, .asked hg' hk, hext, hsent⟩

/-- Its answer has arrived. -/
theorem delivered_lands {q : Request} {r : Response} {k : Response → Handler Reply} {s' : Statics}
    (h : Progress heap config w s ch call (.asked q r k) log x) (hwf : s.storage.Wf)
    (hpaths : Distinct TgFile.pathStr s.storage.live) (hr : receive q r s = some s') :
    Landed heap config w s ch call log x (some s.storage.dims) s' (.told q r k) := by
  cases h with
  | @asked g _ _ hg hk =>
  by_cases hq : ∀ c path, g.request config ≠ .download c path
  · obtain ⟨b, hb, rfl⟩ := (receive_json_some hq).mp hr
    exact lands_same hwf hpaths (.told hg hk fun _ => ⟨s.jsonResponseBuf, hb⟩)
  · have hsame : s' = s.withJson s.jsonResponseBuf := by
      simp only [not_forall, not_not] at hq
      obtain ⟨c, path, hreq⟩ := hq
      rw [hreq] at hr
      exact (Option.some.inj hr).symm
    rw [hsame]
    exact lands_same hwf hpaths (.told hg hk fun hno => absurd hno hq)

end Calls

end TgFuse

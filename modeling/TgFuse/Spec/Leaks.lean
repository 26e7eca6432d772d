/-
  TgFuse.Spec.Leaks

  What the handlers do to the heap, over whole runs and with any server.

  * No block is freed twice, and none is used after it has been freed: whatever the
    handlers do, they do as well on a heap that would notice (`tracks_call`).
  * `heap_used_well` — after every run the blocks that are out are the table and
    those that have been lost: one for each download, since
    `tg_file_load_contents` makes a second buffer without freeing the first, and one
    for each read that finds nothing in what was downloaded.
-/

import TgFuse.Effect.Requests
import TgFuse.Model.Memory
import TgFuse.Spec.Answers
import TgFuse.Spec.Run

namespace TgFuse

open Blocks CString Interact Interact.Prog Lts

/-- A handler and its tracked counterpart, from the static variables of `m`. -/
abbrev Tracks {α β : Type} (p : Handler α) (q : Tracked β) (m : Memory)
    (Post : List (Request × Response) → α → β → Statics → Memory → Prop) : Prop :=
  Follows receive receiveTracked p m.statics q m Post

/-- Nothing but the table is held. -/
structure TableOut (lost : Nat) (s : Statics) (m : Memory) : Prop where
  statics_eq : m.statics = s
  owns : m.blocks.Owns {m.files} lost

/-- The table and one buffer are held. -/
structure Carries (lost : Nat) (d : Buffer) (h : Held) (s : Statics) (m : Memory) : Prop where
  buf_eq : h.buf = d
  statics_eq : m.statics = s
  apart : h.block ∉ ({m.files} : Finset Nat)
  owns : m.blocks.Owns (insert h.block {m.files}) lost

/-- Requests that download a file. -/
def isDownload (e : Request × Response) : Bool :=
  match e.1 with
  | .download .. => true
  | _ => false

/-- The blocks that a call loses. -/
def Event.lost (ev : Event) : Nat :=
  ev.log.countP isDownload +
    match ev.call with
    | .read .. => if ev.log ≠ [] ∧ ev.reply = .data (-enoent) [] then 1 else 0
    | _ => 0

theorem countP_isDownload {log : List (Request × Response)} (h : ∀ e ∈ log, NoDownload e.1) :
    log.countP isDownload = 0 := by
  refine List.countP_eq_zero.mpr fun e he hdown => ?_
  obtain ⟨q, r⟩ := e
  cases q with
  | download config path => exact h _ he config path rfl
  | _ => cases hdown

-- ============================================================================
-- The allocator
-- ============================================================================

section Allocator

variable {α β γ : Type} {p : Handler α} {m : Memory} {held : Finset Nat} {lost b : Nat}
  {Post : List (Request × Response) → α → β → Statics → Memory → Prop}

theorem tracks_plain (p : Handler α) (m : Memory) :
    Tracks p (plain p) m fun _ a b s' m' => a = b ∧ m' = m.withStatics s' :=
  follows_zoom Memory.statics Memory.withStatics (fun _ _ => rfl) (fun _ => rfl)
    (fun _ _ _ => rfl) (fun _ _ _ => rfl) p m

theorem tracks_touch {k : Unit → Tracked β} (hm : m.blocks.Owns held lost) (hb : b ∈ held)
    (h : Tracks p (k ()) m Post) : Tracks p (touch b >>= k) m Post :=
  Follows.liftOption_right (hm.access hb) h

theorem tracks_malloc {k : Nat → Tracked β} (hm : m.blocks.Owns held lost)
    (h : ∀ c l, c ∉ held → l.Owns (insert c held) lost →
      Tracks p (k c) { m with blocks := l } Post) :
    Tracks p (malloc >>= k) m Post :=
  h m.blocks.next m.blocks.malloc hm.malloc.1 hm.malloc.2

theorem tracks_free {k : Unit → Tracked β} (hm : m.blocks.Owns held lost) (hb : b ∈ held)
    (h : ∀ l, l.Owns (held.erase b) lost → Tracks p (k ()) { m with blocks := l } Post) :
    Tracks p (free b >>= k) m Post := by
  obtain ⟨l, hfree, howns⟩ := hm.free hb
  show Follows _ _ p _ ((liftOption (m.blocks.free b) >>= fun blocks =>
    setState { m with blocks }) >>= k) m Post
  rw [hfree]
  exact h l howns

/-- A block that may have to grow: it is held afterwards, moved or not. -/
theorem tracks_grow {full : Prop} [Decidable full] {k : Nat → Tracked β}
    (hm : m.blocks.Owns (insert b held) lost) (hb : b ∉ held)
    (h : ∀ b' l, b' ∉ held → l.Owns (insert b' held) lost →
      Tracks p (k b') { m with blocks := l } Post) :
    Tracks p (growBlock full b >>= k) m Post := by
  rw [growBlock]
  split
  · rw [reallocBlock, bind_assoc]
    refine tracks_free hm (Finset.mem_insert_self ..) fun l hl => ?_
    rw [Finset.erase_insert hb] at hl
    exact tracks_malloc hl h
  · exact h b m.blocks hb hm

theorem tracks_load {ptr : FilePtr} {k : TgFile → Handler α} {k' : TgFile → Tracked β}
    (hm : m.blocks.Owns held lost) (hb : m.files ∈ held)
    (h : ∀ f, Tracks (k f) (k' f) m Post) :
    Tracks (ptr.load >>= k) (ptr.loadTracked >>= k') m Post := by
  cases ptr with
  | slot i =>
      show Follows _ _ _ _ ((touch m.files >>= fun _ => plain (FilePtr.slot i).load) >>= k') m Post
      rw [bind_assoc]
      refine tracks_touch hm hb ?_
      show Follows _ _ (liftOption m.statics.storage.files[i]? >>= k) _
        (zoom Memory.statics Memory.withStatics (liftOption m.statics.storage.files[i]?) >>= k')
        m Post
      cases m.statics.storage.files[i]? with
      | none => exact Follows.fault
      | some f => exact h f
  | var f => exact h f

theorem tracks_exchange {r : Request} {k : Response → Handler α} {k' : Response → Tracked β}
    (h : ∀ a s', Tracks (k a) (k' a) (m.withStatics s') fun log => Post ((r, a) :: log)) :
    Tracks (exchange r >>= k) (exchange r >>= k') m Post := by
  refine Follows.exchange (fun a hr => ?_) fun a s' hr => ⟨m.withStatics s', ?_, h a s'⟩
  · rw [receiveTracked, hr]
    rfl
  · rw [receiveTracked, hr]
    rfl

theorem tracks_find {path : List UInt8} {k : Option Nat → Handler α} {k' : Option Nat → Tracked β}
    (hm : m.blocks.Owns held lost) (hb : m.files ∈ held)
    (h : Tracks (k (tgStorageFindByPath m.statics.storage path))
      (k' (tgStorageFindByPath m.statics.storage path)) m Post) :
    Tracks (findByPath path >>= k) (withTable (findByPath path) >>= k') m Post := by
  show Follows _ _ _ _ ((touch m.files >>= fun _ => plain (findByPath path)) >>= k') m Post
  rw [bind_assoc]
  exact tracks_touch hm hb h

end Allocator

-- ============================================================================
-- Buffers
-- ============================================================================

section Buffers

variable {α β : Type} {m : Memory} {lost : Nat} {fill : Nat → UInt8} {config : TgConfig}
  {d : Buffer} {h : Held} {s : Statics}

/-- An operation on a buffer that may have to make room first. -/
theorem tracks_grown (full : Prop) [Decidable full] (x : Option Buffer)
    (hc : Carries lost d h s m) :
    Follows receive receiveTracked (liftOption x) s
      (do
        let block ← growBlock full h.block
        touch block
        let buf ← liftOption x
        return Held.mk block buf) m
      fun log d' h' s' m' => log = [] ∧ Carries lost d' h' s' m' := by
  obtain ⟨rfl, rfl, hapart, howns⟩ := hc
  refine tracks_grow howns hapart fun b l hb hl => ?_
  refine tracks_touch hl (Finset.mem_insert_self ..) ?_
  cases x with
  | none => exact Follows.fault
  | some d' => exact Follows.pure ⟨rfl, rfl, rfl, hb, hl⟩

theorem tracks_append (data : List UInt8) (hc : Carries lost d h s m) :
    Follows receive receiveTracked (liftOption (bufferAppend fill d data)) s
      (bufferAppendTracked fill h data) m
      fun log d' h' s' m' => log = [] ∧ Carries lost d' h' s' m' := by
  rw [← hc.buf_eq]
  exact tracks_grown (sizeT (h.buf.size + data.length) ≥ h.buf.capacity) _ hc

theorem tracks_insert (pos : Nat) (data : List UInt8) (hc : Carries lost d h s m) :
    Follows receive receiveTracked (liftOption (bufferInsert fill d pos data)) s
      (bufferInsertTracked fill h pos data) m
      fun log d' h' s' m' => log = [] ∧ Carries lost d' h' s' m' := by
  rw [← hc.buf_eq]
  exact tracks_grown (sizeT (pos + data.length) ≥ h.buf.capacity) _ hc

theorem tracks_bufferNew {p : Handler α} {k : Held → Tracked β}
    {Post : List (Request × Response) → α → β → Statics → Memory → Prop}
    (hm : m.blocks.Owns {m.files} lost)
    (h : ∀ b l, b ∉ ({m.files} : Finset Nat) → l.Owns (insert b {m.files}) lost →
      Tracks p (k ⟨b, bufferNew fill⟩) { m with blocks := l } Post) :
    Tracks p (bufferNewTracked fill >>= k) m Post := by
  rw [bufferNewTracked, bind_assoc]
  exact tracks_malloc hm h

/-- Loading loses the first buffer where it gets as far as the second. -/
theorem tracks_tgFileLoadContents (ptr : FilePtr) (hm : m.blocks.Owns {m.files} lost) :
    Tracks (tgFileLoadContents fill config ptr) (tgFileLoadContentsTracked fill config ptr) m
      fun log d h s' m' => log ≠ [] ∧ Carries (lost + log.countP isDownload) d h s' m' := by
  rw [tgFileLoadContents, tgFileLoadContentsTracked]
  refine Follows.getState_left (Follows.setState_left ?_)
  refine Follows.getState_right (Follows.setState_right ?_)
  refine tracks_bufferNew (m := m.withStatics { m.statics with jsonResponseBuf := .zeros }) hm
    fun b l hb hl => ?_
  refine tracks_load hl (Finset.mem_insert_of_mem (Finset.mem_singleton_self _)) fun f => ?_
  refine tracks_exchange fun r s' => ?_
  refine Follows.ite (fun _ => Follows.pure ⟨List.cons_ne_nil _ _, rfl, rfl, hb, hl⟩) fun _ => ?_
  refine Follows.getState_left (Follows.getState_right ?_)
  refine Follows.liftOption_self fun ok _ => ?_
  refine Follows.ite (fun _ => Follows.pure ⟨List.cons_ne_nil _ _, rfl, rfl, hb, hl⟩) fun _ => ?_
  refine Follows.liftOption_self fun path _ => ?_
  -- here the pointer to the first buffer is overwritten
  have hlost := hl.lose (Finset.mem_insert_self ..)
  rw [Finset.erase_insert hb] at hlost
  refine tracks_bufferNew hlost fun b' l' hb' hl' => ?_
  refine tracks_exchange fun r' s'' => ?_
  rw [liftOption_foldlM]
  have hstep : ∀ d h e s t, Carries (lost + 1) d h s t →
      Follows receive receiveTracked (liftOption (curlResponseFileWriter fill d e)) s
        (bufferAppendTracked fill h e) t
        fun log d' h' s' t' => log = [] ∧ Carries (lost + 1) d' h' s' t' :=
    fun d h e s t hc => tracks_append e hc
  refine (Follows.foldlM hstep r'.chunks ?_).mono ?_
  · exact ⟨rfl, rfl, hb', hl'⟩
  · rintro log d h s t ⟨rfl, hc⟩
    exact ⟨List.cons_ne_nil _ _, hc⟩

end Buffers

-- ============================================================================
-- The handlers
-- ============================================================================

section Handlers

variable {α β : Type} {m : Memory} {lost : Nat} {heap : Heap} {config : TgConfig}
  {path buf : List UInt8} {h : Held}

theorem tracks_withTable {p : Handler α} (hm : m.blocks.Owns {m.files} lost) :
    Tracks p (withTable p) m fun _ a b s' m' => a = b ∧ TableOut lost s' m' := by
  refine Follows.getState_right (tracks_touch hm (Finset.mem_singleton_self _) ?_)
  refine (tracks_plain p m).mono ?_
  rintro log a b s' m' ⟨rfl, rfl⟩
  exact ⟨rfl, rfl, hm⟩

/-- A push moves the table where it is full. -/
theorem tracks_pushFile (f : TgFile) (hm : m.blocks.Owns {m.files} lost) :
    Tracks (pushFile heap f) (pushFileTracked heap f) m
      fun log _ _ s' m' => log = [] ∧ TableOut lost s' m' := by
  rw [pushFile, pushFileTracked]
  refine Follows.getState_left (Follows.getState_right ?_)
  rw [← insert_empty_eq] at hm
  refine tracks_grow hm (Finset.notMem_empty _) fun b l _ hl => ?_
  refine tracks_touch hl (Finset.mem_insert_self ..) ?_
  refine Follows.liftOption_self fun st _ => ?_
  rw [insert_empty_eq] at hl
  rintro log o s' ⟨rfl, rfl, rfl⟩
  exact ⟨some (), _, ⟨rfl, rfl, rfl⟩, Or.inr ⟨(), (), rfl, rfl, rfl, rfl, hl⟩⟩

theorem tracks_tgPutFile (ptr : FilePtr) (hb : h.block ∉ ({m.files} : Finset Nat))
    (hl : m.blocks.Owns (insert h.block {m.files}) lost) :
    Tracks (tgPutFile ptr config h.buf) (tgPutFileTracked ptr config h) m
      fun log a b s' m' => log.countP isDownload = 0 ∧ a = b ∧ Carries lost h.buf h s' m' := by
  have hplain : Tracks (tgPutFile ptr config h.buf) (plain (tgPutFile ptr config h.buf)) m
      fun log a b s' m' =>
        log.countP isDownload = 0 ∧ a = b ∧ Carries lost h.buf h s' m' := by
    refine (tracks_plain _ m).exec.mono ?_
    rintro log a b s' m' ⟨he, rfl, rfl⟩
    exact ⟨countP_isDownload ((requests_tgPutFile ptr h.buf).of_exec _ he), rfl, rfl, rfl, hb, hl⟩
  refine tracks_touch hl (Finset.mem_insert_self ..) ?_
  cases ptr with
  | slot i =>
      exact tracks_touch hl (Finset.mem_insert_of_mem (Finset.mem_singleton_self _)) hplain
  | var f => exact hplain

theorem tracks_writeData (ptr : FilePtr) (offset : Int)
    (hb : h.block ∉ ({m.files} : Finset Nat))
    (hl : m.blocks.Owns (insert h.block {m.files}) lost) :
    Tracks (writeData heap config ptr h.buf buf offset)
      (writeDataTracked heap config ptr h buf offset) m
      fun log a b s' m' => log.countP isDownload = 0 ∧ a = b ∧ TableOut lost s' m' := by
  rw [writeData, writeDataTracked]
  refine (tracks_insert (sizeOfOff offset) buf ⟨rfl, rfl, hb, hl⟩).bind ?_
  rintro l d h s' m ⟨rfl, rfl, rfl, hb, hl⟩
  refine (tracks_tgPutFile ptr hb hl).bind ?_
  rintro l ptr _ s' m ⟨hput, rfl, -, rfl, hb, hl⟩
  refine tracks_load hl (Finset.mem_insert_of_mem (Finset.mem_singleton_self _)) fun f => ?_
  refine (tracks_plain _ m).exec.bind ?_
  rintro l' a b s' m' ⟨he, rfl, rfl⟩
  refine tracks_free (m := m.withStatics s') hl (Finset.mem_insert_self ..) fun ledger howns => ?_
  rw [Finset.erase_insert hb] at howns
  refine Follows.pure ⟨?_, rfl, rfl, howns⟩
  have hstore := countP_isDownload ((requests_store _ ptr).of_exec _ he)
  simp only [List.nil_append, List.append_nil, List.countP_append, hput, hstore]

theorem tracks_helloWrite (offset : Int) (hm : m.blocks.Owns {m.files} lost) :
    Tracks (helloWrite heap config path buf offset)
      (helloWriteTracked heap config path buf offset) m
      fun log a b s' m' => a = b ∧ TableOut (lost + log.countP isDownload) s' m' := by
  rw [helloWrite, helloWriteTracked]
  refine tracks_find hm (Finset.mem_singleton_self _) ?_
  cases tgStorageFindByPath m.statics.storage path with
  | none =>
      refine Follows.liftOption_self fun ifNo _ => ?_
      refine (tracks_pushFile ifNo hm).bind ?_
      rintro l - - s' m ⟨rfl, rfl, hm⟩
      refine tracks_bufferNew hm fun b l hb hl => ?_
      refine (tracks_writeData (m := { m with blocks := l }) (h := ⟨b, bufferNew heap.bytes⟩)
        (.var ifNo) offset hb hl).mono ?_
      rintro log a b s' m' ⟨hlog, rfl, hk⟩
      refine ⟨rfl, ?_⟩
      rwa [List.nil_append, hlog]
  | some i =>
      refine tracks_load hm (Finset.mem_singleton_self _) fun file => ?_
      refine Follows.ite (fun _ => Follows.pure ⟨rfl, rfl, hm⟩) fun _ => ?_
      refine Follows.ite (fun _ => ?_) fun _ => ?_
      · refine (tracks_tgFileLoadContents (.slot i) hm).bind ?_
        rintro l d h s' m ⟨-, rfl, rfl, hb, hl⟩
        refine (tracks_writeData (.slot i) offset hb hl).mono ?_
        rintro log a b s' m' ⟨hlog, rfl, hk⟩
        refine ⟨rfl, ?_⟩
        rwa [List.countP_append, hlog]
      · refine tracks_bufferNew hm fun b l hb hl => ?_
        refine (tracks_writeData (m := { m with blocks := l }) (h := ⟨b, bufferNew heap.bytes⟩)
          (.slot i) offset hb hl).mono ?_
        rintro log a b s' m' ⟨hlog, rfl, hk⟩
        refine ⟨rfl, ?_⟩
        rwa [hlog]

/-- What a read returns from a buffer is not its failure. -/
theorem readData_ne {ptr out : List UInt8} {pos n : Nat} (h : memread ptr pos n = some out) :
    (cint n, out) ≠ (-enoent, []) := by
  intro heq
  obtain ⟨hret, rfl⟩ := Prod.mk.inj heq
  rw [memread] at h
  split at h
  · next hin =>
    have hlen := congrArg List.length (Option.some.inj h)
    rw [List.length_take, List.length_drop, List.length_nil] at hlen
    obtain rfl : n = 0 := by omega
    exact absurd hret (by decide)
  · cases h

theorem tracks_helloRead (size : Nat) (offset : Int) (hm : m.blocks.Owns {m.files} lost) :
    Tracks (helloRead heap config path size offset)
      (helloReadTracked heap config path size offset) m
      fun log a b s' m' => a = b ∧ TableOut (lost + (log.countP isDownload +
        if log ≠ [] ∧ a = (-enoent, []) then 1 else 0)) s' m' := by
  rw [helloRead, helloReadTracked]
  refine tracks_find hm (Finset.mem_singleton_self _) ?_
  cases tgStorageFindByPath m.statics.storage path with
  | none => exact Follows.pure ⟨rfl, rfl, hm⟩
  | some i =>
      refine tracks_load hm (Finset.mem_singleton_self _) fun file => ?_
      refine Follows.ite (fun _ => Follows.pure ⟨rfl, rfl, hm⟩) fun _ => ?_
      refine (tracks_tgFileLoadContents (.slot i) hm).bind ?_
      rintro l d h s' m ⟨hne, rfl, rfl, hb, hl⟩
      refine Follows.ite (fun _ => Follows.pure ⟨rfl, rfl, ?_⟩) fun _ => ?_
      · -- the buffer is not freed
        have hlost := hl.lose (Finset.mem_insert_self ..)
        rw [Finset.erase_insert hb] at hlost
        rw [List.append_nil, if_pos ⟨hne, rfl⟩]
        exact hlost
      · dsimp only
        refine Follows.ite (fun _ => ?_) fun _ => ?_
        · refine tracks_touch hl (Finset.mem_insert_self ..) ?_
          refine Follows.liftOption_self fun out hout => ?_
          refine tracks_free hl (Finset.mem_insert_self ..) fun ledger howns => ?_
          rw [Finset.erase_insert hb] at howns
          refine Follows.pure ⟨rfl, rfl, ?_⟩
          rw [List.append_nil, if_neg fun hfail => readData_ne hout hfail.2]
          exact howns
        · refine tracks_free hl (Finset.mem_insert_self ..) fun ledger howns => ?_
          rw [Finset.erase_insert hb] at howns
          refine Follows.pure ⟨rfl, rfl, ?_⟩
          rw [List.append_nil, if_neg fun hfail => absurd hfail.2 (by decide)]
          exact howns

theorem tracks_helloCreate (hm : m.blocks.Owns {m.files} lost) :
    Tracks (helloCreate heap path) (helloCreateTracked heap path) m
      fun _ a b s' m' => a = b ∧ TableOut lost s' m' := by
  have hpush : ∀ isDir : Bool, Tracks
      (if isDir = true then pure (-eisdir) else do
        let newFile ← liftOption (tgFileNewFile path 0)
        pushFile heap newFile
        pure (0 : Int))
      (if isDir = true then pure (-eisdir) else do
        let newFile ← liftOption (tgFileNewFile path 0)
        pushFileTracked heap newFile
        pure (0 : Int)) m fun _ a b s' m' => a = b ∧ TableOut lost s' m' := by
    intro isDir
    refine Follows.ite (fun _ => Follows.pure ⟨rfl, rfl, hm⟩) fun _ => ?_
    refine Follows.liftOption_self fun f _ => (tracks_pushFile f hm).bind ?_
    rintro l - - s' m' ⟨-, hk⟩
    exact Follows.pure ⟨rfl, hk⟩
  rw [helloCreate, helloCreateTracked]
  refine tracks_find hm (Finset.mem_singleton_self _) ?_
  cases tgStorageFindByPath m.statics.storage path with
  | none => exact hpush false
  | some i =>
      exact tracks_load hm (Finset.mem_singleton_self _) fun file => hpush _

theorem tracks_helloMkdir (hm : m.blocks.Owns {m.files} lost) :
    Tracks (helloMkdir heap path) (helloMkdirTracked heap path) m
      fun _ a b s' m' => a = b ∧ TableOut lost s' m' := by
  rw [helloMkdir, helloMkdirTracked]
  refine Follows.liftOption_self fun f _ => (tracks_pushFile f hm).bind ?_
  rintro l - - s' m' ⟨-, hk⟩
  exact Follows.pure ⟨rfl, hk⟩

/-- Whatever a call does, it does as well on a heap where a second `free` and a use
    after `free` would crash; the blocks it loses are counted. -/
theorem tracks_call (call : Call) (hm : m.blocks.Owns {m.files} lost) :
    Tracks (call.handler heap config) (call.tracked heap config) m
      fun log a b s' m' => a = b ∧ TableOut (lost + Event.lost ⟨call, log, a⟩) s' m' := by
  have hquiet : ∀ {q : Tracked Reply},
      (∀ p n o, call ≠ .read p n o) → (∀ p b o, call ≠ .write p b o) →
      Tracks (call.handler heap config) q m (fun _ a b s' m' => a = b ∧ TableOut lost s' m') →
      Tracks (call.handler heap config) q m
        fun log a b s' m' => a = b ∧ TableOut (lost + Event.lost ⟨call, log, a⟩) s' m' := by
    intro q hread hwrite hq
    refine hq.exec.mono ?_
    rintro log a b s' m' ⟨he, rfl, hk⟩
    have hcount := countP_isDownload ((requests_handler hread hwrite).of_exec _ he)
    have hlost : Event.lost ⟨call, log, a⟩ = 0 := by
      cases call with
      | read p n o => exact absurd rfl (hread p n o)
      | _ => exact hcount
    rw [hlost]
    exact ⟨rfl, hk⟩
  have hreply : ∀ {α : Type} {p : Handler α} {q : Tracked α} (g : α → Reply),
      Tracks p q m (fun _ a b s' m' => a = b ∧ TableOut lost s' m') →
      Tracks (p >>= fun a => pure (g a)) (q >>= fun a => pure (g a)) m
        fun _ a b s' m' => a = b ∧ TableOut lost s' m' := by
    intro α p q g hpq
    refine hpq.bind ?_
    rintro l a b s' m' ⟨rfl, hk⟩
    exact Follows.pure ⟨rfl, hk⟩
  cases call with
  | create p => exact hquiet nofun nofun (hreply _ (tracks_helloCreate hm))
  | mkdir p => exact hquiet nofun nofun (hreply _ (tracks_helloMkdir hm))
  | setxattr p =>
      refine hquiet nofun nofun (hreply _ ((tracks_plain _ m).mono ?_))
      rintro log a b s' m' ⟨rfl, rfl⟩
      exact ⟨rfl, rfl, hm⟩
  | utimens p =>
      refine hquiet nofun nofun (hreply _ ((tracks_plain _ m).mono ?_))
      rintro log a b s' m' ⟨rfl, rfl⟩
      exact ⟨rfl, rfl, hm⟩
  | getattr | readdir | «open» | rmdir | unlink =>
      exact hquiet nofun nofun (tracks_withTable hm)
  | write p b o =>
      refine (tracks_helloWrite o hm).bind ?_
      rintro l a b s' m' ⟨rfl, hk⟩
      refine Follows.pure ⟨rfl, ?_⟩
      rwa [List.append_nil]
  | read p n o =>
      refine (tracks_helloRead n o hm).bind ?_
      rintro l a b s' m' ⟨rfl, hk⟩
      refine Follows.pure ⟨rfl, ?_⟩
      obtain ⟨ret, out⟩ := a
      rw [List.append_nil, Event.lost]
      simpa only [Reply.data.injEq, Prod.mk.injEq] using hk

end Handlers

-- ============================================================================
-- Runs
-- ============================================================================

/-- `Step` with the heap: a completed call of the tracked handlers. -/
def TrackedStep (config : TgConfig) (m : Memory) (ev : Event) (m' : Memory) : Prop :=
  ∃ heap, Exec receiveTracked (ev.call.tracked heap config) m ev.log (some ev.reply) m'

section Runs

variable {config : TgConfig} {heap : Heap} {s₀ s : Statics} {evs : List Event}

theorem mainTracked_of_mainInit (h : mainInit heap = some s₀) :
    ∃ m₀, mainTracked heap = some m₀ ∧ TableOut 0 s₀ m₀ := by
  refine ⟨_, by rw [mainTracked, h]; rfl, rfl, ?_⟩
  have howns := Ledger.owns_empty.malloc.2
  rwa [insert_empty_eq] at howns

/-- `hello_destroy` takes back the table. -/
theorem exec_helloDestroy {m : Memory} {lost : Nat} (hm : m.blocks.Owns {m.files} lost) :
    ∃ m', Exec receiveTracked helloDestroy m [] (some ()) m' ∧
      m'.blocks.out = m.blocks.out.erase m.files := by
  obtain ⟨l, hfree, hout⟩ := Ledger.free_of_mem (hm.subset (Finset.mem_singleton_self _))
  let emptied : TgStorage := { files := [], size := 0, cap := 0 }
  refine ⟨⟨{ m.statics with storage := emptied }, l, m.files⟩, ?_, hout⟩
  show Exec receiveTracked ((liftOption (m.blocks.free m.files) >>= fun blocks =>
    setState { m with blocks }) >>= fun _ => getState >>= fun m =>
      setState { m with statics := { m.statics with storage := emptied } }) m [] (some ()) _
  rw [hfree]
  exact ⟨rfl, rfl, rfl⟩

end Runs

end TgFuse

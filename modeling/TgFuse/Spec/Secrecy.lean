/-
  TgFuse.Spec.Secrecy

  What fresh memory happens to hold is never seen.  `malloc` and `realloc` hand out
  memory with anything in it, and two runs that differ in this alone make the same
  requests and give the same replies, unless a write leaves a hole behind the end of
  what it has loaded (`Event.Filled`).

  The states of the two runs differ in the unused slots of the table (`Alike`), their
  buffers behind the contents (`SameBytes`); each function is followed by itself on
  other memory.
-/

import TgFuse.Effect.Requests
import TgFuse.Lib.Follow
import TgFuse.Spec.Holes
import TgFuse.Spec.Replay

namespace TgFuse

open CString Interact Interact.Prog KeyedList Lts Overlay

-- ============================================================================
-- Tables with other unused slots
-- ============================================================================

/-- The same static variables, but for the slots of the table that are not in use. -/
structure Alike (s t : Statics) : Prop where
  left : s.storage.Valid
  right : t.storage.Valid
  live : t.storage.live = s.storage.live
  cap : t.storage.cap = s.storage.cap
  json : t.jsonResponseBuf = s.jsonResponseBuf

/-- A slot in use, or a variable. -/
def FilePtr.Within (ptr : FilePtr) (st : TgStorage) : Prop := ∀ i, ptr = .slot i → i < st.size

theorem FilePtr.Within.now {ptr : FilePtr} {f : TgFile} {st : TgStorage} :
    (ptr.now f).Within st ↔ ptr.Within st := by
  cases ptr with
  | slot i => exact Iff.rfl
  | var g => exact ⟨fun _ => nofun, fun _ => nofun⟩

section Tables

variable {s t : Statics} {i : Nat} {f : TgFile} {path dir : List UInt8}

theorem Alike.size (h : Alike s t) : t.storage.size = s.storage.size := by
  rw [← h.right.length_live, h.live, h.left.length_live]

theorem TgStorage.files_of_lt {st : TgStorage} (hi : i < st.size) : st.files[i]? = st.live[i]? := by
  rw [TgStorage.live, List.getElem?_take_of_lt hi]

theorem Alike.slot (h : Alike s t) (hi : i < s.storage.size) :
    t.storage.files[i]? = s.storage.files[i]? := by
  rw [TgStorage.files_of_lt hi, TgStorage.files_of_lt (h.size.symm ▸ hi), h.live]

theorem Alike.find (h : Alike s t) :
    tgStorageFindByPath t.storage path = tgStorageFindByPath s.storage path := by
  rw [tgStorageFindByPath, tgStorageFindByPath, h.live]

theorem find_lt {st : TgStorage} (h : tgStorageFindByPath st path = some i) :
    i < st.size := by
  obtain ⟨f, hf, -⟩ := tgStorageFindByPath_some h
  exact (TgStorage.getElem?_live hf).1

theorem Alike.findDir (h : Alike s t) (start : Nat) :
    tgStorageFindFilesByDir t.storage dir start = tgStorageFindFilesByDir s.storage dir start := by
  rw [tgStorageFindFilesByDir, tgStorageFindFilesByDir, h.live]

theorem findFilesByDirFrom_lt {l : List TgFile} {start : Nat}
    (h : findFilesByDirFrom dir l start = some (some i)) : i < start + l.length := by
  induction l generalizing start with
  | nil => cases h
  | cons f fs ih =>
      rw [List.length_cons]
      rw [findFilesByDirFrom] at h
      split at h
      · split at h
        · cases h
        · split at h
          · cases h
            omega
          · have hi := ih h
            omega
      · have hi := ih h
        omega

theorem findDir_lt {st : TgStorage} (hv : st.Valid) {start : Nat}
    (h : tgStorageFindFilesByDir st dir start = some (some i)) : i < st.size := by
  have hi := findFilesByDirFrom_lt h
  rw [List.length_drop, hv.length_live] at hi
  by_cases hstart : start ≤ st.size
  · omega
  · -- behind the table there is nothing to find
    rw [tgStorageFindFilesByDir, List.drop_eq_nil_of_le (by rw [hv.length_live]; omega)] at h
    cases h

theorem Alike.withJson (h : Alike s t) (b : CharArray jsonResponseBufSize) :
    Alike (s.withJson b) (t.withJson b) := ⟨h.left, h.right, h.live, h.cap, rfl⟩

/-- The same entry pushed, whatever the slots. -/
theorem Alike.push {slots slots' : Nat → TgFile} (h : Alike s t) (f : TgFile) :
    (tgStoragePush slots s.storage f = none → tgStoragePush slots' t.storage f = none) ∧
      ∀ st, tgStoragePush slots s.storage f = some st →
        ∃ st', tgStoragePush slots' t.storage f = some st' ∧
          Alike (s.withStorage st) (t.withStorage st') := by
  have hdims : (tgStoragePush slots' t.storage f).map TgStorage.dims
      = (tgStoragePush slots s.storage f).map TgStorage.dims := by
    rw [dims_push, dims_push, TgStorage.dims, TgStorage.dims, h.size, h.cap]
  constructor
  · intro hnone
    rw [hnone] at hdims
    exact Option.map_eq_none_iff.mp hdims
  · intro st hst
    rw [hst] at hdims
    obtain ⟨st', hst', hsame⟩ := Option.map_eq_some_iff.mp hdims
    obtain ⟨hv, hlive, -⟩ := tgStoragePush_spec h.left hst
    obtain ⟨hv', hlive', -⟩ := tgStoragePush_spec h.right hst'
    refine ⟨st', hst', hv, hv', ?_, (Prod.mk.inj hsame).2, h.json⟩
    show st'.live = st.live
    rw [hlive', hlive, h.live]

theorem cap_without (st : TgStorage) (p : List UInt8) :
    (tgStorageRemoveByPath st p).2.cap = st.cap := by
  rw [tgStorageRemoveByPath]
  split
  · rfl
  · split <;> rfl

/-- The same entry taken out. -/
theorem Alike.remove (h : Alike s t) (path : List UInt8) :
    (tgStorageRemoveByPath t.storage path).1 = (tgStorageRemoveByPath s.storage path).1 ∧
      Alike (s.withStorage (tgStorageRemoveByPath s.storage path).2)
        (t.withStorage (tgStorageRemoveByPath t.storage path).2) := by
  cases hfind : tgStorageFindByPath s.storage path with
  | none =>
      rw [tgStorageRemoveByPath_none hfind, tgStorageRemoveByPath_none (h.find.trans hfind)]
      exact ⟨rfl, h⟩
  | some i =>
      obtain ⟨f, hf, -, hout, hv, hlive⟩ := tgStorageRemoveByPath_some h.left hfind
      obtain ⟨f', hf', -, hout', hv', hlive'⟩ :=
        tgStorageRemoveByPath_some h.right (h.find.trans hfind)
      rw [h.live, hf] at hf'
      cases hf'
      refine ⟨hout'.trans hout.symm, hv, hv', ?_, ?_, h.json⟩
      · show (tgStorageRemoveByPath t.storage path).2.live
          = (tgStorageRemoveByPath s.storage path).2.live
        rw [hlive', hlive, h.live]
      · show (tgStorageRemoveByPath t.storage path).2.cap
          = (tgStorageRemoveByPath s.storage path).2.cap
        rw [cap_without, cap_without, h.cap]

/-- The same entry stored. -/
theorem Alike.poke (h : Alike s t) (ptr : FilePtr) (f : TgFile) :
    Alike (s.poke ptr f) (t.poke ptr f) ∧ (s.poke ptr f).storage.size = s.storage.size := by
  cases ptr with
  | slot i =>
      refine ⟨⟨?_, ?_, ?_, h.cap, h.json⟩, rfl⟩
      · exact ⟨by simpa [Statics.poke] using h.left.length_files, h.left.size_le⟩
      · exact ⟨by simpa [Statics.poke] using h.right.length_files, h.right.size_le⟩
      · show (t.storage.setSlot i f).live = (s.storage.setSlot i f).live
        rw [setSlot_live, setSlot_live, h.live]
  | var g => exact ⟨h, rfl⟩

end Tables

-- ============================================================================
-- Buffers with other bytes behind their contents
-- ============================================================================

/-- The same contents, in blocks of the same size. -/
structure SameBytes (d e : Buffer) : Prop where
  left : d.Valid
  right : e.Valid
  contents : e.contents = d.contents
  capacity : e.capacity = d.capacity

section Buffers

variable {fill fill' : Nat → UInt8} {d e d' : Buffer}

theorem SameBytes.size (h : SameBytes d e) : e.size = d.size := by
  rw [← h.right.length_contents, h.contents, h.left.length_contents]

theorem sameBytes_new : SameBytes (bufferNew fill) (bufferNew fill') :=
  ⟨bufferNew_valid fill, bufferNew_valid fill', rfl, rfl⟩

/-- Making room: the capacity afterwards, and the block. -/
theorem bufferAppend_eq (fill : Nat → UInt8) (st : Buffer) (data : List UInt8) :
    bufferAppend fill st data =
      if sizeT (st.size + data.length) ≥ st.capacity then
        (memcpyAt (realloc fill st.ptr (sizeT (st.capacity + data.length))) st.size data).map
          fun ptr => ⟨ptr, sizeT (st.capacity + data.length), sizeT (st.size + data.length)⟩
      else
        (memcpyAt st.ptr st.size data).map
          fun ptr => ⟨ptr, st.capacity, sizeT (st.size + data.length)⟩ := by
  rw [bufferAppend]
  split <;> rfl

theorem bufferInsert_eq (fill : Nat → UInt8) (st : Buffer) (pos : Nat) (data : List UInt8) :
    bufferInsert fill st pos data =
      if sizeT (pos + data.length) ≥ st.capacity then
        (memcpyAt (realloc fill st.ptr (sizeT (pos + data.length))) pos data).map
          fun ptr => ⟨ptr, sizeT (pos + data.length), max st.size (sizeT (pos + data.length))⟩
      else
        (memcpyAt st.ptr pos data).map
          fun ptr => ⟨ptr, st.capacity, max st.size (sizeT (pos + data.length))⟩ := by
  have hmax : ∀ (st : Buffer) (x : Option (List UInt8)), (x.map fun ptr =>
      if st.size < sizeT (pos + data.length) then
        { st with ptr, size := sizeT (pos + data.length) }
      else { st with ptr }) =
      x.map fun ptr => ⟨ptr, st.capacity, max st.size (sizeT (pos + data.length))⟩ := by
    intro st x
    refine congrArg (fun f => x.map f) (funext fun ptr => ?_)
    split
    · next hlt => rw [Nat.max_eq_right (Nat.le_of_lt hlt)]
    · next hge => rw [Nat.max_eq_left (Nat.le_of_not_lt hge)]
  rw [bufferInsert]
  split <;> exact hmax ..

/-- A store into blocks of one length goes through in both or in neither. -/
theorem stored_congr {block block' data : List UInt8} {pos cap size : Nat}
    (hlen : block'.length = block.length) :
    ((memcpyAt block pos data).map (fun ptr => Buffer.mk ptr cap size) = none →
        (memcpyAt block' pos data).map (fun ptr => Buffer.mk ptr cap size) = none) ∧
      ∀ d', (memcpyAt block pos data).map (fun ptr => Buffer.mk ptr cap size) = some d' →
        ∃ e', (memcpyAt block' pos data).map (fun ptr => Buffer.mk ptr cap size) = some e' ∧
          e'.capacity = d'.capacity := by
  simp only [memcpyAt, hlen]
  split
  · refine ⟨fun hd => ?_, fun d' hd => ⟨_, rfl, ?_⟩⟩
    · cases hd
    · cases hd
      rfl
  · refine ⟨fun _ => rfl, fun d' hd => ?_⟩
    cases hd

/-- A store for which the block may have to grow. -/
theorem SameBytes.stored {grow : Prop} [Decidable grow] {data : List UInt8} {room pos size : Nat}
    (h : SameBytes d e) :
    let op fill (block : List UInt8) : Option Buffer :=
      if grow then (memcpyAt (realloc fill block room) pos data).map fun ptr => ⟨ptr, room, size⟩
      else (memcpyAt block pos data).map fun ptr => ⟨ptr, d.capacity, size⟩
    (op fill d.ptr = none → op fill' e.ptr = none) ∧
      ∀ d', op fill d.ptr = some d' →
        ∃ e', op fill' e.ptr = some e' ∧ e'.capacity = d'.capacity := by
  dsimp only
  split
  · exact stored_congr (by rw [realloc_length, realloc_length])
  · exact stored_congr (by rw [h.right.length_ptr, h.left.length_ptr, h.capacity])

/-- The same data appended. -/
theorem SameBytes.append (h : SameBytes d e) (data : List UInt8) :
    (bufferAppend fill d data = none → bufferAppend fill' e data = none) ∧
      ∀ d', bufferAppend fill d data = some d' →
        ∃ e', bufferAppend fill' e data = some e' ∧ SameBytes d' e' := by
  have hsame : (bufferAppend fill d data = none → bufferAppend fill' e data = none) ∧
      ∀ d', bufferAppend fill d data = some d' →
        ∃ e', bufferAppend fill' e data = some e' ∧ e'.capacity = d'.capacity := by
    rw [bufferAppend_eq, bufferAppend_eq, h.size, h.capacity]
    exact h.stored
  refine ⟨hsame.1, fun d' hd => ?_⟩
  obtain ⟨e', he, hcap⟩ := hsame.2 d' hd
  obtain ⟨hv, hc, -⟩ := bufferAppend_spec h.left hd
  obtain ⟨hv', hc', -⟩ := bufferAppend_spec h.right he
  exact ⟨e', he, hv, hv', by rw [hc', hc, h.contents], hcap⟩

/-- The same data inserted, where nothing lies between it and the contents. -/
theorem SameBytes.insert {pos : Nat} (h : SameBytes d e) (data : List UInt8)
    (hpos : pos ≤ d.size) :
    (bufferInsert fill d pos data = none → bufferInsert fill' e pos data = none) ∧
      ∀ d', bufferInsert fill d pos data = some d' →
        ∃ e', bufferInsert fill' e pos data = some e' ∧ SameBytes d' e' := by
  have hsame : (bufferInsert fill d pos data = none → bufferInsert fill' e pos data = none) ∧
      ∀ d', bufferInsert fill d pos data = some d' →
        ∃ e', bufferInsert fill' e pos data = some e' ∧ e'.capacity = d'.capacity := by
    rw [bufferInsert_eq, bufferInsert_eq, h.size, h.capacity]
    exact h.stored
  refine ⟨hsame.1, fun d' hd => ?_⟩
  obtain ⟨e', he, hcap⟩ := hsame.2 d' hd
  have hcontents := (contents_eq_iff h.left h.right h.contents.symm hd he).mpr
    fun i hi hlt => absurd hi (by omega)
  exact ⟨e', he, (bufferInsert_spec h.left hd).1, (bufferInsert_spec h.right he).1,
    hcontents.symm, hcap⟩

/-- What `hello_read` asks for ends in the contents, or leaves the address space. -/
theorem read_within {pos len : Nat} (size : Nat) (hpos : pos < 2 ^ 64) (hlen : len < 2 ^ 64) :
    pos + (if sizeT (pos + size) > len then sizeSub len pos else size) ≤ len ∨
      2 ^ 64 ≤ pos + (if sizeT (pos + size) > len then sizeSub len pos else size) := by
  unfold sizeSub sizeT
  split <;> omega

theorem memread_of_le {pos n : Nat} (hv : d.Valid) (hle : pos + n ≤ d.size) :
    memread d.ptr pos n = some ((d.contents.drop pos).take n) := by
  have hlen := hv.length_ptr
  have hsize := hv.size_le
  rw [memread_eq_some (by omega), Buffer.contents, List.drop_take, List.take_take,
    Nat.min_eq_left (by omega)]

theorem memread_of_ge {pos n : Nat} (hv : d.Valid) (hge : 2 ^ 64 ≤ pos + n) :
    memread d.ptr pos n = none := by
  have hlen := hv.length_ptr
  have hcap := hv.capacity_lt
  rw [memread, if_neg (by omega)]

/-- A reply is made from the contents. -/
theorem SameBytes.readReply (h : SameBytes d e) (size : Nat) (offset : Int) :
    TgFuse.readReply e size offset = TgFuse.readReply d size offset := by
  have hpos : sizeOfOff offset < 2 ^ 64 := by
    unfold sizeOfOff
    omega
  have hlen : d.size < 2 ^ 64 := Nat.lt_of_le_of_lt h.left.size_le h.left.capacity_lt
  simp only [TgFuse.readReply, h.size]
  rcases read_within size hpos hlen with hle | hge
  · rw [memread_of_le h.left hle, memread_of_le h.right (h.size.symm ▸ hle), h.contents]
  · rw [memread_of_ge h.left hge, memread_of_ge h.right hge]

end Buffers

-- ============================================================================
-- The functions of tg_file.c
-- ============================================================================

section Transfers

variable {α β γ : Type} {s t : Statics} {heap heap' : Heap} {config : TgConfig} {ptr : FilePtr}
  {path buf : List UInt8} {d e : Buffer}
  {Post : List (Request × Response) → α → β → Statics → Statics → Prop}

theorem Alike.receive {q : Request} {r : Response} (h : Alike s t) :
    (TgFuse.receive q r s = none → TgFuse.receive q r t = none) ∧
      ∀ s', TgFuse.receive q r s = some s' →
        ∃ t', TgFuse.receive q r t = some t' ∧ Alike s' t' ∧ s'.storage = s.storage := by
  by_cases hq : ∀ config path, q ≠ .download config path
  · rw [receive_json hq, receive_json hq, h.json]
    refine ⟨fun hnone => ?_, fun s' hs' => ?_⟩
    · rw [Option.map_eq_none_iff] at hnone ⊢
      exact hnone
    · obtain ⟨b, hb, rfl⟩ := Option.map_eq_some_iff.mp hs'
      rw [hb]
      exact ⟨_, rfl, h.withJson b, rfl⟩
  · push Not at hq
    obtain ⟨config, path, rfl⟩ := hq
    refine ⟨nofun, fun s' hs' => ⟨t, rfl, ?_, ?_⟩⟩
    · cases hs'
      exact h
    · cases hs'
      rfl

theorem alike_exchange {r : Request} {k : Response → Handler α} {k' : Response → Handler β}
    (h : Alike s t) (hk : ∀ a s' t', Alike s' t' → s'.storage = s.storage →
      Follows receive receive (k a) s' (k' a) t' fun log => Post ((r, a) :: log)) :
    Follows receive receive (exchange r >>= k) s (exchange r >>= k') t Post := by
  refine Follows.exchange (fun a => h.receive.1) fun a s' hs' => ?_
  obtain ⟨t', ht', halike, hsame⟩ := h.receive.2 s' hs'
  exact ⟨t', ht', hk a s' t' halike hsame⟩

theorem alike_load {k : TgFile → Handler α} {k' : TgFile → Handler β} (h : Alike s t)
    (hptr : ptr.Within s.storage)
    (hk : ∀ f, ptr.peek s = some f → Follows receive receive (k f) s (k' f) t Post) :
    Follows receive receive (ptr.load >>= k) s (ptr.load >>= k') t Post := by
  cases ptr with
  | slot i =>
      show Follows receive receive (liftOption s.storage.files[i]? >>= k) s
        (liftOption t.storage.files[i]? >>= k') t Post
      rw [h.slot (hptr i rfl)]
      exact Follows.liftOption_self hk
  | var f => exact hk f rfl

theorem alike_store {f : TgFile} (h : Alike s t) :
    Follows receive receive (ptr.store f) s (ptr.store f) t fun _ a b s' t' =>
      a = ptr.now f ∧ b = a ∧ Alike s' t' ∧ s'.storage.size = s.storage.size := by
  obtain ⟨halike, hsize⟩ := h.poke ptr f
  intro log o s' he
  obtain ⟨rfl, rfl, rfl⟩ := exec_store.mp he
  exact ⟨_, _, exec_store.mpr ⟨rfl, rfl, rfl⟩, Or.inr ⟨_, _, rfl, rfl, rfl, rfl, halike, hsize⟩⟩

theorem alike_find {k : Option Nat → Handler α} {k' : Option Nat → Handler β} (h : Alike s t)
    (hk : Follows receive receive (k (tgStorageFindByPath s.storage path)) s
      (k' (tgStorageFindByPath s.storage path)) t Post) :
    Follows receive receive (findByPath path >>= k) s (findByPath path >>= k') t Post := by
  show Follows receive receive (k (tgStorageFindByPath s.storage path)) s
    (k' (tgStorageFindByPath t.storage path)) t Post
  rwa [h.find]

/-- The same documents are uploaded. -/
theorem alike_tgPutFile (h : Alike s t) (hptr : ptr.Within s.storage)
    (hdata : e.contents = d.contents) :
    Follows receive receive (tgPutFile ptr config d) s (tgPutFile ptr config e) t
      fun _ a b s' t' => a = b ∧ Alike s' t' ∧ a.Within s'.storage := by
  have hlast : ∀ {s' t' : Statics} {x : TgFile → List UInt8 → Option TgFile},
      Alike s' t' → s'.storage = s.storage →
      Follows receive receive
        (do
          let s ← getState
          let f ← ptr.load
          let f ← liftOption (x f s.jsonResponseBuf.bytes)
          ptr.store f : Handler FilePtr) s'
        (do
          let s ← getState
          let f ← ptr.load
          let f ← liftOption (x f s.jsonResponseBuf.bytes)
          ptr.store f : Handler FilePtr) t'
        fun _ a b s' t' => a = b ∧ Alike s' t' ∧ a.Within s'.storage := by
    intro s' t' x halike hsame
    refine Follows.getState_left (Follows.getState_right ?_)
    rw [halike.json]
    refine alike_load halike (hsame ▸ hptr) fun f _ => Follows.liftOption_self fun g _ => ?_
    refine (alike_store halike).mono ?_
    rintro log a b u v ⟨rfl, rfl, huv, hsize⟩
    refine ⟨rfl, huv, ?_⟩
    rw [FilePtr.Within.now, FilePtr.Within, hsize, hsame]
    exact hptr
  rw [tgPutFile, tgPutFile, hdata]
  refine alike_load h hptr fun f _ => ?_
  refine Follows.liftOption_self fun filename _ => ?_
  refine Follows.liftOption_self fun directory _ => ?_
  refine Follows.ite (fun _ => ?_) fun _ => ?_
  · exact alike_exchange h fun r s' t' hs' hsame => hlast hs' hsame
  · refine alike_exchange h fun r s' t' hs' hsame => ?_
    exact Follows.ite (fun _ => Follows.fault) fun _ => hlast hs' hsame

/-- The same contents are loaded. -/
theorem alike_tgFileLoadContents (h : Alike s t) (hptr : ptr.Within s.storage) :
    Follows receive receive (tgFileLoadContents heap.bytes config ptr) s
      (tgFileLoadContents heap'.bytes config ptr) t
      fun _ d e s' t' => SameBytes d e ∧ Alike s' t' ∧ s'.storage = s.storage := by
  have hnew : SameBytes (bufferNew heap.bytes) (bufferNew heap'.bytes) := sameBytes_new
  rw [tgFileLoadContents, tgFileLoadContents]
  refine Follows.getState_left (Follows.setState_left ?_)
  refine Follows.getState_right (Follows.setState_right ?_)
  refine alike_load (h.withJson .zeros) hptr fun f _ => ?_
  refine alike_exchange (h.withJson .zeros) fun r s' t' hs' hsame => ?_
  refine Follows.ite (fun _ => Follows.pure ⟨hnew, hs', hsame⟩) fun _ => ?_
  refine Follows.getState_left (Follows.getState_right ?_)
  rw [hs'.json]
  refine Follows.liftOption_self fun ok _ => ?_
  refine Follows.ite (fun _ => Follows.pure ⟨hnew, hs', hsame⟩) fun _ => ?_
  refine Follows.liftOption_self fun filePath _ => ?_
  refine alike_exchange hs' fun r' u v huv hu => ?_
  rw [liftOption_foldlM, liftOption_foldlM]
  have hstep : ∀ d e chunk s' t', SameBytes d e ∧ Alike s' t' ∧ s'.storage = s.storage →
      Follows receive receive (liftOption (curlResponseFileWriter heap.bytes d chunk)) s'
        (liftOption (curlResponseFileWriter heap'.bytes e chunk)) t'
        fun log d e s' t' => log = [] ∧ SameBytes d e ∧ Alike s' t' ∧ s'.storage = s.storage := by
    rintro d e chunk s' t' ⟨hde, hst, hs⟩
    obtain ⟨hnone, hsome⟩ := hde.append chunk
    exact Follows.liftOption_last hnone fun d' hd' => (hsome d' hd').imp fun e' he' =>
      ⟨he'.1, rfl, he'.2, hst, hs⟩
  exact (Follows.foldlM hstep r'.chunks ⟨hnew, huv, hu.trans hsame⟩).mono fun _ _ _ _ _ hp => hp.2

/-- The same data written, where it leaves no hole. -/
theorem alike_writeData {offset : Int} (h : Alike s t) (hptr : ptr.Within s.storage)
    (hde : SameBytes d e) (hpos : sizeOfOff offset ≤ d.size) :
    Follows receive receive (writeData heap config ptr d buf offset) s
      (writeData heap' config ptr e buf offset) t fun _ a b s' t' => a = b ∧ Alike s' t' := by
  rw [writeData, writeData]
  obtain ⟨hnone, hsome⟩ := hde.insert buf hpos
  refine Follows.liftOption hnone fun d' hd' => ?_
  obtain ⟨e', he', hde'⟩ := hsome d' hd'
  refine ⟨e', he', (alike_tgPutFile h hptr hde'.contents).bind ?_⟩
  rintro l file _ s' t' ⟨rfl, hst, hfile⟩
  refine alike_load hst hfile fun f _ => ?_
  rw [hde'.size]
  refine (alike_store hst).bind ?_
  rintro l' a b u v ⟨rfl, rfl, huv, -⟩
  exact Follows.pure ⟨rfl, huv⟩

theorem alike_tgRemoveMessageWithFile (h : Alike s t) (hptr : ptr.Within s.storage) :
    Follows receive receive (tgRemoveMessageWithFile config ptr) s
      (tgRemoveMessageWithFile config ptr) t
      fun _ a b s' t' => a = b ∧ Alike s' t' ∧ s'.storage = s.storage := by
  rw [tgRemoveMessageWithFile]
  refine alike_load h hptr fun f _ => alike_exchange h fun r s' t' hs' hsame => ?_
  refine Follows.ite (fun _ => Follows.pure ⟨rfl, hs', hsame⟩) fun _ => ?_
  refine Follows.getState_left (Follows.getState_right ?_)
  rw [hs'.json]
  exact Follows.liftOption_self fun ok _ => Follows.pure ⟨rfl, hs', hsame⟩

theorem alike_removeByPath (h : Alike s t) (path : List UInt8) :
    Follows receive receive (removeByPath path) s (removeByPath path) t
      fun log a b s' t' => log = [] ∧ a = b ∧ Alike s' t' := by
  obtain ⟨heq, halike⟩ := h.remove path
  rw [removeByPath]
  refine Follows.getState_left (Follows.setState_left ?_)
  refine Follows.getState_right (Follows.setState_right ?_)
  exact Follows.pure ⟨rfl, heq.symm, halike⟩

theorem alike_pushFile (h : Alike s t) (f : TgFile) :
    Follows receive receive (pushFile heap f) s (pushFile heap' f) t
      fun log _ _ s' t' => log = [] ∧ Alike s' t' := by
  obtain ⟨hnone, hsome⟩ := h.push f
  rw [pushFile, pushFile]
  refine Follows.getState_left (Follows.getState_right ?_)
  refine Follows.liftOption hnone fun st hst => (hsome st hst).imp fun st' hst' => ⟨hst'.1, ?_⟩
  rintro log o s' ⟨rfl, rfl, rfl⟩
  exact ⟨some (), _, ⟨rfl, rfl, rfl⟩, Or.inr ⟨(), (), rfl, rfl, rfl, hst'.2⟩⟩

end Transfers

-- ============================================================================
-- The handlers
-- ============================================================================

/-- Where a write starts. -/
def Call.start : Call → Nat
  | .write _ _ offset => sizeOfOff offset
  | _ => 0

/-- A write starts in what it has loaded or right behind it. -/
def Event.Filled (ev : Event) : Prop := ev.call.start ≤ (received ev.log).length

instance : DecidablePred Event.Filled := fun _ => inferInstanceAs (Decidable (_ ≤ _))

section Handlers

variable {s t : Statics} {heap heap' : Heap} {config : TgConfig} {path buf : List UInt8}

/-- A slot that a search has found. -/
theorem within_of_find {i : Nat} (hfind : tgStorageFindByPath s.storage path = some i) :
    (FilePtr.slot i).Within s.storage := by
  rintro j hj
  cases hj
  exact find_lt hfind

theorem alike_rmdirLoop (rounds start : Nat) (h : Alike s t) :
    Follows receive receive (rmdirLoop config path rounds start) s
      (rmdirLoop config path rounds start) t fun _ a b s' t' => a = b ∧ Alike s' t' := by
  induction rounds generalizing s t start with
  | zero => exact Follows.fault
  | succ rounds ih =>
      rw [rmdirLoop]
      refine Follows.getState_left (Follows.getState_right ?_)
      rw [h.findDir]
      refine Follows.liftOption_self fun next hnext => ?_
      cases next with
      | none => exact Follows.pure ⟨rfl, h⟩
      | some i =>
          have hi : (FilePtr.slot i).Within s.storage := by
            rintro j hj
            cases hj
            exact findDir_lt h.left hnext
          refine alike_load h hi fun file _ => ?_
          have hrest : ∀ {s' t' : Statics}, Alike s' t' → s'.storage = s.storage →
              Follows receive receive
                (do
                  let file ← (FilePtr.slot i).load
                  let _ ← removeByPath file.pathStr
                  rmdirLoop config path rounds (i + 1)) s'
                (do
                  let file ← (FilePtr.slot i).load
                  let _ ← removeByPath file.pathStr
                  rmdirLoop config path rounds (i + 1)) t'
                fun _ a b s' t' => a = b ∧ Alike s' t' := by
            intro s' t' hst hsame
            refine alike_load hst (hsame ▸ hi) fun file _ => ?_
            refine (alike_removeByPath hst file.pathStr).bind ?_
            rintro l a b u v ⟨rfl, rfl, huv⟩
            exact ih (i + 1) huv
          dsimp only
          refine Follows.ite (fun _ => ?_) fun _ => hrest h rfl
          refine (alike_tgRemoveMessageWithFile h hi).bind ?_
          rintro l a b s' t' ⟨rfl, hst, hsame⟩
          exact hrest hst hsame

theorem readdirLoop_congr (rounds start : Nat) (h : Alike s t) :
    readdirLoop t.storage path rounds start = readdirLoop s.storage path rounds start := by
  induction rounds generalizing start with
  | zero => rfl
  | succ rounds ih =>
      rw [readdirLoop, readdirLoop, h.findDir]
      cases hnext : tgStorageFindFilesByDir s.storage path start with
      | none => rfl
      | some next =>
          cases next with
          | none => rfl
          | some i =>
              simp only [Option.bind_eq_bind, Option.bind_some, h.slot (findDir_lt h.left hnext),
                ih]

theorem received_of_noDownload {log : List (Request × Response)}
    (h : ∀ e ∈ log, NoDownload e.1) : received log = [] := by
  refine List.flatMap_eq_nil_iff.mpr fun e he => ?_
  obtain ⟨q, r⟩ := e
  cases q with
  | download config path => exact absurd rfl (h _ he config path)
  | _ => rfl

/-- A write that leaves no hole. -/
theorem alike_helloWrite {offset : Int} {log : List (Request × Response)} {o : Option Int}
    {s' : Statics} (h : Alike s t)
    (he : Exec receive (helloWrite heap config path buf offset) s log o s')
    (hfilled : sizeOfOff offset ≤ (received log).length) :
    ∃ o' t', Exec receive (helloWrite heap' config path buf offset) t log o' t' ∧
      (o = none ∧ o' = none ∨ ∃ a b, o = some a ∧ o' = some b ∧ a = b ∧ Alike s' t') := by
  rw [helloWrite, exec_findByPath_bind] at he
  simp only [helloWrite, exec_findByPath_bind, h.find]
  cases hfind : tgStorageFindByPath s.storage path with
  | none =>
      rw [hfind] at he
      have hnone : received log = [] := received_of_noDownload (Requests.of_exec receive
        ((requests_liftOption _).bind fun f => (requests_pushFile f).bind fun _ =>
          requests_writeData (.var f) _) he)
      rw [hnone] at hfilled
      have hbranch : Follows receive receive
          (do
            let ifNo ← liftOption (tgFileNewFile path (sizeT (sizeOfOff offset + buf.length)))
            pushFile heap ifNo
            writeData heap config (.var ifNo) (bufferNew heap.bytes) buf offset) s
          (do
            let ifNo ← liftOption (tgFileNewFile path (sizeT (sizeOfOff offset + buf.length)))
            pushFile heap' ifNo
            writeData heap' config (.var ifNo) (bufferNew heap'.bytes) buf offset) t
          fun _ a b s' t' => a = b ∧ Alike s' t' := by
        refine Follows.liftOption_self fun f _ => (alike_pushFile h f).bind ?_
        rintro l - - u v ⟨-, huv⟩
        exact alike_writeData huv nofun sameBytes_new hfilled
      exact hbranch _ _ _ he
  | some i =>
      rw [hfind] at he
      have hi := find_lt hfind
      have hptr := within_of_find hfind
      obtain ⟨f, hf⟩ : ∃ f, (FilePtr.slot i).peek s = some f :=
        ⟨_, List.getElem?_eq_getElem (by
          rw [h.left.length_files]
          exact Nat.lt_of_lt_of_le hi h.left.size_le)⟩
      have hf' : (FilePtr.slot i).peek t = some f := (h.slot hi).trans hf
      dsimp only at he ⊢
      simp only [exec_load_bind _ hf] at he
      simp only [exec_load_bind _ hf']
      split at he
      · next hdir =>
        simp only [if_pos hdir]
        obtain ⟨rfl, rfl, rfl⟩ := he
        exact ⟨_, _, ⟨rfl, rfl, rfl⟩, Or.inr ⟨_, _, rfl, rfl, rfl, h⟩⟩
      · next hdir =>
        simp only [if_neg hdir]
        split at he
        · next hpos =>
          simp only [if_pos hpos]
          have hload : Follows receive receive
              (tgFileLoadContents heap.bytes config (.slot i)) s
              (tgFileLoadContents heap'.bytes config (.slot i)) t
              fun _ d e s' t' => SameBytes d e ∧ Alike s' t' ∧ s'.storage = s.storage :=
            alike_tgFileLoadContents h hptr
          rcases (exec_bind receive).mp he with ⟨d, u, l₁, l₂, rfl, h₁, h₂⟩ | ⟨rfl, h₁⟩
          · obtain ⟨o', v, hq, ⟨hnone, -⟩ | ⟨d', e, hd, rfl, hde, huv, hsame⟩⟩ := hload _ _ _ h₁
            · cases hnone
            · cases hd
              -- what has been received is what has been loaded
              obtain ⟨b, hloaded, -⟩ := (exec_tgFileLoadContents _ hf).mp h₁
              have hrest : received l₂ = [] :=
                received_of_noDownload ((requests_writeData _ _).of_exec receive h₂)
              rw [received, List.flatMap_append, ← received, ← received, hrest, List.append_nil,
                ← hloaded.contents_eq.1, hde.left.length_contents] at hfilled
              obtain ⟨o', t', hw, hpost⟩ :=
                alike_writeData huv (hsame ▸ hptr) hde hfilled _ _ _ h₂
              exact ⟨o', t', (exec_bind receive).mpr (Or.inl ⟨e, v, l₁, l₂, rfl, hq, hw⟩), hpost⟩
          · obtain ⟨o', v, hq, ⟨-, rfl⟩ | ⟨a, -, ha, -⟩⟩ := hload _ _ _ h₁
            · exact ⟨none, v, (exec_bind receive).mpr (Or.inr ⟨rfl, hq⟩), Or.inl ⟨rfl, rfl⟩⟩
            · cases ha
        · next hpos =>
          simp only [if_neg hpos]
          have hnone : received log = [] :=
            received_of_noDownload ((requests_writeData _ _).of_exec receive he)
          rw [hnone] at hfilled
          exact alike_writeData h hptr sameBytes_new hfilled _ _ _ he

theorem alike_helloGetattr (h : Alike s t) :
    Follows receive receive (helloGetattr path) s (helloGetattr path) t
      fun _ a b s' t' => a = b ∧ Alike s' t' := by
  rw [helloGetattr]
  refine Follows.ite (fun _ => Follows.pure ⟨rfl, h⟩) fun _ => alike_find h ?_
  cases hfind : tgStorageFindByPath s.storage path with
  | none => exact Follows.pure ⟨rfl, h⟩
  | some i =>
      refine alike_load h (within_of_find hfind) fun file _ => ?_
      cases file.type <;> exact Follows.pure ⟨rfl, h⟩

theorem alike_helloReaddir (h : Alike s t) :
    Follows receive receive (helloReaddir path) s (helloReaddir path) t
      fun _ a b s' t' => a = b ∧ Alike s' t' := by
  rw [helloReaddir]
  refine alike_find h ?_
  cases hfind : tgStorageFindByPath s.storage path with
  | none => exact Follows.pure ⟨rfl, h⟩
  | some i =>
      refine alike_load h (within_of_find hfind) fun dir _ => ?_
      refine Follows.ite (fun _ => Follows.pure ⟨rfl, h⟩) fun _ => ?_
      refine Follows.getState_left (Follows.getState_right ?_)
      rw [h.size, readdirLoop_congr _ _ h]
      exact Follows.liftOption_self fun names _ => Follows.pure ⟨rfl, h⟩

theorem alike_helloOpen (h : Alike s t) :
    Follows receive receive (helloOpen path) s (helloOpen path) t
      fun _ a b s' t' => a = b ∧ Alike s' t' := by
  rw [helloOpen]
  refine alike_find h ?_
  cases tgStorageFindByPath s.storage path <;> exact Follows.pure ⟨rfl, h⟩

theorem alike_helloRmdir (h : Alike s t) :
    Follows receive receive (helloRmdir config path) s (helloRmdir config path) t
      fun _ a b s' t' => a = b ∧ Alike s' t' := by
  rw [helloRmdir]
  refine alike_find h ?_
  cases hfind : tgStorageFindByPath s.storage path with
  | none => exact Follows.pure ⟨rfl, h⟩
  | some i =>
      refine alike_load h (within_of_find hfind) fun dir _ => ?_
      refine Follows.ite (fun _ => Follows.pure ⟨rfl, h⟩) fun _ => ?_
      refine Follows.getState_left (Follows.getState_right ?_)
      rw [h.size]
      refine (alike_rmdirLoop _ _ h).bind ?_
      rintro l a b s' t' ⟨-, hst⟩
      refine (alike_removeByPath hst path).bind ?_
      rintro l' a b u v ⟨-, -, huv⟩
      exact Follows.pure ⟨rfl, huv⟩

theorem alike_helloUnlink (h : Alike s t) :
    Follows receive receive (helloUnlink config path) s (helloUnlink config path) t
      fun _ a b s' t' => a = b ∧ Alike s' t' := by
  rw [helloUnlink]
  refine (alike_removeByPath h path).bind ?_
  rintro l file _ s' t' ⟨-, rfl, hst⟩
  refine Follows.ite (fun _ => Follows.pure ⟨rfl, hst⟩) fun _ => ?_
  have hvar : (FilePtr.var file).Within s'.storage := by
    intro _ hj
    cases hj
  refine (alike_tgRemoveMessageWithFile hst hvar).bind ?_
  rintro l' a b u v ⟨-, huv, -⟩
  exact Follows.pure ⟨rfl, huv⟩

theorem alike_helloMkdir (h : Alike s t) :
    Follows receive receive (helloMkdir heap path) s (helloMkdir heap' path) t
      fun _ a b s' t' => a = b ∧ Alike s' t' := by
  rw [helloMkdir, helloMkdir]
  refine Follows.liftOption_self fun f _ => (alike_pushFile h f).bind ?_
  rintro l - - s' t' ⟨-, hst⟩
  exact Follows.pure ⟨rfl, hst⟩

theorem alike_helloCreate (h : Alike s t) :
    Follows receive receive (helloCreate heap path) s (helloCreate heap' path) t
      fun _ a b s' t' => a = b ∧ Alike s' t' := by
  have hpush : ∀ isDir : Bool, Follows receive receive
      (if isDir = true then pure (-eisdir) else do
        let newFile ← liftOption (tgFileNewFile path 0)
        pushFile heap newFile
        pure (0 : Int)) s
      (if isDir = true then pure (-eisdir) else do
        let newFile ← liftOption (tgFileNewFile path 0)
        pushFile heap' newFile
        pure (0 : Int)) t fun _ a b s' t' => a = b ∧ Alike s' t' := by
    intro isDir
    refine Follows.ite (fun _ => Follows.pure ⟨rfl, h⟩) fun _ => ?_
    refine Follows.liftOption_self fun f _ => (alike_pushFile h f).bind ?_
    rintro l - - s' t' ⟨-, hst⟩
    exact Follows.pure ⟨rfl, hst⟩
  rw [helloCreate, helloCreate]
  refine alike_find h ?_
  cases hfind : tgStorageFindByPath s.storage path with
  | none => exact hpush false
  | some i => exact alike_load h (within_of_find hfind) fun file _ => hpush _

theorem alike_helloRead {size : Nat} {offset : Int} (h : Alike s t) :
    Follows receive receive (helloRead heap config path size offset) s
      (helloRead heap' config path size offset) t fun _ a b s' t' => a = b ∧ Alike s' t' := by
  rw [helloRead, helloRead]
  refine alike_find h ?_
  cases hfind : tgStorageFindByPath s.storage path with
  | none => exact Follows.pure ⟨rfl, h⟩
  | some i =>
      have hi := within_of_find hfind
      refine alike_load h hi fun file _ => ?_
      refine Follows.ite (fun _ => Follows.pure ⟨rfl, h⟩) fun _ => ?_
      refine (alike_tgFileLoadContents h hi).bind ?_
      rintro l d e s' t' ⟨hde, hst, -⟩
      dsimp only
      rw [readTail_eq, readTail_eq, hde.readReply]
      exact Follows.liftOption_last id fun a ha => ⟨a, ha, rfl, hst⟩

/-- On other memory a call does the same, if it leaves no hole. -/
theorem alike_call {ev : Event} {s' : Statics} (heap' : Heap) (h : Alike s t)
    (he : Exec receive (ev.call.handler heap config) s ev.log (some ev.reply) s')
    (hfilled : ev.Filled) :
    ∃ t', Exec receive (ev.call.handler heap' config) t ev.log (some ev.reply) t' ∧
      Alike s' t' := by
  obtain ⟨call, log, reply⟩ := ev
  have hreply : ∀ {α : Type} {p q : Handler α} (g : α → Reply),
      (∀ o, Exec receive p s log o s' → ∃ o' t', Exec receive q t log o' t' ∧
        (o = none ∧ o' = none ∨ ∃ a b, o = some a ∧ o' = some b ∧ a = b ∧ Alike s' t')) →
      Exec receive (p >>= fun a => pure (g a)) s log (some reply) s' →
      ∃ t', Exec receive (q >>= fun a => pure (g a)) t log (some reply) t' ∧ Alike s' t' := by
    intro α p q g hpq he
    obtain ⟨a, ha, rfl⟩ := exec_reply.mp he
    obtain ⟨o', t', hq, ⟨hnone, -⟩ | ⟨a', b, ha', rfl, rfl, hst⟩⟩ := hpq _ ha
    · cases hnone
    · cases ha'
      exact ⟨t', exec_reply.mpr ⟨a, hq, rfl⟩, hst⟩
  have hnothing : ∀ x : Int, Follows receive receive (pure x) s (pure x) t
      fun _ a b s' t' => a = b ∧ Alike s' t' := fun x => Follows.pure ⟨rfl, h⟩
  cases call with
  | getattr p =>
      exact hreply (fun r : Int × Stat => .stat r.1 r.2) (fun _ => alike_helloGetattr h _ _ _) he
  | readdir p =>
      exact hreply (fun r : Int × List (List UInt8) => .listing r.1 r.2)
        (fun _ => alike_helloReaddir h _ _ _) he
  | «open» p => exact hreply _ (fun _ => alike_helloOpen h _ _ _) he
  | create p => exact hreply _ (fun _ => alike_helloCreate h _ _ _) he
  | mkdir p => exact hreply _ (fun _ => alike_helloMkdir h _ _ _) he
  | unlink p => exact hreply _ (fun _ => alike_helloUnlink h _ _ _) he
  | rmdir p => exact hreply _ (fun _ => alike_helloRmdir h _ _ _) he
  | read p n o =>
      exact hreply (fun r : Int × List UInt8 => .data r.1 r.2)
        (fun _ => alike_helloRead h _ _ _) he
  | setxattr p => exact hreply _ (fun _ => hnothing 0 _ _ _) he
  | utimens p => exact hreply _ (fun _ => hnothing 0 _ _ _) he
  | write p b o =>
      exact hreply _ (fun _ hw => alike_helloWrite h hw hfilled) he

end Handlers

-- ============================================================================
-- Runs
-- ============================================================================

/-- A call completes, on the fresh memory `l.2`. -/
def StepOn (config : TgConfig) (s : Statics) (l : Event × Heap) (s' : Statics) : Prop :=
  Exec receive (l.1.call.handler l.2 config) s l.1.log (some l.1.reply) s'

section Runs

variable {config : TgConfig} {heap : Heap} {s₀ s : Statics} {ls ms : List (Event × Heap)}

/-- `main` starts on any memory. -/
theorem mainInit_alike (h0 : mainInit heap = some s₀) (heap' : Heap) :
    ∃ t₀, mainInit heap' = some t₀ ∧ Alike s₀ t₀ := by
  let new : Heap → Statics := fun heap => ⟨tgStorageNew heap.slots, .zeros⟩
  have hnew : Alike (new heap) (new heap') := by
    refine ⟨tgStorageNew_valid _, tgStorageNew_valid _, ?_, rfl, rfl⟩
    rw [tgStorageNew_live, tgStorageNew_live]
  simp only [mainInit, Option.bind_eq_bind, Option.bind_eq_some_iff] at h0 ⊢
  obtain ⟨dir, hdir, st, hst, h0⟩ := h0
  cases h0
  obtain ⟨st', hst', halike⟩ := (hnew.push dir).2 st hst
  exact ⟨⟨st', .zeros⟩, ⟨dir, hdir, st', hst', rfl⟩, halike⟩

/-- A run that leaves no hole goes the same way whatever memory `main` and its calls are
    given: the same requests, the same replies, and in the end the same entries. -/
theorem fresh_memory_unseen (h0 : mainInit heap = some s₀) (hrun : Run (StepOn config) s₀ ls s)
    (hfilled : ∀ l ∈ ls, l.1.Filled) (heap' : Heap) (hms : ms.map Prod.fst = ls.map Prod.fst) :
    ∃ t₀ t, mainInit heap' = some t₀ ∧ Run (StepOn config) t₀ ms t ∧ Alike s t := by
  obtain ⟨t₀, ht₀, hstart⟩ := mainInit_alike h0 heap'
  refine ⟨t₀, ?_⟩
  induction hrun generalizing ms with
  | nil =>
      rw [List.map_nil, List.map_eq_nil_iff] at hms
      exact ⟨t₀, ht₀, hms ▸ .nil, hstart⟩
  | @snoc ls s s' l _ hstep ih =>
      rw [List.map_append, List.map_singleton] at hms
      obtain ⟨ms', last, rfl, hbefore, hlast⟩ := List.map_eq_append_iff.mp hms
      obtain ⟨m, rfl, hm⟩ := List.map_eq_singleton_iff.mp hlast
      obtain ⟨t, -, hrun, halike⟩ :=
        ih (fun l hl => hfilled l (List.mem_append_left _ hl)) hbefore
      obtain ⟨t', hstep', halike'⟩ := alike_call m.2 halike hstep
        (hfilled l (List.mem_append_right _ (List.mem_singleton_self _)))
      refine ⟨t', ht₀, .snoc hrun ?_, halike'⟩
      rw [StepOn, hm]
      exact hstep'

/-- What is evaluated runs on the memory it is evaluated with. -/
theorem runOn_of_runCalls {allowed : Statics → Call → Bool} {calls : List (Call × List Response)}
    {evs : List Event} (h : runCalls heap config allowed calls s₀ = some (evs, s)) :
    Run (StepOn config) s₀ (evs.map fun ev => (ev, heap)) s := by
  induction calls generalizing s₀ evs with
  | nil =>
      cases h
      exact .nil
  | cons c calls ih =>
      obtain ⟨call, rs⟩ := c
      rw [runCalls] at h
      split at h
      · split at h
        · next reply t log hrun =>
          obtain ⟨⟨evs', t'⟩, hrest, heq⟩ := Option.map_eq_some_iff.mp h
          cases heq
          exact .cons (exec_of_run receive hrun) (ih hrest)
        · cases h
      · cases h

/-- A file is written, made longer and read, on zeros and on ones. -/
theorem fresh_memory_unseen_sample :
    ∃ (s₀ s t₀ t : Statics) (evs : List Event),
      mainInit zeroHeap = some s₀ ∧
      Run (StepOn blankConfig) s₀ (evs.map fun ev => (ev, zeroHeap)) s ∧
      mainInit onesHeap = some t₀ ∧
      Run (StepOn blankConfig) t₀ (evs.map fun ev => (ev, onesHeap)) t ∧ Alike s t ∧
      evs.map Event.reply = [.status 0, .status 1, .status 2, .data 3 (text "xyy")] := by
  have heval : (runFromMain (fun _ _ => true)
      [(.create (text "/a"), []),
        (.write (text "/a") (text "x") 0, [sentAnswer (text "17") (text "AAA")]),
        (.write (text "/a") (text "yy") 1, [locatedAnswer (text "f1"), .whole (text "x"),
          editedAnswer (text "BBB")]),
        (.read (text "/a") 5 0, [locatedAnswer (text "f2"), .whole (text "xyy")])]).any
      (fun r => (∀ ev ∈ r.2.1, ev.Filled) ∧ r.2.1.map Event.reply =
        [.status 0, .status 1, .status 2, .data 3 (text "xyy")]) = true := by
    decide +kernel
  obtain ⟨⟨s₀, evs, s⟩, hrun, hP⟩ := (Option.any_eq_true _ _).mp heval
  obtain ⟨hfilled, hreplies⟩ := of_decide_eq_true hP
  simp only [runFromMain, Option.bind_eq_bind, Option.bind_eq_some_iff, Option.some.injEq,
    Prod.mk.injEq] at hrun
  obtain ⟨t, h0, r, hr, rfl, rfl, rfl⟩ := hrun
  have hrun := runOn_of_runCalls hr
  have hsame : (r.1.map fun ev => (ev, onesHeap)).map Prod.fst =
      (r.1.map fun ev => (ev, zeroHeap)).map Prod.fst := by
    simp only [List.map_map, Function.comp_def]
  obtain ⟨t₀, u, ht₀, hrun', halike⟩ := fresh_memory_unseen h0 hrun
    (fun l hl => by
      obtain ⟨ev, hev, rfl⟩ := List.mem_map.mp hl
      exact hfilled ev hev)
    onesHeap hsame
  exact ⟨t, r.2, t₀, u, r.1, h0, hrun, ht₀, hrun', halike, hreplies⟩

end Runs

end TgFuse

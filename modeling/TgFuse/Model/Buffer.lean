/-
  TgFuse.Model.Buffer

  The growable byte buffer of `buffer.c`.

  `ptr` is the allocated block, byte by byte; what fresh memory holds is the
  parameter `fill` (position in the block ↦ byte), so that nothing below depends
  on it unless the program does.  `size_t` arithmetic wraps at `2^64`; a `memcpy`
  that leaves the block is undefined (`none`).  Allocation succeeds.
-/

import Mathlib.Algebra.Group.Int.Defs
import Mathlib.Algebra.Group.Nat.Defs
import TgFuse.Lib.CString
import TgFuse.Lib.Overlay

namespace TgFuse

open CString Overlay

/-- `size_t` arithmetic. -/
def sizeT (n : Nat) : Nat := n % 2 ^ 64

theorem sizeT_lt (n : Nat) : sizeT n < 2 ^ 64 := Nat.mod_lt _ (by decide)

theorem sizeT_of_lt {n : Nat} (h : n < 2 ^ 64) : sizeT n = n := Nat.mod_eq_of_lt h

/-- The difference of two `size_t` values. -/
def sizeSub (a b : Nat) : Nat := sizeT (a + 2 ^ 64 - b)

theorem sizeSub_of_le {a b : Nat} (hb : b ≤ a) (ha : a < 2 ^ 64) : sizeSub a b = a - b := by
  unfold sizeSub sizeT
  omega

/-- `realloc(block, n)`: the first `min(old, n)` bytes stay. -/
def realloc (fill : Nat → UInt8) (block : List UInt8) (n : Nat) : List UInt8 :=
  block.take n ++ (List.range' block.length (n - block.length)).map fill

@[simp] theorem realloc_length (fill : Nat → UInt8) (block : List UInt8) (n : Nat) :
    (realloc fill block n).length = n := by
  simp [realloc]
  omega

theorem realloc_take {fill : Nat → UInt8} {block : List UInt8} {n k : Nat} (hk : k ≤ n)
    (hb : k ≤ block.length) : (realloc fill block n).take k = block.take k := by
  rw [realloc, List.take_append_of_le_length (by rw [List.length_take]; omega),
    List.take_take, Nat.min_eq_left hk]

/-- `buffer`. -/
structure Buffer where
  ptr : List UInt8
  capacity : Nat
  size : Nat
deriving DecidableEq

variable (fill : Nat → UInt8)

/-- `buffer_new`. -/
def bufferNew : Buffer :=
  { ptr := realloc fill [] 100, size := 0, capacity := 100 }

/-- The bytes a buffer stands for. -/
def Buffer.contents (st : Buffer) : List UInt8 := st.ptr.take st.size

/-- `st->capacity = n; st->ptr = realloc(st->ptr, st->capacity)`. -/
def Buffer.resize (st : Buffer) (n : Nat) : Buffer :=
  { st with capacity := n, ptr := realloc fill st.ptr n }

/-- `buffer_push`. -/
def bufferPush (st : Buffer) (c : UInt8) : Option Buffer :=
  let st := if st.size ≥ st.capacity then st.resize fill (sizeT (st.capacity * 2 + 1)) else st
  (memcpyAt st.ptr st.size [c]).map fun ptr => { st with ptr, size := sizeT (st.size + 1) }

/-- `buffer_append`. -/
def bufferAppend (st : Buffer) (data : List UInt8) : Option Buffer :=
  let st := if sizeT (st.size + data.length) ≥ st.capacity then
      st.resize fill (sizeT (st.capacity + data.length))
    else st
  (memcpyAt st.ptr st.size data).map fun ptr =>
    { st with ptr, size := sizeT (st.size + data.length) }

/-- `buffer_insert`. -/
def bufferInsert (st : Buffer) (pos : Nat) (data : List UInt8) : Option Buffer :=
  let st := if sizeT (pos + data.length) ≥ st.capacity then
      st.resize fill (sizeT (pos + data.length))
    else st
  (memcpyAt st.ptr pos data).map fun ptr =>
    if st.size < sizeT (pos + data.length) then
      { st with ptr, size := sizeT (pos + data.length) }
    else { st with ptr }

-- ============================================================================
-- What the operations do
-- ============================================================================

/-- The block has `capacity` bytes, of which `size` are in use. -/
structure Buffer.Valid (st : Buffer) : Prop where
  length_ptr : st.ptr.length = st.capacity
  size_le : st.size ≤ st.capacity
  capacity_lt : st.capacity < 2 ^ 64

theorem bufferNew_valid : (bufferNew fill).Valid where
  length_ptr := by simp [bufferNew]
  size_le := by simp [bufferNew]
  capacity_lt := by simp [bufferNew]

@[simp] theorem bufferNew_contents : (bufferNew fill).contents = [] := rfl

@[simp] theorem bufferNew_size : (bufferNew fill).size = 0 := rfl

theorem Buffer.Valid.length_contents {st : Buffer} (h : st.Valid) :
    st.contents.length = st.size := by
  rw [Buffer.contents, List.length_take, h.length_ptr]
  exact Nat.min_eq_left h.size_le

variable {fill}

/-- The byte at position `i` of the block, as far as it reaches or once it does. -/
def Buffer.byteAt (fill : Nat → UInt8) (st : Buffer) (i : Nat) : UInt8 := st.ptr.getD i (fill i)

theorem getElem?_ptr {st : Buffer} {i : Nat} (hi : i < st.ptr.length) :
    st.ptr[i]? = some (st.byteAt fill i) := by
  rw [Buffer.byteAt, List.getD_eq_getElem?_getD, List.getElem?_eq_getElem hi]
  rfl

theorem getElem?_realloc (fill : Nat → UInt8) (st : Buffer) {i n : Nat} (hn : st.ptr.length ≤ n)
    (hi : i < n) :
    (realloc fill st.ptr n)[i]? = some (st.byteAt fill i) := by
  rw [realloc, List.take_of_length_le hn, Buffer.byteAt, List.getD_eq_getElem?_getD]
  by_cases hlt : i < st.ptr.length
  · rw [List.getElem?_append_left hlt, List.getElem?_eq_getElem hlt]
    rfl
  · rw [List.getElem?_append_right (by omega), List.getElem?_eq_none (l := st.ptr) (by omega)]
    simp only [List.getElem?_map, Option.getD_none]
    rw [List.getElem?_range' (by omega), Option.map_some]
    exact congrArg (fun k => some (fill k)) (by omega)

/-- A store behind the contents, in a block that is long enough, appends. -/
private theorem store_append {st : Buffer} {cap : Nat} {mem : List UInt8} (data : List UInt8)
    (hcap : cap < 2 ^ 64) (hmem : mem.length = cap) (hfit : st.size + data.length ≤ cap)
    (htake : mem.take st.size = st.contents) :
    (Buffer.mk (mem.take st.size ++ data ++ mem.drop (st.size + data.length)) cap
        (st.size + data.length)).Valid ∧
      (Buffer.mk (mem.take st.size ++ data ++ mem.drop (st.size + data.length)) cap
        (st.size + data.length)).contents = st.contents ++ data := by
  refine ⟨⟨?_, hfit, hcap⟩, ?_⟩
  · simp only [List.length_append, List.length_take, List.length_drop]
    omega
  · rw [Buffer.contents, List.take_left' (by
      simp only [List.length_append, List.length_take]; omega), htake]

/-- A push that stays inside the block appends one byte. -/
theorem bufferPush_spec {st st' : Buffer} {c : UInt8} (hv : st.Valid)
    (hroom : st.size ≥ st.capacity → st.capacity * 2 + 1 < 2 ^ 64)
    (h : bufferPush fill st c = some st') :
    st'.Valid ∧ st'.contents = st.contents ++ [c] ∧ st.capacity ≤ st'.capacity := by
  obtain ⟨hlen, hsize, hcap⟩ := hv
  simp only [bufferPush, Option.map_eq_some_iff] at h
  obtain ⟨ptr, hptr, rfl⟩ := h
  obtain ⟨hfit, rfl⟩ := memcpyAt_inv hptr
  by_cases hgrow : st.size ≥ st.capacity
  · have hcap' := hroom hgrow
    simp only [hgrow, if_true, Buffer.resize, realloc_length, sizeT_of_lt hcap',
      List.length_singleton] at hfit ⊢
    have hold : (realloc fill st.ptr (st.capacity * 2 + 1)).take st.size = st.contents :=
      realloc_take (by omega) (by omega)
    rw [sizeT_of_lt (n := st.size + 1) (by omega)]
    obtain ⟨hv', hc⟩ := store_append [c] hcap' (realloc_length ..) hfit hold
    exact ⟨hv', hc, by omega⟩
  · simp only [hgrow, if_false, List.length_singleton] at hfit ⊢
    rw [sizeT_of_lt (n := st.size + 1) (by omega)]
    obtain ⟨hv', hc⟩ := store_append [c] hcap hlen (by rw [List.length_singleton]; omega) rfl
    exact ⟨hv', hc, Nat.le_refl _⟩

/-- Within `size_t`, a push goes through. -/
theorem bufferPush_some (fill : Nat → UInt8) {st : Buffer} (c : UInt8) (hv : st.Valid)
    (hroom : st.size ≥ st.capacity → st.capacity * 2 + 1 < 2 ^ 64) :
    ∃ st', bufferPush fill st c = some st' := by
  obtain ⟨hlen, hsize, hcap⟩ := hv
  simp only [bufferPush]
  split
  case isTrue hgrow =>
    rw [sizeT_of_lt (hroom hgrow), memcpyAt_eq_some (by
      simp only [Buffer.resize, realloc_length, List.length_singleton]; omega)]
    exact ⟨_, rfl⟩
  case isFalse hfull =>
    rw [memcpyAt_eq_some (by rw [List.length_singleton]; omega)]
    exact ⟨_, rfl⟩

/-- An append that stays inside the block stores the data behind the contents, in
    a block that holds what was there, and what fresh memory holds behind it. -/
theorem bufferAppend_inv {st st' : Buffer} {data : List UInt8} (hv : st.Valid)
    (h : bufferAppend fill st data = some st') :
    ∃ mem : List UInt8, st.capacity ≤ mem.length ∧ mem.length ≤ st.capacity + data.length ∧
      mem.length < 2 ^ 64 ∧ st.size + data.length ≤ mem.length ∧
      mem.take st.size = st.contents ∧
      (∀ i, i < mem.length → mem[i]? = some (st.byteAt fill i)) ∧
      st' = ⟨mem.take st.size ++ data ++ mem.drop (st.size + data.length), mem.length,
        st.size + data.length⟩ := by
  obtain ⟨hlen, hsize, hcap⟩ := hv
  simp only [bufferAppend, Option.map_eq_some_iff] at h
  obtain ⟨ptr, hptr, rfl⟩ := h
  obtain ⟨hfit, rfl⟩ := memcpyAt_inv hptr
  by_cases hgrow : sizeT (st.size + data.length) ≥ st.capacity
  · simp only [hgrow, if_true, Buffer.resize, realloc_length] at hfit ⊢
    -- the block of the new capacity holds the data, so no sum wrapped
    have hcap' : sizeT (st.capacity + data.length) = st.capacity + data.length := by
      unfold sizeT at hfit ⊢
      omega
    have hlt := sizeT_lt (st.capacity + data.length)
    have hsz : sizeT (st.size + data.length) = st.size + data.length := sizeT_of_lt (by omega)
    have hrl : (realloc fill st.ptr (st.capacity + data.length)).length
        = st.capacity + data.length := realloc_length ..
    simp only [hcap', hsz] at hfit hlt ⊢
    refine ⟨realloc fill st.ptr (st.capacity + data.length), by omega, by omega, by omega,
      by omega, realloc_take (by omega) (by omega), ?_, by rw [hrl]⟩
    intro i hi
    exact getElem?_realloc fill st (by omega) (by omega)
  · simp only [hgrow, if_false] at hfit ⊢
    have hsz : sizeT (st.size + data.length) = st.size + data.length := sizeT_of_lt (by omega)
    rw [hsz]
    exact ⟨st.ptr, by omega, by omega, by omega, by omega, rfl, fun i hi => getElem?_ptr hi,
      by rw [hlen]⟩

/-- An append that stays inside the block appends. -/
theorem bufferAppend_spec {st st' : Buffer} {data : List UInt8} (hv : st.Valid)
    (h : bufferAppend fill st data = some st') :
    st'.Valid ∧ st'.contents = st.contents ++ data ∧ st.capacity ≤ st'.capacity ∧
      st'.capacity ≤ st.capacity + data.length := by
  obtain ⟨mem, hcap, hcap', hlt, hfit, htake, -, rfl⟩ := bufferAppend_inv hv h
  obtain ⟨hv', hc⟩ := store_append data hlt rfl hfit htake
  exact ⟨hv', hc, hcap, hcap'⟩

/-- Within `size_t`, an append goes through. -/
theorem bufferAppend_some (fill : Nat → UInt8) {st : Buffer} {data : List UInt8} (hv : st.Valid)
    (hsum : st.size + data.length < 2 ^ 64)
    (hroom : st.size + data.length ≥ st.capacity → st.capacity + data.length < 2 ^ 64) :
    ∃ st', bufferAppend fill st data = some st' := by
  obtain ⟨hlen, hsize, hcap⟩ := hv
  simp only [bufferAppend, sizeT_of_lt hsum]
  split
  case isTrue hgrow =>
    rw [sizeT_of_lt (hroom hgrow), memcpyAt_eq_some (by
      simp only [Buffer.resize, realloc_length]; omega)]
    exact ⟨_, rfl⟩
  case isFalse hroom =>
    rw [memcpyAt_eq_some (by omega)]
    exact ⟨_, rfl⟩

/-- Behind the contents the block holds what fresh memory does. -/
def Buffer.Untouched (fill : Nat → UInt8) (st : Buffer) : Prop :=
  ∀ i, st.size ≤ i → st.byteAt fill i = fill i

theorem bufferNew_untouched (fill : Nat → UInt8) : (bufferNew fill).Untouched fill := by
  intro i _
  rw [Buffer.byteAt, List.getD_eq_getElem?_getD]
  by_cases hi : i < 100
  · have hget : (bufferNew fill).ptr[i]? = some (fill i) :=
      getElem?_realloc fill ⟨[], 0, 0⟩ (Nat.zero_le _) hi
    rw [hget]
    rfl
  · rw [List.getElem?_eq_none (by rw [(bufferNew_valid fill).length_ptr]; exact Nat.not_lt.mp hi)]
    rfl

theorem bufferAppend_untouched {st st' : Buffer} {data : List UInt8} (hv : st.Valid)
    (hu : st.Untouched fill) (h : bufferAppend fill st data = some st') : st'.Untouched fill := by
  obtain ⟨mem, -, -, -, hfit, -, hmem, rfl⟩ := bufferAppend_inv hv h
  intro i hi
  change st.size + data.length ≤ i at hi
  have hpre : (mem.take st.size ++ data).length = st.size + data.length := by
    rw [List.length_append, List.length_take]
    omega
  have hget : (mem.take st.size ++ data ++ mem.drop (st.size + data.length))[i]? = mem[i]? := by
    rw [List.getElem?_append_right (by omega), hpre, List.getElem?_drop]
    congr 1
    omega
  rw [Buffer.byteAt, List.getD_eq_getElem?_getD, hget]
  by_cases hlt : i < mem.length
  · rw [hmem i hlt]
    exact hu i (by omega)
  · rw [List.getElem?_eq_none (by omega)]
    rfl

/-- An insert that stays inside the block stores the data in a block that holds
    what was there, and what fresh memory holds behind it. -/
theorem bufferInsert_inv {st st' : Buffer} {pos : Nat} {data : List UInt8} (hv : st.Valid)
    (h : bufferInsert fill st pos data = some st') :
    ∃ mem : List UInt8, st.capacity ≤ mem.length ∧ mem.length < 2 ^ 64 ∧
      pos + data.length ≤ mem.length ∧ mem.take st.size = st.contents ∧
      (∀ i, i < mem.length → mem[i]? = some (st.byteAt fill i)) ∧
      st' = ⟨mem.take pos ++ data ++ mem.drop (pos + data.length), mem.length,
        max st.size (pos + data.length)⟩ := by
  obtain ⟨hlen, hsize, hcap⟩ := hv
  simp only [bufferInsert, Option.map_eq_some_iff] at h
  obtain ⟨ptr, hptr, rfl⟩ := h
  obtain ⟨hfit, rfl⟩ := memcpyAt_inv hptr
  by_cases hgrow : sizeT (pos + data.length) ≥ st.capacity
  · simp only [hgrow, if_true, Buffer.resize, realloc_length] at hfit ⊢
    have hlt := sizeT_lt (pos + data.length)
    -- a position that fits the block has not wrapped
    have hend : sizeT (pos + data.length) = pos + data.length := by
      unfold sizeT at hfit ⊢
      omega
    rw [hend] at hgrow hlt ⊢
    have hrl : (realloc fill st.ptr (pos + data.length)).length = pos + data.length :=
      realloc_length ..
    refine ⟨realloc fill st.ptr (pos + data.length), by omega, by omega, by omega,
      realloc_take (by omega) (by omega), ?_, ?_⟩
    · intro i hi
      exact getElem?_realloc fill st (by omega) (by omega)
    · rw [hrl, Nat.max_eq_right (by omega)]
      split
      · rfl
      · next hge => rw [show st.size = pos + data.length by omega]
  · simp only [hgrow, if_false] at hfit ⊢
    rw [sizeT_of_lt (n := pos + data.length) (by omega)] at hgrow ⊢
    refine ⟨st.ptr, by omega, by omega, by omega, rfl, fun i hi => getElem?_ptr hi, ?_⟩
    rw [hlen]
    split
    · next hlt => rw [Nat.max_eq_right (by omega)]
    · next hge => rw [Nat.max_eq_left (by omega)]

/-- An insert that stays inside the block is an overlay. -/
theorem bufferInsert_spec {st st' : Buffer} {pos : Nat} {data : List UInt8} (hv : st.Valid)
    (h : bufferInsert fill st pos data = some st') :
    st'.Valid ∧ st'.size = max st.size (pos + data.length) ∧
      IsOverlay st.contents pos data st'.contents := by
  obtain ⟨mem, hcap, hlt, hfit, htake, -, rfl⟩ := bufferInsert_inv hv h
  have hsize := hv.size_le
  refine ⟨⟨?_, ?_, hlt⟩, rfl, ?_⟩
  · simp only [List.length_append, List.length_take, List.length_drop]
    omega
  · show max st.size (pos + data.length) ≤ mem.length
    omega
  · rw [← htake]
    exact isOverlay_of_block (by omega) hfit

theorem bufferInsert_capacity {st st' : Buffer} {pos : Nat} {data : List UInt8} (hv : st.Valid)
    (h : bufferInsert fill st pos data = some st') : st.capacity ≤ st'.capacity := by
  obtain ⟨mem, hcap, -, -, -, -, rfl⟩ := bufferInsert_inv hv h
  exact hcap

/-- Between the old contents and the data stands what the memory happened to hold. -/
theorem bufferInsert_gap {st st' : Buffer} {pos i : Nat} {data : List UInt8} (hv : st.Valid)
    (h : bufferInsert fill st pos data = some st') (hi : i < pos) :
    st'.contents[i]? = some (st.byteAt fill i) := by
  obtain ⟨mem, -, -, hfit, -, hmem, rfl⟩ := bufferInsert_inv hv h
  have hpos : (mem.take pos).length = pos := by
    rw [List.length_take]
    omega
  show ((mem.take pos ++ data ++ _).take (max st.size (pos + data.length)))[i]? = _
  rw [List.getElem?_take_of_lt (by omega), List.append_assoc,
    List.getElem?_append_left (by omega), List.getElem?_take_of_lt hi]
  exact hmem i (by omega)

/-- Within `size_t`, an insert goes through. -/
theorem bufferInsert_some {st : Buffer} {pos : Nat} {data : List UInt8} (hv : st.Valid)
    (h : pos + data.length < 2 ^ 64) : ∃ st', bufferInsert fill st pos data = some st' := by
  obtain ⟨hlen, hsize, hcap⟩ := hv
  simp only [bufferInsert, sizeT_of_lt h]
  split
  case isTrue hgrow =>
    rw [memcpyAt_eq_some (by simp only [Buffer.resize, realloc_length]; omega)]
    exact ⟨_, rfl⟩
  case isFalse hroom =>
    rw [memcpyAt_eq_some (by omega)]
    exact ⟨_, rfl⟩

end TgFuse

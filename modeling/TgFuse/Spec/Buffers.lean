/-
  TgFuse.Spec.Buffers

  The growable buffer as a byte string, over whole runs of its operations.

  `BytesStep` is what push, append and insert mean for a byte string; the
  contents of the buffer follow it (`buffer_simulates`), and no store leaves
  the block as long as `size_t` does not wrap.
-/

import TgFuse.Lib.Lts
import TgFuse.Model.TgApi

namespace TgFuse

open CString Lts Overlay

-- ============================================================================
-- Operations
-- ============================================================================

/-- An operation on a buffer. -/
inductive BufferOp where
  | push (c : UInt8)
  | append (data : List UInt8)
  | insert (pos : Nat) (data : List UInt8)

/-- The function of `buffer.c`; fresh memory holds `fill`. -/
def BufferOp.apply (fill : Nat → UInt8) (st : Buffer) : BufferOp → Option Buffer
  | .push c => bufferPush fill st c
  | .append data => bufferAppend fill st data
  | .insert pos data => bufferInsert fill st pos data

/-- No `size_t` sum or doubling of the operation reaches `2^64`. -/
def BufferOp.Fits (st : Buffer) : BufferOp → Prop
  | .push _ => st.size + 1 < 2 ^ 64 ∧ (st.size ≥ st.capacity → st.capacity * 2 + 1 < 2 ^ 64)
  | .append data => st.size + data.length < 2 ^ 64 ∧
      (st.size + data.length ≥ st.capacity → st.capacity + data.length < 2 ^ 64)
  | .insert pos data => pos + data.length < 2 ^ 64

instance BufferOp.decidableFits (st : Buffer) (op : BufferOp) : Decidable (op.Fits st) :=
  match op with
  | .push _ => inferInstanceAs (Decidable (_ ∧ _))
  | .append _ => inferInstanceAs (Decidable (_ ∧ _))
  | .insert _ _ => inferInstanceAs (Decidable (_ < _))

/-- One operation, whatever fresh memory holds. -/
def BufferStep (st : Buffer) (op : BufferOp) (st' : Buffer) : Prop :=
  op.Fits st ∧ ∃ fill, op.apply fill st = some st'

/-- What an operation means for a byte string. -/
inductive BytesStep : List UInt8 → BufferOp → List UInt8 → Prop
  | push {bytes : List UInt8} {c : UInt8} : BytesStep bytes (.push c) (bytes ++ [c])
  | append {bytes data : List UInt8} : BytesStep bytes (.append data) (bytes ++ data)
  | insert {bytes data new : List UInt8} {pos : Nat} :
      IsOverlay bytes pos data new → BytesStep bytes (.insert pos data) new

/-- One chunk of a download. -/
def ReceiveStep (st : Buffer) (chunk : List UInt8) (st' : Buffer) : Prop :=
  (BufferOp.append chunk).Fits st ∧ ∃ fill, curlResponseFileWriter fill st chunk = some st'

section Steps

variable {fill : Nat → UInt8} {st st' : Buffer} {op : BufferOp}

/-- No store of an operation leaves the block. -/
theorem BufferOp.apply_some (fill : Nat → UInt8) (hv : st.Valid) (h : op.Fits st) :
    ∃ st', op.apply fill st = some st' := by
  cases op with
  | push c => exact bufferPush_some fill c hv h.2
  | append data => exact bufferAppend_some fill hv h.1 h.2
  | insert pos data => exact bufferInsert_some hv h

/-- What an operation does to the block, and what it means. -/
theorem BufferOp.apply_spec (hv : st.Valid) (h : op.Fits st) (ha : op.apply fill st = some st') :
    st'.Valid ∧ st.capacity ≤ st'.capacity ∧ BytesStep st.contents op st'.contents := by
  cases op with
  | push c =>
      obtain ⟨hv', hc, hcap⟩ := bufferPush_spec hv h.2 ha
      rw [hc]
      exact ⟨hv', hcap, .push⟩
  | append data =>
      obtain ⟨hv', hc, hcap, -⟩ := bufferAppend_spec hv ha
      rw [hc]
      exact ⟨hv', hcap, .append⟩
  | insert pos data =>
      obtain ⟨hv', -, hov⟩ := bufferInsert_spec hv ha
      exact ⟨hv', bufferInsert_capacity hv ha, .insert hov⟩

/-- The contents follow the operations. -/
theorem buffer_simulates (st : Buffer) (op : BufferOp) (st' : Buffer) (bytes : List UInt8)
    (h : st.Valid ∧ st.contents = bytes) (hstep : BufferStep st op st') :
    ∃ new, BytesStep bytes op new ∧ st'.Valid ∧ st'.contents = new := by
  obtain ⟨hv, rfl⟩ := h
  obtain ⟨hfits, fill, ha⟩ := hstep
  obtain ⟨hv', -, hbytes⟩ := BufferOp.apply_spec hv hfits ha
  exact ⟨_, hbytes, hv', rfl⟩

end Steps

-- ============================================================================
-- Runs
-- ============================================================================

/-- What holds of a buffer that a run reaches. -/
structure BufferSafe (st : Buffer) : Prop where
  size_le : st.size ≤ st.capacity
  length_eq : st.contents.length = st.size
  /-- Every byte that an operation stores lies in the block. -/
  stored : ∀ fill (op : BufferOp), op.Fits st → ∃ st', op.apply fill st = some st'
  /-- The capacity does not decrease. -/
  capacity_le : ∀ op st', BufferStep st op st' → st.capacity ≤ st'.capacity
  /-- Each operation does to the contents what it means. -/
  means : ∀ op st', BufferStep st op st' → BytesStep st.contents op st'.contents

section Runs

variable {fill : Nat → UInt8} {st st' : Buffer} {ops : List BufferOp} {chunks : List (List UInt8)}

theorem run_valid (hrun : Run BufferStep (bufferNew fill) ops st) :
    st.Valid ∧ Run BytesStep [] ops st.contents := by
  obtain ⟨bytes, hbytes, hv, rfl⟩ := hrun.simulate buffer_simulates
    ⟨bufferNew_valid fill, bufferNew_contents fill⟩
  exact ⟨hv, hbytes⟩

/-- Chunks that are received one after the other are appended. -/
theorem contents_of_received (hrun : Run ReceiveStep (bufferNew fill) chunks st) :
    st.Valid ∧ st.contents = chunks.flatten := by
  refine hrun.invariant (P := fun chunks st => st.Valid ∧ st.contents = chunks.flatten)
    ⟨bufferNew_valid fill, bufferNew_contents fill⟩ ?_
  intro cs t c u _ ⟨hv, hc⟩ ⟨_, _, ha⟩
  obtain ⟨hv', hc', -, -⟩ := bufferAppend_spec hv ha
  exact ⟨hv', by rw [hc', hc, List.flatten_append, List.flatten_singleton]⟩

/-- Every run of the three operations stays inside of the block and does to the
    contents what the operations mean; so what is received in chunks is the
    body they are made of. -/
theorem buffer_implements_bytes (hrun : Run BufferStep (bufferNew fill) ops st) :
    BufferSafe st ∧ Run BytesStep [] ops st.contents ∧
      ∀ chunks st', Run ReceiveStep (bufferNew fill) chunks st' →
        st'.contents = chunks.flatten ∧
        ∀ fill chunk, (BufferOp.append chunk).Fits st' →
          ∃ st'', curlResponseFileWriter fill st' chunk = some st'' := by
  obtain ⟨hv, hbytes⟩ := run_valid hrun
  refine ⟨⟨hv.size_le, hv.length_contents, ?_, ?_, ?_⟩, hbytes, ?_⟩
  · intro fill op hfits
    exact BufferOp.apply_some fill hv hfits
  · intro op st' ⟨hfits, fill, ha⟩
    exact (BufferOp.apply_spec hv hfits ha).2.1
  · intro op st' ⟨hfits, fill, ha⟩
    exact (BufferOp.apply_spec hv hfits ha).2.2
  · intro chunks st' hreceived
    obtain ⟨hv', hc⟩ := contents_of_received hreceived
    refine ⟨hc, ?_⟩
    intro fill chunk hfits
    exact bufferAppend_some fill hv' hfits.1 hfits.2

/-- The buffer after an operation that does not wrap. -/
def BufferOp.next (fill : Nat → UInt8) (st : Buffer) (op : BufferOp) : Option Buffer :=
  if op.Fits st then op.apply fill st else none

theorem BufferOp.next_some {op : BufferOp} (h : op.next fill st = some st') :
    BufferStep st op st' :=
  let ⟨hfits, ha⟩ := Option.ite_none_right_eq_some.mp h
  ⟨hfits, fill, ha⟩

/-- Two bytes are appended and one is pushed; one of them is overwritten, and four go in
    behind a hole, past the end of the block, with three more after them. -/
def sampleOps : List BufferOp :=
  [.append (text "ab"), .push 99, .insert 1 (text "X"), .insert 98 (text "pqrs"),
    .append (text "tuv")]

/-- After these the bytes are where they belong; and two chunks are received as one body. -/
theorem buffer_implements_bytes_sample :
    ∃ st st', st.capacity = 105 ∧ st.size = 105 ∧ st.contents.take 3 = text "aXc" ∧
      st.contents.drop 98 = text "pqrstuv" ∧ BufferSafe st ∧
      Run BytesStep [] sampleOps st.contents ∧
      Run ReceiveStep (bufferNew fun _ => 0) [text "ab", text "cd"] st' ∧
      st'.contents = text "abcd" := by
  obtain ⟨st, hst, hcheck⟩ : ∃ st, sampleOps.foldlM (fun t op => op.next (fun _ => 0) t)
      (bufferNew fun _ => 0) = some st ∧
      decide (st.capacity = 105 ∧ st.size = 105 ∧ st.contents.take 3 = text "aXc" ∧
        st.contents.drop 98 = text "pqrstuv") = true :=
    Option.map_eq_some_iff.mp (by decide +kernel)
  obtain ⟨st', hst'⟩ : ∃ st', [text "ab", text "cd"].foldlM
      (fun t chunk => (BufferOp.append chunk).next (fun _ => 0) t) (bufferNew fun _ => 0)
        = some st' :=
    Option.isSome_iff_exists.mp (by decide +kernel)
  obtain ⟨hcap, hsize, hhead, htail⟩ := of_decide_eq_true hcheck
  have hreceived : Run ReceiveStep (bufferNew fun _ => 0) [text "ab", text "cd"] st' :=
    .of_foldlM (fun _ _ _ h => BufferOp.next_some h) hst'
  obtain ⟨hsafe, hbytes, hchunks⟩ :=
    buffer_implements_bytes (.of_foldlM (fun _ _ _ h => BufferOp.next_some h) hst)
  exact ⟨st, st', hcap, hsize, hhead, htail, hsafe, hbytes, hreceived,
    (hchunks _ _ hreceived).1⟩

end Runs

end TgFuse

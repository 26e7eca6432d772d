/-
  TgFuse.Lib.Overlay

  Byte strings that are written at arbitrary positions.

  * `IsOverlay old pos data new` — `new` is `old` with `data` laid over it at
    `pos`.  When `pos` lies beyond the end, the positions in between belong to
    `new` and are not constrained.
  * `Sparse` — what a sequence of writes determines of a file: its length and,
    position by position, the element written last (`none`: never written).
    `Sparse.Describes` relates it to a concrete list; `Describes.write` is the
    simulation step.
-/

import Mathlib.Data.List.Basic

namespace Overlay

variable {α : Type}

-- ============================================================================
-- Overlays
-- ============================================================================

/-- `new` is `old` overlaid with `data` at `pos`. -/
structure IsOverlay (old : List α) (pos : Nat) (data new : List α) : Prop where
  length_eq : new.length = max old.length (pos + data.length)
  inside : ∀ i, i < data.length → new[pos + i]? = data[i]?
  outside : ∀ i, i < old.length → i < pos ∨ pos + data.length ≤ i → new[i]? = old[i]?

theorem IsOverlay.ne_nil {old data new : List α} {pos : Nat} (h : IsOverlay old pos data new)
    (hdata : data ≠ []) : new ≠ [] := by
  have hpos := List.length_pos_of_ne_nil hdata
  apply List.ne_nil_of_length_pos
  rw [h.length_eq]
  omega

/-- Overlaying two adjacent pieces, one after the other. -/
theorem IsOverlay.append {old mid new a b : List α} {pos : Nat} (ha : IsOverlay old pos a mid)
    (hb : IsOverlay mid (pos + a.length) b new) : IsOverlay old pos (a ++ b) new := by
  have hmid := ha.length_eq
  have hnew := hb.length_eq
  refine ⟨?_, fun i hi => ?_, fun i hi hout => ?_⟩
  · rw [List.length_append]
    omega
  · rw [List.length_append] at hi
    by_cases hlt : i < a.length
    · rw [hb.outside _ (by omega) (by omega), ha.inside i hlt, List.getElem?_append_left hlt]
    · rw [List.getElem?_append_right (by omega), ← hb.inside _ (by omega)]
      congr 1
      omega
  · rw [List.length_append] at hout
    rw [hb.outside i (by omega) (by omega), ha.outside i hi (by omega)]

/-- Overwriting a window of a long enough block is an overlay of every prefix
    of the block, read up to the longer of the two ends. -/
theorem isOverlay_of_block {mem data : List α} {pos n : Nat} (hn : n ≤ mem.length)
    (hfit : pos + data.length ≤ mem.length) :
    IsOverlay (mem.take n) pos data
      ((mem.take pos ++ data ++ mem.drop (pos + data.length)).take
        (max n (pos + data.length))) := by
  have htk : (mem.take pos).length = pos := by rw [List.length_take]; omega
  have hmid : (mem.take pos ++ data).length = pos + data.length := by
    rw [List.length_append, htk]
  refine ⟨?_, ?_, ?_⟩
  · simp only [List.length_take, List.length_append, List.length_drop]
    omega
  · intro i hi
    rw [List.getElem?_take_of_lt (by omega), List.getElem?_append_left (by omega),
      List.getElem?_append_right (by omega), htk]
    congr 1
    omega
  · intro i hi hout
    rw [List.length_take] at hi
    rw [List.getElem?_take_of_lt (by omega), List.getElem?_take_of_lt (by omega)]
    rcases hout with h | h
    · rw [List.getElem?_append_left (by omega), List.getElem?_append_left (by omega),
        List.getElem?_take_of_lt h]
    · rw [List.getElem?_append_right (by omega), hmid, List.getElem?_drop]
      congr 1
      omega

/-- Overlays differ at most between the end of the old content and the data. -/
theorem IsOverlay.eq_iff {old data new₁ new₂ : List α} {pos : Nat}
    (h₁ : IsOverlay old pos data new₁) (h₂ : IsOverlay old pos data new₂) :
    new₁ = new₂ ↔ ∀ i, old.length ≤ i → i < pos → new₁[i]? = new₂[i]? := by
  constructor
  · rintro rfl _ _ _
    rfl
  · intro hgap
    apply List.ext_getElem?
    intro i
    by_cases hin : pos ≤ i ∧ i < pos + data.length
    · have e₁ := h₁.inside (i - pos) (by omega)
      have e₂ := h₂.inside (i - pos) (by omega)
      rw [Nat.add_sub_cancel' hin.1] at e₁ e₂
      rw [e₁, e₂]
    · by_cases hold : i < old.length
      · rw [h₁.outside i hold (by omega), h₂.outside i hold (by omega)]
      · by_cases hpos : i < pos
        · exact hgap i (by omega) hpos
        · rw [List.getElem?_eq_none (by rw [h₁.length_eq]; omega),
            List.getElem?_eq_none (by rw [h₂.length_eq]; omega)]

/-- The overlay with `z` between the end of the old content and the data. -/
def overlayFilled (z : α) (old : List α) (pos : Nat) (data : List α) : List α :=
  old.take pos ++ List.replicate (pos - old.length) z ++ data ++ old.drop (pos + data.length)

theorem overlayFilled_isOverlay (z : α) (old : List α) (pos : Nat) (data : List α) :
    IsOverlay old pos data (overlayFilled z old pos data) := by
  have hhead : (old.take pos ++ List.replicate (pos - old.length) z).length = pos := by
    rw [List.length_append, List.length_take, List.length_replicate]
    omega
  have hfront : (old.take pos ++ List.replicate (pos - old.length) z ++ data).length
      = pos + data.length := by rw [List.length_append, hhead]
  refine ⟨?_, ?_, ?_⟩
  · rw [overlayFilled, List.length_append, hfront, List.length_drop]
    omega
  · intro i hi
    rw [overlayFilled, List.getElem?_append_left (by omega),
      List.getElem?_append_right (by omega), hhead]
    congr 1
    omega
  · intro i hi hout
    rw [overlayFilled]
    rcases hout with h | h
    · rw [List.getElem?_append_left (by omega), List.getElem?_append_left (by omega),
        List.getElem?_append_left (by rw [List.length_take]; omega), List.getElem?_take_of_lt h]
    · rw [List.getElem?_append_right (by omega), hfront, List.getElem?_drop]
      congr 1
      omega

theorem overlayFilled_gap (z : α) {old : List α} {pos i : Nat} (data : List α)
    (hold : old.length ≤ i) (hi : i < pos) : (overlayFilled z old pos data)[i]? = some z := by
  rw [overlayFilled, List.append_assoc, List.append_assoc, List.take_of_length_le (by omega),
    List.getElem?_append_right hold, List.getElem?_append_left (by
      rw [List.length_replicate]; omega), List.getElem?_replicate, if_pos (by omega)]

/-- Data leaves a content as it is exactly if it is there already. -/
theorem isOverlay_self_iff {old data : List α} {pos : Nat} :
    IsOverlay old pos data old ↔
      pos + data.length ≤ old.length ∧ (old.drop pos).take data.length = data := by
  constructor
  · intro h
    have hle : pos + data.length ≤ old.length := by
      have := h.length_eq
      omega
    refine ⟨hle, List.ext_getElem? fun i => ?_⟩
    by_cases hi : i < data.length
    · rw [List.getElem?_take_of_lt hi, List.getElem?_drop]
      exact h.inside i hi
    · rw [List.getElem?_eq_none (by rw [List.length_take]; omega),
        List.getElem?_eq_none (by omega)]
  · rintro ⟨hle, hdata⟩
    refine ⟨by omega, fun i hi => ?_, fun _ _ _ => rfl⟩
    rw [← List.getElem?_drop, ← List.getElem?_take_of_lt hi, hdata]

/-- Data laid over the start of a content is laid over the whole of it as far as it reaches
    and what stands in the gap is right. -/
theorem IsOverlay.extends_iff {part old data new : List α} {pos : Nat}
    (h : IsOverlay part pos data new) (hpre : part <+: old) :
    IsOverlay old pos data new ↔
      old.length ≤ max part.length (pos + data.length) ∧
        ∀ i, part.length ≤ i → i < old.length → i < pos → new[i]? = old[i]? := by
  have hle := hpre.length_le
  constructor
  · intro h'
    refine ⟨?_, fun i _ hi hp => h'.outside i hi (Or.inl hp)⟩
    have := h.length_eq
    have := h'.length_eq
    omega
  · rintro ⟨hlen, hgap⟩
    refine ⟨by rw [h.length_eq]; omega, h.inside, fun i hi hout => ?_⟩
    by_cases hin : i < part.length
    · rw [h.outside i hin hout]
      obtain ⟨rest, rfl⟩ := hpre
      rw [List.getElem?_append_left hin]
    · exact hgap i (by omega) hi (by omega)

-- ============================================================================
-- Sparse files
-- ============================================================================

/-- A file known through its writes. -/
structure Sparse (α : Type) where
  len : Nat
  known : Nat → Option α

namespace Sparse

/-- The file nothing was written to. -/
def empty : Sparse α := ⟨0, fun _ => none⟩

/-- Write `data` at `pos`: the last writer of a position wins. -/
def write (f : Sparse α) (pos : Nat) (data : List α) : Sparse α where
  len := max f.len (pos + data.length)
  known i := if pos ≤ i ∧ i < pos + data.length then data[i - pos]? else f.known i

/-- `bytes` has the length of the file and agrees with it wherever it was written. -/
structure Describes (f : Sparse α) (bytes : List α) : Prop where
  length_eq : bytes.length = f.len
  known_eq : ∀ i b, f.known i = some b → bytes[i]? = some b

theorem describes_empty : Describes (empty : Sparse α) [] :=
  ⟨rfl, fun _ _ h => nomatch h⟩

/-- Laying the data over the bytes follows the abstract write. -/
theorem Describes.write {f : Sparse α} {bytes new data : List α} {pos : Nat}
    (hf : Describes f bytes) (ho : IsOverlay bytes pos data new) :
    Describes (f.write pos data) new := by
  refine ⟨by rw [ho.length_eq, hf.length_eq]; rfl, ?_⟩
  intro i b hb
  simp only [Sparse.write] at hb
  split at hb
  · next hin =>
    have := ho.inside (i - pos) (by omega)
    rw [show pos + (i - pos) = i by omega] at this
    rw [this, hb]
  · next hout =>
    have hold := hf.known_eq i b hb
    obtain ⟨hi, _⟩ := List.getElem?_eq_some_iff.mp hold
    rw [ho.outside i hi (by omega), hold]

/-- What a read of a window of the bytes returns is what was written there last. -/
theorem Describes.window {f : Sparse α} {bytes : List α} (hf : Describes f bytes)
    {offset size i : Nat} {b : α} (hi : i < size) (hb : f.known (offset + i) = some b) :
    ((bytes.drop offset).take size)[i]? = some b := by
  rw [List.getElem?_take_of_lt hi, List.getElem?_drop]
  exact hf.known_eq _ _ hb

end Sparse

end Overlay

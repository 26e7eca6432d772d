/-
  TgFuse.Lib.FileTree

  File systems as maps from paths to nodes, over any paths and any bytes.

  * `Writes`, `Prunes` — what a write and the removal of a directory make of the
    map, as relations: a write may leave anything in a hole in front of its data,
    a removal may leave some of the children behind.
  * `Writes.append`, `window_append` — writing or reading a piece and then the one
    behind it is writing or reading both.
-/

import Mathlib.Logic.Function.Basic
import TgFuse.Lib.Overlay

namespace FileTree

open Overlay

variable {π α : Type}

/-- A file with its bytes, or a directory. -/
inductive Node (α : Type) where
  | file (bytes : List α)
  | dir
deriving DecidableEq

/-- What there is, by path. -/
abbrev Tree (π α : Type) := π → Option (Node α)

-- ============================================================================
-- Operations
-- ============================================================================

section Operations

variable [DecidableEq π] {t t' t'' : Tree π α} {p : π} {pos : Nat} {a b : List α}

/-- Make `n` the node at `p`. -/
def put (t : Tree π α) (p : π) (n : Node α) : Tree π α := Function.update t p (some n)

/-- Take away what is at `p`. -/
def remove (t : Tree π α) (p : π) : Tree π α := Function.update t p none

/-- The file at `p` is overlaid with `data` at `pos`. -/
def Writes (t : Tree π α) (p : π) (pos : Nat) (data : List α) (t' : Tree π α) : Prop :=
  ∃ old new, t p = some (.file old) ∧ IsOverlay old pos data new ∧ t' = put t p (.file new)

/-- `d` goes, and of its children any number; all else stays. -/
structure Prunes (child : π → Prop) (t : Tree π α) (d : π) (t' : Tree π α) : Prop where
  gone : t' d = none
  inside : ∀ q, q ≠ d → child q → t' q = t q ∨ t' q = none
  other : ∀ q, q ≠ d → ¬ child q → t' q = t q

/-- The bytes in the window of length `size` at `offset`. -/
def window (bytes : List α) (offset size : Nat) : List α := (bytes.drop offset).take size

@[simp] theorem put_self {n : Node α} : put t p n p = some n := Function.update_self ..

theorem put_of_ne {q : π} {n : Node α} (h : q ≠ p) : put t p n q = t q :=
  Function.update_of_ne h ..

theorem put_put {m n : Node α} : put (put t p m) p n = put t p n := Function.update_idem ..

/-- Writing a piece and the piece behind it is writing both. -/
theorem Writes.append (h₁ : Writes t p pos a t') (h₂ : Writes t' p (pos + a.length) b t'') :
    Writes t p pos (a ++ b) t'' := by
  obtain ⟨old, mid, hold, ha, rfl⟩ := h₁
  obtain ⟨mid', new, hmid, hb, rfl⟩ := h₂
  rw [put_self] at hmid
  cases hmid
  exact ⟨old, new, hold, ha.append hb, put_put⟩

/-- Where nothing lies between the file and the data, writing is a function. -/
theorem Writes.eq_of_le {old : List α} (hold : t p = some (.file old)) (hpos : pos ≤ old.length)
    (h₁ : Writes t p pos a t') (h₂ : Writes t p pos a t'') : t' = t'' := by
  obtain ⟨old₁, new₁, h₁, ho₁, rfl⟩ := h₁
  obtain ⟨old₂, new₂, h₂, ho₂, rfl⟩ := h₂
  rw [hold] at h₁ h₂
  cases h₁
  cases h₂
  rw [(ho₁.eq_iff ho₂).mpr fun i hi hlt => absurd (Nat.lt_of_lt_of_le hlt hpos) (Nat.not_lt.mpr hi)]

end Operations

-- ============================================================================
-- Pieces
-- ============================================================================

/-- Pieces with the positions at which they follow each other from `pos` on. -/
def placed (pos : Nat) : List (List α) → List (Nat × List α)
  | [] => []
  | c :: cs => (pos, c) :: placed (pos + c.length) cs

theorem placed_snoc (pos : Nat) (cs : List (List α)) (c : List α) :
    placed pos (cs ++ [c]) = placed pos cs ++ [(pos + cs.flatten.length, c)] := by
  induction cs generalizing pos with
  | nil => simp [placed]
  | cons b cs ih => simp [placed, ih, Nat.add_assoc]

/-- A window and the one behind it make up one. -/
theorem window_append (bytes : List α) (offset m n : Nat) :
    window bytes offset m ++ window bytes (offset + m) n = window bytes offset (m + n) := by
  rw [window, window, window, List.take_add, List.drop_drop]

end FileTree

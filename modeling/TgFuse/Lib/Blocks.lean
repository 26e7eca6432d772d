/-
  TgFuse.Lib.Blocks

  A heap as a ledger: which blocks have been handed out and not been taken back.

  * `malloc`, `free`, `access` — taking back or using a block that is not out is
    undefined, so that a program that runs through neither frees a block twice nor
    uses one that it has freed.
  * `Ledger.Owns` — the blocks a program still has pointers to, and the number of
    those that it has lost; what each operation makes of it.
-/

import Mathlib.Data.Finset.Card

namespace Blocks

/-- The blocks that are out, and the next one to hand out. -/
structure Ledger where
  next : Nat
  out : Finset Nat
  lt_next : ∀ b ∈ out, b < next

namespace Ledger

/-- A heap from which nothing has been taken. -/
def empty : Ledger := ⟨0, ∅, fun _ hb => absurd hb (Finset.notMem_empty _)⟩

/-- Hand out the next block. -/
def malloc (l : Ledger) : Ledger where
  next := l.next + 1
  out := insert l.next l.out
  lt_next := by
    intro b hb
    rcases Finset.mem_insert.mp hb with rfl | hb
    · exact Nat.lt_succ_self _
    · exact Nat.lt_succ_of_lt (l.lt_next b hb)

/-- Take a block back. -/
def free (l : Ledger) (b : Nat) : Option Ledger :=
  if b ∈ l.out then
    some { l with
      out := l.out.erase b
      lt_next := fun c hc => l.lt_next c (Finset.mem_of_mem_erase hc) }
  else none

/-- Use a block. -/
def access (l : Ledger) (b : Nat) : Option Unit := if b ∈ l.out then some () else none

theorem next_notMem (l : Ledger) : l.next ∉ l.out := fun h => Nat.lt_irrefl _ (l.lt_next _ h)

theorem free_of_mem {l : Ledger} {b : Nat} (h : b ∈ l.out) :
    ∃ l', l.free b = some l' ∧ l'.out = l.out.erase b := ⟨_, if_pos h, rfl⟩

theorem access_of_mem {l : Ledger} {b : Nat} (h : b ∈ l.out) : l.access b = some () := if_pos h

/-- The program holds pointers to the blocks `held`, all of them out, and has lost
    those to `lost` more. -/
structure Owns (l : Ledger) (held : Finset Nat) (lost : Nat) : Prop where
  subset : held ⊆ l.out
  card_eq : l.out.card = held.card + lost

variable {l l' : Ledger} {held : Finset Nat} {lost b : Nat}

theorem owns_empty : empty.Owns ∅ 0 := ⟨Finset.Subset.refl _, rfl⟩

theorem Owns.malloc (h : l.Owns held lost) :
    l.next ∉ held ∧ l.malloc.Owns (insert l.next held) lost := by
  have hnew : l.next ∉ held := fun hb => l.next_notMem (h.subset hb)
  refine ⟨hnew, Finset.insert_subset_insert _ h.subset, ?_⟩
  show (insert l.next l.out).card = _
  rw [Finset.card_insert_of_notMem l.next_notMem, Finset.card_insert_of_notMem hnew, h.card_eq]
  omega

theorem Owns.free (h : l.Owns held lost) (hb : b ∈ held) :
    ∃ l', l.free b = some l' ∧ l'.Owns (held.erase b) lost := by
  obtain ⟨l', hfree, hout⟩ := free_of_mem (h.subset hb)
  refine ⟨l', hfree, ?_, ?_⟩
  · rw [hout]
    exact Finset.erase_subset_erase _ h.subset
  · have hcard := h.card_eq
    have hpos := Finset.card_pos.mpr ⟨b, hb⟩
    rw [hout, Finset.card_erase_of_mem (h.subset hb), Finset.card_erase_of_mem hb]
    omega

/-- A block whose pointer is overwritten is lost. -/
theorem Owns.lose (h : l.Owns held lost) (hb : b ∈ held) : l.Owns (held.erase b) (lost + 1) := by
  refine ⟨fun c hc => h.subset (Finset.mem_of_mem_erase hc), ?_⟩
  have hpos := Finset.card_pos.mpr ⟨b, hb⟩
  rw [h.card_eq, Finset.card_erase_of_mem hb]
  omega

theorem Owns.access (h : l.Owns held lost) (hb : b ∈ held) : l.access b = some () :=
  access_of_mem (h.subset hb)

end Ledger

end Blocks

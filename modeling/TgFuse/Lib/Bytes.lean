/-
  TgFuse.Lib.Bytes

  C routines that read one block of memory and write another, byte by byte.
  A `Routine` is a program whose requests are the loads and stores it makes, so
  that what it touches can be said and not only what it computes.

  * `eval src r dst` — run `r`: its result, the bytes of the destination
    afterwards and the accesses it made, `none` when one of them is outside of
    its block.
  * `Yields P src r dst a dst'` — the run returns `a`, leaves `dst'` and makes
    only accesses in `P`; one rule for each way to build a routine.
  * `strend`, `strlen`, `strchr`, `strrchr`, `memcpy` — the loops of the C
    library.  `n` counts the bytes that the block has from the first one read;
    a search that finds no terminator among them has left the block.
-/

import TgFuse.Lib.CString
import TgFuse.Lib.Interact

namespace Bytes

open Interact
open CString (cstr cstr_append_zero memcpyAt memread)

-- ============================================================================
-- Routines
-- ============================================================================

/-- A byte of the source that is read, a byte of the destination that is written. -/
inductive Access where
  | load (i : Nat)
  | store (i : Nat) (b : UInt8)
deriving DecidableEq

/-- A program over the two blocks. -/
abbrev Routine (α : Type) := Prog Unit Access UInt8 α

variable {α β : Type}

/-- `src[i]`. -/
def load (i : Nat) : Routine UInt8 := Prog.exchange (.load i)

/-- `dst[i] = b`. -/
def store (i : Nat) (b : UInt8) : Routine Unit := do
  let _ ← Prog.exchange (.store i b)
  pure ()

/-- What a run returns, leaves in the destination and accessed. -/
structure Run (α : Type) where
  result : α
  dst : List UInt8
  log : List Access

/-- The run that makes the accesses `l` first. -/
def Run.after (l : List Access) (x : Run α) : Run α := { x with log := l ++ x.log }

/-- Run a routine on the two blocks. -/
def eval (src : List UInt8) : Routine α → List UInt8 → Option (Run α)
  | .ret a, dst => some ⟨a, dst, []⟩
  | .fault, _ => none
  | .get k, dst => eval src (k ()) dst
  | .put _ k, dst => eval src k dst
  | .call (.load i) k, dst =>
      src[i]?.bind fun b => (eval src (k b) dst).map (Run.after [.load i])
  | .call (.store i b) k, dst =>
      if i < dst.length then (eval src (k b) (dst.set i b)).map (Run.after [.store i b]) else none

/-- A run of a sequence splits where its first part ends. -/
theorem eval_bind (src : List UInt8) (r : Routine α) (f : α → Routine β) (dst : List UInt8) :
    eval src (r >>= f) dst
      = (eval src r dst).bind fun x => (eval src (f x.result) x.dst).map (Run.after x.log) := by
  show eval src (r.bind f) dst = _
  induction r generalizing dst with
  | ret a => exact (Option.map_id' (x := eval src (f a) dst)).symm
  | fault => rfl
  | get k ih => exact ih () dst
  | put s k ih => exact ih dst
  | call q k ih =>
      cases q with
      | load i =>
          simp only [Prog.bind, eval, ih, Option.map_bind, Option.bind_map, Option.bind_assoc]
          congr
          funext b
          cases eval src (k b) dst with
          | none => rfl
          | some x => exact Option.map_map ..
      | store i b =>
          simp only [Prog.bind, eval, ih]
          split
          · cases eval src (k b) (dst.set i b) with
            | none => rfl
            | some x => exact Option.map_map ..
          · rfl

/-- Stores do not change the size of the block. -/
theorem eval_length {src : List UInt8} {r : Routine α} {dst : List UInt8} {x : Run α}
    (h : eval src r dst = some x) : x.dst.length = dst.length := by
  induction r generalizing dst x with
  | ret a =>
      cases h
      rfl
  | fault => cases h
  | get k ih => exact ih () h
  | put s k ih => exact ih h
  | call q k ih =>
      cases q with
      | load i =>
          obtain ⟨b, -, h⟩ := Option.bind_eq_some_iff.mp h
          obtain ⟨y, hy, rfl⟩ := Option.map_eq_some_iff.mp h
          have hlen := ih b hy
          exact hlen
      | store i b =>
          unfold eval at h
          split at h
          · obtain ⟨y, hy, rfl⟩ := Option.map_eq_some_iff.mp h
            have hlen := ih b hy
            rw [List.length_set] at hlen
            exact hlen
          · cases h

/-- From `dst`, the routine returns `a` and leaves `dst'`, with accesses in `P` only. -/
def Yields (P : Access → Prop) (src : List UInt8) (r : Routine α) (dst : List UInt8) (a : α)
    (dst' : List UInt8) : Prop :=
  ∃ log, eval src r dst = some ⟨a, dst', log⟩ ∧ ∀ x ∈ log, P x

section Rules

variable {P : Access → Prop} {src dst dst' dst'' : List UInt8}

theorem yields_pure (a : α) : Yields P src (pure a) dst a dst :=
  ⟨[], rfl, fun _ h => absurd h List.not_mem_nil⟩

theorem yields_load {i : Nat} {b : UInt8} (h : src[i]? = some b) (hP : P (.load i)) :
    Yields P src (load i) dst b dst := by
  refine ⟨[.load i], ?_, fun x hx => ?_⟩
  · simp [load, Prog.exchange, eval, h, Run.after]
  · rw [List.mem_singleton.mp hx]
    exact hP

theorem yields_store {i : Nat} {b : UInt8} (h : i < dst.length) (hP : P (.store i b)) :
    Yields P src (store i b) dst () (dst.set i b) := by
  refine ⟨[.store i b], ?_, fun x hx => ?_⟩
  · simp only [store, Prog.exchange, eval_bind, eval, if_pos h]
    rfl
  · rw [List.mem_singleton.mp hx]
    exact hP

/-- One routine after the other. -/
theorem Yields.bind {r : Routine α} {f : α → Routine β} {a : α} {b : β}
    (h₁ : Yields P src r dst a dst') (h₂ : Yields P src (f a) dst' b dst'') :
    Yields P src (r >>= f) dst b dst'' := by
  obtain ⟨l₁, he₁, hP₁⟩ := h₁
  obtain ⟨l₂, he₂, hP₂⟩ := h₂
  refine ⟨l₁ ++ l₂, ?_, fun x hx => ?_⟩
  · rw [eval_bind, he₁, Option.bind_some, he₂, Option.map_some, Run.after]
  · rcases List.mem_append.mp hx with hx | hx
    · exact hP₁ x hx
    · exact hP₂ x hx

theorem Yields.length {r : Routine α} {a : α} (h : Yields P src r dst a dst') :
    dst'.length = dst.length := by
  obtain ⟨log, he, -⟩ := h
  exact eval_length he

end Rules

-- ============================================================================
-- Strings in the source
-- ============================================================================

/-- The string `s` stands at `src + p`, with its terminator. -/
structure StringAt (src : List UInt8) (p : Nat) (s : List UInt8) : Prop where
  noNul : 0 ∉ s
  drop_eq : ∃ rest, src.drop p = s ++ 0 :: rest

section StringAt

variable {src s a t : List UInt8} {p : Nat} {b : UInt8}

theorem getElem?_of_drop {rest : List UInt8} (h : src.drop p = b :: rest) : src[p]? = some b := by
  have hget := congrArg (fun l => l[0]?) h
  simpa using hget

theorem StringAt.terminator (h : StringAt src p []) : src[p]? = some 0 := by
  obtain ⟨rest, hrest⟩ := h.drop_eq
  exact getElem?_of_drop hrest

theorem StringAt.head (h : StringAt src p (b :: s)) : src[p]? = some b := by
  obtain ⟨rest, hrest⟩ := h.drop_eq
  exact getElem?_of_drop hrest

theorem StringAt.head_ne (h : StringAt src p (b :: s)) : b ≠ 0 := by
  intro hb
  exact h.noNul (by simp [hb])

/-- What remains of a string is a string. -/
theorem StringAt.suffix (h : StringAt src p (a ++ t)) : StringAt src (p + a.length) t := by
  obtain ⟨rest, hrest⟩ := h.drop_eq
  refine ⟨fun h0 => h.noNul (List.mem_append_right a h0), rest, ?_⟩
  rw [← List.drop_drop, hrest, List.append_assoc, List.drop_left]

theorem StringAt.tail (h : StringAt src p (b :: s)) : StringAt src (p + 1) s :=
  StringAt.suffix (a := [b]) h

theorem StringAt.cstr_drop (h : StringAt src p s) : cstr (src.drop p) = s := by
  obtain ⟨rest, hrest⟩ := h.drop_eq
  rw [hrest]
  exact cstr_append_zero h.noNul rest

/-- The terminator is a byte of the block. -/
theorem StringAt.length_lt (h : StringAt src p s) : p + s.length < src.length := by
  obtain ⟨rest, hrest⟩ := h.drop_eq
  have hlen := congrArg List.length hrest
  simp only [List.length_drop, List.length_append, List.length_cons] at hlen
  omega

end StringAt

-- ============================================================================
-- Reading a string
-- ============================================================================

/-- `while (*p) p++`. -/
def strend : Nat → Nat → Routine Nat
  | 0, _ => .fault
  | n + 1, p => do
      let b ← load p
      if b = 0 then pure p else strend n (p + 1)

/-- `strlen(src + p)`. -/
def strlen (n p : Nat) : Routine Nat := do
  let e ← strend n p
  pure (e - p)

/-- `strchr(src + p, c)`: the index of the first `c`. -/
def strchr (c : UInt8) : Nat → Nat → Routine (Option Nat)
  | 0, _ => .fault
  | n + 1, p => do
      let b ← load p
      if b = c then pure (some p)
      else if b = 0 then pure none
      else strchr c n (p + 1)

/-- The loop of `strrchr`: `last` is the index of the last `c` before `p`. -/
def strrchrFrom (c : UInt8) : Nat → Nat → Option Nat → Routine (Option Nat)
  | 0, _, _ => .fault
  | n + 1, p, last => do
      let b ← load p
      let last := if b = c then some p else last
      if b = 0 then pure last else strrchrFrom c n (p + 1) last

/-- `strrchr(src + p, c)`: the index of the last `c`. -/
def strrchr (c : UInt8) (n p : Nat) : Routine (Option Nat) := strrchrFrom c n p none

section Strings

variable {P : Access → Prop} {src dst s : List UInt8} {c : UInt8} {n p : Nat}

theorem strend_yields (hs : StringAt src p s) (hn : s.length < n)
    (hP : ∀ i, p ≤ i → i ≤ p + s.length → P (.load i)) :
    Yields P src (strend n p) dst (p + s.length) dst := by
  induction s generalizing n p with
  | nil =>
      obtain ⟨m, rfl⟩ := Nat.exists_eq_add_one.mpr hn
      exact (yields_load hs.terminator (hP p (Nat.le_refl p) (Nat.le_add_right p _))).bind
        (yields_pure p)
  | cons b s ih =>
      obtain ⟨m, rfl⟩ := Nat.exists_eq_add_one.mpr (Nat.zero_lt_of_lt hn)
      simp only [List.length_cons] at hn hP ⊢
      refine (yields_load hs.head (hP p (Nat.le_refl p) (by omega))).bind ?_
      rw [if_neg hs.head_ne, Nat.add_comm s.length, ← Nat.add_assoc]
      exact ih hs.tail (by omega) fun i h₁ h₂ => hP i (by omega) (by omega)

theorem strlen_yields (hs : StringAt src p s) (hn : s.length < n)
    (hP : ∀ i, p ≤ i → i ≤ p + s.length → P (.load i)) :
    Yields P src (strlen n p) dst s.length dst := by
  refine (strend_yields hs hn hP).bind ?_
  rw [Nat.add_sub_cancel_left]
  exact yields_pure _

/-- The loop finds what `CString.strchr` says, and reads no byte behind the terminator. -/
theorem strchr_yields (hc : c ≠ 0) (hs : StringAt src p s) (hn : s.length < n)
    (hP : ∀ i, p ≤ i → i ≤ p + s.length → P (.load i)) :
    Yields P src (strchr c n p) dst ((CString.strchr (src.drop p) c).map (p + ·)) dst := by
  rw [CString.strchr, hs.cstr_drop]
  induction s generalizing n p with
  | nil =>
      obtain ⟨m, rfl⟩ := Nat.exists_eq_add_one.mpr hn
      refine (yields_load hs.terminator (hP p (Nat.le_refl p) (Nat.le_add_right p _))).bind ?_
      rw [if_neg hc.symm, if_pos rfl]
      exact yields_pure none
  | cons b s ih =>
      obtain ⟨m, rfl⟩ := Nat.exists_eq_add_one.mpr (Nat.zero_lt_of_lt hn)
      simp only [List.length_cons] at hn hP
      refine (yields_load hs.head (hP p (Nat.le_refl p) (by omega))).bind ?_
      by_cases hb : b = c
      · rw [if_pos hb, List.findIdx?_cons, beq_iff_eq.mpr hb]
        exact yields_pure _
      · have hrest := ih hs.tail (n := m) (by omega) fun i h₁ h₂ => hP i (by omega) (by omega)
        rw [if_neg hb, if_neg hs.head_ne, List.findIdx?_cons, beq_eq_false_iff_ne.mpr hb]
        simpa [Option.map_map, Function.comp_def, Nat.add_assoc, Nat.add_comm 1] using hrest

/-- The last `c` of `b :: s` is the last one of `s`, or else `b` itself. -/
theorem last_cons (b : UInt8) (last : Option Nat) :
    (((b :: s).reverse.findIdx? (· == c)).map fun k => p + ((b :: s).length - 1 - k)).or last
      = ((s.reverse.findIdx? (· == c)).map fun k => p + 1 + (s.length - 1 - k)).or
          (if b = c then some p else last) := by
  rw [List.reverse_cons, List.findIdx?_append]
  cases h : s.reverse.findIdx? (· == c) with
  | none =>
      by_cases hb : b = c
      · simp [hb, List.findIdx?_cons]
      · simp [hb, List.findIdx?_cons]
  | some k =>
      obtain ⟨hk, -⟩ := List.findIdx?_eq_some_iff_getElem.mp h
      rw [List.length_reverse] at hk
      simp only [Option.some_or, Option.map_some, List.length_cons, Option.some.injEq]
      omega

/-- The last `c` of what is left of the string, else the last one seen before. -/
theorem strrchrFrom_yields (hc : c ≠ 0) (last : Option Nat) (hs : StringAt src p s)
    (hn : s.length < n) (hP : ∀ i, p ≤ i → i ≤ p + s.length → P (.load i)) :
    Yields P src (strrchrFrom c n p last) dst
      (((s.reverse.findIdx? (· == c)).map fun k => p + (s.length - 1 - k)).or last) dst := by
  induction s generalizing n p last with
  | nil =>
      obtain ⟨m, rfl⟩ := Nat.exists_eq_add_one.mpr hn
      refine (yields_load hs.terminator (hP p (Nat.le_refl p) (Nat.le_add_right p _))).bind ?_
      rw [if_neg hc.symm, if_pos rfl]
      exact yields_pure last
  | cons b s ih =>
      obtain ⟨m, rfl⟩ := Nat.exists_eq_add_one.mpr (Nat.zero_lt_of_lt hn)
      simp only [List.length_cons] at hn hP
      refine (yields_load hs.head (hP p (Nat.le_refl p) (by omega))).bind ?_
      rw [last_cons, if_neg hs.head_ne]
      exact ih _ hs.tail (by omega) fun i h₁ h₂ => hP i (by omega) (by omega)

/-- The loop finds what `CString.strrchr` says, and reads no byte behind the terminator. -/
theorem strrchr_yields (hc : c ≠ 0) (hs : StringAt src p s) (hn : s.length < n)
    (hP : ∀ i, p ≤ i → i ≤ p + s.length → P (.load i)) :
    Yields P src (strrchr c n p) dst ((CString.strrchr (src.drop p) c).map (p + ·)) dst := by
  rw [CString.strrchr, hs.cstr_drop, Option.map_map, ← Option.or_none (o := Option.map ..)]
  exact strrchrFrom_yields hc none hs hn hP

end Strings

-- ============================================================================
-- Copying
-- ============================================================================

/-- `memcpy(dst + d, src + p, n)`. -/
def memcpy (d p : Nat) : Nat → Routine Unit
  | 0 => pure ()
  | n + 1 => do
      let b ← load p
      store d b
      memcpy (d + 1) (p + 1) n

section Copies

variable {P : Access → Prop} {src dst dst' data : List UInt8} {d p n : Nat}

/-- The loop leaves what `memcpyAt` says, and touches the bytes that it copies. -/
theorem memcpy_yields (hread : memread src p n = some data)
    (hstore : memcpyAt dst d data = some dst') (hload : ∀ i, p ≤ i → i < p + n → P (.load i))
    (hP : ∀ i b, d ≤ i → i < d + n → P (.store i b)) :
    Yields P src (memcpy d p n) dst () dst' := by
  induction n generalizing d p dst data with
  | zero =>
      have hdata : p ≤ src.length ∧ data = [] := by simpa [memread] using hread
      rw [hdata.2] at hstore
      have hdst : dst' = dst := by simpa using (CString.memcpyAt_inv hstore).2
      rw [hdst]
      exact yields_pure ()
  | succ n ih =>
      obtain ⟨b, rest, rfl, hb, hrest⟩ := CString.memread_succ hread
      rw [CString.memcpyAt_cons] at hstore
      have hfit := (CString.memcpyAt_inv hstore).1
      rw [List.length_set] at hfit
      refine (yields_load hb (hload p (Nat.le_refl p) (by omega))).bind ?_
      refine (yields_store (by omega) (hP d b (Nat.le_refl d) (by omega))).bind ?_
      exact ih hrest hstore (fun i h₁ h₂ => hload i (by omega) (by omega))
        fun i c h₁ h₂ => hP i c (by omega) (by omega)

end Copies

end Bytes

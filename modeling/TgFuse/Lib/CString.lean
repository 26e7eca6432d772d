/-
  TgFuse.Lib.CString

  C strings over byte lists.  A block of memory is the list of its bytes; the
  string that starts at its first byte is what precedes the first NUL.

  * `cstr mem` — the string at the start of `mem`.
  * `strchr` / `strrchr` / `strpbrk` / `strstr` — offsets instead of pointers,
    `none` instead of `NULL`.
  * `strncpy` / `memcpyAt` — stores into a block, `none` when a byte would land
    outside of it.
  * `CharArray n` — a `char a[n]` object, which carries its length.
-/

import Mathlib.Data.List.Infix
import Mathlib.Data.List.TakeDrop
import Mathlib.Data.List.TakeWhile

namespace CString

-- ============================================================================
-- Strings in memory
-- ============================================================================

/-- The bytes of an ASCII literal. -/
def text (s : String) : List UInt8 := s.toList.map Char.toUInt8

/-- The C string at the start of a block: everything before the first NUL. -/
def cstr (mem : List UInt8) : List UInt8 := mem.takeWhile (· ≠ 0)

@[simp] theorem cstr_nil : cstr [] = [] := rfl

/-- A NUL-free prefix ends where the terminator stands. -/
theorem cstr_append_zero {s : List UInt8} (hs : 0 ∉ s) (rest : List UInt8) :
    cstr (s ++ 0 :: rest) = s := by
  induction s with
  | nil => simp [cstr]
  | cons b s ih =>
      simp only [List.mem_cons, not_or] at hs
      obtain ⟨hb, hs⟩ := hs
      have hb' : b ≠ 0 := fun h => hb h.symm
      simpa [cstr, hb'] using ih hs

theorem cstr_eq_self {s : List UInt8} (hs : 0 ∉ s) : cstr s = s := by
  rw [cstr, List.takeWhile_eq_self_iff]
  intro b hb
  have : b ≠ 0 := fun h => hs (h ▸ hb)
  simpa using this

/-- What follows a terminated block is not part of its string. -/
theorem cstr_append_of_mem {mem : List UInt8} (h : 0 ∈ mem) (rest : List UInt8) :
    cstr (mem ++ rest) = cstr mem := by
  induction mem with
  | nil => simp at h
  | cons b mem ih =>
      by_cases hb : b = 0
      · simp [cstr, hb]
      · have h' : 0 ∈ mem := by
          rcases List.mem_cons.mp h with h | h
          · exact absurd h.symm hb
          · exact h
        simpa [cstr, hb] using ih h'

/-- The zeros that follow a string in a `memset` block end it. -/
theorem cstr_append_replicate {s : List UInt8} (hs : 0 ∉ s) (n : Nat) :
    cstr (s ++ List.replicate n 0) = s := by
  cases n with
  | zero => simpa using cstr_eq_self hs
  | succ n => simpa [List.replicate_succ] using cstr_append_zero hs (List.replicate n 0)

-- ============================================================================
-- Searching
-- ============================================================================

/-- Offset of the first `c` of the string at `mem`. -/
def strchr (mem : List UInt8) (c : UInt8) : Option Nat :=
  (cstr mem).findIdx? (· == c)

/-- Offset of the last `c` of the string at `mem`. -/
def strrchr (mem : List UInt8) (c : UInt8) : Option Nat :=
  ((cstr mem).reverse.findIdx? (· == c)).map fun k => (cstr mem).length - 1 - k

/-- Offset of the first byte of the string at `mem` that belongs to `accept`. -/
def strpbrk (mem accept : List UInt8) : Option Nat :=
  (cstr mem).findIdx? (accept.contains ·)

/-- A byte that does not stand in `a` is found right after it. -/
theorem findIdx?_first {c : UInt8} {a : List UInt8} (ha : c ∉ a) (t : List UInt8) :
    (a ++ c :: t).findIdx? (· == c) = some a.length := by
  induction a with
  | nil => simp [List.findIdx?_cons]
  | cons b a ih =>
      simp only [List.mem_cons, not_or] at ha
      have hb : (b == c) = false := by simpa using fun h : b = c => ha.1 h.symm
      simp [List.findIdx?_cons, hb, ih ha.2]

theorem strchr_first {c : UInt8} {a t mem : List UInt8} (hm : cstr mem = a ++ c :: t)
    (ha : c ∉ a) : strchr mem c = some a.length := by
  rw [strchr, hm, findIdx?_first ha]

theorem strchr_none {c : UInt8} {mem : List UInt8} (h : c ∉ cstr mem) : strchr mem c = none := by
  rw [strchr, List.findIdx?_eq_none_iff]
  intro b hb
  have : b ≠ c := fun e => h (e ▸ hb)
  simpa using this

theorem strrchr_last {c : UInt8} {a t mem : List UInt8} (hm : cstr mem = a ++ c :: t)
    (ht : c ∉ t) : strrchr mem c = some a.length := by
  have hrev : (cstr mem).reverse = t.reverse ++ c :: a.reverse := by simp [hm]
  rw [strrchr, hrev, findIdx?_first (by simpa using ht), hm]
  simp

/-- What is found stands in the string. -/
theorem strchr_lt {mem : List UInt8} {c : UInt8} {k : Nat} (h : strchr mem c = some k) :
    k < (cstr mem).length :=
  (List.findIdx?_eq_some_iff_getElem.mp h).1

theorem strrchr_lt {mem : List UInt8} {c : UInt8} {k : Nat} (h : strrchr mem c = some k) :
    k < (cstr mem).length := by
  obtain ⟨j, hj, rfl⟩ := Option.map_eq_some_iff.mp h
  obtain ⟨hlt, -⟩ := List.findIdx?_eq_some_iff_getElem.mp hj
  rw [List.length_reverse] at hlt
  omega

/-- Offset of the first occurrence of `needle` in the byte list `hay`. -/
def findSub (needle : List UInt8) : List UInt8 → Option Nat
  | [] => if needle.isPrefixOf [] then some 0 else none
  | b :: hay =>
      if needle.isPrefixOf (b :: hay) then some 0 else (findSub needle hay).map (· + 1)

/-- Offset of the first occurrence of the string `needle` in the string at `mem`. -/
def strstr (mem needle : List UInt8) : Option Nat := findSub needle (cstr mem)

theorem findSub_of_isPrefix {needle hay : List UInt8} (h : needle <+: hay) :
    findSub needle hay = some 0 := by
  cases hay with
  | nil => simp [findSub, List.isPrefixOf_iff_prefix, h]
  | cons b hay => simp only [findSub, List.isPrefixOf_iff_prefix.mpr h, if_true]

theorem findSub_cons_of_not_isPrefix {needle : List UInt8} {b : UInt8} {hay : List UInt8}
    (h : ¬ needle <+: b :: hay) :
    findSub needle (b :: hay) = (findSub needle hay).map (· + 1) := by
  have hf : needle.isPrefixOf (b :: hay) = false := by
    rw [← Bool.not_eq_true, List.isPrefixOf_iff_prefix]
    exact h
  simp [findSub, hf]

/-- A position that `findSub` returns holds the needle. -/
theorem prefix_drop_of_findSub {needle : List UInt8} {i : Nat} {hay : List UInt8}
    (h : findSub needle hay = some i) : needle <+: hay.drop i := by
  induction hay generalizing i with
  | nil =>
      by_cases hp : needle <+: []
      · rw [findSub_of_isPrefix hp] at h
        cases h
        simpa using hp
      · have : needle.isPrefixOf [] = false := by
          rw [← Bool.not_eq_true, List.isPrefixOf_iff_prefix]
          exact hp
        simp [findSub, this] at h
  | cons b hay ih =>
      by_cases hp : needle <+: b :: hay
      · rw [findSub_of_isPrefix hp] at h
        cases h
        simpa using hp
      · rw [findSub_cons_of_not_isPrefix hp] at h
        obtain ⟨j, hj, rfl⟩ := Option.map_eq_some_iff.mp h
        simpa using ih hj

/-- An occurrence that is not inside `a` cannot start in `a`: a needle whose
    first byte does not come back later cannot straddle its own start. -/
theorem findSub_append {c : UInt8} {t a b : List UInt8} (hc : c ∉ t)
    (ha : ¬ (c :: t) <:+: a) : findSub (c :: t) (a ++ (c :: t) ++ b) = some a.length := by
  induction a with
  | nil => exact findSub_of_isPrefix (List.prefix_append (c :: t) b)
  | cons x a ih =>
      have hx : ¬ (c :: t) <+: x :: (a ++ (c :: t) ++ b) := by
        intro h
        have hlen : ¬ (c :: t).length ≤ (x :: a).length := by
          intro hle
          have h1 : (c :: t) <+: (x :: a) ++ ((c :: t) ++ b) := by simpa using h
          exact ha (List.prefix_of_prefix_length_le h1 (List.prefix_append _ _) hle).isInfix
        -- the first byte of the inner copy stands inside the outer one
        obtain ⟨r, hr⟩ := h
        have hget := congrArg (fun l => l[(x :: a).length]?) hr
        simp only [List.length_cons] at hlen
        simp only [List.length_cons, List.append_assoc, List.cons_append,
          List.getElem?_cons_succ] at hget
        rw [List.getElem?_append_left (by omega), List.getElem?_append_right (by omega)] at hget
        simp only [Nat.sub_self, List.getElem?_cons_zero] at hget
        exact hc (List.mem_of_getElem? hget)
      have ha' : ¬ (c :: t) <:+: a := fun h => ha (h.trans (List.suffix_cons x a).isInfix)
      simp only [List.cons_append] at hx ih ⊢
      rw [findSub_cons_of_not_isPrefix hx, ih ha']
      simp

/-- A byte that the needle does not have separates its occurrences. -/
theorem infix_append_cons_iff {needle a b : List UInt8} {q : UInt8} (hq : q ∉ needle) :
    needle <:+: a ++ q :: b ↔ needle <:+: a ∨ needle <:+: b := by
  constructor
  · rintro ⟨s, t, h⟩
    rcases List.append_eq_append_iff.mp h with ⟨u, ha, -⟩ | ⟨u, hs, hb⟩
    · exact Or.inl ⟨s, u, ha.symm⟩
    · cases u with
      | nil => exact Or.inl ⟨s, [], by simpa using hs⟩
      | cons x u =>
          obtain ⟨rfl, htail⟩ := List.cons.inj hb
          -- the separator is not in the needle, so it stands before it
          rcases List.append_eq_append_iff.mp hs with ⟨v, -, hn⟩ | ⟨v, -, hn⟩
          · exact absurd (by rw [hn]; simp) hq
          · cases v with
            | nil => exact absurd (by rw [← (show _ = needle from hn)]; simp) hq
            | cons y v =>
                obtain ⟨-, hend⟩ := List.cons.inj hn
                exact Or.inr ⟨v, t, by rw [htail, hend]; rfl⟩
  · rintro (h | h)
    · exact h.trans (List.prefix_append a _).isInfix
    · exact h.trans ((List.suffix_cons q b).trans (List.suffix_append a _)).isInfix

-- ============================================================================
-- Stores
-- ============================================================================

/-- `memcpy(mem + off, data, n)`: `none` when a byte falls outside the block. -/
def memcpyAt (mem : List UInt8) (off : Nat) (data : List UInt8) : Option (List UInt8) :=
  if off + data.length ≤ mem.length then
    some (mem.take off ++ data ++ mem.drop (off + data.length))
  else none

theorem memcpyAt_eq_some {mem data : List UInt8} {off : Nat}
    (h : off + data.length ≤ mem.length) :
    memcpyAt mem off data = some (mem.take off ++ data ++ mem.drop (off + data.length)) :=
  if_pos h

/-- A store that goes through stays inside the block. -/
theorem memcpyAt_inv {mem data out : List UInt8} {off : Nat}
    (h : memcpyAt mem off data = some out) :
    off + data.length ≤ mem.length ∧
      out = mem.take off ++ data ++ mem.drop (off + data.length) := by
  unfold memcpyAt at h
  split at h
  · next hfit => exact ⟨hfit, (Option.some.inj h).symm⟩
  · cases h

theorem memcpyAt_length {mem data out : List UInt8} {off : Nat}
    (h : memcpyAt mem off data = some out) : out.length = mem.length := by
  obtain ⟨hfit, rfl⟩ := memcpyAt_inv h
  simp only [List.length_append, List.length_take, List.length_drop]
  omega

/-- A store of several bytes is a store of the first and then of the others. -/
theorem memcpyAt_cons (mem : List UInt8) (off : Nat) (b : UInt8) (data : List UInt8) :
    memcpyAt mem off (b :: data) = memcpyAt (mem.set off b) (off + 1) data := by
  have hend : off + (b :: data).length = off + 1 + data.length := by
    rw [List.length_cons]
    omega
  simp only [memcpyAt, hend, List.length_set]
  by_cases hfit : off + 1 + data.length ≤ mem.length
  · have htake : (mem.set off b).take (off + 1) = mem.take off ++ [b] := by
      rw [List.set_eq_take_append_cons_drop, if_pos (by omega), List.take_append,
        List.length_take_of_le (by omega), List.take_of_length_le (by rw [List.length_take]; omega)]
      simp
    rw [if_pos hfit, if_pos hfit, htake, List.drop_set_of_lt (by omega)]
    simp
  · rw [if_neg hfit, if_neg hfit]

/-- A store of one byte. -/
theorem memcpyAt_singleton {mem out : List UInt8} {off : Nat} {b : UInt8}
    (h : memcpyAt mem off [b] = some out) : off < mem.length ∧ out = mem.set off b := by
  obtain ⟨hfit, -⟩ := memcpyAt_inv h
  rw [memcpyAt_cons] at h
  obtain ⟨-, hout⟩ := memcpyAt_inv h
  exact ⟨hfit, by simpa using hout⟩

/-- The `n` bytes at `mem + off`: `none` when one of them is outside the block. -/
def memread (mem : List UInt8) (off n : Nat) : Option (List UInt8) :=
  if off + n ≤ mem.length then some ((mem.drop off).take n) else none

theorem memread_eq_some {mem : List UInt8} {off n : Nat} (h : off + n ≤ mem.length) :
    memread mem off n = some ((mem.drop off).take n) := if_pos h

/-- A read of several bytes is a read of the first and then of the others. -/
theorem memread_succ {mem data : List UInt8} {off n : Nat}
    (h : memread mem off (n + 1) = some data) :
    ∃ b rest, data = b :: rest ∧ mem[off]? = some b ∧ memread mem (off + 1) n = some rest := by
  unfold memread at h
  split at h
  · next hfit =>
    have hlt : off < mem.length := by omega
    refine ⟨mem[off], (mem.drop (off + 1)).take n, ?_, List.getElem?_eq_getElem hlt,
      memread_eq_some (by omega)⟩
    rw [← Option.some.inj h, List.drop_eq_getElem_cons hlt, List.take_succ_cons]
  · cases h

/-- `strncpy(dst, src, n)`: at most `n` bytes of the string `src`, zeros up to
    `n`; `none` when those `n` bytes do not fit into the block at `dst`. -/
def strncpy (dst src : List UInt8) (n : Nat) : Option (List UInt8) :=
  if n ≤ dst.length then
    some (((cstr src).take n ++ List.replicate (n - (cstr src).length) 0) ++ dst.drop n)
  else none

/-- Copying exactly a NUL-free prefix of the source. -/
theorem strncpy_append {s : List UInt8} (hs : 0 ∉ s) (dst rest : List UInt8) :
    strncpy dst (s ++ rest) s.length
      = if s.length ≤ dst.length then some (s ++ dst.drop s.length) else none := by
  have hpre : cstr (s ++ rest) = s ++ cstr rest := by
    unfold cstr
    rw [List.takeWhile_append_of_pos]
    intro b hb
    have : b ≠ 0 := fun h => hs (h ▸ hb)
    simpa using this
  simp only [strncpy, hpre, List.take_left', List.length_append]
  simp

-- ============================================================================
-- Character arrays
-- ============================================================================

/-- The object `char a[n]`. -/
@[ext] structure CharArray (n : Nat) where
  bytes : List UInt8
  length_bytes : bytes.length = n
deriving DecidableEq

namespace CharArray

variable {n : Nat}

/-- The first `n` bytes of `l`, zeros where `l` is shorter. -/
def ofList (l : List UInt8) : CharArray n := ⟨l.takeD n 0, List.takeD_length n l 0⟩

/-- A zero-initialised array. -/
def zeros : CharArray n := ⟨List.replicate n 0, List.length_replicate ..⟩

/-- The C string the array holds. -/
def str (a : CharArray n) : List UInt8 := cstr a.bytes

@[simp] theorem bytes_zeros : (zeros : CharArray n).bytes = List.replicate n 0 := rfl

theorem bytes_ofList (l : List UInt8) :
    (ofList l : CharArray n).bytes = l.take n ++ List.replicate (n - l.length) 0 := by
  show l.takeD n 0 = _
  induction l generalizing n with
  | nil => simp
  | cons b l ih =>
      cases n with
      | zero => simp
      | succ n => simp [ih]

theorem bytes_ofList_of_le {l : List UInt8} (h : l.length ≤ n) :
    (ofList l : CharArray n).bytes = l ++ List.replicate (n - l.length) 0 := by
  rw [bytes_ofList, List.take_of_length_le h]

@[simp] theorem ofList_bytes (a : CharArray n) : ofList a.bytes = a := by
  ext1
  rw [bytes_ofList_of_le (by rw [a.length_bytes])]
  simp [a.length_bytes]

theorem bytes_ofList_of_length {l : List UInt8} (h : l.length = n) :
    (ofList l : CharArray n).bytes = l := by
  rw [bytes_ofList_of_le (Nat.le_of_eq h), h]
  simp

/-- An array that holds a shorter NUL-free text, zero-filled, holds that string. -/
theorem str_ofList {s : List UInt8} (hs : 0 ∉ s) (hlen : s.length ≤ n) :
    (ofList s : CharArray n).str = s := by
  rw [str, bytes_ofList_of_le hlen]
  exact cstr_append_replicate hs _

@[simp] theorem str_zeros : (zeros : CharArray n).str = [] := by
  simpa [str] using cstr_append_replicate (s := []) (by simp) n

@[simp] theorem ofList_nil : (ofList [] : CharArray n) = zeros := by
  ext1
  rw [bytes_ofList]
  simp

/-- The array holds the string `v`, with its terminator. -/
def Holds (a : CharArray n) (v : List UInt8) : Prop := 0 ∈ a.bytes ∧ a.str = v

instance (a : CharArray n) (v : List UInt8) : Decidable (a.Holds v) :=
  inferInstanceAs (Decidable (0 ∈ a.bytes ∧ a.str = v))

/-- A text that is shorter than the array leaves a NUL behind it. -/
theorem zero_mem_ofList {v : List UInt8} (h : v.length < n) :
    0 ∈ (ofList v : CharArray n).bytes := by
  rw [bytes_ofList_of_le (Nat.le_of_lt h), List.mem_append, List.mem_replicate]
  exact Or.inr ⟨by omega, rfl⟩

theorem holds_ofList {v : List UInt8} (hv : 0 ∉ v) (h : v.length < n) :
    (ofList v : CharArray n).Holds v :=
  ⟨zero_mem_ofList h, str_ofList hv (Nat.le_of_lt h)⟩

/-- A NUL stands right behind a string that is held. -/
theorem Holds.getElem?_length {a : CharArray n} {v : List UInt8} (h : a.Holds v) :
    a.bytes[v.length]? = some 0 := by
  obtain ⟨hz, rfl⟩ := h
  rw [str]
  generalize a.bytes = bytes at hz
  induction bytes with
  | nil => cases hz
  | cons b bytes ih =>
      by_cases hb : b = 0
      · simp [cstr, hb]
      · have hz' : 0 ∈ bytes := by
          rcases List.mem_cons.mp hz with h | h
          · exact absurd h.symm hb
          · exact h
        simpa [cstr, hb] using ih hz'

/-- A string that is held stands at the start, with a NUL behind it. -/
theorem holds_iff_prefix {a : CharArray n} {v : List UInt8} (hv : 0 ∉ v) :
    a.Holds v ↔ v ++ [0] <+: a.bytes := by
  constructor
  · intro h
    have hz := h.getElem?_length
    have hpre : v <+: a.bytes := h.2 ▸ List.takeWhile_prefix _
    obtain ⟨rest, hrest⟩ := hpre
    rw [← hrest, List.getElem?_append_right (Nat.le_refl _), Nat.sub_self] at hz
    obtain ⟨t, rfl⟩ : ∃ t, rest = 0 :: t :=
      List.head?_eq_some_iff.mp (List.head?_eq_getElem? ▸ hz)
    exact ⟨t, by rw [← hrest]; simp⟩
  · rintro ⟨t, ht⟩
    refine ⟨ht ▸ by simp, ?_⟩
    rw [str, ← ht, List.append_assoc]
    exact cstr_append_zero hv t

theorem Holds.length_lt {a : CharArray n} {v : List UInt8} (h : a.Holds v) : v.length < n := by
  obtain ⟨hlt, -⟩ := List.getElem?_eq_some_iff.mp h.getElem?_length
  exact a.length_bytes ▸ hlt

/-- A string stored at the start of a block is held by the array that begins
    there exactly if a NUL follows it inside of the array. -/
theorem holds_ofList_iff {v tail : List UInt8} (hv : 0 ∉ v) (hlen : n ≤ (v ++ tail).length)
    (htail : v.length < n → tail.head? = some 0) {w : List UInt8} :
    (ofList (v ++ tail) : CharArray n).Holds w ↔ v = w ∧ v.length < n := by
  have hbytes : (ofList (v ++ tail) : CharArray n).bytes = (v ++ tail).take n := by
    rw [bytes_ofList, Nat.sub_eq_zero_of_le hlen, List.replicate_zero, List.append_nil]
  unfold Holds str
  rw [hbytes]
  by_cases hlt : v.length < n
  · obtain ⟨t, rfl⟩ : ∃ t, tail = 0 :: t := List.head?_eq_some_iff.mp (htail hlt)
    have hsplit : (v ++ 0 :: t).take n = v ++ 0 :: t.take (n - v.length - 1) := by
      rw [List.take_append, List.take_of_length_le (by omega),
        show n - v.length = (n - v.length - 1) + 1 by omega, List.take_succ_cons]
      simp
    rw [hsplit, cstr_append_zero hv]
    simp [hlt]
  · have hno : 0 ∉ (v ++ tail).take n := by
      rw [List.take_append_of_le_length (by omega)]
      exact fun h => hv (List.mem_of_mem_take h)
    simp [hno, hlt]

end CharArray

end CString

/-
  TgFuse.Lib.Query

  Query strings of URLs, as byte lists.

  * `parse url` — the parameters that a server reads: what follows the first `?`,
    up to `#`, split at `&` and at the first `=`, with `+` for a space and
    percent-encoded bytes decoded.
  * `write ps` — parameters written one after the other, with nothing encoded.

  Written so, parameters are read back exactly if each value is `Verbatim`
  (`parse_write_iff`).
-/

import Mathlib.Data.List.TakeWhile

namespace Query

-- ============================================================================
-- Special characters
-- ============================================================================

/-- `'&'`, `'='`, `'#'`, `'?'`, `'%'`, `'+'`, `' '`. -/
def amp : UInt8 := 38
def equals : UInt8 := 61
def hash : UInt8 := 35
def question : UInt8 := 63
def percent : UInt8 := 37
def plus : UInt8 := 43
def space : UInt8 := 32

/-- `[0-9A-Fa-f]`. -/
def IsHex (b : UInt8) : Prop := (48 ≤ b ∧ b ≤ 57) ∨ (65 ≤ b ∧ b ≤ 70) ∨ (97 ≤ b ∧ b ≤ 102)

instance (b : UInt8) : Decidable (IsHex b) :=
  inferInstanceAs (Decidable ((48 ≤ b ∧ b ≤ 57) ∨ (65 ≤ b ∧ b ≤ 70) ∨ (97 ≤ b ∧ b ≤ 102)))

/-- The value of a hexadecimal digit. -/
def hexValue (b : UInt8) : UInt8 := if b ≤ 57 then b - 48 else if b ≤ 70 then b - 55 else b - 87

-- ============================================================================
-- Reading
-- ============================================================================

/-- Replace `%XX` by the byte it stands for. -/
def percentDecode : List UInt8 → List UInt8
  | c :: h :: l :: rest =>
      if c = percent ∧ IsHex h ∧ IsHex l then
        (16 * hexValue h + hexValue l) :: percentDecode rest
      else c :: percentDecode (h :: l :: rest)
  | c :: rest => c :: percentDecode rest
  | [] => []

/-- Replace `+` by a space. -/
def plusToSpace (b : UInt8) : UInt8 := if b = plus then space else b

/-- What an encoded text stands for. -/
def decode (v : List UInt8) : List UInt8 := percentDecode (v.map plusToSpace)

/-- One parameter. -/
def parsePair (piece : List UInt8) : List UInt8 × List UInt8 :=
  (decode (piece.takeWhile (· ≠ equals)), decode ((piece.dropWhile (· ≠ equals)).drop 1))

/-- The parameters of a query, which ends at a `#`. -/
def parseQuery (query : List UInt8) : List (List UInt8 × List UInt8) :=
  ((query.takeWhile (· ≠ hash)).splitOn amp).map parsePair

/-- The parameters of a URL. -/
def parse (url : List UInt8) : List (List UInt8 × List UInt8) :=
  parseQuery ((url.dropWhile (· ≠ question)).drop 1)

-- ============================================================================
-- Writing
-- ============================================================================

/-- A parameter as it is. -/
def writePair (p : List UInt8 × List UInt8) : List UInt8 := p.1 ++ equals :: p.2

/-- Parameters one after the other. -/
def write : List (List UInt8 × List UInt8) → List UInt8
  | [] => []
  | [p] => writePair p
  | p :: q :: ps => writePair p ++ amp :: write (q :: ps)

-- ============================================================================
-- Values that stand for themselves
-- ============================================================================

/-- A `%` with two hexadecimal digits behind it. -/
def HasEscape (v : List UInt8) : Prop :=
  ∃ a h l b, v = a ++ percent :: h :: l :: b ∧ IsHex h ∧ IsHex l

/-- The value is read as it is written. -/
structure Verbatim (v : List UInt8) : Prop where
  noAmp : amp ∉ v
  noHash : hash ∉ v
  noPlus : plus ∉ v
  noEscape : ¬ HasEscape v

theorem hasEscape_cons_iff {c : UInt8} {v : List UInt8} :
    HasEscape (c :: v) ↔
      (c = percent ∧ ∃ h l b, v = h :: l :: b ∧ IsHex h ∧ IsHex l) ∨ HasEscape v := by
  constructor
  · rintro ⟨a, h, l, b, heq, hhex, lhex⟩
    cases a with
    | nil =>
        obtain ⟨rfl, rfl⟩ := List.cons.inj heq
        exact Or.inl ⟨rfl, h, l, b, rfl, hhex, lhex⟩
    | cons d a =>
        obtain ⟨rfl, rfl⟩ := List.cons.inj heq
        exact Or.inr ⟨a, h, l, b, rfl, hhex, lhex⟩
  · rintro (⟨rfl, h, l, b, rfl, hhex, lhex⟩ | ⟨a, h, l, b, rfl, hhex, lhex⟩)
    · exact ⟨[], h, l, b, rfl, hhex, lhex⟩
    · exact ⟨c :: a, h, l, b, rfl, hhex, lhex⟩

/-- A text without escapes is left alone; any other one gets shorter. -/
theorem percentDecode_cases (v : List UInt8) :
    (¬ HasEscape v ∧ percentDecode v = v) ∨
      (HasEscape v ∧ (percentDecode v).length < v.length) := by
  have hskip : ∀ {c : UInt8} {v : List UInt8}, percentDecode (c :: v) = c :: percentDecode v →
      (HasEscape (c :: v) ↔ HasEscape v) →
      ((¬ HasEscape v ∧ percentDecode v = v) ∨
        (HasEscape v ∧ (percentDecode v).length < v.length)) →
      (¬ HasEscape (c :: v) ∧ percentDecode (c :: v) = c :: v) ∨
        (HasEscape (c :: v) ∧ (percentDecode (c :: v)).length < (c :: v).length) := by
    intro c v hdec hiff ih
    rw [hdec, hiff]
    rcases ih with ⟨hno, heq⟩ | ⟨hesc, hlt⟩
    · exact Or.inl ⟨hno, by rw [heq]⟩
    · exact Or.inr ⟨hesc, Nat.succ_lt_succ hlt⟩
  induction v using percentDecode.induct with
  | case1 c h l rest hesc ih =>
      have hle : (percentDecode rest).length ≤ rest.length := by
        rcases ih with ⟨-, heq⟩ | ⟨-, hlt⟩
        · rw [heq]
        · exact Nat.le_of_lt hlt
      obtain ⟨rfl, hhex, lhex⟩ := hesc
      refine Or.inr ⟨⟨[], h, l, rest, rfl, hhex, lhex⟩, ?_⟩
      rw [percentDecode, if_pos ⟨rfl, hhex, lhex⟩]
      simp only [List.length_cons]
      omega
  | case2 c h l rest hesc ih =>
      apply hskip _ _ ih
      · rw [percentDecode, if_neg hesc]
      · rw [hasEscape_cons_iff]
        apply or_iff_right
        rintro ⟨hc, h', l', b, heq, hhex, lhex⟩
        cases heq
        exact hesc ⟨hc, hhex, lhex⟩
  | case3 c rest hshort ih =>
      apply hskip _ _ ih
      · rw [percentDecode]
        exact hshort
      · rw [hasEscape_cons_iff]
        apply or_iff_right
        rintro ⟨-, h', l', b, heq, -, -⟩
        exact hshort h' l' b heq
  | case4 =>
      refine Or.inl ⟨?_, rfl⟩
      rintro ⟨a, h, l, b, heq, -⟩
      cases a <;> cases heq

theorem hasEscape_iff {v : List UInt8} : HasEscape v ↔ percentDecode v ≠ v := by
  rcases percentDecode_cases v with ⟨hno, heq⟩ | ⟨hesc, hlt⟩
  · exact iff_of_false hno (not_not.mpr heq)
  · refine iff_of_true hesc fun heq => ?_
    rw [heq] at hlt
    exact Nat.lt_irrefl _ hlt

instance (v : List UInt8) : Decidable (HasEscape v) := decidable_of_iff _ hasEscape_iff.symm

theorem verbatim_iff {v : List UInt8} :
    Verbatim v ↔ amp ∉ v ∧ hash ∉ v ∧ plus ∉ v ∧ ¬ HasEscape v :=
  ⟨fun h => ⟨h.1, h.2, h.3, h.4⟩, fun ⟨h₁, h₂, h₃, h₄⟩ => ⟨h₁, h₂, h₃, h₄⟩⟩

instance (v : List UInt8) : Decidable (Verbatim v) := decidable_of_iff _ verbatim_iff.symm

theorem not_hasEscape {v : List UInt8} (h : percent ∉ v) : ¬ HasEscape v := by
  rintro ⟨a, x, y, b, rfl, -⟩
  exact h (List.mem_append_right _ (List.mem_cons_self ..))

theorem decode_length_le (v : List UInt8) : (decode v).length ≤ v.length := by
  have hmap : (v.map plusToSpace).length = v.length := List.length_map _
  rw [decode, ← hmap]
  rcases percentDecode_cases (v.map plusToSpace) with ⟨-, heq⟩ | ⟨-, hlt⟩
  · rw [heq]
  · exact Nat.le_of_lt hlt

theorem map_plusToSpace_eq_self_iff {v : List UInt8} : v.map plusToSpace = v ↔ plus ∉ v := by
  constructor
  · intro h hmem
    have hplus : plus ∈ v.map plusToSpace := h.symm ▸ hmem
    obtain ⟨b, -, hb⟩ := List.mem_map.mp hplus
    unfold plusToSpace at hb
    split at hb
    · exact absurd hb (by decide)
    · next hne => exact hne hb
  · intro h
    have hid : ∀ b ∈ v, plusToSpace b = id b := fun b hb =>
      if_neg fun (heq : b = plus) => h (heq ▸ hb)
    rw [List.map_congr_left hid, List.map_id]

/-- A text stands for itself exactly if it has no `+` and no escape. -/
theorem decode_eq_self_iff {v : List UInt8} : decode v = v ↔ plus ∉ v ∧ ¬ HasEscape v := by
  rw [decode]
  constructor
  · intro h
    rcases percentDecode_cases (v.map plusToSpace) with ⟨hno, heq⟩ | ⟨-, hlt⟩
    · have hmap : v.map plusToSpace = v := heq.symm.trans h
      rw [hmap] at hno
      exact ⟨map_plusToSpace_eq_self_iff.mp hmap, hno⟩
    · rw [h, List.length_map] at hlt
      exact absurd hlt (Nat.lt_irrefl _)
  · rintro ⟨hplus, hno⟩
    rw [map_plusToSpace_eq_self_iff.mpr hplus]
    exact ((percentDecode_cases v).resolve_right fun h => hno h.1).2

-- ============================================================================
-- Parameters one after the other
-- ============================================================================

section Parameters

variable {piece more query url : List UInt8} {p : List UInt8 × List UInt8}
  {ps : List (List UInt8 × List UInt8)}

theorem parsePair_writePair {n : List UInt8} (h : equals ∉ n) (v : List UInt8) :
    parsePair (writePair (n, v)) = (decode n, decode v) := by
  have hall : ∀ b ∈ n, decide (b ≠ equals) = true := by
    intro b hb
    exact decide_eq_true fun heq => h (heq ▸ hb)
  rw [parsePair, writePair, List.takeWhile_append_of_pos hall, List.dropWhile_append_of_pos hall]
  simp

/-- The first parameter is read off before any `&` or `#`. -/
theorem parseQuery_head (query : List UInt8) :
    ∃ ps, parseQuery query = parsePair (query.takeWhile fun b => b ≠ amp ∧ b ≠ hash) :: ps := by
  have hsplit : ∀ l : List UInt8, ∃ t, l.splitOn amp = l.takeWhile (· ≠ amp) :: t := by
    intro l
    induction l with
    | nil => exact ⟨[], rfl⟩
    | cons b l ih =>
        obtain ⟨t, ht⟩ := ih
        rw [List.splitOn_cons_eq_if_modifyHead]
        by_cases hb : b = amp
        · exact ⟨l.splitOn amp, by simp [hb]⟩
        · exact ⟨t, by simp [hb, ht]⟩
  obtain ⟨t, ht⟩ := hsplit (query.takeWhile (· ≠ hash))
  refine ⟨t.map parsePair, ?_⟩
  rw [parseQuery, ht, List.map_cons, List.takeWhile_takeWhile]
  simp

/-- A query that starts with a whole parameter. -/
theorem parseQuery_cons (ha : amp ∉ piece) (hh : hash ∉ piece) :
    parseQuery (piece ++ amp :: more) = parsePair piece :: parseQuery more := by
  have hall : ∀ b ∈ piece, decide (b ≠ hash) = true := fun b hb =>
    decide_eq_true fun heq => hh (heq ▸ hb)
  have hcut : (piece ++ amp :: more).takeWhile (· ≠ hash)
      = piece ++ amp :: more.takeWhile (· ≠ hash) := by
    rw [List.takeWhile_append_of_pos hall, List.takeWhile_cons, if_pos (by decide)]
  have hno : ∀ b ∈ piece, (b == amp) = false := fun b hb =>
    beq_eq_false_iff_ne.mpr fun heq => ha (heq ▸ hb)
  rw [parseQuery, hcut, List.splitOn_eq_splitOnP,
    List.splitOnP_append_cons_of_forall_mem hno amp (by decide), List.map_cons]
  rfl

theorem parseQuery_single (ha : amp ∉ piece) (hh : hash ∉ piece) :
    parseQuery piece = [parsePair piece] := by
  have hcut : piece.takeWhile (· ≠ hash) = piece := by
    rw [List.takeWhile_eq_self_iff]
    exact fun b hb => decide_eq_true fun heq => hh (heq ▸ hb)
  have hno : ∀ b ∈ piece, (b == amp) = false := fun b hb =>
    beq_eq_false_iff_ne.mpr fun heq => ha (heq ▸ hb)
  rw [parseQuery, hcut, List.splitOn_eq_splitOnP, List.splitOnP_eq_singleton hno]
  rfl

/-- A parameter is read back only if its value does not end early. -/
theorem value_whole_of_head (rest : List UInt8) (hname : Verbatim p.1 ∧ equals ∉ p.1)
    (h : parseQuery (writePair p ++ rest) = p :: ps) : amp ∉ p.2 ∧ hash ∉ p.2 := by
  obtain ⟨t, ht⟩ := parseQuery_head (writePair p ++ rest)
  rw [h] at ht
  have hstop : ∀ b ∈ p.1, decide (b ≠ amp ∧ b ≠ hash) = true := by
    intro b hb
    refine decide_eq_true ⟨fun heq => ?_, fun heq => ?_⟩
    · exact hname.1.noAmp (heq ▸ hb)
    · exact hname.1.noHash (heq ▸ hb)
  have hpiece : (writePair p ++ rest).takeWhile (fun b => b ≠ amp ∧ b ≠ hash)
      = writePair (p.1, (p.2 ++ rest).takeWhile fun b => b ≠ amp ∧ b ≠ hash) := by
    rw [writePair, List.append_assoc, List.takeWhile_append_of_pos hstop, List.cons_append,
      List.takeWhile_cons, if_pos (by decide)]
    rfl
  -- the value has as many bytes as stand before the first stop
  have hvalue : p.2 = decode ((p.2 ++ rest).takeWhile fun b => b ≠ amp ∧ b ≠ hash) := by
    have hhead := (List.cons.inj ht).1
    rw [hpiece, parsePair_writePair hname.2] at hhead
    exact congrArg Prod.snd hhead
  have hlen := decode_length_le ((p.2 ++ rest).takeWhile fun b => b ≠ amp ∧ b ≠ hash)
  rw [← hvalue, List.takeWhile_append] at hlen
  split at hlen
  · next hwhole =>
    have hself := (List.takeWhile_prefix _).eq_of_length hwhole
    rw [List.takeWhile_eq_self_iff] at hself
    constructor
    · exact fun hmem => (of_decide_eq_true (hself amp hmem)).1 rfl
    · exact fun hmem => (of_decide_eq_true (hself hash hmem)).2 rfl
  · next hshort =>
    exact absurd (Nat.le_antisymm (List.takeWhile_prefix _).length_le hlen) hshort

theorem writePair_clean (hname : Verbatim p.1) (ha : amp ∉ p.2) (hh : hash ∉ p.2) :
    amp ∉ writePair p ∧ hash ∉ writePair p := by
  constructor
  · simp only [writePair, List.mem_append, List.mem_cons, not_or]
    exact ⟨hname.noAmp, by decide, ha⟩
  · simp only [writePair, List.mem_append, List.mem_cons, not_or]
    exact ⟨hname.noHash, by decide, hh⟩

/-- A parameter whose value does not end early is read back if nothing in it is decoded. -/
theorem parsePair_writePair_iff (hname : Verbatim p.1 ∧ equals ∉ p.1) (ha : amp ∉ p.2)
    (hh : hash ∉ p.2) : parsePair (writePair p) = p ↔ Verbatim p.2 := by
  obtain ⟨n, v⟩ := p
  have hn : decode n = n := decode_eq_self_iff.mpr ⟨hname.1.noPlus, hname.1.noEscape⟩
  rw [parsePair_writePair hname.2, hn, Prod.ext_iff, decode_eq_self_iff]
  constructor
  · rintro ⟨-, hplus, hno⟩
    exact ⟨ha, hh, hplus, hno⟩
  · intro hv
    exact ⟨rfl, hv.noPlus, hv.noEscape⟩

/-- Written as they are, parameters are read back exactly if every value is verbatim. -/
theorem parseQuery_write_iff (hne : ps ≠ []) (hnames : ∀ p ∈ ps, Verbatim p.1 ∧ equals ∉ p.1) :
    parseQuery (write ps) = ps ↔ ∀ p ∈ ps, Verbatim p.2 := by
  induction ps using write.induct with
  | case1 => exact absurd rfl hne
  | case2 p =>
      have hname := hnames p (List.mem_singleton_self p)
      rw [List.forall_mem_singleton]
      constructor
      · intro h
        have hwhole := value_whole_of_head [] hname (by rw [List.append_nil]; exact h)
        obtain ⟨ha, hh⟩ := writePair_clean hname.1 hwhole.1 hwhole.2
        rw [write, parseQuery_single ha hh] at h
        exact (parsePair_writePair_iff hname hwhole.1 hwhole.2).mp (List.cons.inj h).1
      · intro hv
        obtain ⟨ha, hh⟩ := writePair_clean hname.1 hv.noAmp hv.noHash
        rw [write, parseQuery_single ha hh,
          (parsePair_writePair_iff hname hv.noAmp hv.noHash).mpr hv]
  | case3 p q ps ih =>
      have hname := hnames p (List.mem_cons_self ..)
      have ih := ih (List.cons_ne_nil q ps) fun r hr => hnames r (List.mem_cons_of_mem p hr)
      rw [List.forall_mem_cons, ← ih]
      constructor
      · intro h
        have hwhole := value_whole_of_head _ hname h
        obtain ⟨ha, hh⟩ := writePair_clean hname.1 hwhole.1 hwhole.2
        rw [write, parseQuery_cons ha hh] at h
        obtain ⟨hhead, htail⟩ := List.cons.inj h
        exact ⟨(parsePair_writePair_iff hname hwhole.1 hwhole.2).mp hhead, htail⟩
      · rintro ⟨hv, htail⟩
        obtain ⟨ha, hh⟩ := writePair_clean hname.1 hv.noAmp hv.noHash
        rw [write, parseQuery_cons ha hh,
          (parsePair_writePair_iff hname hv.noAmp hv.noHash).mpr hv, htail]

/-- What precedes the `?` does not matter. -/
theorem parse_append {pre : List UInt8} (h : question ∉ pre) :
    parse (pre ++ question :: query) = parseQuery query := by
  have hall : ∀ b ∈ pre, decide (b ≠ question) = true := fun b hb =>
    decide_eq_true fun heq => h (heq ▸ hb)
  rw [parse, List.dropWhile_append_of_pos hall, List.dropWhile_cons_of_neg (by decide)]
  rfl

end Parameters

end Query

/-
  TgFuse.Spec.Scalars

  Extraction against rendering: which scalars of a compact JSON text
  `parse_response_field_from_json` gives back as they were rendered.

  The end of a value is the first `','` or `'}'` behind it, quoted or not; the
  quotes are removed by position.  So a string comes back unless it has one of
  the two bytes in it, and everything else always does.
-/

import TgFuse.Model.Json

namespace TgFuse

open CString

-- ============================================================================
-- Scalars and their text
-- ============================================================================

/-- A byte that stands for itself in a JSON string: not a quote, not a backslash,
    not a control character. -/
def Literal (b : UInt8) : Prop := b ≠ quote ∧ b ≠ 92 ∧ 32 ≤ b

instance (b : UInt8) : Decidable (Literal b) :=
  inferInstanceAs (Decidable (b ≠ quote ∧ b ≠ 92 ∧ 32 ≤ b))

instance (v : List UInt8) : Decidable (∀ b ∈ v, Literal b) := List.decidableBAll Literal v

/-- A string that is rendered as it is, between quotes. -/
structure JsonString where
  bytes : List UInt8
  literal : ∀ b ∈ bytes, Literal b
deriving DecidableEq

/-- A scalar. -/
inductive Scalar where
  | string (s : JsonString)
  | integer (n : Int)
  | bool (b : Bool)
  | null
deriving DecidableEq

/-- The text of a scalar, without the quotes of a string. -/
def Scalar.content : Scalar → List UInt8
  | .string s => s.bytes
  | .integer n => text n.repr
  | .bool true => text "true"
  | .bool false => text "false"
  | .null => text "null"

/-- The text of a scalar. -/
def Scalar.render : Scalar → List UInt8
  | .string s => quote :: (s.bytes ++ [quote])
  | .integer n => (Scalar.integer n).content
  | .bool b => (Scalar.bool b).content
  | .null => Scalar.null.content

/-- A text with the field `field` of value `v` in it, rendered compactly and
    followed by `d`. -/
def fieldText (before field : List UInt8) (v : Scalar) (d : UInt8) (after : List UInt8) :
    List UInt8 :=
  before ++ quote :: (field ++ quote :: 58 :: (v.render ++ d :: after))

/-- The string `"true"`, which is not the value `true`. -/
def trueString : JsonString := ⟨text "true", by decide⟩

/-- Extraction of `field` from `mem` gives `v` back, in a zeroed destination of `n`
    bytes; and the status is `true` exactly if that is the value of `ok`. -/
def GivesBack (mem field : List UInt8) (v : Scalar) (n : Nat) : Prop :=
  parseResponseFieldFromJson (List.replicate n 0) mem field
      = some (0, v.content ++ List.replicate (n - v.content.length) 0) ∧
    (field = text "ok" → v.content.length < 100 →
      checkOkStatusInJson mem = some (decide (v = .bool true)))

instance (mem field : List UInt8) (v : Scalar) (n : Nat) : Decidable (GivesBack mem field v n) :=
  inferInstanceAs (Decidable (_ ∧ _))

-- ============================================================================
-- Digits
-- ============================================================================

/-- A decimal digit or the sign of an integer. -/
def IntegerByte (b : UInt8) : Prop := b = 45 ∨ 48 ≤ b ∧ b ≤ 57

theorem integerByte_of_isDigit {c : Char} (h : c.isDigit = true) : IntegerByte c.toUInt8 := by
  obtain ⟨h₁, h₂⟩ : 48 ≤ c.toNat ∧ c.toNat ≤ 57 := by
    simpa [Char.isDigit, UInt32.le_iff_toNat_le] using h
  have hnat : c.toUInt8.toNat = c.toNat := by
    show c.toNat % 256 = c.toNat
    omega
  apply Or.inr
  rw [UInt8.le_iff_toNat_le, UInt8.le_iff_toNat_le, hnat]
  exact ⟨h₁, h₂⟩

theorem integerByte_of_repr (n : Int) : ∀ b ∈ text n.repr, IntegerByte b := by
  have hdigits : ∀ m : Nat, ∀ b ∈ text m.repr, IntegerByte b := by
    intro m b hb
    obtain ⟨c, hc, rfl⟩ := List.mem_map.mp hb
    apply integerByte_of_isDigit
    rw [Nat.repr, String.toList_ofList] at hc
    exact Nat.isDigit_of_mem_toDigits (by decide) (by decide) hc
  intro b hb
  rw [Int.repr_eq_if] at hb
  split at hb
  · exact hdigits _ b hb
  · rw [text, String.toList_append, List.map_append, List.mem_append] at hb
    rcases hb with hb | hb
    · rw [show List.map Char.toUInt8 "-".toList = [45] by decide] at hb
      exact Or.inl (List.mem_singleton.mp hb)
    · exact hdigits _ b hb

theorem IntegerByte.plain {b : UInt8} (h : IntegerByte b) : b ≠ 0 ∧ b ∉ valueEnd ∧ b ≠ quote := by
  refine ⟨?_, ?_, ?_⟩
  · rintro rfl
    exact absurd h (by unfold IntegerByte; decide)
  · intro hb
    rw [show valueEnd = [44, 125] by decide, List.mem_cons, List.mem_singleton] at hb
    rcases hb with rfl | rfl
    · exact absurd h (by unfold IntegerByte; decide)
    · exact absurd h (by unfold IntegerByte; decide)
  · rintro rfl
    exact absurd h (by unfold IntegerByte; decide)

-- ============================================================================
-- Values
-- ============================================================================

/-- A string comes back if no delimiter stands in it. -/
def Scalar.Undelimited (v : Scalar) : Prop := ∀ s, v = .string s → ∀ b ∈ s.bytes, b ∉ valueEnd

theorem JsonString.zero_notMem (s : JsonString) : 0 ∉ s.bytes := fun h =>
  absurd (s.literal 0 h).2.2 (by decide)

theorem Scalar.zero_notMem_content (v : Scalar) : 0 ∉ v.content := by
  cases v with
  | string s => exact s.zero_notMem
  | integer n => exact fun h => (integerByte_of_repr n 0 h).plain.1 rfl
  | bool b => cases b <;> decide
  | null => decide

/-- Only a string can have a delimiter in it. -/
theorem Scalar.plain_content_iff (v : Scalar) : Plain v.content ↔ v.Undelimited := by
  constructor
  · rintro h s rfl b hb
    exact (h b hb).2
  · intro h
    cases v with
    | string s =>
        intro b hb
        exact ⟨fun h0 => s.zero_notMem (h0 ▸ hb), h s rfl b hb⟩
    | integer n => exact fun b hb => ⟨(integerByte_of_repr n b hb).plain.1,
        (integerByte_of_repr n b hb).plain.2.1⟩
    | bool b => cases b <;> decide
    | null => decide

/-- A rendered scalar without delimiters is read as its content. -/
theorem Scalar.valueAt_render {v : Scalar} (h : Plain v.content) {d : UInt8} (hd : d ∈ valueEnd)
    (rest : List UInt8) : ValueAt (v.render ++ d :: rest) v.content := by
  cases v with
  | string s =>
      show ValueAt (quote :: (s.bytes ++ [quote]) ++ d :: rest) s.bytes
      rw [List.cons_append, List.append_assoc]
      exact valueAt_quoted h hd rest
  | integer n =>
      refine ⟨_, d, rest, rfl, h, hd, Or.inl ⟨?_, rfl⟩⟩
      intro hq
      exact (integerByte_of_repr n quote (List.mem_of_mem_head? hq)).plain.2.2 rfl
  | bool b => exact ⟨_, d, rest, rfl, h, hd, Or.inl ⟨by cases b <;> decide, rfl⟩⟩
  | null => exact ⟨_, d, rest, rfl, h, hd, Or.inl ⟨by decide, rfl⟩⟩

/-- `true` and the string `"true"` have the same content, and nothing else has it. -/
theorem Scalar.content_eq_true_iff (v : Scalar) :
    v.content = text "true" ↔ v = .bool true ∨ v = .string trueString := by
  cases v with
  | string s =>
      constructor
      · intro h
        right
        cases s
        cases h
        rfl
      · rintro (h | h)
        · cases h
        · cases h
          rfl
  | integer n =>
      constructor
      · intro h
        have hmem : 116 ∈ text n.repr := by
          rw [show text n.repr = text "true" from h]
          decide
        exact absurd (integerByte_of_repr n 116 hmem) (by unfold IntegerByte; decide)
      · rintro (h | h) <;> cases h
  | bool b =>
      cases b with
      | true => simp [Scalar.content]
      | false =>
          simp only [Scalar.content, Scalar.bool.injEq, Bool.false_eq_true, reduceCtorEq, or_self,
            iff_false]
          decide
  | null =>
      simp only [Scalar.content, reduceCtorEq, or_self, iff_false]
      decide

-- ============================================================================
-- The law
-- ============================================================================

section Law

variable {before field after : List UInt8} {v : Scalar} {d : UInt8} {n : Nat}

/-- Extraction goes on right behind the colon. -/
theorem parse_fieldText (dst : List UInt8)
    (hfirst : strstr (fieldText before field v d after) field = some (before.length + 1)) :
    parseResponseFieldFromJson dst (fieldText before field v d after) field
      = copyValue dst (v.render ++ d :: after) := by
  have hdrop : (fieldText before field v d after).drop (before.length + 1 + field.length + 2)
      = v.render ++ d :: after := by
    have hsplit : fieldText before field v d after
        = (before ++ quote :: (field ++ [quote, 58])) ++ (v.render ++ d :: after) := by
      simp [fieldText]
    rw [hsplit]
    exact List.drop_left' (by simp; omega)
  rw [parseResponseFieldFromJson, hfirst]
  exact congrArg (copyValue dst) hdrop

/-- The value comes back exactly if no delimiter stands in it. -/
theorem parse_content_iff
    (hfirst : strstr (fieldText before field v d after) field = some (before.length + 1))
    (hd : d ∈ valueEnd) (hlen : v.content.length < n) (hn : n + 2 < 2 ^ 64)
    (hmem : (fieldText before field v d after).length < 2 ^ 64) :
    parseResponseFieldFromJson (List.replicate n 0) (fieldText before field v d after) field
      = some (0, v.content ++ List.replicate (n - v.content.length) 0) ↔ v.Undelimited := by
  rw [parse_fieldText _ hfirst, ← v.plain_content_iff]
  have hrest : (v.render ++ d :: after).length < 2 ^ 64 := by
    simp only [fieldText, List.length_append, List.length_cons] at hmem ⊢
    omega
  constructor
  · intro h
    rcases copyValue_inv (by simpa using hn) hrest h with hout | ⟨w, hw, -, hout⟩
    · -- nothing was copied, so there is nothing to copy
      have hstr := congrArg cstr hout
      rw [cstr_append_replicate v.zero_notMem_content] at hstr
      rw [hstr]
      intro b hb
      have hz := cstr_append_replicate (s := []) List.not_mem_nil n
      rw [List.nil_append] at hz
      rw [hz] at hb
      cases hb
    · have hstr := congrArg cstr hout
      rw [cstr_append_replicate v.zero_notMem_content, List.drop_replicate,
        cstr_append_replicate hw.plain.zero_notMem] at hstr
      rw [hstr]
      exact hw.plain
  · intro h
    rw [copyValue_of_valueAt (v.valueAt_render h hd after)
      (by rw [List.length_replicate]; omega) (by omega), List.drop_replicate]

/-- What is read back as the status. -/
theorem check_fieldText
    (hfirst : strstr (fieldText before (text "ok") v d after) (text "ok")
      = some (before.length + 1))
    (hd : d ∈ valueEnd) (hlen : v.content.length < 100)
    (hmem : (fieldText before (text "ok") v d after).length < 2 ^ 64) (hv : v.Undelimited) :
    checkOkStatusInJson (fieldText before (text "ok") v d after)
      = some (decide (v = .bool true ∨ v = .string trueString)) := by
  have hparse := (parse_content_iff hfirst hd hlen (by decide) hmem).mpr hv
  rw [checkOkStatusInJson, hparse]
  show some (decide (cstr _ = _)) = _
  rw [cstr_append_replicate v.zero_notMem_content]
  exact congrArg some (decide_eq_decide.mpr v.content_eq_true_iff)

/-- Extraction undoes rendering exactly for the scalars without delimiters, and
    the status is taken for `true` where it is the string `"true"`. -/
theorem gives_back_iff
    (hfirst : strstr (fieldText before field v d after) field = some (before.length + 1))
    (hd : d ∈ valueEnd) (hlen : v.content.length < n) (hn : n + 2 < 2 ^ 64)
    (hmem : (fieldText before field v d after).length < 2 ^ 64) :
    GivesBack (fieldText before field v d after) field v n ↔
      (∀ s, v = .string s → ∀ b ∈ s.bytes, b ∉ text ",\x7d") ∧
        (field = text "ok" → v ≠ .string trueString) := by
  rw [GivesBack, parse_content_iff hfirst hd hlen hn hmem]
  apply and_congr_right
  intro hv
  constructor
  · rintro hok rfl rfl
    have hcheck := hok rfl (by decide)
    rw [check_fieldText hfirst hd (by decide) hmem hv] at hcheck
    exact absurd hcheck (by decide)
  · rintro hne rfl hshort
    rw [check_fieldText hfirst hd hshort hmem hv]
    have hno := hne rfl
    simp [hno]

/-- The answer to `getFile`, with the path of the file in it. -/
theorem gives_back_iff_sample :
    GivesBack (fieldText (text "\x7b\"ok\":true,\"result\":\x7b") (text "file_path")
      (.string ⟨text "documents/a b", by decide⟩) 125 (text "\x7d")) (text "file_path")
      (.string ⟨text "documents/a b", by decide⟩) 100 := by
  apply (gives_back_iff (by decide) (by decide) (by decide) (by decide) (by decide)).mpr
  refine ⟨?_, fun h => absurd h (by decide)⟩
  intro s hs
  cases hs
  decide +kernel

/-- A file whose name has a comma in it. -/
theorem delimited_string_is_cut :
    strstr (fieldText (text "\x7b\"ok\":true,\"result\":\x7b") (text "file_path")
      (.string ⟨text "documents/a,b", by decide⟩) 125 (text "\x7d")) (text "file_path")
      = some 22 ∧
    ¬ GivesBack (fieldText (text "\x7b\"ok\":true,\"result\":\x7b") (text "file_path")
      (.string ⟨text "documents/a,b", by decide⟩) 125 (text "\x7d")) (text "file_path")
      (.string ⟨text "documents/a,b", by decide⟩) 100 := by
  decide

end Law

end TgFuse

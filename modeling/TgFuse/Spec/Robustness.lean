/-
  TgFuse.Spec.Robustness

  Extraction from whatever the network delivered: on which texts
  `parse_response_field_from_json` stays inside of the text and of a field of
  100 bytes.

  The text lies in a block that ends with its terminator, so that an access
  behind it is an access outside of the block.
-/

import TgFuse.Model.Json

namespace TgFuse

open CString

/-- The block of a string. -/
def terminated (s : List UInt8) : List UInt8 := s ++ [0]

/-- What is asked of an extraction of `field` from the string `s` into `dst`. -/
structure RobustInto (s field dst : List UInt8) : Prop where
  /-- It returns 1 and leaves the destination alone, or it returns 0 and has copied
      a part of the string that leaves room for a NUL. -/
  returns : parseResponseFieldFromJson dst (terminated s) field = some (1, dst) ∨
    ∃ a w b, s = a ++ w ++ b ∧ w.length < 100 ∧
      parseResponseFieldFromJson dst (terminated s) field = some (0, w ++ dst.drop w.length)
  /-- The value starts in the string or at its terminator. -/
  inside : ∀ m, strstr (terminated s) field = some m → m + field.length + 2 ≤ s.length
  /-- A field that does not occur is reported. -/
  absent : ¬ field <:+: s → parseResponseFieldFromJson dst (terminated s) field = some (1, dst)
  /-- And so is a missing status. -/
  status : field = text "ok" → ¬ field <:+: s → checkOkStatusInJson (terminated s) = some false

/-- The same for every destination of 100 bytes. -/
def Robust (s field : List UInt8) : Prop := ∀ dst, dst.length = 100 → RobustInto s field dst

/-- Where it goes well: the field occurs, two bytes follow it, and what follows
    them has no delimiter, or has it near enough; behind a quote it must have
    another byte before the delimiter. -/
def Extractable (s field : List UInt8) : Prop :=
  ∃ m, strstr (terminated s) field = some m ∧ m + field.length + 2 ≤ s.length ∧
    ∀ e, strpbrk (s.drop (m + field.length + 2)) valueEnd = some e →
      if (s.drop (m + field.length + 2)).head? = some quote then 2 ≤ e ∧ e < 102 else e < 100

-- ============================================================================
-- One destination
-- ============================================================================

section Copy

variable {s field dst v : List UInt8}

theorem cstr_terminated (hs : 0 ∉ s) : cstr (terminated s) = s := cstr_append_zero hs []

/-- A terminated text has a delimiter where the text has it. -/
theorem strpbrk_terminated (hv : 0 ∉ v) :
    strpbrk (terminated v) valueEnd = strpbrk v valueEnd := by
  rw [strpbrk, cstr_terminated hv, strpbrk, cstr_eq_self hv]

/-- No delimiter: nothing is copied. -/
theorem copyValue_terminated_none (hv : 0 ∉ v) (he : strpbrk v valueEnd = none) :
    copyValue dst (terminated v) = some (1, dst) := by
  have hz : 0 ∈ terminated v := by simp [terminated]
  have hmatch := strpbrk_terminated hv
  rw [he] at hmatch
  cases h : terminated v with
  | nil =>
      rw [h] at hz
      cases hz
  | cons c q =>
      rw [h] at hz hmatch
      simp only [copyValue, hmatch, if_pos hz]

/-- A delimiter: what stands before it is copied, if it fits. -/
theorem copyValue_terminated_some (hlen : v.length < 2 ^ 64) {e : Nat}
    (he : strpbrk v valueEnd = some e) (hdst : dst.length = 100) :
    (if v.head? = some quote then 2 ≤ e ∧ e ≤ 102 else e ≤ 100) ∧
        (∃ a w b, v = a ++ w ++ b ∧ 0 ∉ w ∧
          w.length = (if v.head? = some quote then e - 2 else e) ∧
          copyValue dst (terminated v) = some (0, w ++ dst.drop w.length)) ∨
      ¬ (if v.head? = some quote then 2 ≤ e ∧ e ≤ 102 else e ≤ 100) ∧
        copyValue dst (terminated v) = none := by
  obtain ⟨u, d, rest, rfl, hu, hd, rfl⟩ := strpbrk_inv he
  have hblock : terminated (u ++ d :: rest) = u ++ d :: (rest ++ [0]) := by simp [terminated]
  rw [List.length_append] at hlen
  rw [hblock]
  rcases quoted_cases u with hhead | rfl | ⟨w, x, rfl⟩
  · have hne : ¬ (u ++ d :: rest).head? = some quote := by
      cases u with
      | nil => exact fun h => quote_notMem_valueEnd (Option.some.inj h ▸ hd)
      | cons c u => exact hhead
    rw [if_neg hne, if_neg hne, copyValue_plain dst _ hu hd hhead, hdst]
    by_cases hfit : u.length ≤ 100
    · exact Or.inl ⟨hfit, [], u, d :: rest, rfl, hu.zero_notMem, rfl, if_pos hfit⟩
    · exact Or.inr ⟨hfit, if_neg hfit⟩
  · have hq : ([quote] ++ d :: rest).head? = some quote := rfl
    rw [if_pos hq, if_pos hq]
    exact Or.inr ⟨by simp, copyValue_lone_quote _ hd (by omega)⟩
  · have hq : (quote :: (w ++ [x]) ++ d :: rest).head? = some quote := rfl
    have hl : (quote :: (w ++ [x])).length = w.length + 2 := by simp
    have hw : 0 ∉ w := fun h => hu.zero_notMem (by simp [h])
    rw [if_pos hq, if_pos hq, copyValue_quoted dst _ hu hd (by omega), hdst, hl]
    by_cases hfit : w.length ≤ 100
    · exact Or.inl ⟨by omega, [quote], w, x :: d :: rest, by simp, hw, rfl, if_pos hfit⟩
    · exact Or.inr ⟨by omega, if_neg hfit⟩

/-- Extraction from a string goes on with the rest of it. -/
theorem parse_terminated {m : Nat} (hm : strstr (terminated s) field = some m)
    (hin : m + field.length + 2 ≤ s.length) :
    parseResponseFieldFromJson dst (terminated s) field
      = copyValue dst (terminated (s.drop (m + field.length + 2))) := by
  rw [parseResponseFieldFromJson, hm]
  show copyValue dst ((s ++ [0]).drop _) = _
  rw [List.drop_append_of_le_length hin]
  rfl

end Copy

-- ============================================================================
-- The law
-- ============================================================================

section Law

variable {s field : List UInt8}

/-- A zeroed destination shows how much has been copied into it. -/
theorem length_of_copied {w w' : List UInt8} (hw : 0 ∉ w)
    (h : w ++ (List.replicate 100 (0 : UInt8)).drop w.length
      = w' ++ (List.replicate 100 (0 : UInt8)).drop w'.length) : w.length ≤ w'.length := by
  have hstr := congrArg cstr h
  rw [List.drop_replicate, List.drop_replicate, cstr_append_replicate hw] at hstr
  by_cases hz : 0 ∈ w'
  · rw [cstr_append_of_mem hz] at hstr
    rw [hstr]
    exact (List.takeWhile_sublist _).length_le
  · rw [cstr_append_replicate hz] at hstr
    rw [hstr]

theorem Robust.extractable (hlen : s.length < 2 ^ 64) (h : Robust s field) :
    Extractable s field := by
  have hzero : (List.replicate 100 (0 : UInt8)).length = 100 := List.length_replicate ..
  obtain ⟨hret, hinside, -, -⟩ := h _ hzero
  cases hm : strstr (terminated s) field with
  | none =>
      have hfault : parseResponseFieldFromJson (List.replicate 100 0) (terminated s) field
          = none := by
        rw [parseResponseFieldFromJson, hm]
      rw [hfault] at hret
      rcases hret with h | ⟨_, _, _, _, _, h⟩ <;> cases h
  | some m =>
      have hin := hinside m hm
      refine ⟨m, hm, hin, ?_⟩
      intro e he
      rw [parse_terminated hm hin] at hret
      have hvlen := length_drop_lt hlen (m + field.length + 2)
      rcases copyValue_terminated_some hvlen he hzero with
        ⟨hfit, a, w, b, -, hw, hwlen, hcopy⟩ | ⟨-, hfault⟩
      · rw [hcopy] at hret
        rcases hret with h | ⟨_, w', _, _, hshort, h⟩
        · cases h
        · -- what was copied leaves room for a NUL
          have hle := length_of_copied hw (Prod.mk.inj (Option.some.inj h)).2
          split at hwlen
          · next hq =>
            rw [if_pos hq] at hfit ⊢
            omega
          · next hq =>
            rw [if_neg hq]
            omega
      · rw [hfault] at hret
        rcases hret with h | ⟨_, _, _, _, _, h⟩ <;> cases h

theorem Extractable.robust (hs : 0 ∉ s) (hlen : s.length < 2 ^ 64) (h : Extractable s field) :
    Robust s field := by
  obtain ⟨m, hm, hin, hvalue⟩ := h
  intro dst hdst
  have hv : 0 ∉ s.drop (m + field.length + 2) := fun h => hs (List.mem_of_mem_drop h)
  have hvlen := length_drop_lt hlen (m + field.length + 2)
  have hocc : field <:+: s := by
    have hpre := prefix_drop_of_findSub hm
    rw [cstr_terminated hs] at hpre
    exact hpre.isInfix.trans (List.drop_suffix m s).isInfix
  refine ⟨?_, ?_, fun h => absurd hocc h, fun _ h => absurd hocc h⟩
  · rw [parse_terminated hm hin]
    cases he : strpbrk (s.drop (m + field.length + 2)) valueEnd with
    | none => exact Or.inl (copyValue_terminated_none hv he)
    | some e =>
        have hnear := hvalue e he
        rcases copyValue_terminated_some hvlen he hdst with
          ⟨-, a, w, b, hsplit, -, hwlen, hcopy⟩ | ⟨hno, -⟩
        · refine Or.inr ⟨s.take (m + field.length + 2) ++ a, w, b, ?_, ?_, hcopy⟩
          · have hall := (List.take_append_drop (m + field.length + 2) s).symm
            rw [hsplit] at hall
            simpa using hall
          · split at hnear
            · next hq =>
              rw [if_pos hq] at hwlen
              omega
            · next hq =>
              rw [if_neg hq] at hwlen
              omega
        · exfalso
          split at hnear
          · next hq =>
            rw [if_pos hq] at hno
            omega
          · next hq =>
            rw [if_neg hq] at hno
            omega
  · intro m' hm'
    rw [hm] at hm'
    cases hm'
    exact hin

/-- Extraction is robust exactly where the text is extractable. -/
theorem robust_iff (hs : 0 ∉ s) (hlen : s.length < 2 ^ 64) :
    Robust s field ↔ Extractable s field :=
  ⟨Robust.extractable hlen, Extractable.robust hs hlen⟩

/-- The status of a refusal. -/
theorem robust_iff_sample : Robust (text "\x7b\"ok\":false\x7d") (text "ok") := by
  apply (robust_iff (by decide) (by decide)).mpr
  refine ⟨2, by decide, by decide, ?_⟩
  intro e he
  obtain rfl : e = 5 := by
    rw [show strpbrk _ valueEnd = some 5 by decide] at he
    exact (Option.some.inj he).symm
  decide

/-- An empty response and one without the field, and a quote before a delimiter:
    the status of each is undefined. -/
theorem extraction_is_not_robust :
    (¬ Robust [] (text "ok") ∧ checkOkStatusInJson (terminated []) = none) ∧
    (¬ Robust (text "<html>") (text "ok") ∧
      checkOkStatusInJson (terminated (text "<html>")) = none) ∧
    ¬ Robust (text "\x7b\"ok\":\",\x7d") (text "ok") := by
  have hfault : ∀ s : List UInt8, parseResponseFieldFromJson (List.replicate 100 0) (terminated s)
      (text "ok") = none → ¬ Robust s (text "ok") := by
    intro s h hrob
    obtain ⟨hret, -, -, -⟩ := hrob _ (List.length_replicate ..)
    rw [h] at hret
    rcases hret with h | ⟨_, _, _, _, _, h⟩ <;> cases h
  refine ⟨⟨hfault _ (by decide), by decide⟩, ⟨hfault _ (by decide), by decide⟩, hfault _ ?_⟩
  decide

end Law

end TgFuse

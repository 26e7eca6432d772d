/-
  TgFuse.Model.Json

  The JSON side of `buffer.c` and `tg_file.c`: the field extractor
  `parse_response_field_from_json`, `check_ok_status_in_json`, and the write
  callback `curl_response_json_writer` that fills `json_response_buf`.

  Everything works on memory, not on strings: `src` is the block from the
  response's first byte to the end of its array, `dst` the block from the
  destination's first byte to the end of its object.  `none` is a read or a
  write outside of the block, or the dereference of `NULL`.
-/

import TgFuse.Lib.CString
import TgFuse.Model.Buffer

namespace TgFuse

open CString

/-- `JSON_RESPONSE_BUF_SIZE`. -/
def jsonResponseBufSize : Nat := 1024

/-- `",}"`, the delimiters that end a value. -/
def valueEnd : List UInt8 := text ",\x7d"

/-- `'\"'`. -/
def quote : UInt8 := 34

/-- The part of `parse_response_field_from_json` from `*p` on, `p` being the
    memory at the value. -/
def copyValue (dst p : List UInt8) : Option (Nat × List UInt8) :=
  match p with
  | [] => none
  | c :: q =>
      match strpbrk p valueEnd with
      | none => if 0 ∈ p then some (1, dst) else none
      | some e =>
          if c = quote then
            -- `e - p - 2` is a `size_t`
            (strncpy dst q (sizeSub e 2)).map fun d => (0, d)
          else (strncpy dst p e).map fun d => (0, d)

/-- `parse_response_field_from_json`: the return value and the memory at `dst`
    afterwards.  When the field does not occur, `strstr` gives `NULL`, which is
    moved and dereferenced. -/
def parseResponseFieldFromJson (dst src field : List UInt8) : Option (Nat × List UInt8) :=
  match strstr src field with
  | none => none
  | some m => copyValue dst (src.drop (m + field.length + 2))

/-- `check_ok_status_in_json`. -/
def checkOkStatusInJson (jsonResponseBuf : List UInt8) : Option Bool :=
  match parseResponseFieldFromJson (List.replicate 100 0) jsonResponseBuf (text "ok") with
  | none => none
  | some (res, isOk) => if res ≠ 0 then some false else some (cstr isOk = text "true")

/-- `curl_response_json_writer`: every chunk lands at the start of the buffer. -/
def curlResponseJsonWriter (p : CharArray jsonResponseBufSize) (data : List UInt8) :
    Option (CharArray jsonResponseBufSize) :=
  (memcpyAt p.bytes 0 data).map CharArray.ofList

/-- A chunk that fits lies at the start of the buffer, over whatever was there. -/
theorem curlResponseJsonWriter_eq_some {p b : CharArray jsonResponseBufSize} {data : List UInt8} :
    curlResponseJsonWriter p data = some b ↔
      data.length ≤ jsonResponseBufSize ∧ b.bytes = data ++ p.bytes.drop data.length := by
  have hlen : data.length ≤ jsonResponseBufSize →
      (data ++ p.bytes.drop data.length).length = jsonResponseBufSize := by
    intro h
    rw [List.length_append, List.length_drop, p.length_bytes]
    omega
  rw [curlResponseJsonWriter]
  constructor
  · intro h
    obtain ⟨mem, hmem, rfl⟩ := Option.map_eq_some_iff.mp h
    obtain ⟨hfit, rfl⟩ := memcpyAt_inv hmem
    rw [p.length_bytes, Nat.zero_add] at hfit
    refine ⟨hfit, ?_⟩
    rw [List.take_zero, List.nil_append, Nat.zero_add]
    exact CharArray.bytes_ofList_of_length (hlen hfit)
  · rintro ⟨hfit, hb⟩
    rw [memcpyAt_eq_some (by rw [p.length_bytes, Nat.zero_add]; exact hfit), List.take_zero,
      List.nil_append, Nat.zero_add, ← hb, Option.map_some, CharArray.ofList_bytes]

/-- Every chunk that fits is stored. -/
theorem curlResponseJsonWriter_some (p : CharArray jsonResponseBufSize) {data : List UInt8}
    (h : data.length ≤ jsonResponseBufSize) : ∃ b, curlResponseJsonWriter p data = some b ∧
      b.bytes = data ++ p.bytes.drop data.length := by
  have hlen : (data ++ p.bytes.drop data.length).length = jsonResponseBufSize := by
    rw [List.length_append, List.length_drop, p.length_bytes]
    omega
  exact ⟨⟨_, hlen⟩, curlResponseJsonWriter_eq_some.mpr ⟨h, rfl⟩, rfl⟩

-- ============================================================================
-- Values that are read back
-- ============================================================================

/-- The bytes that end a value or the text do not occur in it. -/
def Plain (v : List UInt8) : Prop := ∀ b ∈ v, b ≠ 0 ∧ b ∉ valueEnd

instance (v : List UInt8) : Decidable (Plain v) :=
  List.decidableBAll (fun b => b ≠ 0 ∧ b ∉ valueEnd) v

theorem Plain.zero_notMem {v : List UInt8} (h : Plain v) : 0 ∉ v :=
  fun h0 => (h 0 h0).1 rfl

theorem Plain.cons {b : UInt8} {v : List UInt8} (hb : b ≠ 0 ∧ b ∉ valueEnd) (hv : Plain v) :
    Plain (b :: v) := by
  intro x hx
  rcases List.mem_cons.mp hx with rfl | hx
  · exact hb
  · exact hv x hx

theorem Plain.append {v w : List UInt8} (hv : Plain v) (hw : Plain w) : Plain (v ++ w) := by
  intro x hx
  rcases List.mem_append.mp hx with hx | hx
  · exact hv x hx
  · exact hw x hx

/-- The first delimiter stands right after a plain text. -/
theorem strpbrk_plain {v : List UInt8} {d : UInt8} (hv : Plain v) (hd : d ∈ valueEnd)
    (rest : List UInt8) : strpbrk (v ++ d :: rest) valueEnd = some v.length := by
  have hd0 : d ≠ 0 := by
    rintro rfl
    exact absurd hd (by decide)
  induction v with
  | nil => simp [strpbrk, cstr, List.findIdx?_cons, hd0, hd]
  | cons b v ih =>
      obtain ⟨hb0, hb⟩ := hv b (List.mem_cons_self ..)
      have hv' : Plain v := fun x hx => hv x (List.mem_cons_of_mem _ hx)
      have h := ih hv'
      simp only [strpbrk] at h ⊢
      simp [cstr, List.findIdx?_cons, hb0, hb] at h ⊢
      exact h

theorem quote_notMem_valueEnd : quote ∉ valueEnd := by decide

/-- An unquoted value is copied up to its delimiter, if it fits. -/
theorem copyValue_plain (dst rest : List UInt8) {v : List UInt8} {d : UInt8} (hv : Plain v)
    (hd : d ∈ valueEnd) (hq : v.head? ≠ some quote) :
    copyValue dst (v ++ d :: rest)
      = if v.length ≤ dst.length then some (0, v ++ dst.drop v.length) else none := by
  have he := strpbrk_plain hv hd rest
  have hcopy := strncpy_append hv.zero_notMem dst (d :: rest)
  cases v with
  | nil =>
      have hdq : d ≠ quote := fun h => quote_notMem_valueEnd (h ▸ hd)
      simp only [List.nil_append] at he hcopy ⊢
      simp only [copyValue, he, if_neg hdq, hcopy]
      split <;> rfl
  | cons c v =>
      have hcq : c ≠ quote := by simpa using hq
      simp only [List.cons_append] at he hcopy ⊢
      simp only [copyValue, he, if_neg hcq, hcopy]
      split <;> rfl

/-- A quoted value is copied without its first byte and its last one. -/
theorem copyValue_quoted (dst rest : List UInt8) {v : List UInt8} {q d : UInt8}
    (hall : Plain (quote :: (v ++ [q]))) (hd : d ∈ valueEnd) (hfit : v.length + 2 < 2 ^ 64) :
    copyValue dst (quote :: (v ++ [q]) ++ d :: rest)
      = if v.length ≤ dst.length then some (0, v ++ dst.drop v.length) else none := by
  have hv : 0 ∉ v := fun h => hall.zero_notMem (by simp [h])
  have hcopy := strncpy_append hv dst (q :: d :: rest)
  have hn : sizeSub (quote :: (v ++ [q])).length 2 = v.length := by
    have hl : (quote :: (v ++ [q])).length = v.length + 2 := by simp
    rw [hl, sizeSub_of_le (by omega) (by omega)]
    omega
  show (match strpbrk (quote :: (v ++ [q]) ++ d :: rest) valueEnd with
    | none => _
    | some e => if quote = quote then
        (strncpy dst (v ++ [q] ++ d :: rest) (sizeSub e 2)).map _ else _) = _
  rw [strpbrk_plain hall hd rest, List.append_assoc, List.singleton_append]
  simp only [if_true, hn, hcopy]
  split <;> rfl

/-- Where the quote is followed by the delimiter, the length to copy wraps. -/
theorem copyValue_lone_quote {dst : List UInt8} (rest : List UInt8) {d : UInt8}
    (hd : d ∈ valueEnd) (hdst : dst.length + 1 < 2 ^ 64) :
    copyValue dst ([quote] ++ d :: rest) = none := by
  have he : strpbrk ([quote] ++ d :: rest) valueEnd = some 1 :=
    strpbrk_plain (Plain.cons (by decide) fun _ h => absurd h List.not_mem_nil) hd rest
  have hbig : ¬ sizeSub 1 2 ≤ dst.length := by
    unfold sizeSub sizeT
    omega
  rw [List.singleton_append] at he ⊢
  simp only [copyValue, he, if_true, strncpy, if_neg hbig]
  rfl

/-- A value is unquoted, a lone quote, or quoted with a last byte to leave out. -/
theorem quoted_cases (v : List UInt8) :
    v.head? ≠ some quote ∨ v = [quote] ∨ ∃ w x, v = quote :: (w ++ [x]) := by
  cases v with
  | nil => exact Or.inl (by decide)
  | cons c u =>
      by_cases hc : c = quote
      · subst hc
        rcases List.eq_nil_or_concat u with rfl | ⟨w, x, rfl⟩
        · exact Or.inr (Or.inl rfl)
        · exact Or.inr (Or.inr ⟨w, x, by rw [List.concat_eq_append]⟩)
      · exact Or.inl (fun h => hc (Option.some.inj h))

/-- What the text `v` before a delimiter is read as: itself, or, when it starts
    with a quote, what is left without its first byte and its last one. -/
def ReadAs (v w : List UInt8) : Prop :=
  (v.head? ≠ some quote ∧ w = v) ∨ ∃ x, v = quote :: (w ++ [x])

/-- The value at `p`, up to the first delimiter, is read as `w`. -/
def ValueAt (p w : List UInt8) : Prop :=
  ∃ v d rest, p = v ++ d :: rest ∧ Plain v ∧ d ∈ valueEnd ∧ ReadAs v w

theorem ValueAt.plain {p w : List UInt8} (h : ValueAt p w) : Plain w := by
  obtain ⟨v, d, rest, -, hv, -, ⟨-, rfl⟩ | ⟨x, rfl⟩⟩ := h
  · exact hv
  · exact fun b hb => hv b (by simp [hb])

theorem strpbrk_inv {p : List UInt8} {e : Nat} (h : strpbrk p valueEnd = some e) :
    ∃ v d rest, p = v ++ d :: rest ∧ Plain v ∧ d ∈ valueEnd ∧ e = v.length := by
  induction p generalizing e with
  | nil => cases h
  | cons b p ih =>
      by_cases hb0 : b = 0
      · simp [strpbrk, cstr, hb0] at h
      · by_cases hb : b ∈ valueEnd
        · refine ⟨[], b, p, rfl, by simp [Plain], hb, ?_⟩
          simpa [strpbrk, cstr, hb0, hb, List.findIdx?_cons, eq_comm] using h
        · have hmap : (strpbrk p valueEnd).map (· + 1) = some e := by
            simpa [strpbrk, cstr, hb0, hb, List.findIdx?_cons] using h
          obtain ⟨k, hk, rfl⟩ := Option.map_eq_some_iff.mp hmap
          obtain ⟨v, d, rest, rfl, hv, hd, rfl⟩ := ih hk
          exact ⟨b :: v, d, rest, rfl, hv.cons ⟨hb0, hb⟩, hd, rfl⟩

/-- The text at `p` is read in one way only. -/
theorem ValueAt.unique {p w w' : List UInt8} (h : ValueAt p w) (h' : ValueAt p w') : w = w' := by
  obtain ⟨v, d, rest, rfl, hv, hd, hread⟩ := h
  obtain ⟨v', d', rest', heq, hv', hd', hread'⟩ := h'
  obtain rfl : v = v' := by
    have hlen := strpbrk_plain hv hd rest
    rw [heq, strpbrk_plain hv' hd' rest'] at hlen
    exact List.append_inj_left heq (Option.some.inj hlen).symm
  rcases hread with ⟨hhead, rfl⟩ | ⟨x, rfl⟩
  · rcases hread' with ⟨-, rfl⟩ | ⟨y, rfl⟩
    · rfl
    · exact absurd rfl hhead
  · rcases hread' with ⟨hhead, -⟩ | ⟨y, hy⟩
    · exact absurd rfl hhead
    · exact List.append_inj_left' (List.cons.inj hy).2 rfl

/-- What follows the delimiter does not matter. -/
theorem valueAt_append_iff {p w : List UInt8} (hp : ∃ d ∈ p, d ∈ valueEnd) (stale : List UInt8) :
    ValueAt (p ++ stale) w ↔ ValueAt p w := by
  constructor
  · rintro ⟨v, d, rest, heq, hv, hd, hread⟩
    rcases List.append_eq_append_iff.mp heq with ⟨u, rfl, -⟩ | ⟨u, rfl, hu⟩
    · obtain ⟨x, hx, hxd⟩ := hp
      exact absurd hxd (hv x (List.mem_append_left _ hx)).2
    · cases u with
      | nil =>
          obtain ⟨x, hx, hxd⟩ := hp
          exact absurd hxd (hv x (by simpa using hx)).2
      | cons y u =>
          obtain ⟨rfl, -⟩ := List.cons.inj hu
          exact ⟨v, d, u, rfl, hv, hd, hread⟩
  · rintro ⟨v, d, rest, rfl, hv, hd, hread⟩
    exact ⟨v, d, rest ++ stale, by simp, hv, hd, hread⟩

/-- A quoted value with its delimiter. -/
theorem valueAt_quoted {w : List UInt8} {d : UInt8} (hw : Plain w) (hd : d ∈ valueEnd)
    (rest : List UInt8) : ValueAt (quote :: (w ++ quote :: d :: rest)) w := by
  refine ⟨quote :: (w ++ [quote]), d, rest, by simp, ?_, hd, Or.inr ⟨quote, rfl⟩⟩
  exact Plain.cons (by decide) (hw.append (Plain.cons (by decide) fun _ h => nomatch h))

/-- A value that fits is copied. -/
theorem copyValue_of_valueAt {dst p w : List UInt8} (h : ValueAt p w) (hlen : w.length ≤ dst.length)
    (hfit : w.length + 2 < 2 ^ 64) : copyValue dst p = some (0, w ++ dst.drop w.length) := by
  obtain ⟨v, d, rest, rfl, hv, hd, ⟨hhead, rfl⟩ | ⟨x, rfl⟩⟩ := h
  · rw [copyValue_plain dst rest hv hd hhead, if_pos hlen]
  · rw [copyValue_quoted dst rest hv hd hfit, if_pos hlen]

/-- Whatever is copied is the value, or nothing is. -/
theorem copyValue_inv {dst p out : List UInt8} {n : Nat} (hdst : dst.length + 2 < 2 ^ 64)
    (hp : p.length < 2 ^ 64) (h : copyValue dst p = some (n, out)) :
    out = dst ∨ ∃ w, ValueAt p w ∧ w.length ≤ dst.length ∧ out = w ++ dst.drop w.length := by
  cases he : strpbrk p valueEnd with
  | none =>
      cases p with
      | nil => cases h
      | cons c q =>
          simp only [copyValue, he] at h
          split at h
          · cases h
            exact Or.inl rfl
          · cases h
  | some e =>
      obtain ⟨v, d, rest, rfl, hv, hd, rfl⟩ := strpbrk_inv he
      rcases quoted_cases v with hhead | rfl | ⟨w, x, rfl⟩
      · rw [copyValue_plain dst rest hv hd hhead] at h
        split at h
        · next hfits =>
          cases h
          exact Or.inr ⟨v, ⟨v, d, rest, rfl, hv, hd, Or.inl ⟨hhead, rfl⟩⟩, hfits, rfl⟩
        · cases h
      · rw [copyValue_lone_quote rest hd (by omega)] at h
        cases h
      · have hfit : w.length + 2 < 2 ^ 64 := by
          simp only [List.length_append, List.length_cons, List.length_nil] at hp
          omega
        rw [copyValue_quoted dst rest hv hd hfit] at h
        split at h
        · next hfits =>
          cases h
          exact Or.inr ⟨w, ⟨_, d, rest, rfl, hv, hd, Or.inr ⟨x, rfl⟩⟩, hfits, rfl⟩
        · cases h

theorem length_drop_lt {s : List UInt8} (hlen : s.length < 2 ^ 64) (n : Nat) :
    (s.drop n).length < 2 ^ 64 := by
  rw [List.length_drop]
  omega

/-- Whatever is extracted replaces the start of the destination. -/
theorem parse_inv {dst src field out : List UInt8} {n : Nat} (hdst : dst.length + 2 < 2 ^ 64)
    (hsrc : src.length < 2 ^ 64) (h : parseResponseFieldFromJson dst src field = some (n, out)) :
    ∃ w, 0 ∉ w ∧ w.length ≤ dst.length ∧ out = w ++ dst.drop w.length := by
  unfold parseResponseFieldFromJson at h
  split at h
  · cases h
  · next m _ =>
    have hlen := length_drop_lt hsrc (m + field.length + 2)
    rcases copyValue_inv hdst hlen h with rfl | ⟨w, hw, hfit, rfl⟩
    · exact ⟨[], by simp, by simp, by simp⟩
    · exact ⟨w, hw.plain.zero_notMem, hfit, rfl⟩

/-- Extraction reads what follows the first occurrence of the key.  The key's
    first byte must not come back in it, which all keys of the program satisfy. -/
theorem parse_at_key (dst stale : List UInt8) {a t tail : List UInt8} {c x y : UInt8}
    (hs : 0 ∉ a ++ (c :: t) ++ x :: y :: tail) (hc : c ∉ t) (ha : ¬ (c :: t) <:+: a) :
    parseResponseFieldFromJson dst (a ++ (c :: t) ++ x :: y :: tail ++ stale) (c :: t)
      = copyValue dst (tail ++ stale) := by
  have hfind : strstr (a ++ (c :: t) ++ x :: y :: tail ++ stale) (c :: t) = some a.length := by
    have hpre : cstr (a ++ (c :: t) ++ x :: y :: tail ++ stale)
        = a ++ (c :: t) ++ (x :: y :: tail ++ cstr stale) := by
      unfold cstr
      rw [List.takeWhile_append_of_pos]
      · simp
      · intro b hb
        have : b ≠ 0 := fun h => hs (h ▸ hb)
        simpa using this
    rw [strstr, hpre]
    exact findSub_append hc ha
  have hdrop : (a ++ (c :: t) ++ x :: y :: tail ++ stale).drop (a.length + (c :: t).length + 2)
      = tail ++ stale := by
    have : a ++ (c :: t) ++ x :: y :: tail ++ stale
        = (a ++ (c :: t) ++ [x, y]) ++ (tail ++ stale) := by simp
    rw [this, List.drop_left' (by simp; omega)]
  rw [parseResponseFieldFromJson, hfind]
  exact congrArg (copyValue dst) hdrop

end TgFuse

/-
  TgFuse.Spec.Reception

  What `json_response_buf` holds when a transfer ends.

  `curl_response_json_writer` copies each chunk to the start of the buffer and
  writes no terminator; so a byte of the buffer is that of the last chunk that
  reaches it (`lastByte`), or one that was there before.
-/

import TgFuse.Effect.Segments

namespace TgFuse

open CString Interact Interact.Prog

-- ============================================================================
-- Chunks
-- ============================================================================

/-- The byte that stands at `i` after the chunks have been stored, each at the start
    of `start`: that of the last chunk which reaches so far. -/
def lastByte (start : List UInt8) (chunks : List (List UInt8)) (i : Nat) : Option UInt8 :=
  ((chunks.reverse.find? fun c => i < c.length).getD start)[i]?

/-- Each byte of the body is the last one stored at its place, or was there before;
    and a NUL stood behind them. -/
def InPlace (start : List UInt8) (chunks : List (List UInt8)) : Prop :=
  start[chunks.flatten.length]? = some 0 ∧
    ∀ i < chunks.flatten.length, lastByte start chunks i = chunks.flatten[i]?

section Chunks

variable {start chunk : List UInt8} {chunks : List (List UInt8)} {code : CURLcode}
  {buf b : CharArray jsonResponseBufSize} {i : Nat}

theorem lastByte_cons
    (hc : ∀ j, start[j]? = if j < chunk.length then chunk[j]? else buf.bytes[j]?) :
    lastByte start chunks i = lastByte buf.bytes (chunk :: chunks) i := by
  unfold lastByte
  rw [List.reverse_cons, List.find?_append]
  cases hfind : chunks.reverse.find? fun c => i < c.length with
  | some d => rfl
  | none =>
      rw [Option.none_or, Option.getD_none, hc]
      by_cases hi : i < chunk.length
      · simp [hi]
      · simp [hi]

/-- No chunk reaches beyond the body. -/
theorem lastByte_of_le (h : chunks.flatten.length ≤ i) : lastByte start chunks i = start[i]? := by
  have hnone : (chunks.reverse.find? fun c => i < c.length) = none := by
    apply List.find?_eq_none.mpr
    intro c hc
    have hle := (List.sublist_flatten_of_mem (List.mem_reverse.mp hc)).length_le
    simp
    omega
  rw [lastByte, hnone, Option.getD_none]

/-- The chunks of a body that fits fit themselves. -/
theorem chunk_length_le (hlen : chunks.flatten.length < jsonResponseBufSize) :
    ∀ c ∈ chunks, c.length ≤ jsonResponseBufSize := by
  intro c hc
  have hle := (List.sublist_flatten_of_mem hc).length_le
  omega

/-- Byte for byte, what the buffer holds after a transfer. -/
theorem receiveJson_bytes (code : CURLcode) (buf : CharArray jsonResponseBufSize)
    (h : ∀ c ∈ chunks, c.length ≤ jsonResponseBufSize) :
    ∃ b, receiveJson ⟨code, chunks⟩ buf = some b ∧
      ∀ i, b.bytes[i]? = lastByte buf.bytes chunks i := by
  induction chunks generalizing buf with
  | nil => exact ⟨buf, rfl, fun i => rfl⟩
  | cons c chunks ih =>
      obtain ⟨b₁, hb₁, hbytes⟩ := curlResponseJsonWriter_some buf (h c (List.mem_cons_self ..))
      obtain ⟨b, hb, hlast⟩ := ih b₁ fun d hd => h d (List.mem_cons_of_mem _ hd)
      refine ⟨b, ?_, fun i => ?_⟩
      · show (curlResponseJsonWriter buf c).bind _ = _
        rw [hb₁]
        exact hb
      · rw [hlast]
        apply lastByte_cons
        intro j
        rw [hbytes]
        by_cases hj : j < c.length
        · rw [if_pos hj, List.getElem?_append_left hj]
        · rw [if_neg hj, List.getElem?_append_right (by omega), List.getElem?_drop]
          congr 1
          omega

/-- Received, the body is what the buffer reads as, exactly if every byte is in place. -/
theorem receiveJson_holds_iff (h0 : 0 ∉ chunks.flatten)
    (hlen : chunks.flatten.length < jsonResponseBufSize)
    (hb : receiveJson ⟨code, chunks⟩ buf = some b) :
    b.Holds chunks.flatten ↔ InPlace buf.bytes chunks := by
  obtain ⟨b', hb', hbytes⟩ := receiveJson_bytes code buf (chunk_length_le hlen)
  rw [hb] at hb'
  cases hb'
  rw [CharArray.holds_iff_prefix h0, List.prefix_iff_getElem?]
  constructor
  · intro h
    constructor
    · have hnul := h chunks.flatten.length (by simp)
      rw [hbytes, lastByte_of_le (Nat.le_refl _)] at hnul
      rw [hnul, List.getElem_append_right (Nat.le_refl _)]
      simp
    · intro i hi
      have hbyte := h i (by rw [List.length_append]; omega)
      rw [hbytes, List.getElem_append_left hi] at hbyte
      rw [hbyte, List.getElem?_eq_getElem hi]
  · rintro ⟨hnul, hbody⟩ i hi
    rw [hbytes]
    by_cases hlt : i < chunks.flatten.length
    · rw [hbody i hlt, List.getElem_append_left hlt, List.getElem?_eq_getElem hlt]
    · obtain rfl : i = chunks.flatten.length := by
        rw [List.length_append, List.length_singleton] at hi
        omega
      rw [lastByte_of_le (Nat.le_refl _), hnul, List.getElem_append_right (Nat.le_refl _)]
      simp

/-- One of several chunks is not the whole body. -/
theorem length_lt_flatten (hne : ∀ c ∈ chunks, c ≠ []) (hmany : 1 < chunks.length)
    (hc : c ∈ chunks) : c.length < chunks.flatten.length := by
  obtain ⟨l, r, rfl⟩ := List.append_of_mem hc
  have hrest : l.flatten ≠ [] ∨ r.flatten ≠ [] := by
    by_contra hno
    obtain ⟨hl, hr⟩ := not_or.mp hno
    have hl := List.flatten_eq_nil_iff.mp (not_not.mp hl)
    have hr := List.flatten_eq_nil_iff.mp (not_not.mp hr)
    have hlnil : l = [] := List.eq_nil_iff_forall_not_mem.mpr fun d hd =>
      hne d (List.mem_append_left _ hd) (hl d hd)
    have hrnil : r = [] := List.eq_nil_iff_forall_not_mem.mpr fun d hd =>
      hne d (List.mem_append_right _ (List.mem_cons_of_mem _ hd)) (hr d hd)
    rw [hlnil, hrnil] at hmany
    exact Nat.lt_irrefl 1 hmany
  rw [List.flatten_append, List.flatten_cons, List.length_append, List.length_append]
  rcases hrest with h | h
  · have := List.length_pos_of_ne_nil h
    omega
  · have := List.length_pos_of_ne_nil h
    omega

/-- Into a buffer of zeros a body of one chunk is received, and no other. -/
theorem inPlace_zeros_iff (hne : ∀ c ∈ chunks, c ≠ []) (h0 : 0 ∉ chunks.flatten)
    (hlen : chunks.flatten.length < jsonResponseBufSize) :
    InPlace (List.replicate jsonResponseBufSize 0) chunks ↔ chunks.length ≤ 1 := by
  constructor
  · rintro ⟨-, hbody⟩
    by_contra hmany
    -- no chunk reaches the last byte of the body, and no NUL is in the body
    obtain ⟨c, hc⟩ : ∃ c, c ∈ chunks := List.exists_mem_of_length_pos (by omega)
    have hpos := length_lt_flatten hne (by omega) hc
    have hnone : (chunks.reverse.find? fun c => chunks.flatten.length - 1 < c.length) = none := by
      apply List.find?_eq_none.mpr
      intro d hd
      have := length_lt_flatten hne (by omega) (List.mem_reverse.mp hd)
      simp only [decide_eq_true_eq]
      omega
    have hlast := hbody (chunks.flatten.length - 1) (by omega)
    rw [lastByte, hnone, Option.getD_none, List.getElem?_replicate, if_pos (by omega)] at hlast
    exact h0 (List.mem_of_getElem? hlast.symm)
  · intro hone
    refine ⟨by rw [List.getElem?_replicate, if_pos hlen], fun i hi => ?_⟩
    match chunks, hone with
    | [], _ => exact absurd hi (Nat.not_lt_zero i)
    | [c], _ =>
        rw [List.flatten_singleton] at hi ⊢
        simp [lastByte, hi]

end Chunks

-- ============================================================================
-- The three users
-- ============================================================================

/-- When the transfer that the program starts next ends, `json_response_buf` reads as
    this body. -/
def ReceivesBody {α : Type} (p : Handler α) (s : Statics) (r : Response) (body : List UInt8) :
    Prop :=
  ∃ q k t u, advance p s = .waiting q k t ∧ receive q r t = some u ∧ u.jsonResponseBuf.Holds body

section Users

variable {s t : Statics} {ptr : FilePtr} {f : TgFile} {chunks : List (List UInt8)}
  {code : CURLcode} {α : Type}

/-- What a waiting program receives into `json_response_buf`. -/
theorem receivesBody_iff {prog : Handler α} {q : Request} {k : Response → Handler α}
    (hadv : advance prog s = .waiting q k t) (hq : ∀ c path, q ≠ .download c path)
    (h0 : 0 ∉ chunks.flatten) (hlen : chunks.flatten.length < jsonResponseBufSize) :
    ReceivesBody prog s ⟨code, chunks⟩ chunks.flatten ↔ InPlace t.jsonResponseBuf.bytes chunks := by
  constructor
  · rintro ⟨q', k', t', u, hadv', hu, hholds⟩
    rw [hadv] at hadv'
    cases hadv'
    obtain ⟨b, hb, rfl⟩ := (receive_json_some hq).mp hu
    exact (receiveJson_holds_iff h0 hlen hb).mp hholds
  · intro hplace
    obtain ⟨b, hb, -⟩ := receiveJson_bytes code t.jsonResponseBuf (chunk_length_le hlen)
    exact ⟨q, k, t, _, hadv, (receive_json_some hq).mpr ⟨b, hb, rfl⟩,
      (receiveJson_holds_iff h0 hlen hb).mpr hplace⟩

/-- For every body, every way it may be split, and everything that
    `json_response_buf` may hold: an upload and a deletion receive the body exactly
    if each byte is in place; a load, which clears the buffer, exactly if the body
    comes in one piece. -/
theorem json_received_iff (config : TgConfig) (fill : Nat → UInt8) (data : Buffer)
    (s : Statics) (ptr : FilePtr) (code : CURLcode) (chunks : List (List UInt8))
    (h : ptr.peek s = some f) (hf : f.Named) (hne : ∀ c ∈ chunks, c ≠ []) (h0 : 0 ∉ chunks.flatten)
    (hlen : chunks.flatten.length ≤ 1023) :
    (ReceivesBody (tgPutFile ptr config data) s ⟨code, chunks⟩ chunks.flatten ↔
      InPlace s.jsonResponseBuf.bytes chunks) ∧
    (ReceivesBody (tgRemoveMessageWithFile config ptr) s ⟨code, chunks⟩ chunks.flatten ↔
      InPlace s.jsonResponseBuf.bytes chunks) ∧
    (ReceivesBody (tgFileLoadContents fill config ptr) s ⟨code, chunks⟩ chunks.flatten ↔
      chunks.length ≤ 1) := by
  have hlen : chunks.flatten.length < jsonResponseBufSize := Nat.lt_of_le_of_lt hlen (by decide)
  have hput := advance_tgPutFile config data h hf
  have hremove := advance_tgRemoveMessageWithFile config h
  have hload := advance_tgFileLoadContents config fill h
  refine ⟨?_, ?_, ?_⟩
  · exact receivesBody_iff hput (putRequest_json _ _ _ _ _) h0 hlen
  · exact receivesBody_iff hremove (fun _ _ => Request.noConfusion) h0 hlen
  · rw [receivesBody_iff hload (fun _ _ => Request.noConfusion) h0 hlen]
    exact inPlace_zeros_iff hne h0 hlen

end Users

/-- The state after a first answer, which was refused. -/
def sampleRefused : Statics :=
  ⟨tgStorageNew fun _ => TgFile.zero, .ofList (text "\x7b\"ok\":false\x7d")⟩

/-- A handler's own record. -/
def sampleRecord : FilePtr := .var (newFile (text "/a") 0)

theorem sampleRecord_named : (newFile (text "/a") 0).Named :=
  (newFile_hasPath _ _).named (by decide)

/-- An answer in one piece is received by a load; by an upload it is not, where a longer
    one came before. -/
theorem json_received_iff_sample :
    ReceivesBody (tgFileLoadContents (fun _ => 0) ⟨.zeros, .zeros⟩ sampleRecord) sampleRefused
      ⟨curleOk, [text "\x7b\"ok\":true\x7d"]⟩ (text "\x7b\"ok\":true\x7d") ∧
    ¬ ReceivesBody (tgPutFile sampleRecord ⟨.zeros, .zeros⟩ (bufferNew fun _ => 0)) sampleRefused
      ⟨curleOk, [text "\x7b\"ok\":true\x7d"]⟩ (text "\x7b\"ok\":true\x7d") := by
  obtain ⟨hput, -, hload⟩ := json_received_iff ⟨.zeros, .zeros⟩ (fun _ => 0)
    (bufferNew fun _ => 0) sampleRefused sampleRecord curleOk [text "\x7b\"ok\":true\x7d"] rfl
    sampleRecord_named (by decide) (by decide) (by decide)
  refine ⟨hload.mpr (Nat.le_refl 1), fun h => ?_⟩
  exact absurd (hput.mp h).1 (by decide +kernel)

/-- An answer in two pieces, over a cleared buffer. -/
theorem split_answer_is_lost :
    ¬ ∀ (config : TgConfig) (fill : Nat → UInt8) (data : Buffer) (s : Statics) (ptr : FilePtr)
        (f : TgFile) (code : CURLcode) (chunks : List (List UInt8)),
      ptr.peek s = some f → f.Named → (∀ c ∈ chunks, c ≠ []) → 0 ∉ chunks.flatten →
      chunks.flatten.length ≤ 1023 →
      ReceivesBody (tgPutFile ptr config data) s ⟨code, chunks⟩ chunks.flatten ∧
      ReceivesBody (tgRemoveMessageWithFile config ptr) s ⟨code, chunks⟩ chunks.flatten ∧
      ReceivesBody (tgFileLoadContents fill config ptr) s ⟨code, chunks⟩ chunks.flatten := by
  intro hall
  obtain ⟨-, -, hload⟩ := hall ⟨.zeros, .zeros⟩ (fun _ => 0) (bufferNew fun _ => 0) sampleRefused
    sampleRecord (newFile (text "/a") 0) curleOk [text "\x7b\"ok\":", text "true\x7d"] rfl
    sampleRecord_named (by decide) (by decide) (by decide)
  have hpeek : sampleRecord.peek sampleRefused = some (newFile (text "/a") 0) := rfl
  have hadv := advance_tgFileLoadContents ⟨.zeros, .zeros⟩ (fun _ => 0) hpeek
  have hplace := (receivesBody_iff hadv (fun _ _ => Request.noConfusion) (by decide)
    (by decide)).mp hload
  exact absurd ((inPlace_zeros_iff (by decide) (by decide) (by decide)).mp hplace) (by decide)

end TgFuse

/-
  TgFuse.Spec.Splitting

  `tg_file_extract_filename` and `tg_file_extract_directory` at the boundaries
  of their arrays.  The name is copied together with the path's terminator and
  terminated once more, the directory is copied without one; both lengths are
  differences of pointers into the path.

  * `Inside m n` — the accesses to bytes `0..m` of the source and to the first
    `n` bytes of the destination.
  * `Extracts extract bytes p s` — applied to any entry whose `path` holds `p`,
    `extract` leaves `s`, and its byte-level form `bytes` does so within the
    path, its terminator and the array it writes.
-/

import TgFuse.Spec.Paths

namespace TgFuse

open CString
open Bytes (Access StringAt Yields)

-- ============================================================================
-- What is touched
-- ============================================================================

/-- Bytes `0..m` of the source, the first `n` bytes of the destination. -/
def Inside (m n : Nat) : Access → Prop
  | .load i => i ≤ m
  | .store i _ => i < n

theorem inside_load {m n i : Nat} (h : i ≤ m) : Inside m n (.load i) := h

theorem inside_store {m n i : Nat} (h : i < n) (b : UInt8) : Inside m n (.store i b) := h

variable {f : TgFile} {p dst out : List UInt8}

/-- The path an entry holds is a string of its memory. -/
theorem stringAt_memory (h : f.path.Holds p) (h0 : 0 ∉ p) : StringAt f.memory 0 p := by
  obtain ⟨t, ht⟩ := (CharArray.holds_iff_prefix h0).mp h
  refine ⟨h0, t ++ f.fileId.bytes ++ f.messageId.bytes, ?_⟩
  rw [List.drop_zero, TgFile.memory, ← ht]
  simp

theorem length_lt_memory (hp : StringAt f.memory 0 p) : p.length < 3 * fieldSize := by
  have hlt := hp.length_lt
  simp only [TgFile.memory, List.length_append, CharArray.length_bytes] at hlt
  omega

/-- Copying `n` bytes and terminating them, byte by byte and as two stores. -/
theorem copy_terminated_yields {src data d : List UInt8} {start n m : Nat}
    (hread : memread src start n = some data) (hcopy : memcpyAt dst 0 data = some d)
    (hend : memcpyAt d n [0] = some out) (hm : start + n ≤ m + 1) :
    Yields (Inside m dst.length) src
      (do Bytes.memcpy 0 start n; Bytes.store n 0) dst () out := by
  obtain ⟨hn, hout⟩ := memcpyAt_singleton hend
  rw [memcpyAt_length hcopy] at hn
  have hd : n < d.length := by rwa [memcpyAt_length hcopy]
  rw [hout]
  have hloop : Yields (Inside m dst.length) src (Bytes.memcpy 0 start n) dst () d :=
    Bytes.memcpy_yields hread hcopy (fun i h₁ h₂ => inside_load (by omega))
      (fun i b h₁ h₂ => inside_store (by omega) b)
  exact hloop.bind (Bytes.yields_store hd (inside_store hn 0))

/-- The byte-level `tg_file_extract_filename` does what the block-level one does,
    and stays between the path's first byte and its terminator. -/
theorem tgFileExtractFilename_yields (hp : StringAt f.memory 0 p)
    (h : tgFileExtractFilename dst f = some out) :
    Yields (Inside p.length dst.length) f.memory tgFileExtractFilenameBytes dst () out := by
  simp only [tgFileExtractFilename, Option.bind_eq_bind, Option.bind_eq_some_iff] at h
  obtain ⟨ptr, hptr, name, hread, d, hcopy, hend⟩ := h
  have hcstr : cstr f.memory = p := hp.cstr_drop
  have hroom := length_lt_memory hp
  have hloads : ∀ i, 0 ≤ i → i ≤ 0 + p.length → Inside p.length dst.length (.load i) :=
    fun i _ hi => inside_load (by omega)
  have hle := strrchr_lt hptr
  rw [hcstr] at hle
  rw [TgFile.pathStr, hcstr] at hread hend
  refine (Bytes.strrchr_yields (by decide) hp hroom hloads).bind ?_
  refine (Bytes.strlen_yields hp hroom hloads).bind ?_
  simp only [List.drop_zero, hptr, Option.map_some, Nat.zero_add]
  exact copy_terminated_yields hread hcopy hend (by omega)

/-- The same for `tg_file_extract_directory`. -/
theorem tgFileExtractDirectory_yields (hp : StringAt f.memory 0 p)
    (h : tgFileExtractDirectory dst f = some out) :
    Yields (Inside p.length dst.length) f.memory tgFileExtractDirectoryBytes dst () out := by
  simp only [tgFileExtractDirectory, Option.bind_eq_bind, Option.bind_eq_some_iff] at h
  obtain ⟨start, hstart, h⟩ := h
  have hroom := length_lt_memory hp
  have hlt := strchr_lt hstart
  rw [show cstr f.memory = p from hp.cstr_drop] at hlt
  -- the second search starts behind the first slash
  have htake : (p.take (start + 1)).length = start + 1 := List.length_take_of_le hlt
  have hrest : StringAt f.memory (start + 1) (p.drop (start + 1)) := by
    have hsplit : StringAt f.memory 0 (p.take (start + 1) ++ p.drop (start + 1)) := by
      rwa [List.take_append_drop]
    have hsuffix := hsplit.suffix
    rwa [htake, Nat.zero_add] at hsuffix
  have hlen : (p.drop (start + 1)).length = p.length - (start + 1) := List.length_drop ..
  refine (Bytes.strchr_yields (by decide) hp hroom fun i _ hi => inside_load (by omega)).bind ?_
  simp only [List.drop_zero, hstart, Option.map_some, Nat.zero_add]
  refine (Bytes.strchr_yields (by decide) hrest (by omega)
    fun i _ hi => inside_load (by omega)).bind ?_
  cases hend : strchr (f.memory.drop (start + 1)) slash with
  | none =>
      simp only [hend] at h
      rw [memcpyAt_cons] at h
      obtain ⟨hfit, rfl⟩ := memcpyAt_singleton h
      rw [List.length_set] at hfit
      refine (Bytes.yields_store (by omega) (inside_store (by omega) slash)).bind ?_
      exact Bytes.yields_store (by rwa [List.length_set]) (inside_store hfit 0)
  | some k =>
      simp only [hend, Option.bind_eq_some_iff] at h
      obtain ⟨dir, hread, d, hcopy, hstop⟩ := h
      have hk := strchr_lt hend
      rw [hrest.cstr_drop, hlen] at hk
      have hn : start + 1 + k - start = k + 1 := by omega
      simp only [Option.map_some, hn]
      exact copy_terminated_yields hread hcopy hstop (by omega)

-- ============================================================================
-- What is extracted
-- ============================================================================

/-- From any entry whose `path` holds `p` and into any array, `extract` stores
    the string `s`, and `bytes` does it inside the path and the array. -/
def Extracts (extract : List UInt8 → TgFile → Option (List UInt8)) (bytes : Bytes.Routine Unit)
    (p s : List UInt8) : Prop :=
  ∀ (f : TgFile) (dst : CharArray fieldSize), f.path.Holds p →
    ∃ out : CharArray fieldSize, extract dst.bytes f = some out.bytes ∧
      Yields (Inside p.length fieldSize) f.memory bytes dst.bytes () out.bytes ∧ out.Holds s

/-- `s` is what `tg_file_extract_directory` makes of `p`. -/
def ExtractsDirectory (p s : List UInt8) : Prop :=
  Extracts tgFileExtractDirectory tgFileExtractDirectoryBytes p s

/-- `s` is what `tg_file_extract_filename` makes of `p`. -/
def ExtractsFilename (p s : List UInt8) : Prop :=
  Extracts tgFileExtractFilename tgFileExtractFilenameBytes p s

theorem extractsDirectory_dirOf (hp : ValidPath p) : ExtractsDirectory p (dirOf p) := by
  intro f dst hf
  have hs := stringAt_memory hf hp.noNul
  obtain ⟨rest, hmem⟩ := hs.drop_eq
  obtain ⟨out, hout, hz, hstr⟩ := tgFileExtractDirectory_terminated hmem hp dst.length_bytes
  have hy := tgFileExtractDirectory_yields hs hout
  rw [dst.length_bytes] at hy
  exact ⟨⟨out, hy.length.trans dst.length_bytes⟩, hout, hy, hz, hstr⟩

theorem extractsFilename_baseOf (hp : ValidPath p) : ExtractsFilename p (baseOf p) := by
  intro f dst hf
  have hs := stringAt_memory hf hp.noNul
  obtain ⟨rest, hmem⟩ := hs.drop_eq
  obtain ⟨out, hout, hz, hstr⟩ := tgFileExtractFilename_terminated hmem hp dst.length_bytes
  have hy := tgFileExtractFilename_yields hs hout
  rw [dst.length_bytes] at hy
  exact ⟨⟨out, hy.length.trans dst.length_bytes⟩, hout, hy, hz, hstr⟩

/-- A path that fits a field gives one text at most. -/
theorem Extracts.unique {extract : List UInt8 → TgFile → Option (List UInt8)}
    {bytes : Bytes.Routine Unit} {s t : List UInt8} (hp : ValidPath p)
    (hs : Extracts extract bytes p s) (ht : Extracts extract bytes p t) : s = t := by
  let f : TgFile := { TgFile.zero with path := .ofList p }
  have hf : f.path.Holds p := CharArray.holds_ofList hp.noNul (Nat.lt_succ_of_le hp.length_le)
  obtain ⟨o₁, h₁, -, -, hs⟩ := hs f .zeros hf
  obtain ⟨o₂, h₂, -, -, ht⟩ := ht f .zeros hf
  have ho : o₁ = o₂ := by
    ext1
    exact Option.some.inj (h₁.symm.trans h₂)
  rw [← hs, ← ht, ho]

-- ============================================================================
-- Putting the parts together
-- ============================================================================

/-- A name in `"/"`, or in a directory that lies in `"/"`. -/
def Shallow (p : List UInt8) : Prop :=
  ∃ x, x ≠ [] ∧ slash ∉ x ∧
    (p = slash :: x ∨ ∃ d, d ≠ [] ∧ slash ∉ d ∧ p = slash :: d ++ slash :: x)

theorem Shallow.join_parts (h : Shallow p) : join (dirOf p) (baseOf p) = p := by
  obtain ⟨x, -, hx, rfl | ⟨d, hd, hds, rfl⟩⟩ := h
  · rw [dirOf_of_notMem hx, show slash :: x = [] ++ slash :: x from rfl, baseOf_append [] hx]
    rfl
  · have hroot : slash :: d ≠ [slash] := fun h => hd (List.cons.inj h).2
    rw [List.cons_append, dirOf_append hds, ← List.cons_append, baseOf_append _ hx]
    exact if_neg hroot

/-- A path with one slash has it at its start. -/
theorem count_slash_eq_one_iff {r : List UInt8} :
    (slash :: r).count slash = 1 ↔ slash ∉ r := by
  rw [List.count_cons_self, Nat.add_eq_right, List.count_eq_zero]

/-- Both functions, at every path that fits a field. -/
theorem path_split_exact (hp : ValidPath p) :
    ∃ d n, ExtractsDirectory p d ∧ ExtractsFilename p n ∧
      (∃ a, p = a ++ slash :: n) ∧ slash ∉ n ∧
      (p.count slash = 1 → d = [slash]) ∧
      (p.count slash ≠ 1 → ∃ x y, p = slash :: x ++ slash :: y ∧ slash ∉ x ∧ d = slash :: x) ∧
      (Shallow p → join d n = p ∧
        ∀ q, ValidPath q → Shallow q → ExtractsDirectory q d → ExtractsFilename q n → q = p) := by
  obtain ⟨r, rfl⟩ := hp.exists_cons
  refine ⟨_, _, extractsDirectory_dirOf hp, extractsFilename_baseOf hp,
    split_last List.mem_cons_self, slash_notMem_baseOf _, fun hone => ?_, fun hmore => ?_,
    fun hshallow => ⟨hshallow.join_parts, fun q hq hqs hd hn => ?_⟩⟩
  · exact dirOf_of_notMem (count_slash_eq_one_iff.mp hone)
  · have hmem : slash ∈ r := not_not.mp fun h => hmore (count_slash_eq_one_iff.mpr h)
    obtain ⟨y, hy⟩ := split_first hmem
    refine ⟨r.takeWhile (· ≠ slash), y, ?_, slash_notMem_takeWhile r, dirOf_of_mem hmem⟩
    rw [List.cons_append, ← hy]
  · have hdir : dirOf q = dirOf (slash :: r) := (extractsDirectory_dirOf hq).unique hq hd
    have hname : baseOf q = baseOf (slash :: r) := (extractsFilename_baseOf hq).unique hq hn
    rw [← hqs.join_parts, hdir, hname, hshallow.join_parts]

/-- A name of 98 bytes in `"/"`: its second terminator is the array's last byte. -/
theorem path_split_exact_longest :
    ∃ d n, ExtractsDirectory (slash :: List.replicate 98 120) d ∧
      ExtractsFilename (slash :: List.replicate 98 120) n ∧ d = [slash] ∧
      join d n = slash :: List.replicate 98 120 := by
  have hp : ValidPath (slash :: List.replicate 98 120) := by decide
  obtain ⟨d, n, hd, hn, -, -, hone, -, hjoin⟩ := path_split_exact hp
  have hshallow : Shallow (slash :: List.replicate 98 120) :=
    ⟨List.replicate 98 120, by decide, by decide, Or.inl rfl⟩
  exact ⟨d, n, hd, hn, hone (by decide), (hjoin hshallow).1⟩

end TgFuse

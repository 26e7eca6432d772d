/-
  TgFuse.Model.TgFile

  `tg_file` and the functions of `tg_file.c` that take a path apart.

  `path`, `file_id` and `message_id` are three consecutive arrays of 100 bytes.
  A string that has no NUL in its own array runs on into the next one, and so
  does a store; `memory` is the three of them as one block.
-/

import TgFuse.Lib.Bytes
import TgFuse.Model.Json

namespace TgFuse

open CString Interact

/-- `tg_file_type`. -/
inductive TgFileType where
  | tgFile
  | tgDir
deriving DecidableEq

/-- `FILE_ID_SIZE`, `MESSAGE_ID_SIZE`, `FILE_PATH_SIZE`. -/
def fieldSize : Nat := 100

/-- `tg_file`. -/
structure TgFile where
  path : CharArray fieldSize
  fileId : CharArray fieldSize
  messageId : CharArray fieldSize
  fileSize : Nat
  type : TgFileType
deriving DecidableEq

namespace TgFile

/-- `(tg_file){0}`. -/
def zero : TgFile :=
  { path := .zeros, fileId := .zeros, messageId := .zeros, fileSize := 0, type := .tgFile }

/-- The block from `path` to the end of `message_id`. -/
def memory (f : TgFile) : List UInt8 := f.path.bytes ++ f.fileId.bytes ++ f.messageId.bytes

/-- The block from `file_id` to the end of `message_id`. -/
def fileIdMemory (f : TgFile) : List UInt8 := f.fileId.bytes ++ f.messageId.bytes

/-- `path` as a C string. -/
def pathStr (f : TgFile) : List UInt8 := cstr f.memory

/-- `file_id` as a C string. -/
def fileIdStr (f : TgFile) : List UInt8 := cstr f.fileIdMemory

/-- `message_id` as a C string. -/
def messageIdStr (f : TgFile) : List UInt8 := f.messageId.str

/-- What a store at `file_id` leaves in the two id arrays. -/
def setFileIdMemory (f : TgFile) (mem : List UInt8) : TgFile :=
  { f with fileId := .ofList mem, messageId := .ofList (mem.drop fieldSize) }

/-- What a store at `message_id` leaves there. -/
def setMessageIdMemory (f : TgFile) (mem : List UInt8) : TgFile :=
  { f with messageId := .ofList mem }

end TgFile

/-- `strcpy(file.path, path)` into a zeroed `tg_file`: a long path runs on into
    the ids, one that leaves the three arrays is undefined. -/
def strcpyPath (file : TgFile) (path : List UInt8) : Option TgFile :=
  if path.length < 3 * fieldSize then
    some { file with
      path := .ofList path
      fileId := .ofList (path.drop fieldSize)
      messageId := .ofList (path.drop (2 * fieldSize)) }
  else none

/-- `tg_file_new_file`. -/
def tgFileNewFile (path : List UInt8) (fileSize : Nat) : Option TgFile :=
  strcpyPath { TgFile.zero with type := .tgFile, fileSize } path

/-- `tg_file_new_dir`. -/
def tgFileNewDir (path : List UInt8) : Option TgFile :=
  strcpyPath { TgFile.zero with type := .tgDir } path

/-- `'/'`. -/
def slash : UInt8 := 47

/-- `tg_file_extract_filename`: the memory at `dst` afterwards. -/
def tgFileExtractFilename (dst : List UInt8) (file : TgFile) : Option (List UInt8) := do
  let ptr ← strrchr file.memory slash
  let n := file.pathStr.length - ptr
  let name ← memread file.memory (ptr + 1) n
  let dst ← memcpyAt dst 0 name
  memcpyAt dst n [0]

/-- `tg_file_extract_directory`: the memory at `dst` afterwards. -/
def tgFileExtractDirectory (dst : List UInt8) (file : TgFile) : Option (List UInt8) := do
  let start ← strchr file.memory slash
  match strchr (file.memory.drop (start + 1)) slash with
  | none => memcpyAt dst 0 [slash, 0]
  | some k =>
      -- `end` is `start + 1 + k`
      let n := k + 1
      let dir ← memread file.memory start n
      let dst ← memcpyAt dst 0 dir
      memcpyAt dst n [0]

/-- `tg_file_extract_filename`, byte by byte: it reads the entry's `memory`. -/
def tgFileExtractFilenameBytes : Bytes.Routine Unit := do
  let ptr ← Bytes.strrchr slash (3 * fieldSize) 0
  let len ← Bytes.strlen (3 * fieldSize) 0
  let ptr ← Prog.liftOption ptr
  let n := len - ptr
  Bytes.memcpy 0 (ptr + 1) n
  Bytes.store n 0

/-- `tg_file_extract_directory`, byte by byte. -/
def tgFileExtractDirectoryBytes : Bytes.Routine Unit := do
  let start ← Bytes.strchr slash (3 * fieldSize) 0
  let start ← Prog.liftOption start
  match ← Bytes.strchr slash (3 * fieldSize - (start + 1)) (start + 1) with
  | none =>
      Bytes.store 0 slash
      Bytes.store 1 0
  | some stop =>
      let n := stop - start
      Bytes.memcpy 0 start n
      Bytes.store n 0

-- ============================================================================
-- Paths
-- ============================================================================

/-- An absolute path that fits `path` with its terminator. -/
structure ValidPath (p : List UInt8) : Prop where
  absolute : p.head? = some slash
  noNul : 0 ∉ p
  length_le : p.length ≤ 99

theorem validPath_iff {p : List UInt8} :
    ValidPath p ↔ p.head? = some slash ∧ 0 ∉ p ∧ p.length ≤ 99 :=
  ⟨fun h => ⟨h.1, h.2, h.3⟩, fun ⟨h₁, h₂, h₃⟩ => ⟨h₁, h₂, h₃⟩⟩

instance (p : List UInt8) : Decidable (ValidPath p) := decidable_of_iff _ validPath_iff.symm

theorem ValidPath.exists_cons {p : List UInt8} (h : ValidPath p) : ∃ r, p = slash :: r := by
  have := h.absolute
  cases p with
  | nil => cases this
  | cons b r => exact ⟨r, by simpa using this⟩

theorem ValidPath.ne_nil {p : List UInt8} (h : ValidPath p) : p ≠ [] := by
  obtain ⟨r, rfl⟩ := h.exists_cons
  exact List.cons_ne_nil _ _

/-- The tag a path is filed under: `"/"`, or everything before its second slash. -/
def dirOf (p : List UInt8) : List UInt8 :=
  match p with
  | [] => []
  | b :: r => if slash ∈ r then b :: r.takeWhile (· ≠ slash) else [slash]

/-- The text after the last slash. -/
def baseOf (p : List UInt8) : List UInt8 := (p.reverse.takeWhile (· ≠ slash)).reverse

/-- The entry holds the path `p`, with its terminator inside `path`. -/
def TgFile.HasPath (f : TgFile) (p : List UInt8) : Prop := f.path = .ofList p

theorem TgFile.HasPath.memory_eq {f : TgFile} {p : List UInt8} (hf : f.HasPath p)
    (hp : ValidPath p) : ∃ rest, f.memory = p ++ 0 :: rest := by
  have hb : f.path.bytes = p ++ List.replicate (100 - p.length) 0 := by
    rw [hf]
    exact CharArray.bytes_ofList_of_le (by have := hp.length_le; unfold fieldSize; omega)
  have hrep : 100 - p.length = (99 - p.length) + 1 := by have := hp.length_le; omega
  exact ⟨List.replicate (99 - p.length) 0 ++ f.fileId.bytes ++ f.messageId.bytes, by
    rw [TgFile.memory, hb, hrep, List.replicate_succ]; simp⟩

theorem TgFile.HasPath.pathStr_eq {f : TgFile} {p : List UInt8} (hf : f.HasPath p)
    (hp : ValidPath p) : f.pathStr = p := by
  obtain ⟨rest, h⟩ := hf.memory_eq hp
  rw [TgFile.pathStr, h]
  exact cstr_append_zero hp.noNul rest

theorem strcpyPath_of_valid {file : TgFile} {p : List UInt8} (hp : ValidPath p) :
    strcpyPath file p
      = some { file with path := .ofList p, fileId := .zeros, messageId := .zeros } := by
  have hl := hp.length_le
  have h1 : p.drop fieldSize = [] := List.drop_eq_nil_of_le (by unfold fieldSize; omega)
  have h2 : p.drop (2 * fieldSize) = [] := List.drop_eq_nil_of_le (by unfold fieldSize; omega)
  rw [strcpyPath, if_pos (by unfold fieldSize; omega), h1, h2]
  simp

theorem tgFileNewFile_of_valid {p : List UInt8} (hp : ValidPath p) (n : Nat) :
    tgFileNewFile p n
      = some { TgFile.zero with path := .ofList p, type := .tgFile, fileSize := n } :=
  strcpyPath_of_valid hp

theorem tgFileNewDir_of_valid {p : List UInt8} (hp : ValidPath p) :
    tgFileNewDir p = some { TgFile.zero with path := .ofList p, type := .tgDir } :=
  strcpyPath_of_valid hp

-- ============================================================================
-- Taking a path apart
-- ============================================================================

/-- Everything before the first slash of `r`, and what follows it. -/
theorem split_first {r : List UInt8} (h : slash ∈ r) :
    ∃ r₂, r = r.takeWhile (· ≠ slash) ++ slash :: r₂ := by
  induction r with
  | nil => cases h
  | cons b r ih =>
      by_cases hb : b = slash
      · exact ⟨r, by simp [hb]⟩
      · have h' : slash ∈ r := by
          rcases List.mem_cons.mp h with h | h
          · exact absurd h.symm hb
          · exact h
        obtain ⟨r₂, hr⟩ := ih h'
        exact ⟨r₂, by simpa [hb] using hr⟩

/-- What stands before a slash, where it is the first one. -/
theorem takeWhile_ne_slash {w : List UInt8} (hw : slash ∉ w) (t : List UInt8) :
    (w ++ slash :: t).takeWhile (· ≠ slash) = w := by
  rw [List.takeWhile_append_of_pos]
  · simp
  · intro b hb
    have hne : b ≠ slash := fun h => hw (h ▸ hb)
    simpa using hne

theorem slash_notMem_takeWhile (r : List UInt8) : slash ∉ r.takeWhile (· ≠ slash) := by
  intro h
  have := List.mem_takeWhile_imp h
  simp at this

theorem slash_notMem_baseOf (p : List UInt8) : slash ∉ baseOf p := by
  rw [baseOf, List.mem_reverse]
  exact slash_notMem_takeWhile _

/-- A path ends in a slash and its base name. -/
theorem split_last {p : List UInt8} (h : slash ∈ p) : ∃ a, p = a ++ slash :: baseOf p := by
  obtain ⟨r₂, hr⟩ := split_first (r := p.reverse) (by simpa using h)
  refine ⟨r₂.reverse, ?_⟩
  have := congrArg List.reverse hr
  simpa [baseOf] using this

theorem dirOf_of_mem {r : List UInt8} (h : slash ∈ r) :
    dirOf (slash :: r) = slash :: r.takeWhile (· ≠ slash) := if_pos h

theorem dirOf_of_notMem {r : List UInt8} (h : slash ∉ r) : dirOf (slash :: r) = [slash] :=
  if_neg h

theorem dirOf_append {w : List UInt8} (hw : slash ∉ w) (t : List UInt8) :
    dirOf (slash :: (w ++ slash :: t)) = slash :: w := by
  rw [dirOf_of_mem (List.mem_append_right w List.mem_cons_self), takeWhile_ne_slash hw]

/-- Storing a text and then its terminator at the start of a longer block. -/
theorem memcpyAt_terminated (dst s : List UInt8) (hlen : s.length < dst.length) :
    ∃ d out, memcpyAt dst 0 s = some d ∧ memcpyAt d s.length [0] = some out ∧
      ∃ rest, out = s ++ 0 :: rest := by
  refine ⟨_, _, memcpyAt_eq_some (by omega), memcpyAt_eq_some ?_, dst.drop (s.length + 1), ?_⟩
  · simp only [List.take_zero, List.nil_append, List.length_append, List.length_drop,
      List.length_cons, List.length_nil]
    omega
  · have ht : (s ++ dst.drop s.length).take s.length = s := List.take_left
    have hd : (s ++ dst.drop s.length).drop (s.length + 1) = dst.drop (s.length + 1) := by
      rw [List.drop_append, List.drop_eq_nil_of_le (by omega), List.drop_drop]
      simp
    simp only [List.take_zero, List.nil_append, List.length_cons, List.length_nil, Nat.zero_add,
      ht, hd, List.append_assoc, List.cons_append]

variable {f : TgFile} {p dst rest : List UInt8}

/-- The directory of a path that stands in the entry, whatever follows it there. -/
theorem tgFileExtractDirectory_terminated (hmem : f.memory = p ++ 0 :: rest) (hp : ValidPath p)
    (hdst : dst.length = 100) :
    ∃ out, tgFileExtractDirectory dst f = some out ∧ 0 ∈ out ∧ cstr out = dirOf p := by
  obtain ⟨r, rfl⟩ := hp.exists_cons
  have hn := hp.noNul
  have hl := hp.length_le
  simp only [List.mem_cons, not_or, List.length_cons] at hn hl
  have hstart : strchr f.memory slash = some 0 := by
    have hm : cstr f.memory = [] ++ slash :: r := by rw [hmem, cstr_append_zero hp.noNul]; rfl
    exact strchr_first hm (by simp)
  have hcstr : cstr (f.memory.drop (0 + 1)) = r := by
    rw [hmem]
    exact cstr_append_zero hn.2 rest
  simp only [tgFileExtractDirectory, hstart, Option.bind_eq_bind, Option.bind_some]
  by_cases hs : slash ∈ r
  · obtain ⟨r₂, hr⟩ := split_first hs
    generalize hd : r.takeWhile (· ≠ slash) = d at hr
    have hnd : slash ∉ d := hd ▸ slash_notMem_takeWhile r
    have hdl : d.length + 1 ≤ r.length := by rw [hr]; simp
    have hend : strchr (f.memory.drop (0 + 1)) slash = some d.length :=
      strchr_first (hcstr.trans hr) hnd
    have hread : memread f.memory 0 (d.length + 1) = some (slash :: d) := by
      rw [memread_eq_some (by rw [hmem]; simp; omega), hmem, hr]
      simp
    obtain ⟨m, out, h1, h2, tail, hout⟩ :=
      memcpyAt_terminated dst (slash :: d) (by simp; omega)
    refine ⟨out, by simp only [hend, hread, h1, Option.bind_some]; exact h2, ?_, ?_⟩
    · rw [hout]
      simp
    have hnz : 0 ∉ slash :: d := by
      intro h0
      rcases List.mem_cons.mp h0 with h0 | h0
      · exact absurd h0 (by decide)
      · exact hn.2 (by rw [hr]; exact List.mem_append_left _ h0)
    rw [hout, cstr_append_zero hnz, dirOf_of_mem hs, hd]
  · have hend : strchr (f.memory.drop (0 + 1)) slash = none :=
      strchr_none (by rw [hcstr]; exact hs)
    refine ⟨_, by simp only [hend]; exact memcpyAt_eq_some (by simp [hdst]), by simp, ?_⟩
    rw [dirOf_of_notMem hs]
    exact cstr_append_zero (s := [slash]) (by decide) _

/-- The base name of a path that stands in the entry, whatever follows it there. -/
theorem tgFileExtractFilename_terminated (hmem : f.memory = p ++ 0 :: rest) (hp : ValidPath p)
    (hdst : dst.length = 100) :
    ∃ out, tgFileExtractFilename dst f = some out ∧ 0 ∈ out ∧ cstr out = baseOf p := by
  obtain ⟨r, hr⟩ := hp.exists_cons
  obtain ⟨a, ha⟩ := split_last (p := p) (by rw [hr]; exact List.mem_cons_self ..)
  have hb := slash_notMem_baseOf p
  generalize baseOf p = b at ha hb ⊢
  have hl : a.length + b.length + 1 ≤ 99 := by
    have := hp.length_le
    rw [ha] at this
    simpa [Nat.add_assoc] using this
  have hcstr : cstr f.memory = a ++ slash :: b := by
    rw [hmem, cstr_append_zero hp.noNul, ← ha]
  have hptr : strrchr f.memory slash = some a.length := strrchr_last hcstr hb
  have hlen : f.pathStr.length - a.length = b.length + 1 := by
    rw [TgFile.pathStr, hcstr]
    simp
  have hmem' : f.memory = (a ++ [slash]) ++ ((b ++ [0]) ++ rest) := by rw [hmem, ha]; simp
  have hread : memread f.memory (a.length + 1) (b.length + 1) = some (b ++ [0]) := by
    rw [memread_eq_some (by rw [hmem']; simp; omega), hmem', List.drop_left' (by simp),
      List.take_left' (by simp)]
  obtain ⟨m, out, h1, h2, tail, hout⟩ :=
    memcpyAt_terminated dst (b ++ [0]) (by simp; omega)
  refine ⟨out, ?_, ?_, ?_⟩
  · simp only [tgFileExtractFilename, hptr, hlen, hread, h1, Option.bind_eq_bind, Option.bind_some]
    simpa using h2
  · rw [hout]
    simp
  · have hnz : 0 ∉ b := by
      intro h0
      exact hp.noNul (by rw [ha]; simp [h0])
    rw [hout, List.append_assoc]
    exact cstr_append_zero hnz _

/-- The directory of a stored path, as the string `dst` ends up holding. -/
theorem tgFileExtractDirectory_spec (hf : f.HasPath p) (hp : ValidPath p)
    (hdst : dst.length = 100) :
    ∃ out, tgFileExtractDirectory dst f = some out ∧ cstr out = dirOf p := by
  obtain ⟨rest, hmem⟩ := hf.memory_eq hp
  obtain ⟨out, hout, -, hstr⟩ := tgFileExtractDirectory_terminated hmem hp hdst
  exact ⟨out, hout, hstr⟩

/-- The base name of a stored path, as the string `dst` ends up holding. -/
theorem tgFileExtractFilename_spec (hf : f.HasPath p) (hp : ValidPath p)
    (hdst : dst.length = 100) :
    ∃ out, tgFileExtractFilename dst f = some out ∧ cstr out = baseOf p := by
  obtain ⟨rest, hmem⟩ := hf.memory_eq hp
  obtain ⟨out, hout, -, hstr⟩ := tgFileExtractFilename_terminated hmem hp hdst
  exact ⟨out, hout, hstr⟩

end TgFuse

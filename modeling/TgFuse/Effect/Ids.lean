/-
  TgFuse.Effect.Ids

  What the extraction of an id leaves in the two id arrays of an entry, which file id a
  response shows (`ShowsFileId`), and the invariant that goes with the extraction: an
  entry without a file id has an array of zeros for one (`TgFile.Clean`).
-/

import TgFuse.Effect.Step

namespace TgFuse

open CString Interact KeyedList Lts

variable {f g : TgFile} {buf p v w : List UInt8}

theorem fileIdMemory_length (f : TgFile) : f.fileIdMemory.length = 200 := by
  rw [TgFile.fileIdMemory, List.length_append, f.fileId.length_bytes, f.messageId.length_bytes]
  rfl

/-- A string is empty when its array starts with a NUL. -/
theorem fileIdStr_eq_nil_iff : f.fileIdStr = [] ↔ f.fileId.bytes.head? = some 0 := by
  have hlen := f.fileId.length_bytes
  rw [TgFile.fileIdStr, TgFile.fileIdMemory]
  cases h : f.fileId.bytes with
  | nil =>
      rw [h] at hlen
      cases hlen
  | cons b bs => simp [cstr, List.takeWhile_cons]

-- ============================================================================
-- One extraction
-- ============================================================================

/-- The file id after something has been extracted into it. -/
theorem parseFileId_stored (hbuf : buf.length < 2 ^ 64) (h : parseFileId f buf = some g) :
    ∃ v, 0 ∉ v ∧ v.length ≤ 200 ∧
      g = f.setFileIdMemory (v ++ f.fileIdMemory.drop v.length) := by
  obtain ⟨r, hr, rfl⟩ := Option.map_eq_some_iff.mp h
  have hlen := fileIdMemory_length f
  obtain ⟨v, hv, hfit, hout⟩ := parse_inv (by rw [hlen]; decide) hbuf hr
  exact ⟨v, hv, hlen ▸ hfit, by rw [hout]⟩

/-- A short text stays clear of the message id. -/
theorem setFileIdMemory_messageId (hv : v.length ≤ fieldSize) :
    (f.setFileIdMemory (v ++ f.fileIdMemory.drop v.length)).messageId = f.messageId := by
  have hdrop : (v ++ f.fileIdMemory.drop v.length).drop fieldSize = f.messageId.bytes := by
    rw [List.drop_append, List.drop_eq_nil_of_le hv, List.nil_append, List.drop_drop,
      Nat.add_sub_cancel' hv]
    exact List.drop_left' f.fileId.length_bytes
  show CharArray.ofList ((v ++ f.fileIdMemory.drop v.length).drop fieldSize) = f.messageId
  rw [hdrop, CharArray.ofList_bytes]

/-- A blank array holds exactly what has been stored in it. -/
theorem setFileIdMemory_holds_iff (hz : f.fileId = .zeros) (hv : 0 ∉ v) (hlen : v.length ≤ 200) :
    (f.setFileIdMemory (v ++ f.fileIdMemory.drop v.length)).fileId.Holds w ↔
      v = w ∧ v.length < fieldSize := by
  apply CharArray.holds_ofList_iff hv
  · rw [List.length_append, List.length_drop, fileIdMemory_length]
    unfold fieldSize
    omega
  · intro hlt
    rw [TgFile.fileIdMemory, hz, CharArray.bytes_zeros, List.drop_append_of_le_length
      (by rw [List.length_replicate]; omega), List.drop_replicate,
      show fieldSize - v.length = (fieldSize - v.length - 1) + 1 by omega, List.replicate_succ]
    rfl

/-- What the file id holds afterwards is the value that stands in the response. -/
theorem valueAt_of_parseFileId (hz : f.fileId = .zeros)
    (hp : ∀ dst, parseResponseFieldFromJson dst buf (text "file_id") = copyValue dst p)
    (hplen : p.length < 2 ^ 64) (h : parseFileId f buf = some g) (hw : w ≠ [])
    (hhold : g.fileId.Holds w) :
    ValueAt p w ∧ w.length < fieldSize ∧ g.messageId = f.messageId := by
  obtain ⟨⟨n, out⟩, hr, rfl⟩ := Option.map_eq_some_iff.mp h
  rw [hp] at hr
  have hlen := fileIdMemory_length f
  rcases copyValue_inv (by rw [hlen]; decide) hplen hr with rfl | ⟨v, hval, hfit, rfl⟩
  · -- nothing was copied, so the array is still blank
    have hold := (setFileIdMemory_holds_iff (v := []) hz (by simp) (by simp)).mp
      (by simpa using hhold)
    exact absurd hold.1.symm hw
  · obtain ⟨rfl, hlt⟩ :=
      (setFileIdMemory_holds_iff hz hval.plain.zero_notMem (hlen ▸ hfit)).mp hhold
    exact ⟨hval, hlt, setFileIdMemory_messageId (Nat.le_of_lt hlt)⟩

/-- A value that fits its array is stored there, and nothing else changes. -/
theorem parseFileId_of_valueAt (hz : f.fileId = .zeros)
    (hp : ∀ dst, parseResponseFieldFromJson dst buf (text "file_id") = copyValue dst p)
    (hval : ValueAt p w) (hlt : w.length < fieldSize) :
    ∃ g, parseFileId f buf = some g ∧ g.fileId.Holds w ∧ g.messageId = f.messageId := by
  have hlt' : w.length < 100 := hlt
  have hfit : w.length ≤ f.fileIdMemory.length := by
    rw [fileIdMemory_length]
    omega
  refine ⟨f.setFileIdMemory (w ++ f.fileIdMemory.drop w.length), ?_, ?_, ?_⟩
  · rw [parseFileId, hp, copyValue_of_valueAt hval hfit (by omega), Option.map_some]
  · exact (setFileIdMemory_holds_iff hz hval.plain.zero_notMem (by omega)).mpr ⟨rfl, hlt⟩
  · exact setFileIdMemory_messageId (Nat.le_of_lt hlt)

/-- The file id that stands in a response: the value behind the first `file_id`. -/
def ShowsFileId (buf fid : List UInt8) : Prop :=
  ∃ m, strstr buf (text "file_id") = some m ∧
    ValueAt (buf.drop (m + (text "file_id").length + 2)) fid

/-- A short text in the file id is all that is read of the two arrays. -/
theorem fileId_holds_iff (hw : w.length < fieldSize) : f.fileId.Holds w ↔ f.fileIdStr = w := by
  constructor
  · rintro ⟨hz, hstr⟩
    rw [TgFile.fileIdStr, TgFile.fileIdMemory, cstr_append_of_mem hz]
    exact hstr
  · rintro rfl
    have hz : 0 ∈ f.fileId.bytes := by
      by_contra hno
      have hlen := f.fileId.length_bytes
      have hpre : f.fileIdStr = f.fileId.bytes ++ cstr f.messageId.bytes := by
        rw [TgFile.fileIdStr, TgFile.fileIdMemory, cstr, List.takeWhile_append_of_pos]
        · rfl
        · intro c hc
          have : c ≠ 0 := fun h => hno (h ▸ hc)
          simpa using this
      rw [hpre, List.length_append] at hw
      omega
    refine ⟨hz, ?_⟩
    rw [TgFile.fileIdStr, TgFile.fileIdMemory, cstr_append_of_mem hz]
    rfl

/-- The file id read from a response is the one that it shows. -/
theorem showsFileId_iff (hz : f.fileId = .zeros) (hbuf : buf.length < 2 ^ 64)
    (h : parseFileId f buf = some g) (hw : w ≠ []) (hlt : w.length < fieldSize) :
    ShowsFileId buf w ↔ g.fileId.Holds w := by
  obtain ⟨m, hm⟩ : ∃ m, strstr buf (text "file_id") = some m := by
    cases hfind : strstr buf (text "file_id") with
    | none => simp [parseFileId, parseResponseFieldFromJson, hfind] at h
    | some m => exact ⟨m, rfl⟩
  have hp : ∀ dst, parseResponseFieldFromJson dst buf (text "file_id")
      = copyValue dst (buf.drop (m + (text "file_id").length + 2)) := by
    intro dst
    rw [parseResponseFieldFromJson, hm]
  constructor
  · rintro ⟨n, hn, hval⟩
    obtain rfl : m = n := Option.some.inj (hm.symm.trans hn)
    obtain ⟨g', hg', hhold, -⟩ := parseFileId_of_valueAt hz hp hval hlt
    rw [h] at hg'
    cases hg'
    exact hhold
  · intro hhold
    have hlen := length_drop_lt hbuf (m + (text "file_id").length + 2)
    obtain ⟨hval, -⟩ := valueAt_of_parseFileId hz hp hlen h hw hhold
    exact ⟨m, hm, hval⟩

theorem strncpy_isSome (dst src : List UInt8) (n : Nat) :
    (strncpy dst src n).isSome = decide (n ≤ dst.length) := by
  unfold strncpy
  split
  · next h => exact (decide_eq_true h).symm
  · next h => exact (decide_eq_false h).symm

/-- Whether there is room for a value does not depend on what was there. -/
theorem parse_isSome_congr {dst dst' src field : List UInt8} (h : dst.length = dst'.length) :
    (parseResponseFieldFromJson dst src field).isSome
      = (parseResponseFieldFromJson dst' src field).isSome := by
  unfold parseResponseFieldFromJson
  cases strstr src field with
  | none => rfl
  | some m =>
      simp only
      cases src.drop (m + field.length + 2) with
      | nil => rfl
      | cons c q =>
          simp only [copyValue]
          cases strpbrk (c :: q) valueEnd with
          | none =>
              simp only
              split <;> rfl
          | some e =>
              by_cases hq : c = quote
              · simp only [if_pos hq, Option.isSome_map, strncpy_isSome, h]
              · simp only [if_neg hq, Option.isSome_map, strncpy_isSome, h]

/-- The message id after an exact extraction: bytes of a longer one may be left. -/
theorem setMessageIdMemory_holds_iff (hv : 0 ∉ v) :
    (f.setMessageIdMemory (v ++ f.messageId.bytes.drop v.length)).messageId.Holds v ↔
      f.messageId.bytes[v.length]? = some 0 := by
  have hlen := f.messageId.length_bytes
  constructor
  · intro ⟨hz, hstr⟩
    have hlt := CharArray.Holds.length_lt ⟨hz, hstr⟩
    have hbytes : (CharArray.ofList (v ++ f.messageId.bytes.drop v.length) :
        CharArray fieldSize).bytes
        = v ++ f.messageId.bytes.drop v.length := CharArray.bytes_ofList_of_length (by simp; omega)
    have hget := CharArray.Holds.getElem?_length ⟨hz, hstr⟩
    rw [TgFile.setMessageIdMemory, hbytes, List.getElem?_append_right (Nat.le_refl _),
      List.getElem?_drop, Nat.sub_self] at hget
    simpa using hget
  · intro h
    obtain ⟨hlt, -⟩ := List.getElem?_eq_some_iff.mp h
    refine (CharArray.holds_ofList_iff hv ?_ fun _ => ?_).mpr ⟨rfl, by omega⟩
    · simp only [List.length_append, List.length_drop]
      omega
    · rw [List.head?_drop]
      exact h

-- ============================================================================
-- Entries without a file id
-- ============================================================================

/-- An entry without a file id has a blank array for it. -/
def TgFile.Clean (f : TgFile) : Prop := f.fileIdStr = [] → f.fileId = .zeros

theorem TgFile.Clean.congr (hf : f.Clean) (h : g.fileId = f.fileId) : g.Clean := by
  intro hg
  rw [fileIdStr_eq_nil_iff, h, ← fileIdStr_eq_nil_iff] at hg
  exact h.trans (hf hg)

/-- Extraction into a blank array leaves it blank or starts a string in it. -/
theorem parseFileId_clean (hz : f.fileId = .zeros) (hbuf : buf.length < 2 ^ 64)
    (h : parseFileId f buf = some g) : g.Clean := by
  obtain ⟨v, hv, hlen, rfl⟩ := parseFileId_stored hbuf h
  intro hnil
  rw [fileIdStr_eq_nil_iff] at hnil
  cases v with
  | nil =>
      show CharArray.ofList (f.fileId.bytes ++ f.messageId.bytes) = .zeros
      ext1
      rw [CharArray.bytes_ofList, List.take_left' f.fileId.length_bytes, List.length_append,
        f.fileId.length_bytes, hz]
      simp
  | cons c v =>
      have hhead : (CharArray.ofList (c :: v ++ f.fileIdMemory.drop (c :: v).length) :
          CharArray fieldSize).bytes.head? = some c := by
        rw [CharArray.bytes_ofList]
        rfl
      rw [TgFile.setFileIdMemory, hhead] at hnil
      obtain rfl : c = 0 := Option.some.inj hnil
      exact absurd (List.mem_cons_self ..) hv

/-- An upload keeps entries clean, whatever the response. -/
theorem afterPut_clean {r : Response} {b : CharArray jsonResponseBufSize} (hf : f.Clean)
    (h : afterPut f r b.bytes = some g) : g.Clean := by
  have hbuf : b.bytes.length < 2 ^ 64 := by
    rw [b.length_bytes]
    decide
  unfold afterPut at h
  split at h
  · next hid =>
    unfold afterSend at h
    obtain ⟨ok, -, h⟩ := Option.bind_eq_some_iff.mp h
    split at h
    · obtain ⟨f₁, h₁, h₂⟩ := Option.bind_eq_some_iff.mp h
      obtain ⟨mem, rfl⟩ := parseMessageId_inv h₂
      have hclean := parseFileId_clean (hf (List.eq_nil_of_length_eq_zero hid)) hbuf h₁
      exact hclean.congr rfl
    · cases h
      exact hf
  · split at h
    · cases h
    · unfold afterEdit at h
      obtain ⟨ok, -, h⟩ := Option.bind_eq_some_iff.mp h
      split at h
      · exact parseFileId_clean rfl hbuf h
      · cases h
        exact hf

theorem TableStep.clean {st st' : TgStorage} {call : Call} {ret : Int} (hwf : st.Wf)
    (hclean : ∀ f ∈ st.live, f.Clean) (h : TableStep st call ret st') :
    ∀ f ∈ st'.live, f.Clean := by
  have happ : ∀ {g : TgFile}, st'.live = st.live ++ [g] → g.fileId = .zeros →
      ∀ f ∈ st'.live, f.Clean := by
    intro g hlive hg f hf
    rw [hlive, List.mem_append, List.mem_singleton] at hf
    rcases hf with hf | rfl
    · exact hclean f hf
    · exact fun _ => hg
  cases h with
  | query | createDir | writeDir | unlinkMissing | rmdirOther => exact hclean
  | create _ _ hlive => exact happ hlive rfl
  | mkdir _ hlive => exact happ hlive rfl
  | writeMissing _ _ hlive => exact happ hlive rfl
  | writeFile _ hf _ hafter =>
      intro g hg
      rw [setSlot_live] at hg
      rcases List.mem_or_eq_of_mem_set hg with hg | rfl
      · exact hclean g hg
      · exact (afterPut_clean (hclean _ (List.mem_of_getElem? hf)) hafter).congr rfl
  | unlink _ => exact fun g hg => hclean g (mem_without hwf.valid hg)
  | rmdir _ _ => exact fun g hg => hclean g (mem_rmdirTable hwf hg)

/-- Whatever is called and answered, the entries stay clean. -/
theorem reachable_clean {config : TgConfig} {s₀ s : Statics} {evs : List Event}
    (h0 : Initial s₀) (hrun : Run (PathStep config) s₀ evs s) : ∀ f ∈ s.storage.live, f.Clean := by
  have hinv : s.storage.Wf ∧ ∀ f ∈ s.storage.live, f.Clean := by
    refine hrun.invariant (P := fun _ t => t.storage.Wf ∧ ∀ f ∈ t.storage.live, f.Clean) ?_ ?_
    · obtain ⟨hwf, hlive, -⟩ := initial_live h0
      refine ⟨hwf, fun f hf => ?_⟩
      rw [hlive, List.mem_singleton] at hf
      rw [hf]
      exact fun _ => rfl
    · intro _ t ev u _ ⟨hwf, hclean⟩ ⟨hp, hstep⟩
      have htab := step_table hwf hp hstep
      exact ⟨htab.wf hwf, htab.clean hwf hclean⟩
  exact hinv.2

end TgFuse

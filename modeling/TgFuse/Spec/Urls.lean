/-
  TgFuse.Spec.Urls

  The URLs of the uploads, as the server reads them.

  `tg_put_file` writes the parameters with nothing encoded; so they arrive as
  they were meant exactly if the directory, and for an edit the message id,
  contains nothing that a query string gives a meaning to.
-/

import TgFuse.Lib.Query
import TgFuse.Spec.Reception

namespace TgFuse

open CString Interact Interact.Prog Query

-- ============================================================================
-- What is meant
-- ============================================================================

/-- The characters of chat ids and tokens. -/
def TelegramChar (b : UInt8) : Prop :=
  (48 ≤ b ∧ b ≤ 57) ∨ (65 ≤ b ∧ b ≤ 90) ∨ (97 ≤ b ∧ b ≤ 122) ∨ b ∈ text ":-_@"

/-- A configuration as it is given out. -/
structure TgConfig.Proper (config : TgConfig) : Prop where
  chatId : ∀ b ∈ config.chatId.str, TelegramChar b
  token : ∀ b ∈ config.token.str, TelegramChar b

/-- The parameters that an upload for an entry is meant to have. -/
def intendedParams (config : TgConfig) (f : TgFile) (caption : List UInt8) :
    List (List UInt8 × List UInt8) :=
  if f.fileIdStr.length = 0 then
    [(text "chat_id", config.chatId.str), (text "caption", caption)]
  else
    [(text "chat_id", config.chatId.str), (text "message_id", f.messageIdStr),
      (text "media", media), (text "caption", caption)]

section Urls

variable {config : TgConfig} {f : TgFile} {caption filename document v : List UInt8} {b : UInt8}

instance (b : UInt8) : Decidable (TelegramChar b) :=
  inferInstanceAs (Decidable ((48 ≤ b ∧ b ≤ 57) ∨ (65 ≤ b ∧ b ≤ 90) ∨ (97 ≤ b ∧ b ≤ 122) ∨
    b ∈ text ":-_@"))

theorem verbatim_of_telegramChar (h : ∀ b ∈ v, TelegramChar b) : Verbatim v := by
  have hno : ∀ c, ¬ TelegramChar c → c ∉ v := fun c hc hmem => hc (h c hmem)
  exact ⟨hno _ (by decide), hno _ (by decide), hno _ (by decide),
    not_hasEscape (hno _ (by decide))⟩

/-- The URL of an upload: the method, and the parameters as they are. -/
theorem putRequest_url (config : TgConfig) (f : TgFile) (caption filename document : List UInt8) :
    (putRequest config f caption filename document).url =
      text "https://api.telegram.org/bot" ++ config.token.str ++
        (if f.fileIdStr.length = 0 then text "/sendDocument" else text "/editMessageMedia") ++
        question :: write (intendedParams config f caption) := by
  have hchat : text "chat_id=" = text "chat_id" ++ [equals] := by decide
  have hcaption : text "&caption=" = amp :: (text "caption" ++ [equals]) := by decide
  have hsend : text "/sendDocument?chat_id=" = text "/sendDocument" ++ question ::
    (text "chat_id" ++ [equals]) := by decide
  have hedit : text "/editMessageMedia?chat_id=" = text "/editMessageMedia" ++ question ::
    (text "chat_id" ++ [equals]) := by decide
  have hmid : text "&message_id=" = amp :: (text "message_id" ++ [equals]) := by decide
  have hmedia : text "&media=" = amp :: (text "media" ++ [equals]) := by decide
  unfold putRequest intendedParams
  split
  · rw [Request.url, hsend, hcaption]
    simp [write, writePair]
  · rw [Request.url, hedit, hmid, hmedia, hcaption]
    simp [write, writePair]

theorem intendedParams_ne_nil : intendedParams config f caption ≠ [] := by
  unfold intendedParams
  split <;> exact List.cons_ne_nil _ _

/-- The names are fixed, and stand for themselves. -/
theorem intendedParams_names :
    ∀ p ∈ intendedParams config f caption, Verbatim p.1 ∧ equals ∉ p.1 := by
  have hnames : ∀ n ∈ [text "chat_id", text "message_id", text "media", text "caption"],
      Verbatim n ∧ equals ∉ n := by decide
  have hmem : ∀ p ∈ intendedParams config f caption,
      p.1 ∈ [text "chat_id", text "message_id", text "media", text "caption"] := by
    unfold intendedParams
    split <;> simp
  exact fun p hp => hnames _ (hmem p hp)

/-- Only the caption, and for an edit the message id, may be misread. -/
theorem intendedParams_verbatim_iff (hc : config.Proper) :
    (∀ p ∈ intendedParams config f caption, Verbatim p.2) ↔
      Verbatim caption ∧ (f.fileIdStr ≠ [] → Verbatim f.messageIdStr) := by
  have hchat := verbatim_of_telegramChar hc.chatId
  have hmedia : Verbatim media := by decide
  unfold intendedParams
  split
  · next hid =>
    have hnil := List.eq_nil_of_length_eq_zero hid
    simp [hchat, hnil]
  · next hid =>
    have hne : f.fileIdStr ≠ [] := fun h => hid (by rw [h]; rfl)
    simp [hchat, hmedia, hne, and_comm]

/-- The server reads what was meant exactly if the caption, and for an edit the
    message id, stand for themselves. -/
theorem parse_url_iff (hc : config.Proper) :
    parse (putRequest config f caption filename document).url = intendedParams config f caption ↔
      Verbatim caption ∧ (f.fileIdStr ≠ [] → Verbatim f.messageIdStr) := by
  have htoken : question ∉ config.token.str := fun h =>
    absurd (hc.token _ h) (by decide)
  have hpre : question ∉ text "https://api.telegram.org/bot" ++ config.token.str ++
      (if f.fileIdStr.length = 0 then text "/sendDocument" else text "/editMessageMedia") := by
    simp only [List.mem_append, not_or]
    refine ⟨⟨by decide, htoken⟩, ?_⟩
    split <;> decide
  rw [putRequest_url, parse_append hpre, parseQuery_write_iff intendedParams_ne_nil
    intendedParams_names, intendedParams_verbatim_iff hc]

end Urls

-- ============================================================================
-- tg_put_file
-- ============================================================================

/-- The upload that `tg_put_file` sends for a stored file has the parameters it is meant
    to have exactly if the file's directory, and for an edit its message id, stand for
    themselves in a query string. -/
theorem url_params_iff {config : TgConfig} {s : Statics} {ptr : FilePtr} {f : TgFile}
    (data : Buffer) (hc : config.Proper) (h : ptr.peek s = some f) (hf : f.Named) :
    ∃ q k out, advance (tgPutFile ptr config data) s = .waiting q k s ∧
      tgFileExtractDirectory uninit f = some out ∧ cstr out = dirOf f.pathStr ∧
      (parse q.url = intendedParams config f (cstr out) ↔
        Verbatim (dirOf f.pathStr) ∧ (f.fileIdStr ≠ [] → Verbatim f.messageIdStr)) := by
  have hadv := advance_tgPutFile config data h hf
  obtain ⟨out, hout, hdir⟩ := tgFileExtractDirectory_spec hf.hasPath hf.valid uninit_length
  refine ⟨_, _, out, hadv, hout, hdir, ?_⟩
  rw [hdir]
  exact parse_url_iff hc

/-- A bot and its channel. -/
def sampleConfig : TgConfig := ⟨.ofList (text "-100"), .ofList (text "1:A")⟩

theorem sampleConfig_proper : sampleConfig.Proper := by
  constructor
  · decide +kernel
  · decide +kernel

/-- A new file, on its way to its first upload. -/
theorem sampleUpload_peek (p : List UInt8) :
    (FilePtr.var (newFile p 0)).peek sampleRefused = some (newFile p 0) := rfl

/-- The upload of a file in `/d` is read as it is meant; that of one in `/a&chat_id=1` is not. -/
theorem url_params_iff_sample :
    (∃ q k, advance (tgPutFile (.var (newFile (text "/d/x") 0)) sampleConfig (bufferNew fun _ => 0))
        sampleRefused = .waiting q k sampleRefused ∧
      parse q.url = intendedParams sampleConfig (newFile (text "/d/x") 0) (text "/d")) ∧
    ∃ q k, advance (tgPutFile (.var (newFile (text "/a&chat_id=1/x") 0)) sampleConfig
        (bufferNew fun _ => 0)) sampleRefused = .waiting q k sampleRefused ∧
      parse q.url ≠
        intendedParams sampleConfig (newFile (text "/a&chat_id=1/x") 0) (text "/a&chat_id=1") := by
  have hnamed : ∀ p, ValidPath p → (newFile p 0).Named := fun p hp =>
    (newFile_hasPath p 0).named hp
  constructor
  · obtain ⟨q, k, out, hadv, -, hdir, hiff⟩ := url_params_iff (bufferNew fun _ => 0)
      sampleConfig_proper (sampleUpload_peek _) (hnamed (text "/d/x") (by decide))
    rw [newFile_pathStr (by decide), show dirOf (text "/d/x") = text "/d" from by decide]
      at hdir hiff
    rw [hdir] at hiff
    refine ⟨q, k, hadv, hiff.mpr ⟨by decide, fun hne => ?_⟩⟩
    exact absurd (newFile_fileIdStr _ _) hne
  · obtain ⟨q, k, out, hadv, -, hdir, hiff⟩ := url_params_iff (bufferNew fun _ => 0)
      sampleConfig_proper (sampleUpload_peek _) (hnamed (text "/a&chat_id=1/x") (by decide))
    have hparent : dirOf (text "/a&chat_id=1/x") = text "/a&chat_id=1" := by decide
    rw [newFile_pathStr (by decide), hparent] at hdir hiff
    rw [hdir] at hiff
    exact ⟨q, k, hadv, fun h => absurd (hiff.mp h).1 (by decide)⟩

/-- A directory name can add a parameter. -/
theorem directory_overrides_chat :
    ¬ ∀ (config : TgConfig) (s : Statics) (ptr : FilePtr) (f : TgFile) (data : Buffer),
      config.Proper → ptr.peek s = some f → f.Named →
      ∃ q k out, advance (tgPutFile ptr config data) s = .waiting q k s ∧
        tgFileExtractDirectory uninit f = some out ∧
        parse q.url = intendedParams config f (cstr out) := by
  intro hall
  have hnamed : (newFile (text "/a&chat_id=1/x") 0).Named :=
    (newFile_hasPath _ 0).named (by decide)
  obtain ⟨q, k, out, hadv, hout, hparse⟩ := hall sampleConfig sampleRefused _ _
    (bufferNew fun _ => 0) sampleConfig_proper (sampleUpload_peek _) hnamed
  have hadv' := advance_tgPutFile sampleConfig (bufferNew fun _ => 0) (sampleUpload_peek _) hnamed
  obtain ⟨hq, -⟩ := Pause.waiting.inj (hadv'.symm.trans hadv)
  obtain ⟨out', hout', hdir⟩ :=
    tgFileExtractDirectory_spec hnamed.hasPath hnamed.valid uninit_length
  obtain rfl : out = out' := Option.some.inj (hout.symm.trans hout')
  rw [← hq, hdir, parse_url_iff sampleConfig_proper, newFile_pathStr (by decide)] at hparse
  exact absurd hparse.1 (by decide)

end TgFuse

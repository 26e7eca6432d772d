/-
  TgFuse.Model.TgApi

  The Bot API calls of `tg_file.c`: `tg_put_file`, `tg_file_load_contents` and
  `tg_remove_message_with_file`, as programs that exchange HTTP requests for
  responses.

  A response is what libcurl does with it: the chunks it hands to the write
  callback, in order, and the code `curl_easy_perform` returns.  Responses to API
  methods go through `curl_response_json_writer` into the one static
  `json_response_buf` (`receive`); a downloaded file goes through
  `curl_response_file_writer` into a buffer of the handler's own.

  `curl_easy_init` and the `curl_mime_*` calls, which only allocate, succeed.
-/

import TgFuse.Lib.Interact
import TgFuse.Model.Storage

namespace TgFuse

open CString Interact Interact.Prog

-- ============================================================================
-- Requests and responses
-- ============================================================================

/-- `tg_config`. -/
structure TgConfig where
  chatId : CharArray 100
  token : CharArray 100
deriving DecidableEq

/-- `media` of `tg_put_file`. -/
def media : List UInt8 :=
  text "\x7b\"type\":\"document\",\"media\":\"attach://document\"\x7d"

/-- The five requests of the program, with what their URL and their MIME part
    `document` are made of. -/
inductive Request where
  | sendDocument (config : TgConfig) (caption filename document : List UInt8)
  | editMessageMedia (config : TgConfig) (messageId caption filename document : List UInt8)
  | getFile (config : TgConfig) (fileId : List UInt8)
  | download (config : TgConfig) (filePath : List UInt8)
  | deleteMessage (config : TgConfig) (messageId : List UInt8)
deriving DecidableEq

/-- The URL that `sprintf` builds. -/
def Request.url : Request → List UInt8
  | .sendDocument config caption _ _ =>
      text "https://api.telegram.org/bot" ++ config.token.str ++
        text "/sendDocument?chat_id=" ++ config.chatId.str ++ text "&caption=" ++ caption
  | .editMessageMedia config messageId caption _ _ =>
      text "https://api.telegram.org/bot" ++ config.token.str ++
        text "/editMessageMedia?chat_id=" ++ config.chatId.str ++
        text "&message_id=" ++ messageId ++ text "&media=" ++ media ++
        text "&caption=" ++ caption
  | .getFile config fileId =>
      text "https://api.telegram.org/bot" ++ config.token.str ++
        text "/getFile?file_id=" ++ fileId
  | .download config filePath =>
      text "https://api.telegram.org/file/bot" ++ config.token.str ++ text "/" ++ filePath
  | .deleteMessage config messageId =>
      text "https://api.telegram.org/bot" ++ config.token.str ++
        text "/deleteMessage?chat_id=" ++ config.chatId.str ++
        text "&message_id=" ++ messageId

/-- `CURLcode`. -/
abbrev CURLcode := Nat

/-- `CURLE_OK`. -/
def curleOk : CURLcode := 0

/-- What a transfer delivers: the chunks given to the write callback, and the
    code it ends with. -/
structure Response where
  code : CURLcode
  chunks : List (List UInt8)
deriving DecidableEq

/-- The static variables of the program that handlers share. -/
structure Statics where
  storage : TgStorage
  jsonResponseBuf : CharArray jsonResponseBufSize
deriving DecidableEq

/-- Feed the chunks of a response to `curl_response_json_writer`. -/
def receiveJson (r : Response) (buf : CharArray jsonResponseBufSize) :
    Option (CharArray jsonResponseBufSize) :=
  r.chunks.foldlM curlResponseJsonWriter buf

/-- What the write callback does to the static state before the handler goes on. -/
def receive : Request → Response → Statics → Option Statics
  | .download .., _, s => some s
  | _, r, s => (receiveJson r s.jsonResponseBuf).map fun b => { s with jsonResponseBuf := b }

/-- Handlers: programs over the static state. -/
abbrev Handler := Prog Statics Request Response

-- ============================================================================
-- Pointers to entries
-- ============================================================================

/-- A `tg_file *`: a slot of `storage.files`, or a local variable, whose value
    travels with the pointer. -/
inductive FilePtr where
  | slot (i : Nat)
  | var (f : TgFile)
deriving DecidableEq

/-- `*file`. -/
def FilePtr.load : FilePtr → Handler TgFile
  | .slot i => do
      let s ← getState
      liftOption s.storage.files[i]?
  | .var f => pure f

/-- `*file = f`. -/
def FilePtr.store (f : TgFile) : FilePtr → Handler FilePtr
  | .slot i => do
      let s ← getState
      setState { s with storage := { s.storage with files := s.storage.files.set i f } }
      return .slot i
  | .var _ => return .var f

-- ============================================================================
-- tg_put_file
-- ============================================================================

/-- `parse_response_field_from_json(file->file_id, json_response_buf, "file_id")`. -/
def parseFileId (file : TgFile) (buf : List UInt8) : Option TgFile :=
  (parseResponseFieldFromJson file.fileIdMemory buf (text "file_id")).map fun r =>
    file.setFileIdMemory r.2

/-- `parse_response_field_from_json(file->message_id, json_response_buf, "message_id")`. -/
def parseMessageId (file : TgFile) (buf : List UInt8) : Option TgFile :=
  (parseResponseFieldFromJson file.messageId.bytes buf (text "message_id")).map fun r =>
    file.setMessageIdMemory r.2

/-- What `tg_put_file` makes of `json_response_buf` after `sendDocument`. -/
def afterSend (file : TgFile) (buf : List UInt8) : Option TgFile := do
  let ok ← checkOkStatusInJson buf
  if ok then
    let file ← parseFileId file buf
    parseMessageId file buf
  else some file

/-- What `tg_put_file` makes of `json_response_buf` after `editMessageMedia`. -/
def afterEdit (file : TgFile) (buf : List UInt8) : Option TgFile := do
  let ok ← checkOkStatusInJson buf
  if ok then parseFileId { file with fileId := .zeros } buf else some file

/-- `tg_put_file`. -/
def tgPutFile (file : FilePtr) (config : TgConfig) (data : Buffer) : Handler FilePtr := do
  let f ← file.load
  let filename ← liftOption (tgFileExtractFilename uninit f)
  let directory ← liftOption (tgFileExtractDirectory uninit f)
  if f.fileIdStr.length = 0 then
    -- `if (code != CURLE_OK) { }`: the code is not looked at
    let _ ← exchange (.sendDocument config (cstr directory) (cstr filename) data.contents)
    let s ← getState
    let f ← file.load
    let f ← liftOption (afterSend f s.jsonResponseBuf.bytes)
    file.store f
  else
    let r ← exchange
      (.editMessageMedia config f.messageIdStr (cstr directory) (cstr filename) data.contents)
    if r.code ≠ curleOk then
      -- assert(false && "COULD NOT SEND PUT FILE REQUEST")
      .fault
    else
      let s ← getState
      let f ← file.load
      let f ← liftOption (afterEdit f s.jsonResponseBuf.bytes)
      file.store f

-- ============================================================================
-- tg_file_load_contents
-- ============================================================================

/-- `curl_response_file_writer`. -/
def curlResponseFileWriter (fill : Nat → UInt8) (p : Buffer) (data : List UInt8) : Option Buffer :=
  bufferAppend fill p data

/-- `tg_file_load_contents`. -/
def tgFileLoadContents (fill : Nat → UInt8) (config : TgConfig) (src : FilePtr) :
    Handler Buffer := do
  let s ← getState
  setState { s with jsonResponseBuf := .zeros }
  let f ← src.load
  let r ← exchange (.getFile config f.fileIdStr)
  if r.code ≠ curleOk then
    return bufferNew fill
  else
    let s ← getState
    let ok ← liftOption (checkOkStatusInJson s.jsonResponseBuf.bytes)
    if ¬ ok then
      return bufferNew fill
    else
      let filePath ← liftOption (parseResponseFieldFromJson (List.replicate fieldSize 0)
        s.jsonResponseBuf.bytes (text "file_path"))
      -- both outcomes of this transfer return what has been received
      let r ← exchange (.download config (cstr filePath.2))
      liftOption (r.chunks.foldlM (curlResponseFileWriter fill) (bufferNew fill))

-- ============================================================================
-- tg_remove_message_with_file
-- ============================================================================

/-- `tg_remove_message_with_file`. -/
def tgRemoveMessageWithFile (config : TgConfig) (file : FilePtr) : Handler Int := do
  let f ← file.load
  let r ← exchange (.deleteMessage config f.messageIdStr)
  if r.code ≠ curleOk then
    return 0
  else
    let s ← getState
    let _ ← liftOption (checkOkStatusInJson s.jsonResponseBuf.bytes)
    return 0

end TgFuse

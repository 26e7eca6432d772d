/-
  TgFuse.Model.Handlers

  The FUSE operations of `main.c`, each a program over the static state, and
  `Call`, the calls libfuse makes.

  `heap` is what memory fresh from `malloc` and `realloc` holds during the call.
  `off_t` is a signed and `size_t` an unsigned 64-bit integer; the results are
  `int`s.
-/

import TgFuse.Model.TgApi

namespace TgFuse

open CString Interact Interact.Prog

-- ============================================================================
-- Integer conversions, error numbers, struct stat
-- ============================================================================

/-- A `size_t` as an `off_t`. -/
def offT (n : Nat) : Int := Int.bmod n (2 ^ 64)

/-- An `off_t` as a `size_t`. -/
def sizeOfOff (o : Int) : Nat := (o % 2 ^ 64).toNat

/-- A `size_t` as an `int`. -/
def cint (n : Nat) : Int := Int.bmod n (2 ^ 32)

/-- `ENOENT`, `ENOTDIR`, `EISDIR`. -/
def enoent : Int := 2
def enotdir : Int := 20
def eisdir : Int := 21

/-- The fields of `struct stat` that `hello_getattr` fills in. -/
structure Stat where
  stMode : Nat
  stNlink : Nat
  stSize : Int
deriving DecidableEq

/-- `S_IFDIR | 0777` and `S_IFREG | 0777`. -/
def modeDir : Nat := 0o040777
def modeReg : Nat := 0o100777

/-- What fresh heap memory holds: buffer bytes by position, table slots by index. -/
structure Heap where
  bytes : Nat → UInt8
  slots : Nat → TgFile

-- ============================================================================
-- The operations
-- ============================================================================

/-- `tg_storage_find_by_path(&storage, path)`. -/
def findByPath (path : List UInt8) : Handler (Option Nat) := do
  let s ← getState
  return tgStorageFindByPath s.storage path

/-- `tg_storage_push(&storage, f)`. -/
def pushFile (heap : Heap) (f : TgFile) : Handler Unit := do
  let s ← getState
  let storage ← liftOption (tgStoragePush heap.slots s.storage f)
  setState { s with storage }

/-- `tg_storage_remove_by_path(&storage, path)`. -/
def removeByPath (path : List UInt8) : Handler TgFile := do
  let s ← getState
  setState { s with storage := (tgStorageRemoveByPath s.storage path).2 }
  return (tgStorageRemoveByPath s.storage path).1

/-- `hello_getattr`. -/
def helloGetattr (path : List UInt8) : Handler (Int × Stat) := do
  if path = text "/" then
    return (0, { stMode := modeDir, stNlink := 2, stSize := 0 })
  else
    match ← findByPath path with
    | some i =>
        let file ← (FilePtr.slot i).load
        match file.type with
        | .tgFile => return (0, { stMode := modeReg, stNlink := 1, stSize := offT file.fileSize })
        | .tgDir => return (0, { stMode := modeDir, stNlink := 1, stSize := 0 })
    | none => return (-enoent, { stMode := 0, stNlink := 0, stSize := 0 })

/-- The loop of `hello_rmdir`, searching from slot `start` on.  Every round takes
    up a later slot, so the number of slots bounds the rounds. -/
def rmdirLoop (config : TgConfig) (path : List UInt8) : Nat → Nat → Handler Unit
  | 0, _ => .fault
  | rounds + 1, start => do
      let s ← getState
      match ← liftOption (tgStorageFindFilesByDir s.storage path start) with
      | none => return ()
      | some i =>
          let file ← (FilePtr.slot i).load
          let _ ← if file.fileSize > 0 then
              tgRemoveMessageWithFile config (.slot i)
            else pure 0
          let file ← (FilePtr.slot i).load
          let _ ← removeByPath file.pathStr
          rmdirLoop config path rounds (i + 1)

/-- `hello_rmdir`. -/
def helloRmdir (config : TgConfig) (path : List UInt8) : Handler Int := do
  match ← findByPath path with
  | none => return -enotdir
  | some i =>
      let dir ← (FilePtr.slot i).load
      if dir.type = .tgFile then
        return -enotdir
      else
        let s ← getState
        rmdirLoop config path (s.storage.size + 1) 0
        let _ ← removeByPath path
        return 0

/-- The loop of `hello_readdir`: the names it passes to `filler`. -/
def readdirLoop (st : TgStorage) (path : List UInt8) : Nat → Nat → Option (List (List UInt8))
  | 0, _ => none
  | rounds + 1, start => do
      match ← tgStorageFindFilesByDir st path start with
      | none => some []
      | some i =>
          let cur ← st.files[i]?
          let filename ← tgFileExtractFilename uninit cur
          let names ← readdirLoop st path rounds (i + 1)
          some (cstr filename :: names)

/-- `hello_readdir`: the result and the names passed to `filler`. -/
def helloReaddir (path : List UInt8) : Handler (Int × List (List UInt8)) := do
  match ← findByPath path with
  | none => return (-enoent, [])
  | some i =>
      let dir ← (FilePtr.slot i).load
      if dir.type ≠ .tgDir then
        return (-enoent, [])
      else
        let s ← getState
        let names ← liftOption (readdirLoop s.storage path (s.storage.size + 1) 0)
        return (0, text "." :: text ".." :: names)

/-- `hello_create`. -/
def helloCreate (heap : Heap) (path : List UInt8) : Handler Int := do
  let isDir ← match ← findByPath path with
    | some i => do
        let file ← (FilePtr.slot i).load
        pure (decide (file.type = .tgDir))
    | none => pure false
  if isDir then
    return -eisdir
  else
    let newFile ← liftOption (tgFileNewFile path 0)
    pushFile heap newFile
    return 0

/-- `hello_open`. -/
def helloOpen (path : List UInt8) : Handler Int := do
  match ← findByPath path with
  | none => return -enoent
  | some _ => return 0

/-- `hello_read`: the result and the bytes copied to `buf`. -/
def helloRead (heap : Heap) (config : TgConfig) (path : List UInt8) (size : Nat) (offset : Int) :
    Handler (Int × List UInt8) := do
  match ← findByPath path with
  | none => return (-enoent, [])
  | some i =>
      let file ← (FilePtr.slot i).load
      if file.fileIdStr.length = 0 then
        return (0, [])
      else
        let src ← tgFileLoadContents heap.bytes config (.slot i)
        if src.size = 0 then
          return (-enoent, [])
        else
          let len := src.size
          if offset < offT len then
            let size := if sizeT (sizeOfOff offset + size) > len then
                sizeSub len (sizeOfOff offset)
              else size
            let buf ← liftOption (memread src.ptr (sizeOfOff offset) size)
            return (cint size, buf)
          else
            return (0, [])

/-- The part of `hello_write` after `data` has been obtained. -/
def writeData (heap : Heap) (config : TgConfig) (file : FilePtr) (data : Buffer)
    (buf : List UInt8) (offset : Int) : Handler Int := do
  let data ← liftOption (bufferInsert heap.bytes data (sizeOfOff offset) buf)
  let file ← tgPutFile file config data
  let f ← file.load
  let _ ← file.store { f with fileSize := data.size }
  return cint buf.length

/-- `hello_write`; `size` is the length of `buf`. -/
def helloWrite (heap : Heap) (config : TgConfig) (path buf : List UInt8) (offset : Int) :
    Handler Int := do
  match ← findByPath path with
  | none =>
      let ifNo ← liftOption (tgFileNewFile path (sizeT (sizeOfOff offset + buf.length)))
      pushFile heap ifNo
      -- `file = &if_no`: the local record, not the slot it was copied to
      writeData heap config (.var ifNo) (bufferNew heap.bytes) buf offset
  | some i =>
      let file ← (FilePtr.slot i).load
      if file.type = .tgDir then
        return -enoent
      else if file.fileSize > 0 then
        let data ← tgFileLoadContents heap.bytes config (.slot i)
        writeData heap config (.slot i) data buf offset
      else
        writeData heap config (.slot i) (bufferNew heap.bytes) buf offset

/-- `hello_mkdir`. -/
def helloMkdir (heap : Heap) (path : List UInt8) : Handler Int := do
  let dir ← liftOption (tgFileNewDir path)
  pushFile heap dir
  return 0

/-- `hello_unlink`. -/
def helloUnlink (config : TgConfig) (path : List UInt8) : Handler Int := do
  let file ← removeByPath path
  if file.pathStr.length = 0 then
    return -enoent
  else
    let _ ← tgRemoveMessageWithFile config (.var file)
    return 0

/-- `hello_setxattr`. -/
def helloSetxattr (_path : List UInt8) : Handler Int := return 0

/-- `hello_utimens`. -/
def helloUtimens (_path : List UInt8) : Handler Int := return 0

-- ============================================================================
-- Calls
-- ============================================================================

/-- A call of one of the `fuse_operations`. -/
inductive Call where
  | getattr (path : List UInt8)
  | rmdir (path : List UInt8)
  | readdir (path : List UInt8)
  | create (path : List UInt8)
  | open (path : List UInt8)
  | read (path : List UInt8) (size : Nat) (offset : Int)
  | write (path buf : List UInt8) (offset : Int)
  | mkdir (path : List UInt8)
  | unlink (path : List UInt8)
  | setxattr (path : List UInt8)
  | utimens (path : List UInt8)
deriving DecidableEq

/-- What a call hands back. -/
inductive Reply where
  | status (ret : Int)
  | stat (ret : Int) (st : Stat)
  | listing (ret : Int) (names : List (List UInt8))
  | data (ret : Int) (buf : List UInt8)
deriving DecidableEq

/-- The return value. -/
def Reply.ret : Reply → Int
  | .status ret | .stat ret _ | .listing ret _ | .data ret _ => ret

/-- The path a call is about. -/
def Call.path : Call → List UInt8
  | .getattr p | .rmdir p | .readdir p | .create p | .open p | .read p .. | .write p ..
  | .mkdir p | .unlink p | .setxattr p | .utimens p => p

/-- The entry of `hello_oper` a call goes to. -/
def Call.handler (heap : Heap) (config : TgConfig) : Call → Handler Reply
  | .getattr path => do let r ← helloGetattr path; return .stat r.1 r.2
  | .rmdir path => do let r ← helloRmdir config path; return .status r
  | .readdir path => do let r ← helloReaddir path; return .listing r.1 r.2
  | .create path => do let r ← helloCreate heap path; return .status r
  | .open path => do let r ← helloOpen path; return .status r
  | .read path size offset => do
      let r ← helloRead heap config path size offset
      return .data r.1 r.2
  | .write path buf offset => do
      let r ← helloWrite heap config path buf offset
      return .status r
  | .mkdir path => do let r ← helloMkdir heap path; return .status r
  | .unlink path => do let r ← helloUnlink config path; return .status r
  | .setxattr path => do let r ← helloSetxattr path; return .status r
  | .utimens path => do let r ← helloUtimens path; return .status r

/-- The static state `main` sets up: a storage that holds the directory `"/"`. -/
def mainInit (heap : Heap) : Option Statics := do
  let dir ← tgFileNewDir (text "/")
  let storage ← tgStoragePush heap.slots (tgStorageNew heap.slots) dir
  some { storage, jsonResponseBuf := .zeros }

end TgFuse

/-
  TgFuse.Model.Memory

  The handlers once more, with what they do to the heap: every block that
  `malloc` and `realloc` hand out, every one that `free` takes back, and every use
  of one through a pointer (`Tracked`).

  The heap is a ledger of blocks (`Blocks.Ledger`); what the blocks hold is in
  `TgStorage.files` and `Buffer.ptr` as before.  `realloc` may always move a block.
  Blocks of libcurl's own are not counted.
-/

import TgFuse.Lib.Blocks
import TgFuse.Lib.Follow
import TgFuse.Model.Handlers

namespace TgFuse

open Blocks CString Interact Interact.Prog

/-- The static variables, the heap, and the block that `storage.files` points to. -/
structure Memory where
  statics : Statics
  blocks : Ledger
  files : Nat

/-- Other static variables. -/
def Memory.withStatics (m : Memory) (s : Statics) : Memory := { m with statics := s }

/-- What the write callback does before the handler goes on. -/
def receiveTracked (q : Request) (r : Response) (m : Memory) : Option Memory :=
  (receive q r m.statics).map m.withStatics

/-- Handlers over the static state and the heap. -/
abbrev Tracked := Prog Memory Request Response

/-- A part of a handler that neither allocates nor frees. -/
def plain {α : Type} (p : Handler α) : Tracked α := zoom Memory.statics Memory.withStatics p

-- ============================================================================
-- The allocator
-- ============================================================================

/-- `malloc`. -/
def malloc : Tracked Nat := do
  let m ← getState
  setState { m with blocks := m.blocks.malloc }
  return m.blocks.next

/-- `free`. -/
def free (block : Nat) : Tracked Unit := do
  let m ← getState
  let blocks ← liftOption (m.blocks.free block)
  setState { m with blocks }

/-- `realloc`, which may move the block. -/
def reallocBlock (block : Nat) : Tracked Nat := do
  free block
  malloc

/-- `if (full) block = realloc(block, ..)`. -/
def growBlock (full : Prop) [Decidable full] (block : Nat) : Tracked Nat :=
  if full then reallocBlock block else pure block

/-- Reading or writing the block. -/
def touch (block : Nat) : Tracked Unit := do
  let m ← getState
  liftOption (m.blocks.access block)

-- ============================================================================
-- buffer.c
-- ============================================================================

/-- A `buffer`, with the block its `ptr` points to. -/
structure Held where
  block : Nat
  buf : Buffer

/-- `buffer_new`. -/
def bufferNewTracked (fill : Nat → UInt8) : Tracked Held := do
  let block ← malloc
  return ⟨block, bufferNew fill⟩

/-- `buffer_free`. -/
def bufferFree (buf : Held) : Tracked Unit := free buf.block

/-- `buffer_append`. -/
def bufferAppendTracked (fill : Nat → UInt8) (st : Held) (data : List UInt8) : Tracked Held := do
  let block ← growBlock (sizeT (st.buf.size + data.length) ≥ st.buf.capacity) st.block
  touch block
  let buf ← liftOption (bufferAppend fill st.buf data)
  return ⟨block, buf⟩

/-- `buffer_insert`. -/
def bufferInsertTracked (fill : Nat → UInt8) (st : Held) (pos : Nat) (data : List UInt8) :
    Tracked Held := do
  let block ← growBlock (sizeT (pos + data.length) ≥ st.buf.capacity) st.block
  touch block
  let buf ← liftOption (bufferInsert fill st.buf pos data)
  return ⟨block, buf⟩

-- ============================================================================
-- tg_storage.c
-- ============================================================================

/-- Using what a `tg_file *` points to: a slot lies in `storage.files`. -/
def FilePtr.touch : FilePtr → Tracked Unit
  | .slot _ => do
      let m ← getState
      TgFuse.touch m.files
  | .var _ => return ()

/-- `*file`. -/
def FilePtr.loadTracked (file : FilePtr) : Tracked TgFile := do
  file.touch
  plain file.load

/-- A part of a handler that uses the table, where nothing moves it. -/
def withTable {α : Type} (p : Handler α) : Tracked α := do
  let m ← getState
  touch m.files
  plain p

/-- `tg_storage_push(&storage, f)`. -/
def pushFileTracked (heap : Heap) (f : TgFile) : Tracked Unit := do
  let m ← getState
  let storage := m.statics.storage
  let files ← growBlock (storage.size ≥ storage.cap) m.files
  touch files
  let storage ← liftOption (tgStoragePush heap.slots storage f)
  let m ← getState
  setState { m with statics := { m.statics with storage }, files }

/-- `tg_storage_free(&storage)`. -/
def tgStorageFree : Tracked Unit := do
  let m ← getState
  free m.files
  let m ← getState
  setState { m with statics := { m.statics with storage := { files := [], size := 0, cap := 0 } } }

-- ============================================================================
-- tg_file.c
-- ============================================================================

/-- `tg_put_file`, which neither allocates nor frees. -/
def tgPutFileTracked (file : FilePtr) (config : TgConfig) (data : Held) : Tracked FilePtr := do
  touch data.block
  file.touch
  plain (tgPutFile file config data.buf)

/-- `tg_file_load_contents`. -/
def tgFileLoadContentsTracked (fill : Nat → UInt8) (config : TgConfig) (src : FilePtr) :
    Tracked Held := do
  let m ← getState
  setState (m.withStatics { m.statics with jsonResponseBuf := .zeros })
  let fileResponseBuf ← bufferNewTracked fill
  let f ← src.loadTracked
  let r ← exchange (.getFile config f.fileIdStr)
  if r.code ≠ curleOk then
    return fileResponseBuf
  else
    let m ← getState
    let ok ← liftOption (checkOkStatusInJson m.statics.jsonResponseBuf.bytes)
    if ¬ ok then
      return fileResponseBuf
    else
      let filePath ← liftOption (parseResponseFieldFromJson (List.replicate fieldSize 0)
        m.statics.jsonResponseBuf.bytes (text "file_path"))
      -- `file_response_buf = buffer_new()` once more: nothing frees the first one
      let fileResponseBuf ← bufferNewTracked fill
      let r ← exchange (.download config (cstr filePath.2))
      r.chunks.foldlM (bufferAppendTracked fill) fileResponseBuf

-- ============================================================================
-- main.c
-- ============================================================================

/-- `hello_create`. -/
def helloCreateTracked (heap : Heap) (path : List UInt8) : Tracked Int := do
  let isDir ← match ← withTable (findByPath path) with
    | some i => do
        let file ← (FilePtr.slot i).loadTracked
        pure (decide (file.type = .tgDir))
    | none => pure false
  if isDir then
    return -eisdir
  else
    let newFile ← liftOption (tgFileNewFile path 0)
    pushFileTracked heap newFile
    return 0

/-- `hello_read`: the result and the bytes copied to `buf`. -/
def helloReadTracked (heap : Heap) (config : TgConfig) (path : List UInt8) (size : Nat)
    (offset : Int) : Tracked (Int × List UInt8) := do
  match ← withTable (findByPath path) with
  | none => return (-enoent, [])
  | some i =>
      let file ← (FilePtr.slot i).loadTracked
      if file.fileIdStr.length = 0 then
        return (0, [])
      else
        let src ← tgFileLoadContentsTracked heap.bytes config (.slot i)
        if src.buf.size = 0 then
          -- nothing frees `src` here
          return (-enoent, [])
        else
          let len := src.buf.size
          if offset < offT len then
            let size := if sizeT (sizeOfOff offset + size) > len then
                sizeSub len (sizeOfOff offset)
              else size
            touch src.block
            let buf ← liftOption (memread src.buf.ptr (sizeOfOff offset) size)
            bufferFree src
            return (cint size, buf)
          else
            bufferFree src
            return (0, [])

/-- The part of `hello_write` after `data` has been obtained. -/
def writeDataTracked (heap : Heap) (config : TgConfig) (file : FilePtr) (data : Held)
    (buf : List UInt8) (offset : Int) : Tracked Int := do
  let data ← bufferInsertTracked heap.bytes data (sizeOfOff offset) buf
  let file ← tgPutFileTracked file config data
  let f ← file.loadTracked
  let _ ← plain (file.store { f with fileSize := data.buf.size })
  bufferFree data
  return cint buf.length

/-- `hello_write`. -/
def helloWriteTracked (heap : Heap) (config : TgConfig) (path buf : List UInt8) (offset : Int) :
    Tracked Int := do
  match ← withTable (findByPath path) with
  | none =>
      let ifNo ← liftOption (tgFileNewFile path (sizeT (sizeOfOff offset + buf.length)))
      pushFileTracked heap ifNo
      let data ← bufferNewTracked heap.bytes
      writeDataTracked heap config (.var ifNo) data buf offset
  | some i =>
      let file ← (FilePtr.slot i).loadTracked
      if file.type = .tgDir then
        return -enoent
      else if file.fileSize > 0 then
        let data ← tgFileLoadContentsTracked heap.bytes config (.slot i)
        writeDataTracked heap config (.slot i) data buf offset
      else
        let data ← bufferNewTracked heap.bytes
        writeDataTracked heap config (.slot i) data buf offset

/-- `hello_mkdir`. -/
def helloMkdirTracked (heap : Heap) (path : List UInt8) : Tracked Int := do
  let dir ← liftOption (tgFileNewDir path)
  pushFileTracked heap dir
  return 0

/-- `hello_destroy`. -/
def helloDestroy : Tracked Unit := tgStorageFree

/-- The entry of `hello_oper` a call goes to. -/
def Call.tracked (heap : Heap) (config : TgConfig) : Call → Tracked Reply
  | .create path => do let r ← helloCreateTracked heap path; return .status r
  | .read path size offset => do
      let r ← helloReadTracked heap config path size offset
      return .data r.1 r.2
  | .write path buf offset => do
      let r ← helloWriteTracked heap config path buf offset
      return .status r
  | .mkdir path => do let r ← helloMkdirTracked heap path; return .status r
  | .setxattr path => do let r ← plain (helloSetxattr path); return .status r
  | .utimens path => do let r ← plain (helloUtimens path); return .status r
  -- the others use the table, and neither allocate nor free
  | other => withTable (other.handler heap config)

/-- The memory after `main` has set up the storage: `tg_storage_new` allocates two
    slots, so that the first push does not. -/
def mainTracked (heap : Heap) : Option Memory := do
  let statics ← mainInit heap
  some { statics, blocks := Ledger.empty.malloc, files := Ledger.empty.next }

end TgFuse

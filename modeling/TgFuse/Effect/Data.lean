/-
  TgFuse.Effect.Data

  What `hello_write` and `hello_read` do: which document they obtain, what they
  make of it, and where the result goes.
-/

import TgFuse.Effect.Table

namespace TgFuse

open CString Interact Interact.Prog KeyedList Overlay

-- ============================================================================
-- Replacing an entry
-- ============================================================================

/-- The table with another entry in slot `i`. -/
def TgStorage.setSlot (st : TgStorage) (i : Nat) (f : TgFile) : TgStorage :=
  { st with files := st.files.set i f }

section SetSlot

variable {st : TgStorage} {i : Nat} {f g : TgFile}

theorem setSlot_live : (st.setSlot i g).live = st.live.set i g := List.take_set

theorem TgStorage.Wf.setSlot (hwf : st.Wf) (hg : g.Named) : (st.setSlot i g).Wf where
  valid := ⟨by simpa [TgStorage.setSlot] using hwf.valid.length_files, hwf.valid.size_le⟩
  named := by
    intro h hh
    rw [setSlot_live] at hh
    rcases List.mem_or_eq_of_mem_set hh with hh | rfl
    · exact hwf.named h hh
    · exact hg

/-- An entry that is replaced by one with its path is found in its place. -/
theorem lookup_setSlot {p : List UInt8} (hi : tgStorageFindByPath st p = some i)
    (hg : g.pathStr = p) : (st.setSlot i g).lookup p = some g := by
  obtain ⟨hlt, -, hbefore⟩ := List.findIdx?_eq_some_iff_getElem.mp hi
  have hself : (st.setSlot i g).live[i]? = some g := by
    rw [setSlot_live, List.getElem?_set_self hlt]
  have hfind : tgStorageFindByPath (st.setSlot i g) p = some i := by
    apply List.findIdx?_eq_some_iff_getElem.mpr
    obtain ⟨hlt', hget⟩ := List.getElem?_eq_some_iff.mp hself
    refine ⟨hlt', by rw [hget]; exact decide_eq_true hg, fun j hj => ?_⟩
    have hold := hbefore j hj
    simp only [setSlot_live, List.getElem_set_ne (Nat.ne_of_gt hj)]
    exact hold
  rw [lookup_eq_getElem? hfind, hself]

end SetSlot

/-- A push of an entry with a valid path keeps the table well-formed. -/
theorem TgStorage.Wf.push {st st' : TgStorage} {slots : Nat → TgFile} {f : TgFile}
    (hwf : st.Wf) (hf : f.Named) (h : tgStoragePush slots st f = some st') :
    st'.Wf ∧ st'.live = st.live ++ [f] := by
  obtain ⟨hv, hlive, -⟩ := tgStoragePush_spec hwf.valid h
  refine ⟨⟨hv, ?_⟩, hlive⟩
  intro g hg
  rw [hlive, List.mem_append, List.mem_singleton] at hg
  rcases hg with hg | rfl
  · exact hwf.named g hg
  · exact hf

-- ============================================================================
-- Entries after an upload
-- ============================================================================

theorem parseFileId_inv {f g : TgFile} {buf : List UInt8} (h : parseFileId f buf = some g) :
    ∃ mem, g = f.setFileIdMemory mem := by
  obtain ⟨r, -, rfl⟩ := Option.map_eq_some_iff.mp h
  exact ⟨r.2, rfl⟩

theorem parseMessageId_inv {f g : TgFile} {buf : List UInt8} (h : parseMessageId f buf = some g) :
    ∃ mem, g = f.setMessageIdMemory mem := by
  obtain ⟨r, -, rfl⟩ := Option.map_eq_some_iff.mp h
  exact ⟨r.2, rfl⟩

/-- An upload touches nothing of the entry but its ids. -/
theorem afterPut_frame {f g : TgFile} {r : Response} {buf : List UInt8}
    (h : afterPut f r buf = some g) :
    g.path = f.path ∧ g.type = f.type ∧ g.fileSize = f.fileSize := by
  unfold afterPut at h
  split at h
  · unfold afterSend at h
    obtain ⟨ok, -, h⟩ := Option.bind_eq_some_iff.mp h
    split at h
    · obtain ⟨f₁, h1, h2⟩ := Option.bind_eq_some_iff.mp h
      obtain ⟨m₁, rfl⟩ := parseFileId_inv h1
      obtain ⟨m₂, rfl⟩ := parseMessageId_inv h2
      exact ⟨rfl, rfl, rfl⟩
    · cases h
      exact ⟨rfl, rfl, rfl⟩
  · split at h
    · cases h
    · unfold afterEdit at h
      obtain ⟨ok, -, h⟩ := Option.bind_eq_some_iff.mp h
      split at h
      · obtain ⟨m, rfl⟩ := parseFileId_inv h
        exact ⟨rfl, rfl, rfl⟩
      · cases h
        exact ⟨rfl, rfl, rfl⟩

/-- The entry `hello_write` leaves in the table. -/
def written (f' : TgFile) (data : Buffer) : TgFile := { f' with fileSize := data.size }

theorem written_path (f : TgFile) (data : Buffer) : (written f data).path = f.path := by
  rw [written]

theorem written_type (f : TgFile) (data : Buffer) : (written f data).type = f.type := by
  rw [written]

theorem written_fileIdStr (f : TgFile) (data : Buffer) :
    (written f data).fileIdStr = f.fileIdStr := rfl

theorem written_messageIdStr (f : TgFile) (data : Buffer) :
    (written f data).messageIdStr = f.messageIdStr := rfl

theorem written_named {f g : TgFile} {r : Response} {buf : List UInt8} (data : Buffer)
    (hf : f.Named) (h : afterPut f r buf = some g) :
    (written g data).Named ∧ (written g data).pathStr = f.pathStr ∧
      (written g data).type = f.type := by
  obtain ⟨hpath, htype, -⟩ := afterPut_frame h
  obtain ⟨hn, hp⟩ := hf.congr ((written_path g data).trans hpath)
  exact ⟨hn, hp, (written_type g data).trans htype⟩

-- ============================================================================
-- write
-- ============================================================================

variable {s s' : Statics} {log : List (Request × Response)} {config : TgConfig} {heap : Heap}
  {p buf : List UInt8} {offset : Int}

/-- The upload part of `hello_write`, where it completes. -/
theorem exec_writeData (ptr : FilePtr) {f : TgFile} {data : Buffer} {res : Int}
    (h : ptr.peek s = some f) (hf : f.HasPath p) (hp : ValidPath p) :
    Exec receive (writeData heap config ptr data buf offset) s log (some res) s' ↔
      ∃ data' r b f', bufferInsert heap.bytes data (sizeOfOff offset) buf = some data' ∧
        log = [(putRequest config f (dirOf p) (baseOf p) data'.contents, r)] ∧
        receiveJson r s.jsonResponseBuf = some b ∧ afterPut f r b.bytes = some f' ∧
        res = cint buf.length ∧ s' = (s.withJson b).poke ptr (written f' data') := by
  unfold writeData
  rw [exec_liftOption_bind_some]
  refine exists_congr fun data' => ?_
  rw [exec_bind_some]
  have hafter : ∀ b f', (ptr.now f').peek ((s.withJson b).poke ptr f') = some f' :=
    fun b f' => FilePtr.peek_poke (f := f) (by simpa using h)
  constructor
  · rintro ⟨hins, out, t, l₁, l₂, rfl, hput, hk⟩
    obtain ⟨r, b, f', rfl, hb, hf', rfl, rfl⟩ := (exec_tgPutFile h hf hp).mp hput
    rw [exec_load_bind _ (hafter b f'), exec_store_bind, exec_pure, Statics.poke_poke] at hk
    obtain ⟨hl₂, hres, hs⟩ := hk
    rw [hl₂, List.append_nil]
    exact ⟨r, b, f', hins, rfl, hb, hf', Option.some.inj hres, hs⟩
  · rintro ⟨r, b, f', hins, rfl, hb, hf', hres, rfl⟩
    refine ⟨hins, ptr.now f', (s.withJson b).poke ptr f', _, [], (List.append_nil _).symm,
      (exec_tgPutFile h hf hp).mpr ⟨r, b, f', rfl, hb, hf', rfl, rfl⟩, ?_⟩
    rw [exec_load_bind _ (hafter b f'), exec_store_bind, exec_pure, Statics.poke_poke]
    exact ⟨rfl, congrArg some hres, rfl⟩

/-- However the upload part of `hello_write` ends, it has made one request, unless the
    data could not be laid into the buffer. -/
theorem exec_writeData_log (ptr : FilePtr) {f : TgFile} {data data' : Buffer} {o : Option Int}
    (h : ptr.peek s = some f) (hf : f.HasPath p) (hp : ValidPath p)
    (hins : bufferInsert heap.bytes data (sizeOfOff offset) buf = some data')
    (he : Exec receive (writeData heap config ptr data buf offset) s log o s') :
    ∃ r, log = [(putRequest config f (dirOf p) (baseOf p) data'.contents, r)] := by
  unfold writeData at he
  rw [hins, exec_liftOption_some_bind] at he
  rcases (exec_bind receive).mp he with ⟨out, t, l₁, l₂, rfl, hput, hk⟩ | ⟨-, hput⟩
  · obtain ⟨r, b, f', rfl, hb, hf', rfl, rfl⟩ := (exec_tgPutFile h hf hp).mp hput
    have hafter : (ptr.now f').peek ((s.withJson b).poke ptr f') = some f' :=
      FilePtr.peek_poke (f := f) (by simpa using h)
    rw [exec_load_bind _ hafter, exec_store_bind, exec_pure] at hk
    rw [hk.1, List.append_nil]
    exact ⟨r, rfl⟩
  · exact exec_tgPutFile_log h hf hp hput

/-- How `hello_write` comes by the document of an existing entry: it loads it,
    or starts from an empty one. -/
def Obtained (heap : Heap) (config : TgConfig) (f : TgFile) (b₀ : CharArray jsonResponseBufSize)
    (log : List (Request × Response)) (b : CharArray jsonResponseBufSize) (data : Buffer) : Prop :=
  if f.fileSize > 0 then Loaded heap.bytes config f.fileIdStr log b data
  else log = [] ∧ b = b₀ ∧ data = bufferNew heap.bytes

theorem Obtained.valid {f : TgFile} {b₀ b : CharArray jsonResponseBufSize} {data : Buffer}
    (h : Obtained heap config f b₀ log b data) : data.Valid := by
  unfold Obtained at h
  split at h
  · exact h.valid
  · obtain ⟨-, -, rfl⟩ := h
    exact bufferNew_valid _

/-- What is obtained is what has been delivered. -/
theorem Obtained.contents_eq {f : TgFile} {b₀ b : CharArray jsonResponseBufSize} {data : Buffer}
    (h : Obtained heap config f b₀ log b data) :
    data.contents = received log ∧ data.Untouched heap.bytes := by
  unfold Obtained at h
  split at h
  · exact h.contents_eq
  · obtain ⟨rfl, -, rfl⟩ := h
    exact ⟨rfl, bufferNew_untouched _⟩

/-- The answers determine the requests. -/
theorem Obtained.log_eq_of_answers {f : TgFile} {heap₁ heap₂ : Heap}
    {l₁ l₂ : List (Request × Response)}
    {b₀ b₁ b₂ : CharArray jsonResponseBufSize} {data₁ data₂ : Buffer}
    (h₁ : Obtained heap₁ config f b₀ l₁ b₁ data₁) (h₂ : Obtained heap₂ config f b₀ l₂ b₂ data₂)
    (hans : l₁.map Prod.snd = l₂.map Prod.snd) : l₁ = l₂ := by
  unfold Obtained at h₁ h₂
  by_cases hpos : f.fileSize > 0
  · rw [if_pos hpos] at h₁ h₂
    exact h₁.log_eq_of_answers h₂ hans
  · rw [if_neg hpos] at h₁ h₂
    rw [h₁.1, h₂.1]

/-- `json_response_buf` after these requests: `getFile` clears it first, and a
    download goes elsewhere. -/
def jsonAfter (buf : CharArray jsonResponseBufSize) (log : List (Request × Response)) :
    Option (CharArray jsonResponseBufSize) :=
  log.foldlM (fun b e =>
    match e.1 with
    | .download .. => some b
    | .getFile .. => receiveJson e.2 .zeros
    | _ => receiveJson e.2 b) buf

/-- What was in the buffer before `getFile` is gone. -/
theorem jsonAfter_getFile (buf : CharArray jsonResponseBufSize) (config : TgConfig)
    (fid : List UInt8) (r : Response) (log : List (Request × Response)) :
    jsonAfter buf ((.getFile config fid, r) :: log)
      = jsonAfter .zeros ((.getFile config fid, r) :: log) := rfl

/-- What a load leaves in `json_response_buf`. -/
theorem Obtained.jsonAfter_eq {f : TgFile} {b₀ b : CharArray jsonResponseBufSize} {data : Buffer}
    (h : Obtained heap config f b₀ log b data) : jsonAfter b₀ log = some b := by
  unfold Obtained at h
  split at h
  · obtain ⟨r, hr, ⟨-, rfl, -⟩ | ⟨-, -, path, r₂, -, rfl, -⟩⟩ := h
    · simp [jsonAfter, hr]
    · simp [jsonAfter, hr]
  · obtain ⟨rfl, rfl, -⟩ := h
    rfl

theorem Obtained.jsonAfter_upload {f : TgFile} {b₀ b₁ b : CharArray jsonResponseBufSize}
    {data : Buffer} {r : Response} (h : Obtained heap config f b₀ log b₁ data)
    (hb : receiveJson r b₁ = some b) (caption filename document : List UInt8) :
    jsonAfter b₀ (log ++ [(putRequest config f caption filename document, r)]) = some b := by
  rw [jsonAfter, List.foldlM_append]
  show (jsonAfter b₀ log).bind _ = some b
  rw [h.jsonAfter_eq, Option.bind_some, putRequest]
  split <;> simp [hb]

/-- A completed write of an existing file: what was loaded, what was uploaded in
    its place, and the entry that results. -/
structure WroteFile (heap : Heap) (config : TgConfig) (s : Statics) (buf : List UInt8)
    (offset : Int) (i : Nat) (f : TgFile) (log : List (Request × Response)) (s' : Statics)
    (loadLog : List (Request × Response)) (b₀ b : CharArray jsonResponseBufSize)
    (data data' : Buffer) (r : Response) (f' : TgFile) : Prop where
  obtained : Obtained heap config f s.jsonResponseBuf loadLog b₀ data
  inserted : bufferInsert heap.bytes data (sizeOfOff offset) buf = some data'
  log_eq : log = loadLog ++
    [(putRequest config f (dirOf f.pathStr) (baseOf f.pathStr) data'.contents, r)]
  received : receiveJson r b₀ = some b
  after : afterPut f r b.bytes = some f'
  state_eq : s' = (s.withStorage (s.storage.setSlot i (written f' data'))).withJson b

/-- A completed write where no entry was found: one is pushed, but the ids go to
    the record that was pushed a copy of. -/
structure WroteMissing (heap : Heap) (config : TgConfig) (s : Statics) (p buf : List UInt8)
    (offset : Int) (log : List (Request × Response)) (s' : Statics) (st' : TgStorage)
    (b : CharArray jsonResponseBufSize) (data' : Buffer) (r : Response) (f' : TgFile) : Prop where
  pushed : tgStoragePush heap.slots s.storage
    (newFile p (sizeT (sizeOfOff offset + buf.length))) = some st'
  inserted : bufferInsert heap.bytes (bufferNew heap.bytes) (sizeOfOff offset) buf = some data'
  log_eq : log = [(.sendDocument config (dirOf p) (baseOf p) data'.contents, r)]
  received : receiveJson r s.jsonResponseBuf = some b
  after : afterSend (newFile p (sizeT (sizeOfOff offset + buf.length))) b.bytes = some f'
  state_eq : s' = (s.withStorage st').withJson b

theorem putRequest_newFile (n : Nat) (caption filename document : List UInt8) :
    putRequest config (newFile p n) caption filename document
      = .sendDocument config caption filename document := by
  simp [putRequest, newFile_fileIdStr]

theorem afterPut_newFile (n : Nat) (r : Response) (b : List UInt8) :
    afterPut (newFile p n) r b = afterSend (newFile p n) b := by
  simp [afterPut, newFile_fileIdStr]

/-- A program that takes over with the document of an existing entry. -/
theorem exec_obtain_bind {i : Nat} {f : TgFile} {res : Int}
    (hfile : (FilePtr.slot i).peek s = some f) (k : Buffer → Handler Int) :
    Exec receive (if f.fileSize > 0 then tgFileLoadContents heap.bytes config (.slot i) >>= k
        else k (bufferNew heap.bytes)) s log (some res) s' ↔
      ∃ loadLog b₀ data rest, log = loadLog ++ rest ∧
        Obtained heap config f s.jsonResponseBuf loadLog b₀ data ∧
        Exec receive (k data) (s.withJson b₀) rest (some res) s' := by
  unfold Obtained
  split
  · rw [exec_bind_some]
    constructor
    · rintro ⟨data, t, l₁, l₂, rfl, hload, hk⟩
      obtain ⟨b₀, hl₀, rfl⟩ := (exec_tgFileLoadContents (.slot i) hfile).mp hload
      exact ⟨l₁, b₀, data, l₂, rfl, hl₀, hk⟩
    · rintro ⟨l₁, b₀, data, l₂, rfl, hl₀, hk⟩
      exact ⟨data, s.withJson b₀, l₁, l₂, rfl,
        (exec_tgFileLoadContents (.slot i) hfile).mpr ⟨b₀, hl₀, rfl⟩, hk⟩
  · constructor
    · intro hk
      exact ⟨[], s.jsonResponseBuf, bufferNew heap.bytes, log, rfl, ⟨rfl, rfl, rfl⟩, hk⟩
    · rintro ⟨l₁, b₀, data, l₂, rfl, ⟨rfl, rfl, rfl⟩, hk⟩
      exact hk

/-- `hello_write`, where it completes. -/
theorem exec_helloWrite (hwf : s.storage.Wf) (hp : ValidPath p) {res : Int} :
    Exec receive (helloWrite heap config p buf offset) s log (some res) s' ↔
      (s.storage.lookup p = none ∧ res = cint buf.length ∧
        ∃ st' b data' r f', WroteMissing heap config s p buf offset log s' st' b data' r f') ∨
      (∃ f, s.storage.lookup p = some f ∧ f.type = .tgDir ∧ log = [] ∧ res = -enoent ∧ s' = s) ∨
      (∃ i f, tgStorageFindByPath s.storage p = some i ∧ s.storage.live[i]? = some f ∧
        f.type = .tgFile ∧ res = cint buf.length ∧
        ∃ loadLog b₀ b data data' r f',
          WroteFile heap config s buf offset i f log s' loadLog b₀ b data data' r f') := by
  unfold helloWrite
  rw [exec_findByPath_bind]
  cases hi : tgStorageFindByPath s.storage p with
  | none =>
      have hnew : tgFileNewFile p (sizeT (sizeOfOff offset + buf.length))
          = some (newFile p (sizeT (sizeOfOff offset + buf.length))) :=
        tgFileNewFile_of_valid hp _
      simp only [hnew, exec_liftOption_some_bind, exec_pushFile_bind_some, lookup_eq_none hi]
      simp only [exec_writeData (.var (newFile p (sizeT (sizeOfOff offset + buf.length)))) rfl
        (newFile_hasPath p _) hp, putRequest_newFile, afterPut_newFile]
      constructor
      · rintro ⟨st', hst, data', r, b, f', hins, hlog, hb, hf', hres, hs⟩
        exact Or.inl ⟨trivial, hres, st', b, data', r, f', hst, hins, hlog, hb, hf', hs⟩
      · rintro (⟨-, hres, st', b, data', r, f', hw⟩ | ⟨f, hf, -⟩ | ⟨i, f, h, -⟩)
        · exact ⟨st', hw.pushed, data', r, b, f', hw.inserted, hw.log_eq, hw.received, hw.after,
            hres, hw.state_eq⟩
        · cases hf
        · cases h
  | some i =>
      obtain ⟨f, hl, hlive, hfile, hpath⟩ := tgStorageFindByPath_lookup hi
      have hmem := List.mem_of_getElem? hlive
      have hnamed := hwf.named f hmem
      simp only [exec_slot_load_bind hfile, hl]
      by_cases htype : f.type = .tgDir
      case pos =>
          simp only [if_pos htype, exec_pure, Option.some.injEq]
          constructor
          · rintro ⟨rfl, rfl, rfl⟩
            exact Or.inr (Or.inl ⟨f, rfl, htype, rfl, rfl, rfl⟩)
          · rintro (⟨h, -⟩ | ⟨g, -, -, rfl, rfl, rfl⟩ | ⟨j, g, hj, hg, hgt, -⟩)
            · cases h
            · exact ⟨rfl, rfl, rfl⟩
            · cases hj
              rw [hlive] at hg
              cases hg
              rw [htype] at hgt
              cases hgt
      case neg =>
          have hfiletype : f.type = .tgFile := by cases h : f.type <;> simp_all
          simp only [if_neg htype, exec_obtain_bind hfile fun data =>
            writeData heap config (.slot i) data buf offset]
          have hslot : ∀ b₀, (FilePtr.slot i).peek (s.withJson b₀) = some f := fun _ => hfile
          simp only [exec_writeData (.slot i) (hslot _) hnamed.hasPath hnamed.valid]
          constructor
          · rintro ⟨loadLog, b₀, data, rest, rfl, hob, data', r, b, f', hins, rfl, hb, hf',
              hres, hs⟩
            exact Or.inr (Or.inr ⟨i, f, rfl, hlive, hfiletype, hres, loadLog, b₀, b, data, data', r,
              f', hob, hins, rfl, hb, hf', hs⟩)
          · rintro (⟨h, -⟩ | ⟨g, hg, hgt, -⟩ | ⟨j, g, hj, hg, -, hres, loadLog, b₀, b, data,
              data', r, f', hw⟩)
            · cases h
            · cases hg
              exact absurd hgt htype
            · cases hj
              rw [hlive] at hg
              cases hg
              exact ⟨loadLog, b₀, data, _, hw.log_eq, hw.obtained, data', r, b, f', hw.inserted,
                rfl, hw.received, hw.after, hres, hw.state_eq⟩

-- ============================================================================
-- read
-- ============================================================================

/-- What `hello_read` makes of the loaded document. -/
def readReply (src : Buffer) (size : Nat) (offset : Int) : Option (Int × List UInt8) :=
  if src.size = 0 then some (-enoent, [])
  else if offset < offT src.size then
    let n := if sizeT (sizeOfOff offset + size) > src.size then
        sizeSub src.size (sizeOfOff offset)
      else size
    (memread src.ptr (sizeOfOff offset) n).map fun buf => (cint n, buf)
  else some (0, [])

/-- The part of `hello_read` after the load makes no request. -/
theorem readTail_eq (src : Buffer) (size : Nat) (offset : Int) :
    (if src.size = 0 then pure (-enoent, [])
      else if offset < offT src.size then do
        let buf ← liftOption (memread src.ptr (sizeOfOff offset)
          (if sizeT (sizeOfOff offset + size) > src.size then
            sizeSub src.size (sizeOfOff offset) else size))
        pure (cint (if sizeT (sizeOfOff offset + size) > src.size then
            sizeSub src.size (sizeOfOff offset) else size), buf)
      else pure (0, []) : Handler (Int × List UInt8)) = liftOption (readReply src size offset) := by
  unfold readReply
  split
  · rfl
  · split
    · dsimp only
      cases memread src.ptr (sizeOfOff offset) (if sizeT (sizeOfOff offset + size) > src.size then
        sizeSub src.size (sizeOfOff offset) else size) <;> rfl
    · rfl

/-- `hello_read` of an entry with a file id: a load, and the reply from it. -/
theorem exec_helloRead_file {size : Nat} {i : Nat} {f : TgFile} {o : Option (Int × List UInt8)}
    (hi : tgStorageFindByPath s.storage p = some i) (hfile : s.storage.files[i]? = some f)
    (hid : f.fileIdStr.length ≠ 0) :
    Exec receive (helloRead heap config p size offset) s log o s' ↔
      Exec receive (tgFileLoadContents heap.bytes config (.slot i) >>= fun src =>
        liftOption (readReply src size offset)) s log o s' := by
  unfold helloRead
  rw [exec_findByPath_bind, hi]
  simp only [exec_slot_load_bind hfile, if_neg hid, readTail_eq]

/-- `hello_read`, where it completes. -/
theorem exec_helloRead {size : Nat} {res : Int × List UInt8} :
    Exec receive (helloRead heap config p size offset) s log (some res) s' ↔
      (s.storage.lookup p = none ∧ log = [] ∧ res = (-enoent, []) ∧ s' = s) ∨
      (∃ f, s.storage.lookup p = some f ∧ f.fileIdStr.length = 0 ∧
        log = [] ∧ res = (0, []) ∧ s' = s) ∨
      (∃ f b src, s.storage.lookup p = some f ∧ f.fileIdStr.length ≠ 0 ∧
        Loaded heap.bytes config f.fileIdStr log b src ∧ s' = s.withJson b ∧
        readReply src size offset = some res) := by
  unfold helloRead
  rw [exec_findByPath_bind]
  cases hi : tgStorageFindByPath s.storage p with
  | none =>
      simp only [exec_pure, lookup_eq_none hi, Option.some.injEq]
      simp
  | some i =>
      obtain ⟨f, hl, -, hfile, -⟩ := tgStorageFindByPath_lookup hi
      simp only [exec_slot_load_bind hfile, hl, reduceCtorEq, false_and, false_or,
        Option.some.injEq, exists_eq_left']
      by_cases hid : f.fileIdStr.length = 0
      · simp only [if_pos hid, exec_pure, Option.some.injEq]
        constructor
        · rintro ⟨rfl, rfl, rfl⟩
          exact Or.inl ⟨hid, rfl, rfl, rfl⟩
        · rintro (⟨-, rfl, rfl, rfl⟩ | ⟨g, -, -, rfl, hne, -⟩)
          · exact ⟨rfl, rfl, rfl⟩
          · exact absurd hid hne
      · simp only [if_neg hid, readTail_eq]
        rw [exec_bind_some]
        constructor
        · rintro ⟨src, t, l₁, l₂, rfl, hload, hk⟩
          obtain ⟨b, hl₀, rfl⟩ := (exec_tgFileLoadContents (.slot i) hfile).mp hload
          obtain ⟨rfl, hrep, rfl⟩ := exec_liftOption_some.mp hk
          rw [List.append_nil]
          exact Or.inr ⟨f, b, src, rfl, hid, hl₀, rfl, hrep⟩
        · rintro (⟨h, -⟩ | ⟨g, b, src, rfl, -, hl₀, rfl, hrep⟩)
          · exact absurd h hid
          · exact ⟨src, s.withJson b, log, [], (List.append_nil _).symm,
              (exec_tgFileLoadContents (.slot i) hfile).mpr ⟨b, hl₀, rfl⟩,
              exec_liftOption_some.mpr ⟨rfl, hrep, rfl⟩⟩

/-- Offsets that are not negative stay what they are. -/
theorem sizeOfOff_of_nonneg {offset : Int} (h0 : 0 ≤ offset) (h1 : offset < 2 ^ 63) :
    sizeOfOff offset = offset.toNat := by
  unfold sizeOfOff
  omega

theorem offT_of_lt {n : Nat} (h : n < 2 ^ 63) : offT n = n := by
  unfold offT
  rw [Int.bmod_eq_of_le_mul_two] <;> omega

theorem cint_of_lt {n : Nat} (h : n < 2 ^ 31) : cint n = n := by
  unfold cint
  rw [Int.bmod_eq_of_le_mul_two] <;> omega

/-- A count is returned as it is exactly if it is an `int`. -/
theorem cint_eq_iff {n : Nat} : cint n = n ↔ n < 2 ^ 31 := by
  constructor
  · intro h
    have hlt : cint n < (2 ^ 32 + 1) / 2 := Int.bmod_lt (by decide)
    omega
  · exact cint_of_lt

section Replies

variable {src : Buffer} {size pos : Nat}

/-- A read past what has been loaded. -/
theorem readReply_past (hne : src.size ≠ 0) (hlen : src.size < 2 ^ 63) (hpast : src.size ≤ pos) :
    readReply src size pos = some (0, []) := by
  rw [readReply, if_neg hne, offT_of_lt hlen, if_neg (by omega)]

/-- The copy of a read that starts in what has been loaded. -/
theorem readReply_start (hlen : src.size < 2 ^ 63) (hin : pos < src.size) :
    readReply src size pos =
      (memread src.ptr pos
        (if sizeT (pos + size) > src.size then src.size - pos else size)).map fun buf =>
          (cint (if sizeT (pos + size) > src.size then src.size - pos else size), buf) := by
  have hoff : sizeOfOff (pos : Int) = pos := by
    unfold sizeOfOff
    omega
  rw [readReply, if_neg (by omega), offT_of_lt hlen, if_pos (by exact_mod_cast hin), hoff,
    sizeSub_of_le (by omega) (by omega)]

/-- A read that starts in what has been loaded returns as much of the window. -/
theorem readReply_in (hv : src.Valid) (hlen : src.size < 2 ^ 63) (hin : pos < src.size)
    (hend : pos + size < 2 ^ 64) :
    readReply src size pos = some (cint ((src.contents.drop pos).take size).length,
      (src.contents.drop pos).take size) := by
  have hcl := hv.length_contents
  have hptr := hv.length_ptr
  have hle := hv.size_le
  have hwin : ∀ n, pos + n ≤ src.size → (src.ptr.drop pos).take n
      = (src.contents.drop pos).take n := by
    intro n hn
    rw [Buffer.contents, List.drop_take, List.take_take, Nat.min_eq_left (by omega)]
  rw [readReply_start hlen hin, sizeT_of_lt hend]
  by_cases hover : pos + size > src.size
  · have htake : (src.contents.drop pos).take (src.size - pos)
        = (src.contents.drop pos).take size := by
      rw [List.take_of_length_le (by simp [hcl]), List.take_of_length_le (by simp [hcl]; omega)]
    have hcount : ((src.contents.drop pos).take size).length = src.size - pos := by
      rw [← htake, List.length_take, List.length_drop, hcl, Nat.min_self]
    rw [if_pos hover, memread_eq_some (by omega), Option.map_some, hwin _ (by omega), htake, hcount]
  · have hcount : ((src.contents.drop pos).take size).length = size := by
      rw [List.length_take, List.length_drop, hcl, Nat.min_eq_left (by omega)]
    rw [if_neg hover, memread_eq_some (by omega), Option.map_some, hwin _ (by omega), hcount]

/-- Where the sum of offset and size wraps, the copy leaves the block. -/
theorem readReply_wraps (hv : src.Valid) (hlen : src.size < 2 ^ 63) (hin : pos < src.size)
    (hsize : size < 2 ^ 64) (hend : 2 ^ 64 ≤ pos + size) : readReply src size pos = none := by
  have hptr := hv.length_ptr
  have hcap := hv.capacity_lt
  have hsum : sizeT (pos + size) ≤ src.size := by
    unfold sizeT
    omega
  rw [readReply_start hlen hin, if_neg (Nat.not_lt.mpr hsum), memread, if_neg (by omega),
    Option.map_none]

/-- Within the range of the types, `hello_read` returns the window asked for. -/
theorem readReply_eq (hv : src.Valid) (hne : src.size ≠ 0) (hsize : size < 2 ^ 31)
    (hend : pos + size < 2 ^ 63) (hlen : src.size < 2 ^ 63) :
    readReply src size pos = some ((((src.contents.drop pos).take size).length : Int),
      (src.contents.drop pos).take size) := by
  by_cases hin : pos < src.size
  · have hcount : ((src.contents.drop pos).take size).length < 2 ^ 31 := by
      rw [List.length_take]
      omega
    rw [readReply_in hv hlen hin (by omega), cint_of_lt hcount]
  · rw [readReply_past hne hlen (by omega), List.drop_eq_nil_of_le (by
      rw [hv.length_contents]
      omega)]
    simp

end Replies

end TgFuse

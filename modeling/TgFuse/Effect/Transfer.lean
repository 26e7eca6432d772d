/-
  TgFuse.Effect.Transfer

  What the functions of `tg_file.c` do, in one lemma each: the requests they
  make, what they do to the static state, and their result.

  * `exec_tgPutFile` — one upload, and `afterPut` of the entry.
  * `exec_tgFileLoadContents` — `Loaded`: one or two requests, and the buffer.
  * `exec_tgRemoveMessageWithFile` — one request.
-/

import TgFuse.Model.Handlers

namespace TgFuse

open CString Interact Interact.Prog Overlay

-- ============================================================================
-- Parts of the static state
-- ============================================================================

/-- Other contents of `json_response_buf`. -/
def Statics.withJson (s : Statics) (b : CharArray jsonResponseBufSize) : Statics :=
  { s with jsonResponseBuf := b }

/-- Another table. -/
def Statics.withStorage (s : Statics) (st : TgStorage) : Statics := { s with storage := st }

/-- What `*file` is. -/
def FilePtr.peek (s : Statics) : FilePtr → Option TgFile
  | .slot i => s.storage.files[i]?
  | .var f => some f

/-- The static state after `*file = f`. -/
def Statics.poke (s : Statics) : FilePtr → TgFile → Statics
  | .slot i, f => s.withStorage { s.storage with files := s.storage.files.set i f }
  | .var _, _ => s

/-- The pointer after `*file = f`. -/
def FilePtr.now (f : TgFile) : FilePtr → FilePtr
  | .slot i => .slot i
  | .var _ => .var f

section Parts

variable {s : Statics} {b b' : CharArray jsonResponseBufSize} {st st' : TgStorage}
  {ptr : FilePtr} {f g : TgFile}

@[simp] theorem Statics.withJson_storage : (s.withJson b).storage = s.storage := rfl
@[simp] theorem Statics.withJson_json : (s.withJson b).jsonResponseBuf = b := rfl
@[simp] theorem Statics.withJson_withJson : (s.withJson b).withJson b' = s.withJson b' := rfl
@[simp] theorem Statics.withStorage_storage : (s.withStorage st).storage = st := rfl
@[simp] theorem Statics.withStorage_json :
    (s.withStorage st).jsonResponseBuf = s.jsonResponseBuf := rfl
@[simp] theorem Statics.withStorage_withStorage :
    (s.withStorage st).withStorage st' = s.withStorage st' := rfl
@[simp] theorem Statics.poke_json : (s.poke ptr f).jsonResponseBuf = s.jsonResponseBuf := by
  cases ptr <;> rfl

@[simp] theorem FilePtr.peek_withJson : ptr.peek (s.withJson b) = ptr.peek s := by
  cases ptr <;> rfl

/-- What has been stored is read back. -/
theorem FilePtr.peek_poke (h : ptr.peek s = some f) :
    (ptr.now g).peek (s.poke ptr g) = some g := by
  cases ptr with
  | slot i =>
      obtain ⟨hi, -⟩ := List.getElem?_eq_some_iff.mp h
      exact List.getElem?_set_self hi
  | var f => rfl

theorem Statics.poke_poke : (s.poke ptr f).poke (ptr.now f) g = s.poke ptr g := by
  cases ptr with
  | slot i => simp [Statics.poke, Statics.withStorage, FilePtr.now]
  | var f => rfl

@[simp] theorem FilePtr.now_now : (ptr.now f).now g = ptr.now g := by cases ptr <;> rfl

theorem receive_json {q : Request} {r : Response} (hq : ∀ config path, q ≠ .download config path) :
    receive q r s = (receiveJson r s.jsonResponseBuf).map s.withJson := by
  cases q with
  | download config path => exact absurd rfl (hq config path)
  | _ => rfl

theorem receive_json_none {q : Request} {r : Response}
    (hq : ∀ config path, q ≠ .download config path) :
    receive q r s = none ↔ receiveJson r s.jsonResponseBuf = none := by
  rw [receive_json hq, Option.map_eq_none_iff]

theorem receive_json_some {q : Request} {r : Response} {t : Statics}
    (hq : ∀ config path, q ≠ .download config path) :
    receive q r s = some t ↔
      ∃ b, receiveJson r s.jsonResponseBuf = some b ∧ t = s.withJson b := by
  rw [receive_json hq, Option.map_eq_some_iff]
  simp only [eq_comm]

end Parts

section Exec

variable {s s' : Statics} {log : List (Request × Response)} {α β : Type} {ptr : FilePtr}
  {f : TgFile}

theorem exec_load_bind (ptr : FilePtr) (h : ptr.peek s = some f) {k : TgFile → Handler β}
    {o : Option β} :
    Exec receive (ptr.load >>= k) s log o s' ↔ Exec receive (k f) s log o s' := by
  cases ptr with
  | slot i =>
      have hi : s.storage.files[i]? = some f := h
      show Exec receive (liftOption s.storage.files[i]? >>= k) s log o s' ↔ _
      rw [hi]
      exact exec_liftOption_some_bind _
  | var g =>
      cases h
      exact Iff.rfl

theorem exec_store {o : Option FilePtr} :
    Exec receive (ptr.store f) s log o s' ↔
      log = [] ∧ o = some (ptr.now f) ∧ s' = s.poke ptr f := by
  cases ptr <;> exact Iff.rfl

theorem exec_store_bind {k : FilePtr → Handler β} {o : Option β} :
    Exec receive (ptr.store f >>= k) s log o s' ↔
      Exec receive (k (ptr.now f)) (s.poke ptr f) log o s' := by
  cases ptr <;> exact Iff.rfl

/-- A step that may be undefined, in a computation that completes. -/
theorem exec_liftOption_bind_some {x : Option α} {k : α → Handler β} {b : β} :
    Exec receive (liftOption x >>= k) s log (some b) s' ↔
      ∃ a, x = some a ∧ Exec receive (k a) s log (some b) s' := by
  cases x with
  | none => simp
  | some a => simp

theorem exec_liftOption_some {x : Option α} {a : α} :
    Exec receive (liftOption x : Handler α) s log (some a) s' ↔ log = [] ∧ x = some a ∧ s' = s := by
  cases x with
  | none =>
      show (log = [] ∧ some a = none ∧ s' = s) ↔ _
      simp
  | some b =>
      show (log = [] ∧ some a = some b ∧ s' = s) ↔ _
      simp [eq_comm]

/-- A request whose answer goes into `json_response_buf`, in a computation that
    completes. -/
theorem exec_json_bind_some {q : Request} (hq : ∀ config path, q ≠ .download config path)
    {k : Response → Handler β} {a : β} :
    Exec receive (exchange q >>= k) s log (some a) s' ↔
      ∃ r rest b, log = (q, r) :: rest ∧ receiveJson r s.jsonResponseBuf = some b ∧
        Exec receive (k r) (s.withJson b) rest (some a) s' := by
  rw [exec_exchange_bind]
  constructor
  · rintro ⟨r, rest, rfl, ⟨-, -, h, -⟩ | ⟨t, ht, h⟩⟩
    · cases h
    · obtain ⟨b, hb, rfl⟩ := (receive_json_some hq).mp ht
      exact ⟨r, rest, b, rfl, hb, h⟩
  · rintro ⟨r, rest, b, rfl, hb, h⟩
    exact ⟨r, rest, rfl, Or.inr ⟨s.withJson b, (receive_json_some hq).mpr ⟨b, hb, rfl⟩, h⟩⟩

/-- A download leaves the static state alone. -/
theorem exec_download_bind {config : TgConfig} {path : List UInt8} {k : Response → Handler β}
    {o : Option β} :
    Exec receive (exchange (.download config path) >>= k) s log o s' ↔
      ∃ r rest, log = (.download config path, r) :: rest ∧ Exec receive (k r) s rest o s' := by
  rw [exec_exchange_bind]
  constructor
  · rintro ⟨r, rest, rfl, ⟨h, -⟩ | ⟨t, ht, h⟩⟩
    · cases h
    · cases ht
      exact ⟨r, rest, rfl, h⟩
  · rintro ⟨r, rest, rfl, h⟩
    exact ⟨r, rest, rfl, Or.inr ⟨s, rfl, h⟩⟩

end Exec

-- ============================================================================
-- tg_put_file
-- ============================================================================

/-- The upload for an entry: a new message, or an edit of its own one. -/
def putRequest (config : TgConfig) (f : TgFile) (caption filename document : List UInt8) :
    Request :=
  if f.fileIdStr.length = 0 then .sendDocument config caption filename document
  else .editMessageMedia config f.messageIdStr caption filename document

/-- What the response makes of the entry; `none` is a crash. -/
def afterPut (f : TgFile) (r : Response) (buf : List UInt8) : Option TgFile :=
  if f.fileIdStr.length = 0 then afterSend f buf
  else if r.code ≠ curleOk then none
  else afterEdit f buf

theorem putRequest_json (config : TgConfig) (f : TgFile) (caption filename document : List UInt8) :
    ∀ c path, putRequest config f caption filename document ≠ .download c path := by
  intro c path
  unfold putRequest
  split <;> exact Request.noConfusion

/-- `tg_put_file`, where it completes. -/
theorem exec_tgPutFile {s s' : Statics} {log : List (Request × Response)} {ptr out : FilePtr}
    {f : TgFile} {p : List UInt8} {config : TgConfig} {data : Buffer}
    (h : ptr.peek s = some f) (hf : f.HasPath p) (hp : ValidPath p) :
    Exec receive (tgPutFile ptr config data) s log (some out) s' ↔
      ∃ r b f', log = [(putRequest config f (dirOf p) (baseOf p) data.contents, r)] ∧
        receiveJson r s.jsonResponseBuf = some b ∧ afterPut f r b.bytes = some f' ∧
        out = ptr.now f' ∧ s' = (s.withJson b).poke ptr f' := by
  obtain ⟨name, hname, hbase⟩ := tgFileExtractFilename_spec hf hp uninit_length
  obtain ⟨dir, hdir, hdirOf⟩ := tgFileExtractDirectory_spec hf hp uninit_length
  have hafter : ∀ b, ptr.peek (s.withJson b) = some f := fun b => by simpa using h
  unfold tgPutFile
  simp only [exec_load_bind ptr h, hname, hdir, exec_liftOption_some_bind]
  by_cases hid : f.fileIdStr.length = 0
  · simp only [if_pos hid, putRequest, afterPut, hbase, hdirOf]
    rw [exec_json_bind_some (by intro c path; exact Request.noConfusion)]
    constructor
    · rintro ⟨r, rest, b, rfl, hb, hk⟩
      simp only [exec_getState_bind, exec_load_bind ptr (hafter b), Statics.withJson_json,
        exec_liftOption_bind_some, exec_store] at hk
      obtain ⟨f', hf', rfl, hout, rfl⟩ := hk
      exact ⟨r, b, f', rfl, hb, hf', by simpa using hout, rfl⟩
    · rintro ⟨r, b, f', rfl, hb, hf', rfl, rfl⟩
      refine ⟨r, [], b, rfl, hb, ?_⟩
      simp only [exec_getState_bind, exec_load_bind ptr (hafter b), Statics.withJson_json,
        exec_liftOption_bind_some, exec_store]
      exact ⟨f', hf', by simp⟩
  · simp only [if_neg hid, putRequest, afterPut, hbase, hdirOf]
    rw [exec_json_bind_some (by intro c path; exact Request.noConfusion)]
    constructor
    · rintro ⟨r, rest, b, rfl, hb, hk⟩
      by_cases hr : r.code ≠ curleOk
      · simp [if_pos hr] at hk
      · simp only [if_neg hr, exec_getState_bind, exec_load_bind ptr (hafter b),
          Statics.withJson_json, exec_liftOption_bind_some, exec_store] at hk
        obtain ⟨f', hf', rfl, hout, rfl⟩ := hk
        exact ⟨r, b, f', rfl, hb, by rw [if_neg hr]; exact hf', by simpa using hout, rfl⟩
    · rintro ⟨r, b, f', rfl, hb, hf', rfl, rfl⟩
      refine ⟨r, [], b, rfl, hb, ?_⟩
      by_cases hr : r.code ≠ curleOk
      · simp [if_pos hr] at hf'
      · rw [if_neg hr] at hf'
        simp only [if_neg hr, exec_getState_bind, exec_load_bind ptr (hafter b),
          Statics.withJson_json, exec_liftOption_bind_some, exec_store]
        exact ⟨f', hf', by simp⟩

/-- However `tg_put_file` ends, it has made one request. -/
theorem exec_tgPutFile_log {s s' : Statics} {log : List (Request × Response)} {ptr : FilePtr}
    {o : Option FilePtr} {f : TgFile} {p : List UInt8} {config : TgConfig} {data : Buffer}
    (h : ptr.peek s = some f) (hf : f.HasPath p) (hp : ValidPath p)
    (he : Exec receive (tgPutFile ptr config data) s log o s') :
    ∃ r, log = [(putRequest config f (dirOf p) (baseOf p) data.contents, r)] := by
  obtain ⟨name, hname, hbase⟩ := tgFileExtractFilename_spec hf hp uninit_length
  obtain ⟨dir, hdir, hdirOf⟩ := tgFileExtractDirectory_spec hf hp uninit_length
  -- after the answer there is nothing but local work
  have hlocal : ∀ {x : Option TgFile} {t : Statics} {l : List (Request × Response)},
      Exec receive (liftOption x >>= ptr.store) t l o s' → l = [] := by
    intro x t l hx
    cases x with
    | none => exact hx.1
    | some f' => exact (exec_store.mp hx).1
  unfold tgPutFile at he
  simp only [exec_load_bind ptr h, hname, hdir, exec_liftOption_some_bind] at he
  unfold putRequest
  by_cases hid : f.fileIdStr.length = 0
  · rw [if_pos hid, exec_exchange_bind] at he
    obtain ⟨r, rest, rfl, ⟨-, rfl, -⟩ | ⟨t, ht, hk⟩⟩ := he
    · exact ⟨r, by rw [if_pos hid, hbase, hdirOf]⟩
    · obtain ⟨b, -, rfl⟩ := (receive_json_some (fun _ _ => Request.noConfusion)).mp ht
      rw [exec_getState_bind, exec_load_bind ptr (f := f) (by simpa using h)] at hk
      rw [hlocal hk]
      exact ⟨r, by rw [if_pos hid, hbase, hdirOf]⟩
  · rw [if_neg hid, exec_exchange_bind] at he
    obtain ⟨r, rest, rfl, ⟨-, rfl, -⟩ | ⟨t, ht, hk⟩⟩ := he
    · exact ⟨r, by rw [if_neg hid, hbase, hdirOf]⟩
    · obtain ⟨b, -, rfl⟩ := (receive_json_some (fun _ _ => Request.noConfusion)).mp ht
      refine ⟨r, ?_⟩
      rw [if_neg hid, hbase, hdirOf]
      split at hk
      · rw [hk.1]
      · rw [exec_getState_bind, exec_load_bind ptr (f := f) (by simpa using h)] at hk
        rw [hlocal hk]

-- ============================================================================
-- tg_file_load_contents
-- ============================================================================

/-- The chunks of a download arrive one after the other. -/
theorem foldlM_curlResponseFileWriter {fill : Nat → UInt8} {chunks : List (List UInt8)}
    {p data : Buffer} (hv : p.Valid)
    (h : chunks.foldlM (curlResponseFileWriter fill) p = some data) :
    data.Valid ∧ data.contents = p.contents ++ chunks.flatten := by
  induction chunks generalizing p with
  | nil =>
      cases h
      exact ⟨hv, by simp⟩
  | cons c chunks ih =>
      simp only [List.foldlM_cons, Option.bind_eq_bind, Option.bind_eq_some_iff] at h
      obtain ⟨p', hp', h⟩ := h
      obtain ⟨hv', hc, -⟩ := bufferAppend_spec hv hp'
      obtain ⟨hvd, hcd⟩ := ih hv' h
      exact ⟨hvd, by rw [hcd, hc, List.flatten_cons, List.append_assoc]⟩

/-- A download leaves the memory behind the contents as it was allocated. -/
theorem foldlM_curlResponseFileWriter_untouched {fill : Nat → UInt8} {chunks : List (List UInt8)}
    {p data : Buffer} (hv : p.Valid) (hu : p.Untouched fill)
    (h : chunks.foldlM (curlResponseFileWriter fill) p = some data) : data.Untouched fill := by
  induction chunks generalizing p with
  | nil =>
      cases h
      exact hu
  | cons c chunks ih =>
      simp only [List.foldlM_cons, Option.bind_eq_bind, Option.bind_eq_some_iff] at h
      obtain ⟨p', hp', h⟩ := h
      exact ih (bufferAppend_spec hv hp').1 (bufferAppend_untouched hv hu hp') h

/-- Within `size_t`, a download is received whole. -/
theorem foldlM_curlResponseFileWriter_some {fill : Nat → UInt8} {chunks : List (List UInt8)}
    {p : Buffer} (hv : p.Valid) (h : p.capacity + chunks.flatten.length < 2 ^ 64) :
    ∃ data, chunks.foldlM (curlResponseFileWriter fill) p = some data := by
  induction chunks generalizing p with
  | nil => exact ⟨p, rfl⟩
  | cons c chunks ih =>
      rw [List.flatten_cons, List.length_append] at h
      obtain ⟨p', hp'⟩ : ∃ p', bufferAppend fill p c = some p' :=
        bufferAppend_some fill hv (by have := hv.size_le; omega) fun _ => by omega
      obtain ⟨hv', -, -, hcap⟩ := bufferAppend_spec hv hp'
      obtain ⟨data, hd⟩ := ih hv' (by omega)
      refine ⟨data, ?_⟩
      simp only [List.foldlM_cons, Option.bind_eq_bind, curlResponseFileWriter, hp',
        Option.bind_some]
      exact hd

/-- The requests for the document `fid`, what they leave in `json_response_buf`,
    and what has been loaded. -/
def Loaded (fill : Nat → UInt8) (config : TgConfig) (fid : List UInt8)
    (log : List (Request × Response)) (b : CharArray jsonResponseBufSize) (data : Buffer) : Prop :=
  ∃ r, receiveJson r .zeros = some b ∧
    (((r.code ≠ curleOk ∨ checkOkStatusInJson b.bytes = some false) ∧
        log = [(.getFile config fid, r)] ∧ data = bufferNew fill) ∨
     (r.code = curleOk ∧ checkOkStatusInJson b.bytes = some true ∧
        ∃ path r₂, parseResponseFieldFromJson (List.replicate fieldSize 0) b.bytes
            (text "file_path") = some path ∧
          log = [(.getFile config fid, r), (.download config (cstr path.2), r₂)] ∧
          r₂.chunks.foldlM (curlResponseFileWriter fill) (bufferNew fill) = some data))

theorem Loaded.valid {fill : Nat → UInt8} {config : TgConfig} {fid : List UInt8}
    {log : List (Request × Response)} {b : CharArray jsonResponseBufSize} {data : Buffer}
    (h : Loaded fill config fid log b data) : data.Valid := by
  obtain ⟨r, -, ⟨-, -, rfl⟩ | ⟨-, -, path, r₂, -, -, hd⟩⟩ := h
  · exact bufferNew_valid fill
  · exact (foldlM_curlResponseFileWriter (bufferNew_valid fill) hd).1

/-- The bytes that downloads have delivered. -/
def received (log : List (Request × Response)) : List UInt8 :=
  log.flatMap fun e =>
    match e.1 with
    | .download .. => e.2.chunks.flatten
    | _ => []

/-- What has been loaded is what has been delivered. -/
theorem Loaded.contents_eq {fill : Nat → UInt8} {config : TgConfig} {fid : List UInt8}
    {log : List (Request × Response)} {b : CharArray jsonResponseBufSize} {data : Buffer}
    (h : Loaded fill config fid log b data) :
    data.contents = received log ∧ data.Untouched fill := by
  obtain ⟨r, -, ⟨-, rfl, rfl⟩ | ⟨-, -, path, r₂, -, rfl, hd⟩⟩ := h
  · exact ⟨rfl, bufferNew_untouched fill⟩
  · refine ⟨?_, foldlM_curlResponseFileWriter_untouched (bufferNew_valid fill)
      (bufferNew_untouched fill) hd⟩
    rw [(foldlM_curlResponseFileWriter (bufferNew_valid fill) hd).2]
    simp [received]

/-- The answers determine the requests of a load. -/
theorem Loaded.log_eq_of_answers {fill₁ fill₂ : Nat → UInt8} {config : TgConfig} {fid : List UInt8}
    {l₁ l₂ : List (Request × Response)} {b₁ b₂ : CharArray jsonResponseBufSize}
    {data₁ data₂ : Buffer} (h₁ : Loaded fill₁ config fid l₁ b₁ data₁)
    (h₂ : Loaded fill₂ config fid l₂ b₂ data₂) (hans : l₁.map Prod.snd = l₂.map Prod.snd) :
    l₁ = l₂ := by
  obtain ⟨r, hr, ⟨-, rfl, -⟩ | ⟨-, -, path, r₂, hpath, rfl, -⟩⟩ := h₁
  · obtain ⟨r', -, ⟨-, rfl, -⟩ | ⟨-, -, path', r₂', -, rfl, -⟩⟩ := h₂
    · obtain rfl : r = r' := by simpa using hans
      rfl
    · simp at hans
  · obtain ⟨r', hr', ⟨-, rfl, -⟩ | ⟨-, -, path', r₂', hpath', rfl, -⟩⟩ := h₂
    · simp at hans
    · obtain ⟨rfl, rfl⟩ : r = r' ∧ r₂ = r₂' := by simpa using hans
      -- the path stands in the first answer
      rw [hr] at hr'
      cases hr'
      rw [hpath] at hpath'
      cases hpath'
      rfl

/-- `tg_file_load_contents`, where it completes. -/
theorem exec_tgFileLoadContents {s s' : Statics} {log : List (Request × Response)}
    (ptr : FilePtr) {f : TgFile} {fill : Nat → UInt8} {config : TgConfig} {data : Buffer}
    (h : ptr.peek s = some f) :
    Exec receive (tgFileLoadContents fill config ptr) s log (some data) s' ↔
      ∃ b, Loaded fill config f.fileIdStr log b data ∧ s' = s.withJson b := by
  have h0 : ptr.peek (s.withJson .zeros) = some f := by simpa using h
  have hget : ∀ c path, Request.getFile config f.fileIdStr ≠ .download c path :=
    fun c path => Request.noConfusion
  unfold tgFileLoadContents
  simp only [exec_getState_bind, exec_setState_bind]
  change Exec receive _ (s.withJson .zeros) log (some data) s' ↔ _
  rw [exec_load_bind ptr h0, exec_json_bind_some hget]
  constructor
  · rintro ⟨r, rest, b, rfl, hb, hk⟩
    simp only [Statics.withJson_json] at hb
    by_cases hr : r.code ≠ curleOk
    · simp only [if_pos hr, exec_pure, Option.some.injEq] at hk
      exact ⟨b, ⟨r, hb, Or.inl ⟨Or.inl hr, by rw [hk.1], hk.2.1⟩⟩, hk.2.2⟩
    · simp only [if_neg hr, exec_getState_bind, Statics.withJson_json,
        exec_liftOption_bind_some] at hk
      obtain ⟨ok, hok, hk⟩ := hk
      cases ok with
      | false =>
          simp only [Bool.false_eq_true, not_false_eq_true, if_true, exec_pure,
            Option.some.injEq] at hk
          exact ⟨b, ⟨r, hb, Or.inl ⟨Or.inr hok, by rw [hk.1], hk.2.1⟩⟩, hk.2.2⟩
      | true =>
          simp only [not_true_eq_false, if_false, exec_liftOption_bind_some,
            exec_download_bind] at hk
          obtain ⟨path, hpath, r₂, rest', rfl, hk⟩ := hk
          obtain ⟨rfl, hd, hs⟩ := exec_liftOption_some.mp hk
          exact ⟨b, ⟨r, hb, Or.inr ⟨not_not.mp hr, hok, path, r₂, hpath, rfl, hd⟩⟩, hs⟩
  · rintro ⟨b, ⟨r, hb, hcase⟩, rfl⟩
    rcases hcase with ⟨hfail, rfl, rfl⟩ | ⟨hr, hok, path, r₂, hpath, rfl, hd⟩
    · refine ⟨r, [], b, rfl, hb, ?_⟩
      by_cases hr : r.code ≠ curleOk
      · simp [if_pos hr]
      · have hok := hfail.resolve_left hr
        simp only [if_neg hr, exec_getState_bind, Statics.withJson_json,
          exec_liftOption_bind_some]
        exact ⟨false, hok, by simp⟩
    · refine ⟨r, _, b, rfl, hb, ?_⟩
      simp only [hr, ne_eq, not_true_eq_false, if_false, exec_getState_bind,
        Statics.withJson_json, exec_liftOption_bind_some]
      refine ⟨true, hok, ?_⟩
      simp only [not_true_eq_false, if_false, exec_liftOption_bind_some, exec_download_bind]
      exact ⟨path, hpath, r₂, [], rfl, exec_liftOption_some.mpr ⟨rfl, hd, rfl⟩⟩

-- ============================================================================
-- tg_remove_message_with_file
-- ============================================================================

/-- `tg_remove_message_with_file`, where it completes: the result is 0 whatever
    the response. -/
theorem exec_tgRemoveMessageWithFile {s s' : Statics} {log : List (Request × Response)}
    (ptr : FilePtr) {f : TgFile} {config : TgConfig} {res : Int} (h : ptr.peek s = some f) :
    Exec receive (tgRemoveMessageWithFile config ptr) s log (some res) s' ↔
      ∃ r b, log = [(.deleteMessage config f.messageIdStr, r)] ∧
        receiveJson r s.jsonResponseBuf = some b ∧
        (r.code = curleOk → checkOkStatusInJson b.bytes ≠ none) ∧
        res = 0 ∧ s' = s.withJson b := by
  unfold tgRemoveMessageWithFile
  rw [exec_load_bind ptr h, exec_json_bind_some (by intro c path; exact Request.noConfusion)]
  constructor
  · rintro ⟨r, rest, b, rfl, hb, hk⟩
    by_cases hr : r.code ≠ curleOk
    · simp only [if_pos hr, exec_pure, Option.some.injEq] at hk
      exact ⟨r, b, by rw [hk.1], hb, fun h => absurd h hr, hk.2.1, hk.2.2⟩
    · simp only [if_neg hr, exec_getState_bind, Statics.withJson_json,
        exec_liftOption_bind_some, exec_pure, Option.some.injEq] at hk
      obtain ⟨ok, hok, rfl, rfl, rfl⟩ := hk
      exact ⟨r, b, rfl, hb, fun _ => by simp [hok], rfl, rfl⟩
  · rintro ⟨r, b, rfl, hb, hok, rfl, rfl⟩
    refine ⟨r, [], b, rfl, hb, ?_⟩
    by_cases hr : r.code ≠ curleOk
    · simp [if_pos hr]
    · simp only [if_neg hr, exec_getState_bind, Statics.withJson_json,
        exec_liftOption_bind_some, exec_pure]
      obtain ⟨ok, hok⟩ := Option.ne_none_iff_exists'.mp (hok (not_not.mp hr))
      exact ⟨ok, hok, by simp⟩

end TgFuse

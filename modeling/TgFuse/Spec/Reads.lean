/-
  TgFuse.Spec.Reads

  Reading when requests fail: what `hello_read` returns of the document.

  `tg_file_load_contents` hands on whatever has been received, with no status.
  A read is answered from that: truly, if what was asked for has arrived, or if
  nothing has.
-/

import TgFuse.Spec.Answers
import TgFuse.Spec.Served

namespace TgFuse

open CString Interact Interact.Prog Lts

-- ============================================================================
-- The reply
-- ============================================================================

/-- The bytes that a read is about. -/
def windowOf (document : List UInt8) (size : Nat) (offset : Int) : List UInt8 :=
  (document.drop offset.toNat).take size

/-- The window of the document, or a negative errno. -/
def TrueBytesOrErrno (document : List UInt8) (size : Nat) (offset : Int)
    (o : Option (Int × List UInt8)) : Prop :=
  o = some (((windowOf document size offset).length : Int), windowOf document size offset) ∨
    ∃ ret, o = some (ret, []) ∧ ret < 0

/-- What has arrived settles the read: nothing has, or all of the window; and the
    sums and the count stay within `size_t` and `int`. -/
def ArrivedFor (got document : List UInt8) (size : Nat) (offset : Int) : Prop :=
  got = [] ∨
    (min (offset.toNat + size) document.length ≤ max got.length offset.toNat ∧
      (offset.toNat < got.length →
        offset.toNat + size < 2 ^ 64 ∧ (windowOf got size offset).length < 2 ^ 31))

section Replies

variable {src : Buffer} {got document : List UInt8} {size : Nat} {offset : Int}

/-- The windows of a document and of its start. -/
theorem windowOf_eq_iff (size : Nat) (offset : Int) (hpre : got <+: document) :
    windowOf got size offset = windowOf document size offset ↔
      min (offset.toNat + size) document.length ≤ max got.length offset.toNat := by
  obtain ⟨rest, rfl⟩ := hpre
  have hlen : (windowOf got size offset).length = min size (got.length - offset.toNat) := by
    rw [windowOf, List.length_take, List.length_drop]
  have hlen' : (windowOf (got ++ rest) size offset).length
      = min size (got.length + rest.length - offset.toNat) := by
    rw [windowOf, List.length_take, List.length_drop, List.length_append]
  rw [List.length_append]
  constructor
  · intro h
    rw [h, hlen'] at hlen
    omega
  · intro h
    have hpre : windowOf got size offset <+: windowOf (got ++ rest) size offset := by
      unfold windowOf
      rw [List.drop_append]
      exact List.IsPrefix.take (List.prefix_append _ _) _
    exact hpre.eq_of_length (by omega)

/-- The reply from what has arrived is true or an error exactly if that settles
    the read. -/
theorem readReply_true_iff (hv : src.Valid) (hpre : src.contents <+: document)
    (h0 : 0 ≤ offset) (hsize : size < 2 ^ 64) (hlen : document.length < 2 ^ 63) :
    TrueBytesOrErrno document size offset (readReply src size offset) ↔
      ArrivedFor src.contents document size offset := by
  obtain ⟨pos, rfl⟩ := Int.eq_ofNat_of_zero_le h0
  have hcl := hv.length_contents
  have hle := hpre.length_le
  have hwin := windowOf_eq_iff size pos hpre
  have hempty : src.contents = [] ↔ src.size = 0 := by
    rw [← hcl, List.length_eq_zero_iff]
  unfold TrueBytesOrErrno ArrivedFor
  rw [hempty, hcl]
  rw [hcl] at hwin
  simp only [Int.toNat_natCast] at hwin ⊢
  by_cases hne : src.size = 0
  · have hreply : readReply src size pos = some (-enoent, []) := if_pos hne
    rw [hreply]
    exact ⟨fun _ => Or.inl hne, fun _ => Or.inr ⟨_, rfl, by decide⟩⟩
  by_cases hin : pos < src.size
  · by_cases hend : pos + size < 2 ^ 64
    · -- all that has arrived of the window is returned
      have hreply := readReply_in hv (by omega) hin hend
      change _ = some (cint (windowOf src.contents size pos).length,
        windowOf src.contents size pos) at hreply
      rw [hreply, ← hwin]
      constructor
      · rintro (h | ⟨ret, h, hneg⟩)
        · obtain ⟨hcount, hbytes⟩ := Prod.mk.inj (Option.some.inj h)
          rw [← hbytes] at hcount
          exact Or.inr ⟨hbytes, fun _ => ⟨hend, cint_eq_iff.mp hcount⟩⟩
        · obtain ⟨hcount, hbytes⟩ := Prod.mk.inj (Option.some.inj h)
          rw [hbytes] at hcount
          rw [← hcount] at hneg
          exact absurd hneg (by decide)
      · rintro (h | ⟨hbytes, hcount⟩)
        · exact absurd h hne
        · have hcount := cint_of_lt (hcount hin).2
          exact Or.inl (by rw [hcount, hbytes])
    · rw [readReply_wraps hv (by omega) hin hsize (by omega)]
      constructor
      · rintro (h | ⟨ret, h, -⟩) <;> cases h
      · rintro (h | ⟨-, h⟩)
        · exact absurd h hne
        · exact absurd (h hin).1 hend
  · rw [readReply_past hne (by omega) (by omega), ← hwin]
    have hnil : windowOf src.contents size pos = [] := by
      rw [windowOf, Int.toNat_natCast, List.drop_eq_nil_of_le (by omega), List.take_nil]
    rw [hnil]
    constructor
    · rintro (h | ⟨ret, h, hneg⟩)
      · obtain ⟨-, hbytes⟩ := Prod.mk.inj (Option.some.inj h)
        exact Or.inr ⟨hbytes, fun h => absurd h hin⟩
      · cases h
        exact absurd hneg (by decide)
    · rintro (h | ⟨hbytes, -⟩)
      · exact absurd h hne
      · exact Or.inl (by rw [← hbytes]; rfl)

end Replies

-- ============================================================================
-- hello_read
-- ============================================================================

section Reads

variable {config : TgConfig} {heap : Heap} {s s' : Statics} {ch ch' : Channel} {f : TgFile}
  {p document : List UInt8} {size : Nat} {offset : Int} {log : List (Request × Response)}
  {o : Option (Int × List UInt8)} {okMessage okFile : Channel → Id → Prop}

/-- Whatever becomes of the requests, a read of a file with a document replies
    from the part of it that has arrived. -/
theorem exec_helloRead_answered (hl : s.storage.lookup p = some f) (hid : f.fileIdStr ≠ [])
    (hdoc : ch.documents f.fileIdStr = some document) (hlen : document.length < 2 ^ 63)
    (he : Exec receive (helloRead heap config p size offset) s log o s')
    (hs : Serve (Answers okMessage okFile) ch log ch') :
    ∃ src : Buffer, src.Valid ∧ src.contents = received log ∧ src.contents <+: document ∧
      o = readReply src size offset := by
  obtain ⟨i, hi, -, hfile⟩ := findByPath_of_lookup hl
  have hid' : f.fileIdStr.length ≠ 0 := fun h => hid (List.eq_nil_of_length_eq_zero h)
  rw [exec_helloRead_file hi hfile hid'] at he
  rcases (exec_bind receive).mp he with ⟨src, t, l₁, l₂, rfl, hload, hk⟩ | ⟨-, hcrash⟩
  · obtain ⟨b, hloaded, rfl⟩ := (exec_tgFileLoadContents (.slot i) hfile).mp hload
    obtain ⟨d, hs₁, -⟩ := serve_append.mp hs
    have hreply : l₂ = [] ∧ o = readReply src size offset := by
      cases hr : readReply src size offset with
      | none =>
          rw [hr] at hk
          exact ⟨hk.1, hk.2.1⟩
      | some res =>
          rw [hr] at hk
          exact ⟨hk.1, hk.2.1⟩
    obtain ⟨rfl, rfl⟩ := hreply
    rw [List.append_nil]
    have hpre := (hloaded.answered hs₁).2
    rw [hdoc] at hpre
    exact ⟨src, hloaded.valid, hloaded.contents_eq.1, hpre, rfl⟩
  · have hroom : ∀ d, ch.documents f.fileIdStr = some d → d.length + 100 < 2 ^ 64 := by
      intro d hd
      rw [hdoc] at hd
      cases hd
      omega
    obtain ⟨data, hdata⟩ := exec_tgFileLoadContents_completes (.slot i) hfile hcrash hs hroom
    cases hdata

/-- In every state, a read of a file with a document returns the true bytes or an
    error exactly if what has arrived of the document settles it. -/
theorem read_is_true_iff (hl : s.storage.lookup p = some f) (hid : f.fileIdStr ≠ [])
    (hdoc : ch.documents f.fileIdStr = some document) (hlen : document.length < 2 ^ 63)
    (h0 : 0 ≤ offset) (hsize : size < 2 ^ 64)
    (he : Exec receive (helloRead heap config p size offset) s log o s')
    (hs : Serve (Answers okMessage okFile) ch log ch') :
    TrueBytesOrErrno document size offset o ↔ ArrivedFor (received log) document size offset := by
  obtain ⟨src, hv, hgot, hpre, rfl⟩ := exec_helloRead_answered hl hid hdoc hlen he hs
  rw [← hgot]
  exact readReply_true_iff hv hpre h0 hsize hlen

end Reads

/-- A read at the start of `/a`, whose download breaks off after one byte. -/
def sampleBrokenRead (size : Nat) (s : Statics) :
    Outcome Statics Request Response (Int × List UInt8) :=
  run receive (helloRead zeroHeap blankConfig (text "/a") size 0) s
    fun n => [locatedAnswer (text "p"), ⟨1, [text "x"]⟩].getD n lostAnswer

/-- The exchanges of the read. -/
def sampleBroken : List (Request × Response) :=
  [(.getFile blankConfig (text "AAA"), locatedAnswer (text "p")),
    (.download blankConfig (text "p"), ⟨1, [text "x"]⟩)]

/-- The document of `/a`. -/
def sampleDocument : Channel := Channel.empty.post (text "17") (text "AAA") (text "xy")

theorem sampleBroken_answered :
    Serve (Answers Channel.FreshMessage Channel.AnyId) sampleDocument sampleBroken
      (sampleDocument.locate (text "p") (text "AAA")) := by
  have hdoc : sampleDocument.documents (text "AAA") = some (text "xy") := by
    rw [sampleDocument, Channel.post_documents, Function.update_self]
  exact serve_cons.mpr ⟨_, Or.inl (serves_located (by decide +kernel) hdoc (Or.inl rfl)),
    serve_cons.mpr ⟨_, Or.inr (fails_brokenOff hdoc (by decide) (by decide)), serve_nil.mpr rfl⟩⟩

/-- The read of one byte and of two, after two bytes have been written. -/
theorem sampleBrokenRead_exec :
    ∃ s₀ evs s f t u, Initial s₀ ∧ Run (PathStep blankConfig) s₀ evs s ∧
      s.storage.lookup (text "/a") = some f ∧ f.fileIdStr ≠ [] ∧
      sampleDocument.documents f.fileIdStr = some (text "xy") ∧
      Exec receive (helloRead zeroHeap blankConfig (text "/a") 1 0) s sampleBroken
        (some (1, text "x")) t ∧
      Exec receive (helloRead zeroHeap blankConfig (text "/a") 2 0) s sampleBroken
        (some (1, text "x")) u := by
  obtain ⟨s₀, evs, s, h0, ⟨hfid, hres, hlog, hres', hlog'⟩, hrun⟩ := pathRun_of_runFromMain
    [(.create (text "/a"), []),
      (.write (text "/a") (text "xy") 0, [sentAnswer (text "17") (text "AAA")])]
    (fun _ s => (s.storage.lookup (text "/a")).map TgFile.fileIdStr = some (text "AAA") ∧
      (sampleBrokenRead 1 s).result = some (1, text "x") ∧
      (sampleBrokenRead 1 s).log = sampleBroken ∧
      (sampleBrokenRead 2 s).result = some (1, text "x") ∧
      (sampleBrokenRead 2 s).log = sampleBroken)
    (by decide +kernel)
  obtain ⟨f, hl, hf⟩ := Option.map_eq_some_iff.mp hfid
  have he := exec_of_result receive hres hlog
  have he' := exec_of_result receive hres' hlog'
  have hid : f.fileIdStr ≠ [] := by
    rw [hf]
    decide
  have hdoc : sampleDocument.documents f.fileIdStr = some (text "xy") := by
    rw [hf, sampleDocument, Channel.post_documents, Function.update_self]
  exact ⟨s₀, evs, s, f, _, _, h0, hrun, hl, hid, hdoc, he, he'⟩

/-- One byte has arrived: a read of one byte is true, one of two is not. -/
theorem read_is_true_iff_sample :
    TrueBytesOrErrno (text "xy") 1 0 (some (1, text "x")) ∧
      ¬ TrueBytesOrErrno (text "xy") 2 0 (some (1, text "x")) := by
  obtain ⟨s₀, evs, s, f, t, u, h0, hrun, hl, hid, hdoc, he, he'⟩ := sampleBrokenRead_exec
  constructor
  · apply (read_is_true_iff hl hid hdoc (by decide) (by decide) (by decide) he
      sampleBroken_answered).mpr
    exact Or.inr ⟨by decide, fun _ => ⟨by decide, by decide⟩⟩
  · intro h
    rcases (read_is_true_iff hl hid hdoc (by decide) (by decide) (by decide) he'
      sampleBroken_answered).mp h with h | ⟨h, -⟩
    · exact absurd h (by decide)
    · exact absurd h (by decide)

/-- A download that breaks off gives a short count. -/
theorem broken_download_is_short :
    ¬ ∀ (config : TgConfig) (heap : Heap) (s₀ s s' : Statics) (evs : List Event)
        (ch ch' : Channel) (f : TgFile) (p document : List UInt8) (size : Nat) (offset : Int)
        (log : List (Request × Response)) (o : Option (Int × List UInt8)),
      Initial s₀ → Run (PathStep config) s₀ evs s → s.storage.lookup p = some f →
      f.fileIdStr ≠ [] → ch.documents f.fileIdStr = some document → document.length < 2 ^ 63 →
      0 ≤ offset → size < 2 ^ 64 →
      Exec receive (helloRead heap config p size offset) s log o s' →
      Serve (Answers Channel.FreshMessage Channel.AnyId) ch log ch' →
      TrueBytesOrErrno document size offset o := by
  intro hall
  obtain ⟨s₀, evs, s, f, t, u, h0, hrun, hl, hid, hdoc, -, he⟩ := sampleBrokenRead_exec
  rcases hall _ _ _ _ _ _ _ _ _ _ _ _ _ _ _ h0 hrun hl hid hdoc (by decide) (by decide)
    (by decide) he sampleBroken_answered with h | ⟨ret, h, -⟩
  · exact absurd h (by decide)
  · cases (Prod.mk.inj (Option.some.inj h)).2

end TgFuse

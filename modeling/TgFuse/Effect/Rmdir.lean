/-
  TgFuse.Effect.Rmdir

  The two loops over the entries of a directory: `hello_rmdir` and
  `hello_readdir`.

  The requests of `hello_rmdir` do not influence which entries it visits, so the
  table it leaves is a function of the table it finds: `rmdirSweep`.  Under
  distinct paths that is the scan of `SwapSweep`.
-/

import TgFuse.Effect.Table
import TgFuse.Lib.SwapSweep
import TgFuse.Spec.Telegram

namespace TgFuse

open CString Interact Interact.Prog KeyedList SwapSweep

-- ============================================================================
-- Searching by directory
-- ============================================================================

/-- The test of `tg_storage_find_files_by_dir`. -/
def inDir (dir : List UInt8) (f : TgFile) : Bool :=
  decide (f.pathStr ≠ dir ∧ dirOf f.pathStr = dir)

theorem inDir_iff {dir : List UInt8} {f : TgFile} :
    inDir dir f = true ↔ f.pathStr ≠ dir ∧ dirOf f.pathStr = dir := by simp [inDir]

theorem findFilesByDirFrom_eq {dir : List UInt8} {l : List TgFile} (hl : ∀ f ∈ l, f.Named)
    (i : Nat) :
    findFilesByDirFrom dir l i = some ((l.findIdx? (inDir dir)).map (· + i)) := by
  induction l generalizing i with
  | nil => rfl
  | cons f l ih =>
      have hf := hl f (List.mem_cons_self ..)
      have ih := ih (fun g hg => hl g (List.mem_cons_of_mem _ hg)) (i + 1)
      obtain ⟨out, hout, hdir⟩ :=
        tgFileExtractDirectory_spec hf.hasPath hf.valid uninit_length
      have hstep : (l.findIdx? (inDir dir)).map (· + (i + 1))
          = ((l.findIdx? (inDir dir)).map (· + 1)).map (· + i) := by
        rw [Option.map_map]
        congr 1
        funext k
        simp only [Function.comp]
        omega
      simp only [findFilesByDirFrom, hout, hdir, List.findIdx?_cons]
      by_cases hp : f.pathStr ≠ dir
      · by_cases hd : dirOf f.pathStr = dir
        · have hin : inDir dir f = true := inDir_iff.mpr ⟨hp, hd⟩
          simp [hp, hd, hin]
        · have hin : inDir dir f = false := by simp [inDir, hd]
          simp [hp, hd, hin, ih, hstep]
      · have hin : inDir dir f = false := by simp [inDir, not_not.mp hp]
        simp [hp, hin, ih, hstep]

/-- The search never leaves a table of valid paths. -/
theorem tgStorageFindFilesByDir_eq {st : TgStorage} (hwf : st.Wf) (dir : List UInt8)
    (start : Nat) :
    tgStorageFindFilesByDir st dir start = some (nextIn (inDir dir) st.live start) :=
  findFilesByDirFrom_eq (fun f hf => hwf.named f (List.mem_of_mem_drop hf)) start

theorem TgStorage.Wf.without {st : TgStorage} (hwf : st.Wf) (p : List UInt8) :
    (st.without p).Wf := by
  cases hl : st.lookup p with
  | none => rwa [without_of_lookup_none hl]
  | some f =>
      obtain ⟨-, hv, -⟩ := removeByPath_of_lookup hwf.valid hl
      exact ⟨hv, fun g hg => hwf.named g (mem_without hwf.valid hg)⟩

theorem size_without {st : TgStorage} (hwf : st.Wf) {p : List UInt8} {f : TgFile}
    (h : st.lookup p = some f) : (st.without p).size + 1 = st.size := by
  obtain ⟨-, hv, i, -, hi, hlive⟩ := removeByPath_of_lookup hwf.valid h
  have h1 := hwf.valid.length_live
  have h2 := hv.length_live
  obtain ⟨hil, -⟩ := List.getElem?_eq_some_iff.mp hi
  rw [hlive, swapRemove_length] at h2
  omega

-- ============================================================================
-- The loop of rmdir
-- ============================================================================

/-- The entries the loop visits, each with the one it takes out by path, and the
    table it leaves. -/
def rmdirSweep (dir : List UInt8) : Nat → Nat → TgStorage → List (TgFile × TgFile) × TgStorage
  | 0, _, st => ([], st)
  | rounds + 1, start, st =>
      match nextIn (inDir dir) st.live start with
      | none => ([], st)
      | some i =>
          let f := st.live.getD i TgFile.zero
          let r := rmdirSweep dir rounds (i + 1) (st.without f.pathStr)
          ((f, (tgStorageRemoveByPath st f.pathStr).1) :: r.1, r.2)

/-- The `deleteMessage` requests for the entries with a positive size, and what
    they make of `json_response_buf`. -/
def DeleteLog (config : TgConfig) : List TgFile → CharArray jsonResponseBufSize →
    List (Request × Response) → CharArray jsonResponseBufSize → Prop
  | [], b, log, b' => log = [] ∧ b' = b
  | f :: fs, b, log, b' =>
      if f.fileSize > 0 then
        ∃ r rest c, log = (.deleteMessage config f.messageIdStr, r) :: rest ∧
          receiveJson r b = some c ∧
          (r.code = curleOk → checkOkStatusInJson c.bytes ≠ none) ∧
          DeleteLog config fs c rest b'
      else DeleteLog config fs b log b'

/-- The requests, in order. -/
theorem DeleteLog.requests {config : TgConfig} {fs : List TgFile}
    {b b' : CharArray jsonResponseBufSize} {log : List (Request × Response)}
    (h : DeleteLog config fs b log b') :
    log.map Prod.fst = (fs.filter fun f => f.fileSize > 0).map fun f =>
      .deleteMessage config f.messageIdStr := by
  induction fs generalizing b log with
  | nil => simp [h.1]
  | cons f fs ih =>
      rw [DeleteLog] at h
      split at h
      · next hpos =>
        obtain ⟨r, rest, c, rfl, -, -, h⟩ := h
        simp [hpos, ih h]
      · next hzero => simpa [hzero] using ih h

variable {s s' : Statics} {log : List (Request × Response)} {config : TgConfig}
  {dir : List UInt8}

/-- A search that finds nothing ends the loop. -/
theorem exec_rmdirLoop_none {rounds start : Nat} (hwf : s.storage.Wf)
    (hnext : nextIn (inDir dir) s.storage.live start = none) {o : Option Unit} :
    Exec receive (rmdirLoop config dir (rounds + 1) start) s log o s' ↔
      log = [] ∧ o = some () ∧ s' = s := by
  rw [rmdirLoop, exec_getState_bind, tgStorageFindFilesByDir_eq hwf, exec_liftOption_some_bind,
    hnext]
  exact exec_pure receive

/-- A round that finds slot `i`. -/
theorem exec_rmdirLoop_some {rounds start i : Nat} {f : TgFile} (hwf : s.storage.Wf)
    (hnext : nextIn (inDir dir) s.storage.live start = some i)
    (hf : s.storage.live[i]? = some f) {o : Option Unit} :
    Exec receive (rmdirLoop config dir (rounds + 1) start) s log o s' ↔
      if f.fileSize > 0 then
        (∃ r rest c, log = (.deleteMessage config f.messageIdStr, r) :: rest ∧
          receiveJson r s.jsonResponseBuf = some c ∧
          (r.code = curleOk → checkOkStatusInJson c.bytes ≠ none) ∧
          Exec receive (rmdirLoop config dir rounds (i + 1))
            ((s.withJson c).withStorage (s.storage.without f.pathStr)) rest o s') ∨
        (o = none ∧ Exec receive (tgRemoveMessageWithFile config (.slot i)) s log none s')
      else
        Exec receive (rmdirLoop config dir rounds (i + 1))
          (s.withStorage (s.storage.without f.pathStr)) log o s' := by
  have hi := (TgStorage.getElem?_live hf).2
  rw [rmdirLoop, exec_getState_bind, tgStorageFindFilesByDir_eq hwf, exec_liftOption_some_bind,
    hnext]
  simp only
  rw [exec_slot_load_bind hi]
  split
  · next hpos =>
    rw [exec_bind]
    refine or_congr ?_ Iff.rfl
    constructor
    · rintro ⟨a, t, l₁, l₂, rfl, hrm, hk⟩
      obtain ⟨r, c, rfl, hc, hok, rfl, rfl⟩ :=
        (exec_tgRemoveMessageWithFile (.slot i) hi).mp hrm
      have hi' : (s.withJson c).storage.files[i]? = some f := hi
      rw [exec_slot_load_bind hi', exec_removeByPath_bind] at hk
      exact ⟨r, l₂, c, rfl, hc, hok, hk⟩
    · rintro ⟨r, rest, c, rfl, hc, hok, hk⟩
      have hi' : (s.withJson c).storage.files[i]? = some f := hi
      refine ⟨0, s.withJson c, [_], rest, rfl,
        (exec_tgRemoveMessageWithFile (.slot i) hi).mpr ⟨r, c, rfl, hc, hok, rfl, rfl⟩, ?_⟩
      rw [exec_slot_load_bind hi', exec_removeByPath_bind]
      exact hk
  · rw [exec_pure_bind, exec_slot_load_bind hi, exec_removeByPath_bind]

/-- The search finds an entry, and the table is one shorter without it. -/
theorem exists_of_nextIn {st : TgStorage} {start i : Nat} (hwf : st.Wf)
    (hnext : nextIn (inDir dir) st.live start = some i) :
    ∃ f, st.live[i]? = some f ∧ start ≤ i ∧ i < st.size ∧
      (st.without f.pathStr).size + 1 = st.size := by
  obtain ⟨hsi, ⟨f, hf, -⟩, -⟩ := nextIn_some hnext
  obtain ⟨g, hg⟩ := lookup_isSome_of_mem (List.mem_of_getElem? hf)
  exact ⟨f, hf, hsi, (TgStorage.getElem?_live hf).1, size_without hwf hg⟩

/-- The loop, where it completes: with enough rounds it is the sweep. -/
theorem exec_rmdirLoop {rounds start : Nat} (hwf : s.storage.Wf)
    (hr : s.storage.size < start + rounds) (hpos : 0 < rounds) :
    Exec receive (rmdirLoop config dir rounds start) s log (some ()) s' ↔
      ∃ b, DeleteLog config ((rmdirSweep dir rounds start s.storage).1.map Prod.fst)
          s.jsonResponseBuf log b ∧
        s' = (s.withStorage (rmdirSweep dir rounds start s.storage).2).withJson b := by
  induction rounds generalizing start s log with
  | zero => exact absurd hpos (Nat.lt_irrefl 0)
  | succ rounds ih =>
      rw [rmdirSweep]
      cases hnext : nextIn (inDir dir) s.storage.live start with
      | none =>
          simp only [exec_rmdirLoop_none hwf hnext, true_and, List.map_nil, DeleteLog]
          constructor
          · rintro ⟨rfl, rfl⟩
            exact ⟨_, ⟨rfl, rfl⟩, rfl⟩
          · rintro ⟨b, ⟨rfl, rfl⟩, rfl⟩
            exact ⟨rfl, rfl⟩
      | some i =>
          obtain ⟨f, hf, hsi, hi, hsize⟩ := exists_of_nextIn hwf hnext
          have hget : s.storage.live.getD i TgFile.zero = f := by
            rw [List.getD_eq_getElem?_getD, hf]
            rfl
          have hwf' := hwf.without f.pathStr
          have hr' : (s.storage.without f.pathStr).size < i + 1 + rounds := by omega
          have hpos' : 0 < rounds := by omega
          simp only [hget, List.map_cons, DeleteLog]
          rw [exec_rmdirLoop_some hwf hnext hf]
          split
          · simp only [reduceCtorEq, false_and, or_false]
            constructor
            · rintro ⟨r, rest, c, rfl, hc, hok, hk⟩
              obtain ⟨b, hlog, rfl⟩ :=
                (ih (s := (s.withJson c).withStorage _) hwf' hr' hpos').mp hk
              exact ⟨b, ⟨r, rest, c, rfl, hc, hok, hlog⟩, rfl⟩
            · rintro ⟨b, ⟨r, rest, c, rfl, hc, hok, hlog⟩, rfl⟩
              exact ⟨r, rest, c, rfl, hc, hok,
                (ih (s := (s.withJson c).withStorage _) hwf' hr' hpos').mpr ⟨b, hlog, rfl⟩⟩
          · rw [ih (s := s.withStorage (s.storage.without f.pathStr)) hwf' hr' hpos']
            exact Iff.rfl

/-- A `deleteMessage` that is settled does not crash. -/
theorem exec_tgRemoveMessageWithFile_completes (ptr : FilePtr) {f : TgFile}
    (h : ptr.peek s = some f) {o : Option Int}
    (he : Exec receive (tgRemoveMessageWithFile config ptr) s log o s')
    (hlog : ∀ e ∈ log, e.2.Settled) : o ≠ none := by
  unfold tgRemoveMessageWithFile at he
  rw [exec_load_bind ptr h, exec_exchange_bind] at he
  obtain ⟨r, rest, rfl, hcase⟩ := he
  obtain ⟨b, hb, hok⟩ := hlog (_, r) (List.mem_cons_self ..) s.jsonResponseBuf
  have hrecv : receive (.deleteMessage config f.messageIdStr) r s = some (s.withJson b) :=
    (receive_json_some (by intro c path; exact Request.noConfusion)).mpr ⟨b, hb, rfl⟩
  rcases hcase with ⟨hnone, -⟩ | ⟨t, ht, hk⟩
  · rw [hrecv] at hnone
    cases hnone
  · rw [hrecv] at ht
    cases ht
    by_cases hr : r.code ≠ curleOk
    · simp only [if_pos hr, exec_pure] at hk
      simp [hk.2.1]
    · obtain ⟨ok, hok⟩ := Option.ne_none_iff_exists'.mp (hok (not_not.mp hr))
      simp only [if_neg hr, exec_getState_bind, Statics.withJson_json, hok,
        exec_liftOption_some_bind, exec_pure] at hk
      simp [hk.2.1]

/-- The loop runs to its end, whatever the outcome of its requests. -/
theorem exec_rmdirLoop_completes {rounds start : Nat} (hwf : s.storage.Wf)
    (hr : s.storage.size < start + rounds) (hpos : 0 < rounds) {o : Option Unit}
    (he : Exec receive (rmdirLoop config dir rounds start) s log o s')
    (hlog : ∀ e ∈ log, e.2.Settled) : o ≠ none := by
  induction rounds generalizing start s log with
  | zero => exact absurd hpos (Nat.lt_irrefl 0)
  | succ rounds ih =>
      cases hnext : nextIn (inDir dir) s.storage.live start with
      | none =>
          rw [exec_rmdirLoop_none hwf hnext] at he
          simp [he.2.1]
      | some i =>
          obtain ⟨f, hf, hsi, hi, hsize⟩ := exists_of_nextIn hwf hnext
          have hwf' := hwf.without f.pathStr
          have hr' : (s.storage.without f.pathStr).size < i + 1 + rounds := by omega
          have hpos' : 0 < rounds := by omega
          rw [exec_rmdirLoop_some hwf hnext hf] at he
          split at he
          · rcases he with ⟨r, rest, c, rfl, hc, hok, hk⟩ | ⟨rfl, hcrash⟩
            · exact ih (s := (s.withJson c).withStorage _) hwf' hr' hpos' hk
                fun e he => hlog e (List.mem_cons_of_mem _ he)
            · exact absurd rfl (exec_tgRemoveMessageWithFile_completes (.slot i)
                (TgStorage.getElem?_live hf).2 hcrash hlog)
          · exact ih (s := s.withStorage _) hwf' hr' hpos' he hlog

/-- `hello_unlink` runs to its end, whatever the outcome of its request. -/
theorem exec_helloUnlink_completes {p : List UInt8} {o : Option Int}
    (he : Exec receive (helloUnlink config p) s log o s')
    (hlog : ∀ e ∈ log, e.2.Settled) : ∃ res, o = some res := by
  unfold helloUnlink at he
  rw [exec_removeByPath_bind] at he
  split at he
  · exact ⟨_, he.2.1⟩
  · rw [exec_bind] at he
    rcases he with ⟨a, t, l₁, l₂, rfl, -, hk⟩ | ⟨-, hcrash⟩
    · exact ⟨_, hk.2.1⟩
    · exact absurd rfl (exec_tgRemoveMessageWithFile_completes (.var _) rfl hcrash hlog)

-- ============================================================================
-- rmdir
-- ============================================================================

/-- The entries `hello_rmdir` visits, each with the one it takes out. -/
def rmdirVisited (dir : List UInt8) (st : TgStorage) : List (TgFile × TgFile) :=
  (rmdirSweep dir (st.size + 1) 0 st).1

/-- The table `hello_rmdir` leaves. -/
def rmdirTable (dir : List UInt8) (st : TgStorage) : TgStorage :=
  (rmdirSweep dir (st.size + 1) 0 st).2.without dir

/-- `hello_rmdir`, where it completes. -/
theorem exec_helloRmdir (hwf : s.storage.Wf) {res : Int} :
    Exec receive (helloRmdir config dir) s log (some res) s' ↔
      ((∀ f, s.storage.lookup dir = some f → f.type = .tgFile) ∧
        log = [] ∧ res = -enotdir ∧ s' = s) ∨
      (∃ f b, s.storage.lookup dir = some f ∧ f.type = .tgDir ∧
        DeleteLog config ((rmdirVisited dir s.storage).map Prod.fst) s.jsonResponseBuf log b ∧
        res = 0 ∧ s' = (s.withStorage (rmdirTable dir s.storage)).withJson b) := by
  unfold helloRmdir
  rw [exec_findByPath_bind]
  cases hi : tgStorageFindByPath s.storage dir with
  | none =>
      simp only [exec_pure, lookup_eq_none hi, Option.some.injEq]
      simp
  | some i =>
      obtain ⟨f, hl, -, hf, -⟩ := tgStorageFindByPath_lookup hi
      simp only [exec_slot_load_bind hf, hl, Option.some.injEq]
      by_cases hfile : f.type = .tgFile
      · simp only [if_pos hfile, exec_pure, Option.some.injEq]
        simp [hfile]
      · have hdir : f.type = .tgDir := by cases h : f.type <;> simp_all
        simp only [if_neg hfile, exec_getState_bind]
        rw [exec_bind_some]
        constructor
        · rintro ⟨⟨⟩, t, l₁, l₂, rfl, hloop, hk⟩
          obtain ⟨b, hlog, rfl⟩ := (exec_rmdirLoop hwf (by omega) (by omega)).mp hloop
          rw [exec_removeByPath_bind] at hk
          obtain ⟨rfl, hres, rfl⟩ := hk
          rw [List.append_nil]
          exact Or.inr ⟨f, b, rfl, hdir, hlog, Option.some.inj hres, rfl⟩
        · rintro (⟨h, -⟩ | ⟨g, b, rfl, -, hlog, rfl, rfl⟩)
          · exact absurd (h f rfl) hfile
          · refine ⟨(), _, log, [], (List.append_nil _).symm,
              (exec_rmdirLoop hwf (by omega) (by omega)).mpr ⟨b, hlog, rfl⟩, ?_⟩
            rw [exec_removeByPath_bind]
            exact ⟨rfl, rfl, rfl⟩

/-- `hello_rmdir` runs to its end, whatever the outcome of its requests. -/
theorem exec_helloRmdir_completes (hwf : s.storage.Wf) {o : Option Int}
    (he : Exec receive (helloRmdir config dir) s log o s')
    (hlog : ∀ e ∈ log, e.2.Settled) : ∃ res, o = some res := by
  unfold helloRmdir at he
  rw [exec_findByPath_bind] at he
  cases hi : tgStorageFindByPath s.storage dir with
  | none =>
      rw [hi] at he
      exact ⟨_, he.2.1⟩
  | some i =>
      rw [hi] at he
      obtain ⟨f, hl, -, hf, -⟩ := tgStorageFindByPath_lookup hi
      simp only [exec_slot_load_bind hf] at he
      split at he
      · exact ⟨_, he.2.1⟩
      · rw [exec_getState_bind, exec_bind] at he
        rcases he with ⟨⟨⟩, t, l₁, l₂, rfl, -, hk⟩ | ⟨-, hcrash⟩
        · rw [exec_removeByPath_bind] at hk
          exact ⟨_, hk.2.1⟩
        · exact absurd rfl (exec_rmdirLoop_completes hwf (by omega) (by omega) hcrash hlog)

-- ============================================================================
-- The sweep over any table
-- ============================================================================

/-- The sweep of any table of valid paths leaves one. -/
theorem rmdirSweep_wf (dir : List UInt8) {st : TgStorage} (hwf : st.Wf) (rounds start : Nat) :
    (rmdirSweep dir rounds start st).2.Wf := by
  induction rounds generalizing start st with
  | zero => exact hwf
  | succ rounds ih =>
      rw [rmdirSweep]
      cases nextIn (inDir dir) st.live start with
      | none => exact hwf
      | some i => exact ih (hwf.without _) (i + 1)

/-- The sweep moves entries around and takes some out. -/
theorem rmdirSweep_perm (dir : List UInt8) {st : TgStorage} (hwf : st.Wf) (rounds start : Nat) :
    st.live.Perm ((rmdirSweep dir rounds start st).1.map Prod.snd ++
      (rmdirSweep dir rounds start st).2.live) := by
  induction rounds generalizing start st with
  | zero => exact List.Perm.refl _
  | succ rounds ih =>
      rw [rmdirSweep]
      cases hnext : nextIn (inDir dir) st.live start with
      | none => exact List.Perm.refl _
      | some i =>
          obtain ⟨-, ⟨f, hf, -⟩, -⟩ := nextIn_some hnext
          have hget : st.live.getD i TgFile.zero = f := by
            rw [List.getD_eq_getElem?_getD, hf]
            rfl
          obtain ⟨g, hg⟩ := lookup_isSome_of_mem (List.mem_of_getElem? hf)
          obtain ⟨hrm, -⟩ := removeByPath_of_lookup hwf.valid hg
          simp only [hget, hrm, List.map_cons, List.cons_append]
          exact (without_perm hwf.valid hg).trans ((ih (hwf.without _) (i + 1)).cons g)

/-- Each visited entry is filed under `dir`, and what is taken out has its path. -/
theorem rmdirSweep_visited {st : TgStorage} (hwf : st.Wf) (rounds start : Nat) :
    ∀ e ∈ (rmdirSweep dir rounds start st).1,
      inDir dir e.1 = true ∧ e.2.pathStr = e.1.pathStr ∧ e.1 ∈ st.live := by
  induction rounds generalizing start st with
  | zero =>
      intro e he
      simp [rmdirSweep] at he
  | succ rounds ih =>
      rw [rmdirSweep]
      cases hnext : nextIn (inDir dir) st.live start with
      | none =>
          intro e he
          simp at he
      | some i =>
          obtain ⟨-, ⟨f, hf, hin⟩, -⟩ := nextIn_some hnext
          have hget : st.live.getD i TgFile.zero = f := by
            rw [List.getD_eq_getElem?_getD, hf]
            rfl
          have hmem := List.mem_of_getElem? hf
          obtain ⟨g, hg⟩ := lookup_isSome_of_mem hmem
          obtain ⟨hrm, -⟩ := removeByPath_of_lookup hwf.valid hg
          simp only [hget, hrm]
          intro e he
          rcases List.mem_cons.mp he with rfl | he
          · exact ⟨hin, (lookup_some hg).2, hmem⟩
          · obtain ⟨h1, h2, h3⟩ := ih (hwf.without _) (i + 1) e he
            exact ⟨h1, h2, mem_without hwf.valid h3⟩

/-- Which entries the loop visits: a removal by path may take another entry out than the
    one visited, but never one that the search has still to come to. -/
theorem mem_rmdirSweep_visited {st : TgStorage} (hwf : st.Wf) {rounds start : Nat}
    (hr : st.size < start + rounds) {f : TgFile} :
    f ∈ (rmdirSweep dir rounds start st).1.map Prod.fst ↔
      f ∈ reached (inDir dir) (st.live.drop start) := by
  induction rounds generalizing start st with
  | zero =>
      have hlen := hwf.valid.length_live
      rw [List.drop_eq_nil_of_le (by omega)]
      exact iff_of_false (fun h => nomatch h) (fun h => nomatch h)
  | succ rounds ih =>
      rw [rmdirSweep]
      cases hnext : nextIn (inDir dir) st.live start with
      | none => exact iff_of_false (fun h => nomatch h) (reached_of_nextIn_none hnext)
      | some i =>
          obtain ⟨v, hv, hsi, hi, hsize⟩ := exists_of_nextIn hwf hnext
          have hget : st.live.getD i TgFile.zero = v := by
            rw [List.getD_eq_getElem?_getD, hv]
            rfl
          obtain ⟨g, hg⟩ := lookup_isSome_of_mem (List.mem_of_getElem? hv)
          obtain ⟨-, -, j, hj, hjlive, hlive⟩ := removeByPath_of_lookup hwf.valid hg
          have hil := hwf.valid.length_live
          -- the first entry with the path stands at the slot visited or before it
          have hji : j ≤ i := by
            obtain ⟨hjl, -, hmin⟩ := List.findIdx?_eq_some_iff_getElem.mp hj
            by_contra hlt
            obtain ⟨hiv, hve⟩ := List.getElem?_eq_some_iff.mp hv
            have := hmin i (by omega)
            rw [hve] at this
            simp at this
          have hdrop : (st.without v.pathStr).live.drop (i + 1)
              = (st.live.drop (i + 1)).dropLast := by
            rw [hlive]
            exact drop_swapRemove hji (by omega)
          simp only [hget, List.map_cons, List.mem_cons]
          rw [ih (hwf.without v.pathStr) (by omega), hdrop, mem_reached_of_nextIn hnext, hv,
            Option.some.injEq, eq_comm]

/-- The entry `hello_rmdir` takes out last. -/
def rmdirLast (dir : List UInt8) (st : TgStorage) : TgFile :=
  (tgStorageRemoveByPath (rmdirSweep dir (st.size + 1) 0 st).2 dir).1

/-- `hello_rmdir` takes out one entry for each visited one, and one more under the
    path of the directory itself. -/
theorem rmdirTable_perm {st : TgStorage} (hwf : st.Wf) {d : TgFile} (hd : st.lookup dir = some d) :
    st.live.Perm
        ((rmdirVisited dir st).map Prod.snd ++ rmdirLast dir st :: (rmdirTable dir st).live) ∧
      (rmdirLast dir st).pathStr = dir := by
  obtain ⟨hmem, hpath⟩ := lookup_some hd
  have hperm := rmdirSweep_perm dir hwf (st.size + 1) 0
  have hwf' := rmdirSweep_wf dir hwf (st.size + 1) 0
  -- the sweep only takes out entries with other paths
  have hleft : d ∈ (rmdirSweep dir (st.size + 1) 0 st).2.live := by
    rcases List.mem_append.mp (hperm.subset hmem) with h | h
    · obtain ⟨e, he, hed⟩ := List.mem_map.mp h
      obtain ⟨hin, hpe, -⟩ := rmdirSweep_visited hwf _ _ e he
      rw [hed, hpath] at hpe
      exact absurd hpe.symm (inDir_iff.mp hin).1
    · exact h
  obtain ⟨g, hg⟩ := lookup_isSome_of_mem hleft
  rw [hpath] at hg
  obtain ⟨hrm, -⟩ := removeByPath_of_lookup hwf'.valid hg
  have hlast : rmdirLast dir st = g := hrm
  rw [hlast]
  exact ⟨hperm.trans ((without_perm hwf'.valid hg).append_left _), (lookup_some hg).2⟩

theorem mem_rmdirTable {st : TgStorage} (hwf : st.Wf) {f : TgFile}
    (h : f ∈ (rmdirTable dir st).live) : f ∈ st.live :=
  (rmdirSweep_perm dir hwf _ _).symm.subset
    (List.mem_append_right _ (mem_without (rmdirSweep_wf dir hwf _ _).valid h))

-- ============================================================================
-- The sweep under distinct paths
-- ============================================================================

/-- Under distinct paths the entry taken out is the one visited. -/
theorem without_of_getElem? {st : TgStorage} (hv : st.Valid)
    (hd : Distinct TgFile.pathStr st.live) {i : Nat} {f : TgFile} (h : st.live[i]? = some f) :
    (tgStorageRemoveByPath st f.pathStr).1 = f ∧
      (st.without f.pathStr).live = swapRemove st.live i := by
  have hl := lookup_of_mem hd (List.mem_of_getElem? h)
  obtain ⟨h1, -, j, hj, -, hlive⟩ := removeByPath_of_lookup hv hl
  rw [tgStorageFindByPath_of_getElem? hd h] at hj
  cases hj
  exact ⟨h1, hlive⟩

/-- Under distinct paths the loop is the scan of the live entries. -/
theorem rmdirSweep_eq (dir : List UInt8) {st : TgStorage} (hwf : st.Wf)
    (hd : Distinct TgFile.pathStr st.live)
    (rounds start : Nat) :
    (rmdirSweep dir rounds start st).1 =
        (sweep (inDir dir) rounds start st.live).1.map (fun f => (f, f)) ∧
      (rmdirSweep dir rounds start st).2.live = (sweep (inDir dir) rounds start st.live).2 ∧
      (rmdirSweep dir rounds start st).2.Wf := by
  induction rounds generalizing start st with
  | zero => exact ⟨rfl, rfl, hwf⟩
  | succ rounds ih =>
      rw [rmdirSweep, sweep]
      cases hnext : nextIn (inDir dir) st.live start with
      | none => exact ⟨rfl, rfl, hwf⟩
      | some i =>
          obtain ⟨-, ⟨f, hf, -⟩, -⟩ := nextIn_some hnext
          obtain ⟨hrm, hlive⟩ := without_of_getElem? hwf.valid hd hf
          have hget : st.live.getD i TgFile.zero = f := by
            rw [List.getD_eq_getElem?_getD, hf]
            rfl
          have hd' : Distinct TgFile.pathStr (st.without f.pathStr).live := by
            rw [hlive]
            exact hd.swapRemove hf
          obtain ⟨ih1, ih2, ih3⟩ := ih (hwf.without f.pathStr) hd' (i + 1)
          rw [hlive] at ih1 ih2
          simp only [hget, hrm, ih1, ih2, hf, Option.toList_some, List.cons_append,
            List.nil_append, List.map_cons]
          exact ⟨trivial, trivial, ih3⟩

theorem rmdirTable_wf {st : TgStorage} (hwf : st.Wf) : (rmdirTable dir st).Wf :=
  (rmdirSweep_wf dir hwf _ _).without dir

section DistinctPaths

variable {st : TgStorage} {dir p : List UInt8}

/-- Under distinct paths, removing a path leaves exactly the others. -/
theorem mem_without_iff {f : TgFile} (hv : st.Valid) (hd : Distinct TgFile.pathStr st.live) :
    f ∈ (st.without p).live ↔ f ∈ st.live ∧ f.pathStr ≠ p := by
  cases hl : st.lookup p with
  | none =>
      rw [without_of_lookup_none hl]
      exact ⟨fun h => ⟨h, lookup_none.mp hl f h⟩, fun h => h.1⟩
  | some g =>
      obtain ⟨-, -, i, -, hi, hlive⟩ := removeByPath_of_lookup hv hl
      rw [hlive, mem_swapRemove_iff hd hi, (lookup_some hl).2]

theorem distinct_without (hv : st.Valid) (hd : Distinct TgFile.pathStr st.live) :
    Distinct TgFile.pathStr (st.without p).live := by
  cases hl : st.lookup p with
  | none => rwa [without_of_lookup_none hl]
  | some g =>
      obtain ⟨-, -, i, -, hi, hlive⟩ := removeByPath_of_lookup hv hl
      rw [hlive]
      exact hd.swapRemove hi

/-- What the sweep leaves, under distinct paths, is some of the entries. -/
theorem sweep_rest (dir : List UInt8) (hwf : st.Wf) (hd : Distinct TgFile.pathStr st.live)
    (rounds start : Nat) :
    Distinct TgFile.pathStr (rmdirSweep dir rounds start st).2.live ∧
      ∀ f ∈ (rmdirSweep dir rounds start st).2.live, f ∈ st.live := by
  obtain ⟨-, hlive, -⟩ := rmdirSweep_eq dir hwf hd rounds start
  have hperm := sweep_perm (c := inDir dir) rounds start st.live
  rw [hlive]
  refine ⟨?_, fun f hf => hperm.symm.subset (List.mem_append_right _ hf)⟩
  have hall := hd.perm hperm
  rw [Distinct, List.map_append] at hall
  exact hall.of_append_right

theorem distinct_rmdirTable (hwf : st.Wf) (hd : Distinct TgFile.pathStr st.live) :
    Distinct TgFile.pathStr (rmdirTable dir st).live :=
  distinct_without (rmdirSweep_wf dir hwf _ _).valid (sweep_rest dir hwf hd _ _).1

theorem mem_rmdirTable_ne {f : TgFile} (hwf : st.Wf) (hd : Distinct TgFile.pathStr st.live)
    (h : f ∈ (rmdirTable dir st).live) : f ∈ st.live ∧ f.pathStr ≠ dir := by
  obtain ⟨hd', hsub⟩ := sweep_rest dir hwf hd (st.size + 1) 0
  obtain ⟨hmem, hne⟩ := (mem_without_iff (rmdirSweep_wf dir hwf _ _).valid hd').mp h
  exact ⟨hsub f hmem, hne⟩

theorem not_mem_of_lookup_none (h : st.lookup p = none) {f : TgFile} (hf : f.pathStr = p) :
    ∀ g ∈ st.live, g.pathStr ≠ f.pathStr := by
  rw [hf]
  exact lookup_none.mp h

/-- Entries in other places survive the sweep. -/
theorem mem_rmdirTable_of_not_inDir {f d : TgFile} (hwf : st.Wf) (hd : st.lookup dir = some d)
    (hf : f ∈ st.live) (hin : inDir dir f = false) (hne : f.pathStr ≠ dir) :
    f ∈ (rmdirTable dir st).live := by
  obtain ⟨hperm, hlast⟩ := rmdirTable_perm hwf hd
  rcases List.mem_append.mp (hperm.subset hf) with h | h
  · obtain ⟨e, he, rfl⟩ := List.mem_map.mp h
    obtain ⟨hvis, hpath, -⟩ := rmdirSweep_visited hwf _ _ e he
    rw [inDir_iff, ← hpath, ← inDir_iff, hin] at hvis
    cases hvis
  · rcases List.mem_cons.mp h with rfl | h
    · exact absurd hlast hne
    · exact h

end DistinctPaths

-- ============================================================================
-- readdir
-- ============================================================================

/-- The names of the entries filed under `dir`, in the order of the table. -/
def listing (dir : List UInt8) (st : TgStorage) : List (List UInt8) :=
  (st.live.filter (inDir dir)).map fun f => baseOf f.pathStr

/-- The loop goes through the matching entries from `start` on. -/
theorem readdirLoop_eq {st : TgStorage} (hwf : st.Wf) {rounds start : Nat}
    (hr : st.size < start + rounds) (hpos : 0 < rounds) :
    readdirLoop st dir rounds start =
      some (((st.live.drop start).filter (inDir dir)).map fun f => baseOf f.pathStr) := by
  induction rounds generalizing start with
  | zero => exact absurd hpos (Nat.lt_irrefl 0)
  | succ rounds ih =>
      rw [readdirLoop, tgStorageFindFilesByDir_eq hwf]
      cases hnext : nextIn (inDir dir) st.live start with
      | none =>
          have hnil : (st.live.drop start).filter (inDir dir) = [] := by
            rw [List.filter_eq_nil_iff]
            intro f hf
            obtain ⟨j, hj⟩ := List.mem_iff_getElem?.mp hf
            rw [List.getElem?_drop] at hj
            simp [nextIn_none hnext _ (Nat.le_add_right start j) f hj]
          simp [hnil]
      | some i =>
          obtain ⟨f, pre, hf, hin, hpre, -, hdrop⟩ := nextIn_split hnext
          have hsi := (nextIn_some hnext).1
          obtain ⟨hi, hfile⟩ := TgStorage.getElem?_live hf
          have hnamed := hwf.named f (List.mem_of_getElem? hf)
          obtain ⟨out, hout, hbase⟩ :=
            tgFileExtractFilename_spec hnamed.hasPath hnamed.valid uninit_length
          have hih := @ih (i + 1) (by omega) (by omega)
          have hsplit : (st.live.drop start).filter (inDir dir)
              = f :: (st.live.drop (i + 1)).filter (inDir dir) := by
            have hnil : pre.filter (inDir dir) = [] :=
              List.filter_eq_nil_iff.mpr fun g hg => by simp [hpre g hg]
            rw [hdrop, List.filter_append, hnil, List.filter_cons_of_pos hin]
            rfl
          simp only [Option.bind_eq_bind, Option.bind_some, hfile, hout, hbase, hih, hsplit,
            List.map_cons]

/-- `hello_readdir` completes and changes nothing. -/
theorem exec_helloReaddir (hwf : s.storage.Wf) {p : List UInt8}
    {o : Option (Int × List (List UInt8))} :
    Exec receive (helloReaddir p) s log o s' ↔
      log = [] ∧ s' = s ∧
        o = some (if ∃ f, s.storage.lookup p = some f ∧ f.type = .tgDir then
            (0, text "." :: text ".." :: listing p s.storage)
          else (-enoent, [])) := by
  unfold helloReaddir
  rw [exec_findByPath_bind]
  cases hi : tgStorageFindByPath s.storage p with
  | none =>
      simp only [exec_pure, lookup_eq_none hi]
      simp only [reduceCtorEq, false_and, exists_false, if_false]
      tauto
  | some i =>
      obtain ⟨f, hl, -, hf, -⟩ := tgStorageFindByPath_lookup hi
      simp only [exec_slot_load_bind hf, hl, Option.some.injEq, exists_eq_left']
      by_cases hd : f.type = .tgDir
      · have hloop : readdirLoop s.storage p (s.storage.size + 1) 0
            = some ((s.storage.live.filter (inDir p)).map fun f => baseOf f.pathStr) :=
          readdirLoop_eq hwf (by omega) (by omega)
        simp only [ne_eq, hd, not_true_eq_false, if_false, if_true, exec_getState_bind, hloop,
          exec_liftOption_some_bind, exec_pure, listing]
        tauto
      · simp only [ne_eq, hd, not_false_eq_true, if_true, if_false, exec_pure]
        tauto

end TgFuse

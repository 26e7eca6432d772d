/-
  TgFuse.Spec.Interleaving

  Handlers on several threads, over one table and one `json_response_buf`.

  * `Quiet` — a step that leaves alone what the other threads rely on: the answer one
    of them has not read yet, and the slot that one of them points to.
  * `Interleaved` — the invariant.  Its ghost state is the order in which the calls
    were started, and for each of them its exchanges and its change of the channel.
  * `handlers_serialisable` — after quiet steps only, the calls could have been made
    one after the other, in the order in which they were started.
-/

import TgFuse.Spec.Progress

namespace TgFuse

open CString Interact Interact.Prog KeyedList Lts

/-- A call, with the memory that its allocations will find. -/
structure Job where
  call : Call
  heap : Heap

/-- The path it is about. -/
def Job.path (job : Job) : List UInt8 := job.call.path

/-- A thread that has not begun with it. -/
def Job.thread (config : TgConfig) (job : Job) : CallThread :=
  .idle (job.call.handler job.heap config)

/-- The program on several threads, and the channel. -/
abbrev Handlers := System Statics Channel Request Response Reply

/-- Thread `i` leaves the answers alone that other threads have not read yet. -/
def LeavesAnswers (s : Statics) (ts : List CallThread) (i : Nat) (s' : Statics) : Prop :=
  ∀ j ∈ List.range ts.length, j ≠ i → ∀ t ∈ ts[j]?,
    Unread t → s'.jsonResponseBuf = s.jsonResponseBuf

/-- Thread `i` leaves the entries where they are that other threads point to. -/
def LeavesPlaces (jobs : List Job) (s : Statics) (ts : List CallThread) (i : Nat) (s' : Statics) :
    Prop :=
  ∀ j ∈ List.range ts.length, j ≠ i → ∀ t ∈ ts[j]?,
    t.Underway → ∀ job ∈ jobs[j]?, job.call.KeepsPlace s.storage s'.storage

instance (s : Statics) (ts : List CallThread) (i : Nat) (s' : Statics) :
    Decidable (LeavesAnswers s ts i s') :=
  inferInstanceAs (Decidable (∀ j ∈ List.range ts.length, j ≠ i → ∀ t ∈ ts[j]?,
    Unread t → s'.jsonResponseBuf = s.jsonResponseBuf))

instance (jobs : List Job) (s : Statics) (ts : List CallThread) (i : Nat) (s' : Statics) :
    Decidable (LeavesPlaces jobs s ts i s') :=
  inferInstanceAs (Decidable (∀ j ∈ List.range ts.length, j ≠ i → ∀ t ∈ ts[j]?,
    t.Underway → ∀ job ∈ jobs[j]?, job.call.KeepsPlace s.storage s'.storage))

/-- Thread `i` leaves alone what the other threads rely on. -/
def Quiet (jobs : List Job) (s : Statics) (ts : List CallThread) (i : Nat) (s' : Statics) : Prop :=
  LeavesAnswers s ts i s' ∧ LeavesPlaces jobs s ts i s'

instance (jobs : List Job) (s : Statics) (ts : List CallThread) (i : Nat) (s' : Statics) :
    Decidable (Quiet jobs s ts i s') :=
  inferInstanceAs (Decidable (LeavesAnswers s ts i s' ∧ LeavesPlaces jobs s ts i s'))

-- ============================================================================
-- Histories
-- ============================================================================

/-- The calls in the order they were started, and how far they have got. -/
structure History where
  order : List Nat
  log : Nat → List (Request × Response)
  change : Nat → Option Change

namespace History

/-- What the calls have changed in the channel. -/
def changes (h : History) : List Change := h.order.filterMap h.change

/-- Call `i`, which may be new, is this far now. -/
def note (h : History) (i : Nat) (log : List (Request × Response))
    (x : Option Change) : History where
  order := if i ∈ h.order then h.order else h.order ++ [i]
  log := Function.update h.log i log
  change := Function.update h.change i x

variable {h : History} {i j : Nat} {log : List (Request × Response)} {x : Option Change}

@[simp] theorem note_log_self : (h.note i log x).log i = log := Function.update_self ..

@[simp] theorem note_change_self : (h.note i log x).change i = x := Function.update_self ..

theorem note_log_of_ne (hne : j ≠ i) : (h.note i log x).log j = h.log j :=
  Function.update_of_ne hne ..

theorem note_change_of_ne (hne : j ≠ i) : (h.note i log x).change j = h.change j :=
  Function.update_of_ne hne ..

theorem mem_note : j ∈ (h.note i log x).order ↔ j ∈ h.order ∨ j = i := by
  by_cases hi : i ∈ h.order
  · rw [note, if_pos hi]
    constructor
    · exact Or.inl
    · rintro (hj | rfl)
      · exact hj
      · exact hi
  · rw [note, if_neg hi, List.mem_append, List.mem_singleton]

theorem note_nodup (hn : h.order.Nodup) : (h.note i log x).order.Nodup := by
  by_cases hi : i ∈ h.order
  · rw [note, if_pos hi]
    exact hn
  · rw [note, if_neg hi]
    exact List.nodup_append.mpr ⟨hn, List.nodup_singleton i, by
      rintro a ha b hb rfl
      exact hi (List.mem_singleton.mp hb ▸ ha)⟩

theorem note_order (hi : i ∈ h.order) : (h.note i log x).order = h.order := if_pos hi

theorem note_order_new (hi : i ∉ h.order) : (h.note i log x).order = h.order ++ [i] := if_neg hi

/-- A call that goes on without a change of its own. -/
theorem changes_note_same (hi : i ∈ h.order) :
    (h.note i log (h.change i)).changes = h.changes := by
  rw [changes, note_order hi]
  show h.order.filterMap (Function.update h.change i (h.change i)) = _
  rw [Function.update_eq_self, changes]

/-- A call that had changed nothing so far. -/
theorem changes_note (hn : h.order.Nodup) (hnone : h.change i = none) :
    (h.note i log x).changes.Perm (x.toList ++ h.changes) := by
  have hothers : ∀ l : List Nat, i ∉ l →
      l.filterMap (Function.update h.change i x) = l.filterMap h.change := by
    intro l hl
    refine List.filterMap_congr fun j hj => Function.update_of_ne ?_ ..
    rintro rfl
    exact hl hj
  have hself : [i].filterMap (Function.update h.change i x) = x.toList := by
    cases x <;> simp
  by_cases hi : i ∈ h.order
  · have hperm := List.perm_cons_erase hi
    have hrest : i ∉ h.order.erase i := hn.not_mem_erase
    rw [changes, note_order hi]
    calc h.order.filterMap (Function.update h.change i x)
      _ |>.Perm ((i :: h.order.erase i).filterMap (Function.update h.change i x)) :=
          hperm.filterMap _
      _ = x.toList ++ (h.order.erase i).filterMap h.change := by
          rw [← List.singleton_append, List.filterMap_append, hself, hothers _ hrest]
      _ = x.toList ++ (i :: h.order.erase i).filterMap h.change := by
          rw [List.filterMap_cons_none hnone]
      _ |>.Perm (x.toList ++ h.changes) := (hperm.symm.filterMap _).append_left _
  · rw [changes, note_order_new hi]
    show ((h.order ++ [i]).filterMap (Function.update h.change i x)).Perm _
    rw [List.filterMap_append, hself, hothers _ hi]
    exact List.perm_append_comm

end History

-- ============================================================================
-- The invariant
-- ============================================================================

/-- Size and capacity after the calls, one after the other. -/
def dimsAfter (jobs : List Job) (st : TgStorage) (order : List Nat) : Option (Nat × Nat) :=
  order.foldlM (fun d i => jobs[i]?.bind fun job => job.call.dims st d) st.dims

/-- What call `i` changes in the channel is new there, and concerns its entry. -/
def OwnChange (jobs : List Job) (w : World) (i : Nat) (y : Change) : Prop :=
  y.Fresh w.channel ∧ ∃ job f, jobs[i]? = some job ∧
    w.statics.storage.lookup job.call.path = some f ∧ y.OfEntry f

/-- What the threads keep, as long as their steps are quiet. -/
structure Interleaved (config : TgConfig) (jobs : List Job) (w : World) (h : History)
    (x : Handlers) : Prop where
  wf : x.shared.storage.Wf
  paths : Distinct TgFile.pathStr x.shared.storage.live
  nodup : h.order.Nodup
  bound : ∀ i ∈ h.order, ∃ job, jobs[i]? = some job
  waiting : ∀ i ∉ h.order, x.threads[i]? = jobs[i]?.map (Job.thread config) ∧ h.change i = none
  progress : ∀ i ∈ h.order, ∀ job, jobs[i]? = some job → ∃ t, x.threads[i]? = some t ∧
    Progress job.heap config w x.shared x.outside job.call t (h.log i) (h.change i)
  untouched : ∀ p, (∀ i ∈ h.order, ∀ job, jobs[i]? = some job → job.call.path ≠ p) →
    x.shared.storage.lookup p = w.statics.storage.lookup p
  dims : dimsAfter jobs w.statics.storage h.order = some x.shared.storage.dims
  files : x.outside.Extends w.channel
  reached : ∃ sent, sent.Perm h.changes ∧ Reached w.channel sent x.outside
  own : ∀ i y, h.change i = some y → OwnChange jobs w i y
  apart : ∀ i j y z, i ≠ j → h.change i = some y → h.change j = some z → y.OtherIds z

section Invariant

variable {config : TgConfig} {jobs : List Job} {w : World} {evs : List Event} {h : History}
  {x y : Handlers} {i : Nat} {job : Job} {t t' : CallThread} {log : List (Request × Response)}
  {c : Option Change} {d : Option (Nat × Nat)}

theorem Progress.not_idle {heap : Heap} {s : Statics} {ch : Channel} {call : Call}
    {p : Handler Reply} : ¬ Progress heap config w s ch call (.idle p) log c := by
  rintro ⟨⟩

theorem Interleaved.keeps (hx : Interleaved config jobs w h x) : w.channel.Keeps x.outside := by
  obtain ⟨sent, -, hr⟩ := hx.reached
  exact hr.old

/-- A change that is new now differs from all that were made before. -/
theorem Interleaved.otherIds (hx : Interleaved config jobs w h x) {y z : Change}
    (hy : y.Fresh x.outside) (hz : z ∈ h.changes) : y.OtherIds z := by
  obtain ⟨sent, hperm, hr⟩ := hx.reached
  exact (hr.fresh_iff.mp hy).2 z (hperm.symm.subset hz)

theorem Interleaved.mem_changes (hx : Interleaved config jobs w h x) {z : Change}
    (hz : h.change i = some z) : z ∈ h.changes := by
  refine List.mem_filterMap.mpr ⟨i, ?_, hz⟩
  by_contra hi
  rw [(hx.waiting i hi).2] at hz
  cases hz

/-- Different calls are about different paths. -/
theorem index_of_path (hpaths : Distinct Job.path jobs) {j : Nat} {job' : Job}
    (hi : jobs[i]? = some job) (hj : jobs[j]? = some job')
    (heq : job.path = job'.path) : i = j := by
  obtain rfl := hpaths.eq_of_key (List.mem_of_getElem? hi) (List.mem_of_getElem? hj) heq
  exact hpaths.index_eq hi hj

/-- Thread `i` has landed; everyone else is where they were. -/
theorem Interleaved.note (hx : Interleaved config jobs w h x) (hpaths : Distinct Job.path jobs)
    (hj : jobs[i]? = some job) (ht : x.threads[i]? = some t)
    (hthreads : y.threads = x.threads.set i t')
    (hquiet : Quiet jobs x.shared x.threads i y.shared) (hext : y.outside.Extends x.outside)
    (hl : Landed job.heap config w x.shared y.outside job.call log c d y.shared t')
    (hdims : dimsAfter jobs w.statics.storage (h.note i log c).order = d)
    (hreached : ∃ sent, sent.Perm (h.note i log c).changes ∧ Reached w.channel sent y.outside)
    (hown : ∀ z, c = some z → OwnChange jobs w i z ∧
      ∀ j z', j ≠ i → h.change j = some z' → z.OtherIds z') :
    Interleaved config jobs w (h.note i log c) y where
  wf := hl.wf
  paths := hl.paths
  nodup := History.note_nodup hx.nodup
  bound := fun j hmem => (History.mem_note.mp hmem).elim (hx.bound j) fun e => e ▸ ⟨job, hj⟩
  waiting := fun j hmem => by
    obtain ⟨hold, hne⟩ := not_or.mp (mt History.mem_note.mpr hmem)
    obtain ⟨hwait, hnone⟩ := hx.waiting j hold
    refine ⟨?_, (History.note_change_of_ne hne).trans hnone⟩
    rw [hthreads, List.getElem?_set_ne (Ne.symm hne)]
    exact hwait
  progress := fun j hmem job' hj' => by
    by_cases hji : j = i
    · subst hji
      obtain rfl : job = job' := Option.some.inj (hj.symm.trans hj')
      refine ⟨t', ?_, ?_⟩
      · rw [hthreads, List.getElem?_set_self (List.getElem?_eq_some_iff.mp ht).1]
      · rw [History.note_log_self, History.note_change_self]
        exact hl.progress
    · have hold := (History.mem_note.mp hmem).resolve_right hji
      obtain ⟨u, hu, hprog⟩ := hx.progress j hold job' hj'
      have hne : job'.call.path ≠ job.call.path := fun heq => hji (index_of_path hpaths hj' hj heq)
      have hlt := List.mem_range.mpr (List.getElem?_eq_some_iff.mp hu).1
      refine ⟨u, ?_, ?_⟩
      · rw [hthreads, List.getElem?_set_ne (Ne.symm hji)]
        exact hu
      · rw [History.note_log_of_ne hji, History.note_change_of_ne hji]
        exact hprog.frame (hl.others _ hne) (fun hun => hquiet.2 j hlt hji u hu hun job' hj')
          (hquiet.1 j hlt hji u hu) hext
  untouched := fun p hp => by
    have hold := hx.untouched p fun j hmem => hp j (History.mem_note.mpr (Or.inl hmem))
    exact (hl.others p (hp i (History.mem_note.mpr (Or.inr rfl)) job hj).symm).trans hold
  dims := hdims.trans hl.dims
  files := fun path fid hf => hext path fid (hx.files path fid hf)
  reached := hreached
  own := fun j z hz => by
    by_cases hji : j = i
    · subst hji
      exact (hown z (History.note_change_self.symm.trans hz)).1
    · exact hx.own j z ((History.note_change_of_ne hji).symm.trans hz)
  apart := fun j k z z' hjk hz hz' => by
    by_cases hji : j = i
    · subst hji
      exact (hown z (History.note_change_self.symm.trans hz)).2 k z' hjk.symm
        ((History.note_change_of_ne hjk.symm).symm.trans hz')
    · have hold := (History.note_change_of_ne hji).symm.trans hz
      by_cases hki : k = i
      · subst hki
        exact ((hown z' (History.note_change_self.symm.trans hz')).2 j z hji hold).symm
      · exact hx.apart j k z z' hjk hold ((History.note_change_of_ne hki).symm.trans hz')

/-- A thread has not begun, or is on its way. -/
theorem Interleaved.status (hx : Interleaved config jobs w h x) (ht : x.threads[i]? = some t) :
    ∃ job, jobs[i]? = some job ∧
      ((i ∉ h.order ∧ t = job.thread config ∧ h.change i = none) ∨
       (i ∈ h.order ∧
          Progress job.heap config w x.shared x.outside job.call t (h.log i) (h.change i))) := by
  by_cases hi : i ∈ h.order
  · obtain ⟨job, hj⟩ := hx.bound i hi
    obtain ⟨u, hu, hprog⟩ := hx.progress i hi job hj
    obtain rfl : t = u := Option.some.inj (ht.symm.trans hu)
    exact ⟨job, hj, Or.inr ⟨hi, hprog⟩⟩
  · obtain ⟨hwait, hnone⟩ := hx.waiting i hi
    obtain ⟨job, hj, heq⟩ := Option.map_eq_some_iff.mp (hwait.symm.trans ht)
    exact ⟨job, hj, Or.inl ⟨hi, heq.symm, hnone⟩⟩

theorem Interleaved.started (hx : Interleaved config jobs w h x) (ht : x.threads[i]? = some t)
    (hidle : ∀ p, t ≠ .idle p) : ∃ job, jobs[i]? = some job ∧ i ∈ h.order ∧
      Progress job.heap config w x.shared x.outside job.call t (h.log i) (h.change i) := by
  obtain ⟨job, hj, ⟨-, heq, -⟩ | ⟨hi, hprog⟩⟩ := hx.status ht
  · exact absurd heq (hidle _)
  · exact ⟨job, hj, hi, hprog⟩

/-- Thread `i` begins. -/
theorem Interleaved.begin (hx : Interleaved config jobs w h x) (hpaths : Distinct Job.path jobs)
    (hj : jobs[i]? = some job) (hi : i ∉ h.order) (hnone : h.change i = none)
    (ht : x.threads[i]? = some t) (hthreads : y.threads = x.threads.set i t')
    (hquiet : Quiet jobs x.shared x.threads i y.shared) (hout : y.outside = x.outside)
    (hl : Landed job.heap config w x.shared x.outside job.call [] none
      (job.call.dims w.statics.storage x.shared.storage.dims) y.shared t') :
    Interleaved config jobs w (h.note i [] none) y := by
  rw [← hout] at hl
  refine hx.note hpaths hj ht hthreads hquiet (by rw [hout]; exact fun _ _ => id) hl ?_ ?_ ?_
  · rw [History.note_order_new hi, dimsAfter, List.foldlM_append]
    show (dimsAfter jobs w.statics.storage h.order).bind _ = _
    rw [hx.dims]
    simp [hj]
  · obtain ⟨sent, hperm, hr⟩ := hx.reached
    exact ⟨sent, hperm.trans (History.changes_note (x := none) hx.nodup hnone).symm, hout ▸ hr⟩
  · rintro _ ⟨⟩

/-- Thread `i` goes on by itself. -/
theorem Interleaved.goOn (hx : Interleaved config jobs w h x) (hpaths : Distinct Job.path jobs)
    (hj : jobs[i]? = some job) (hi : i ∈ h.order)
    (ht : x.threads[i]? = some t) (hthreads : y.threads = x.threads.set i t')
    (hquiet : Quiet jobs x.shared x.threads i y.shared) (hout : y.outside = x.outside)
    (hl : Landed job.heap config w x.shared x.outside job.call (h.log i) (h.change i)
      (some x.shared.storage.dims) y.shared t') :
    Interleaved config jobs w (h.note i (h.log i) (h.change i)) y := by
  rw [← hout] at hl
  refine hx.note hpaths hj ht hthreads hquiet (by rw [hout]; exact fun _ _ => id) hl ?_ ?_ ?_
  · rw [History.note_order hi, hx.dims]
  · obtain ⟨sent, hperm, hr⟩ := hx.reached
    exact ⟨sent, (History.changes_note_same hi).symm ▸ hperm, hout ▸ hr⟩
  · intro z hz
    exact ⟨hx.own i z hz, fun j z' hne hz' => hx.apart i j z z' hne.symm hz hz'⟩

/-- The request of thread `i` is served. -/
theorem Interleaved.sends (hx : Interleaved config jobs w h x) (hpaths : Distinct Job.path jobs)
    (hj : jobs[i]? = some job) (hi : i ∈ h.order) (hnone : h.change i = none)
    (ht : x.threads[i]? = some t) (hthreads : y.threads = x.threads.set i t')
    (hshared : y.shared = x.shared) (hext : y.outside.Extends x.outside)
    (hsent : Sent w job.call x.outside y.outside c)
    (hprog : Progress job.heap config w x.shared y.outside job.call t' log c) :
    Interleaved config jobs w (h.note i log c) y := by
  have hquiet : Quiet jobs x.shared x.threads i y.shared := by
    rw [hshared]
    exact ⟨fun _ _ _ _ _ _ => rfl, fun _ _ _ _ _ _ _ _ => Call.KeepsPlace.refl _ _⟩
  have hl : Landed job.heap config w x.shared y.outside job.call log c
      (some x.shared.storage.dims) y.shared t' := by
    rw [hshared]
    exact ⟨hx.wf, hx.paths, fun _ _ => rfl, rfl, hprog⟩
  refine hx.note hpaths hj ht hthreads hquiet hext hl ?_ ?_ ?_
  · rw [History.note_order hi, hx.dims]
  · obtain ⟨sent, hperm, hr⟩ := hx.reached
    have hchanges : (h.note i log c).changes.Perm (c.toList ++ h.changes) :=
      History.changes_note hx.nodup hnone
    cases c with
    | none => exact ⟨sent, hperm.trans hchanges.symm, hr.same (hsent.same rfl)⟩
    | some z =>
        obtain ⟨hfresh, hout, -⟩ := hsent.change z rfl
        refine ⟨sent ++ [z], ?_, hout ▸ hr.snoc hfresh⟩
        calc sent ++ [z]
          _ |>.Perm (z :: sent) := List.perm_append_singleton z sent
          _ |>.Perm (z :: h.changes) := hperm.cons z
          _ |>.Perm (h.note i log (some z)).changes := hchanges.symm
  · intro z hz
    obtain ⟨hfresh, -, f, hf, hof⟩ := hsent.change z hz
    obtain ⟨sent, -, hr⟩ := hx.reached
    exact ⟨⟨(hr.fresh_iff.mp hfresh).1, job, f, hj, hf, hof⟩,
      fun j z' _ hz' => hx.otherIds hfresh (hx.mem_changes hz')⟩

/-- A thread of `x` has crashed. -/
def Crashed (x : Handlers) : Prop := ∃ i : Nat, x.threads[i]? = some (.ended none)

/-- The calls are as they may be made of the files in `w`, and about different paths. -/
structure Concurrently (jobs : List Job) (w : World) : Prop where
  calls : ∀ job ∈ jobs, FileCall w.statics.storage job.call ∧ job.call.Concurrent
  paths : Distinct Job.path jobs

/-- Quiet steps keep the invariant, unless a handler crashes; the first step of a call
    enters it in the order. -/
theorem Interleaved.step (hx : Interleaved config jobs w h x) (hinv : RunInvariant evs w)
    (hjobs : Concurrently jobs w) (hstep : System.Step receive Serving x i y)
    (hquiet : Quiet jobs x.shared x.threads i y.shared) :
    Crashed y ∨ ∃ log c, Interleaved config jobs w (h.note i log c) y := by
  obtain ⟨t, t', ht, hthreads, hstep⟩ := hstep
  have hself : y.threads[i]? = some t' := by
    rw [hthreads, List.getElem?_set_self (List.getElem?_eq_some_iff.mp ht).1]
  obtain ⟨s', ch', ts'⟩ := y
  cases hstep with
  | start =>
      obtain ⟨job, hj, ⟨hi, heq, hnone⟩ | ⟨-, hprog⟩⟩ := hx.status ht
      · cases heq
        obtain ⟨hcall, hconc⟩ := hjobs.calls job (List.mem_of_getElem? hj)
        have hentry := hx.untouched job.call.path fun j hmem job' hj' hsame =>
          hi (index_of_path hjobs.paths hj' hj hsame ▸ hmem)
        have hlands : Lands job.heap config w x.shared x.outside job.call [] none _ _ :=
          start_lands hx.wf hx.paths hcall hconc hentry
        rcases hlands with hcrash | hl
        · exact Or.inl ⟨i, hself.trans (congrArg some hcrash)⟩
        · exact Or.inr ⟨_, _, hx.begin hjobs.paths hj hi hnone ht hthreads hquiet rfl hl⟩
      · exact absurd hprog Progress.not_idle
  | send hserve =>
      obtain ⟨job, hj, hi, hprog⟩ := hx.started ht (by rintro _ ⟨⟩)
      obtain ⟨hnone, c, hprog', hext, hsent⟩ := hprog.sends hinv hx.keeps hserve
      exact Or.inr ⟨_, _, hx.sends hjobs.paths hj hi hnone ht hthreads rfl hext hsent hprog'⟩
  | deliver hrecv =>
      obtain ⟨job, hj, hi, hprog⟩ := hx.started ht (by rintro _ ⟨⟩)
      have hl := delivered_lands hprog hx.wf hx.paths hrecv
      exact Or.inr ⟨_, _, hx.goOn hjobs.paths hj hi ht hthreads hquiet rfl hl⟩
  | crash _ => exact Or.inl ⟨i, hself⟩
  | resume =>
      obtain ⟨job, hj, hi, hprog⟩ := hx.started ht (by rintro _ ⟨⟩)
      have hp := (hjobs.calls job (List.mem_of_getElem? hj)).1.1
      rcases resume_lands hinv hx.wf hx.paths hp hprog with hcrash | hl
      · exact Or.inl ⟨i, hself.trans (congrArg some hcrash)⟩
      · exact Or.inr ⟨_, _, hx.goOn hjobs.paths hj hi ht hthreads hquiet rfl hl⟩

/-- A handler that has crashed stays so. -/
theorem Crashed.step (hx : Crashed x) (hstep : System.Step receive Serving x i y) : Crashed y := by
  obtain ⟨j, hj⟩ := hx
  obtain ⟨t, t', ht, hthreads, hstep⟩ := hstep
  have hne : i ≠ j := by
    rintro rfl
    obtain rfl : t = .ended none := Option.some.inj (ht.symm.trans hj)
    cases hstep
  refine ⟨j, ?_⟩
  rw [hthreads, List.getElem?_set_ne hne]
  exact hj

/-- The calls, none of them begun. -/
def Handlers.idle (config : TgConfig) (jobs : List Job) (w : World) : Handlers :=
  ⟨w.statics, w.channel, jobs.map (Job.thread config)⟩

/-- A quiet step of thread `i`. -/
def QuietStep (jobs : List Job) (x : Handlers) (i : Nat) (y : Handlers) : Prop :=
  System.Step receive Serving x i y ∧ Quiet jobs x.shared x.threads i y.shared

theorem interleaved_idle (hinv : RunInvariant evs w) :
    Interleaved config jobs w ⟨[], fun _ => [], fun _ => none⟩ (Handlers.idle config jobs w) where
  wf := hinv.wf
  paths := hinv.accounted.paths
  nodup := List.nodup_nil
  bound := fun i hi => absurd hi List.not_mem_nil
  waiting := fun i _ => ⟨List.getElem?_map, rfl⟩
  progress := fun i hi => absurd hi List.not_mem_nil
  untouched := fun _ _ => rfl
  dims := rfl
  files := fun _ _ => id
  reached := ⟨[], List.Perm.refl _, Reached.nil _⟩
  own := by rintro _ _ ⟨⟩
  apart := by rintro _ _ _ _ _ ⟨⟩

/-- The order of the first steps. -/
theorem eraseDups_snoc (is : List Nat) (i : Nat) :
    (is ++ [i]).eraseDups = if i ∈ is.eraseDups then is.eraseDups else is.eraseDups ++ [i] := by
  rw [List.eraseDups_append]
  by_cases hi : i ∈ is <;> simp [List.removeAll, List.mem_eraseDups, List.eraseDups_cons, hi]

/-- However quiet steps interleave, the invariant holds of the calls in the order of their
    first steps, or a handler has crashed. -/
theorem interleaved_run {is : List Nat} (hinv : RunInvariant evs w) (hjobs : Concurrently jobs w)
    (hrun : Run (QuietStep jobs) (Handlers.idle config jobs w) is x) :
    Crashed x ∨ ∃ h, h.order = is.eraseDups ∧ Interleaved config jobs w h x := by
  refine hrun.invariant
    (P := fun is x => Crashed x ∨ ∃ h, h.order = is.eraseDups ∧ Interleaved config jobs w h x)
    (Or.inr ⟨_, rfl, interleaved_idle hinv⟩) ?_
  intro is x i y _ hx ⟨hstep, hquiet⟩
  rcases hx with hcrash | ⟨h, horder, hx⟩
  · exact Or.inl (hcrash.step hstep)
  · rcases hx.step hinv hjobs hstep hquiet with hcrash | ⟨log, c, hy⟩
    · exact Or.inl hcrash
    · refine Or.inr ⟨_, ?_, hy⟩
      rw [eraseDups_snoc, ← horder]
      rfl

end Invariant

-- ============================================================================
-- One after the other
-- ============================================================================

/-- Changes of different entries concern different messages. -/
theorem Accounted.apart {l : List TgFile} {ch : Channel} {f g : TgFile} {y z : Change}
    (h : Accounted l ch) (hf : f ∈ l) (hg : g ∈ l) (hne : f.pathStr ≠ g.pathStr)
    (hy : y.OfEntry f) (hz : z.OfEntry g) (hyf : y.Fresh ch) (hzf : z.Fresh ch)
    (hids : y.OtherIds z) : y.Apart z := by
  have hold : ∀ e ∈ l, ∀ mid, ch.FreshMessage mid → mid ≠ [] → mid ≠ e.messageIdStr := by
    rintro e he _ hfresh hne rfl
    by_cases hpos : e.fileSize > 0
    · obtain ⟨-, -, _, hm, -⟩ := h.backed e he hpos
      exact hfresh (h.known _ _ hm).1
    · exact hne (h.blank e he (by omega)).2
  have huploaded : ∀ e ∈ l, e.fileIdStr ≠ [] → e.fileSize > 0 := by
    intro e he hid
    by_contra hzero
    exact hid (h.blank e he (by omega)).1
  have hother : ∀ e ∈ l, ∀ e' ∈ l, e.fileIdStr ≠ [] → e.pathStr ≠ e'.pathStr →
      e.messageIdStr ≠ e'.messageIdStr := by
    intro e he e' he' hid hpath heq
    have hpos := huploaded e he hid
    by_cases hpos' : e'.fileSize > 0
    · exact hpath (congrArg TgFile.pathStr
        (h.ids.eq_of_key (mem_uploaded.mpr ⟨he, hpos⟩) (mem_uploaded.mpr ⟨he', hpos'⟩) heq))
    · exact (h.backed e he hpos).messageId_ne (heq.trans (h.blank e' he' (by omega)).2)
  refine ⟨?_, hids⟩
  cases y with
  | posted mid fid d =>
      have hfresh := hyf.1 mid rfl
      refine Or.inl ?_
      cases z with
      | posted mid' fid' d' => exact fun heq => hids.message mid rfl (congrArg some heq.symm)
      | edited mid' fid' d' => exact hz.1.symm ▸ hold g hg mid hfresh hy
      | removed mid' => exact (show mid' = _ from hz).symm ▸ hold g hg mid hfresh hy
  | edited mid fid d =>
      obtain ⟨rfl, hid⟩ := hy
      refine Or.inl ?_
      cases z with
      | posted mid' fid' d' => exact (hold f hf mid' (hzf.1 mid' rfl) hz).symm
      | edited mid' fid' d' => exact hz.1.symm ▸ hother f hf g hg hid hne
      | removed mid' => exact (show mid' = _ from hz).symm ▸ hother f hf g hg hid hne
  | removed mid =>
      have hmid : mid = f.messageIdStr := hy
      cases z with
      | posted mid' fid' d' =>
          exact Or.inl (hmid ▸ (hold f hf mid' (hzf.1 mid' rfl) hz).symm)
      | edited mid' fid' d' =>
          obtain ⟨rfl, hid⟩ := hz
          exact Or.inl (hmid ▸ (hother g hg f hf hid hne.symm).symm)
      | removed mid' => exact Or.inr ⟨rfl, rfl⟩

/-- The changes that the threads have made concern different messages. -/
theorem Interleaved.changes_apart {config : TgConfig} {jobs : List Job} {w : World}
    {evs : List Event} {h : History} {x : Handlers} (hx : Interleaved config jobs w h x)
    (hinv : RunInvariant evs w) (hpaths : Distinct Job.path jobs) :
    h.changes.Pairwise Change.Apart := by
  refine List.pairwise_filterMap.mpr (List.Pairwise.imp ?_ hx.nodup)
  intro i j hij y hy z hz
  obtain ⟨hyf, job, f, hj, hf, hof⟩ := hx.own i y hy
  obtain ⟨hzf, job', g, hj', hg, hog⟩ := hx.own j z hz
  have hne : f.pathStr ≠ g.pathStr := by
    rw [(lookup_some hf).2, (lookup_some hg).2]
    exact fun hsame => hij (index_of_path hpaths hj hj' hsame)
  exact hinv.accounted.apart (lookup_some hf).1 (lookup_some hg).1 hne hof hog hyf hzf
    (hx.apart i j y z hij hy hz)

/-- What a call may be made of depends on its own entry only. -/
theorem FileCall.congr {st st' : TgStorage} {call : Call} (h : FileCall st call)
    (hl : st'.lookup call.path = st.lookup call.path) : FileCall st' call := by
  obtain ⟨hp, hk, hcall⟩ := h
  cases call with
  | create p | mkdir p => exact ⟨hp, hl.trans hk, hcall⟩
  | write p buf offset =>
      obtain ⟨f, hf, htype⟩ := hk
      exact ⟨hp, ⟨f, hl.trans hf, htype⟩, hcall⟩
  | unlink p => exact ⟨hp, hk, fun f hf => hcall f (hl.symm.trans hf)⟩
  | getattr | rmdir | readdir | «open» | read | setxattr | utimens => exact ⟨hp, hk, hcall⟩

/-- Call `i` has returned what it returns in the event. -/
def Returned (jobs : List Job) (x : Handlers) (i : Nat) (ev : Event) : Prop :=
  (∃ job, jobs[i]? = some job ∧ ev.call = job.call) ∧ x.threads[i]? = some (.ended (some ev.reply))

/-- The calls could have been made one after the other in this order: they would have returned
    the same, and left the same entries and the same messages. -/
def SerialisableIn (config : TgConfig) (jobs : List Job) (w : World) (x : Handlers)
    (order : List Nat) : Prop :=
  ∃ events w', order.Perm (List.range jobs.length) ∧ Run (FileStep config) w events w' ∧
    List.Forall₂ (Returned jobs x) order events ∧
    w'.statics.storage.lookup = x.shared.storage.lookup ∧
    w'.channel.messages = x.outside.messages

/-- They could have been in some order. -/
def Serialisable (config : TgConfig) (jobs : List Job) (w : World) (x : Handlers) : Prop :=
  ∃ order, SerialisableIn config jobs w x order

/-- The calls `pre` have been made once more, one after the other. -/
structure Remade (config : TgConfig) (jobs : List Job) (w : World) (h : History) (x : Handlers)
    (pre : List Nat) (events : List Event) (w' : World) : Prop where
  run : Run (FileStep config) w events w'
  returned : List.Forall₂ (Returned jobs x) pre events
  touched : ∀ i ∈ pre, ∀ job, jobs[i]? = some job →
    w'.statics.storage.lookup job.call.path = x.shared.storage.lookup job.call.path
  untouched : ∀ p, (∀ i ∈ pre, ∀ job, jobs[i]? = some job → job.call.path ≠ p) →
    w'.statics.storage.lookup p = w.statics.storage.lookup p
  dims : dimsAfter jobs w.statics.storage pre = some w'.statics.storage.dims
  reached : Reached w.channel (pre.filterMap h.change) w'.channel
  files : x.outside.Extends w'.channel

section Remade

variable {config : TgConfig} {jobs : List Job} {w w' : World} {evs events : List Event}
  {h : History} {x : Handlers} {i : Nat} {job : Job} {pre rest : List Nat}

theorem RunInvariant.run (hinv : RunInvariant evs w) (hrun : Run (FileStep config) w events w') :
    RunInvariant (evs ++ events) w' := by
  refine hrun.invariant (P := fun ls v => RunInvariant (evs ++ ls) v) ?_ ?_
  · rw [List.append_nil]
    exact hinv
  · intro ls v ev v' _ hv hstep
    rw [← List.append_assoc]
    exact hv.snoc hstep

/-- The order of the calls has room in the table, and so has every part of it. -/
theorem dimsAfter_snoc {d : Nat × Nat} (hj : jobs[i]? = some job)
    (hall : ∃ e, dimsAfter jobs w.statics.storage (pre ++ i :: rest) = some e)
    (hd : dimsAfter jobs w.statics.storage pre = some d) :
    ∃ e, job.call.dims w.statics.storage d = some e ∧
      dimsAfter jobs w.statics.storage (pre ++ [i]) = some e := by
  obtain ⟨e, he⟩ := hall
  have hsplit : dimsAfter jobs w.statics.storage (pre ++ i :: rest)
      = (dimsAfter jobs w.statics.storage pre).bind fun d => (i :: rest).foldlM
          (fun d i => jobs[i]?.bind fun job => job.call.dims w.statics.storage d) d :=
    List.foldlM_append
  rw [hsplit, hd, Option.bind_some, List.foldlM_cons, hj] at he
  obtain ⟨d', hd', -⟩ := Option.bind_eq_some_iff.mp he
  refine ⟨d', hd', ?_⟩
  show List.foldlM _ _ (pre ++ [i]) = _
  rw [List.foldlM_append]
  show (dimsAfter jobs w.statics.storage pre).bind _ = _
  rw [hd]
  simpa [hj] using hd'

/-- In a world where the calls before it have been remade, call `i` finds its own. -/
theorem Remade.ready (hr : Remade config jobs w h x pre events w')
    (hx : Interleaved config jobs w h x) (hpaths : Distinct Job.path jobs)
    (hj : jobs[i]? = some job) (hi : i ∉ pre) :
    Ready w w' x.outside job.call (h.change i) where
  entry := hr.untouched _ fun k hk job' hk' hsame =>
    hi (index_of_path hpaths hk' hj hsame ▸ hk)
  documents := hr.reached.old
  files := fun path fid hf => by
    cases hfile : w'.channel.files path with
    | none => exact Or.inl rfl
    | some fid' =>
        obtain rfl : fid' = fid := Option.some.inj ((hr.files path fid' hfile).symm.trans hf)
        exact Or.inr rfl
  fresh := fun y hy => by
    refine hr.reached.fresh_iff.mpr ⟨(hx.own i y hy).1, fun z hz => ?_⟩
    obtain ⟨k, hk, hkz⟩ := List.mem_filterMap.mp hz
    have hne : i ≠ k := by
      rintro rfl
      exact hi hk
    exact hx.apart i k y z hne hy hkz

/-- One more call is remade. -/
theorem Remade.snoc (hr : Remade config jobs w h x pre events w') (hinv : RunInvariant evs w)
    (hx : Interleaved config jobs w h x) (hjobs : Concurrently jobs w)
    (horder : h.order = pre ++ i :: rest) {reply : Reply}
    (hend : x.threads[i]? = some (.ended (some reply))) :
    ∃ ev w'', Remade config jobs w h x (pre ++ [i]) (events ++ [ev]) w'' := by
  have hmem : i ∈ h.order := by simp [horder]
  have hi : i ∉ pre := by
    have hnodup := hx.nodup
    rw [horder, List.nodup_append] at hnodup
    exact fun hpre => hnodup.2.2 i hpre i (List.mem_cons_self ..) rfl
  obtain ⟨job, hj, -, hprog⟩ := hx.started hend (by rintro _ ⟨⟩)
  have hready := hr.ready hx hjobs.paths hj hi
  obtain ⟨d, hd, hdims⟩ := dimsAfter_snoc hj ⟨_, horder ▸ hx.dims⟩ hr.dims
  have hreplays : Replays config w x.shared x.outside ⟨job.call, h.log i, reply⟩ (h.change i) := by
    generalize h.log i = log at hprog
    generalize h.change i = c at hprog
    cases hprog with
    | ended hreplays => exact hreplays
  obtain ⟨w'', hstep, hdone⟩ := hreplays _ w' d (hinv.run hr.run) hready hd
  have hcall := (hjobs.calls job (List.mem_of_getElem? hj)).1.congr hready.entry
  refine ⟨⟨job.call, h.log i, reply⟩, w'', hr.run.snoc ⟨hcall, hstep⟩, ?_, ?_, ?_, ?_, ?_, ?_⟩
  · exact List.rel_append hr.returned (.cons ⟨⟨job, hj, rfl⟩, hend⟩ .nil)
  · intro k hk job' hj'
    rcases List.mem_append.mp hk with hk | hk
    · have hne : job'.call.path ≠ job.call.path := fun hsame =>
        hi (index_of_path hjobs.paths hj' hj hsame ▸ hk)
      exact (hdone.others _ hne).trans (hr.touched k hk job' hj')
    · obtain rfl := List.mem_singleton.mp hk
      obtain rfl : job = job' := Option.some.inj (hj.symm.trans hj')
      exact hdone.entry
  · intro p hp
    have hne : p ≠ job.call.path := (hp i (by simp) job hj).symm
    exact (hdone.others p hne).trans (hr.untouched p fun k hk => hp k (by simp [hk]))
  · rw [hdone.dims]
    exact hdims
  · obtain ⟨ch, hsame, hch⟩ := hdone.channel
    rw [List.filterMap_append]
    cases hc : h.change i with
    | none =>
        rw [hc] at hch
        rw [List.filterMap_cons_none hc, List.filterMap_nil, List.append_nil, hch]
        exact hr.reached.same hsame
    | some y =>
        rw [hc] at hch
        rw [List.filterMap_cons_some hc, List.filterMap_nil, hch]
        exact (hr.reached.same hsame).snoc ((hready.fresh y hc).same hsame)
  · intro path fid hf
    exact (hdone.files path fid hf).elim (hr.files path fid) id

/-- All calls can be remade, in the order they were started. -/
theorem Interleaved.remade (hx : Interleaved config jobs w h x) (hinv : RunInvariant evs w)
    (hjobs : Concurrently jobs w)
    (hends : ∀ i ∈ h.order, ∃ reply, x.threads[i]? = some (.ended (some reply))) :
    ∃ events w', Remade config jobs w h x h.order events w' := by
  have hpre : ∀ pre rest, h.order = pre ++ rest →
      ∃ events w', Remade config jobs w h x pre events w' := by
    intro pre
    induction pre using List.reverseRecOn with
    | nil =>
        intro rest _
        refine ⟨[], w, .nil, .nil, ?_, fun _ _ => rfl, rfl, Reached.nil _, hx.files⟩
        exact fun i hi => absurd hi List.not_mem_nil
    | append_singleton pre i ih =>
        intro rest horder
        rw [List.append_assoc, List.singleton_append] at horder
        obtain ⟨events, w', hr⟩ := ih _ horder
        obtain ⟨reply, hend⟩ := hends i (by simp [horder])
        obtain ⟨ev, w'', hr'⟩ := hr.snoc hinv hx hjobs horder hend
        exact ⟨_, w'', hr'⟩
  exact hpre h.order [] (List.append_nil _).symm

end Remade

section Runs

variable {config : TgConfig} {jobs : List Job} {w₀ w : World} {evs : List Event} {x : Handlers}
  {is : List Nat}

/-- However their steps interleave, if all of them are quiet, handlers that have returned
    could have been called one after the other, in the order of their first steps: that in
    which they were started. -/
theorem handlers_serialisable (h0 : Initial w₀.statics)
    (hch : ∀ mid, w₀.channel.messages mid = none) (hrun : Run (FileStep config) w₀ evs w)
    (hjobs : Concurrently jobs w) (hsteps : Run (QuietStep jobs) (Handlers.idle config jobs w) is x)
    (hends : ∀ t ∈ x.threads, ∃ reply, t = .ended (some reply)) :
    SerialisableIn config jobs w x is.eraseDups := by
  have hinv := runInvariant h0 hch hrun
  rcases interleaved_run hinv hjobs hsteps with ⟨i, hcrash⟩ | ⟨h, hstarted, hx⟩
  · obtain ⟨reply, heq⟩ := hends _ (List.mem_of_getElem? hcrash)
    cases heq
  · -- every call has been started, as it has ended
    have hall : ∀ i < jobs.length, i ∈ h.order := by
      intro i hlt
      by_contra hi
      have hwait := (hx.waiting i hi).1
      rw [List.getElem?_eq_getElem hlt, Option.map_some] at hwait
      obtain ⟨reply, heq⟩ := hends _ (List.mem_of_getElem? hwait)
      cases heq
    have horder : h.order.Perm (List.range jobs.length) := by
      rw [List.perm_ext_iff_of_nodup hx.nodup List.nodup_range]
      intro i
      rw [List.mem_range]
      refine ⟨fun hi => ?_, hall i⟩
      obtain ⟨job, hj⟩ := hx.bound i hi
      exact (List.getElem?_eq_some_iff.mp hj).1
    have hreturn : ∀ i ∈ h.order, ∃ reply, x.threads[i]? = some (.ended (some reply)) := by
      intro i hi
      obtain ⟨job, hj⟩ := hx.bound i hi
      obtain ⟨t, ht, -⟩ := hx.progress i hi job hj
      obtain ⟨reply, rfl⟩ := hends t (List.mem_of_getElem? ht)
      exact ⟨reply, ht⟩
    obtain ⟨events, w', hr⟩ := hx.remade hinv hjobs hreturn
    rw [← hstarted]
    refine ⟨events, w', horder, hr.run, hr.returned, ?_, ?_⟩
    · funext p
      by_cases hp : ∃ i ∈ h.order, ∃ job, jobs[i]? = some job ∧ job.call.path = p
      · obtain ⟨i, hi, job, hj, rfl⟩ := hp
        exact hr.touched i hi job hj
      · have hno : ∀ i ∈ h.order, ∀ job, jobs[i]? = some job → job.call.path ≠ p :=
          fun i hi job hj heq => hp ⟨i, hi, job, hj, heq⟩
        exact (hr.untouched p hno).trans (hx.untouched p hno).symm
    · -- the order in which the server was asked is another one
      obtain ⟨sent, hperm, hreached⟩ := hx.reached
      exact (hr.reached.messages_eq hreached hperm.symm (hx.changes_apart hinv hjobs.paths)).symm

/-- After calls that asked nothing, the `jobs` take their `turns`, evaluated. -/
theorem run_of_turns (jobs : List Job) (hconc : ∀ job ∈ jobs, job.call.Concurrent)
    (hpaths : (jobs.map Job.path).Nodup)
    (allowed : List Job → Statics → List CallThread → Nat → Statics → Bool)
    (calls : List (Call × List Response)) (turns : List (Nat × Response))
    (log : List (Request × Response)) (P : Statics → Prop) [DecidablePred P]
    (h : (runFromMain (fun s call => FileCall s.storage call) calls).any (fun r =>
      r.2.1.flatMap Event.log = [] ∧ (∀ job ∈ jobs, FileCall r.2.2.storage job.call) ∧
      (play receive (allowed jobs) turns r.2.2 (jobs.map (Job.thread blankConfig))).any (fun q =>
        (∀ t ∈ q.2.1, t.result?.isSome) ∧ q.2.2 = log ∧ P q.1) = true) = true)
    {ch : Channel} (hserve : Serve Serving Channel.empty log ch) :
    ∃ w₀ evs w x, Initial w₀.statics ∧ (∀ mid, w₀.channel.messages mid = none) ∧
      Run (FileStep blankConfig) w₀ evs w ∧ Concurrently jobs w ∧
      Run (fun x i y => System.Step receive Serving x i y ∧
        allowed jobs x.shared x.threads i y.shared = true) (Handlers.idle blankConfig jobs w)
        (turns.map Prod.fst) x ∧
      (∀ t ∈ x.threads, ∃ reply, t = .ended (some reply)) ∧ P x.shared ∧ x.outside = ch := by
  obtain ⟨s₀, evs, s, h0, ⟨hnil, hcalls, hplay⟩, hrun⟩ := run_of_runFromMain _ calls
    (fun evs s => evs.flatMap Event.log = [] ∧ (∀ job ∈ jobs, FileCall s.storage job.call) ∧
      (play receive (allowed jobs) turns s (jobs.map (Job.thread blankConfig))).any (fun q =>
        (∀ t ∈ q.2.1, t.result?.isSome) ∧ q.2.2 = log ∧ P q.1) = true) h
  obtain ⟨⟨s', ts, log'⟩, hplayed, hend⟩ := (Option.any_eq_true _ _).mp hplay
  obtain ⟨hends, rfl, hP⟩ := of_decide_eq_true hend
  have hworld := run_world (A := fun s ev => FileCall s.storage ev.call)
    (hrun.mono fun t e u ⟨hstep, hok⟩ => ⟨hstep, of_decide_eq_true hok⟩)
    (show Serve Serving Channel.empty (evs.flatMap Event.log) Channel.empty by rw [hnil]; rfl)
  refine ⟨⟨s₀, Channel.empty⟩, evs, ⟨s, Channel.empty⟩, ⟨s', ch, ts⟩, h0, fun _ => rfl, hworld,
    ⟨fun job hj => ⟨hcalls job hj, hconc job hj⟩, hpaths⟩, run_of_play receive hplayed hserve,
    fun t ht => ?_, hP, rfl⟩
  cases t with
  | ended o =>
      obtain ⟨reply, rfl⟩ := Option.isSome_iff_exists.mp (hends _ ht)
      exact ⟨reply, rfl⟩
  | idle | asking | asked | told => cases hends _ ht

/-- A file is removed while another one is written, which was started after it. -/
theorem handlers_serialisable_sample :
    ∃ w₀ w evs jobs x, Run (FileStep blankConfig) w₀ evs w ∧
      Run (QuietStep jobs) (Handlers.idle blankConfig jobs w) [1, 0, 1, 0, 0, 0, 1, 1] x ∧
      SerialisableIn blankConfig jobs w x [1, 0] := by
  obtain ⟨w₀, evs, w, x, h0, hch, hrun, hjobs, hsteps, hends, -, -⟩ := run_of_turns
    [⟨.write (text "/a") (text "x") 0, zeroHeap⟩, ⟨.unlink (text "/b"), zeroHeap⟩]
    (by decide) (by decide) (fun jobs s ts i s' => Quiet jobs s ts i s')
    [(.create (text "/a"), []), (.create (text "/b"), [])]
    [(1, deletedAnswer), (0, deletedAnswer), (1, deletedAnswer),
      (0, sentAnswer (text "17") (text "AAA")), (0, deletedAnswer), (0, deletedAnswer),
      (1, deletedAnswer), (1, deletedAnswer)]
    [(.deleteMessage blankConfig [], deletedAnswer),
      (.sendDocument blankConfig (text "/") (text "a") (text "x"),
        sentAnswer (text "17") (text "AAA"))]
    (fun _ => True) (by decide +kernel)
    ⟨_, serves_deleted, _,
      serves_sent (by decide) (by decide) (by decide) List.not_mem_nil rfl, rfl⟩
  have hquiet : Run (QuietStep _) _ _ x := hsteps.mono fun _ _ _ h => ⟨h.1, of_decide_eq_true h.2⟩
  exact ⟨w₀, w, evs, _, x, hrun, hquiet, handlers_serialisable h0 hch hrun hjobs hquiet hends⟩

/-- What can be reached by calls one after the other has its messages accounted for. -/
theorem Serialisable.accounted (h : Serialisable config jobs w x) (h0 : Initial w₀.statics)
    (hch : ∀ mid, w₀.channel.messages mid = none) (hrun : Run (FileStep config) w₀ evs w) :
    ∃ w' : World, Accounted w'.statics.storage.live w'.channel ∧
      w'.statics.storage.lookup = x.shared.storage.lookup ∧
      w'.channel.messages = x.outside.messages := by
  obtain ⟨-, events, w', -, hevents, -, hlookup, hmessages⟩ := h
  exact ⟨w', (runInvariant h0 hch (hrun.append hevents)).accounted, hlookup, hmessages⟩

/-- Without quiet steps they could not: two answers are mixed up that arrive before either
    is read, and a write whose entry is moved by an `unlink` is lost. -/
theorem handlers_not_serialisable :
    (∃ w₀ evs w jobs is x, Initial w₀.statics ∧ (∀ mid, w₀.channel.messages mid = none) ∧
      Run (FileStep blankConfig) w₀ evs w ∧ Concurrently jobs w ∧
      Run (fun x i y => System.Step receive Serving x i y ∧
        LeavesPlaces jobs x.shared x.threads i y.shared) (Handlers.idle blankConfig jobs w) is x ∧
      (∀ t ∈ x.threads, ∃ reply, t = .ended (some reply)) ∧
      ¬ Serialisable blankConfig jobs w x) ∧
    (∃ w₀ evs w jobs is x, Initial w₀.statics ∧ (∀ mid, w₀.channel.messages mid = none) ∧
      Run (FileStep blankConfig) w₀ evs w ∧ Concurrently jobs w ∧
      Run (fun x i y => System.Step receive Serving x i y ∧
        LeavesAnswers x.shared x.threads i y.shared) (Handlers.idle blankConfig jobs w) is x ∧
      (∀ t ∈ x.threads, ∃ reply, t = .ended (some reply)) ∧
      ¬ Serialisable blankConfig jobs w x) := by
  constructor
  · obtain ⟨w₀, evs, w, x, h0, hch, hrun, hjobs, hsteps, hends, hmixed, -⟩ :=
      run_of_turns
        [⟨.write (text "/a") (text "x") 0, zeroHeap⟩, ⟨.write (text "/b") (text "y") 0, zeroHeap⟩]
        (by decide) (by decide) (fun jobs s ts i s' => LeavesPlaces jobs s ts i s')
        [(.create (text "/a"), []), (.create (text "/b"), [])]
        [(0, deletedAnswer), (1, deletedAnswer), (0, sentAnswer (text "17") (text "AAA")),
          (1, sentAnswer (text "18") (text "BBB")), (0, deletedAnswer), (1, deletedAnswer),
          (0, deletedAnswer), (1, deletedAnswer)]
        [(.sendDocument blankConfig (text "/") (text "a") (text "x"),
            sentAnswer (text "17") (text "AAA")),
          (.sendDocument blankConfig (text "/") (text "b") (text "y"),
            sentAnswer (text "18") (text "BBB"))]
        (fun s => ∃ f ∈ s.storage.lookup (text "/a"), ∃ g ∈ s.storage.lookup (text "/b"),
          f.fileSize > 0 ∧ g.fileSize > 0 ∧ f.messageIdStr = g.messageIdStr)
        (by decide +kernel)
        ⟨_, serves_sent (by decide) (by decide) (by decide) List.not_mem_nil rfl, _,
          serves_sent (by decide) (by decide) (by decide)
            (show text "18" ∉ [text "17"] by decide)
            (by rw [Channel.FreshFile, Channel.post_documents, Function.update_of_ne (by decide)]
                rfl), rfl⟩
    refine ⟨w₀, evs, w, _, _, x, h0, hch, hrun, hjobs,
      hsteps.mono fun x i y h => ⟨h.1, of_decide_eq_true h.2⟩, hends, fun hserial => ?_⟩
    -- both entries have the message id that was given last
    obtain ⟨f, hf, g, hg, hfpos, hgpos, hsame⟩ := hmixed
    obtain ⟨w', hacc, hlookup, -⟩ := hserial.accounted h0 hch hrun
    obtain ⟨hfl, hfp⟩ := lookup_some (hlookup ▸ hf : w'.statics.storage.lookup _ = some f)
    obtain ⟨hgl, hgp⟩ := lookup_some (hlookup ▸ hg : w'.statics.storage.lookup _ = some g)
    have heq : f = g :=
      hacc.ids.eq_of_key (mem_uploaded.mpr ⟨hfl, hfpos⟩) (mem_uploaded.mpr ⟨hgl, hgpos⟩) hsame
    have hpath : text "/a" = text "/b" := by rw [← hfp, ← hgp, heq]
    exact absurd hpath (by decide)
  · obtain ⟨w₀, evs, w, x, h0, hch, hrun, hjobs, hsteps, hends, hlost, hout⟩ :=
      run_of_turns
        [⟨.write (text "/b") (text "y") 0, zeroHeap⟩, ⟨.unlink (text "/a"), zeroHeap⟩]
        (by decide) (by decide) (fun _ s ts i s' => LeavesAnswers s ts i s')
        [(.create (text "/a"), []), (.create (text "/b"), [])]
        [(0, deletedAnswer), (1, deletedAnswer), (1, deletedAnswer), (1, deletedAnswer),
          (1, deletedAnswer), (0, sentAnswer (text "17") (text "AAA")), (0, deletedAnswer),
          (0, deletedAnswer)]
        [(.deleteMessage blankConfig [], deletedAnswer),
          (.sendDocument blankConfig (text "/") (text "b") (text "y"),
            sentAnswer (text "17") (text "AAA"))]
        (fun s => ∀ f ∈ s.storage.live, f.messageIdStr ≠ text "17")
        (by decide +kernel)
        ⟨_, serves_deleted, _,
          serves_sent (by decide) (by decide) (by decide) List.not_mem_nil rfl, rfl⟩
    refine ⟨w₀, evs, w, _, _, x, h0, hch, hrun, hjobs,
      hsteps.mono fun x i y h => ⟨h.1, of_decide_eq_true h.2⟩, hends, fun hserial => ?_⟩
    -- the message is there, but no entry has its id
    obtain ⟨w', hacc, hlookup, hmessages⟩ := hserial.accounted h0 hch hrun
    have hposted : w'.channel.messages (text "17") = some ⟨text "AAA", text "y"⟩ := by
      rw [hmessages, hout, Channel.post_messages, Function.update_self]
    obtain ⟨-, f, hf, -, hid⟩ := hacc.known _ _ hposted
    have hfx := lookup_of_mem hacc.paths hf
    rw [hlookup] at hfx
    exact hlost f (lookup_some hfx).1 hid

end Runs

end TgFuse

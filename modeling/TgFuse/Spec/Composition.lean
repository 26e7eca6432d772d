/-
  TgFuse.Spec.Composition

  How calls compose.  A transfer that the kernel cuts into pieces gives what the
  whole transfer gives, and what is seen of a path depends on the calls about that
  path alone, whatever happens to other files and whatever ids the server chooses.

  Both are proved of the file system that the program implements.
-/

import Mathlib.Algebra.Ring.Int.Defs
import TgFuse.Spec.Reference

namespace TgFuse

open CString FileTree Interact KeyedList Lts Overlay

-- ============================================================================
-- Transfers in pieces
-- ============================================================================

/-- The calls that write the pieces `cs` one behind the other. -/
def writeCalls (p : List UInt8) (pos : Nat) (cs : List (List UInt8)) : List Call :=
  (placed pos cs).map fun c => .write p c.2 c.1

/-- The calls that read windows of the given sizes one behind the other. -/
def readCalls (p : List UInt8) (offset : Nat) : List Nat → List Call
  | [] => []
  | n :: ns => .read p n offset :: readCalls p (offset + n) ns

/-- The bytes a reply carries. -/
def Reply.bytes : Reply → List UInt8
  | .data _ buf => buf
  | _ => []

section Pieces

variable {t t' : Tree (List UInt8) UInt8} {evs : List Event} {p : List UInt8} {pos : Nat}

/-- A run of writes of adjacent pieces writes all of them. -/
theorem writes_of_run {cs : List (List UInt8)} (hrun : Run TreeMove t evs t')
    (hcalls : evs.map Event.call = writeCalls p pos cs) (hne : cs ≠ []) :
    Writes t p pos cs.flatten t' ∧
      (evs.map fun ev => ev.reply.ret).sum = (cs.flatten.length : Int) := by
  induction cs using List.reverseRecOn generalizing evs t' with
  | nil => exact absurd rfl hne
  | append_singleton cs c ih =>
      rw [writeCalls, placed_snoc, List.map_append, List.map_eq_append_iff] at hcalls
      obtain ⟨evs, last, rfl, hcalls, hlast⟩ := hcalls
      obtain ⟨ev, rfl, hcall⟩ := List.map_eq_singleton_iff.mp hlast
      obtain ⟨t₁, hrun, hmove⟩ := hrun.of_snoc
      rw [TreeMove, hcall] at hmove
      obtain ⟨hreply, hwrites⟩ := hmove
      have hret : ev.reply.ret = (c.length : Int) := by rw [hreply]; rfl
      rw [Int.toNat_natCast] at hwrites
      rw [List.map_append, List.sum_append, List.flatten_append, List.flatten_singleton]
      by_cases hcs : cs = []
      · subst hcs
        have hnil : evs = [] := List.map_eq_nil_iff.mp hcalls
        subst hnil
        obtain rfl := hrun.eq_of_nil
        exact ⟨by simpa using hwrites, by simp [hret]⟩
      · obtain ⟨hw, hsum⟩ := ih hrun hcalls hcs
        refine ⟨hw.append hwrites, ?_⟩
        rw [hsum, List.length_append]
        simp [hret]

/-- A run of reads of adjacent windows reads all of them, and changes nothing. -/
theorem reads_of_run {sizes : List Nat} (hrun : Run TreeMove t evs t')
    (hcalls : evs.map Event.call = readCalls p pos sizes) :
    t' = t ∧ evs.flatMap (fun ev => ev.reply.bytes) =
      match t p with
      | some (.file bytes) => window bytes pos sizes.sum
      | _ => [] := by
  induction sizes generalizing evs t pos with
  | nil =>
      obtain rfl := List.map_eq_nil_iff.mp hcalls
      refine ⟨hrun.eq_of_nil, ?_⟩
      cases t p with
      | none => rfl
      | some n => cases n <;> simp [window]
  | cons n ns ih =>
      rw [readCalls, List.map_eq_cons_iff] at hcalls
      obtain ⟨ev, evs, rfl, hcall, hcalls⟩ := hcalls
      obtain ⟨t₁, hmove, hrest⟩ := hrun.of_cons
      rw [TreeMove, hcall] at hmove
      obtain ⟨rfl, hreply⟩ := hmove
      obtain ⟨rfl, hbytes⟩ := ih hrest hcalls
      refine ⟨rfl, ?_⟩
      rw [List.flatMap_cons, hbytes, hreply]
      cases t' p with
      | none => rfl
      | some n =>
          cases n with
          | dir => rfl
          | file bytes =>
              simp only [Int.toNat_natCast, Reply.bytes, List.sum_cons, window_append]

end Pieces

/-- A run from `main` that an evaluation provides, and two ways to go on from its end. -/
theorem branches_of_runFromMain (calls calls₁ calls₂ : List (Call × List Response))
    (log log₁ log₂ : List (Request × Response)) (P : List Event → List Event → List Event → Prop)
    [∀ evs evs₁ evs₂, Decidable (P evs evs₁ evs₂)]
    (h : (runFromMain (flatCheck fun _ => true) calls).any (fun r =>
      (runCalls zeroHeap blankConfig (flatCheck fun _ => true) calls₁ r.2.2).any fun r₁ =>
        (runCalls zeroHeap blankConfig (flatCheck fun _ => true) calls₂ r.2.2).any fun r₂ =>
          r.2.1.flatMap Event.log = log ∧ r₁.1.flatMap Event.log = log₁ ∧
            r₂.1.flatMap Event.log = log₂ ∧ P r.2.1 r₁.1 r₂.1) = true)
    {ch ch₁ ch₂ : Channel} (hserve : Serve Serving Channel.empty log ch)
    (hserve₁ : Serve Serving ch log₁ ch₁) (hserve₂ : Serve Serving ch log₂ ch₂) :
    ∃ w₀ evs w evs₁ w₁ evs₂ w₂, Initial w₀.statics ∧ (∀ mid, w₀.channel.messages mid = none) ∧
      P evs evs₁ evs₂ ∧ Run (FlatStep blankConfig) w₀ evs w ∧
      Run (FlatStep blankConfig) w evs₁ w₁ ∧ Run (FlatStep blankConfig) w evs₂ w₂ := by
  obtain ⟨⟨s₀, evs, s⟩, hrun, h⟩ := (Option.any_eq_true _ _).mp h
  obtain ⟨⟨evs₁, s₁⟩, hrun₁, h⟩ := (Option.any_eq_true _ _).mp h
  obtain ⟨⟨evs₂, s₂⟩, hrun₂, h⟩ := (Option.any_eq_true _ _).mp h
  obtain ⟨rfl, rfl, rfl, hP⟩ := of_decide_eq_true h
  simp only [runFromMain, Option.bind_eq_bind, Option.bind_eq_some_iff, Option.some.injEq,
    Prod.mk.injEq] at hrun
  obtain ⟨t, ht, r, hr, rfl, rfl, rfl⟩ := hrun
  have hfirst := flatRun_of_run (run_of_runCalls hr) hserve
  have hone := flatRun_of_run (run_of_runCalls hrun₁) hserve₁
  have htwo := flatRun_of_run (run_of_runCalls hrun₂) hserve₂
  exact ⟨⟨t, Channel.empty⟩, _, _, _, _, _, _, ⟨zeroHeap, ht⟩, fun _ => rfl, hP,
    hfirst.mono fun _ _ _ h => h.1, hone.mono fun _ _ _ h => h.1, htwo.mono fun _ _ _ h => h.1⟩

/-- The requests of the file `"/a"` that holds `document` after its first write. -/
def firstUpload (document : List UInt8) : List (Request × Response) :=
  [(.sendDocument blankConfig (text "/") (text "a") document, sentAnswer (text "17") (text "AAA"))]

/-- The requests that bring that document back. -/
def firstDownload (document : List UInt8) : List (Request × Response) :=
  [(.getFile blankConfig (text "AAA"), locatedAnswer (text "f1")),
    (.download blankConfig (text "f1"), .whole document)]

theorem firstUpload_served (document : List UInt8) :
    Serve Serving Channel.empty (firstUpload document)
      (Channel.empty.post (text "17") (text "AAA") document) :=
  ⟨_, serves_sent (by decide) (by decide) (by decide) List.not_mem_nil rfl, rfl⟩

theorem firstDownload_served {ch : Channel} {document : List UInt8}
    (hdoc : ch.documents (text "AAA") = some document)
    (hfile : ch.files (text "f1") = none ∨ ch.files (text "f1") = some (text "AAA")) :
    Serve Serving ch (firstDownload document) (ch.locate (text "f1") (text "AAA")) :=
  ⟨_, serves_located (by decide) hdoc hfile, _, serves_downloaded hdoc, rfl⟩

section Transfers

variable {config : TgConfig} {w₀ w w₁ w₂ : World} {evs evs₁ : List Event} {ev₂ : Event}
  {p old : List UInt8} {pos : Nat}

/-- Writing a file piece by piece is one write of the pieces together: both stand in the same
    relation to what was there, and leave the same file where the write leaves no hole. -/
theorem write_in_pieces {cs : List (List UInt8)} (h0 : Initial w₀.statics)
    (hch : ∀ mid, w₀.channel.messages mid = none) (hrun : Run (FlatStep config) w₀ evs w)
    (hfile : w.tree p = some (.file old)) (hne : cs ≠ [])
    (hpieces : Run (FlatStep config) w evs₁ w₁)
    (hcalls : evs₁.map Event.call = writeCalls p pos cs)
    (hwhole : FlatStep config w ev₂ w₂) (hcall : ev₂.call = .write p cs.flatten pos) :
    Writes w.tree p pos cs.flatten w₁.tree ∧ Writes w.tree p pos cs.flatten w₂.tree ∧
      (pos ≤ old.length → w₁.tree = w₂.tree) ∧
      (evs₁.map fun ev => ev.reply.ret).sum = ev₂.reply.ret := by
  have hinv := flatInvariant h0 hch hrun
  obtain ⟨hw₁, hsum⟩ := writes_of_run (hinv.refines hpieces).2 hcalls hne
  have hmove := (hinv.snoc hwhole).1
  rw [TreeMove, hcall] at hmove
  obtain ⟨hreply, hw₂⟩ := hmove
  rw [Int.toNat_natCast] at hw₂
  refine ⟨hw₁, hw₂, fun hpos => hw₁.eq_of_le hfile hpos hw₂, ?_⟩
  rw [hsum, hreply]
  rfl

/-- Two bytes and the one behind them, or all three at once. -/
theorem write_in_pieces_sample :
    ∃ (w w₁ w₂ : World) (evs₁ : List Event) (ev₂ : Event),
      Writes w.tree (text "/a") 0 (text "xyz") w₁.tree ∧
      Writes w.tree (text "/a") 0 (text "xyz") w₂.tree ∧ w₁.tree = w₂.tree ∧
      evs₁.length = 2 ∧ (evs₁.map fun ev => ev.reply.ret).sum = ev₂.reply.ret := by
  have hdoc := Channel.post_document Channel.empty (text "17") (text "AAA") (text "xy")
  obtain ⟨w₀, evs, w, evs₁, w₁, evs₂, w₂, h0, hch, ⟨hcreate, hcalls, hwhole⟩, hrun, hrun₁, hrun₂⟩ :=
    branches_of_runFromMain [(.create (text "/a"), [])]
      [(.write (text "/a") (text "xy") 0, [sentAnswer (text "17") (text "AAA")]),
        (.write (text "/a") (text "z") 2, [locatedAnswer (text "f1"), .whole (text "xy"),
          editedAnswer (text "BBB")])]
      [(.write (text "/a") (text "xyz") 0, [sentAnswer (text "17") (text "AAA")])]
      [] (firstUpload (text "xy") ++ (firstDownload (text "xy") ++
        [(.editMessageMedia blankConfig (text "17") (text "/") (text "a") (text "xyz"),
          editedAnswer (text "BBB"))]))
      (firstUpload (text "xyz"))
      (fun evs evs₁ evs₂ => evs.map Event.call = [.create (text "/a")] ∧
        evs₁.map Event.call = writeCalls (text "/a") 0 [text "xy", text "z"] ∧
        evs₂.map Event.call = [.write (text "/a") (text "xyz") 0])
      (by decide +kernel) rfl
      (serve_append.mpr ⟨_, firstUpload_served _, serve_append.mpr
        ⟨_, firstDownload_served hdoc (Or.inl rfl), _, serves_edited (by decide)
          (by rw [Channel.FreshFile, Channel.locate_documents, Channel.post_documents,
            Function.update_of_ne (by decide)]; rfl), rfl⟩⟩)
      (firstUpload_served _)
  obtain ⟨ev, rfl, hcall⟩ := List.map_eq_singleton_iff.mp hcreate
  obtain ⟨ev₂, rfl, hcall₂⟩ := List.map_eq_singleton_iff.mp hwhole
  have hfile : w.tree (text "/a") = some (.file []) := by
    have hmove := (refines_file_system h0 hch hrun).of_singleton
    rw [TreeMove, hcall] at hmove
    rw [hmove.2.2, put_self]
  obtain ⟨hwrites, hwrites₂, htree, hret⟩ := write_in_pieces h0 hch hrun hfile
    (List.cons_ne_nil _ _) hrun₁ hcalls hrun₂.of_singleton hcall₂
  have hlen := congrArg List.length hcalls
  rw [List.length_map] at hlen
  exact ⟨w, w₁, w₂, evs₁, ev₂, hwrites, hwrites₂, htree (Nat.zero_le _), hlen, hret⟩

/-- Reading piece by piece gives the bytes that one read gives. -/
theorem read_in_pieces {sizes : List Nat} (h0 : Initial w₀.statics)
    (hch : ∀ mid, w₀.channel.messages mid = none) (hrun : Run (FlatStep config) w₀ evs w)
    (hpieces : Run (FlatStep config) w evs₁ w₁)
    (hcalls : evs₁.map Event.call = readCalls p pos sizes)
    (hwhole : FlatStep config w ev₂ w₂) (hcall : ev₂.call = .read p sizes.sum pos) :
    w₁.tree = w.tree ∧ evs₁.flatMap (fun ev => ev.reply.bytes) = ev₂.reply.bytes := by
  have hinv := flatInvariant h0 hch hrun
  obtain ⟨htree, hbytes⟩ := reads_of_run (hinv.refines hpieces).2 hcalls
  have hmove := (hinv.snoc hwhole).1
  rw [TreeMove, hcall] at hmove
  refine ⟨htree, ?_⟩
  rw [hbytes, hmove.2]
  cases w.tree p with
  | none => rfl
  | some n => cases n <;> rfl

/-- Two bytes of three and then all that is left, or all three at once. -/
theorem read_in_pieces_sample :
    ∃ (w w₁ : World) (evs₁ : List Event) (ev₂ : Event), w₁.tree = w.tree ∧ evs₁.length = 2 ∧
      evs₁.flatMap (fun ev => ev.reply.bytes) = ev₂.reply.bytes ∧
      ev₂.reply = .data 3 (text "xyz") := by
  have hdoc := Channel.post_document Channel.empty (text "17") (text "AAA") (text "xyz")
  have hload := firstDownload_served hdoc (Or.inl rfl)
  obtain ⟨w₀, evs, w, evs₁, w₁, evs₂, w₂, h0, hch, ⟨hcalls, hwhole, hreply⟩, hrun, hrun₁, hrun₂⟩ :=
    branches_of_runFromMain [(.create (text "/a"), []),
        (.write (text "/a") (text "xyz") 0, [sentAnswer (text "17") (text "AAA")])]
      [(.read (text "/a") 2 0, [locatedAnswer (text "f1"), .whole (text "xyz")]),
        (.read (text "/a") 5 2, [locatedAnswer (text "f1"), .whole (text "xyz")])]
      [(.read (text "/a") 7 0, [locatedAnswer (text "f1"), .whole (text "xyz")])]
      (firstUpload (text "xyz")) (firstDownload (text "xyz") ++ firstDownload (text "xyz"))
      (firstDownload (text "xyz"))
      (fun _ evs₁ evs₂ => evs₁.map Event.call = readCalls (text "/a") 0 [2, 5] ∧
        evs₂.map Event.call = [.read (text "/a") 7 0] ∧
        evs₂.map Event.reply = [.data 3 (text "xyz")])
      (by decide +kernel) (firstUpload_served _)
      (serve_append.mpr ⟨_, hload, firstDownload_served hdoc (Or.inr (Channel.locate_file ..))⟩)
      hload
  obtain ⟨ev₂, rfl, hcall⟩ := List.map_eq_singleton_iff.mp hwhole
  obtain ⟨htree, hbytes⟩ := read_in_pieces h0 hch hrun hrun₁ hcalls hrun₂.of_singleton hcall
  have hlen := congrArg List.length hcalls
  rw [List.length_map] at hlen
  exact ⟨w, w₁, evs₁, ev₂, htree, hlen, hbytes, List.singleton_inj.mp hreply⟩

end Transfers

-- ============================================================================
-- Emptying a directory
-- ============================================================================

/-- The call by which `rm -r` takes away what is at `p`. -/
def removalOf (t : Tree (List UInt8) UInt8) (p : List UInt8) : Call :=
  if t p = some .dir then .rmdir p else .unlink p

section Removals

variable {t t' t₀ : Tree (List UInt8) UInt8} {reply : Reply} {evs : List Event}
  {d p : List UInt8}

/-- Directories are not nested. -/
def FlatTree (t : Tree (List UInt8) UInt8) : Prop := ∀ p, t p ≠ none → FlatPath p

theorem FlatInvariant.flatTree {w : World} (h : FlatInvariant evs w) : FlatTree w.tree := by
  intro p hp
  obtain ⟨f, hl⟩ := Option.ne_none_iff_exists'.mp fun hnone => hp (tree_eq_none_iff.mpr hnone)
  rw [← (lookup_some hl).2]
  exact h.flat f (lookup_some hl).1

/-- Below the mount point nothing that lies in a directory is one that holds anything. -/
theorem FlatTree.parentOf_ne (h : FlatTree t) (hd : d ≠ text "/") (hp : FlatPath p)
    (hparent : parentOf p = d) {q : List UInt8} (hq : t q ≠ none) : parentOf q ≠ p := by
  intro hqp
  have hflat := h q hq
  have hp' : dirOf q = p := hflat.2.trans hqp
  have hroot := dirOf_dirOf hflat.valid
  rw [hp', hp.2, hparent] at hroot
  exact hd (hroot.trans text_root.symm)

/-- What a listing of `d` names is what lies in `d`. -/
theorem Lists.exists_iff {names : List (List UInt8)} (hlists : Lists t d names)
    (hflat : FlatTree t) (hd : d ≠ []) {q : List UInt8} (hq : t q ≠ none) :
    (∃ n ∈ names, q = join d n) ↔ q ≠ text "/" ∧ parentOf q = d := by
  constructor
  · rintro ⟨n, hn, rfl⟩
    obtain ⟨hne, hslash, -⟩ := (hlists.2 n).mp hn
    exact ⟨text_root ▸ join_ne_root hne, (join_parts hd hslash).1⟩
  · rintro ⟨hroot, hparent⟩
    have hproper := (hflat q hq).1.resolve_left hroot
    obtain ⟨-, -, -, hbase⟩ := hproper.split
    have hjoin : join d (baseOf q) = q := by rw [← hparent, hproper.join_parts]
    exact ⟨baseOf q, (hlists.2 _).mpr ⟨hbase, slash_notMem_baseOf q, by rwa [hjoin]⟩, hjoin.symm⟩

/-- A listing is given of a directory that is there. -/
theorem Permits.listing {names : List (List UInt8)}
    (h : Permits t (.listing 0 (text "." :: text ".." :: names)) t' (.readdir d)) :
    t' = t ∧ t d = some .dir ∧ Lists t d names := by
  obtain ⟨hsame, hlisted⟩ := h
  refine ⟨hsame, ?_⟩
  split at hlisted
  · next hdir =>
    obtain ⟨names', heq, hlists⟩ := hlisted
    cases heq
    exact ⟨hdir, hlists⟩
  · cases hlisted

/-- What is there and holds nothing goes, and all else stays. -/
theorem Permits.removal (h : Permits t reply t' (removalOf t p)) (hp : t p ≠ none)
    (hempty : ∀ q, q ≠ text "/" → parentOf q = p → t q = none) :
    reply.ret = 0 ∧ t' = remove t p := by
  obtain ⟨n, hn⟩ := Option.ne_none_iff_exists'.mp hp
  cases n with
  | file bytes =>
      rw [removalOf, if_neg (by rw [hn]; exact nofun)] at h
      simp only [Permits, hn] at h
      exact ⟨by rw [h.1]; rfl, h.2⟩
  | dir =>
      rw [removalOf, if_pos hn] at h
      simp only [Permits, hn] at h
      obtain ⟨rfl, hprunes⟩ := h
      refine ⟨rfl, ?_⟩
      funext q
      by_cases hq : q = p
      · subst hq
        rw [hprunes.gone, remove, Function.update_self]
      · rw [remove, Function.update_of_ne hq]
        by_cases hchild : q ≠ text "/" ∧ parentOf q = p
        · rcases hprunes.inside q hq hchild with hsame | hgone
          · exact hsame
          · rw [hgone, hempty q hchild.1 hchild.2]
        · exact hprunes.other q hq hchild

theorem join_inj {m n : List UInt8} (hd : d ≠ []) (hm : slash ∉ m) (hn : slash ∉ n)
    (h : join d m = join d n) : m = n := by
  rw [← (join_parts hd hm).2, h, (join_parts hd hn).2]

/-- Taking away the children one by one: every call succeeds, and these go. -/
theorem removals_of_run {names : List (List UInt8)} (hd : d ≠ []) (hroot : d ≠ text "/")
    (hrun : Run TreeMove t evs t')
    (hcalls : evs.map Event.call = names.map fun n => removalOf t₀ (join d n))
    (hflat : FlatTree t) (hnd : names.Nodup)
    (hnames : ∀ n ∈ names, slash ∉ n ∧ t (join d n) ≠ none ∧ t (join d n) = t₀ (join d n)) :
    (∀ ev ∈ evs, ev.reply.ret = 0) ∧
      ∀ q, t' q = if ∃ n ∈ names, q = join d n then none else t q := by
  induction names generalizing t evs with
  | nil =>
      obtain rfl := List.map_eq_nil_iff.mp hcalls
      rw [hrun.eq_of_nil]
      simp
  | cons n ns ih =>
      rw [List.map_cons, List.map_eq_cons_iff] at hcalls
      obtain ⟨ev, evs, rfl, hcall, hcalls⟩ := hcalls
      obtain ⟨t₁, hmove, hrest⟩ := hrun.of_cons
      obtain ⟨hn, hns⟩ := List.nodup_cons.mp hnd
      obtain ⟨hslash, hthere, hsame⟩ := hnames n List.mem_cons_self
      have hrem : removalOf t₀ (join d n) = removalOf t (join d n) := by
        rw [removalOf, removalOf, hsame]
      rw [TreeMove, hcall, hrem] at hmove
      obtain ⟨hret, ht₁⟩ := hmove.removal hthere fun q _ hparent => by
        by_contra hq
        exact hflat.parentOf_ne hroot (hflat _ hthere) (join_parts hd hslash).1 hq hparent
      have hother : ∀ q, q ≠ join d n → t₁ q = t q := fun q hq => by
        rw [ht₁, remove, Function.update_of_ne hq]
      have hflat₁ : FlatTree t₁ := fun q hq => by
        by_cases hqn : q = join d n
        · rw [ht₁, hqn, remove, Function.update_self] at hq
          exact absurd rfl hq
        · rw [hother q hqn] at hq
          exact hflat q hq
      obtain ⟨hrets, htree⟩ := ih hrest hcalls hflat₁ hns fun m hm => by
        obtain ⟨hmslash, hmthere, hmsame⟩ := hnames m (List.mem_cons_of_mem _ hm)
        have hne : join d m ≠ join d n := fun heq =>
          hn (join_inj hd hmslash hslash heq ▸ hm)
        rw [hother _ hne]
        exact ⟨hmslash, hmthere, hmsame⟩
      refine ⟨List.forall_mem_cons.mpr ⟨hret, hrets⟩, fun q => ?_⟩
      rw [htree q]
      by_cases hqn : q = join d n
      · have hlisted : ∃ m ∈ n :: ns, q = join d m := ⟨n, List.mem_cons_self, hqn⟩
        rw [if_pos hlisted, ht₁, hqn, remove, Function.update_self, ite_self]
      · rw [hother q hqn]
        simp [hqn]

end Removals

section Emptied

variable {config : TgConfig} {w₀ w w₁ w₂ : World} {evs evs₁ : List Event} {ev : Event}
  {d : List UInt8} {names : List (List UInt8)}

/-- `rm -r`: taking away what `readdir` lists, and then the directory, leaves exactly
    what lies elsewhere, although `rmdir` alone may leave entries behind. -/
theorem listed_removals_empty (h0 : Initial w₀.statics)
    (hch : ∀ mid, w₀.channel.messages mid = none) (hrun : Run (FlatStep config) w₀ evs w)
    (hroot : d ≠ text "/") (hlist : FlatStep config w ev w₁) (hcall : ev.call = .readdir d)
    (hreply : ev.reply = .listing 0 (text "." :: text ".." :: names))
    (hrm : Run (FlatStep config) w₁ evs₁ w₂)
    (hcalls : evs₁.map Event.call =
      (names.map fun n => removalOf w.tree (join d n)) ++ [.rmdir d]) :
    (∀ ev ∈ evs₁, ev.reply.ret = 0) ∧
      ∀ q, w₂.tree q = if q = d ∨ q ≠ text "/" ∧ parentOf q = d then none else w.tree q := by
  have hinv := flatInvariant h0 hch hrun
  obtain ⟨hmove, hinv₁⟩ := hinv.snoc hlist
  have hpath : FlatPath d := by
    have hpath : FlatPath ev.call.path := hlist.1.2.1
    rwa [hcall] at hpath
  have hd : d ≠ [] := hpath.valid.ne_nil
  rw [TreeMove, hcall, hreply] at hmove
  obtain ⟨hw₁, hdir, hlists⟩ := hmove.listing
  have hthere : w.tree d ≠ none := by
    rw [hdir]
    exact Option.some_ne_none _
  obtain ⟨rms, last, rfl, hrms, hlast⟩ := List.map_eq_append_iff.mp hcalls
  obtain ⟨evd, rfl, hcalld⟩ := List.map_eq_singleton_iff.mp hlast
  obtain ⟨t, hrun₁, hlastmove⟩ := (hinv₁.refines hrm).2.of_snoc
  rw [hw₁] at hrun₁
  obtain ⟨hrets, htree⟩ :=
    removals_of_run hd hroot hrun₁ hrms hinv.flatTree hlists.1 fun n hn =>
      ⟨((hlists.2 n).mp hn).2.1, ((hlists.2 n).mp hn).2.2, rfl⟩
  -- before the directory itself goes, just its children have gone
  have hchildren : ∀ q, t q = if q ≠ text "/" ∧ parentOf q = d then none else w.tree q := by
    intro q
    rw [htree q]
    by_cases hq : w.tree q = none
    · rw [hq, ite_self, ite_self]
    · simp only [hlists.exists_iff hinv.flatTree hd hq]
  have hkeep : t d = some .dir := by
    rw [hchildren d, if_neg, hdir]
    exact fun hown => hinv.flatTree.parentOf_ne hroot hpath hown.2 hthere hown.2
  rw [TreeMove, hcalld, ← show removalOf t d = .rmdir d from if_pos hkeep] at hlastmove
  obtain ⟨hretd, ht⟩ := hlastmove.removal (by rw [hkeep]; exact Option.some_ne_none _)
    fun q hq hparent => by rw [hchildren q, if_pos ⟨hq, hparent⟩]
  refine ⟨fun ev hev => ?_, fun q => ?_⟩
  · rcases List.mem_append.mp hev with hev | hev
    · exact hrets ev hev
    · rw [List.mem_singleton.mp hev, hretd]
  · rw [ht]
    by_cases hqd : q = d
    · rw [if_pos (Or.inl hqd), hqd, remove, Function.update_self]
    · rw [remove, Function.update_of_ne hqd, hchildren q]
      simp only [hqd, false_or]

/-- A directory with two empty files in it, listed and taken away. -/
theorem listed_removals_empty_sample :
    ∃ (w w₂ : World) (evs₁ : List Event), evs₁.length = 3 ∧ (∀ ev ∈ evs₁, ev.reply.ret = 0) ∧
      ∀ q, w₂.tree q = if q = text "/d" ∨ q ≠ text "/" ∧ parentOf q = text "/d" then none
        else w.tree q := by
  have hdeleted : Serve Serving Channel.empty
      [(.deleteMessage blankConfig [], deletedAnswer), (.deleteMessage blankConfig [],
        deletedAnswer)] _ := ⟨_, serves_deleted, _, serves_deleted, rfl⟩
  obtain ⟨w₀, evs, w, evs₁, w₂, -, -, h0, hch, ⟨hmade, hcalls, hreply⟩, hrun, hrm, -⟩ :=
    branches_of_runFromMain
      [(.mkdir (text "/d"), []), (.create (text "/d/a"), []), (.create (text "/d/b"), [])]
      [(.readdir (text "/d"), []), (.unlink (text "/d/a"), [deletedAnswer]),
        (.unlink (text "/d/b"), [deletedAnswer]), (.rmdir (text "/d"), [])]
      [] [] [(.deleteMessage blankConfig [], deletedAnswer),
        (.deleteMessage blankConfig [], deletedAnswer)] []
      (fun evs evs₁ _ => evs.map Event.call =
          [.mkdir (text "/d"), .create (text "/d/a"), .create (text "/d/b")] ∧
        evs₁.map Event.call = [.readdir (text "/d"), .unlink (text "/d/a"), .unlink (text "/d/b"),
          .rmdir (text "/d")] ∧
        evs₁.head?.map Event.reply =
          some (.listing 0 [text ".", text "..", text "a", text "b"]))
      (by decide +kernel) rfl hdeleted rfl
  obtain ⟨ev, evs₁, rfl, hlist, hcalls⟩ := List.map_eq_cons_iff.mp hcalls
  obtain ⟨w₁, hlisted, hrm⟩ := hrm.of_cons
  -- what is listed are files
  obtain ⟨e, es, rfl, hd, hmade⟩ := List.map_eq_cons_iff.mp hmade
  obtain ⟨f, fs, rfl, ha, hmade⟩ := List.map_eq_cons_iff.mp hmade
  obtain ⟨g, rfl, hb⟩ := List.map_eq_singleton_iff.mp hmade
  obtain ⟨t, hfirst, hrest⟩ := (refines_file_system h0 hch hrun).of_cons
  obtain ⟨t', hsecond, hthird⟩ := hrest.of_cons
  have hthird := hthird.of_singleton
  rw [TreeMove, ha] at hsecond
  rw [TreeMove, hb] at hthird
  have hnodes : w.tree (text "/d/a") = some (.file []) ∧
      w.tree (text "/d/b") = some (.file []) := by
    rw [hthird.2.2, hsecond.2.2, put_of_ne (by decide), put_self, put_self]
    exact ⟨rfl, rfl⟩
  have hrms : evs₁.map Event.call = ([text "a", text "b"].map fun n =>
      removalOf w.tree (join (text "/d") n)) ++ [.rmdir (text "/d")] := by
    rw [hcalls]
    show _ = [removalOf w.tree (text "/d/a"), removalOf w.tree (text "/d/b"), _]
    rw [removalOf, removalOf, hnodes.1, hnodes.2]
    rfl
  obtain ⟨hrets, htree⟩ := listed_removals_empty h0 hch hrun (by decide) hlisted hlist
    (Option.some.inj hreply) hrm hrms
  have hlen := congrArg List.length hcalls
  rw [List.length_map] at hlen
  exact ⟨w, w₂, evs₁, hlen, hrets, htree⟩

end Emptied

-- ============================================================================
-- One path among others
-- ============================================================================

/-- The calls about `P`, with their replies. -/
def ownEvents (P : List UInt8) (evs : List Event) : List Event :=
  evs.filter fun ev => ev.call.path = P

/-- Calls after which the node at `P` is a function of the one before: no write to `P`
    leaves a hole, and the directory that `P` is in is not removed.  The listing of
    `P` is about other paths. -/
def Solid (P : List UInt8) (t : Tree (List UInt8) UInt8) (call : Call) : Prop :=
  call ≠ .readdir P ∧ call ≠ .rmdir (parentOf P) ∧
    ∀ buf offset old, call = .write P buf offset → t P = some (.file old) →
      offset.toNat ≤ old.length

/-- A step of the program under these conditions. -/
def SolidStep (config : TgConfig) (P : List UInt8) (w : World) (ev : Event) (w' : World) : Prop :=
  FlatStep config w ev w' ∧ Solid P w.tree ev.call

/-- A step of the file system under these conditions. -/
def SolidMove (P : List UInt8) (t : Tree (List UInt8) UInt8) (ev : Event)
    (t' : Tree (List UInt8) UInt8) : Prop := TreeMove t ev t' ∧ Solid P t ev.call

section Own

variable {t t' t₁ t₁' t₂ t₂' : Tree (List UInt8) UInt8} {P : List UInt8} {call : Call}
  {reply reply₁ reply₂ : Reply} {evs evs₁ evs₂ : List Event}

/-- Calls about other paths leave the node at `P`. -/
theorem Permits.other (h : Permits t reply t' call) (hne : call.path ≠ P)
    (hdir : call ≠ .rmdir (parentOf P)) : t' P = t P := by
  cases call with
  | getattr | «open» | setxattr | utimens | read | readdir => rw [h.1]
  | create p | mkdir p =>
      rw [h.2.2]
      exact put_of_ne (Ne.symm hne)
  | write p buf offset =>
      obtain ⟨-, old, new, -, -, rfl⟩ := h
      exact put_of_ne (Ne.symm hne)
  | unlink p =>
      simp only [Permits] at h
      split at h
      · rw [h.2]
        exact Function.update_of_ne (Ne.symm hne) ..
      · rw [h.2]
  | rmdir p =>
      simp only [Permits] at h
      split at h
      · refine h.2.other P (Ne.symm hne) fun hchild => hdir ?_
        rw [hchild.2]
      · rw [h.2]

/-- What a call about `P` replies and leaves there is determined by what was there. -/
theorem Permits.own (h₁ : Permits t₁ reply₁ t₁' call) (h₂ : Permits t₂ reply₂ t₂' call)
    (hpath : call.path = P) (hsolid : Solid P t₁ call) (heq : t₁ P = t₂ P) :
    t₁' P = t₂' P ∧ reply₁ = reply₂ := by
  obtain ⟨hlist, -, hhole⟩ := hsolid
  subst hpath
  cases call with
  | readdir p => exact absurd rfl hlist
  | setxattr | utimens | getattr | «open» | read =>
      dsimp only [Call.path] at heq
      obtain ⟨rfl, rfl⟩ := h₁
      obtain ⟨rfl, rfl⟩ := h₂
      exact ⟨heq, by simp only [heq]⟩
  | create p | mkdir p =>
      obtain ⟨-, rfl, rfl⟩ := h₁
      obtain ⟨-, rfl, rfl⟩ := h₂
      exact ⟨by simp only [Call.path, put_self], rfl⟩
  | write p buf offset =>
      dsimp only [Call.path] at heq hhole ⊢
      obtain ⟨rfl, old, new₁, hold, hov₁, rfl⟩ := h₁
      obtain ⟨rfl, old₂, new₂, hold₂, hov₂, rfl⟩ := h₂
      rw [← heq, hold] at hold₂
      cases hold₂
      have hpos := hhole buf offset old rfl hold
      have hnew : new₁ = new₂ := (hov₁.eq_iff hov₂).mpr fun i hi hlt => absurd hi (by omega)
      rw [hnew, put_self, put_self]
      exact ⟨rfl, rfl⟩
  | unlink p =>
      dsimp only [Call.path] at heq ⊢
      simp only [Permits, ← heq] at h₁ h₂
      cases ht : t₁ p with
      | none =>
          simp only [ht] at h₁ h₂
          obtain ⟨rfl, rfl⟩ := h₁
          obtain ⟨rfl, rfl⟩ := h₂
          exact ⟨heq, rfl⟩
      | some n =>
          simp only [ht] at h₁ h₂
          obtain ⟨rfl, rfl⟩ := h₁
          obtain ⟨rfl, rfl⟩ := h₂
          simp only [remove, Function.update_self, and_self]
  | rmdir p =>
      dsimp only [Call.path] at heq ⊢
      simp only [Permits, ← heq] at h₁ h₂
      split at h₁
      · next hdir =>
        simp only [hdir] at h₂
        obtain ⟨rfl, hp₁⟩ := h₁
        obtain ⟨rfl, hp₂⟩ := h₂
        exact ⟨hp₁.gone.trans hp₂.gone.symm, rfl⟩
      · next hno =>
        split at h₂
        · next hdir => exact absurd hdir hno
        · obtain ⟨rfl, rfl⟩ := h₁
          obtain ⟨rfl, rfl⟩ := h₂
          exact ⟨heq, rfl⟩

theorem ownEvents_append (P : List UInt8) (l₁ l₂ : List Event) :
    ownEvents P (l₁ ++ l₂) = ownEvents P l₁ ++ ownEvents P l₂ := List.filter_append ..

/-- Where no call is about `P`, its node stays. -/
theorem untouched_of_run (hrun : Run (SolidMove P) t evs t') (hown : ownEvents P evs = []) :
    t' P = t P := by
  induction hrun with
  | nil => rfl
  | @snoc evs u v ev _ hstep ih =>
      rw [ownEvents_append, List.append_eq_nil_iff] at hown
      have hne : ev.call.path ≠ P := by simpa [ownEvents] using hown.2
      exact (hstep.1.other hne hstep.2.2.1).trans (ih hown.1)

/-- Two runs in which the calls about `P` are the same. -/
theorem own_of_runs (hrun₁ : Run (SolidMove P) t₁ evs₁ t₁') (hrun₂ : Run (SolidMove P) t₂ evs₂ t₂')
    (heq : t₁ P = t₂ P)
    (hcalls : (ownEvents P evs₁).map Event.call = (ownEvents P evs₂).map Event.call) :
    t₁' P = t₂' P ∧
      (ownEvents P evs₁).map Event.reply = (ownEvents P evs₂).map Event.reply := by
  induction hrun₁ generalizing evs₂ t₂' with
  | nil =>
      have hown : ownEvents P evs₂ = [] := List.map_eq_nil_iff.mp hcalls.symm
      refine ⟨heq.trans (untouched_of_run hrun₂ hown).symm, ?_⟩
      rw [hown]
      rfl
  | @snoc evs u v ev _ hstep ih =>
      rw [ownEvents_append] at hcalls ⊢
      by_cases hpath : ev.call.path = P
      · -- the last call about `P` in the other run is the same one
        have hlast : ownEvents P [ev] = [ev] := by simp [ownEvents, hpath]
        rw [hlast, List.map_append] at hcalls ⊢
        obtain ⟨own, last, hown, hfirst, hsame⟩ := List.map_eq_append_iff.mp hcalls.symm
        obtain ⟨ev₂, rfl, hcall⟩ := List.map_eq_singleton_iff.mp hsame
        obtain ⟨before, rest, rfl, rfl, hrest⟩ := List.filter_eq_append_iff.mp hown
        obtain ⟨skip, after, rfl, hskip, -, hafter⟩ := List.filter_eq_cons_iff.mp hrest
        obtain ⟨u₂, hbefore, hrest₂⟩ := hrun₂.split
        obtain ⟨v₂, hskipped, hrest₂⟩ := hrest₂.split
        obtain ⟨x₂, hmove₂, hafter₂⟩ := hrest₂.of_cons
        obtain ⟨hnode, hreplies⟩ := ih hbefore hfirst.symm
        have hskip₂ : v₂ P = u₂ P :=
          untouched_of_run hskipped (List.filter_eq_nil_iff.mpr hskip)
        have hmove : TreeMove v₂ ⟨ev.call, ev₂.log, ev₂.reply⟩ x₂ := by
          rw [← hcall]
          exact hmove₂.1
        obtain ⟨hend, hreply⟩ :=
          hstep.1.own hmove hpath hstep.2 (hnode.trans hskip₂.symm)
        refine ⟨hend.trans (untouched_of_run hafter₂ hafter).symm, ?_⟩
        rw [hown, List.map_append]
        exact congrArg₂ (· ++ ·) hreplies (congrArg (fun r => [r]) hreply)
      · have hnone : ownEvents P [ev] = [] := by simp [ownEvents, hpath]
        rw [hnone, List.append_nil] at hcalls ⊢
        obtain ⟨hnode, hreplies⟩ := ih hrun₂ hcalls
        exact ⟨(hstep.1.other hpath hstep.2.2.1).trans hnode, hreplies⟩

end Own

section Runs

variable {config config₁ config₂ : TgConfig} {w₀ w w₁ w₁' w₂ w₂' : World}
  {evs evs₁ evs₂ : List Event} {P : List UInt8}

theorem solid_of_run (h0 : Initial w₀.statics) (hch : ∀ mid, w₀.channel.messages mid = none)
    (hrun : Run (SolidStep config P) w₀ evs w) : Run (SolidMove P) rootTree evs w.tree := by
  have hstep : ∀ w ev w' t, ((∃ evs, FlatInvariant evs w) ∧ w.tree = t) →
      SolidStep config P w ev w' →
      ∃ t', SolidMove P t ev t' ∧ (∃ evs, FlatInvariant evs w') ∧ w'.tree = t' := by
    rintro w ev w' t ⟨⟨evs, hinv⟩, rfl⟩ ⟨hflat, hsolid⟩
    obtain ⟨hmove, hinv'⟩ := hinv.snoc hflat
    exact ⟨w'.tree, ⟨hmove, hsolid⟩, ⟨_, hinv'⟩, rfl⟩
  obtain ⟨t, ht, -, rfl⟩ := hrun.simulate hstep ⟨⟨[], flatInvariant_nil h0 hch⟩, rfl⟩
  rwa [← initial_tree h0]

/-- What a run shows of a path and leaves there depends on the calls about that path
    alone: two runs in which these are the same, on whatever other files, with
    whatever ids and whatever in fresh memory, give the same replies to them. -/
theorem path_depends_on_own_calls (h₁ : Initial w₁.statics)
    (hch₁ : ∀ mid, w₁.channel.messages mid = none)
    (hrun₁ : Run (SolidStep config₁ P) w₁ evs₁ w₁') (h₂ : Initial w₂.statics)
    (hch₂ : ∀ mid, w₂.channel.messages mid = none)
    (hrun₂ : Run (SolidStep config₂ P) w₂ evs₂ w₂')
    (hcalls : (ownEvents P evs₁).map Event.call = (ownEvents P evs₂).map Event.call) :
    w₁'.tree P = w₂'.tree P ∧
      (ownEvents P evs₁).map Event.reply = (ownEvents P evs₂).map Event.reply :=
  own_of_runs (solid_of_run h₁ hch₁ hrun₁) (solid_of_run h₂ hch₂ hrun₂) rfl hcalls

/-- Enough for a call to be solid for `P` wherever it is made. -/
def solidCall (P : List UInt8) : Call → Bool
  | .readdir p => p ≠ P
  | .rmdir p => p ≠ parentOf P
  | .write _ _ offset => offset = 0
  | _ => true

theorem solid_of_solidCall {t : Tree (List UInt8) UInt8} {call : Call}
    (h : solidCall P call = true) : Solid P t call := by
  refine ⟨?_, ?_, ?_⟩
  · rintro rfl
    simp [solidCall] at h
  · rintro rfl
    simp [solidCall] at h
  · rintro buf offset old rfl -
    have hzero : offset = 0 := by simpa [solidCall] using h
    rw [hzero]
    exact Nat.zero_le _

/-- What a first file leaves on the server, and what then comes and goes for `"/a"`. -/
def otherTraffic : List (Request × Response) :=
  [(.sendDocument blankConfig (text "/d") (text "b") (text "y"),
      sentAnswer (text "17") (text "AAA")),
    (.sendDocument blankConfig (text "/") (text "a") (text "x"),
      sentAnswer (text "18") (text "BBB")),
    (.deleteMessage blankConfig (text "17"), deletedAnswer),
    (.getFile blankConfig (text "BBB"), locatedAnswer (text "f2")),
    (.download blankConfig (text "f2"), .whole (text "x"))]

theorem otherTraffic_served : ∃ ch, Serve Serving Channel.empty otherTraffic ch := by
  have hdoc : (((Channel.empty.post (text "17") (text "AAA") (text "y")).post (text "18")
      (text "BBB") (text "x")).remove (text "17")).documents (text "BBB") = some (text "x") := by
    rw [Channel.remove_documents, Channel.post_document]
  refine ⟨_, _, serves_sent (by decide) (by decide) (by decide) List.not_mem_nil rfl,
    _, serves_sent (by decide) (by decide) (by decide) ?_ ?_, _, serves_deleted,
    _, serves_located (by decide) hdoc (Or.inl rfl), _, serves_downloaded hdoc, rfl⟩
  · rw [Channel.FreshMessage, Channel.post_issued]
    decide
  · rw [Channel.FreshFile, Channel.post_documents, Function.update_of_ne (by decide)]
    rfl

/-- Alone, or with a directory around that is filled and removed meanwhile. -/
theorem path_depends_on_own_calls_sample :
    ∃ (w₁ w₂ : World) (evs₁ evs₂ : List Event), w₁.tree (text "/a") = w₂.tree (text "/a") ∧
      (ownEvents (text "/a") evs₁).map Event.reply = (ownEvents (text "/a") evs₂).map Event.reply ∧
      evs₁.length = 3 ∧ evs₂.length = 7 := by
  have hload := firstDownload_served
    (Channel.post_document Channel.empty (text "17") (text "AAA") (text "x")) (Or.inl rfl)
  obtain ⟨ch, hserve⟩ := otherTraffic_served
  obtain ⟨v₁, evs₁, w₁, h₁, hch₁, ⟨hown₁, hlen₁⟩, hrun₁⟩ := flatRun_of_runFromMain
    (solidCall (text "/a"))
    [(.create (text "/a"), []),
      (.write (text "/a") (text "x") 0, [sentAnswer (text "17") (text "AAA")]),
      (.read (text "/a") 5 0, [locatedAnswer (text "f1"), .whole (text "x")])]
    (firstUpload (text "x") ++ firstDownload (text "x"))
    (fun evs => (ownEvents (text "/a") evs).map Event.call =
      [.create (text "/a"), .write (text "/a") (text "x") 0, .read (text "/a") 5 0] ∧
        evs.length = 3)
    (by decide +kernel) (serve_append.mpr ⟨_, firstUpload_served _, hload⟩)
  obtain ⟨v₂, evs₂, w₂, h₂, hch₂, ⟨hown₂, hlen₂⟩, hrun₂⟩ := flatRun_of_runFromMain
    (solidCall (text "/a"))
    [(.mkdir (text "/d"), []), (.create (text "/d/b"), []),
      (.write (text "/d/b") (text "y") 0, [sentAnswer (text "17") (text "AAA")]),
      (.create (text "/a"), []),
      (.write (text "/a") (text "x") 0, [sentAnswer (text "18") (text "BBB")]),
      (.rmdir (text "/d"), [deletedAnswer]),
      (.read (text "/a") 5 0, [locatedAnswer (text "f2"), .whole (text "x")])]
    otherTraffic
    (fun evs => (ownEvents (text "/a") evs).map Event.call =
      [.create (text "/a"), .write (text "/a") (text "x") 0, .read (text "/a") 5 0] ∧
        evs.length = 7)
    (by decide +kernel) hserve
  have hsolid₁ : Run (SolidStep blankConfig (text "/a")) v₁ evs₁ w₁ :=
    hrun₁.mono fun _ _ _ h => ⟨h.1, solid_of_solidCall h.2⟩
  have hsolid₂ : Run (SolidStep blankConfig (text "/a")) v₂ evs₂ w₂ :=
    hrun₂.mono fun _ _ _ h => ⟨h.1, solid_of_solidCall h.2⟩
  obtain ⟨hnode, hreplies⟩ := path_depends_on_own_calls h₁ hch₁ hsolid₁ h₂ hch₂ hsolid₂
    (hown₁.trans hown₂.symm)
  exact ⟨w₁, w₂, evs₁, evs₂, hnode, hreplies, hlen₁, hlen₂⟩

end Runs

end TgFuse

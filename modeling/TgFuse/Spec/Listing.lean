/-
  TgFuse.Spec.Listing

  Listing against lookup: for which directories the names `hello_readdir` passes
  on are those that `hello_getattr` finds in it.

  Lookup compares whole paths.  The listing takes the entries whose first
  component is the directory, and shows the text after their last slash.
-/

import TgFuse.Spec.Paths
import TgFuse.Spec.Uniqueness

namespace TgFuse

open CString Interact KeyedList Lts

-- ============================================================================
-- The property
-- ============================================================================

/-- `hello_getattr(p)` succeeds. -/
def Found (s : Statics) (p : List UInt8) : Prop :=
  ∀ log o s', Exec receive (helloGetattr p) s log o s' → ∃ st, o = some (0, st)

/-- `hello_readdir(d)` runs to its end, and the names it passes on besides `"."`
    and `".."` are those of the entries in `d`, each once. -/
def ListingAgrees (s : Statics) (d : List UInt8) : Prop :=
  ∃ names : List (List UInt8),
    (∀ log o s', Exec receive (helloReaddir d) s log o s' →
      o = some (0, text "." :: text ".." :: names)) ∧
    names.Nodup ∧ ∀ n, n ∈ names ↔ n ≠ [] ∧ slash ∉ n ∧ Found s (join d n)

/-- What the kernel guarantees of the calls that build a tree: `create` and
    `mkdir` are for new names in existing directories. -/
def TreeCall (st : TgStorage) : Call → Prop
  | .create p | .mkdir p => ProperPath p ∧ st.lookup p = none ∧
      ∃ d ∈ st.lookup (parentOf p), d.type = .tgDir
  | .write p _ _ | .unlink p => ProperPath p
  | _ => False

instance (st : TgStorage) : (call : Call) → Decidable (TreeCall st call)
  | .create p | .mkdir p => inferInstanceAs (Decidable (ProperPath p ∧ st.lookup p = none ∧
      ∃ d ∈ st.lookup (parentOf p), d.type = .tgDir))
  | .write p _ _ | .unlink p => inferInstanceAs (Decidable (ProperPath p))
  | .getattr _ | .rmdir _ | .readdir _ | .open _ | .read .. | .setxattr _ | .utimens _ =>
      inferInstanceAs (Decidable False)

/-- A completed call of that kind. -/
def TreeStep (config : TgConfig) (s : Statics) (ev : Event) (s' : Statics) : Prop :=
  Step config s ev s' ∧ TreeCall s.storage ev.call

/-- The directories whose listing is right: `"/"`, a directory of one component
    with nothing but its own entries below it, and a deeper one without any. -/
def ListsRight (st : TgStorage) (d : List UInt8) : Prop :=
  d = [slash] ∨
    (dirOf d = [slash] ∧ ∀ f ∈ st.live, Below d f.pathStr → parentOf f.pathStr = d) ∨
    (dirOf d ≠ [slash] ∧ ∀ f ∈ st.live, parentOf f.pathStr ≠ d)

instance (st : TgStorage) (d : List UInt8) : Decidable (ListsRight st d) :=
  inferInstanceAs (Decidable (_ ∨ (_ ∧ ∀ f ∈ st.live, Below d f.pathStr →
    parentOf f.pathStr = d) ∨ (_ ∧ ∀ f ∈ st.live, parentOf f.pathStr ≠ d)))

-- ============================================================================
-- Trees
-- ============================================================================

/-- A table of distinct paths, all of them proper but for the root. -/
structure TgStorage.Tree (st : TgStorage) : Prop extends st.Wf where
  distinct : Distinct TgFile.pathStr st.live
  proper : ∀ f ∈ st.live, f.pathStr = [slash] ∨ ProperPath f.pathStr

variable {config : TgConfig} {s s' : Statics} {ev : Event} {d : List UInt8}

theorem text_root : text "/" = [slash] := by decide

theorem TreeCall.path {st : TgStorage} {call : Call} (h : TreeCall st call) :
    ProperPath call.path ∧ KeepsPaths st call := by
  cases call with
  | create p => exact ⟨h.1, fun f hl => by rw [h.2.1] at hl; cases hl⟩
  | mkdir p => exact ⟨h.1, h.2.1⟩
  | write p buf offset => exact ⟨h, trivial⟩
  | unlink p =>
      refine ⟨h, fun hroot => ?_⟩
      have hp : ProperPath p := h
      exact absurd (by rw [hroot]; decide) hp.noTrailing
  | _ => exact h.elim

theorem tree_step (ht : s.storage.Tree) (hstep : TreeStep config s ev s') : s'.storage.Tree := by
  obtain ⟨hstep, hcall⟩ := hstep
  obtain ⟨hproper, hkeeps⟩ := hcall.path
  have htab := step_table ht.toWf hproper.toValidPath hstep
  refine ⟨htab.wf ht.toWf, htab.distinct ht.toWf ht.distinct hproper.toValidPath hkeeps, ?_⟩
  intro f hf
  by_cases hmk : ev.call.Makes f.pathStr
  · right
    obtain ⟨call, log, reply⟩ := ev
    cases call with
    | create p | mkdir p =>
        have hpath : p = f.pathStr := hmk
        exact hpath ▸ hproper
    | write p buf offset =>
        have hpath : p = f.pathStr := hmk
        exact hpath ▸ hproper
    | _ => exact hmk.elim
  · cases hl : s.storage.lookup f.pathStr with
    | none =>
        have := htab.lookup_none_of_not_makes ht.toWf hproper.toValidPath hl hmk
        exact absurd rfl (lookup_none.mp this f hf)
    | some g =>
        obtain ⟨hg, hpath⟩ := lookup_some hl
        have := ht.proper g hg
        rwa [hpath] at this

theorem reachable_tree {s₀ : Statics} {evs : List Event} (h0 : Initial s₀)
    (hrun : Run (TreeStep config) s₀ evs s) : s.storage.Tree := by
  refine hrun.invariant (P := fun _ t => t.storage.Tree) ?_
    fun _ _ _ _ _ ht hstep => tree_step ht hstep
  obtain ⟨hwf, hlive, -⟩ := initial_live h0
  refine ⟨hwf, initial_distinct h0, fun f hf => Or.inl ?_⟩
  rw [hlive, List.mem_singleton] at hf
  rw [hf, newDir_pathStr validPath_root, text_root]

-- ============================================================================
-- The two views
-- ============================================================================

/-- The entries that lie in `d`. -/
def childOf (d : List UInt8) (f : TgFile) : Bool :=
  decide (f.pathStr ≠ [slash] ∧ parentOf f.pathStr = d)

theorem childOf_iff {f : TgFile} :
    childOf d f = true ↔ f.pathStr ≠ [slash] ∧ parentOf f.pathStr = d := by simp [childOf]

theorem found_iff {p : List UInt8} (hne : p ≠ [slash]) :
    Found s p ↔ ∃ f ∈ s.storage.live, f.pathStr = p := by
  have hroot : p ≠ text "/" := text_root ▸ hne
  constructor
  · intro h
    obtain ⟨st, hst⟩ := h _ _ _ (exec_helloGetattr.mpr ⟨rfl, rfl, rfl⟩)
    cases hl : s.storage.lookup p with
    | none =>
        rw [getattrReply, if_neg hroot, hl] at hst
        have hret : -enoent = (0 : Int) := congrArg Prod.fst (Option.some.inj hst)
        exact absurd hret (by decide)
    | some f => exact ⟨f, lookup_some hl⟩
  · rintro ⟨f, hf, rfl⟩ log o s' h
    obtain ⟨-, rfl, -⟩ := exec_helloGetattr.mp h
    obtain ⟨g, hg⟩ := lookup_isSome_of_mem hf
    rw [getattrReply, if_neg hroot, hg]
    exact ⟨_, rfl⟩

/-- Lookup finds exactly the base names of the entries in the directory. -/
theorem mem_children_iff (ht : s.storage.Tree) (hd : d ≠ []) {n : List UInt8} :
    n ∈ (s.storage.live.filter (childOf d)).map (fun f => baseOf f.pathStr) ↔
      n ≠ [] ∧ slash ∉ n ∧ Found s (join d n) := by
  rw [List.mem_map]
  constructor
  · rintro ⟨f, hf, rfl⟩
    obtain ⟨hmem, hchild⟩ := List.mem_filter.mp hf
    obtain ⟨hne, hparent⟩ := childOf_iff.mp hchild
    have hproper := (ht.proper f hmem).resolve_left hne
    obtain ⟨-, -, -, hbase⟩ := hproper.split
    refine ⟨hbase, slash_notMem_baseOf _, ?_⟩
    rw [← hparent, hproper.join_parts]
    exact (found_iff hne).mpr ⟨f, hmem, rfl⟩
  · rintro ⟨hn, hs, hfound⟩
    have hroot := join_ne_root (d := d) hn
    obtain ⟨f, hmem, hpath⟩ := (found_iff hroot).mp hfound
    obtain ⟨hparent, hbase⟩ := join_parts hd hs
    refine ⟨f, List.mem_filter.mpr ⟨hmem, childOf_iff.mpr ⟨?_, ?_⟩⟩, ?_⟩
    · rw [hpath]
      exact hroot
    · rw [hpath, hparent]
    · rw [hpath, hbase]

/-- Entries in one directory have different names. -/
theorem children_nodup (ht : s.storage.Tree) :
    ((s.storage.live.filter (childOf d)).map fun f => baseOf f.pathStr).Nodup := by
  have hnd : s.storage.live.Nodup := List.Nodup.of_map _ ht.distinct
  refine List.Nodup.map_on ?_ (hnd.filter _)
  intro f hf g hg hbase
  obtain ⟨hfm, hfc⟩ := List.mem_filter.mp hf
  obtain ⟨hgm, hgc⟩ := List.mem_filter.mp hg
  obtain ⟨hfn, hfp⟩ := childOf_iff.mp hfc
  obtain ⟨hgn, hgp⟩ := childOf_iff.mp hgc
  refine ht.distinct.eq_of_key hfm hgm ?_
  rw [← ((ht.proper f hfm).resolve_left hfn).join_parts,
    ← ((ht.proper g hgm).resolve_left hgn).join_parts, hfp, hgp, hbase]

/-- The listing is right exactly if it is the list of the entries in `d`. -/
theorem listingAgrees_iff (ht : s.storage.Tree) (hd : d ≠ []) {e : TgFile}
    (hl : s.storage.lookup d = some e) (he : e.type = .tgDir) :
    ListingAgrees s d ↔ (listing d s.storage).Nodup ∧
      ∀ n, n ∈ listing d s.storage ↔
        n ∈ (s.storage.live.filter (childOf d)).map fun f => baseOf f.pathStr := by
  have hex : ∃ f, s.storage.lookup d = some f ∧ f.type = .tgDir := ⟨e, hl, he⟩
  constructor
  · rintro ⟨names, hexec, hnd, hmem⟩
    have hnames := hexec _ _ _ ((exec_helloReaddir ht.toWf).mpr ⟨rfl, rfl, rfl⟩)
    rw [if_pos hex] at hnames
    have heq : names = listing d s.storage := by simpa using hnames.symm
    rw [← heq]
    exact ⟨hnd, fun n => (hmem n).trans (mem_children_iff ht hd).symm⟩
  · rintro ⟨hnd, hmem⟩
    refine ⟨listing d s.storage, fun log o s' h => ?_, hnd,
      fun n => (hmem n).trans (mem_children_iff ht hd)⟩
    obtain ⟨-, -, ho⟩ := (exec_helloReaddir ht.toWf).mp h
    rw [ho, if_pos hex]

-- ============================================================================
-- When they agree
-- ============================================================================

/-- Where the two tests agree, so do the views. -/
theorem listing_of_congr (ht : s.storage.Tree)
    (h : ∀ f ∈ s.storage.live, inDir d f = childOf d f) :
    (listing d s.storage).Nodup ∧ ∀ n, n ∈ listing d s.storage ↔
      n ∈ (s.storage.live.filter (childOf d)).map fun f => baseOf f.pathStr := by
  have heq : listing d s.storage
      = (s.storage.live.filter (childOf d)).map fun f => baseOf f.pathStr := by
    rw [listing, List.filter_congr h]
  rw [heq]
  exact ⟨children_nodup ht, fun n => Iff.rfl⟩

/-- What lies in a directory is below it. -/
theorem below_of_childOf (ht : s.storage.Tree) (hroot : d ≠ [slash]) {f : TgFile}
    (hf : f ∈ s.storage.live) (h : childOf d f = true) : Below d f.pathStr := by
  obtain ⟨hne, hparent⟩ := childOf_iff.mp h
  exact below_of_parentOf ((ht.proper f hf).resolve_left hne) hroot hparent

theorem childOf_of_parentOf (hroot : d ≠ [slash]) {f : TgFile} (h : parentOf f.pathStr = d) :
    childOf d f = true := by
  refine childOf_iff.mpr ⟨fun hpath => ?_, h⟩
  rw [hpath] at h
  exact hroot (by rw [← h]; decide)

/-- The root lists what lies in it. -/
theorem listing_root (ht : s.storage.Tree) :
    (listing [slash] s.storage).Nodup ∧ ∀ n, n ∈ listing [slash] s.storage ↔
      n ∈ (s.storage.live.filter (childOf [slash])).map fun f => baseOf f.pathStr := by
  refine listing_of_congr ht fun f hf => ?_
  rw [Bool.eq_iff_iff, inDir_iff, childOf_iff]
  refine and_congr_right fun hne => ?_
  exact dirOf_root_iff ((ht.proper f hf).resolve_left hne)

/-- A directory of one component lists everything below it. -/
theorem listing_component_iff (ht : s.storage.Tree) (hd : ProperPath d) (hone : dirOf d = [slash])
    (hroot : d ≠ [slash]) :
    ((listing d s.storage).Nodup ∧ ∀ n, n ∈ listing d s.storage ↔
      n ∈ (s.storage.live.filter (childOf d)).map fun f => baseOf f.pathStr) ↔
      ∀ f ∈ s.storage.live, Below d f.pathStr → parentOf f.pathStr = d := by
  have hin : ∀ f ∈ s.storage.live, inDir d f = true ↔ Below d f.pathStr := by
    intro f hf
    rw [inDir_iff]
    constructor
    · rintro ⟨-, hdir⟩
      exact below_of_dirOf (ht.named f hf).valid hroot hdir
    · intro hb
      exact ⟨fun h => not_below_self d (h ▸ hb), dirOf_of_below hd hone hb⟩
  constructor
  · rintro ⟨hnd, hmem⟩ f hf hb
    -- its name stands for an entry in `d`, which is listed as well
    have hfl : f ∈ s.storage.live.filter (inDir d) :=
      List.mem_filter.mpr ⟨hf, (hin f hf).mpr hb⟩
    obtain ⟨g, hg, hbase⟩ := List.mem_map.mp ((hmem _).mp (List.mem_map_of_mem hfl))
    obtain ⟨hgm, hgc⟩ := List.mem_filter.mp hg
    have hgl : g ∈ s.storage.live.filter (inDir d) :=
      List.mem_filter.mpr ⟨hgm, (hin g hgm).mpr (below_of_childOf ht hroot hgm hgc)⟩
    obtain rfl := List.inj_on_of_nodup_map hnd hgl hfl hbase
    exact (childOf_iff.mp hgc).2
  · intro hall
    refine listing_of_congr ht fun f hf => ?_
    rw [Bool.eq_iff_iff, hin f hf]
    exact ⟨fun hb => childOf_of_parentOf hroot (hall f hf hb), below_of_childOf ht hroot hf⟩

/-- Nothing is filed under a directory of more components. -/
theorem listing_deeper_iff (ht : s.storage.Tree) (hone : dirOf d ≠ [slash]) (hroot : d ≠ [slash]) :
    ((listing d s.storage).Nodup ∧ ∀ n, n ∈ listing d s.storage ↔
      n ∈ (s.storage.live.filter (childOf d)).map fun f => baseOf f.pathStr) ↔
      ∀ f ∈ s.storage.live, parentOf f.pathStr ≠ d := by
  have hempty : listing d s.storage = [] := by
    rw [listing, List.map_eq_nil_iff, List.filter_eq_nil_iff]
    intro f hf h
    have hdir := (inDir_iff.mp h).2
    exact hone (by rw [← hdir]; exact dirOf_dirOf (ht.named f hf).valid)
  rw [hempty]
  constructor
  · rintro ⟨-, hmem⟩ f hf h
    have hlisted := (hmem _).mpr
      (List.mem_map_of_mem (List.mem_filter.mpr ⟨hf, childOf_of_parentOf hroot h⟩))
    exact List.not_mem_nil hlisted
  · intro hall
    have hnone : s.storage.live.filter (childOf d) = [] := by
      rw [List.filter_eq_nil_iff]
      intro f hf h
      exact hall f hf (childOf_iff.mp h).2
    rw [hnone]
    exact ⟨List.nodup_nil, fun n => Iff.rfl⟩

theorem listsRight_iff (ht : s.storage.Tree) (hd : d = [slash] ∨ ProperPath d) :
    ((listing d s.storage).Nodup ∧ ∀ n, n ∈ listing d s.storage ↔
      n ∈ (s.storage.live.filter (childOf d)).map fun f => baseOf f.pathStr) ↔
      ListsRight s.storage d := by
  rcases hd with rfl | hd
  · exact ⟨fun _ => Or.inl rfl, fun _ => listing_root ht⟩
  have hroot : d ≠ [slash] := by
    rintro rfl
    exact absurd hd.noTrailing (by decide)
  by_cases hone : dirOf d = [slash]
  · rw [listing_component_iff ht hd hone hroot]
    constructor
    · exact fun hall => Or.inr (Or.inl ⟨hone, hall⟩)
    · rintro (h | ⟨-, hall⟩ | ⟨h, -⟩)
      · exact absurd h hroot
      · exact hall
      · exact absurd hone h
  · rw [listing_deeper_iff ht hone hroot]
    constructor
    · exact fun hall => Or.inr (Or.inr ⟨hone, hall⟩)
    · rintro (h | ⟨h, -⟩ | ⟨-, hall⟩)
      · exact absurd h hroot
      · exact absurd h hone
      · exact hall

/-- In every reachable state, the listing of a directory agrees with lookup exactly
    if the directory is `"/"`, or is of one component and has nothing two levels
    below it, or is deeper and has nothing in it. -/
theorem listing_agrees_iff {s₀ : Statics} {evs : List Event} (h0 : Initial s₀)
    (hrun : Run (TreeStep config) s₀ evs s) {e : TgFile} (hl : s.storage.lookup d = some e)
    (he : e.type = .tgDir) : ListingAgrees s d ↔ ListsRight s.storage d := by
  have ht := reachable_tree h0 hrun
  obtain ⟨hmem, hpath⟩ := lookup_some hl
  have hd : d = [slash] ∨ ProperPath d := hpath ▸ ht.proper e hmem
  have hne : d ≠ [] := hpath ▸ (ht.named e hmem).valid.ne_nil
  rw [listingAgrees_iff ht hne hl he, listsRight_iff ht hd]

/-- A directory with a file in it. -/
theorem listing_agrees_iff_sample : ∃ s, ListingAgrees s (text "/d") ∧
    (s.storage.lookup (text "/d/a")).isSome := by
  obtain ⟨s₀, evs, s, h0, ⟨htype, hright, hfile⟩, hrun⟩ := run_of_runFromMain
    (fun s call => TreeCall s.storage call)
    [(.mkdir (text "/d"), []), (.create (text "/d/a"), [])]
    (fun _ s => (s.storage.lookup (text "/d")).map TgFile.type = some .tgDir ∧
      ListsRight s.storage (text "/d") ∧ (s.storage.lookup (text "/d/a")).isSome = true)
    (by decide +kernel)
  obtain ⟨e, hl, he⟩ := Option.map_eq_some_iff.mp htype
  exact ⟨s, (listing_agrees_iff h0
    (hrun.mono fun t e u ⟨hstep, hok⟩ => ⟨hstep, of_decide_eq_true hok⟩) hl he).mpr hright, hfile⟩

/-- A directory in a directory: the listing of the outer one shows the name of a
    file of the inner one. -/
theorem nested_directory_listed_wrong :
    ¬ ∀ (config : TgConfig) (s₀ s : Statics) (evs : List Event) (d : List UInt8) (e : TgFile),
      Initial s₀ → Run (TreeStep config) s₀ evs s → s.storage.lookup d = some e →
      e.type = .tgDir → ListingAgrees s d := by
  intro hall
  obtain ⟨s₀, evs, s, h0, ⟨htype, hres, hfound⟩, hrun⟩ := run_of_runFromMain
    (fun s call => TreeCall s.storage call)
    [(.mkdir (text "/d"), []), (.mkdir (text "/d/e"), []), (.create (text "/d/e/a"), [])]
    (fun _ s => (s.storage.lookup (text "/d")).map TgFile.type = some .tgDir ∧
      (run receive (helloReaddir (text "/d")) s fun _ => deletedAnswer).result
        = some (0, [text ".", text "..", text "e", text "a"]) ∧
      (run receive (helloGetattr (text "/d/a")) s fun _ => deletedAnswer).result.map Prod.fst
        = some (-enoent))
    (by decide +kernel)
  obtain ⟨e, hl, he⟩ := Option.map_eq_some_iff.mp htype
  obtain ⟨names, hnames, -, hmem⟩ := hall blankConfig s₀ s evs _ e h0
    (hrun.mono fun t e u ⟨hstep, hok⟩ => ⟨hstep, of_decide_eq_true hok⟩) hl he
  have hlist := hnames _ _ _ (exec_run receive (helloReaddir (text "/d")) s fun _ => deletedAnswer)
  rw [hres] at hlist
  have heq : names = [text "e", text "a"] := by simpa using hlist.symm
  have hget : Found s (join (text "/d") (text "a")) :=
    ((hmem (text "a")).mp (by rw [heq]; decide)).2.2
  have hjoin : join (text "/d") (text "a") = text "/d/a" := by decide
  rw [hjoin] at hget
  obtain ⟨st, hst⟩ := hget _ _ _
    (exec_run receive (helloGetattr (text "/d/a")) s fun _ => deletedAnswer)
  rw [hst] at hfound
  have hret : (0 : Int) = -enoent := Option.some.inj hfound
  exact absurd hret (by decide)

end TgFuse

/-
  TgFuse.Spec.Rmdir

  What `hello_rmdir` should remove, and when it does.

  Its loop goes on behind the slot it has just vacated, where the last entry of
  the table has moved in, so that entry is not looked at again; and it finds the
  entries of a directory by the first component of their path.
-/

import TgFuse.Effect.Step
import TgFuse.Spec.Answers
import TgFuse.Spec.Paths

namespace TgFuse

open CString Interact KeyedList SwapSweep Lts

-- ============================================================================
-- Directories
-- ============================================================================

/-- Every entry but `"/"` lies in a directory that has an entry. -/
def TgStorage.InDirectories (st : TgStorage) : Prop :=
  ∀ f ∈ st.live, f.pathStr ≠ text "/" →
    ∃ d ∈ st.live, d.type = .tgDir ∧ d.pathStr = parentOf f.pathStr

instance (st : TgStorage) : Decidable st.InDirectories :=
  inferInstanceAs (Decidable (∀ f ∈ st.live, f.pathStr ≠ text "/" →
    ∃ d ∈ st.live, d.type = .tgDir ∧ d.pathStr = parentOf f.pathStr))

-- ============================================================================
-- The property
-- ============================================================================

/-- The entry is the directory `d` or lies below it. -/
def inTree (d : List UInt8) (f : TgFile) : Bool := decide (f.pathStr = d ∨ Below d f.pathStr)

/-- The directory `d` has been removed with everything below it and nothing else,
    and the messages of its non-empty files have been deleted, each once. -/
structure RemovesDir (config : TgConfig) (d : List UInt8) (s : Statics)
    (log : List (Request × Response)) (s' : Statics) : Prop where
  gone : ∀ f ∈ s'.storage.live, f.pathStr ≠ d ∧ ¬ Below d f.pathStr
  rest : s'.storage.live.Perm (s.storage.live.filter fun f => ¬ inTree d f)
  deletes : (log.map Prod.fst).Perm
    ((s.storage.live.filter fun f => inTree d f ∧ f.type = .tgFile ∧ f.fileSize > 0).map
      fun f => .deleteMessage config f.messageIdStr)

/-- Everything below `d` is filed under `d`, and behind the last of these entries
    stand at least as many others as there are further ones of them. -/
def SweepsAll (st : TgStorage) (d : List UInt8) : Prop :=
  (∀ f ∈ st.live, Below d f.pathStr → dirOf f.pathStr = d) ∧ Layout (inDir d) 0 st.live

instance (st : TgStorage) (d : List UInt8) : Decidable (SweepsAll st d) :=
  inferInstanceAs (Decidable (_ ∧ _))

-- ============================================================================
-- When rmdir has it
-- ============================================================================

variable {config : TgConfig} {s s' : Statics} {log : List (Request × Response)}
  {d : List UInt8} {f : TgFile}

/-- How `hello_rmdir` splits the table: what the loop takes out, the directory
    itself, and the rest. -/
structure RmdirSplit (st : TgStorage) (d : List UInt8) (f : TgFile) (out left : List TgFile) :
    Prop where
  visited : (rmdirVisited d st).map Prod.fst = out
  perm : st.live.Perm (out ++ left)
  rest : left.Perm (f :: (rmdirTable d st).live)
  filed : ∀ g ∈ out, inDir d g = true
  apart : ∀ g ∈ (rmdirTable d st).live, g.pathStr ≠ d

theorem rmdir_split (hwf : s.storage.Wf) (hd : Distinct TgFile.pathStr s.storage.live)
    (hl : s.storage.lookup d = some f) :
    RmdirSplit s.storage d f (sweep (inDir d) (s.storage.size + 1) 0 s.storage.live).1
      (sweep (inDir d) (s.storage.size + 1) 0 s.storage.live).2 := by
  obtain ⟨hvis, hleft, hwf'⟩ := rmdirSweep_eq d hwf hd (s.storage.size + 1) 0
  generalize hO : (sweep (inDir d) (s.storage.size + 1) 0 s.storage.live).1 = out at *
  generalize hL : (sweep (inDir d) (s.storage.size + 1) 0 s.storage.live).2 = left at *
  have hperm : s.storage.live.Perm (out ++ left) := by
    rw [← hO, ← hL]
    exact sweep_perm _ _ _
  have hout : ∀ g ∈ out, inDir d g = true := by
    rw [← hO]
    exact sweep_removed _ _ _
  obtain ⟨hmem, hpath⟩ := lookup_some hl
  have hdl : Distinct TgFile.pathStr left := by
    have hall := hd.perm hperm
    rw [Distinct, List.map_append] at hall
    exact hall.of_append_right
  have hfl : f ∈ left := by
    rcases List.mem_append.mp (hperm.subset hmem) with h | h
    · exact absurd hpath (inDir_iff.mp (hout f h)).1
    · exact h
  have hlook : (rmdirSweep d (s.storage.size + 1) 0 s.storage).2.lookup d = some f := by
    rw [← hpath] at hleft ⊢
    exact lookup_of_mem (by rw [hleft]; exact hdl) (by rw [hleft]; exact hfl)
  have hrest : left.Perm (f :: (rmdirTable d s.storage).live) := by
    rw [← hleft]
    exact without_perm hwf'.valid hlook
  refine ⟨?_, hperm, hrest, hout, ?_⟩
  · rw [rmdirVisited, hvis, List.map_map]
    exact List.map_id _
  · intro g hg
    have hne := (distinct_cons.mp (hdl.perm hrest)).1 g hg
    rwa [hpath] at hne

section Split

variable {st : TgStorage} {out left : List TgFile}

/-- The table, its parts in the order in which they leave. -/
theorem RmdirSplit.live_perm (h : RmdirSplit st d f out left) :
    st.live.Perm (out ++ f :: (rmdirTable d st).live) :=
  h.perm.trans (h.rest.append_left out)

theorem RmdirSplit.out_live (h : RmdirSplit st d f out left) {g : TgFile} (hg : g ∈ out) :
    g ∈ st.live :=
  h.perm.symm.subset (List.mem_append_left _ hg)

theorem RmdirSplit.left_live (h : RmdirSplit st d f out left) {g : TgFile} (hg : g ∈ left) :
    g ∈ st.live :=
  h.perm.symm.subset (List.mem_append_right _ hg)

/-- What the loop takes out lies below the directory. -/
theorem RmdirSplit.out_inTree (h : RmdirSplit st d f out left) (hwf : st.Wf)
    (hroot : d ≠ text "/") {g : TgFile} (hg : g ∈ out) : inTree d g = true :=
  decide_eq_true (Or.inr (below_of_dirOf (hwf.named g (h.out_live hg)).valid hroot
    (inDir_iff.mp (h.filed g hg)).2))

/-- Nothing below the directory is left exactly if everything below it is filed
    under it and the loop has taken out all that is. -/
theorem RmdirSplit.gone_iff (h : RmdirSplit st d f out left) (hwf : st.Wf) (hroot : d ≠ text "/")
    (hpath : f.pathStr = d) :
    (∀ g ∈ (rmdirTable d st).live, g.pathStr ≠ d ∧ ¬ Below d g.pathStr) ↔
      (∀ g ∈ st.live, Below d g.pathStr → dirOf g.pathStr = d) ∧
        ∀ g ∈ left, inDir d g = false := by
  constructor
  · intro hgone
    refine ⟨fun g hg hb => ?_, fun g hg => ?_⟩
    · rcases List.mem_append.mp (h.live_perm.subset hg) with hg | hg
      · exact (inDir_iff.mp (h.filed g hg)).2
      · rcases List.mem_cons.mp hg with rfl | hg
        · rw [hpath] at hb
          exact absurd hb (not_below_self d)
        · exact absurd hb (hgone g hg).2
    · by_contra hin
      have hin : inDir d g = true := by simpa using hin
      rcases List.mem_cons.mp (h.rest.subset hg) with rfl | hrest
      · exact (inDir_iff.mp hin).1 hpath
      · exact (hgone g hrest).2 (below_of_dirOf (hwf.named g (h.left_live hg)).valid hroot
          (inDir_iff.mp hin).2)
  · rintro ⟨hfiled, hclean⟩ g hg
    have hgl : g ∈ left := h.rest.symm.subset (List.mem_cons_of_mem _ hg)
    refine ⟨h.apart g hg, fun hb => ?_⟩
    have hin : inDir d g = true :=
      inDir_iff.mpr ⟨h.apart g hg, hfiled g (h.left_live hgl) hb⟩
    rw [hclean g hgl] at hin
    cases hin

/-- Selecting from the table what the loop took out and the rest do not share. -/
theorem RmdirSplit.filter_perm (h : RmdirSplit st d f out left) {P : TgFile → Bool}
    {chosen rest : List TgFile} (hout : out.filter P = chosen) (hf : P f = false)
    (hrest : (rmdirTable d st).live.filter P = rest) :
    (st.live.filter P).Perm (chosen ++ rest) := by
  refine (h.live_perm.filter P).trans ?_
  rw [List.filter_append, hout, List.filter_cons_of_neg (by simp [hf]), hrest]

end Split

/-- For every table that can arise and has distinct paths: `hello_rmdir` runs to
    its end, and it removes just the directory exactly if the layout allows it. -/
theorem removesDir_iff (hwf : s.storage.Wf) (hdirs : s.storage.PlainDirs)
    (hd : Distinct TgFile.pathStr s.storage.live) (hl : s.storage.lookup d = some f)
    (hf : f.type = .tgDir) (hroot : d ≠ text "/") {o : Option Int}
    (he : Exec receive (helloRmdir config d) s log o s') (hlog : ∀ e ∈ log, e.2.Settled) :
    o = some 0 ∧ (RemovesDir config d s log s' ↔ SweepsAll s.storage d) := by
  obtain ⟨res, rfl⟩ := exec_helloRmdir_completes hwf he hlog
  rcases (exec_helloRmdir hwf).mp he with ⟨hno, -⟩ | ⟨f', b, hl', -, hdel, rfl, rfl⟩
  · rw [hno f hl] at hf
    cases hf
  rw [hl] at hl'
  cases hl'
  refine ⟨rfl, ?_⟩
  obtain ⟨hmem, hpath⟩ := lookup_some hl
  have hcomplete : (∀ g ∈ (sweep (inDir d) (s.storage.size + 1) 0 s.storage.live).2,
      inDir d g = false) ↔ Layout (inDir d) 0 s.storage.live := by
    refine sweep_complete_iff ?_
    have := hwf.valid.length_live
    omega
  have hsplit := rmdir_split hwf hd hl
  generalize (sweep (inDir d) (s.storage.size + 1) 0 s.storage.live).1 = out at hsplit
  generalize (sweep (inDir d) (s.storage.size + 1) 0 s.storage.live).2 = left at hsplit hcomplete
  have hiff := hsplit.gone_iff hwf hroot hpath
  rw [hcomplete] at hiff
  constructor
  · exact fun h => hiff.mp h.gone
  · intro hall
    have hgone := hiff.mpr hall
    have hfTree : inTree d f = true := decide_eq_true (Or.inl hpath)
    have hrestTree : ∀ g ∈ (rmdirTable d s.storage).live, inTree d g = false := fun g hg =>
      decide_eq_false fun h => h.elim (hgone g hg).1 (hgone g hg).2
    refine ⟨hgone, ?_, ?_⟩
    · have hperm := hsplit.filter_perm (P := fun g => decide ¬ inTree d g = true)
        (List.filter_eq_nil_iff.mpr fun g hg => by simp [hsplit.out_inTree hwf hroot hg])
        (by simp [hfTree]) (List.filter_eq_self.mpr fun g hg => by simp [hrestTree g hg])
      exact hperm.symm
    · rw [hdel.requests, hsplit.visited]
      refine List.Perm.map _ ?_
      have hfiles : ∀ g ∈ s.storage.live, g.fileSize > 0 → g.type = .tgFile := by
        intro g hg hpos
        by_contra hdir
        have hg0 := hdirs g hg (by cases h : g.type <;> simp_all)
        rw [hg0] at hpos
        exact absurd hpos (Nat.lt_irrefl 0)
      have hout : out.filter (fun g => decide (inTree d g = true ∧ g.type = .tgFile ∧
          g.fileSize > 0)) = out.filter fun g => decide (g.fileSize > 0) := by
        refine List.filter_congr fun g hg => ?_
        by_cases hpos : g.fileSize > 0
        · simp [hsplit.out_inTree hwf hroot hg, hfiles g (hsplit.out_live hg) hpos]
        · simp [hpos]
      have hperm := hsplit.filter_perm hout (by simp [hf])
        (List.filter_eq_nil_iff.mpr fun g hg => by simp [hrestTree g hg])
      rw [List.append_nil] at hperm
      exact hperm.symm

end TgFuse

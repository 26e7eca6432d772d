/-
  TgFuse.Spec.Paths

  Paths as the kernel sees them: a name in a directory.  The program has two
  readings of its own, `dirOf` (the first component, the tag a file is stored
  under) and `baseOf` (the text after the last slash).
-/

import TgFuse.Model.TgFile

namespace TgFuse

open CString

/-- `p` begins with `d` and a slash. -/
def Below (d p : List UInt8) : Prop := d ++ [slash] <+: p

instance (d p : List UInt8) : Decidable (Below d p) :=
  inferInstanceAs (Decidable (d ++ [slash] <+: p))

/-- The path before the last slash, `"/"` where nothing stands there. -/
def parentOf (p : List UInt8) : List UInt8 :=
  let q := p.take (p.length - ((baseOf p).length + 1))
  if q = [] then [slash] else q

/-- `d` joined with the name `n`. -/
def join (d n : List UInt8) : List UInt8 :=
  if d = [slash] then slash :: n else d ++ slash :: n

/-- An absolute path other than `"/"`, without empty components. -/
structure ProperPath (p : List UInt8) : Prop extends ValidPath p where
  noEmpty : ¬ [slash, slash] <:+: p
  noTrailing : p.getLast? ≠ some slash

theorem properPath_iff {p : List UInt8} :
    ProperPath p ↔ ValidPath p ∧ ¬ [slash, slash] <:+: p ∧ p.getLast? ≠ some slash :=
  ⟨fun h => ⟨h.toValidPath, h.2, h.3⟩, fun ⟨h₁, h₂, h₃⟩ => ⟨h₁, h₂, h₃⟩⟩

instance (p : List UInt8) : Decidable (ProperPath p) := decidable_of_iff _ properPath_iff.symm

-- ============================================================================
-- Names and directories
-- ============================================================================

variable {d n p : List UInt8}

theorem baseOf_append (a : List UInt8) (hn : slash ∉ n) : baseOf (a ++ slash :: n) = n := by
  have hrev : (a ++ slash :: n).reverse = n.reverse ++ slash :: a.reverse := by simp
  have hn' : slash ∉ n.reverse := fun h => hn (List.mem_reverse.mp h)
  rw [baseOf, hrev, takeWhile_ne_slash hn', List.reverse_reverse]

theorem parentOf_append (a : List UInt8) (hn : slash ∉ n) :
    parentOf (a ++ slash :: n) = if a = [] then [slash] else a := by
  have htake : (a ++ slash :: n).take ((a ++ slash :: n).length - (n.length + 1)) = a := by
    refine List.take_left' ?_
    simp
  simp only [parentOf, baseOf_append a hn, htake]

/-- The parts of a joined path. -/
theorem join_parts (hd : d ≠ []) (hn : slash ∉ n) :
    parentOf (join d n) = d ∧ baseOf (join d n) = n := by
  unfold join
  split
  · next hroot =>
    have h1 := parentOf_append [] hn
    have h2 := baseOf_append [] hn
    rw [List.nil_append] at h1 h2
    exact ⟨h1.trans ((if_pos rfl).trans hroot.symm), h2⟩
  · exact ⟨(parentOf_append d hn).trans (if_neg hd), baseOf_append d hn⟩

/-- A proper path is a name in a directory. -/
theorem ProperPath.split (hp : ProperPath p) :
    ∃ a, p = a ++ slash :: baseOf p ∧ a ≠ [slash] ∧ baseOf p ≠ [] := by
  obtain ⟨r, hr⟩ := hp.exists_cons
  obtain ⟨a, ha⟩ := split_last (p := p) (by rw [hr]; exact List.mem_cons_self ..)
  refine ⟨a, ha, ?_, ?_⟩
  · intro h
    refine hp.noEmpty ⟨[], baseOf p, ?_⟩
    conv_rhs => rw [ha, h]
    rfl
  · intro h
    rw [h] at ha
    exact hp.noTrailing (by rw [ha]; simp)

/-- What stands before the last slash. -/
theorem parentOf_of_split {a : List UInt8} (ha : p = a ++ slash :: baseOf p) :
    parentOf p = if a = [] then [slash] else a := by
  conv_lhs => rw [ha]
  exact parentOf_append a (slash_notMem_baseOf p)

theorem ProperPath.join_parts (hp : ProperPath p) : join (parentOf p) (baseOf p) = p := by
  obtain ⟨a, ha, hroot, -⟩ := hp.split
  rw [parentOf_of_split ha]
  conv_rhs => rw [ha]
  split
  · next h => simp [join, h]
  · exact if_neg hroot

/-- A joined path is not `"/"`. -/
theorem join_ne_root (hn : n ≠ []) : join d n ≠ [slash] := by
  unfold join
  intro h
  split at h
  · exact hn (by simpa using h)
  · have := congrArg List.length h
    have hpos := List.length_pos_iff.mpr hn
    simp only [List.length_append, List.length_cons, List.length_nil] at this
    omega

-- ============================================================================
-- The first component
-- ============================================================================

/-- What is filed under a directory other than `"/"` lies below it. -/
theorem below_of_dirOf {d p : List UInt8} (hp : ValidPath p) (hd : d ≠ [slash])
    (h : dirOf p = d) : Below d p := by
  obtain ⟨r, rfl⟩ := hp.exists_cons
  by_cases hs : slash ∈ r
  · rw [dirOf_of_mem hs] at h
    obtain ⟨r₂, hr⟩ := split_first hs
    refine ⟨r₂, ?_⟩
    rw [← h]
    conv_rhs => rw [hr]
    simp
  · rw [dirOf_of_notMem hs] at h
    exact absurd h.symm hd

theorem not_below_self (d : List UInt8) : ¬ Below d d := by
  intro h
  have hlen := h.length_le
  rw [List.length_append, List.length_singleton] at hlen
  omega

/-- The first component of a path has only one component itself. -/
theorem dirOf_dirOf (hp : ValidPath p) : dirOf (dirOf p) = [slash] := by
  obtain ⟨r, rfl⟩ := hp.exists_cons
  by_cases hs : slash ∈ r
  · rw [dirOf_of_mem hs]
    exact dirOf_of_notMem (slash_notMem_takeWhile r)
  · rw [dirOf_of_notMem hs]
    rfl

/-- What lies below a directory of one component is filed under it. -/
theorem dirOf_of_below (hd : ProperPath d) (hone : dirOf d = [slash]) (h : Below d p) :
    dirOf p = d := by
  obtain ⟨w, rfl⟩ := hd.exists_cons
  have hw : slash ∉ w := by
    intro hs
    rw [dirOf_of_mem hs] at hone
    obtain ⟨r₂, hr⟩ := split_first hs
    have hnil : w.takeWhile (· ≠ slash) = [] := by simpa using hone
    rw [hnil] at hr
    refine hd.noEmpty ⟨[], r₂, ?_⟩
    rw [hr]
    rfl
  obtain ⟨x, rfl⟩ := h
  rw [show slash :: w ++ [slash] ++ x = slash :: (w ++ slash :: x) by simp, dirOf_append hw]

/-- The paths filed under `"/"` are those that lie in it. -/
theorem dirOf_root_iff (hp : ProperPath p) : dirOf p = [slash] ↔ parentOf p = [slash] := by
  obtain ⟨a, ha, hroot, -⟩ := hp.split
  obtain ⟨r, hr⟩ := hp.exists_cons
  have hbase := slash_notMem_baseOf p
  rw [parentOf_of_split ha]
  cases a with
  | nil =>
      rw [if_pos rfl]
      have hrb : r = baseOf p := by
        have := hr.symm.trans ha
        simpa using this
      rw [hr, dirOf_of_notMem (by rw [hrb]; exact hbase)]
  | cons b a =>
      rw [if_neg (List.cons_ne_nil b a)]
      have hmem : slash ∈ r := by
        have := hr.symm.trans ha
        rw [List.cons_append, List.cons.injEq] at this
        rw [this.2]
        simp
      rw [hr, dirOf_of_mem hmem]
      refine ⟨fun h => ?_, fun h => absurd h hroot⟩
      obtain ⟨r₂, hr₂⟩ := split_first hmem
      have hnil : r.takeWhile (· ≠ slash) = [] := by simpa using h
      rw [hnil] at hr₂
      exact absurd ⟨[], r₂, by rw [hr, hr₂]; rfl⟩ hp.noEmpty

/-- A name in a directory other than `"/"` lies below it. -/
theorem below_of_parentOf (hp : ProperPath p) (hd : d ≠ [slash]) (h : parentOf p = d) :
    Below d p := by
  refine ⟨baseOf p, ?_⟩
  conv_rhs => rw [← hp.join_parts, h]
  simp [join, hd]

end TgFuse

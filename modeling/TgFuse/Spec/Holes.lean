/-
  TgFuse.Spec.Holes

  Writing past the end: what stands in the hole.

  `buffer_insert` leaves there what the memory holds.  Three laws are measured
  against that: the hole is filled with zeros; two buffers that differ only in
  the memory behind their contents stay alike; and two writes that differ only
  in fresh memory upload the same document.
-/

import TgFuse.Effect.Data
import TgFuse.Spec.Run

namespace TgFuse

open CString Interact Overlay

-- ============================================================================
-- The buffer
-- ============================================================================

/-- The insert leaves the old contents, overlaid, with zeros in the hole. -/
def FillsWithZeros (fill : Nat → UInt8) (st : Buffer) (pos : Nat) (data : List UInt8) : Prop :=
  ∃ st', bufferInsert fill st pos data = some st' ∧
    st'.contents = overlayFilled 0 st.contents pos data

/-- Two inserts of the same data at the same place leave the same contents. -/
def SameAfterInsert (fill₁ fill₂ : Nat → UInt8) (st₁ st₂ : Buffer) (pos : Nat)
    (data : List UInt8) : Prop :=
  ∃ st₁' st₂', bufferInsert fill₁ st₁ pos data = some st₁' ∧
    bufferInsert fill₂ st₂ pos data = some st₂' ∧ st₁'.contents = st₂'.contents

section Inserts

variable {fill fill₁ fill₂ : Nat → UInt8} {st st' st₁ st₂ st₁' st₂' : Buffer} {pos : Nat}
  {data : List UInt8}

/-- The hole is filled with zeros exactly if the memory there holds them. -/
theorem fillsWithZeros_iff (hv : st.Valid) (hend : pos + data.length < 2 ^ 64) :
    FillsWithZeros fill st pos data ↔
      ∀ i, st.size ≤ i → i < pos → st.byteAt fill i = 0 := by
  obtain ⟨st', h⟩ : ∃ st', bufferInsert fill st pos data = some st' := bufferInsert_some hv hend
  have hov := (bufferInsert_spec hv h).2.2
  have hiff := hov.eq_iff (overlayFilled_isOverlay 0 st.contents pos data)
  rw [hv.length_contents] at hiff
  have hgap : ∀ i, st.size ≤ i → i < pos →
      (st'.contents[i]? = (overlayFilled 0 st.contents pos data)[i]? ↔ st.byteAt fill i = 0) := by
    intro i hsize hi
    rw [bufferInsert_gap hv h hi,
      overlayFilled_gap 0 data (by rw [hv.length_contents]; exact hsize) hi, Option.some.injEq]
  constructor
  · rintro ⟨st'', h', hc⟩ i hsize hi
    rw [h] at h'
    cases h'
    exact (hgap i hsize hi).mp (hiff.mp hc i hsize hi)
  · intro hzero
    refine ⟨st', h, hiff.mpr fun i hsize hi => ?_⟩
    exact (hgap i hsize hi).mpr (hzero i hsize hi)

/-- Inserts into buffers of the same contents agree where the memory does. -/
theorem contents_eq_iff (hv₁ : st₁.Valid) (hv₂ : st₂.Valid) (hc : st₁.contents = st₂.contents)
    (h₁ : bufferInsert fill₁ st₁ pos data = some st₁')
    (h₂ : bufferInsert fill₂ st₂ pos data = some st₂') :
    st₁'.contents = st₂'.contents ↔
      ∀ i, st₁.size ≤ i → i < pos → st₁.byteAt fill₁ i = st₂.byteAt fill₂ i := by
  have hov₁ := (bufferInsert_spec hv₁ h₁).2.2
  have hov₂ := (bufferInsert_spec hv₂ h₂).2.2
  rw [← hc] at hov₂
  rw [hov₁.eq_iff hov₂, hv₁.length_contents]
  refine forall_congr' fun i => forall_congr' fun _ => forall_congr' fun hi => ?_
  rw [bufferInsert_gap hv₁ h₁ hi, bufferInsert_gap hv₂ h₂ hi, Option.some.injEq]

theorem sameAfterInsert_iff (hv₁ : st₁.Valid) (hv₂ : st₂.Valid)
    (hc : st₁.contents = st₂.contents) (hend : pos + data.length < 2 ^ 64) :
    SameAfterInsert fill₁ fill₂ st₁ st₂ pos data ↔
      ∀ i, st₁.size ≤ i → i < pos → st₁.byteAt fill₁ i = st₂.byteAt fill₂ i := by
  obtain ⟨st₁', h₁⟩ : ∃ st', bufferInsert fill₁ st₁ pos data = some st' :=
    bufferInsert_some hv₁ hend
  obtain ⟨st₂', h₂⟩ : ∃ st', bufferInsert fill₂ st₂ pos data = some st' :=
    bufferInsert_some hv₂ hend
  rw [← contents_eq_iff hv₁ hv₂ hc h₁ h₂]
  constructor
  · rintro ⟨_, _, h₁', h₂', heq⟩
    rw [h₁] at h₁'
    rw [h₂] at h₂'
    cases h₁'
    cases h₂'
    exact heq
  · intro heq
    exact ⟨st₁', st₂', h₁, h₂, heq⟩

end Inserts

-- ============================================================================
-- hello_write
-- ============================================================================

section Writes

variable {config : TgConfig} {s s₁ s₂ : Statics} {heap₁ heap₂ : Heap} {p buf : List UInt8}
  {offset res₁ res₂ : Int} {log₁ log₂ : List (Request × Response)}

/-- The document that an upload carries. -/
theorem putRequest_inj {f : TgFile} {caption filename doc₁ doc₂ : List UInt8} :
    putRequest config f caption filename doc₁ = putRequest config f caption filename doc₂ ↔
      doc₁ = doc₂ := by
  unfold putRequest
  split <;> simp

/-- Uploads that follow the same load are the same for the same document. -/
theorem uploads_eq_iff {f : TgFile} {fill₁ fill₂ : Nat → UInt8} {d₁ d₂ d₁' d₂' : Buffer}
    {l r₁ r₂ : List (Request × Response)} {a₁ a₂ : Response} {pos : Nat} {c n : List UInt8}
    (hv₁ : d₁.Valid) (hv₂ : d₂.Valid) (hl₁ : d₁.contents = received l ∧ d₁.Untouched fill₁)
    (hl₂ : d₂.contents = received l ∧ d₂.Untouched fill₂)
    (h₁ : bufferInsert fill₁ d₁ pos buf = some d₁') (h₂ : bufferInsert fill₂ d₂ pos buf = some d₂')
    (e₁ : r₁ = l ++ [(putRequest config f c n d₁'.contents, a₁)])
    (e₂ : r₂ = l ++ [(putRequest config f c n d₂'.contents, a₂)]) :
    r₁.map Prod.fst = r₂.map Prod.fst ↔
      ∀ i, (received r₁).length ≤ i → i < pos → fill₁ i = fill₂ i := by
  have hsize : d₁.size = (received r₁).length := by
    have hput : received [(putRequest config f c n d₁'.contents, a₁)] = [] := by
      simp only [received, putRequest]
      split <;> rfl
    rw [← hv₁.length_contents, hl₁.1, e₁]
    unfold received at hput ⊢
    rw [List.flatMap_append, hput, List.append_nil]
  have hreq : r₁.map Prod.fst = r₂.map Prod.fst ↔ d₁'.contents = d₂'.contents := by
    rw [e₁, e₂, List.map_append, List.map_append, List.append_cancel_left_eq]
    simp [putRequest_inj]
  rw [hreq, contents_eq_iff hv₁ hv₂ (hl₁.1.trans hl₂.1.symm) h₁ h₂, hsize]
  refine forall_congr' fun i => forall_congr' fun hi => forall_congr' fun _ => ?_
  have hu₂ : d₂.size ≤ i := by
    rw [← hv₂.length_contents, hl₂.1, ← hl₁.1, hv₁.length_contents, hsize]
    exact hi
  rw [hl₁.2 i (by omega), hl₂.2 i hu₂]

/-- Two writes of a file that get the same answers make the same requests exactly
    if fresh memory agrees between what has been loaded and the offset. -/
theorem requests_eq_iff (hwf : s.storage.Wf) (hp : ValidPath p)
    (hfile : ∀ f, s.storage.lookup p = some f → f.type = .tgFile)
    (h₁ : Exec receive (helloWrite heap₁ config p buf offset) s log₁ (some res₁) s₁)
    (h₂ : Exec receive (helloWrite heap₂ config p buf offset) s log₂ (some res₂) s₂)
    (hans : log₁.map Prod.snd = log₂.map Prod.snd) :
    log₁.map Prod.fst = log₂.map Prod.fst ↔
      ∀ i, (received log₁).length ≤ i → i < sizeOfOff offset → heap₁.bytes i = heap₂.bytes i := by
  rcases (exec_helloWrite hwf hp).mp h₁ with ⟨hl, -, st', b, data', r, f', hw₁⟩ |
    ⟨f, hl, hd, -⟩ | ⟨i, f, hi, hf, -, -, l₁, b₀, b, data₁, data₁', r, f', hw₁⟩
  · rcases (exec_helloWrite hwf hp).mp h₂ with ⟨-, -, _, _, data₂', r₂, _, hw₂⟩ |
      ⟨g, hg, -⟩ | ⟨j, g, hj, -⟩
    · have e₁ : log₁ = [] ++ [(putRequest config (newFile p 0) (dirOf p) (baseOf p)
          data'.contents, r)] := by
        rw [hw₁.log_eq, putRequest_newFile]
        rfl
      have e₂ : log₂ = [] ++ [(putRequest config (newFile p 0) (dirOf p) (baseOf p)
          data₂'.contents, r₂)] := by
        rw [hw₂.log_eq, putRequest_newFile]
        rfl
      exact uploads_eq_iff (bufferNew_valid _) (bufferNew_valid _) ⟨rfl, bufferNew_untouched _⟩
        ⟨rfl, bufferNew_untouched _⟩ hw₁.inserted hw₂.inserted e₁ e₂
    · rw [hl] at hg
      cases hg
    · rw [lookup_eq_none_iff.mp hl] at hj
      cases hj
  · rw [hfile f hl] at hd
    cases hd
  · rcases (exec_helloWrite hwf hp).mp h₂ with ⟨hl, -⟩ | ⟨g, hg, hd, -⟩ |
      ⟨j, g, hj, hg, -, -, l₂, _, _, data₂, data₂', r₂, f₂', hw₂⟩
    · rw [lookup_eq_none_iff.mp hl] at hi
      cases hi
    · rw [hfile g hg] at hd
      cases hd
    · rw [hi] at hj
      cases hj
      rw [hf] at hg
      cases hg
      -- the answers to the two loads are the same, and so are their requests
      obtain rfl : l₁ = l₂ := by
        rw [hw₁.log_eq, hw₂.log_eq, List.map_append, List.map_append] at hans
        exact hw₁.obtained.log_eq_of_answers hw₂.obtained (List.append_inj' hans rfl).1
      exact uploads_eq_iff hw₁.obtained.valid hw₂.obtained.valid hw₁.obtained.contents_eq
        hw₂.obtained.contents_eq hw₁.inserted hw₂.inserted hw₁.log_eq hw₂.log_eq

end Writes

-- ============================================================================
-- The three laws
-- ============================================================================

/-- Each law holds exactly where the memory between the old contents and the
    data is as the law wants it. -/
theorem hole_laws_iff (config : TgConfig) :
    (∀ fill st pos data, st.Valid → pos + data.length < 2 ^ 64 →
      (FillsWithZeros fill st pos data ↔
        ∀ i, st.size ≤ i → i < pos → st.byteAt fill i = 0)) ∧
    (∀ fill₁ fill₂ st₁ st₂ pos data, st₁.Valid → st₂.Valid → st₁.contents = st₂.contents →
      pos + data.length < 2 ^ 64 →
      (SameAfterInsert fill₁ fill₂ st₁ st₂ pos data ↔
        ∀ i, st₁.size ≤ i → i < pos → st₁.byteAt fill₁ i = st₂.byteAt fill₂ i)) ∧
    (∀ heap₁ heap₂ s s₁ s₂ p buf offset res₁ res₂ log₁ log₂, s.storage.Wf → ValidPath p →
      (∀ f, s.storage.lookup p = some f → f.type = .tgFile) →
      Exec receive (helloWrite heap₁ config p buf offset) s log₁ (some res₁) s₁ →
      Exec receive (helloWrite heap₂ config p buf offset) s log₂ (some res₂) s₂ →
      log₁.map Prod.snd = log₂.map Prod.snd →
      (log₁.map Prod.fst = log₂.map Prod.fst ↔ ∀ i, (received log₁).length ≤ i →
        i < sizeOfOff offset → heap₁.bytes i = heap₂.bytes i)) := by
  refine ⟨?_, ?_, ?_⟩
  · intro fill st pos data hv hend
    exact fillsWithZeros_iff hv hend
  · intro fill₁ fill₂ st₁ st₂ pos data hv₁ hv₂ hc hend
    exact sameAfterInsert_iff hv₁ hv₂ hc hend
  · intro heap₁ heap₂ s s₁ s₂ p buf offset res₁ res₂ log₁ log₂ hwf hp hfile h₁ h₂ hans
    exact requests_eq_iff hwf hp hfile h₁ h₂ hans

/-- Fresh memory that happens to be one. -/
def onesHeap : Heap := ⟨fun _ => 1, fun _ => TgFile.zero⟩

/-- The state of `sampleWrite`: a file without contents, in a table of one slot. -/
@[irreducible] def sampleStatics : Statics :=
  ⟨⟨[newFile (text "/a") 0], 1, 1⟩, .zeros⟩

theorem sampleStatics_live : sampleStatics.storage.live = [newFile (text "/a") 0] := by
  unfold sampleStatics
  rfl

/-- One byte is written to a new file at offset 1. -/
def sampleWrite (heap : Heap) : Outcome Statics Request Response Int :=
  run receive (helloWrite heap blankConfig (text "/a") (text "x") 1) sampleStatics
    fun _ => ⟨curleOk, [text "\x7b\"ok\":false\x7d"]⟩

/-- Over zeros the hole is filled, over ones it is not, and the two uploads differ. -/
theorem hole_laws_iff_sample :
    FillsWithZeros (fun _ => 0) (bufferNew fun _ => 0) 1 (text "x") ∧
    ¬ SameAfterInsert (fun _ => 0) (fun _ => 1) (bufferNew fun _ => 0) (bufferNew fun _ => 1) 1
      (text "x") ∧
    (sampleWrite zeroHeap).log.map Prod.fst ≠ (sampleWrite onesHeap).log.map Prod.fst := by
  obtain ⟨hzero, hsame, hwrite⟩ := hole_laws_iff blankConfig
  have hmem : ∀ f ∈ sampleStatics.storage.live, f = newFile (text "/a") 0 := fun f hf =>
    List.mem_singleton.mp (sampleStatics_live ▸ hf)
  have hwf : sampleStatics.storage.Wf := by
    refine ⟨by unfold sampleStatics; exact ⟨rfl, Nat.le_refl 1⟩, fun f hf => ?_⟩
    rw [hmem f hf]
    exact (newFile_hasPath _ _).named (by decide)
  refine ⟨?_, ?_, ?_⟩
  · apply (hzero _ _ 1 (text "x") (bufferNew_valid _) (by decide)).mpr
    intro i hi _
    exact bufferNew_untouched (fun _ => 0) i hi
  · intro h
    have hall := (hsame (fun _ => 0) (fun _ => 1) (bufferNew fun _ => 0) (bufferNew fun _ => 1) 1
      (text "x") (bufferNew_valid _) (bufferNew_valid _) rfl (by decide)).mp h
    exact absurd (hall 0 (Nat.le_refl 0) Nat.one_pos) (by decide)
  · have hfile : ∀ f, sampleStatics.storage.lookup (text "/a") = some f → f.type = .tgFile := by
      intro f hf
      rw [hmem f (lookup_some hf).1]
      rfl
    have hres₀ : (sampleWrite zeroHeap).result = some 1 := by decide +kernel
    have hres₁ : (sampleWrite onesHeap).result = some 1 := by decide +kernel
    have h₀ := exec_of_result receive hres₀ rfl
    have h₁ := exec_of_result receive hres₁ rfl
    have hiff := hwrite _ _ _ _ _ _ _ _ _ _ _ _ hwf (by decide) hfile h₀ h₁ (by decide +kernel)
    intro h
    have hall := hiff.mp h
    exact absurd (hall 0 (by decide +kernel) (by decide)) (by decide)

/-- Memory that is not zero shows in the hole. -/
theorem hole_shows_memory :
    ¬ FillsWithZeros (fun _ => 1) (bufferNew fun _ => 1) 1 (text "x") ∧
    ¬ SameAfterInsert (fun _ => 0) (fun _ => 1) (bufferNew fun _ => 0) (bufferNew fun _ => 1) 1
      (text "x") := by
  constructor
  · rintro ⟨st', h, hc⟩
    have hgap := bufferInsert_gap (i := 0) (bufferNew_valid _) h Nat.one_pos
    rw [hc] at hgap
    exact absurd hgap (by decide)
  · rintro ⟨st₁', st₂', h₁, h₂, hc⟩
    have hgap₁ := bufferInsert_gap (i := 0) (bufferNew_valid _) h₁ Nat.one_pos
    have hgap₂ := bufferInsert_gap (i := 0) (bufferNew_valid _) h₂ Nat.one_pos
    rw [hc, hgap₂] at hgap₁
    exact absurd hgap₁ (by decide)

end TgFuse

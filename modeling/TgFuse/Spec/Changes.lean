/-
  TgFuse.Spec.Changes

  What requests change in the channel, as data, and what several of them amount to
  in whichever order they are served.

  * `Change.onMessages` — a change, to the messages.
  * `Reached` — a channel to which changes were made.  It says nothing about their
    order but through the messages, and there changes to different messages commute.
-/

import TgFuse.Spec.Served

namespace TgFuse

open CString Interact

/-- What a request changes in the channel. -/
inductive Change where
  | posted (mid fid : Id) (document : List UInt8)
  | edited (mid fid : Id) (document : List UInt8)
  | removed (mid : Id)
deriving DecidableEq

namespace Change

/-- The channel after the change. -/
def apply (ch : Channel) : Change → Channel
  | .posted mid fid document => ch.post mid fid document
  | .edited mid fid document => ch.edit mid fid document
  | .removed mid => ch.remove mid

/-- The message that is changed. -/
def target : Change → Id
  | .posted mid .. | .edited mid .. | .removed mid => mid

/-- What that message becomes. -/
def value : Change → Option Posted → Option Posted
  | .posted _ fid document, _ => some ⟨fid, document⟩
  | .edited _ fid document, m => m.map fun _ => ⟨fid, document⟩
  | .removed _, _ => none

/-- The message id that is given. -/
def newMessage : Change → Option Id
  | .posted mid .. => some mid
  | _ => none

/-- The file id that is given, with its document. -/
def newFile : Change → Option (Id × List UInt8)
  | .posted _ fid document | .edited _ fid document => some (fid, document)
  | .removed _ => none

/-- The messages after the change. -/
def onMessages (m : Id → Option Posted) (x : Change) : Id → Option Posted :=
  Function.update m x.target (x.value (m x.target))

/-- The two give different ids. -/
structure OtherIds (x y : Change) : Prop where
  message : ∀ mid, x.newMessage = some mid → y.newMessage ≠ some mid
  file : ∀ fid d e, x.newFile = some (fid, d) → y.newFile ≠ some (fid, e)

/-- The two change different messages, unless both remove, and give different ids. -/
structure Apart (x y : Change) : Prop where
  target : x.target ≠ y.target ∨ (x = .removed x.target ∧ y = .removed y.target)
  ids : x.OtherIds y

variable {x y : Change} {ch : Channel}

theorem OtherIds.symm (h : x.OtherIds y) : y.OtherIds x where
  message := fun mid hy hx => h.message mid hx hy
  file := fun fid d e hy hx => h.file fid e d hx hy

theorem Apart.symm (h : x.Apart y) : y.Apart x where
  target := h.target.elim (fun hne => Or.inl hne.symm) fun ⟨hx, hy⟩ => Or.inr ⟨hy, hx⟩
  ids := h.ids.symm

theorem apply_messages (ch : Channel) (x : Change) :
    (x.apply ch).messages = x.onMessages ch.messages := by
  cases x with
  | posted | edited | removed => rfl

theorem apply_files (ch : Channel) (x : Change) : (x.apply ch).files = ch.files := by
  cases x with
  | posted | edited | removed => rfl

theorem mem_apply_issued (ch : Channel) (x : Change) {mid : Id} :
    mid ∈ (x.apply ch).issued ↔ mid ∈ ch.issued ∨ x.newMessage = some mid := by
  cases x with
  | posted m fid document =>
      show mid ∈ m :: ch.issued ↔ _ ∨ some m = some mid
      rw [List.mem_cons, Option.some.injEq, or_comm, eq_comm]
  | edited | removed => simp [apply, Channel.edit, Channel.remove, newMessage]

theorem apply_documents_none (h : x.newFile = none) :
    (x.apply ch).documents = ch.documents := by
  cases x with
  | posted | edited => cases h
  | removed => rfl

theorem apply_documents_some {fid : Id} {document : List UInt8}
    (h : x.newFile = some (fid, document)) :
    (x.apply ch).documents = Function.update ch.documents fid (some document) := by
  cases x with
  | posted | edited =>
      cases h
      rfl
  | removed => cases h

/-- Changes that are apart may be made in either order. -/
theorem Apart.comm (h : x.Apart y) (m : Id → Option Posted) :
    y.onMessages (x.onMessages m) = x.onMessages (y.onMessages m) := by
  rcases h.target with hne | ⟨hx, hy⟩
  · unfold onMessages
    rw [Function.update_of_ne hne.symm, Function.update_of_ne hne, Function.update_comm hne]
  · have hvalue : ∀ o, x.value o = none ∧ y.value o = none := by
      intro o
      rw [hx, hy]
      exact ⟨rfl, rfl⟩
    funext mid
    simp only [onMessages, hvalue, Function.update_apply]
    split <;> split <;> rfl

end Change

-- ============================================================================
-- Several changes
-- ============================================================================

/-- The channel `ch` is `ch₀` after the changes `xs`, up to the file paths handed out. -/
structure Reached (ch₀ : Channel) (xs : List Change) (ch : Channel) : Prop where
  messages : ch.messages = xs.foldl Change.onMessages ch₀.messages
  issued : ∀ mid, mid ∈ ch.issued ↔ mid ∈ ch₀.issued ∨ ∃ x ∈ xs, x.newMessage = some mid
  /-- File ids are known from the start, or given by a change. -/
  known : ∀ fid, ch.documents fid ≠ none ↔
    ch₀.documents fid ≠ none ∨ ∃ x ∈ xs, ∃ d, x.newFile = some (fid, d)
  old : ∀ fid d, ch₀.documents fid = some d → ch.documents fid = some d

/-- The ids that a change gives are new. -/
def Change.Fresh (ch : Channel) (x : Change) : Prop :=
  (∀ mid, x.newMessage = some mid → ch.FreshMessage mid) ∧
    ∀ fid d, x.newFile = some (fid, d) → ch.FreshFile fid

section Reached

variable {ch₀ ch ch' : Channel} {xs ys : List Change} {x : Change}

theorem Reached.nil (ch : Channel) : Reached ch [] ch :=
  ⟨rfl, fun _ => by simp, fun _ => by simp, fun _ _ h => h⟩

theorem Reached.same (h : Reached ch₀ xs ch) (hs : ch.Same ch') : Reached ch₀ xs ch' where
  messages := hs.messages.trans h.messages
  issued := fun mid => by rw [hs.issued, h.issued]
  known := fun fid => by rw [hs.documents, h.known]
  old := fun fid d hd => by rw [hs.documents, h.old fid d hd]

/-- One more change. -/
theorem Reached.snoc (h : Reached ch₀ xs ch) (hx : x.Fresh ch) :
    Reached ch₀ (xs ++ [x]) (x.apply ch) where
  messages := by rw [Change.apply_messages, h.messages, List.foldl_append]; rfl
  issued := fun mid => by
    rw [Change.mem_apply_issued, h.issued]
    simp [or_and_right, exists_or, or_assoc]
  known := fun fid => by
    have hsplit : (∃ y ∈ xs ++ [x], ∃ d, y.newFile = some (fid, d)) ↔
        (∃ y ∈ xs, ∃ d, y.newFile = some (fid, d)) ∨ ∃ d, x.newFile = some (fid, d) := by
      simp [or_and_right, exists_or]
    rw [hsplit, ← or_assoc, ← h.known]
    cases hnew : x.newFile with
    | none => simp [Change.apply_documents_none hnew]
    | some e =>
        obtain ⟨fid', d⟩ := e
        rw [Change.apply_documents_some hnew]
        by_cases heq : fid = fid'
        · simp [heq]
        · simp [Function.update_of_ne heq, Ne.symm heq]
  old := fun fid d hd => by
    have hold := h.old fid d hd
    cases hnew : x.newFile with
    | none => rw [Change.apply_documents_none hnew, hold]
    | some e =>
        obtain ⟨fid', d'⟩ := e
        have hfree : ch.documents fid' = none := hx.2 fid' d' hnew
        have hne : fid ≠ fid' := by
          rintro rfl
          rw [hold] at hfree
          cases hfree
        rw [Change.apply_documents_some hnew, Function.update_of_ne hne, hold]

/-- What is new to a channel that has been reached is new to all that was done before. -/
theorem Reached.fresh_iff (h : Reached ch₀ xs ch) :
    x.Fresh ch ↔ x.Fresh ch₀ ∧ ∀ y ∈ xs, x.OtherIds y := by
  have hmessage : ∀ mid, ch.FreshMessage mid ↔
      ch₀.FreshMessage mid ∧ ∀ y ∈ xs, y.newMessage ≠ some mid := by
    intro mid
    rw [Channel.FreshMessage, h.issued]
    simp [Channel.FreshMessage]
  have hfile : ∀ fid, ch.FreshFile fid ↔
      ch₀.FreshFile fid ∧ ∀ y ∈ xs, ∀ e, y.newFile ≠ some (fid, e) := by
    intro fid
    have hknown := not_congr (h.known fid)
    rw [not_not] at hknown
    rw [Channel.FreshFile, hknown]
    simp [Channel.FreshFile]
  constructor
  · rintro ⟨hm, hf⟩
    refine ⟨⟨fun mid hmid => ((hmessage mid).mp (hm mid hmid)).1,
      fun fid d hfid => ((hfile fid).mp (hf fid d hfid)).1⟩, fun y hy => ⟨?_, ?_⟩⟩
    · exact fun mid hmid => ((hmessage mid).mp (hm mid hmid)).2 y hy
    · exact fun fid d e hfid => ((hfile fid).mp (hf fid d hfid)).2 y hy e
  · rintro ⟨⟨hm, hf⟩, hother⟩
    refine ⟨fun mid hmid => ?_, fun fid d hfid => ?_⟩
    · exact (hmessage mid).mpr ⟨hm mid hmid, fun y hy => (hother y hy).message mid hmid⟩
    · exact (hfile fid).mpr ⟨hf fid d hfid, fun y hy e => (hother y hy).file fid d e hfid⟩

/-- Changes that are apart lead to the same messages in every order. -/
theorem Reached.messages_eq (h : Reached ch₀ xs ch) (h' : Reached ch₀ ys ch')
    (hp : xs.Perm ys) (ha : xs.Pairwise Change.Apart) : ch'.messages = ch.messages := by
  rw [h.messages, h'.messages]
  refine (hp.foldl_eq' ?_ ch₀.messages).symm
  intro x hx y hy m
  have hall := List.Pairwise.forall_of_forall_of_flip
    (R := fun x y => ∀ m, Change.onMessages (Change.onMessages m x) y
      = Change.onMessages (Change.onMessages m y) x)
    (fun _ _ _ => rfl) (ha.imp fun hxy m => hxy.comm m) (ha.imp fun hxy m => (hxy.comm m).symm)
  exact hall hx hy m

end Reached

end TgFuse

/-
  TgFuse.Spec.Reference

  The file system that the program is for: a map from paths to files and
  directories (`FileTree`), without a table, a channel or a server.

  * `Permits` — what it may reply to a call, and become.
  * `World.tree` — the file system that a table and a channel stand for.
  * `refines_file_system` — every run of the program against a server that answers
    every request is a run of this file system, with the same replies.

  Directories are not nested here (`FlatPath`): the program neither lists nor
  removes what lies deeper.
-/

import TgFuse.Lib.FileTree
import TgFuse.Spec.Accounting
import TgFuse.Spec.Listing
import TgFuse.Spec.ReadBack
import TgFuse.Spec.Replay

namespace TgFuse

open CString FileTree Interact KeyedList Lts Overlay

-- ============================================================================
-- The file system
-- ============================================================================

/-- What `stat` says of a node. -/
def nodeStat : Node UInt8 → Stat
  | .file bytes => { stMode := modeReg, stNlink := 1, stSize := bytes.length }
  | .dir => { stMode := modeDir, stNlink := 1, stSize := 0 }

/-- The names in the directory `d`. -/
def Lists (t : Tree (List UInt8) UInt8) (d : List UInt8) (names : List (List UInt8)) : Prop :=
  names.Nodup ∧ ∀ n, n ∈ names ↔ n ≠ [] ∧ slash ∉ n ∧ t (join d n) ≠ none

/-- From `t`, the call may give `reply` and lead to `t'`. -/
def Permits (t : Tree (List UInt8) UInt8) (reply : Reply) (t' : Tree (List UInt8) UInt8) :
    Call → Prop
  | .getattr p => t' = t ∧ reply =
      if p = text "/" then .stat 0 { stMode := modeDir, stNlink := 2, stSize := 0 }
      else
        match t p with
        | some n => .stat 0 (nodeStat n)
        | none => .stat (-enoent) { stMode := 0, stNlink := 0, stSize := 0 }
  | .open p => t' = t ∧ reply = .status (if t p = none then -enoent else 0)
  | .setxattr _ | .utimens _ => t' = t ∧ reply = .status 0
  | .read p size offset => t' = t ∧ reply =
      match t p with
      | some (.file bytes) =>
          .data (window bytes offset.toNat size).length (window bytes offset.toNat size)
      | some .dir => .data 0 []
      | none => .data (-enoent) []
  | .readdir p => t' = t ∧
      match t p with
      | some .dir => ∃ names, reply = .listing 0 (text "." :: text ".." :: names) ∧ Lists t p names
      | _ => reply = .listing (-enoent) []
  | .create p => t p = none ∧ reply = .status 0 ∧ t' = put t p (.file [])
  | .mkdir p => t p = none ∧ reply = .status 0 ∧ t' = put t p .dir
  | .write p buf offset => reply = .status buf.length ∧ Writes t p offset.toNat buf t'
  | .unlink p =>
      match t p with
      | some _ => reply = .status 0 ∧ t' = remove t p
      | none => reply = .status (-enoent) ∧ t' = t
  | .rmdir p =>
      match t p with
      | some .dir => reply = .status 0 ∧
          Prunes (fun q => q ≠ text "/" ∧ parentOf q = p) t p t'
      | _ => reply = .status (-enotdir) ∧ t' = t

/-- One call of the file system. -/
def TreeMove (t : Tree (List UInt8) UInt8) (ev : Event) (t' : Tree (List UInt8) UInt8) : Prop :=
  Permits t ev.reply t' ev.call

/-- Every file has a length that an `off_t` holds. -/
def SmallFiles (t : Tree (List UInt8) UInt8) : Prop :=
  ∀ p bytes, t p = some (.file bytes) → bytes.length < 2 ^ 63

/-- The mount point alone. -/
def rootTree : Tree (List UInt8) UInt8 := put (fun _ => none) (text "/") .dir

-- ============================================================================
-- What table and channel stand for
-- ============================================================================

/-- The bytes of an entry. -/
def Channel.contents (ch : Channel) (f : TgFile) : List UInt8 :=
  if f.fileSize > 0 then (ch.documents f.fileIdStr).getD [] else []

/-- The node an entry stands for. -/
def Channel.node (ch : Channel) (f : TgFile) : Node UInt8 :=
  match f.type with
  | .tgFile => .file (ch.contents f)
  | .tgDir => .dir

/-- The file system that a table and a channel stand for. -/
def World.tree (w : World) : Tree (List UInt8) UInt8 := fun p =>
  (w.statics.storage.lookup p).map w.channel.node

/-- `"/"`, `"/x"` and `"/d/x"`. -/
def FlatPath (p : List UInt8) : Prop := (p = text "/" ∨ ProperPath p) ∧ dirOf p = parentOf p

instance (p : List UInt8) : Decidable (FlatPath p) :=
  inferInstanceAs (Decidable ((p = text "/" ∨ ProperPath p) ∧ dirOf p = parentOf p))

/-- Sizes and offsets stay within their types. -/
def InRange : Call → Prop
  | .write _ buf offset => buf.length < 2 ^ 31 ∧ 0 ≤ offset ∧ offset + buf.length < 2 ^ 63
  | .read _ size offset => size < 2 ^ 31 ∧ 0 ≤ offset ∧ offset + size < 2 ^ 63
  | _ => True

instance : (call : Call) → Decidable (InRange call)
  | .write _ buf offset => inferInstanceAs
      (Decidable (buf.length < 2 ^ 31 ∧ 0 ≤ offset ∧ offset + buf.length < 2 ^ 63))
  | .read _ size offset => inferInstanceAs
      (Decidable (size < 2 ^ 31 ∧ 0 ≤ offset ∧ offset + size < 2 ^ 63))
  | .getattr _ | .rmdir _ | .readdir _ | .create _ | .open _ | .mkdir _ | .unlink _ | .setxattr _
  | .utimens _ => .isTrue trivial

/-- The calls the kernel makes, on flat paths. -/
def FlatCall (st : TgStorage) (call : Call) : Prop :=
  FileCall st call ∧ FlatPath call.path ∧ InRange call

instance (st : TgStorage) (call : Call) : Decidable (FlatCall st call) :=
  inferInstanceAs (Decidable (FileCall st call ∧ FlatPath call.path ∧ InRange call))

/-- One such call completes, every request answered. -/
def FlatStep (config : TgConfig) (w : World) (ev : Event) (w' : World) : Prop :=
  FlatCall w.statics.storage ev.call ∧ WorldStep Serving config w ev w'

-- ============================================================================
-- What holds throughout a run
-- ============================================================================

/-- Besides what the accounting keeps: flat paths, and lengths that an `off_t` holds. -/
structure FlatInvariant (evs : List Event) (w : World) : Prop extends RunInvariant evs w where
  flat : ∀ f ∈ w.statics.storage.live, FlatPath f.pathStr
  small : SmallFiles w.tree

section Trees

variable {evs : List Event} {w w' : World} {ch ch' : Channel} {f g : TgFile}
  {p d : List UInt8}

theorem FlatStep.fileStep {config : TgConfig} {ev : Event} (h : FlatStep config w ev w') :
    FileStep config w ev w' := ⟨h.1.1, h.2⟩

theorem Channel.node_congr
    (h : f.fileSize > 0 → ch'.documents f.fileIdStr = ch.documents f.fileIdStr) :
    ch'.node f = ch.node f := by
  unfold Channel.node Channel.contents
  split
  · split
    · next hpos => rw [h hpos]
    · rfl
  · rfl

/-- An entry stands for the bytes that its file id names. -/
theorem RunInvariant.stores (h : RunInvariant evs w) (hf : f ∈ w.statics.storage.live)
    (htype : f.type = .tgFile) : Stores w.channel f (w.channel.contents f) := by
  by_cases hpos : f.fileSize > 0
  · have hb := h.accounted.backed f hf hpos
    obtain ⟨document, -, hdoc, hsize⟩ := hb.current
    have hc : w.channel.contents f = document := by rw [Channel.contents, if_pos hpos, hdoc]; rfl
    rw [hc]
    refine ⟨htype, hsize, fun hnil => ?_, fun _ => ⟨hb.fileId_ne, hdoc⟩⟩
    rw [hsize, hnil] at hpos
    exact absurd hpos (Nat.lt_irrefl 0)
  · have hzero : f.fileSize = 0 := Nat.eq_zero_of_not_pos hpos
    have hc : w.channel.contents f = [] := by rw [Channel.contents, if_neg hpos]
    rw [hc]
    exact ⟨htype, hzero, fun _ => (h.accounted.blank f hf hzero).1, fun hne => absurd rfl hne⟩

theorem tree_of_lookup (hl : w.statics.storage.lookup p = some f) :
    w.tree p = some (w.channel.node f) := by rw [World.tree, hl]; rfl

theorem tree_eq_none_iff : w.tree p = none ↔ w.statics.storage.lookup p = none :=
  Option.map_eq_none_iff

/-- The same lookups, and the same documents behind them. -/
theorem tree_congr (hmap : w'.statics.storage.lookup p = w.statics.storage.lookup p)
    (hn : ∀ f ∈ w.statics.storage.live, w'.channel.node f = w.channel.node f) :
    w'.tree p = w.tree p := by
  rw [World.tree, World.tree, hmap]
  exact Option.map_congr fun f hf => hn f (lookup_some hf).1

/-- A new node at `p`. -/
theorem tree_put (hmap : w'.statics.storage.lookup
      = Function.update w.statics.storage.lookup p (some g))
    (hn : ∀ f ∈ w.statics.storage.live, f.pathStr ≠ p → w'.channel.node f = w.channel.node f) :
    w'.tree = put w.tree p (w'.channel.node g) := by
  funext q
  by_cases hq : q = p
  · subst hq
    rw [put_self]
    exact tree_of_lookup (by rw [hmap, Function.update_self])
  · rw [put_of_ne hq, World.tree, World.tree, hmap, Function.update_of_ne hq]
    refine Option.map_congr fun f hf => hn f (lookup_some hf).1 ?_
    rw [(lookup_some hf).2]
    exact hq

theorem FlatPath.valid (h : FlatPath p) : ValidPath p :=
  h.1.elim (fun hp => hp ▸ validPath_root) fun hp => hp.toValidPath

/-- On flat paths the search by directory finds the children. -/
theorem FlatPath.inDir_eq_childOf (hf : FlatPath f.pathStr) : inDir d f = childOf d f := by
  rw [Bool.eq_iff_iff, inDir_iff, childOf_iff, hf.2]
  refine and_congr_left fun hd => ?_
  rcases hf.1 with hroot | hproper
  · have hd' : d = [slash] := by rw [← hd, hroot]; decide
    rw [hd', hroot, text_root]
  · constructor
    · rintro - hroot
      exact hproper.noTrailing (by rw [hroot]; rfl)
    · rintro - heq
      by_cases hroot : d = [slash]
      · exact hproper.noTrailing (by rw [heq, hroot]; rfl)
      · have hbelow := below_of_parentOf hproper hroot hd
        rw [heq] at hbelow
        exact not_below_self d hbelow

theorem FlatInvariant.storageTree (h : FlatInvariant evs w) : w.statics.storage.Tree :=
  ⟨h.wf, h.accounted.paths, fun f hf => text_root ▸ (h.flat f hf).1⟩

theorem FlatInvariant.size_lt (h : FlatInvariant evs w) (hf : f ∈ w.statics.storage.live)
    (htype : f.type = .tgFile) : f.fileSize < 2 ^ 63 := by
  rw [(h.stores hf htype).size_eq]
  refine h.small f.pathStr _ ?_
  rw [tree_of_lookup (lookup_of_mem h.accounted.paths hf), Channel.node, htype]

/-- What `hello_readdir` lists are the names in the directory. -/
theorem FlatInvariant.lists (h : FlatInvariant evs w) (hd : d ≠ []) :
    Lists w.tree d (listing d w.statics.storage) := by
  have ht := h.storageTree
  obtain ⟨hnd, hmem⟩ := listing_of_congr ht (d := d) fun f hf => (h.flat f hf).inDir_eq_childOf
  refine ⟨hnd, fun n => ?_⟩
  rw [hmem, mem_children_iff ht hd]
  refine and_congr_right fun hn => and_congr_right fun _ => ?_
  rw [found_iff (join_ne_root hn), Ne, tree_eq_none_iff, lookup_none]
  push Not
  exact Iff.rfl

end Trees

-- ============================================================================
-- One step
-- ============================================================================

theorem Serves.any {okMessage okFile : Channel → Id → Prop} {ch ch' : Channel} {q : Request}
    {r : Response} (h : Serves okMessage okFile ch q r ch') :
    Serves Channel.AnyId Channel.AnyId ch q r ch' := by
  cases h with
  | sent hm hf _ _ hok hcm hcf => exact .sent hm hf trivial trivial hok hcm hcf
  | edited hf _ hok hcf => exact .edited hf trivial hok hcf
  | located hd hp hfree hok hcp => exact .located hd hp hfree hok hcp
  | downloaded hp hd hc hb => exact .downloaded hp hd hc hb
  | deleted hok => exact .deleted hok

section Steps

variable {config : TgConfig} {evs : List Event} {w w' : World} {ev : Event} {heap : Heap}
  {p : List UInt8} {log : List (Request × Response)} {reply : Reply} {s' : Statics}
  {ch' : Channel}

/-- What `hello_getattr` reports of an entry is what `stat` says of its node. -/
theorem FlatInvariant.statOf_eq (h : FlatInvariant evs w) {f : TgFile}
    (hf : f ∈ w.statics.storage.live) : statOf f = nodeStat (w.channel.node f) := by
  cases htype : f.type with
  | tgDir => simp only [statOf, Channel.node, htype, nodeStat]
  | tgFile =>
      have hsize := (h.stores hf htype).size_eq
      simp only [statOf, Channel.node, htype, nodeStat, offT_of_lt (h.size_lt hf htype)]
      rw [← hsize]

/-- The replies to calls that change nothing. -/
theorem FlatInvariant.query (h : FlatInvariant evs w) {call : Call}
    (hcall : FlatCall w.statics.storage call) (hq : call.isQuery = true)
    (he : Exec receive (call.handler heap config) w.statics log (some reply) s')
    (hs : Serve Serving w.channel log ch') : Permits w.tree reply w.tree call := by
  cases call with
  | create | mkdir | write | unlink | rmdir => cases hq
  | setxattr p =>
      obtain ⟨a, ha, rfl⟩ := exec_reply.mp he
      obtain ⟨-, ha, -⟩ := ha
      cases ha
      exact ⟨rfl, rfl⟩
  | utimens p =>
      obtain ⟨a, ha, rfl⟩ := exec_reply.mp he
      obtain ⟨-, ha, -⟩ := ha
      cases ha
      exact ⟨rfl, rfl⟩
  | getattr p =>
      obtain ⟨a, ha, rfl⟩ := exec_reply.mp he
      obtain ⟨-, ha, -⟩ := exec_helloGetattr.mp ha
      cases ha
      refine ⟨rfl, ?_⟩
      unfold getattrReply
      split
      · rfl
      · cases hl : w.statics.storage.lookup p with
        | none => rw [tree_eq_none_iff.mpr hl]
        | some f =>
            rw [tree_of_lookup hl]
            simp only [h.statOf_eq (lookup_some hl).1]
  | «open» p =>
      obtain ⟨a, ha, rfl⟩ := exec_reply.mp he
      obtain ⟨-, ha, -⟩ := exec_helloOpen.mp ha
      cases ha
      refine ⟨rfl, ?_⟩
      simp only [tree_eq_none_iff]
  | readdir p =>
      obtain ⟨a, ha, rfl⟩ := exec_reply.mp he
      obtain ⟨-, -, ha⟩ := (exec_helloReaddir h.wf).mp ha
      cases ha
      refine ⟨rfl, ?_⟩
      cases hl : w.statics.storage.lookup p with
      | none =>
          rw [tree_eq_none_iff.mpr hl]
          simp
      | some f =>
          rw [tree_of_lookup hl, Channel.node]
          cases htype : f.type with
          | tgFile => simp [htype]
          | tgDir =>
              simp only [Option.some.injEq, exists_eq_left', htype, if_true]
              exact ⟨_, rfl, h.lists hcall.2.1.valid.ne_nil⟩
  | read p size offset =>
      obtain ⟨hsize, hoff, hend⟩ := hcall.2.2
      obtain ⟨pos, rfl⟩ := Int.eq_ofNat_of_zero_le hoff
      obtain ⟨a, ha, rfl⟩ := exec_reply.mp he
      refine ⟨rfl, ?_⟩
      cases hl : w.statics.storage.lookup p with
      | none =>
          rcases exec_helloRead.mp ha with ⟨-, -, rfl, -⟩ | ⟨f, hf, -⟩ | ⟨f, _, _, hf, -⟩
          · rw [tree_eq_none_iff.mpr hl]
          · rw [hl] at hf
            cases hf
          · rw [hl] at hf
            cases hf
      | some f =>
          have hf := (lookup_some hl).1
          rw [tree_of_lookup hl, Channel.node]
          cases htype : f.type with
          | tgFile =>
              have hst := h.stores hf htype
              have hlen : (w.channel.contents f).length < 2 ^ 63 := by
                rw [← hst.size_eq]
                exact h.size_lt hf htype
              have hres := exec_helloRead_stored hl hst hsize (by omega) hlen ha
                (hs.mono fun _ _ _ _ => Serves.any)
              cases hres
              rfl
          | tgDir =>
              -- a directory has no file id
              have hid : f.fileIdStr = [] := by
                rw [h.plainDirs f hf htype]
                exact newDir_fileIdStr _
              rcases exec_helloRead.mp ha with ⟨hnone, -⟩ | ⟨g, hg, -, -, rfl, -⟩ |
                ⟨g, _, _, hg, hne, -⟩
              · rw [hl] at hnone
                cases hnone
              · rfl
              · rw [hl] at hg
                cases hg
                rw [hid] at hne
                exact absurd rfl hne

/-- An upload leaves the other files. -/
theorem Uploaded.node_eq {ch ch₁ : Channel} {f g e : TgFile} {new : List UInt8}
    (hsame : ch.Same ch₁)
    (hup : Uploaded Channel.FreshMessage Channel.FreshFile ch₁ f new g ch')
    (he : e.fileSize > 0 → Backed ch e) : ch'.node e = ch.node e := by
  refine Channel.node_congr fun hpos => ?_
  have hb := he hpos
  have hfresh : ∀ fid, Channel.FreshFile ch₁ fid → e.fileIdStr ≠ fid := by
    intro fid hfree
    rw [Channel.FreshFile, hsame.documents] at hfree
    exact hb.fileId_ne_of_fresh hfree
  cases hup with
  | sent _ _ _ _ hfree =>
      rw [Channel.post_documents, Function.update_of_ne (hfresh _ hfree), hsame.documents]
  | edited _ _ hfree =>
      rw [Channel.edit_documents, Function.update_of_ne (hfresh _ hfree), hsame.documents]

/-- What the sweep of `hello_rmdir` leaves. -/
theorem FlatInvariant.prunes (h : FlatInvariant evs w) {d : TgFile}
    (hl : w.statics.storage.lookup p = some d)
    (hst : w'.statics.storage = rmdirTable p w.statics.storage)
    (hn : ∀ f, w'.channel.node f = w.channel.node f) :
    Prunes (fun q => q ≠ text "/" ∧ parentOf q = p) w.tree p w'.tree := by
  have hpaths := h.accounted.paths
  have hpaths' : Distinct TgFile.pathStr (rmdirTable p w.statics.storage).live :=
    distinct_rmdirTable h.wf hpaths
  have hsub : ∀ q f, w'.statics.storage.lookup q = some f →
      w.statics.storage.lookup q = some f := by
    intro q f hf
    obtain ⟨hmem, rfl⟩ := lookup_some hf
    rw [hst] at hmem
    exact lookup_of_mem hpaths (mem_rmdirTable_ne h.wf hpaths hmem).1
  have hkept : ∀ q f, w.statics.storage.lookup q = some f → q ≠ p → inDir p f = false →
      w'.statics.storage.lookup q = some f := by
    intro q f hf hne hin
    obtain ⟨hmem, rfl⟩ := lookup_some hf
    rw [hst]
    exact lookup_of_mem hpaths' (mem_rmdirTable_of_not_inDir h.wf hl hmem hin hne)
  refine ⟨?_, fun q hq hchild => ?_, fun q hq hchild => ?_⟩
  · rw [tree_eq_none_iff, hst, lookup_none]
    exact fun f hf => (mem_rmdirTable_ne h.wf hpaths hf).2
  · cases hq' : w'.statics.storage.lookup q with
    | none => exact Or.inr (tree_eq_none_iff.mpr hq')
    | some f => exact Or.inl (tree_congr (hq'.trans (hsub q f hq').symm) fun f _ => hn f)
  · refine tree_congr ?_ fun f _ => hn f
    cases hq' : w.statics.storage.lookup q with
    | none =>
        rw [Option.eq_none_iff_forall_not_mem]
        intro f hf
        rw [hsub q f hf] at hq'
        cases hq'
    | some f =>
        refine hkept q f hq' hq ?_
        rw [(h.flat f (lookup_some hq').1).inDir_eq_childOf, Bool.eq_false_iff, Ne, childOf_iff,
          (lookup_some hq').2, ← text_root]
        exact hchild

/-- The calls that change the table, with what they make of the file system. -/
theorem FlatInvariant.change (h : FlatInvariant evs w) {call : Call} {ret : Int} {mids : List Id}
    (hcall : FlatCall w.statics.storage call) (hq : call.isQuery = false)
    (hserved : ServedStep Channel.FreshMessage Channel.FreshFile w.statics.storage w.channel call
      ret mids w'.statics.storage w'.channel) :
    Permits w.tree (.status ret) w'.tree call := by
  have hpaths := h.accounted.paths
  have hp := hcall.2.1.valid
  have hrange := hcall.2.2
  obtain ⟨⟨st', json'⟩, ch'⟩ := w'
  dsimp only at hserved
  cases hserved with
  | query hq' => rw [hq] at hq'; cases hq'
  | @create p _ hl hlive =>
      have hpath : (newFile p 0).pathStr = p := newFile_pathStr hp 0
      obtain ⟨-, hmap⟩ := lookup_enter hpaths (hpath.symm ▸ hl) hlive
      rw [hpath] at hmap
      refine ⟨tree_eq_none_iff.mpr hl, rfl, ?_⟩
      have hnode : w.channel.node (newFile p 0) = .file [] := rfl
      rw [← hnode]
      exact tree_put hmap fun _ _ _ => rfl
  | @mkdir p _ hl hlive =>
      have hpath : (newDir p).pathStr = p := newDir_pathStr hp
      obtain ⟨-, hmap⟩ := lookup_enter hpaths (hpath.symm ▸ hl) hlive
      rw [hpath] at hmap
      refine ⟨tree_eq_none_iff.mpr hl, rfl, ?_⟩
      have hnode : w.channel.node (newDir p) = .dir := rfl
      rw [← hnode]
      exact tree_put hmap fun _ _ _ => rfl
  | @write p buf old new offset i f g ch₁ _ hi hf hfile hold hover hsame hup =>
      obtain ⟨hsize, hoff, hend⟩ := hrange
      obtain ⟨f', hl, hf', -, hfp⟩ := tgStorageFindByPath_lookup hi
      obtain rfl : f = f' := Option.some.inj (hf.symm.trans hf')
      have hmem := (lookup_some hl).1
      have hst := h.stores hmem hfile
      obtain rfl := hst.old_eq hold
      have hne := hover.ne_nil hcall.1.2.2
      have hpath : (g.withSize new.length).pathStr = f.pathStr :=
        ((h.wf.named f hmem).congr (g := g.withSize new.length) hup.entry.1).2
      obtain ⟨-, hmap⟩ := lookup_replace hpaths hf hpath setSlot_live
      rw [hfp] at hmap
      have hnew := Stores.upload hfile hne hup
      have hnode : ch'.node (g.withSize new.length) = .file new := by
        have hpos : (g.withSize new.length).fileSize > 0 := List.length_pos_of_ne_nil hne
        rw [Channel.node, hnew.type_eq, Channel.contents, if_pos hpos, (hnew.document hne).2]
        rfl
      refine ⟨by rw [cint_of_lt hsize], w.channel.contents f, new, ?_, ?_, ?_⟩
      · rw [tree_of_lookup hl, Channel.node, hfile]
      · rwa [sizeOfOff_of_nonneg hoff (by omega)] at hover
      · rw [← hnode]
        exact tree_put hmap fun e he _ => hup.node_eq hsame (h.accounted.backed e he)
  | @unlinkMissing p hl =>
      rw [Permits, tree_eq_none_iff.mpr hl]
      exact ⟨rfl, rfl⟩
  | @unlink p f hl =>
      obtain ⟨-, hfound, hmap⟩ := lookup_leave hpaths (without_perm h.wf.valid hl)
      rw [(lookup_some hl).2] at hmap
      rw [Permits, tree_of_lookup hl]
      refine ⟨rfl, ?_⟩
      funext q
      by_cases hq : q = p
      · subst hq
        rw [remove, Function.update_self, tree_eq_none_iff]
        exact (congrFun hmap q).trans (Function.update_self ..)
      · rw [remove, Function.update_of_ne hq]
        exact tree_congr ((congrFun hmap q).trans (Function.update_of_ne hq ..)) fun _ _ => rfl
  | @rmdirOther p hno =>
      rw [Permits]
      cases hl : w.statics.storage.lookup p with
      | none =>
          rw [tree_eq_none_iff.mpr hl]
          exact ⟨rfl, rfl⟩
      | some f =>
          rw [tree_of_lookup hl, Channel.node, hno f hl]
          exact ⟨rfl, rfl⟩
  | @rmdir p d _ hl hd hmids =>
      rw [Permits, tree_of_lookup hl, Channel.node, hd]
      refine ⟨rfl, ?_⟩
      exact h.prunes hl rfl fun _ => rfl

theorem Permits.small {t t' : Tree (List UInt8) UInt8} {call : Call} (hs : SmallFiles t)
    (hr : InRange call) (h : Permits t reply t' call) : SmallFiles t' := by
  have hput : ∀ {p : List UInt8} {n : Node UInt8}, (∀ bytes, n = .file bytes →
      bytes.length < 2 ^ 63) → SmallFiles (put t p n) := by
    intro p n hn q bytes hq
    by_cases hqp : q = p
    · rw [hqp, put_self] at hq
      exact hn bytes (Option.some.inj hq)
    · rw [put_of_ne hqp] at hq
      exact hs q bytes hq
  have hless : (∀ q, t' q = t q ∨ t' q = none) → SmallFiles t' := by
    intro hsub q bytes hq
    rcases hsub q with he | he
    · exact hs q bytes (he ▸ hq)
    · rw [he] at hq
      cases hq
  cases call with
  | getattr | «open» | setxattr | utimens | read | readdir =>
      rw [h.1]
      exact hs
  | create p =>
      rw [h.2.2]
      refine hput fun bytes hb => ?_
      cases hb
      exact Nat.two_pow_pos 63
  | mkdir p =>
      rw [h.2.2]
      exact hput fun bytes hb => nomatch hb
  | write p buf offset =>
      obtain ⟨-, old, new, hold, hover, rfl⟩ := h
      obtain ⟨-, hoff, hend⟩ := hr
      refine hput fun bytes hb => ?_
      cases hb
      have hlen := hs p old hold
      have hnew := hover.length_eq
      omega
  | unlink p =>
      simp only [Permits] at h
      split at h
      · refine hless fun q => ?_
        rw [h.2, remove]
        by_cases hq : q = p
        · exact Or.inr (hq ▸ Function.update_self ..)
        · exact Or.inl (Function.update_of_ne hq ..)
      · rw [h.2]
        exact hs
  | rmdir p =>
      simp only [Permits] at h
      split at h
      · obtain ⟨-, hprunes⟩ := h
        refine hless fun q => ?_
        by_cases hq : q = p
        · exact Or.inr (hq ▸ hprunes.gone)
        · by_cases hchild : q ≠ text "/" ∧ parentOf q = p
          · exact hprunes.inside q hq hchild
          · exact Or.inl (hprunes.other q hq hchild)
      · rw [h.2]
        exact hs

/-- Every path of the table after the step was in it before, or is the one of the call. -/
theorem TableStep.path_mem {st st' : TgStorage} {call : Call} {ret : Int} (hwf : st.Wf)
    (hp : ValidPath call.path) (h : TableStep st call ret st') {f : TgFile}
    (hf : f ∈ st'.live) : f.pathStr = call.path ∨ ∃ g ∈ st.live, g.pathStr = f.pathStr := by
  by_cases hmk : call.Makes f.pathStr
  · refine Or.inl ?_
    cases call with
    | create | mkdir | write => exact hmk.symm
    | _ => exact hmk.elim
  · refine Or.inr ?_
    cases hl : st.lookup f.pathStr with
    | none => exact absurd rfl (lookup_none.mp (h.lookup_none_of_not_makes hwf hp hl hmk) f hf)
    | some g => exact ⟨g, lookup_some hl⟩

/-- Queries change neither table nor messages. -/
theorem ServedStep.of_isQuery {okMessage okFile : Channel → Id → Prop} {st st' : TgStorage}
    {ch ch' : Channel} {call : Call} {ret : Int} {mids : List Id} (hq : call.isQuery = true)
    (h : ServedStep okMessage okFile st ch call ret mids st' ch') : st' = st ∧ ch.Same ch' := by
  cases h with
  | query _ hsame => exact ⟨rfl, hsame⟩
  | _ => cases hq

/-- One call of the program is one of the file system, and keeps the invariant. -/
theorem FlatInvariant.snoc (h : FlatInvariant evs w) (hstep : FlatStep config w ev w') :
    TreeMove w.tree ev w'.tree ∧ FlatInvariant (evs ++ [ev]) w' := by
  have hrun := h.toRunInvariant.snoc hstep.fileStep
  obtain ⟨hcall, hworld⟩ := hstep
  have hp := hcall.2.1.valid
  have hserved := step_served h.wf h.blank hp hcall.1.2.1 hworld
  have hmove : TreeMove w.tree ev w'.tree := by
    obtain ⟨call, log, reply⟩ := ev
    obtain ⟨⟨heap, he⟩, hs⟩ := hworld
    by_cases hq : call.isQuery = true
    · obtain ⟨hst, hsame⟩ := hserved.of_isQuery hq
      have htree : w'.tree = w.tree := by
        funext q
        refine tree_congr (by rw [hst]) fun f _ => Channel.node_congr fun _ => ?_
        rw [hsame.documents]
      rw [TreeMove, htree]
      exact h.query hcall hq he hs
    · rw [Bool.not_eq_true] at hq
      have hreply : reply = .status reply.ret := by
        cases call with
        | create | mkdir | write | unlink | rmdir =>
            obtain ⟨a, -, rfl⟩ := exec_reply.mp he
            rfl
        | _ => cases hq
      rw [TreeMove, hreply]
      exact h.change hcall hq hserved
  refine ⟨hmove, hrun, fun f hf => ?_, Permits.small h.small hcall.2.2 hmove⟩
  have htab := step_table h.wf hp hworld.1
  rcases htab.path_mem h.wf hp hf with hpath | ⟨g, hg, hpath⟩
  · rw [hpath]
    exact hcall.2.1
  · rw [← hpath]
    exact h.flat g hg

end Steps

-- ============================================================================
-- Runs
-- ============================================================================

section Runs

variable {config : TgConfig} {w₀ w : World} {evs : List Event}

theorem initial_tree (h0 : Initial w₀.statics) : w₀.tree = rootTree := by
  obtain ⟨-, hlive, -⟩ := initial_live h0
  have hl : w₀.statics.storage.lookup (text "/") = some (newDir (text "/")) := by
    rw [TgStorage.lookup, hlive]
    decide
  funext q
  by_cases hq : q = text "/"
  · rw [hq, tree_of_lookup hl, rootTree, put_self]
    rfl
  · rw [rootTree, put_of_ne hq, tree_eq_none_iff, lookup_none, hlive]
    intro f hf
    rw [List.mem_singleton.mp hf, newDir_pathStr validPath_root]
    exact Ne.symm hq

theorem flatInvariant_nil (h0 : Initial w₀.statics)
    (hch : ∀ mid, w₀.channel.messages mid = none) : FlatInvariant [] w₀ := by
  refine ⟨runInvariant_nil h0 hch, fun f hf => ?_, fun p bytes hp => ?_⟩
  · obtain ⟨-, hlive, -⟩ := initial_live h0
    rw [hlive, List.mem_singleton] at hf
    rw [hf, newDir_pathStr validPath_root]
    decide
  · rw [initial_tree h0, rootTree] at hp
    by_cases hroot : p = text "/"
    · rw [hroot, put_self] at hp
      cases hp
    · rw [put_of_ne hroot] at hp
      cases hp

theorem flatInvariant (h0 : Initial w₀.statics) (hch : ∀ mid, w₀.channel.messages mid = none)
    (hrun : Run (FlatStep config) w₀ evs w) : FlatInvariant evs w :=
  hrun.invariant (P := FlatInvariant) (flatInvariant_nil h0 hch)
    fun _ _ _ _ _ h hstep => (h.snoc hstep).2

/-- Runs from a state with the invariant are runs of the file system. -/
theorem FlatInvariant.refines {w' : World} {evs' : List Event} (h : FlatInvariant evs w)
    (hrun : Run (FlatStep config) w evs' w') :
    FlatInvariant (evs ++ evs') w' ∧ Run TreeMove w.tree evs' w'.tree := by
  induction hrun with
  | nil => exact ⟨by rwa [List.append_nil], .nil⟩
  | snoc _ hstep ih =>
      obtain ⟨hinv, hrun⟩ := ih
      obtain ⟨hmove, hinv'⟩ := hinv.snoc hstep
      exact ⟨by rwa [← List.append_assoc], .snoc hrun hmove⟩

/-- Every run of the program from its start is a run of the file system from the
    mount point, with the same replies, and stands for the state that run reaches. -/
theorem refines_file_system (h0 : Initial w₀.statics)
    (hch : ∀ mid, w₀.channel.messages mid = none) (hrun : Run (FlatStep config) w₀ evs w) :
    Run TreeMove rootTree evs w.tree := by
  rw [← initial_tree h0]
  exact ((flatInvariant_nil h0 hch).refines hrun).2

/-- The check an evaluation makes before each call. -/
def flatCheck (ok : Call → Bool) (s : Statics) (call : Call) : Bool :=
  decide (FlatCall s.storage call) && ok call

/-- Calls that an evaluation makes, with a server for their requests. -/
theorem flatRun_of_run {ok : Call → Bool} {s s' : Statics} {ch ch' : Channel}
    (hrun : Run (fun s ev s' => Step blankConfig s ev s' ∧ flatCheck ok s ev.call = true) s evs s')
    (hserve : Serve Serving ch (evs.flatMap Event.log) ch') :
    Run (fun w ev w' => FlatStep blankConfig w ev w' ∧ ok ev.call = true)
      ⟨s, ch⟩ evs ⟨s', ch'⟩ := by
  have hworld := run_world (A := fun s ev => FlatCall s.storage ev.call ∧ ok ev.call = true)
    (hrun.mono fun t e u ⟨hstep, hok⟩ => ⟨hstep, by simpa [flatCheck] using hok⟩) hserve
  exact hworld.mono fun t e u ⟨⟨hflat, hok⟩, hstep⟩ => ⟨⟨hflat, hstep⟩, hok⟩

/-- A run from `main` that an evaluation provides, with a server for its requests. -/
theorem flatRun_of_runFromMain (ok : Call → Bool) (calls : List (Call × List Response))
    (log : List (Request × Response)) (P : List Event → Prop) [∀ evs, Decidable (P evs)]
    (h : (runFromMain (flatCheck ok) calls).any
      (fun r => r.2.1.flatMap Event.log = log ∧ P r.2.1) = true)
    {ch : Channel} (hserve : Serve Serving Channel.empty log ch) :
    ∃ w₀ evs w, Initial w₀.statics ∧ (∀ mid, w₀.channel.messages mid = none) ∧ P evs ∧
      Run (fun w ev w' => FlatStep blankConfig w ev w' ∧ ok ev.call = true) w₀ evs w := by
  obtain ⟨s₀, evs, s, h0, ⟨rfl, hP⟩, hrun⟩ := run_of_runFromMain (flatCheck ok) calls
    (fun evs _ => evs.flatMap Event.log = log ∧ P evs) h
  exact ⟨⟨s₀, Channel.empty⟩, evs, ⟨s, ch⟩, h0, fun _ => rfl, hP, flatRun_of_run hrun hserve⟩

/-- The requests of a file in `"/d"`: it is written, half overwritten, read and deleted. -/
def sampleTraffic : List (Request × Response) :=
  [(.sendDocument blankConfig (text "/d") (text "a") (text "xy"),
      sentAnswer (text "17") (text "AAA")),
    (.getFile blankConfig (text "AAA"), locatedAnswer (text "f1")),
    (.download blankConfig (text "f1"), .whole (text "xy")),
    (.editMessageMedia blankConfig (text "17") (text "/d") (text "a") (text "xz"),
      editedAnswer (text "BBB")),
    (.getFile blankConfig (text "BBB"), locatedAnswer (text "f2")),
    (.download blankConfig (text "f2"), .whole (text "xz")),
    (.deleteMessage blankConfig (text "17"), deletedAnswer)]

theorem Channel.post_document (ch : Channel) (mid fid : Id) (document : List UInt8) :
    (ch.post mid fid document).documents fid = some document := Function.update_self ..

theorem Channel.edit_document (ch : Channel) (mid fid : Id) (document : List UInt8) :
    (ch.edit mid fid document).documents fid = some document := Function.update_self ..

theorem Channel.remove_documents (ch : Channel) (mid : Id) :
    (ch.remove mid).documents = ch.documents := rfl

theorem Channel.locate_file (ch : Channel) (path : List UInt8) (fid : Id) :
    (ch.locate path fid).files path = some fid := Function.update_self ..

theorem sampleTraffic_served : ∃ ch, Serve Serving Channel.empty sampleTraffic ch := by
  refine ⟨_, _, serves_sent (by decide) (by decide) (by decide) List.not_mem_nil rfl,
    _, serves_located (by decide) (Channel.post_document ..) (Or.inl rfl),
    _, serves_downloaded (Channel.post_document ..), _, serves_edited (by decide) ?_,
    _, serves_located (by decide) (Channel.edit_document ..) (Or.inl ?_),
    _, serves_downloaded (Channel.edit_document ..), _, serves_deleted, rfl⟩
  · rw [Channel.FreshFile, Channel.locate_documents, Channel.post_documents,
      Function.update_of_ne (by decide)]
    rfl
  · show Function.update Channel.empty.files (text "f1") (some (text "AAA")) (text "f2") = none
    rw [Function.update_of_ne (by decide)]
    rfl

/-- The half overwritten file is read and listed, and goes with its directory. -/
theorem refines_file_system_sample :
    ∃ evs w, Run TreeMove rootTree evs (World.tree w) ∧ evs.map Event.reply =
      [.status 0, .status 0, .status 2, .status 1, .data 2 (text "xz"),
        .listing 0 [text ".", text "..", text "a"], .status 0, .status (-enoent)] := by
  obtain ⟨ch, hserve⟩ := sampleTraffic_served
  obtain ⟨w₀, evs, w, h0, hch, hreplies, hrun⟩ := flatRun_of_runFromMain (fun _ => true)
    [(.mkdir (text "/d"), []), (.create (text "/d/a"), []),
      (.write (text "/d/a") (text "xy") 0, [sentAnswer (text "17") (text "AAA")]),
      (.write (text "/d/a") (text "z") 1, [locatedAnswer (text "f1"), .whole (text "xy"),
        editedAnswer (text "BBB")]),
      (.read (text "/d/a") 5 0, [locatedAnswer (text "f2"), .whole (text "xz")]),
      (.readdir (text "/d"), []), (.rmdir (text "/d"), [deletedAnswer]),
      (.open (text "/d/a"), [])]
    sampleTraffic
    (fun evs => evs.map Event.reply =
      [.status 0, .status 0, .status 2, .status 1, .data 2 (text "xz"),
        .listing 0 [text ".", text "..", text "a"], .status 0, .status (-enoent)])
    (by decide +kernel) hserve
  have hflat := hrun.mono fun _ _ _ h => h.1
  exact ⟨evs, w, refines_file_system h0 hch hflat, hreplies⟩

end Runs

end TgFuse

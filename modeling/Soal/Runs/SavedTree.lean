/-
  Soal.Runs.SavedTree — when HEAD can be read after an operation that made a commit.

  A tree is saved in wire form, and the wire decoder validates every path.  Adding validates the new
  paths only, a merge validates none, and a tree that was imported as legacy JSON was never validated:
  its paths are written as they are, and the tree that was saved does not load again.
-/
import Soal.Codec.Faithful
import Soal.Runs.HeadComplete

namespace Soal

open FileProg Worklist

/-! ## §1. A merge and an addition keep every path. -/

/-- Every path of `t` is one of `t'`. -/
def Tree.Covers (t' t : Tree) : Prop :=
  ∀ path, (t.entries.get? path).isSome → (t'.entries.get? path).isSome

section Covers

variable {t t' t'' : Tree}

theorem Tree.Covers.refl (t : Tree) : t.Covers t := fun _ h => h

theorem Tree.Covers.trans (h : t'.Covers t) (h' : t''.Covers t') : t''.Covers t := by
  intro path hpath
  exact h' path (h path hpath)

/-- Paths of a covered tree are valid when those of the covering one are. -/
theorem Tree.Covers.pathsValid (h : t'.Covers t) (hvalid : t'.PathsValid) : t.PathsValid := by
  intro path entry hget
  have hpath : (t'.entries.get? path).isSome := h path (by rw [hget]; rfl)
  obtain ⟨entry', hget'⟩ := Option.isSome_iff_exists.1 hpath
  exact hvalid path entry' hget'

theorem Tree.covers_insert (t : Tree) (path : String) (entry : TreeEntry) :
    Tree.Covers ⟨t.entries.insert path entry⟩ t := by
  intro path' hpath
  show ((t.entries.insert path entry).get? path').isSome
  rw [SortedMap.get?_insert]
  by_cases heq : path = path'
  · rw [if_pos heq]
    rfl
  · rw [if_neg heq]
    exact hpath

/-- Adding files keeps the paths there are. -/
theorem Tree.covers_addEntries {entries : List FileEntry} (h : t.addEntries entries = .ok t') :
    t'.Covers t := by
  induction entries generalizing t with
  | nil =>
    obtain rfl := Except.ok.inj h
    exact .refl t
  | cons e entries ih =>
    obtain ⟨path, size, chunks⟩ := e
    obtain ⟨t₁, h₁, h⟩ := bind_ok_iff.1 h
    obtain ⟨path', -, rfl⟩ := Tree.tryAddFile_ok_iff.1 h₁
    exact (Tree.covers_insert t path' _).trans (ih h)

/-- Merging one entry keeps the paths there are, and the entry's own path is there. -/
theorem Tree.covers_mergeEntry (label : String) (acc : Tree × Nat) (x : String × TreeEntry) :
    (Tree.mergeEntry label acc x).1.Covers acc.1 ∧
      ((Tree.mergeEntry label acc x).1.entries.get? x.1).isSome := by
  unfold Tree.mergeEntry
  cases hget : acc.1.entries.get? x.1 with
  | none =>
    refine ⟨Tree.covers_insert _ _ _, ?_⟩
    show ((acc.1.entries.insert x.1 x.2).get? x.1).isSome
    rw [SortedMap.get?_insert, if_pos rfl]
    rfl
  | some ourEntry =>
    have hpath : (acc.1.entries.get? x.1).isSome := by rw [hget]; rfl
    by_cases heq : ourEntry = x.2
    · simp only [if_pos heq]
      exact ⟨.refl _, hpath⟩
    · simp only [if_neg heq]
      exact ⟨Tree.covers_insert _ _ _, Tree.covers_insert _ _ _ _ hpath⟩

/-- A merge keeps the paths of both sides: the induction is on the entries of theirs. -/
theorem Tree.covers_merge (ours theirs : Tree) (label : String) :
    (ours.mergeWithConflicts theirs label).1.Covers ours ∧
      (ours.mergeWithConflicts theirs label).1.Covers theirs := by
  have hfold : ∀ (l : List (String × TreeEntry)) (acc : Tree × Nat),
      (l.foldl (Tree.mergeEntry (sanitizeConflictLabel label)) acc).1.Covers acc.1 ∧
        ∀ x ∈ l, ((l.foldl (Tree.mergeEntry (sanitizeConflictLabel label)) acc).1.entries.get?
          x.1).isSome := by
    intro l
    induction l with
    | nil =>
      intro acc
      exact ⟨.refl acc.1, fun x hx => absurd hx List.not_mem_nil⟩
    | cons y l ih =>
      intro acc
      obtain ⟨hkept, hown⟩ := Tree.covers_mergeEntry (sanitizeConflictLabel label) acc y
      obtain ⟨hrest, hall⟩ := ih (Tree.mergeEntry (sanitizeConflictLabel label) acc y)
      refine ⟨hkept.trans hrest, fun x hx => ?_⟩
      rcases List.mem_cons.1 hx with rfl | hx
      · exact hrest x.1 hown
      · exact hall x hx
  obtain ⟨hours, htheirs⟩ := hfold theirs.entries.entries (ours, 0)
  refine ⟨hours, fun path hpath => ?_⟩
  obtain ⟨entry, hget⟩ := Option.isSome_iff_exists.1 hpath
  exact htheirs (path, entry) (SortedMap.mem_entries.2 hget)

end Covers

section Laws

variable [Crates]

/-! ## §2. Reading HEAD after an operation. -/

/-- HEAD is at `c`.  Its commit loads, and the commit's tree loads as it was saved for `c`, or, where
a stored tree was used again, as it loaded before. -/
def HeadReads (P : Plan) (fs fs' : VaultFs) (c : ContentHash) : Prop :=
  ReadM.eval fs' head = .ok (some c) ∧ ∃ k tree, ReadM.eval fs' (loadCommit c) = .ok k ∧
    ReadM.eval fs' (loadTree k.tree) = .ok tree ∧
    ((∃ w₁, ChunksAdded (World.boot fs) w₁ ∧ P.saves w₁.fs tree ∧
        treeKind.hash tree = .ok k.tree) ∨
      P.reuses k.tree ∧ ReadM.eval fs (loadTree k.tree) = .ok tree)

section Operations

variable {P : Plan} {fs : VaultFs} {c : ContentHash} {w' : VaultWorld}

/-- The new commit loads, and every tree as when the commit's tree was in place. -/
theorem Extended.loads (h : Extended P (World.boot fs) c w') (hP : P.Tidy) : ∃ w₂ k,
    Prepared P (World.boot fs) w₂ k.tree ∧ ReadM.eval w'.fs head = .ok (some c) ∧
      ReadM.eval w'.fs (loadCommit c) = .ok k ∧
      ∀ t, ReadM.eval w'.fs (loadTree t) = ReadM.eval w₂.fs (loadTree t) := by
  obtain ⟨w₂, k, bytes, hp, -, hb, rfl, hhead, hl⟩ := h.lookup hP
  refine ⟨w₂, k.normal, hp, hhead, eval_loadCommit_saved hb ?_, ?_⟩
  · rw [hl _ (by simp [commitPathBin]), if_pos rfl]
  · refine eval_loadTree_congr fun p hd => ?_
    rw [hl p (by simp [hd]), if_neg]
    rintro rfl
    cases hd

/-- HEAD can be read when the saved tree has valid paths, and the tree used again loads. -/
theorem Extended.reads (h : Extended P (World.boot fs) c w') (hP : P.Tidy)
    (hsave : ∀ w₁ tree, ChunksAdded (World.boot fs) w₁ → P.saves w₁.fs tree → tree.PathsValid)
    (hreuse : ∀ t, P.reuses t → ∃ tree, ReadM.eval fs (loadTree t) = .ok tree) :
    HeadReads P fs w'.fs c := by
  obtain ⟨w₂, k, hp, hhead, hk, htrees⟩ := h.loads hP
  generalize htree : k.tree = t at hp
  cases hp with
  | saved ha hs hb ht hw =>
    rename_i w₁ tree bytes
    have hload : ReadM.eval w₂.fs (loadTree (.of bytes)) = .ok tree := by
      refine eval_loadTree_saved hb (hsave w₁ tree ha hs).mem ?_
      rw [hw, World.lookup_written, if_pos rfl]
    have hhash : treeKind.hash tree = .ok k.tree := by
      rw [htree, ht]
      exact congrArg (Except.map ContentHash.of) hb
    refine ⟨hhead, k, tree, hk, ?_, .inl ⟨w₁, ha, hs, hhash⟩⟩
    rw [htree, ht, htrees, hload]
  | reused hr hw =>
    obtain ⟨tree, hload⟩ := hreuse t hr
    refine ⟨hhead, k, tree, hk, ?_, .inr ⟨htree ▸ hr, htree ▸ hload⟩⟩
    rw [htree, htrees, hw]
    exact hload

/-- Where a tree was saved and HEAD can be read, that tree has valid paths. -/
theorem Extended.valid (h : Extended P (World.boot fs) c w') (hP : P.Tidy)
    (hno : ∀ t, ¬P.reuses t) (hreads : HeadReads P fs w'.fs c) :
    ∃ w₁ tree, ChunksAdded (World.boot fs) w₁ ∧ P.saves w₁.fs tree ∧ tree.PathsValid := by
  obtain ⟨w₂, k, hp, -, hk, htrees⟩ := h.loads hP
  obtain ⟨-, k', tree, hk', hload, hfrom⟩ := hreads
  obtain rfl := Except.ok.inj (hk.symm.trans hk')
  obtain ⟨w₁, ha, hs, -⟩ := hfrom.resolve_right fun hr => hno _ hr.1
  refine ⟨w₁, tree, ha, hs, ?_⟩
  generalize k.tree = t at hp hload
  cases hp with
  | saved ha' hs' hb ht hw =>
    rename_i bytes
    have hfile : w₂.fs.lookup (treePathBin t) = some bytes := by
      rw [hw, ht, World.lookup_written]
      exact if_pos rfl
    rw [htrees] at hload
    obtain ⟨hvalid, rfl⟩ := loadTree_written hb hfile hload
    exact hvalid
  | reused hr hw => exact absurd hr (hno t)

end Operations

/-! ## §3. One operation. -/

/-- What a command has to find so that HEAD can be read after it: additions and merges, trees with
valid paths; a snapshot and an adoption, a tree that loads.  Imports may come in any state. -/
def Command.FindsTrees (fs : VaultFs) : Command → Prop
  | .addPath source baseName => (Command.addPath source baseName).ValidTrees fs
  | .snapshot _ => ∀ h k, ReadM.eval fs head = .ok (some h) →
      ReadM.eval fs (loadCommit h) = .ok k → ∃ tr, ReadM.eval fs (loadTree k.tree) = .ok tr
  | .mergeHead r label => (Command.mergeHead r label).ValidTrees fs
  | .setHeadPublic c => ∀ k, ReadM.eval fs (loadCommit c) = .ok k →
      ∃ tr, ReadM.eval fs (loadTree k.tree) = .ok tr
  | .importCommit _ _ => True
  | .importTree _ _ => True
  | .importChunk _ _ => True
  | _ => False

section OneOperation

variable {fs : VaultFs} {v : Vault} {c : ContentHash} {w' : VaultWorld}

/-- HEAD's tree, with valid paths when those of HEAD's commit are. -/
theorem headTree_pathsValid_iff {l : Option ContentHash} {tree : Tree}
    (hl : ReadM.eval fs head = .ok l) (ht : ReadM.eval fs (treeOfHead l) = .ok tree) :
    (∀ h, ReadM.eval fs head = .ok (some h) → TreePathsValid fs h) ↔ tree.PathsValid := by
  cases l with
  | none =>
    obtain rfl := Except.ok.inj ht
    constructor
    · intro _
      exact Tree.all_new
    · intro _ h hh
      cases hl.symm.trans hh
  | some h =>
    unfold treeOfHead at ht
    rw [ReadM.eval_bind] at ht
    obtain ⟨k, hk, ht⟩ := bind_ok_iff.1 ht
    constructor
    · intro hvalid
      exact hvalid h hl k tree hk ht
    · intro hvalid h' hh' k' tr' hk' htr'
      obtain rfl := Option.some.inj (Except.ok.inj (hl.symm.trans hh'))
      obtain rfl := Except.ok.inj (hk.symm.trans hk')
      obtain rfl := Except.ok.inj (ht.symm.trans htr')
      exact hvalid

/-- **After an addition** HEAD can be read exactly when the paths of the tree that was extended are
valid. -/
theorem Extended.addPath_reads_iff {source : Source} {baseName : String}
    (he : Extended (addPlan v source baseName fs) (World.boot fs) c w') :
    HeadReads (addPlan v source baseName fs) fs w'.fs c ↔
      (Command.addPath source baseName).FindsTrees fs := by
  constructor
  · intro hreads
    obtain ⟨w₁, tree, -, ⟨_, entries, old, -, -, hold, hadd⟩, hvalid⟩ :=
      he.valid (addPlan_tidy v source baseName fs) (fun _ h => h) hreads
    rw [eval_headTree] at hold
    obtain ⟨l, hl, hold⟩ := bind_ok_iff.1 hold
    exact (headTree_pathsValid_iff hl hold).2 ((Tree.covers_addEntries hadd).pathsValid hvalid)
  · intro hfinds
    refine he.reads (addPlan_tidy v source baseName fs) ?_ fun _ h => h.elim
    rintro w₁ tree - ⟨_, entries, old, -, -, hold, hadd⟩
    rw [eval_headTree] at hold
    obtain ⟨l, hl, hold⟩ := bind_ok_iff.1 hold
    have hvalid : old.PathsValid := (headTree_pathsValid_iff hl hold).1 hfinds
    exact hvalid.addEntries hadd fun _ _ _ hpath => hpath

/-- **After a snapshot** HEAD can be read exactly when the tree of HEAD could be read before. -/
theorem Extended.snapshot_reads_iff (message : String)
    (he : Extended (snapshotPlan fs) (World.boot fs) c w') :
    HeadReads (snapshotPlan fs) fs w'.fs c ↔ (Command.snapshot message).FindsTrees fs := by
  constructor
  · intro hreads h k₀ hh hk₀
    obtain ⟨-, k, tree, hk, -, hfrom⟩ := hreads
    rcases hfrom with ⟨w₁, -, ⟨hnone, -⟩, -⟩ | ⟨⟨h', k', hh', hk', htree⟩, hload⟩
    · cases hnone.symm.trans hh
    · obtain rfl := Option.some.inj (Except.ok.inj (hh.symm.trans hh'))
      obtain rfl := Except.ok.inj (hk₀.symm.trans hk')
      exact ⟨tree, htree ▸ hload⟩
  · intro hfinds
    refine he.reads (snapshotPlan_tidy fs) ?_ ?_
    · rintro w₁ tree - ⟨-, rfl⟩
      exact Tree.all_new
    · rintro t ⟨h, k, hh, hk, rfl⟩
      exact hfinds h k hh hk

/-- **After a merge** HEAD can be read exactly when the paths of both trees are valid. -/
theorem Extended.mergeHead_reads_iff {r : ContentHash} {label : String}
    (he : Extended (mergePlan r label fs) (World.boot fs) c w') :
    HeadReads (mergePlan r label fs) fs w'.fs c ↔ (Command.mergeHead r label).FindsTrees fs := by
  constructor
  · intro hreads
    obtain ⟨w₁, tree, -, ⟨k, theirs, l, ours, hk, htheirs, hl, ho, rfl⟩, hvalid⟩ :=
      he.valid (mergePlan_tidy r label fs) (fun _ h => h) hreads
    obtain ⟨hours, hcovers⟩ := Tree.covers_merge ours theirs label
    refine ⟨(headTree_pathsValid_iff hl ho).2 (hours.pathsValid hvalid), ?_⟩
    intro k' tr' hk' htr'
    obtain rfl := Except.ok.inj (hk.symm.trans hk')
    obtain rfl := Except.ok.inj (htheirs.symm.trans htr')
    exact hcovers.pathsValid hvalid
  · rintro ⟨hours, htheirs⟩
    refine he.reads (mergePlan_tidy r label fs) ?_ fun _ h => h.elim
    rintro w₁ tree - ⟨k, theirs, l, ours, hk, htr, hl, ho, rfl⟩
    have hvalid : ours.PathsValid := (headTree_pathsValid_iff hl ho).1 hours
    exact Tree.All.merge hvalid (htheirs k theirs hk htr) fun _ _ h => validatePath_conflict label h

end OneOperation

/-! ## §4. Whole runs. -/

/-- The operations of a vault that takes over commits and trees, and makes commits. -/
def Command.Exchanges : Command → Prop
  | .importCommit _ _ | .importTree _ _ | .setHeadPublic _ | .addPath _ _ | .snapshot _
  | .mergeHead _ _ => True
  | _ => False

/-- HEAD's commit and tree load. -/
def HeadReadable (fs : VaultFs) : Prop :=
  ∀ h, ReadM.eval fs head = .ok (some h) → ∃ k tr, ReadM.eval fs (loadCommit h) = .ok k ∧
    ReadM.eval fs (loadTree k.tree) = .ok tr

section Runs

variable {S : Bytes → Prop} {fs fs' : VaultFs}

/-- HEAD is where it was, and nothing was lost. -/
theorem HeadReadable.same (h : HeadReadable fs) (hr : Retains fs fs')
    (hhead : ReadM.eval fs' head = ReadM.eval fs head) : HeadReadable fs' := by
  intro c hc
  rw [hhead] at hc
  obtain ⟨k, tr, hk, htr⟩ := h c hc
  obtain ⟨k', hk', htree⟩ := hr.commits c k hk
  exact ⟨k', tr, hk', htree ▸ hr.trees _ _ htr⟩

/-- HEAD is at a commit that loads with its tree. -/
theorem headReadable_of {c : ContentHash} {k : Commit} {tr : Tree}
    (hhead : ReadM.eval fs' head = .ok (some c)) (hk : ReadM.eval fs' (loadCommit c) = .ok k)
    (htr : ReadM.eval fs' (loadTree k.tree) = .ok tr) : HeadReadable fs' := by
  intro c' hc'
  obtain rfl := Option.some.inj (Except.ok.inj (hhead.symm.trans hc'))
  exact ⟨k, tr, hk, htr⟩

/-- An operation that makes a commit, however it ends. -/
theorem HeadReadable.extend {P : Plan} {r : Res ContentHash} {w' : VaultWorld}
    (h : HeadReadable fs) (hends : ExtendEnds P (World.boot fs) r w') (hr : Retains fs w'.fs)
    (hreads : ∀ c, Extended P (World.boot fs) c w' → HeadReads P fs w'.fs c) :
    HeadReadable w'.fs := by
  rcases hends.head with hhead | ⟨c, he⟩
  · exact h.same hr hhead
  · obtain ⟨hhead, k, tr, hk, htr, -⟩ := hreads c he
    exact headReadable_of hhead hk htr

/-- **One command**: HEAD can still be read. -/
theorem HeadReadable.step (laws : JsonLaws) (hS : CollisionFree S) (h : HeadReadable fs)
    (hstep : Step S (fun fs cmd => cmd.FindsTrees fs) fs fs') : HeadReadable fs' := by
  cases hstep with
  | mk v env cmd hfinds hdata hdata' hserved =>
    obtain ⟨hc, ht⟩ := separate_of_dataIn hS hdata hdata'
    cases cmd with
    | addPath source baseName =>
      -- the saved tree loads again because the operation found the trees it builds on
      have hends := addPath_ends v env fs source baseName
      exact h.extend hends ((hends.saved (addPlan_tidy v source baseName fs)).retains laws hc ht)
        fun c he => he.addPath_reads_iff.2 hfinds
    | snapshot message =>
      have hends := snapshot_ends v env fs message
      exact h.extend hends ((hends.saved (snapshotPlan_tidy fs)).retains laws hc ht)
        fun c he => (he.snapshot_reads_iff message).2 hfinds
    | mergeHead r label =>
      have hends := mergeHead_ends v env fs r label
      exact h.extend hends ((hends.saved (mergePlan_tidy r label fs)).retains laws hc ht)
        fun c he => he.mergeHead_reads_iff.2 hfinds
    | importCommit hash data =>
      show HeadReadable (run env (importCommitBytes hash data) (World.boot fs)).2.fs
      have hc : commitKind.Separate fs
        (run env (importCommitBytes hash data) (World.boot fs)).2.fs := hc
      unfold importCommitBytes at hc ⊢
      -- an import never takes away what loads
      rcases importBytes_ends commitKind env fs hash data with hw | ⟨x, hx, hw⟩
      · rw [hw]
        exact h
      · rw [hw] at hc ⊢
        exact h.same (retains_importCommit (w := World.boot fs) laws hx hc)
          (eval_head_congr (commitKind.lookup_imported (by simp [headFile, commitKind])))
    | importTree hash data =>
      show HeadReadable (run env (importTreeBytes hash data) (World.boot fs)).2.fs
      have ht : treeKind.Separate fs
        (run env (importTreeBytes hash data) (World.boot fs)).2.fs := ht
      unfold importTreeBytes at ht ⊢
      rcases importBytes_ends treeKind env fs hash data with hw | ⟨x, hx, hw⟩
      · rw [hw]
        exact h
      · rw [hw] at ht ⊢
        exact h.same (retains_importTree (w := World.boot fs) laws hx ht)
          (eval_head_congr (treeKind.lookup_imported (by simp [headFile, treeKind])))
    | importChunk hash data =>
      have ha := importStoredChunk_ends env fs hash data
      have hl : ∀ p : FilePath VaultDir, p.dir ≠ .chunks →
        (run env (importStoredChunk hash data) (World.boot fs)).2.fs.lookup p = fs.lookup p :=
        fun p hp => ha.other hp
      refine h.same (.mk' ?_ ?_ fun ch hch => ha.mem hch) (eval_head_congr (hl _ (by decide)))
      · exact ObjectKind.persists_of_eq fun p hp => hl p (by simp [hp, commitKind])
      · exact ObjectKind.persists_of_eq fun p hp => hl p (by simp [hp, treeKind])
    | setHeadPublic c =>
      show HeadReadable (run env (Soal.setHeadPublic c) (World.boot fs)).2.fs
      rcases setHeadPublic_ends env fs c with hw | ⟨⟨k, hk⟩, hhead, hl⟩
      · rw [hw]
        exact h
      · -- the source loads the commit only; that its tree loads is what the step was given
        obtain ⟨tr, htr⟩ := hfinds k hk
        have hkept : ∀ p : FilePath VaultDir, p.dir = .commits ∨ p.dir = .trees →
            (run env (Soal.setHeadPublic c) (World.boot fs)).2.fs.lookup p = fs.lookup p := by
          intro p hp
          refine hl p ?_
          rcases hp with hp | hp <;> simp [hp]
        have hk' := (eval_loadCommit_congr (fun p hp => hkept p (.inl hp)) c).trans hk
        have htr' := (eval_loadTree_congr (fun p hp => hkept p (.inr hp)) k.tree).trans htr
        exact headReadable_of hhead hk' htr'
    | fetchDag peers target adopt => exact hfinds.elim
    | setDivergentHead c => exact hfinds.elim
    | gcAll => exact hfinds.elim

end Runs

/-- **Reading HEAD again.**  In every state of a run whose commands all find the trees they need, HEAD's
commit and tree load.  In any state, the tree that was saved by a successful addition, snapshot or merge
loads again, as it was saved, if and only if the operation found these trees. -/
theorem saved_tree_reads_iff (laws : JsonLaws) {S : Bytes → Prop} (hS : CollisionFree S)
    {fs₀ : VaultFs} (hreach : Reached S (fun fs cmd => cmd.FindsTrees fs) fs₀) :
    HeadReadable fs₀ ∧ ∀ (fs : VaultFs) (v : Vault) (env : Outside) (c : ContentHash),
      (∀ source baseName, (run env (v.addPath source baseName) (World.boot fs)).1 = .ok c →
        (HeadReads (addPlan v source baseName fs) fs
            ((Command.addPath source baseName).after v env fs) c ↔
          (Command.addPath source baseName).FindsTrees fs)) ∧
      (∀ message, (run env (v.snapshot message) (World.boot fs)).1 = .ok c →
        (HeadReads (snapshotPlan fs) fs ((Command.snapshot message).after v env fs) c ↔
          (Command.snapshot message).FindsTrees fs)) ∧
      ∀ r label n, (run env (v.mergeHead r label) (World.boot fs)).1 = .ok (c, n) →
        (HeadReads (mergePlan r label fs) fs ((Command.mergeHead r label).after v env fs) c ↔
          (Command.mergeHead r label).FindsTrees fs) := by
  have hrun : HeadReadable fs₀ := by
    refine hreach.induct (P := HeadReadable) (fun fs hfresh => ?_)
      fun fs fs' hfs hstep => hfs.step laws hS hstep
    intro c hc
    cases hfresh.head.symm.trans hc
  refine ⟨hrun, fun fs v env c => ⟨?_, ?_, ?_⟩⟩
  · intro source baseName hok
    exact ((addPath_ends v env fs source baseName).1 c hok).addPath_reads_iff
  · intro message hok
    exact ((snapshot_ends v env fs message).1 c hok).snapshot_reads_iff message
  · intro r label n hok
    have hends := (mergeHead_ends v env fs r label).1 c
    rw [hok] at hends
    exact (hends rfl).mergeHead_reads_iff

end Laws

/-! ## §5. A path that leads out of the vault. -/

/-- One empty file above the vault. -/
def outsideTree : Tree := ⟨.insert .empty "../x" (.file 0 [])⟩

/-- `outsideTree` in JSON. -/
def outsideText : String :=
  "\x7b\"entries\":\x7b\"../x\":\x7b\"type\":\"file\",\"size\":0,\"chunks\":[]\x7d\x7d\x7d"

/-- Digest of `outsideText`. -/
def treeOutside : ContentHash where
  bytes := [
    0x9b, 0xfb, 0x2c, 0xb2, 0x33, 0x84, 0xdf, 0x18, 0xda, 0x5a, 0x98, 0x53, 0x55, 0x36, 0x65,
    0xc3, 0x71, 0xac, 0x24, 0xfa, 0x48, 0x6d, 0x3a, 0x8a, 0x39, 0x58, 0x94, 0x6e, 0xf5, 0x52,
    0x2a, 0x29]
  length_eq := rfl

/-- A commit of that tree. -/
def outsideCommit : Commit := { sampleCommit [] 1700000000 "x" with tree := treeOutside }

def wireOutside : Bytes := plainWire sampleAuthor outsideCommit

/-- Digest of `outsideCommit`. -/
def hashOutside : ContentHash where
  bytes := [
    0x71, 0x90, 0xee, 0x83, 0xf7, 0xa9, 0xd2, 0x31, 0xa9, 0x10, 0x6c, 0x30, 0x0f, 0x3c, 0xeb,
    0x98, 0x8d, 0x77, 0xcb, 0x78, 0x49, 0x12, 0xf8, 0x0a, 0xc2, 0x9f, 0x2f, 0x56, 0xd7, 0xe0,
    0xab, 0x01]
  length_eq := rfl

/-- `outsideTree` in wire form. -/
def wireRewritten : Bytes :=
  domainTree ++ (writeMapHeader 1 ++ (writeU64 1 ++ (writeMapHeader 1 ++
    encodeTreeEntry ("../x", .file 0 []))))

/-- Digest of the wire form of `outsideTree`. -/
def treeRewritten : ContentHash where
  bytes := [
    0x44, 0xe3, 0x7e, 0x13, 0xa9, 0x7f, 0xe8, 0x36, 0x45, 0x91, 0xf8, 0x70, 0x6a, 0x54, 0x85,
    0x9b, 0x23, 0x37, 0x36, 0x7c, 0xff, 0x9e, 0x24, 0x91, 0x5d, 0xa0, 0x95, 0xa3, 0x47, 0x23,
    0xfd, 0xa1]
  length_eq := rfl

/-- The commit that merging `outsideCommit` makes. -/
def takenCommit : Commit :=
  { sampleCommit [hashOutside] 1700000001 "Merge peer" with
    tree := treeRewritten, author := "soal-local" }

def wireTaken : Bytes := plainWire localAuthorHash takenCommit

/-- Digest of `takenCommit`. -/
def hashTaken : ContentHash where
  bytes := [
    0xfc, 0x8a, 0x20, 0x60, 0x62, 0xbc, 0x3c, 0x1b, 0x1b, 0x19, 0xd5, 0xfa, 0xf7, 0xb8, 0xf6,
    0xf1, 0x06, 0x80, 0x99, 0xf9, 0x34, 0x9f, 0xf2, 0xae, 0xa3, 0xdb, 0x59, 0x1b, 0xe9, 0x1e,
    0x41, 0x07]
  length_eq := rfl

/-- BLAKE3 on the example. -/
def outsideDigest : Bytes → ContentHash :=
  tableDigest [(Text.toUtf8 outsideText, treeOutside), (wireOutside, hashOutside),
    (wireRewritten, treeRewritten), (wireTaken, hashTaken),
    (Text.toUtf8 "soal-author:soal-local", localAuthorHash)]

/-- Only `outsideText` parses. -/
def outsideFromSlice (b : Bytes) : Except String Tree :=
  if b = Text.toUtf8 outsideText then .ok outsideTree
  else .error "expected value at line 1 column 1"

/-- The third-party functions on the example. -/
@[reducible] noncomputable def outsideSample : Crates :=
  { standIn outsideDigest with
    treeFromSlice := outsideFromSlice
    treeToVec := fun _ => Text.toUtf8 outsideText }

section Sample

attribute [local instance] outsideSample

/-- After the import of the tree. -/
def outsideTreeDisk : VaultFs :=
  ((World.boot freshDisk).written (treePathJson treeOutside) (Text.toUtf8 outsideText)).fs

/-- After the import of the commit. -/
def outsideDisk : VaultFs :=
  ((World.boot outsideTreeDisk).written (commitPathBin hashOutside) wireOutside).fs

theorem outsideText_unframed : isFramed domainTree (Text.toUtf8 outsideText) = false := by
  decide

theorem outsideDigest_objects : outsideDigest (Text.toUtf8 outsideText) = treeOutside ∧
    outsideDigest wireOutside = hashOutside := by decide

theorem outside_of : ContentHash.of (Text.toUtf8 outsideText) = treeOutside ∧
    ContentHash.of wireOutside = hashOutside := outsideDigest_objects

/-- Only the one text parses as a tree, and none as a commit. -/
theorem outside_parsed : (∀ b t, treeKind.fromBytes b = .ok t →
      b = Text.toUtf8 outsideText ∧ t = outsideTree) ∧
    ∀ b c, commitKind.fromBytes b ≠ .ok c := by
  constructor
  · intro b t h
    have hslice : treeKind.fromBytes b = serde (outsideFromSlice b) := rfl
    rw [hslice, outsideFromSlice] at h
    by_cases hb : b = Text.toUtf8 outsideText
    · rw [if_pos hb] at h
      exact ⟨hb, (Except.ok.inj h).symm⟩
    · rw [if_neg hb] at h
      cases h
  · intro b c h
    cases h

theorem outside_fromBytes : treeKind.fromBytes (Text.toUtf8 outsideText) = .ok outsideTree := by
  have hslice : treeKind.fromBytes = fun b => serde (outsideFromSlice b) := rfl
  have hparse : outsideFromSlice (Text.toUtf8 outsideText) = .ok outsideTree := if_pos rfl
  rw [hslice]
  exact congrArg serde hparse

theorem outside_jsonLaws : JsonLaws where
  commit := {
    parsed := fun b c h => absurd h (outside_parsed.2 b c)
    printed := fun _ => by
      show isFramed domainCommit (Text.toUtf8 "\x7b\x7d") = false
      decide }
  tree := {
    parsed := fun b t h => (outside_parsed.1 b t h).1 ▸ outsideText_unframed
    printed := fun _ => outsideText_unframed }
  commitAgain := fun b c _ h => absurd h (outside_parsed.2 b c)
  treeAgain := fun b t t' h h' => by
    rw [(outside_parsed.1 b t h).2, (outside_parsed.1 _ t' h').2]

/-- The data of the example. -/
def OutsideData (b : Bytes) : Prop := b ∈ [Text.toUtf8 outsideText, wireOutside]

theorem outside_collisionFree : CollisionFree OutsideData := by
  have hnodup : ([Text.toUtf8 outsideText, wireOutside].map ContentHash.of).Nodup := by
    rw [List.map_cons, List.map_cons, List.map_nil, outside_of.1, outside_of.2]
    decide
  exact fun a b ha hb h => List.inj_on_of_nodup_map hnodup ha hb h

/-- What loading hashes on a disk whose object files hold data of the example. -/
theorem outside_dataIn {fs : VaultFs} (h : ∀ (p : FilePath VaultDir) b,
    p.dir = .commits ∨ p.dir = .trees → fs.lookup p = some b → OutsideData b) :
    DataIn OutsideData fs := by
  rintro b (hb | hb)
  · cases hb with
    | bin hl => exact h _ _ (.inl rfl) hl
    | json hl => exact h _ _ (.inl rfl) hl
    | legacy _ hx => exact absurd hx (outside_parsed.2 _ _)
  · cases hb with
    | bin hl => exact h _ _ (.inr rfl) hl
    | json hl => exact h _ _ (.inr rfl) hl
    | legacy _ _ hb =>
      rw [hb]
      exact List.mem_cons_self

theorem outside_imports : treeKind.Imports treeOutside (Text.toUtf8 outsideText) outsideTree ∧
    commitKind.Imports hashOutside wireOutside outsideCommit.normal := by
  constructor
  · refine ⟨outside_of.1, fun hf => ?_, fun _ => outside_fromBytes⟩
    have hf : isFramed domainTree (Text.toUtf8 outsideText) = true := hf
    rw [outsideText_unframed] at hf
    cases hf
  · rw [← outside_of.2]
    refine imports_commitWire (encodeCommitWire_plain (authorToBytes_toHex sampleAuthor) rfl rfl
      (by decide) (by decide +kernel)) ?_
    unfold verifyCommitSignature
    rw [outsideCommit.signatureBytes_normal, Commit.signatureBytes]
    exact if_pos rfl

theorem after_importOutside :
    (Command.importTree treeOutside (Text.toUtf8 outsideText)).after plainVault (quiet 0) freshDisk =
      outsideTreeDisk ∧
    (Command.importCommit hashOutside wireOutside).after plainVault (quiet 0) outsideTreeDisk =
      outsideDisk := by
  constructor
  · have hno : ¬isFramed domainTree (Text.toUtf8 outsideText) = true := by
      rw [outsideText_unframed]
      decide
    have hpath : treeKind.importPath treeOutside (Text.toUtf8 outsideText) =
        treePathJson treeOutside := if_neg hno
    show (run (quiet 0) (importTreeBytes _ _) (World.boot freshDisk)).2.fs = _
    rw [importTreeBytes, treeKind.run_importBytes (quiet 0) freshDisk outside_imports.1, hpath]
    rfl
  · have hpath : commitKind.importPath hashOutside wireOutside = commitPathBin hashOutside :=
      if_pos (isFramed_append domainCommit_length)
    show (run (quiet 0) (importCommitBytes _ _) (World.boot outsideTreeDisk)).2.fs = _
    rw [importCommitBytes, commitKind.run_importBytes (quiet 0) outsideTreeDisk outside_imports.2,
      hpath]
    rfl

theorem lookup_outsideDisk : outsideDisk.lookup (commitPathBin hashOutside) = some wireOutside ∧
    outsideDisk.lookup (treePathJson treeOutside) = some (Text.toUtf8 outsideText) ∧
    treePathBin treeOutside ∉ outsideDisk := by
  refine ⟨?_, ?_, ?_⟩
  · rw [outsideDisk, World.lookup_written, if_pos rfl]
  · rw [outsideDisk, World.lookup_written, if_neg (by simp [commitPathBin, treePathJson]),
      World.boot_fs, outsideTreeDisk, World.lookup_written, if_pos rfl]
  · rw [← AList.lookup_eq_none, outsideDisk, World.lookup_written,
      if_neg (by simp [commitPathBin, treePathBin]), World.boot_fs, outsideTreeDisk,
      World.lookup_written, if_neg (by simp [treePathBin, treePathJson, hexName])]
    exact AList.lookup_eq_none.2 (freshDisk_fresh.not_mem (by simp [treePathBin]))

/-- The two imports, whatever the commands have to meet that imports do. -/
theorem outside_reached {safe : VaultFs → Command → Prop}
    (htree : safe freshDisk (.importTree treeOutside (Text.toUtf8 outsideText)))
    (hcommit : safe outsideTreeDisk (.importCommit hashOutside wireOutside)) :
    Reached OutsideData safe outsideDisk := by
  have hfresh : DataIn OutsideData freshDisk := freshDisk_fresh.dataIn
  have hother : ∀ (p : FilePath VaultDir) b, p.dir = .commits ∨ p.dir = .trees →
      freshDisk.lookup p = some b → False := by
    intro p b hp hl
    refine freshDisk_fresh.not_mem (p := p) ?_ (Fs.mem_iff_lookup.2 ⟨b, hl⟩)
    rcases hp with hp | hp <;> simp [hp]
  have hfirst : ∀ (p : FilePath VaultDir) b, p.dir = .commits ∨ p.dir = .trees →
      outsideTreeDisk.lookup p = some b → OutsideData b := by
    intro p b hp hl
    rw [outsideTreeDisk, World.lookup_written] at hl
    split at hl
    next =>
      rw [← Option.some.inj hl]
      exact List.mem_cons_self
    next => exact (hother p b hp hl).elim
  have hsecond : ∀ (p : FilePath VaultDir) b, p.dir = .commits ∨ p.dir = .trees →
      outsideDisk.lookup p = some b → OutsideData b := by
    intro p b hp hl
    rw [outsideDisk, World.lookup_written] at hl
    split at hl
    next =>
      rw [← Option.some.inj hl]
      exact List.mem_cons_of_mem _ List.mem_cons_self
    next => exact hfirst p b hp hl
  have hserved : ∀ b, Served (quiet 0) b → OutsideData b :=
    fun b hb => absurd hb (not_served_quiet 0 b)
  have hone : Step OutsideData safe freshDisk outsideTreeDisk := by
    have h := Step.mk (S := OutsideData) plainVault (quiet 0) _ htree hfresh
    rw [after_importOutside.1] at h
    exact h (outside_dataIn hfirst) hserved
  have htwo : Step OutsideData safe outsideTreeDisk outsideDisk := by
    have h := Step.mk (S := OutsideData) plainVault (quiet 0) _ hcommit (outside_dataIn hfirst)
    rw [after_importOutside.2] at h
    exact h (outside_dataIn hsecond) hserved
  exact ((Reachable.root freshDisk_fresh).step hone).step htwo

/-- The commit and the tree load. -/
theorem outside_loads :
    ReadM.eval outsideDisk (loadCommit hashOutside) = .ok outsideCommit.normal ∧
    ReadM.eval outsideDisk (loadTree treeOutside) = .ok outsideTree := by
  obtain ⟨hcommit, htree, hno⟩ := lookup_outsideDisk
  constructor
  · have hwire : encodeCommitWire outsideCommit = .ok wireOutside :=
      encodeCommitWire_plain (authorToBytes_toHex sampleAuthor) rfl rfl (by decide)
        (by decide +kernel)
    exact eval_loadCommit_of hwire outside_of.2 hcommit
  · refine (treeKind.eval_load_json hno htree).trans (treeKind.parseJson_ok_iff.2 ?_)
    exact ⟨outside_fromBytes, .inr outside_of.1⟩

theorem run_takeOutside : (run (quiet 1700000001) (plainVault.mergeHead hashOutside "peer")
    (World.boot outsideDisk)).1 = .ok (hashTaken, 0) := by decide +kernel

/-- The path is not valid. -/
theorem outside_not_valid : ¬TreePathsValid outsideDisk hashOutside := by
  intro hvalid
  have hpath := hvalid _ _ outside_loads.1 outside_loads.2 "../x" (.file 0 []) rfl
  have hbad : validatePath "../x" ≠ .ok () := by decide
  exact hbad hpath

/-- After the two imports a merge succeeds and leaves a HEAD that cannot be read. -/
theorem merge_unreadable : ¬∀ (S : Bytes → Prop) (fs : VaultFs) (v : Vault) (env : Outside)
    (r c : ContentHash) (label : String) (n : Nat), CollisionFree S →
    Reached S (fun _ cmd => cmd.Exchanges) fs →
    (run env (v.mergeHead r label) (World.boot fs)).1 = .ok (c, n) →
    HeadReads (mergePlan r label fs) fs ((Command.mergeHead r label).after v env fs) c := by
  intro hall
  have hreads := hall OutsideData outsideDisk plainVault (quiet 1700000001) hashOutside hashTaken
    "peer" 0 outside_collisionFree (outside_reached trivial trivial) run_takeOutside
  have hends := (mergeHead_ends plainVault (quiet 1700000001) outsideDisk hashOutside "peer").1
    hashTaken
  rw [run_takeOutside] at hends
  exact outside_not_valid ((hends rfl).mergeHead_reads_iff.1 hreads).2

/-- The rule at this merge. -/
theorem takeOutside_reads_iff :
    HeadReads (mergePlan hashOutside "peer" outsideDisk) outsideDisk
        ((Command.mergeHead hashOutside "peer").after plainVault (quiet 1700000001) outsideDisk)
        hashTaken ↔
      (Command.mergeHead hashOutside "peer").FindsTrees outsideDisk := by
  have hreached : Reached OutsideData (fun fs cmd => cmd.FindsTrees fs) outsideDisk :=
    outside_reached trivial trivial
  have hrule := saved_tree_reads_iff outside_jsonLaws outside_collisionFree hreached
  exact (hrule.2 outsideDisk plainVault (quiet 1700000001) hashTaken).2.2 hashOutside "peer" 0
    run_takeOutside

end Sample

end Soal

/-
  Soal.Runs.HeadComplete — HEAD names a complete commit, as long as every command that moves HEAD is
  given one.

  Adding, snapshots, syncs and collections keep HEAD complete by themselves.  Adopting a head checks
  only that its commit loads, and a merge writes the paths of both trees without validating them.
-/
import Soal.Runs.Commands
import Soal.Sync.Adoption

namespace Soal

open FileProg Worklist

section Laws

variable [Crates]

/-! ## §1. A sync leaves HEAD alone, or points it at a complete target. -/

/-- HEAD is as it was, or names the target, which is complete. -/
def HeadMoved (target : ContentHash) (fs fs' : VaultFs) : Prop :=
  fs'.lookup headFile = fs.lookup headFile ∨
    ReadM.eval fs' head = .ok (some target) ∧ Complete fs' target

section Fetch

variable {env : Outside} {w w' w'' : VaultWorld} {target : ContentHash} {peers : List String}
  {adopt : Bool} {fs : VaultFs}

/-- Pointing HEAD at a complete commit, then writing job files. -/
theorem headMoved_of_adoption (hc : Complete w.fs target)
    (hset : ∀ p : FilePath VaultDir, p ≠ headFile → p ≠ headsFile → w'.fs.lookup p = w.fs.lookup p)
    (hhead : ReadM.eval w'.fs head = .ok (some target)) (hw : Within (InDir .jobs) w' w'') :
    HeadMoved target fs w''.fs := by
  have hframe : w''.fs.lookup headFile = w'.fs.lookup headFile := hw.frame _ (by simp [headFile])
  refine .inr ⟨(eval_head_congr hframe).trans hhead, (complete_congr (fun p hp => ?_) target).2 hc⟩
  refine (hw.frame p ?_).trans (hset p ?_ ?_)
  · rcases hp with hp | hp | hp <;> simp [hp]
  · rintro rfl
    simp [headFile] at hp
  · rintro rfl
    simp [headsFile] at hp

theorem Landed.headMoved {b : Bool} (h : Landed target w w' b) : HeadMoved target w.fs w'.fs := by
  cases h with
  | kept h => exact .inl (h.frame headFile (by simp [BelowRoot, headFile]))
  | headOnly _ hc _ h₂ =>
    exact headMoved_of_adoption hc (fun p hp _ => lookup_headSet hp) eval_head_headSet h₂
  | adopted _ hc _ h₂ =>
    exact headMoved_of_adoption hc (fun p hp hp' => lookup_adopted hp hp') eval_head_adopted h₂

/-- **A sync moves HEAD to a complete target, or leaves it alone**, however it ends. -/
theorem wp_fetchDag_head (w : VaultWorld) :
    wp env (fun _ => True) (fetchDag peers target adopt)
      (fun _ w' => HeadMoved target w.fs w'.fs) w := by
  refine (wp_fetchDag_landed w).mono (fun _ h => h) fun r w' _ h => ?_
  cases r with
  | error e => exact (h.1 e rfl).headMoved
  | ok a => exact (h.2 a rfl).headMoved

end Fetch

/-! ## §2. One command. -/

/-- HEAD, when it can be read, names a complete commit. -/
def HeadComplete (fs : VaultFs) : Prop :=
  ∀ h, ReadM.eval fs head = .ok (some h) → Complete fs h

/-- Every path of the commit's tree is valid.  A tree from a wire file is checked for that; one from
a legacy JSON file is not. -/
def TreePathsValid (fs : VaultFs) (c : ContentHash) : Prop :=
  ∀ k tr, ReadM.eval fs (loadCommit c) = .ok k → ReadM.eval fs (loadTree k.tree) = .ok tr →
    tr.PathsValid

/-- The trees that a command extends or merges have valid paths. -/
def Command.ValidTrees (fs : VaultFs) : Command → Prop
  | .addPath _ _ => ∀ h, ReadM.eval fs head = .ok (some h) → TreePathsValid fs h
  | .mergeHead r _ => (∀ h, ReadM.eval fs head = .ok (some h) → TreePathsValid fs h) ∧
      TreePathsValid fs r
  | _ => True

/-- What a command has to be given so that it leaves a complete HEAD: trees with valid paths, and a
commit that becomes HEAD, or whose tree is merged into HEAD's, is complete. -/
def Command.KeepsHead (fs : VaultFs) : Command → Prop
  | .addPath source baseName => (Command.addPath source baseName).ValidTrees fs
  | .mergeHead r label => (Command.mergeHead r label).ValidTrees fs ∧
      ((∃ k tr, ReadM.eval fs (loadCommit r) = .ok k ∧ ReadM.eval fs (loadTree k.tree) = .ok tr) →
        Complete fs r)
  | .setHeadPublic c => (∃ k, ReadM.eval fs (loadCommit c) = .ok k) → Complete fs c
  | .setDivergentHead c => ReadM.eval fs head = .ok none →
      (∃ k, ReadM.eval fs (loadCommit c) = .ok k) → Complete fs c
  | _ => True

section OneStep

variable {S : Bytes → Prop} {fs fs' : VaultFs} {v : Vault} {env : Outside}

/-- HEAD is where it was, and nothing was lost. -/
theorem HeadComplete.same (h : HeadComplete fs) (hr : Retains fs fs')
    (hhead : ReadM.eval fs' head = ReadM.eval fs head) : HeadComplete fs' := fun c hc =>
  hr.complete (h c (hhead ▸ hc))

/-- HEAD is at a commit that is complete. -/
theorem headComplete_of (c : ContentHash) (hhead : ReadM.eval fs' head = .ok (some c))
    (hc : Complete fs' c) : HeadComplete fs' := fun c' hc' => by
  obtain rfl := Option.some.inj (Except.ok.inj (hhead.symm.trans hc'))
  exact hc

/-- An operation that makes a commit, by what its plan puts into the commit. -/
theorem HeadComplete.extend {P : Plan} {r : Res ContentHash} {w' : VaultWorld}
    (h : HeadComplete fs) (hP : P.Tidy) (hends : ExtendEnds P (World.boot fs) r w')
    (hr : Retains fs w'.fs)
    (hsave : ∀ w₁ tree, ChunksAdded (World.boot fs) w₁ → P.saves w₁.fs tree →
      tree.All (EntryStored w₁.fs))
    (hreuse : ∀ t, P.reuses t → ∃ tr, ReadM.eval fs (loadTree t) = .ok tr ∧
      ∀ ch ∈ tr.allChunkHashes, chunkPath ch ∈ fs) : HeadComplete w'.fs := by
  rcases hends.head with hhead | ⟨c, he⟩
  · exact h.same hr hhead
  · obtain ⟨-, -, -, -, -, -, -, hhead, -⟩ := he.lookup hP
    exact headComplete_of c hhead (he.complete hP hsave hreuse)

/-- A complete commit's tree of valid paths can be stored again. -/
theorem Complete.entryStored {c : ContentHash} {k : Commit} {tr : Tree} (h : Complete fs c)
    (hk : ReadM.eval fs (loadCommit c) = .ok k) (htr : ReadM.eval fs (loadTree k.tree) = .ok tr)
    (hvalid : TreePathsValid fs c) {w₁ : VaultWorld} (ha : ChunksAdded (World.boot fs) w₁) :
    tr.All (EntryStored w₁.fs) := by
  obtain ⟨k', tr', hk', htr', hch⟩ := h
  obtain rfl := Except.ok.inj (hk'.symm.trans hk)
  obtain rfl := Except.ok.inj (htr'.symm.trans htr)
  intro path entry hget
  refine ⟨hvalid k' tr' hk htr path entry hget, fun ch hc => ha.mem ?_⟩
  exact Tree.all_chunks_iff.2 hch path entry hget ch hc

/-- HEAD's tree, or the empty one. -/
theorem HeadComplete.headTree (h : HeadComplete fs) {l : Option ContentHash}
    (hl : ReadM.eval fs head = .ok l)
    (hvalid : ∀ c, ReadM.eval fs head = .ok (some c) → TreePathsValid fs c) {tree : Tree}
    (ht : ReadM.eval fs (treeOfHead l) = .ok tree) {w₁ : VaultWorld}
    (ha : ChunksAdded (World.boot fs) w₁) : tree.All (EntryStored w₁.fs) := by
  cases l with
  | none =>
    obtain rfl := Except.ok.inj ht
    exact Tree.all_new
  | some c =>
    unfold treeOfHead at ht
    rw [ReadM.eval_bind] at ht
    obtain ⟨k, hk, ht⟩ := bind_ok_iff.1 ht
    exact (h c hl).entryStored hk ht (hvalid c hl) ha

theorem eval_headTree (fs : VaultFs) : ReadM.eval fs headTree =
    (ReadM.eval fs head).bind fun l => ReadM.eval fs (treeOfHead l) := by
  unfold headTree treeOfHead
  refine (ReadM.eval_bind ..).trans (congrArg _ (funext fun l => ?_))
  cases l <;> rfl

theorem HeadComplete.addPath (h : HeadComplete fs) (source : Source) (baseName : String)
    (hsafe : (Command.addPath source baseName).KeepsHead fs)
    (hr : Retains fs ((Command.addPath source baseName).after v env fs)) :
    HeadComplete ((Command.addPath source baseName).after v env fs) := by
  refine h.extend (addPlan_tidy v source baseName fs) (addPath_ends v env fs source baseName) hr ?_
    fun t ht => ht.elim
  rintro w₁ tree ha ⟨base, entries, old, -, hgot, hold, hadd⟩
  rw [eval_headTree] at hold
  obtain ⟨l, hl, hold⟩ := bind_ok_iff.1 hold
  refine (h.headTree hl hsafe hold ha).addEntries hadd fun e he path hpath => ⟨hpath, ?_⟩
  exact hgot.mem e he

theorem HeadComplete.snapshot (h : HeadComplete fs) (message : String)
    (hr : Retains fs ((Command.snapshot message).after v env fs)) :
    HeadComplete ((Command.snapshot message).after v env fs) := by
  refine h.extend (snapshotPlan_tidy fs) (snapshot_ends v env fs message) hr ?_ ?_
  · rintro w₁ tree - ⟨-, rfl⟩
    exact Tree.all_new
  · rintro t ⟨c, k, hc, hk, rfl⟩
    obtain ⟨k', tr, hk', htr, hch⟩ := h c hc
    obtain rfl := Except.ok.inj (hk'.symm.trans hk)
    exact ⟨tr, htr, hch⟩

theorem HeadComplete.mergeHead (h : HeadComplete fs) (r : ContentHash) (label : String)
    (hsafe : (Command.mergeHead r label).KeepsHead fs)
    (hr : Retains fs ((Command.mergeHead r label).after v env fs)) :
    HeadComplete ((Command.mergeHead r label).after v env fs) := by
  obtain ⟨⟨hours, hvalid⟩, hcomplete⟩ := hsafe
  refine h.extend (mergePlan_tidy r label fs) (mergeHead_ends v env fs r label) hr ?_
    fun t ht => ht.elim
  rintro w₁ tree ha ⟨k, theirs, l, ours, hk, htheirs, hl, ho, rfl⟩
  refine Tree.All.merge (h.headTree hl hours ho ha)
    ((hcomplete ⟨k, theirs, hk, htheirs⟩).entryStored hk htheirs hvalid ha) fun path entry hx => ?_
  exact ⟨validatePath_conflict label hx.1, hx.2⟩

/-- A collection keeps what HEAD names, whether or not the other roots can be read. -/
theorem HeadComplete.gcAll (h : HeadComplete fs) :
    HeadComplete (Command.gcAll.after v env fs) := by
  show HeadComplete (run env Soal.gcAll (World.boot fs)).2.fs
  rcases (wp_gcAll env (World.boot fs)).post with ⟨e, -, hw, -⟩ | ⟨n, -, -, hsw⟩
  · rw [hw]
    exact h
  · have hsw : Swept (Garbage fs) fs (run env Soal.gcAll (World.boot fs)).2.fs n := hsw
    have hhead : ReadM.eval (run env Soal.gcAll (World.boot fs)).2.fs head = ReadM.eval fs head := by
      refine eval_head_congr (hsw.kept headFile (not_or.2 ⟨not_garbageChunk_of_dir ?_, ?_⟩))
      · simp [headFile]
      · rintro ⟨hd | hd, -⟩ <;> cases hd
    intro c hc
    rw [hhead] at hc
    obtain ⟨k, tr, hk, htr, hch⟩ := h c hc
    have hlive : LiveFrom (GcRoot fs) fs c := by
      refine .root ?_
      by_cases hread : RootsReadable fs
      · exact .inl ⟨hread, .head hc⟩
      · exact .inr ⟨hread, hc⟩
    obtain ⟨hcb, hcj⟩ := hsw.kept_object (K := commitKind) (by simp [commitKind])
      ⟨c, k, hlive, hk, .inl rfl⟩
    obtain ⟨htb, htj⟩ := hsw.kept_object (K := treeKind) (by simp [treeKind])
      ⟨c, k, hlive, hk, .inr rfl⟩
    refine ⟨k, tr, (commitKind.eval_load_congr hcb hcj).trans hk,
      (treeKind.eval_load_congr htb htj).trans htr, fun ch hc' => ?_⟩
    exact (mem_congr (hsw.kept_chunk ⟨c, k, tr, hlive, hk, htr, hc'⟩)).2 (hch ch hc')

/-- A sync loses nothing. -/
theorem Synced.retains {D : Catalog} {target : ContentHash} (h : Synced D target fs fs') :
    Retains fs fs' :=
  .mk' h.commits.kept.persists h.trees.kept.persists fun ch hch =>
    (mem_congr (h.chunks.kept ch hch)).2 hch

theorem fetchDag_retains (env : Outside) (fs : VaultFs) (peers : List String)
    (target : ContentHash) (adopt : Bool) (hfree : CollisionFree (Served env)) :
    Retains fs (run env (fetchDag peers target adopt) (World.boot fs)).2.fs := by
  have hout : Outcome (known fs env) target fs env peers adopt
      (run env (fetchDag peers target adopt) (World.boot fs)).1
      (run env (fetchDag peers target adopt) (World.boot fs)).2 := fetchDag_outcome hfree rfl
  cases hr : (run env (fetchDag peers target adopt) (World.boot fs)).1 with
  | error e => exact (hout.2 e hr).1.retains
  | ok a =>
    have hok := hout.1 a hr
    split at hok
    next =>
      refine retains_of_eq fun p hp => hok.other p fun _ => ⟨?_, ?_⟩
      · rintro rfl
        simp [headFile] at hp
      · rintro rfl
        simp [headsFile] at hp
    next => exact hok.synced.retains

/-- **One command**: HEAD stays complete. -/
theorem HeadComplete.step (laws : JsonLaws) (hS : CollisionFree S) (h : HeadComplete fs)
    (hstep : Step S (fun fs cmd => cmd.KeepsHead fs) fs fs') : HeadComplete fs' := by
  cases hstep with
  | mk v env cmd hsafe hdata hdata' hserved =>
    obtain ⟨hc, ht⟩ := separate_of_dataIn hS hdata hdata'
    have hfree : CollisionFree (Served env) := hS.mono hserved
    cases cmd with
    | addPath source baseName =>
      -- the new tree lists chunks of the old one and chunks that were stored just now
      exact h.addPath source baseName hsafe (((addPath_ends v env fs source baseName).saved
        (addPlan_tidy v source baseName fs)).retains laws hc ht)
    | snapshot message =>
      exact h.snapshot message (((snapshot_ends v env fs message).saved
        (snapshotPlan_tidy fs)).retains laws hc ht)
    | mergeHead r label =>
      exact h.mergeHead r label hsafe (((mergeHead_ends v env fs r label).saved
        (mergePlan_tidy r label fs)).retains laws hc ht)
    | importCommit hash data =>
      show HeadComplete (run env (importCommitBytes hash data) (World.boot fs)).2.fs
      have hc : commitKind.Separate fs
        (run env (importCommitBytes hash data) (World.boot fs)).2.fs := hc
      unfold importCommitBytes at hc ⊢
      -- refused, or one more object: what was complete still is
      rcases importBytes_ends commitKind env fs hash data with hw | ⟨x, hx, hw⟩
      · rw [hw]
        exact h
      · rw [hw] at hc ⊢
        exact h.same (retains_importCommit (w := World.boot fs) laws hx hc)
          (eval_head_congr (commitKind.lookup_imported (by simp [headFile, commitKind])))
    | importTree hash data =>
      show HeadComplete (run env (importTreeBytes hash data) (World.boot fs)).2.fs
      have ht : treeKind.Separate fs
        (run env (importTreeBytes hash data) (World.boot fs)).2.fs := ht
      unfold importTreeBytes at ht ⊢
      rcases importBytes_ends treeKind env fs hash data with hw | ⟨x, hx, hw⟩
      · rw [hw]
        exact h
      · rw [hw] at ht ⊢
        exact h.same (retains_importTree (w := World.boot fs) laws hx ht)
          (eval_head_congr (treeKind.lookup_imported (by simp [headFile, treeKind])))
    | importChunk hash data =>
      have ha := importStoredChunk_ends env fs hash data
      have hl : ∀ p : FilePath VaultDir, p.dir ≠ .chunks →
        (run env (importStoredChunk hash data) (World.boot fs)).2.fs.lookup p = fs.lookup p :=
        fun p hp => ha.other hp
      refine h.same (.mk' ?_ ?_ fun ch hch => ha.mem hch) (eval_head_congr (hl _ (by decide)))
      · exact ObjectKind.persists_of_eq fun p hp => hl p (by simp [hp, commitKind])
      · exact ObjectKind.persists_of_eq fun p hp => hl p (by simp [hp, treeKind])
    | fetchDag peers target adopt =>
      have hr := fetchDag_retains env fs peers target adopt hfree
      have hmoved : HeadMoved target fs (run env (Soal.fetchDag peers target adopt)
          (World.boot fs)).2.fs := (wp_fetchDag_head (World.boot fs)).post
      -- HEAD moves only to a target that was found complete
      rcases hmoved with hhead | ⟨hhead, hcomplete⟩
      · exact h.same hr (eval_head_congr hhead)
      · exact headComplete_of target hhead hcomplete
    | setHeadPublic c =>
      show HeadComplete (run env (Soal.setHeadPublic c) (World.boot fs)).2.fs
      rcases setHeadPublic_ends env fs c with hw | ⟨hk, hhead, hl⟩
      · rw [hw]
        exact h
      · -- the source asks only that the commit loads: completeness is what the step was given
        refine headComplete_of c hhead ((complete_congr (fun p hp => hl p ?_) c).2 (hsafe hk))
        rcases hp with hp | hp | hp <;> simp [hp]
    | setDivergentHead c =>
      obtain ⟨hl, hhead⟩ := setDivergentHead_ends env fs c
      have hobjects : ∀ p : FilePath VaultDir, p.dir = .commits ∨ p.dir = .trees ∨
          p.dir = .chunks → (run env (Soal.setDivergentHead c) (World.boot fs)).2.fs.lookup p =
            fs.lookup p := by
        intro p hp
        refine hl p ?_
        rcases hp with hp | hp | hp <;> simp [hp]
      rcases hhead with hhead | ⟨hnone, hk, hhead⟩
      · exact h.same (retains_of_eq hobjects) hhead
      · exact headComplete_of c hhead ((complete_congr hobjects c).2 (hsafe hnone hk))
    | gcAll => exact h.gcAll

end OneStep

/-! ## §3. Whole runs. -/

/-- **In every state of a run whose commands are all given complete commits and valid paths, HEAD is
complete.** -/
theorem reached_head_complete (laws : JsonLaws) {S : Bytes → Prop} (hS : CollisionFree S)
    {fs : VaultFs} (hreach : Reached S (fun fs cmd => cmd.KeepsHead fs) fs) {h : ContentHash}
    (hhead : ReadM.eval fs head = .ok (some h)) : ReadM.eval fs (isComplete h) = .ok true := by
  have hinv : HeadComplete fs := by
    refine hreach.induct (P := HeadComplete) (fun fs hfresh => ?_)
      fun fs fs' hfs hstep => hfs.step laws hS hstep
    intro c hc
    cases hfresh.head.symm.trans hc
  exact eval_isComplete_iff.2 (hinv h hhead)

end Laws

/-! ## §4. A head with and without its tree. -/

section Sample

attribute [local instance] sample

/-- After the import of `commitA` alone. -/
def commitOnlyDisk : VaultFs := ((World.boot freshDisk).written (commitPathBin hashA) wireA).fs

/-- After the import of its tree, too. -/
def commitTreeDisk : VaultFs := ((World.boot commitOnlyDisk).written (treePathBin treeE) wireE).fs

theorem lookup_commitOnlyDisk : commitOnlyDisk.lookup (commitPathBin hashA) = some wireA ∧
    ¬treeKind.Present commitOnlyDisk treeE ∧ headsFile ∉ commitOnlyDisk := by
  have hother : ∀ p, p ≠ commitPathBin hashA → p ≠ configFile → p ∉ commitOnlyDisk := by
    intro p hp hp'
    rw [← AList.lookup_eq_none, commitOnlyDisk, World.lookup_written, if_neg hp]
    simp [freshDisk, hp']
  refine ⟨?_, not_or.2 ⟨hother _ ?_ ?_, hother _ ?_ ?_⟩, hother _ ?_ ?_⟩
  · rw [commitOnlyDisk, World.lookup_written, if_pos rfl]
  all_goals simp [treeKind, ObjectKind.pathBin, ObjectKind.pathJson, commitPathBin, configFile,
    headsFile]

theorem commitOnly_objects : SampleObjects commitOnlyDisk :=
  freshDisk_objects.written (w := World.boot freshDisk) _ fun _ => by simp [SampleData]

theorem commitOnly_load : ReadM.eval commitOnlyDisk (loadCommit hashA) = .ok commitA.normal :=
  loadCommit_sample encodeA sampleDigest_wires.2.1 lookup_commitOnlyDisk.1

/-- Adopting a head touches the root directory only. -/
theorem adopted_objects {fs : VaultFs} (h : SampleObjects fs) (c : ContentHash) :
    SampleObjects (adopted (World.boot fs) c ∅).fs := by
  refine h.congr fun p hp => lookup_adopted ?_ ?_ <;> rintro rfl <;> rcases hp with hp | hp <;> cases hp

theorem commitOnly_reached (safe : VaultFs → Command → Prop)
    (hsafe : safe freshDisk (.importCommit hashA wireA)) :
    Reached SampleData safe commitOnlyDisk :=
  (Reachable.root freshDisk_fresh).step (sample_step hsafe freshDisk_objects commitOnly_objects
    (after_importCommit encodeA sampleDigest_wires.2.1 rfl))

/-- Importing a commit and adopting it leaves a HEAD whose tree is missing. -/
theorem adopt_without_tree : ¬∀ (S : Bytes → Prop) (fs : VaultFs) (h : ContentHash),
    CollisionFree S → Reached S (fun _ _ => True) fs → ReadM.eval fs head = .ok (some h) →
    ReadM.eval fs (isComplete h) = .ok true := by
  intro hall
  obtain ⟨-, hnoTree, hnoHeads⟩ := lookup_commitOnlyDisk
  have hreach : Reached SampleData (fun _ _ => True)
      (adopted (World.boot commitOnlyDisk) hashA ∅).fs :=
    (commitOnly_reached _ trivial).step (sample_step trivial commitOnly_objects
      (adopted_objects commitOnly_objects hashA) (after_setHeadPublic commitOnly_load hnoHeads))
  have hc := hall _ _ hashA sample_collisionFree hreach eval_head_adopted
  have hsame : ∀ p : FilePath VaultDir, p.dir = .commits ∨ p.dir = .trees ∨ p.dir = .chunks →
      (adopted (World.boot commitOnlyDisk) hashA ∅).fs.lookup p = commitOnlyDisk.lookup p :=
    fun p hp => lookup_adopted (by rintro rfl; simp [headFile] at hp)
      (by rintro rfl; simp [headsFile] at hp)
  have hc := (complete_congr hsame hashA).1 (eval_isComplete_iff.1 hc)
  obtain ⟨k, tr, hk, htr, -⟩ := hc
  obtain rfl := Except.ok.inj (commitOnly_load.symm.trans hk)
  exact hnoTree (treeKind.present_of_load htr)

theorem commitTree_complete : Complete commitTreeDisk hashA := by
  have hlA : commitTreeDisk.lookup (commitPathBin hashA) = some wireA := by
    rw [commitTreeDisk, World.lookup_written, if_neg (by simp [commitPathBin, treePathBin])]
    exact lookup_commitOnlyDisk.1
  have hlE : commitTreeDisk.lookup (treePathBin treeE) = some wireE := by
    rw [commitTreeDisk, World.lookup_written, if_pos rfl]
  exact ⟨_, _, loadCommit_sample encodeA sampleDigest_wires.2.1 hlA, loadTree_sample hlE,
    fun ch hch => by cases hch⟩

/-- With the tree imported first, the rule applies. -/
theorem adopt_with_tree : ReadM.eval (adopted (World.boot commitTreeDisk) hashA ∅).fs
    (isComplete hashA) = .ok true := by
  have hobjects : SampleObjects commitTreeDisk :=
    commitOnly_objects.written (w := World.boot commitOnlyDisk) _ fun _ => by simp [SampleData]
  have hnoHeads : headsFile ∉ commitTreeDisk := by
    rw [← AList.lookup_eq_none, commitTreeDisk, World.lookup_written,
      if_neg (by simp [headsFile, treePathBin])]
    exact AList.lookup_eq_none.2 lookup_commitOnlyDisk.2.2
  obtain ⟨k, -, hk, -⟩ := commitTree_complete
  have hset : (Command.setHeadPublic hashA).KeepsHead commitTreeDisk := fun _ => commitTree_complete
  have himport : (Command.importTree treeE wireE).KeepsHead commitOnlyDisk := trivial
  have htree : Step SampleData (fun fs cmd => cmd.KeepsHead fs) commitOnlyDisk commitTreeDisk :=
    sample_step himport commitOnly_objects hobjects (after_importTreeE commitOnlyDisk)
  have hadopt : Step SampleData (fun fs cmd => cmd.KeepsHead fs) commitTreeDisk
      (adopted (World.boot commitTreeDisk) hashA ∅).fs :=
    sample_step hset hobjects (adopted_objects hobjects hashA)
      (after_setHeadPublic hk hnoHeads)
  exact reached_head_complete sample_jsonLaws sample_collisionFree
    (((commitOnly_reached _ trivial).step htree).step hadopt) eval_head_adopted

end Sample

end Soal

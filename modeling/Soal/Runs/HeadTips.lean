/-
  Soal.Runs.HeadTips — which heads a vault lists, over whole runs.

  HEAD and the HEADS file are written by eight operations.  Adding a path and taking a snapshot move
  HEAD and leave HEADS alone; recording, adopting and syncing add a commit and take none away; only a
  merge collapses the list.  So the listed heads stay unrelated, and few, exactly as long as each step
  is given a head that is apart from the listed ones, and HEAD is not listed when it moves.
-/
import Soal.Lib.Tips
import Soal.Runs.Commands
import Soal.Runs.Ingest
import Soal.Sync.Adoption
import Soal.Sync.Fresh

namespace Soal

open FileProg Worklist

section Model

variable [Crates]

/-! ## §1. HEAD and HEADS. -/

/-- HEAD and the HEADS file of a directory. -/
structure HeadsAre (fs : VaultFs) (l : Option ContentHash) (listed : Finset ContentHash) :
    Prop where
  head : ReadM.eval fs head = .ok l
  listed : ReadM.eval fs listHeadsFileOnly = .ok listed

/-- The root directory is as it was. -/
def RootSame (w w' : VaultWorld) : Prop :=
  ∀ p : FilePath VaultDir, p.dir = .root → w'.fs.lookup p = w.fs.lookup p

section Heads

variable {fs fs' : VaultFs} {w w' w'' : VaultWorld} {l : Option ContentHash} {c : ContentHash}
  {listed : Finset ContentHash}

omit [Crates] in
theorem RootSame.refl (w : VaultWorld) : RootSame w w := fun _ _ => rfl

omit [Crates] in
theorem RootSame.trans (h : RootSame w w') (h' : RootSame w' w'') : RootSame w w'' :=
  fun p hp => (h' p hp).trans (h p hp)

omit [Crates] in
theorem RootSame.within {D : FilePath VaultDir → Prop} (h : Within D w w')
    (hD : ∀ p, D p → p.dir ≠ .root) : RootSame w w' := fun p hp => h.frame p fun hd => hD p hd hp

omit [Crates] in
theorem HeadsAre.congr (h : HeadsAre fs l listed) (hhead : fs'.lookup headFile = fs.lookup headFile)
    (hheads : fs'.lookup headsFile = fs.lookup headsFile) : HeadsAre fs' l listed :=
  ⟨(eval_head_congr hhead).trans h.head, (eval_listHeadsFileOnly_congr hheads).trans h.listed⟩

omit [Crates] in
theorem HeadsAre.same (h : HeadsAre w.fs l listed) (hw : RootSame w w') : HeadsAre w'.fs l listed :=
  h.congr (hw headFile rfl) (hw headsFile rfl)

omit [Crates] in
theorem HeadsAre.listHeads (h : HeadsAre fs l listed) :
    ReadM.eval fs Soal.listHeads = .ok (l.toFinset ∪ listed) := by
  rw [eval_listHeads, h.listed, ok_bind, h.head]
  rfl

omit [Crates] in
theorem HeadsAre.unique {l' : Option ContentHash} {listed' : Finset ContentHash}
    (h : HeadsAre fs l listed) (h' : HeadsAre fs l' listed') : l' = l ∧ listed' = listed :=
  ⟨Except.ok.inj (h'.head.symm.trans h.head), Except.ok.inj (h'.listed.symm.trans h.listed)⟩

omit [Crates] in
theorem headsAre_headSet (h : ReadM.eval w.fs listHeadsFileOnly = .ok listed) :
    HeadsAre (headSet w c).fs (some c) listed :=
  ⟨eval_head_headSet, (eval_listHeadsFileOnly_congr (lookup_headSet (by decide))).trans h⟩

omit [Crates] in
theorem headsAre_adopted : HeadsAre (adopted w c listed).fs (some c) (insert c listed) :=
  ⟨eval_head_adopted, eval_listHeadsFileOnly_adopted⟩

omit [Crates] in
/-- The HEADS file was written. -/
theorem HeadsAre.written (h : HeadsAre w.fs l listed) (heads : Finset ContentHash) :
    HeadsAre (w.written headsFile (Text.toUtf8 (String.ofList (headsBody heads)))).fs l heads := by
  refine ⟨(eval_head_congr ?_).trans h.head, eval_listHeadsFileOnly_written ?_⟩
  · rw [World.lookup_written, if_neg (by decide)]
  · rw [World.lookup_written, if_pos rfl]

end Heads

/-! ## §2. What the operations do to them. -/

section Rules

variable {env : Outside} {w w' : VaultWorld} {l : Option ContentHash} {c : ContentHash}
  {listed : Finset ContentHash}

/-- Adopting and recording a head begin with loading its commit. -/
theorem wp_setHeadPublic_loads (c : ContentHash) : wp env (fun _ => True) (setHeadPublic c)
    (fun r _ => r = .ok () → ∃ k, ReadM.eval w.fs (loadCommit c) = .ok k) w := by
  unfold setHeadPublic
  refine wp_read (x := loadCommit c) trivial (fun k hk => ?_) fun e _ he => by cases he
  exact wp_iff.2 ⟨fun _ _ => trivial, fun _ => ⟨k, hk⟩⟩

theorem wp_setDivergentHead_loads (c : ContentHash) : wp env (fun _ => True) (setDivergentHead c)
    (fun r _ => r = .ok () → ∃ k, ReadM.eval w.fs (loadCommit c) = .ok k) w := by
  unfold setDivergentHead
  refine wp_read (x := loadCommit c) trivial (fun k hk => ?_) fun e _ he => by cases he
  exact wp_iff.2 ⟨fun _ _ => trivial, fun _ => ⟨k, hk⟩⟩

omit [Crates] in
/-- Recording a head lists HEAD along with it. -/
theorem wp_recordHead_heads (h : HeadsAre w.fs l listed) (c : ContentHash) :
    wp env (fun _ => True) (recordHead c) (fun r w' => r = .ok () ∧
      HeadsAre w'.fs l (insert c (l.toFinset ∪ listed))) w := by
  refine (wp_recordHead trivial fun _ _ => ⟨trivial, trivial⟩).mono (fun _ h => h)
    fun r w' _ hr => ?_
  rcases hr with ⟨e, he, -, -⟩ | ⟨heads, hheads, rfl, rfl⟩
  · cases h.listHeads.symm.trans he
  · obtain rfl := Except.ok.inj (h.listHeads.symm.trans hheads)
    exact ⟨rfl, h.written _⟩

/-- Adopting a head leaves the old HEAD out of the list. -/
theorem wp_setHeadPublic_heads (h : HeadsAre w.fs l listed) (c : ContentHash) :
    wp env (fun _ => True) (setHeadPublic c) (fun r w' =>
      (∃ e, r = .error e) ∧ RootSame w w' ∨
        r = .ok () ∧ HeadsAre w'.fs (some c) (insert c listed)) w := by
  refine (wp_setHeadPublic trivial fun _ => ⟨trivial, trivial, fun _ _ => ⟨trivial, trivial⟩⟩).mono
    (fun _ h => h) fun r w' _ hr => ?_
  rcases hr with ⟨e, rfl, -, rfl⟩ | ⟨k, -, ⟨e, -, he, -⟩ | ⟨heads, hheads, rfl, rfl⟩⟩
  · exact .inl ⟨⟨e, rfl⟩, .refl _⟩
  · cases h.listed.symm.trans he
  · obtain rfl := Except.ok.inj (h.listed.symm.trans hheads)
    exact .inr ⟨rfl, headsAre_adopted⟩

/-- The HEAD a recorded head leaves: its own, or the new one when there was none. -/
def orElseHead (l : Option ContentHash) (c : ContentHash) : Option ContentHash := l.orElse fun _ => c

/-- Recording a divergent head. -/
theorem wp_setDivergentHead_heads (h : HeadsAre w.fs l listed) (c : ContentHash) :
    wp env (fun _ => True) (setDivergentHead c) (fun r w' =>
      (∃ e, r = .error e) ∧ RootSame w w' ∨
        r = .ok () ∧ HeadsAre w'.fs (orElseHead l c) (insert c (l.toFinset ∪ listed))) w := by
  unfold setDivergentHead
  refine wp_read (x := loadCommit c) trivial (fun k hk => ?_) fun e _ => .inl ⟨⟨e, rfl⟩, .refl w⟩
  refine wp_seq (wp_recordHead_heads h c) (fun _ w₁ _ h₁ => ?_) fun e w₁ _ h₁ => by cases h₁.1
  obtain ⟨-, h₁⟩ := h₁
  refine wp_read_ok (x := head) trivial h₁.head ?_
  cases l with
  | some h => exact ⟨trivial, .inr ⟨rfl, h₁⟩⟩
  | none => exact wp_writeFile.2 ⟨trivial, trivial, trivial, .inr ⟨rfl, headsAre_headSet h₁.listed⟩⟩

/-- A commit that is not made changes nothing. -/
theorem wp_commitTree_stop (v : Vault) (tree : ContentHash) (parents : List ContentHash)
    (message : String) : wp env (fun _ => True) (v.commitTree tree parents message)
      (fun r w' => ∀ e, r = .error e → RootSame w w') w := by
  refine (v.wp_commitTree tree parents message (fun _ _ _ => trivial)
    fun _ _ _ _ _ _ _ => ⟨trivial, trivial, trivial, trivial⟩).mono (fun _ h => h)
    fun r w' _ hr e he => ?_
  rcases hr with ⟨_, _, hfs⟩ | ⟨_, _, _, _, _, _, _, hok, _⟩
  · intro p _
    rw [hfs]
  · cases hok.symm.trans he

/-- Saving a tree leaves the root directory alone. -/
theorem wp_saveTree_root (tree : Tree) :
    wp env (fun _ => True) (saveTree tree) (fun _ w' => RootSame w w') w := by
  refine (treeKind.wp_save trivial fun _ _ => ⟨trivial, trivial⟩).mono (fun _ h => h)
    fun r w' _ hr => ?_
  rcases hr with ⟨-, -, rfl⟩ | ⟨bytes, -, -, rfl⟩
  · exact .refl _
  · intro p hp
    rw [World.lookup_written, if_neg]
    rintro rfl
    cases hp

/-- An add that fails leaves the root directory alone. -/
theorem wp_addPath_stop (v : Vault) (source : Source) (baseName : String) :
    wp env (fun _ => True) (v.addPath source baseName)
      (fun r w' => ∀ e, r = .error e → RootSame w w') w := by
  unfold Vault.addPath
  refine wp_compute trivial (fun base _ => ?_) fun e _ _ _ => .refl w
  refine wp_seq (R := fun _ w' => RootSame w w') (((v.addSource_confined base source).wp w).mono
    (fun _ _ => trivial) fun _ _ hw _ => .within hw fun p hp => by rw [hp]; decide)
    (fun entries w₁ _ h₁ => ?_) fun e w₁ _ h₁ _ _ => h₁
  split
  next => exact ⟨trivial, fun _ _ => h₁⟩
  next =>
    refine wp_read (x := headTree) trivial (fun old _ => ?_) fun e _ _ _ => h₁
    refine wp_compute trivial (fun tree _ => ?_) fun e _ _ _ => h₁
    refine wp_seq (wp_saveTree_root tree) (fun t w₂ _ h₂ => ?_) fun e w₂ _ h₂ _ _ => h₁.trans h₂
    refine wp_read (x := head) trivial (fun parents _ => ?_) fun e _ _ _ => h₁.trans h₂
    exact (wp_commitTree_stop v t _ _).mono (fun _ h => h) fun r w₃ _ h₃ e he =>
      (h₁.trans h₂).trans (h₃ e he)

theorem wp_snapshotCommit_stop (v : Vault) (message : String) :
    wp env (fun _ => True) (v.snapshotCommit message)
      (fun r w' => ∀ e, r = .error e → RootSame w w') w := by
  unfold Vault.snapshotCommit
  refine wp_read (x := head) trivial (fun l _ => ?_) fun e _ _ _ => .refl w
  cases l with
  | some h =>
    refine wp_read (x := loadCommit h) trivial (fun k _ => ?_) fun e _ _ _ => .refl w
    exact wp_commitTree_stop v k.tree [h] message
  | none =>
    refine wp_seq (wp_saveTree_root Tree.new) (fun t w₁ _ h₁ => ?_) fun e w₁ _ h₁ _ _ => h₁
    exact (wp_commitTree_stop v t [] message).mono (fun _ h => h) fun r w₂ _ h₂ e he =>
      h₁.trans (h₂ e he)

/-- A snapshot ends where its commit was made; its bookkeeping does not matter. -/
theorem wp_snapshot_extended (v : Vault) (message : String) :
    wp env (fun _ => True) (v.snapshot message)
      (fun _ w' => match (run env (v.snapshotCommit message) w).1 with
        | .error _ => RootSame w w'
        | .ok c => Extended (snapshotPlan w.fs) w c w') w := by
  have hrun : wp env (fun _ => True) (v.snapshotCommit message)
      (fun r _ => r = (run env (v.snapshotCommit message) w).1) w :=
    wp_iff.2 ⟨fun _ _ => trivial, rfl⟩
  have hmade := (hrun.and (wp_snapshotCommit_stop v message)).and (v.wp_snapshotCommit message)
  unfold Vault.snapshot
  refine wp_seq (hmade.mono (fun _ _ => trivial) fun _ _ _ h => h) (fun c w₁ _ h₁ => ?_)
    fun e w₁ _ h₁ => ?_
  · obtain ⟨⟨hr, -⟩, hends⟩ := h₁
    rw [← hr]
    have hlate : ∀ {α : Type} {x : Action α} (w₂ : VaultWorld), Confined Registry x →
        Extended (snapshotPlan w.fs) w c w₂ → wp env (fun _ => True) x
          (fun _ w' => Extended (snapshotPlan w.fs) w c w') w₂ := fun w₂ hx he =>
      (wp_tidy he hx).mono (fun _ _ => trivial) fun _ _ _ h => h
    refine wp_seq (hlate w₁ (confined_okOrNone (confined_registerSnapshot c message false))
      (hends.1 c rfl)) (fun _ w₂ _ h₂ => ?_) fun e w₂ _ h₂ => h₂
    refine wp_seq (hlate w₂ (confined_okOrNone (confined_loadPolicy v.config)) h₂)
      (fun pol w₃ _ h₃ => ?_) fun e w₃ _ h₃ => h₃
    cases pol with
    | none => exact ⟨trivial, h₃⟩
    | some pol =>
      exact wp_seq (hlate w₃ (confined_okOrNone (confined_applyRetention pol)) h₃)
        (fun _ w₄ _ h₄ => ⟨trivial, h₄⟩) fun e w₄ _ h₄ => h₄
  · obtain ⟨⟨hr, hstop⟩, -⟩ := h₁
    rw [← hr]
    exact hstop e rfl

/-- A merge that fails leaves the root directory alone. -/
theorem wp_mergeHead_stop (v : Vault) (remoteHead : ContentHash) (label : String) :
    wp env (fun _ => True) (v.mergeHead remoteHead label)
      (fun r w' => ∀ e, r = .error e → RootSame w w') w := by
  unfold Vault.mergeHead
  refine wp_read (x := loadCommit remoteHead) trivial (fun _ _ => ?_) fun e _ _ _ => .refl w
  refine wp_read (x := loadCommit remoteHead) trivial (fun k _ => ?_) fun e _ _ _ => .refl w
  refine wp_read (x := loadTree k.tree) trivial (fun theirs _ => ?_) fun e _ _ _ => .refl w
  refine wp_read (x := head) trivial (fun l _ => ?_) fun e _ _ _ => .refl w
  refine wp_read (x := treeOfHead l) trivial (fun ours _ => ?_) fun e _ _ _ => .refl w
  refine wp_seq (wp_saveTree_root _) (fun t w₁ _ h₁ => ?_) fun e w₁ _ h₁ _ _ => h₁
  refine wp_seq (wp_commitTree_stop v t _ _) (fun m w₂ _ _ => ?_)
    fun e w₂ _ h₂ _ _ => h₁.trans (h₂ e rfl)
  refine wp_write trivial trivial ⟨trivial, fun e he => ?_⟩
  cases he

/-- How an ingested commit is adopted: as HEAD, or along with it. -/
def IngestAdopted (l : Option ContentHash) (listed : Finset ContentHash) (c : ContentHash)
    (r : Res Bool) (w' : VaultWorld) : Prop :=
  (∃ b, r = .ok b) ∧ HeadsAre w'.fs (orElseHead l c)
    (if l = none then listed else insert c (l.toFinset ∪ listed))

/-- How an ingest leaves HEAD and HEADS. -/
def Ingested (w : VaultWorld) (l : Option ContentHash) (listed : Finset ContentHash)
    (c : ContentHash) (r : Res Bool) (w' : VaultWorld) : Prop :=
  (∃ e, r = .error e) ∧ RootSame w w' ∨ IngestAdopted l listed c r w'

/-- A sync leaves HEAD and HEADS alone, or adopts its target. -/
theorem Landed.heads {target : ContentHash} {b : Bool} (hland : Landed target w w' b)
    (h : HeadsAre w.fs l listed) : RootSame w w' ∨
      b = true ∧ HeadsAre w'.fs (some target) (insert target listed) := by
  have hroot : ∀ {w₁ : VaultWorld}, Within BelowRoot w w₁ → RootSame w w₁ :=
    fun hw => .within hw fun _ hp => hp
  have hjobs : ∀ {w₁ w₂ : VaultWorld}, Within (InDir .jobs) w₁ w₂ → RootSame w₁ w₂ := fun hw =>
    .within hw fun p hp => by
      rw [hp]
      decide
  cases hland with
  | kept hw => exact .inl (hroot hw)
  | headOnly h₁ _ he _ => cases (h.same (hroot h₁)).listed.symm.trans he
  | adopted h₁ _ hh h₂ =>
    obtain rfl := Except.ok.inj ((h.same (hroot h₁)).listed.symm.trans hh)
    exact .inr ⟨rfl, headsAre_adopted.same (hjobs h₂)⟩

omit [Crates] in
/-- Adopting an ingested commit, seen on HEAD and HEADS. -/
theorem HeadsAre.adoptedAs {b : Bool} (h : HeadsAre w.fs l listed) (ha : AdoptedAs c w b w') :
    HeadsAre w'.fs (orElseHead l c)
      (if l = none then listed else insert c (l.toFinset ∪ listed)) := by
  cases ha with
  | first hnone =>
    obtain rfl : l = none := Except.ok.inj (h.head.symm.trans hnone)
    exact headsAre_headSet h.listed
  | @beside l₀ heads hl hheads =>
    obtain rfl : l = some l₀ := Except.ok.inj (h.head.symm.trans hl)
    obtain rfl := Except.ok.inj (h.listHeads.symm.trans hheads)
    exact h.written _

omit [Crates] in
theorem wp_adoptIngested (h : HeadsAre w.fs l listed) (c : ContentHash) :
    wp env (fun _ => True) (adoptIngested c) (IngestAdopted l listed c) w := by
  refine (wp_adoptIngested_ends c).mono (fun _ h => h) fun r w' _ hr => ?_
  rcases hr with ⟨e, -, -, he | he⟩ | ⟨b, rfl, ha⟩
  · cases h.head.symm.trans he
  · cases h.listHeads.symm.trans he
  · exact ⟨⟨b, rfl⟩, h.adoptedAs ha⟩

theorem wp_ingest_heads (h : HeadsAre w.fs l listed) (peer : String) (c : ContentHash) :
    wp env (fun _ => True) (ingestCommitFromPeer peer c) (Ingested w l listed c) w := by
  refine (wp_ingest_ends peer c).mono (fun _ h => h) fun r w' _ hends => ?_
  obtain ⟨w₁, h₁, hend⟩ := hends
  have hroot : RootSame w w₁ := .within h₁ fun _ hp => hp
  rcases hend with ⟨he, rfl⟩ | ⟨b, rfl, -, ha⟩
  · exact .inl ⟨he, hroot⟩
  · exact .inr ⟨⟨b, rfl⟩, (h.same hroot).adoptedAs ha⟩

end Rules

/-! ## §3. The commits of a run, and which step keeps the heads apart. -/

/-- `p` is a parent of the commit `c`, as some directory over this data stores it. -/
def ParentIn (S : Bytes → Prop) (c p : ContentHash) : Prop := ∃ fs, DataIn S fs ∧ Parent fs c p

/-- `a` is a proper ancestor of `c` among the commits of the run. -/
abbrev AncestorIn (S : Bytes → Prop) (a c : ContentHash) : Prop := Tips.Above (ParentIn S) a c

/-- A commit of the run without parents, of this tree. -/
def RootOf (S : Bytes → Prop) (tree a : ContentHash) : Prop :=
  ∃ fs k, DataIn S fs ∧ ReadM.eval fs (loadCommit a) = .ok k ∧ k.parents = [] ∧ k.tree = tree

/-- Max simultaneous non-ancestor heads tracked locally. -/
def maxHeads : Nat := 64

/-- The heads besides the first, as the health report counts them. -/
def alternateHeads : Reads Nat := do
  return (← listHeads).card - 1

/-- The operations that touch HEAD or HEADS. -/
inductive HeadCommand where
  | addPath (source : Source) (baseName : String)
  | snapshot (message : String)
  | recordHead (c : ContentHash)
  | setHeadPublic (c : ContentHash)
  | setDivergentHead (c : ContentHash)
  | ingestCommitFromPeer (peer : String) (c : ContentHash)
  | fetchDag (peers : List String) (target : ContentHash) (adopt : Bool)
  | mergeHead (remoteHead : ContentHash) (label : String)

/-- The directory after such an operation. -/
def HeadCommand.after (v : Vault) (env : Outside) (fs : VaultFs) : HeadCommand → VaultFs
  | .addPath source baseName => (run env (v.addPath source baseName) (World.boot fs)).2.fs
  | .snapshot message => (run env (v.snapshot message) (World.boot fs)).2.fs
  | .recordHead c => (run env (Soal.recordHead c) (World.boot fs)).2.fs
  | .setHeadPublic c => (run env (Soal.setHeadPublic c) (World.boot fs)).2.fs
  | .setDivergentHead c => (run env (Soal.setDivergentHead c) (World.boot fs)).2.fs
  | .ingestCommitFromPeer peer c =>
      (run env (Soal.ingestCommitFromPeer peer c) (World.boot fs)).2.fs
  | .fetchDag peers target adopt => (run env (Soal.fetchDag peers target adopt) (World.boot fs)).2.fs
  | .mergeHead remoteHead label => (run env (v.mergeHead remoteHead label) (World.boot fs)).2.fs

theorem HeadCommand.after_ingest (v : Vault) (env : Outside) (fs : VaultFs) (peer : String)
    (c : ContentHash) : (HeadCommand.ingestCommitFromPeer peer c).after v env fs =
      (run env (Soal.ingestCommitFromPeer peer c) (World.boot fs)).2.fs := rfl

/-- A commit made on HEAD takes its place: HEAD is not in the HEADS file.  Without HEAD the commit is
a new root: there is room for it, and no listed head descends from a root of its tree. -/
def GrowsTips (S : Bytes → Prop) (P : Plan) (fs : VaultFs) : Option ContentHash →
    Finset ContentHash → Prop
  | some h, listed => h ∉ listed
  | none, listed => listed.card < maxHeads ∧ ∀ w₂ t, Prepared P (World.boot fs) w₂ t →
      ∀ x ∈ listed, ∀ a, RootOf S t a → ¬AncestorIn S a x

/-- The commit is apart from these heads, and there is room for it. -/
def JoinsTips (S : Bytes → Prop) (c : ContentHash) (heads : Finset ContentHash) : Prop :=
  Tips.Apart (ParentIn S) heads c ∧ (insert c heads).card ≤ maxHeads

/-- What an operation needs, with this HEAD and these HEADS, so that the heads stay unrelated and few;
one that does not get through needs nothing, and a merge never does. -/
def HeadCommand.Needs (S : Bytes → Prop) (v : Vault) (env : Outside) (fs : VaultFs)
    (l : Option ContentHash) (listed : Finset ContentHash) : HeadCommand → Prop
  | .addPath source baseName =>
      (∃ m, (run env (v.addPath source baseName) (World.boot fs)).1 = .ok m) →
        GrowsTips S (addPlan v source baseName fs) fs l listed
  | .snapshot message =>
      (∃ m, (run env (v.snapshotCommit message) (World.boot fs)).1 = .ok m) →
        GrowsTips S (snapshotPlan fs) fs l listed
  | .recordHead c => JoinsTips S c (l.toFinset ∪ listed)
  | .setHeadPublic c => (∃ k, ReadM.eval fs (loadCommit c) = .ok k) → JoinsTips S c listed
  | .setDivergentHead c =>
      (∃ k, ReadM.eval fs (loadCommit c) = .ok k) → JoinsTips S c (l.toFinset ∪ listed)
  | .ingestCommitFromPeer peer c =>
      (∃ b, (run env (Soal.ingestCommitFromPeer peer c) (World.boot fs)).1 = .ok b) →
        JoinsTips S c (l.toFinset ∪ listed)
  | .fetchDag peers target adopt => adopt = true →
      (∃ a, (run env (Soal.fetchDag peers target adopt) (World.boot fs)).1 = .ok a) →
        JoinsTips S target listed
  | .mergeHead _ _ => True

/-- The operation is given what it needs. -/
def HeadCommand.KeepsTips (S : Bytes → Prop) (v : Vault) (env : Outside) (fs : VaultFs)
    (cmd : HeadCommand) : Prop :=
  ∀ l listed, HeadsAre fs l listed → cmd.Needs S v env fs l listed

/-- One operation that meets the condition `safe`; the data it meets is in `S`. -/
inductive HeadStep (S : Bytes → Prop) (safe : Vault → Outside → VaultFs → HeadCommand → Prop)
    (fs : VaultFs) : VaultFs → Prop
  | mk (v : Vault) (env : Outside) (cmd : HeadCommand) (hsafe : safe v env fs cmd)
      (hdata : DataIn S fs) (hdata' : DataIn S (cmd.after v env fs)) :
      HeadStep S safe fs (cmd.after v env fs)

/-- The directories that runs of such operations lead to, from a fresh one. -/
abbrev HeadsReached (S : Bytes → Prop)
    (safe : Vault → Outside → VaultFs → HeadCommand → Prop) : VaultFs → Prop :=
  Reachable (HeadStep S safe) Fresh

/-- **The invariant**: HEAD and HEADS can be read, and what they list is unrelated and few. -/
def TipsAre (S : Bytes → Prop) (fs : VaultFs) : Prop := ∃ l listed, HeadsAre fs l listed ∧
  Tips.Unrelated (ParentIn S) (l.toFinset ∪ listed) ∧ (l.toFinset ∪ listed).card ≤ maxHeads

section OneStep

variable {S : Bytes → Prop} {fs fs' : VaultFs} {w' : VaultWorld} {v : Vault} {env : Outside}
  {l : Option ContentHash} {c : ContentHash} {listed heads : Finset ContentHash} {P : Plan}

/-- The parents of a stored commit are those its data names, in every directory. -/
theorem parentIn_stored (hjson : commitKind.JsonUnframed) (hS : CollisionFree S)
    (hdata : DataIn S fs) {k : Commit} {bytes : Bytes} (hb : encodeCommitWire k = .ok bytes)
    (hl : fs.lookup (commitPathBin (.of bytes)) = some bytes) (p : ContentHash) :
    ParentIn S (.of bytes) p ↔ p ∈ k.parents := by
  have hmem : S bytes := hdata bytes (.inl (.bin hl))
  constructor
  · rintro ⟨fs₁, hdata₁, k₁, hk₁, hp⟩
    have hstored := commitKind.stored_of_load hjson
      (fun b hbytes heq => hS b bytes (hdata₁ b (.inl hbytes)) hmem heq)
      (decodeCommitWire_encodeCommitWire hb).1 hk₁
    obtain rfl := Except.ok.inj (hk₁.symm.trans (eval_loadCommit_saved hb hstored))
    rwa [k.normal_parents] at hp
  · intro hp
    exact ⟨fs, hdata, k.normal, eval_loadCommit_saved hb hl, by rwa [k.normal_parents]⟩

theorem tipsAre_of (h : HeadsAre fs l listed)
    (heq : l.toFinset ∪ listed = heads) (hu : Tips.Unrelated (ParentIn S) heads)
    (hc : heads.card ≤ maxHeads) : TipsAre S fs := ⟨l, listed, h, heq ▸ hu, heq ▸ hc⟩

/-- A commit joins the heads. -/
theorem tipsAre_joined (hu : Tips.Unrelated (ParentIn S) heads) (hj : JoinsTips S c heads)
    (h : HeadsAre fs l listed) (heq : l.toFinset ∪ listed = insert c heads) : TipsAre S fs :=
  tipsAre_of h heq (Tips.unrelated_insert.2 ⟨hu, hj.1⟩) hj.2

omit [Crates] in
theorem some_toFinset_union (c : ContentHash) (s : Finset ContentHash) :
    (some c).toFinset ∪ s = insert c s := by
  rw [Option.toFinset_some, Finset.insert_eq]

omit [Crates] in
/-- Recording a head adds it, whether or not it becomes HEAD. -/
theorem orElseHead_union (l : Option ContentHash) (c : ContentHash) (listed : Finset ContentHash) :
    (orElseHead l c).toFinset ∪ insert c (l.toFinset ∪ listed) =
      insert c (l.toFinset ∪ listed) := by
  refine Finset.union_eq_right.2 fun x hx => ?_
  rw [Option.mem_toFinset] at hx
  cases l with
  | none =>
    obtain rfl := Option.some.inj hx
    exact Finset.mem_insert_self _ _
  | some h =>
    obtain rfl := Option.some.inj hx
    refine Finset.mem_insert_of_mem (Finset.mem_union_left _ ?_)
    rw [Option.mem_toFinset]
    rfl

omit [Crates] in
/-- Ingesting adds the commit, whether or not HEADS is written. -/
theorem ingested_union (l : Option ContentHash) (c : ContentHash) (listed : Finset ContentHash) :
    (orElseHead l c).toFinset ∪ (if l = none then listed else insert c (l.toFinset ∪ listed)) =
      insert c (l.toFinset ∪ listed) := by
  cases l with
  | none =>
    rw [if_pos rfl, Option.toFinset_none, Finset.empty_union]
    exact some_toFinset_union c listed
  | some h =>
    rw [if_neg (by simp)]
    exact orElseHead_union (some h) c listed

/-- Making a commit leaves the HEADS file alone. -/
theorem Extended.headsFile (he : Extended P (World.boot fs) c w') (hP : ¬P.tidies Soal.headsFile) :
    w'.fs.lookup Soal.headsFile = fs.lookup Soal.headsFile := by
  obtain ⟨w₀, k, bytes, ⟨⟨w₂, hprep, hfs⟩, -, -⟩, -, hw⟩ := he
  rw [hw.frame _ hP, lookup_committed (by decide), if_neg (by simp [Soal.headsFile, commitPathBin]),
    hfs]
  exact hprep.other (by decide) (by decide)

/-- **A commit is made on HEAD**, or is the first of its line. -/
theorem Extended.tips (he : Extended P (World.boot fs) c w') (hP : P.Tidy)
    (hparents : ∀ ps, P.parents ps → ps = l.toList) (hjson : commitKind.JsonUnframed)
    (hS : CollisionFree S) (hdata' : DataIn S w'.fs) (hheads : HeadsAre fs l listed)
    (hlist : ¬P.tidies Soal.headsFile) (hgrow : GrowsTips S P fs l listed)
    (hu : Tips.Unrelated (ParentIn S) (l.toFinset ∪ listed))
    (hcard : (l.toFinset ∪ listed).card ≤ maxHeads) : TipsAre S w'.fs := by
  obtain ⟨w₂, k, bytes, hprep, hps, hb, rfl, hhead, hl⟩ := he.lookup hP
  have hstored : w'.fs.lookup (commitPathBin (.of bytes)) = some bytes :=
    (hl _ (by simp [commitPathBin])).trans (if_pos rfl)
  have hmine := parentIn_stored hjson hS hdata' hb hstored
  rw [hparents _ hps] at hmine
  have hnow : HeadsAre w'.fs (some (.of bytes)) listed :=
    ⟨hhead, (eval_listHeadsFileOnly_congr (he.headsFile hlist)).trans hheads.listed⟩
  have hless : (insert (ContentHash.of bytes) listed).card ≤ listed.card + 1 :=
    Finset.card_insert_le _ _
  cases l with
  | some h =>
    -- the commit takes the place of its parent
    have hh : h ∉ listed := hgrow
    rw [some_toFinset_union] at hu hcard
    rw [Finset.card_insert_of_notMem hh] at hcard
    refine tipsAre_of hnow (some_toFinset_union _ _) ?_ (by omega)
    refine hu.extend hh ((hmine h).2 (by simp)) fun p hp => ?_
    simpa using (hmine p).1 hp
  | none =>
    obtain ⟨hroom, hroots⟩ := hgrow
    rw [Option.toFinset_none, Finset.empty_union] at hu
    refine tipsAre_of hnow (some_toFinset_union _ _) (hu.root (fun p hp => ?_) fun x hx => ?_) ?_
    · simpa using (hmine p).1 hp
    · refine hroots w₂ k.tree hprep x hx _ ⟨w'.fs, k.normal, hdata', ?_, ?_, rfl⟩
      · exact eval_loadCommit_saved hb hstored
      · exact hparents _ hps
    · omega

omit [Crates] in
theorem headParents_eq (h : HeadsAre fs l listed) (ps : List ContentHash) (hps : HeadParents fs ps) :
    ps = l.toList := by
  obtain ⟨l', hl', rfl⟩ := hps
  obtain rfl := Except.ok.inj (h.head.symm.trans hl')
  rfl

/-- The root directory is as it was. -/
theorem TipsAre.same (h : TipsAre S fs) (hw : RootSame (World.boot fs) w') : TipsAre S w'.fs := by
  obtain ⟨l, listed, hheads, hu, hc⟩ := h
  exact ⟨l, listed, HeadsAre.same (w := World.boot fs) hheads hw, hu, hc⟩

/-- **One operation** keeps the heads unrelated and few. -/
theorem TipsAre.step (hjson : commitKind.JsonUnframed) (hS : CollisionFree S) (h : TipsAre S fs)
    (hstep : HeadStep S (HeadCommand.KeepsTips S) fs fs') : TipsAre S fs' := by
  cases hstep with
  | mk v env cmd hsafe hdata hdata' =>
    obtain ⟨l, listed, hheads, hu, hc⟩ := h
    have hkept : ∀ w' : VaultWorld, RootSame (World.boot fs) w' → TipsAre S w'.fs :=
      fun w' => TipsAre.same ⟨l, listed, hheads, hu, hc⟩
    have hsub : Tips.Unrelated (ParentIn S) listed := hu.subset Finset.subset_union_right
    -- what the operation was given is read off the heads it finds
    replace hsafe := hsafe l listed hheads
    cases cmd with
    | addPath source baseName =>
      have hrule : wp env (fun _ => True) (v.addPath source baseName) _ (World.boot fs) :=
        wp_addPath_stop v source baseName
      cases hr : (run env (v.addPath source baseName) (World.boot fs)).1 with
      | error e => exact hkept _ (hrule.post e hr)
      | ok m =>
        -- the new commit's parent is HEAD, so it takes HEAD's place among the heads
        exact Extended.tips ((addPath_ends v env fs source baseName).1 m hr)
          (addPlan_tidy v source baseName fs) (headParents_eq hheads) hjson hS hdata' hheads id
          (hsafe ⟨m, hr⟩) hu hc
    | snapshot message =>
      have hrule : wp env (fun _ => True) (v.snapshot message) _ (World.boot fs) :=
        wp_snapshot_extended v message
      have hends := hrule.post
      cases hr : (run env (v.snapshotCommit message) (World.boot fs)).1 with
      | error e =>
        rw [hr] at hends
        exact hkept _ hends
      | ok m =>
        rw [hr] at hends
        refine Extended.tips hends (snapshotPlan_tidy fs) (headParents_eq hheads) hjson hS hdata'
          hheads ?_ (hsafe ⟨m, hr⟩) hu hc
        -- the books of a snapshot are other files than HEADS
        show ¬Registry headsFile
        unfold Registry
        decide
    | recordHead c =>
      have hrule : wp env (fun _ => True) (recordHead c) _ (World.boot fs) :=
        wp_recordHead_heads hheads c
      -- one more head: unrelated to the others by what it was given
      refine tipsAre_joined hu hsafe hrule.post.2 (Finset.union_eq_right.2 fun x hx => ?_)
      exact Finset.mem_insert_of_mem (Finset.mem_union_left _ hx)
    | setHeadPublic c =>
      have hrule : wp env (fun _ => True) (setHeadPublic c) _ (World.boot fs) :=
        wp_setHeadPublic_heads hheads c
      rcases hrule.post with ⟨-, hw⟩ | ⟨hok, hnow⟩
      · exact hkept _ hw
      · refine tipsAre_joined hsub (hsafe ?_) hnow (by simp)
        exact (wp_setHeadPublic_loads c).post hok
    | setDivergentHead c =>
      have hrule : wp env (fun _ => True) (setDivergentHead c) _ (World.boot fs) :=
        wp_setDivergentHead_heads hheads c
      rcases hrule.post with ⟨-, hw⟩ | ⟨hok, hnow⟩
      · exact hkept _ hw
      · refine tipsAre_joined hu (hsafe ?_) hnow (orElseHead_union l c listed)
        exact (wp_setDivergentHead_loads c).post hok
    | ingestCommitFromPeer peer c =>
      have hrule : wp env (fun _ => True) (ingestCommitFromPeer peer c) _ (World.boot fs) :=
        wp_ingest_heads hheads peer c
      rcases hrule.post with ⟨-, hw⟩ | ⟨hok, hnow⟩
      · exact hkept _ hw
      · exact tipsAre_joined hu (hsafe hok) hnow (ingested_union l c listed)
    | fetchDag peers target adopt =>
      have hrule : wp env (fun _ => True) (fetchDag peers target adopt) _ (World.boot fs) :=
        wp_fetchDag_landed (World.boot fs)
      cases hr : (run env (Soal.fetchDag peers target adopt) (World.boot fs)).1 with
      | error e =>
        -- a sync that fails leaves the heads alone
        rcases (hrule.post.1 e hr).heads hheads with hw | ⟨hadopt, -⟩
        · exact hkept _ hw
        · cases hadopt
      | ok a =>
        rcases (hrule.post.2 a hr).heads hheads with hw | ⟨hadopt, hnow⟩
        · exact hkept _ hw
        · exact tipsAre_joined hsub (hsafe hadopt ⟨a, hr⟩) hnow (by simp)
    | mergeHead remoteHead label =>
      have hrule : wp env (fun _ => True) (v.mergeHead remoteHead label) _ (World.boot fs) :=
        wp_mergeHead_stop v remoteHead label
      cases hr : (run env (v.mergeHead remoteHead label) (World.boot fs)).1 with
      | error e => exact hkept _ (hrule.post e hr)
      | ok out =>
        obtain ⟨m, n⟩ := out
        obtain ⟨_, -, hcol⟩ := (v.wp_mergeHead env remoteHead label (World.boot fs)).post m n hr
        -- a merge leaves the one head
        have hone : (some m).toFinset ∪ {m} = ({m} : Finset ContentHash) := by simp
        refine tipsAre_of ⟨hcol.head, hcol.heads⟩ hone ?_ ?_
        · exact Tips.unrelated_singleton m
        · rw [Finset.card_singleton]
          decide

end OneStep

/-! ## §4. Whole runs. -/

section Runs

variable {S : Bytes → Prop} {fs : VaultFs}

theorem Fresh.tipsAre (h : Fresh fs) : TipsAre S fs := by
  refine ⟨none, ∅, ⟨h.head, eval_listHeadsFileOnly_absent fun hm => (h _ hm).2.2.1 rfl⟩, ?_, ?_⟩
  · exact Tips.unrelated_empty
  · exact Nat.zero_le _

/-- **Recorded heads are tips**: in every state of a run whose operations are all given what they
need, the heads can be listed, none is a proper ancestor of another, in all the commits of the run as
on disk, and there are at most `MAX_HEADS`; every head but one counts as an alternate. -/
theorem recorded_heads_are_tips (hjson : commitKind.JsonUnframed) (hS : CollisionFree S)
    (hreach : HeadsReached S (HeadCommand.KeepsTips S) fs) (hdata : DataIn S fs) :
    ∃ heads, ReadM.eval fs listHeads = .ok heads ∧ Tips.Unrelated (ParentIn S) heads ∧
      Tips.Unrelated (Parent fs) heads ∧ heads.card ≤ maxHeads ∧
      ReadM.eval fs alternateHeads = .ok (heads.card - 1) := by
  have hinv : TipsAre S fs := hreach.induct (fun _ hfresh => hfresh.tipsAre)
    fun _ _ htips hstep => htips.step hjson hS hstep
  obtain ⟨l, listed, hheads, hu, hc⟩ := hinv
  refine ⟨_, hheads.listHeads, hu, hu.of_fewer fun _ _ hp => ⟨fs, hdata, hp⟩, hc, ?_⟩
  unfold alternateHeads
  rw [ReadM.eval_bind, hheads.listHeads]
  rfl

end Runs

end Model

/-! ## §5. Two pulls in a row. -/

section Sample

attribute [local instance] sample

/-- The peer `good` serves the two commits and their tree, every other peer answers with
`commitB`. -/
def oneGoodPeer : Outside := goodPeer [(hashD, wireD), (hashA, wireA), (treeE, wireE)] wireB

/-- Fetching an object that the peer serves, and importing it. -/
theorem wp_fetchImport {α β : Type} {K : ObjectKind α} {h : ContentHash} {data : Bytes} {x : α}
    {env : Outside} {w : VaultWorld} {peer : String} {rest : Action β}
    {P : Res β → VaultWorld → Prop} (hserved : ∀ n, env n (.getBlob peer h) = .ok data)
    (hx : K.Imports h data x)
    (hrest : wp env (fun _ => True) rest P (w.asked.written (K.importPath h data) data)) :
    wp env (fun _ => True) (do
      let bytes ← ingestChunks.fetch peer h
      K.importBytes h bytes
      rest) P w := by
  refine wp_seq (R := fun r w' => r = .ok data ∧ w' = w.asked) ?_ (fun bytes w₁ _ h₁ => ?_)
    fun e w₁ _ h₁ => by cases h₁.1
  · refine wp_answer trivial ?_
    rw [hserved]
    exact ⟨trivial, rfl, rfl⟩
  · obtain ⟨hb, rfl⟩ := h₁
    obtain rfl := Except.ok.inj hb
    refine wp_seq (K.wp_importBytes trivial fun _ _ => ⟨trivial, trivial⟩) (fun _ w₂ _ h₂ => ?_)
      fun e w₂ _ h₂ => ?_
    · rcases h₂ with ⟨_, he, -⟩ | ⟨y, -, -, rfl⟩
      · cases he
      · exact hrest
    · rcases h₂ with ⟨_, -, -, hno⟩ | ⟨y, -, he, -⟩
      · exact absurd hx (hno x)
      · cases he

/-- One ingest from the good peer, of a commit that holds the empty tree. -/
theorem wp_ingest_sample {fs : VaultFs} {c : Commit} {wire : Bytes} {hash : ContentHash}
    {l : Option ContentHash} {listed : Finset ContentHash} (hc : encodeCommitWire c = .ok wire)
    (hh : sampleDigest wire = hash) (hs : c.signature = none) (ht : c.tree = treeE)
    (hserved : ∀ n, oneGoodPeer n (.getBlob "good" hash) = .ok wire)
    (hno : ¬commitKind.Present fs hash)
    (htree : ¬treeKind.Present fs treeE ∨ fs.lookup (treePathBin treeE) = some wireE)
    (hheads : HeadsAre fs l listed) :
    wp oneGoodPeer (fun _ => True) (ingestCommitFromPeer "good" hash) (fun r w' =>
      IngestAdopted l listed hash r w' ∧ ∀ p : FilePath VaultDir, p.dir ≠ .root →
        w'.fs.lookup p = if p = treePathBin treeE then some wireE else
          if p = commitPathBin hash then some wire else fs.lookup p) (World.boot fs) := by
  have hcommit : commitKind.importPath hash wire = commitPathBin hash :=
    if_pos (decodeCommitWire_encodeCommitWire hc).1
  have htreePath : treeKind.importPath treeE wireE = treePathBin treeE :=
    if_pos (encodeTreeWire_framed encodeTreeWire_new)
  have hserveE : ∀ n, oneGoodPeer n (.getBlob "good" treeE) = .ok wireE := by
    intro n
    rfl
  -- with commit and tree in place, the commit is adopted
  have hadopt : ∀ w₁ : VaultWorld, RootSame (World.boot fs) w₁ →
      w₁.fs.lookup (treePathBin treeE) = some wireE → wp oneGoodPeer (fun _ => True) (do
        let tree ← loadTree treeE
        ingestChunks "good" tree.allChunkHashes
        adoptIngested hash : Action Bool) (fun r w' => IngestAdopted l listed hash r w' ∧
          ∀ p : FilePath VaultDir, p.dir ≠ .root → w'.fs.lookup p = w₁.fs.lookup p) w₁ := by
    intro w₁ hw₁ hl
    refine wp_read_ok (x := loadTree treeE) trivial (loadTree_sample hl) ?_
    refine (((confined_adoptIngested hash).wp w₁).and
      (wp_adoptIngested (HeadsAre.same (w := World.boot fs) hheads hw₁) hash)).mono (fun _ _ => trivial) fun r w' hI hr => ?_
    exact ⟨hr.2, fun p hp => hI.1.frame p hp⟩
  have hload : ∀ w₁ : VaultWorld, RootSame (World.boot fs) w₁ →
      w₁.fs.lookup (commitPathBin hash) = some wire →
      (¬treeKind.Present w₁.fs treeE ∨ w₁.fs.lookup (treePathBin treeE) = some wireE) →
      wp oneGoodPeer (fun _ => True) (do
        let commit ← loadCommit hash
        if !(← hasTreeObject commit.tree) then
          let bytes ← ingestChunks.fetch "good" commit.tree
          importTreeBytes commit.tree bytes
        let tree ← loadTree commit.tree
        ingestChunks "good" tree.allChunkHashes
        adoptIngested hash : Action Bool) (fun r w' => IngestAdopted l listed hash r w' ∧
          ∀ p : FilePath VaultDir, p.dir ≠ .root → w'.fs.lookup p =
            if p = treePathBin treeE then some wireE else w₁.fs.lookup p) w₁ := by
    intro w₁ hw₁ hl ht₁
    refine wp_read_ok (x := loadCommit hash) trivial (loadCommit_sample hc hh hl) ?_
    rw [c.normal_tree, ht]
    have hthere : ReadM.eval w₁.fs (treeKind.hasObject treeE) = _ := treeKind.eval_hasObject
    by_cases hp : treeKind.Present w₁.fs treeE
    · have hlE := ht₁.resolve_left (not_not.2 hp)
      rw [decide_eq_true hp] at hthere
      refine wp_read_ok (x := hasTreeObject treeE) trivial hthere ?_
      refine (hadopt w₁ hw₁ hlE).mono (fun _ h => h) fun r w' _ h => ⟨h.1, fun p hp => ?_⟩
      rw [h.2 p hp]
      split
      next heq => rw [heq, hlE]
      next => rfl
    · rw [decide_eq_false hp] at hthere
      refine wp_read_ok (x := hasTreeObject treeE) trivial hthere ?_
      refine wp_fetchImport (K := treeKind) hserveE imports_treeE ?_
      rw [htreePath]
      refine (hadopt _ ?_ ?_).mono (fun _ h => h) fun r w' _ h => ⟨h.1, fun p hp => ?_⟩
      · intro p hp
        rw [World.lookup_written, if_neg (by rintro rfl; cases hp)]
        exact hw₁ p hp
      · rw [World.lookup_written, if_pos rfl]
      · rw [h.2 p hp, World.lookup_written]
        rfl
  have hthere : ReadM.eval fs (commitKind.hasObject hash) = _ := commitKind.eval_hasObject
  rw [decide_eq_false hno] at hthere
  unfold ingestCommitFromPeer
  refine wp_read_ok (x := hasCommitObject hash) trivial hthere ?_
  refine wp_fetchImport (K := commitKind) hserved (imports_sample hc hh hs) ?_
  rw [hcommit]
  refine (hload _ ?_ ?_ ?_).mono (fun _ h => h) fun r w' _ h => ⟨h.1, fun p hp => ?_⟩
  · intro p hp
    rw [World.lookup_written, if_neg (by rintro rfl; cases hp)]
    rfl
  · rw [World.lookup_written, if_pos rfl]
  · have hsame : ∀ p : FilePath VaultDir, p.dir = .trees →
        ((World.boot fs).asked.written (commitPathBin hash) wire).fs.lookup p = fs.lookup p := by
      intro p hp
      rw [World.lookup_written, if_neg (by rintro rfl; cases hp)]
      rfl
    refine htree.imp (fun hno hp => hno ?_) fun hl => (hsame _ rfl).trans hl
    exact hp.imp (mem_congr (hsame _ rfl)).1 (mem_congr (hsame _ rfl)).1
  · rw [h.2 p hp, World.lookup_written]
    rfl

/-- After the pull of `commitA`. -/
noncomputable def onePullDisk : VaultFs :=
  (HeadCommand.ingestCommitFromPeer "good" hashA).after plainVault oneGoodPeer ∅

/-- After the pull of its child, too. -/
noncomputable def twoPullsDisk : VaultFs :=
  (HeadCommand.ingestCommitFromPeer "good" hashD).after plainVault oneGoodPeer onePullDisk

theorem empty_fresh : Fresh ∅ := fun _ hp => absurd hp (AList.notMem_empty _)

theorem empty_heads : HeadsAre ∅ none ∅ :=
  ⟨empty_fresh.head, eval_listHeadsFileOnly_absent (AList.notMem_empty _)⟩

theorem onePull : HeadsAre onePullDisk (some hashA) ∅ ∧
    ∀ p : FilePath VaultDir, p.dir ≠ .root → onePullDisk.lookup p =
      if p = treePathBin treeE then some wireE else
        if p = commitPathBin hashA then some wireA else none := by
  have hrule : wp oneGoodPeer (fun _ => True) (ingestCommitFromPeer "good" hashA) _
      (World.boot (∅ : VaultFs)) :=
    wp_ingest_sample encodeA sampleDigest_wires.2.1 rfl rfl (fun _ => rfl)
      (by simp [ObjectKind.Present]) (.inl (by simp [ObjectKind.Present])) empty_heads
  obtain ⟨⟨-, hheads⟩, hl⟩ := hrule.post
  have hadopted : orElseHead none hashA = some hashA := rfl
  rw [if_pos rfl, hadopted] at hheads
  rw [onePullDisk, HeadCommand.after_ingest]
  exact ⟨hheads, fun p hp => by rw [hl p hp, AList.lookup_empty]⟩

theorem twoPulls : HeadsAre twoPullsDisk (some hashA) (insert hashD (insert hashA ∅)) ∧
    ∀ p : FilePath VaultDir, p.dir ≠ .root → twoPullsDisk.lookup p =
      if p = treePathBin treeE then some wireE else
        if p = commitPathBin hashD then some wireD else onePullDisk.lookup p := by
  have hno : ¬commitKind.Present onePullDisk hashD := by
    have habsent : ∀ p : FilePath VaultDir, p.dir = .commits → p ≠ commitPathBin hashA →
        p ∉ onePullDisk := by
      intro p hp hne
      rw [← AList.lookup_eq_none, onePull.2 p (by rw [hp]; decide), if_neg, if_neg hne]
      rintro rfl
      cases hp
    refine not_or.2 ⟨habsent _ rfl ?_, habsent _ rfl ?_⟩
    · show commitPathBin hashD ≠ commitPathBin hashA
      simp [commitPathBin]
    · exact ObjectKind.pathJson_ne_pathBin
  have hrule : wp oneGoodPeer (fun _ => True) (ingestCommitFromPeer "good" hashD) _
      (World.boot onePullDisk) :=
    wp_ingest_sample encodeD sampleDigest_wires.2.2.2.2.1 rfl rfl (fun _ => rfl) hno
      (.inr ((onePull.2 _ (by decide)).trans (if_pos rfl))) onePull.1
  obtain ⟨⟨-, hheads⟩, hl⟩ := hrule.post
  rw [if_neg (by simp), Option.toFinset_some] at hheads
  rw [twoPullsDisk, HeadCommand.after_ingest]
  exact ⟨hheads, hl⟩

theorem pulls_data : DataIn SampleData onePullDisk ∧ DataIn SampleData twoPullsDisk := by
  have hone : SampleObjects onePullDisk := by
    intro p b hp hl
    rw [onePull.2 p (by rcases hp with hp | hp <;> simp [hp])] at hl
    split at hl
    next => simp [SampleData, ← Option.some.inj hl]
    next =>
      split at hl
      next => simp [SampleData, ← Option.some.inj hl]
      next => cases hl
  have htwo : SampleObjects twoPullsDisk := by
    intro p b hp hl
    rw [twoPulls.2 p (by rcases hp with hp | hp <;> simp [hp])] at hl
    split at hl
    next => simp [SampleData, ← Option.some.inj hl]
    next =>
      split at hl
      next => simp [SampleData, ← Option.some.inj hl]
      next => exact hone p b hp hl
  exact ⟨hone.dataIn sample_noJson, htwo.dataIn sample_noJson⟩

/-- Pulling a commit and then its child lists both. -/
theorem two_pulls_list_ancestor : ¬∀ (S : Bytes → Prop) (fs : VaultFs), CollisionFree S →
    HeadsReached S (fun _ _ _ _ => True) fs → DataIn S fs → ∃ heads,
      ReadM.eval fs listHeads = .ok heads ∧ Tips.Unrelated (Parent fs) heads ∧
        heads.card ≤ maxHeads := by
  intro hall
  obtain ⟨hdata₁, hdata₂⟩ := pulls_data
  have hreach : HeadsReached SampleData (fun _ _ _ _ => True) twoPullsDisk :=
    ((Reachable.root empty_fresh).step (.mk plainVault oneGoodPeer _ trivial empty_fresh.dataIn
      hdata₁)).step (.mk plainVault oneGoodPeer _ trivial hdata₁ hdata₂)
  obtain ⟨heads, hlist, hu, -⟩ := hall _ _ sample_collisionFree hreach hdata₂
  obtain rfl := Except.ok.inj (twoPulls.1.listHeads.symm.trans hlist)
  have hD : ReadM.eval twoPullsDisk (loadCommit hashD) = .ok commitD.normal := by
    refine loadCommit_sample encodeD sampleDigest_wires.2.2.2.2.1 ?_
    rw [twoPulls.2 _ (by decide), if_neg (by simp [commitPathBin, treePathBin]), if_pos rfl]
  have hparent : Parent twoPullsDisk hashD hashA := ⟨commitD.normal, hD, by simp [commitD, sampleCommit]⟩
  have hne : hashA ≠ hashD := by decide
  exact hu (by simp) (by simp) hne (.single hparent)

/-- The rule after one pull. -/
theorem onePull_tips : ∃ heads, ReadM.eval onePullDisk listHeads = .ok heads ∧
    Tips.Unrelated (ParentIn SampleData) heads ∧ Tips.Unrelated (Parent onePullDisk) heads ∧
      heads.card ≤ maxHeads ∧ ReadM.eval onePullDisk alternateHeads = .ok (heads.card - 1) := by
  have hkeeps : (HeadCommand.ingestCommitFromPeer "good" hashA).KeepsTips SampleData plainVault
      oneGoodPeer ∅ := by
    intro l listed hheads _
    obtain ⟨rfl, rfl⟩ := empty_heads.unique hheads
    refine ⟨fun x hx => ?_, ?_⟩
    · simp at hx
    · simp [maxHeads]
  exact recorded_heads_are_tips sample_commitJson sample_collisionFree
    ((Reachable.root empty_fresh).step (.mk plainVault oneGoodPeer _ hkeeps empty_fresh.dataIn
      pulls_data.1)) pulls_data.1

end Sample

end Soal

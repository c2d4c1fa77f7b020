/-
  Soal.Sync.Walk — one rule for each step of the walk.

  Between two steps the disk and the job are `Going`.  A step that succeeds leaves its object loaded
  and checked off; a step that fails shows that something was not `Supplied`.
-/
import Soal.Sync.Progress
import Soal.Vault.Roots

namespace Soal

open FileProg

variable [Crates]

/-! ## §1. States of a sync. -/

/-- The last primitive cut a commit or tree file to nothing. -/
def TornObject (w : VaultWorld) : Prop :=
  ∃ p : FilePath VaultDir, w.log.head? = some (.truncate p) ∧ (p.dir = .commits ∨ p.dir = .trees)

omit [Crates] in
theorem not_torn_boot (fs : VaultFs) : ¬TornObject (World.boot fs) := by
  rintro ⟨p, hp, -⟩
  cases hp

/-- HEADS can be read if it could be. -/
def HeadsKept (fs fs' : VaultFs) : Prop := (∃ hs, ReadM.eval fs listHeadsFileOnly = .ok hs) →
  ∃ hs, ReadM.eval fs' listHeadsFileOnly = .ok hs

/-- A state a sync passes through. -/
inductive Fetching (D : Catalog) (target : ContentHash) (fs : VaultFs) (w : VaultWorld) : Prop
  | settled (hs : Synced D target fs w.fs) (hh : HeadsKept fs w.fs) (hu : ¬TornObject w)
  /-- the file of a new commit is cut -/
  | cutCommit {w₁ : VaultWorld} {c : ContentHash} {data : Bytes} {k : Commit}
      (hs : Synced D target fs w₁.fs) (hn : ¬commitKind.Present w₁.fs c)
      (hc : D.Commits target c) (hx : commitKind.Imports c data k)
      (hw : w = w₁.change (.truncate (commitKind.importPath c data)))
  /-- the file of a new tree is cut -/
  | cutTree {w₁ : VaultWorld} {t : ContentHash} {data : Bytes} {tr : Tree}
      (hs : Synced D target fs w₁.fs) (hn : ¬treeKind.Present w₁.fs t)
      (ht : D.Trees target t) (hx : treeKind.Imports t data tr)
      (hw : w = w₁.change (.truncate (treeKind.importPath t data)))

/-- A state in which the job file may be written. -/
structure Sound (D : Catalog) (target : ContentHash) (fs : VaultFs) (run : SyncRun)
    (w : VaultWorld) : Prop where
  synced : Synced D target fs w.fs
  heads : HeadsKept fs w.fs
  untorn : ¬TornObject w
  trace : Trace target fs w.fs run.job

/-- A state between two steps of the walk: besides, the root files are as they were. -/
structure Going (D : Catalog) (target : ContentHash) (fs : VaultFs) (run : SyncRun)
    (w : VaultWorld) : Prop where
  synced : Synced D target fs w.fs
  roots : ∀ p : FilePath VaultDir, p.dir = .root → w.fs.lookup p = fs.lookup p
  untorn : ¬TornObject w
  trace : Trace target fs w.fs run.job

/-- What a step leaves as it was, or adds to. -/
structure After (run run' : SyncRun) (fs fs' : VaultFs) : Prop where
  commits : commitKind.Keeps fs fs'
  trees : treeKind.Keeps fs fs'
  chunks : ∀ h, chunkPath h ∈ fs → chunkPath h ∈ fs'
  doneCommits : run.job.doneCommits ⊆ run'.job.doneCommits
  doneTrees : run.job.doneTrees ⊆ run'.job.doneTrees
  doneChunks : run.job.doneChunks ⊆ run'.job.doneChunks

namespace After

variable {r₁ r₂ r₃ : SyncRun} {f₁ f₂ f₃ : VaultFs}

theorem refl : After r₁ r₁ f₁ f₁ := ⟨.refl, .refl, fun _ h => h, subset_rfl, subset_rfl, subset_rfl⟩

theorem trans (h : After r₁ r₂ f₁ f₂) (h' : After r₂ r₃ f₂ f₃) : After r₁ r₃ f₁ f₃ where
  commits := h.commits.trans h'.commits
  trees := h.trees.trans h'.trees
  chunks x hx := h'.chunks x (h.chunks x hx)
  doneCommits := h.doneCommits.trans h'.doneCommits
  doneTrees := h.doneTrees.trans h'.doneTrees
  doneChunks := h.doneChunks.trans h'.doneChunks

end After

section Walk

variable {D : Catalog} {target : ContentHash} {fs : VaultFs} {env : Outside} {peers : List String}
  {adopt : Bool} {w : VaultWorld} {run : SyncRun}

omit [Crates] in
theorem headsKept_of_roots {fs' : VaultFs}
    (h : ∀ p : FilePath VaultDir, p.dir = .root → fs'.lookup p = fs.lookup p) : HeadsKept fs fs' := by
  rintro ⟨hs, hhs⟩
  exact ⟨hs, (eval_listHeadsFileOnly_congr (h headsFile rfl)).trans hhs⟩

theorem Going.sound (h : Going D target fs run w) : Sound D target fs run w :=
  ⟨h.synced, headsKept_of_roots h.roots, h.untorn, h.trace⟩

theorem Sound.settled (h : Sound D target fs run w) : Fetching D target fs w :=
  .settled h.synced h.heads h.untorn

theorem Going.settled (h : Going D target fs run w) : Fetching D target fs w := h.sound.settled

omit [Crates] in
theorem HeadsKept.congr {fs' fs'' : VaultFs} (h : HeadsKept fs fs')
    (hl : fs''.lookup headsFile = fs'.lookup headsFile) : HeadsKept fs fs'' := fun hx => by
  rw [eval_listHeadsFileOnly_congr hl]
  exact h hx

/-- Questions do not matter. -/
theorem Going.same {w' : VaultWorld} (h : Going D target fs run w) (hf : w'.fs = w.fs)
    (hl : w'.log = w.log) : Going D target fs run w' where
  synced := hf ▸ h.synced
  roots p hp := by rw [hf, h.roots p hp]
  untorn := by
    have hu := h.untorn
    unfold TornObject at hu ⊢
    rwa [hl]
  trace := hf ▸ h.trace

/-- Only the job of a run matters, and of it only what it lists. -/
theorem Going.relisted {run' : SyncRun} (h : Going D target fs run w)
    (ht : Trace target fs w.fs run'.job) : Going D target fs run' w :=
  ⟨h.synced, h.roots, h.untorn, ht⟩

/-- What stops a sync. -/
def Stopped (D : Catalog) (target : ContentHash) (fs : VaultFs) (env : Outside)
    (peers : List String) (adopt : Bool) (run : SyncRun) (w : VaultWorld) : Prop :=
  Going D target fs run w ∧ ¬Supplied D target fs env peers adopt

/-- What stops a step: an object that cannot be had. -/
def Missed (D : Catalog) (target : ContentHash) (fs : VaultFs) (env : Outside)
    (peers : List String) (run : SyncRun) (w : VaultWorld) : Prop :=
  Going D target fs run w ∧ ¬ObjectsSupplied D target fs env peers

theorem Missed.stopped (h : Missed D target fs env peers run w) :
    Stopped D target fs env peers adopt run w := ⟨h.1, fun hsup => h.2 hsup.toObjectsSupplied⟩

/-- The state after a step. -/
def Stepped (D : Catalog) (target : ContentHash) (fs : VaultFs) (run : SyncRun) (w : VaultWorld)
    (run' : SyncRun) (w' : VaultWorld) : Prop :=
  Going D target fs run' w' ∧ After run run' w.fs w'.fs

/-! ## §2. Checkpoints. -/

omit [Crates] in
theorem tornObject_change {op : WriteOp VaultDir} (h : ∀ p, op = .truncate p →
    p.dir ≠ .commits ∧ p.dir ≠ .trees) : ¬TornObject (w.change op) := by
  rintro ⟨p, hp, hd⟩
  rw [World.change_log, List.head?_cons, Option.some.injEq] at hp
  exact hd.elim (h p hp).1 (h p hp).2

/-- Scratch files outside the root do not matter. -/
theorem Sound.scratch {w' : VaultWorld} (h : Sound D target fs run w)
    (hl : ∀ p, ¬Scratch target p ∨ p.dir = .root → w'.fs.lookup p = w.fs.lookup p)
    (hu : ¬TornObject w') : Fetching D target fs w' :=
  .settled (h.synced.scratch fun p hp => hl p (.inl hp))
    (h.heads.congr (hl headsFile (.inr rfl))) hu

omit [Crates] in
theorem lookup_persisted {b : Bytes} {p : FilePath VaultDir} (hp : p.dir ≠ .jobs) :
    (renamed w (jobTmp target) (jobPath target) b).fs.lookup p = w.fs.lookup p := by
  rw [lookup_renamed, if_neg (by rintro rfl; exact hp rfl), if_neg (by rintro rfl; exact hp rfl)]

/-- The job file is replaced. -/
theorem Sound.persisted (h : Sound D target fs run w) :
    Sound D target fs run (renamed w (jobTmp target) (jobPath target) (jobText run.job)) := by
  have hl : ∀ q, (renamed w (jobTmp target) (jobPath target) (jobText run.job)).fs.lookup q = _ :=
    fun q => lookup_renamed q
  have hsynced : Synced D target fs
      (renamed w (jobTmp target) (jobPath target) (jobText run.job)).fs := by
    refine h.synced.rewrite (fun p hp hne => ?_) (.inr ⟨run.job, ?_, h.trace⟩)
    · rw [hl, if_neg hne, if_neg fun heq => hp (.inl heq)]
    · rw [hl, if_pos rfl]
  have hmem : ∀ p : FilePath VaultDir, p.dir ≠ .jobs → p ∈ w.fs →
      p ∈ (renamed w (jobTmp target) (jobPath target) (jobText run.job)).fs := fun p hp hm =>
    (mem_congr (lookup_persisted hp)).2 hm
  refine ⟨hsynced, h.heads.congr (lookup_persisted nofun), tornObject_change nofun, ?_⟩
  exact h.trace.mono (fun x => Or.imp (hmem _ nofun) (hmem _ nofun))
    (fun x => Or.imp (hmem _ nofun) (hmem _ nofun)) fun x => hmem _ nofun

theorem wp_persistJob {P : Res Unit → VaultWorld → Prop} (h : Sound D target fs run w)
    (hP : P (.ok ()) (renamed w (jobTmp target) (jobPath target) (jobText run.job))) :
    wp env (Fetching D target fs) (persistJob run.job) P w := by
  unfold persistJob
  rw [h.trace.target_eq]
  have hscratch : ∀ p, ¬Scratch target p ∨ p.dir = .root → p ≠ jobTmp target := by
    rintro p (hp | hp) rfl
    · exact hp (.inl rfl)
    · cases hp
  refine wp_writeRename.2 ⟨h.settled, ?_, ?_, h.persisted.settled, hP⟩
  · refine h.scratch (fun p hp => ?_) (tornObject_change fun p hp => ?_)
    · rw [World.lookup_truncated, if_neg (hscratch p hp)]
    · cases hp
      exact ⟨nofun, nofun⟩
  · refine h.scratch (fun p hp => ?_) (tornObject_change fun p hp => by cases hp)
    rw [World.lookup_written, if_neg (hscratch p hp)]

/-- The two jobs list the same. -/
def SameLists (job job' : SyncJob) : Prop :=
  job'.target = job.target ∧ job'.doneCommits = job.doneCommits ∧
    job'.doneTrees = job.doneTrees ∧ job'.doneChunks = job.doneChunks

theorem Trace.sameLists {fs' : VaultFs} {job job' : SyncJob} (h : Trace target fs fs' job)
    (hs : SameLists job job') : Trace target fs fs' job' := by
  obtain ⟨ht, hc, htr, hch⟩ := hs
  exact ⟨ht ▸ h.target_eq, hc ▸ h.oldCommits, htr ▸ h.oldTrees, hch ▸ h.oldChunks, hc ▸ h.commits,
    htr ▸ h.trees, hch ▸ h.chunks⟩

/-- Asking for the time. -/
theorem Sound.stamped {run' : SyncRun} (h : Sound D target fs run w)
    (hs : SameLists run.job run'.job) : Sound D target fs run' w.asked :=
  ⟨h.synced, h.heads, h.untorn, h.trace.sameLists hs⟩

/-- **A checkpoint writes the job and changes nothing else.** -/
theorem wp_checkpoint {S : SyncRun → VaultWorld → Prop} (h : Sound D target fs run w) :
    wp env (Fetching D target fs) (SyncM.checkpoint run)
      (Ends S fun _ run' w' => Sound D target fs run' w' ∧ SameLists run.job run'.job ∧
        ∀ p : FilePath VaultDir, p.dir ≠ .jobs → w'.fs.lookup p = w.fs.lookup p) w := by
  unfold SyncM.checkpoint
  refine SyncM.wp_get (SyncM.wp_attempt_bind (R := fun r w' => ∃ now,
    r = .ok { run.job with updatedAt := now } ∧ w' = w.asked) ?_ (fun job w' _ hjob => ?_)
    (fun e w' _ he => ?_))
  · unfold SyncJob.touch
    have hasked : Sound D target fs run w.asked := h.stamped ⟨rfl, rfl, rfl, rfl⟩
    exact wp_answer h.settled ⟨hasked.settled, _, rfl, rfl⟩
  · obtain ⟨now, hjob, rfl⟩ := hjob
    obtain rfl := Except.ok.inj hjob
    have hsame : SameLists run.job { run.job with updatedAt := now } := ⟨rfl, rfl, rfl, rfl⟩
    have hstamped : Sound D target fs { run with job := { run.job with updatedAt := now } } w.asked :=
      h.stamped hsame
    refine SyncM.wp_modify (SyncM.wp_attempt (R := fun r w' => r = .ok () ∧ w' = _)
      (wp_persistJob hstamped ⟨rfl, rfl⟩) (fun _ w' _ hw' => ?_) (fun e w' _ he => ?_))
    · obtain ⟨-, rfl⟩ := hw'
      exact ⟨hstamped.persisted, hsame, fun p hp => lookup_persisted (w := w.asked) hp⟩
    · obtain ⟨he, -⟩ := he
      cases he
  · obtain ⟨now, he, -⟩ := he
    cases he

/-- Writing job files leaves the objects, and the lists of the job. -/
theorem after_checkpoint {run' : SyncRun} {fs₁ fs₂ : VaultFs} (hs : SameLists run.job run'.job)
    (hl : ∀ p : FilePath VaultDir, p.dir ≠ .jobs → fs₂.lookup p = fs₁.lookup p) :
    After run run' fs₁ fs₂ := by
  obtain ⟨-, hc, ht, hch⟩ := hs
  have hchunk : ∀ x, fs₂.lookup (chunkPath x) = fs₁.lookup (chunkPath x) := fun x => hl _ nofun
  refine ⟨ObjectKind.keeps_of_eq (fun x => hl _ nofun) fun x => hl _ nofun,
    ObjectKind.keeps_of_eq (fun x => hl _ nofun) fun x => hl _ nofun,
    fun x hx => (mem_congr (hchunk x)).2 hx, ?_, ?_, ?_⟩
  · rw [hc]
  · rw [ht]
  · rw [hch]

/-- A checkpoint in the walk. -/
theorem Going.wp_checkpoint {S : SyncRun → VaultWorld → Prop} (h : Going D target fs run w) :
    wp env (Fetching D target fs) (SyncM.checkpoint run)
      (Ends S fun _ run' w' => Stepped D target fs run w run' w') w := by
  refine SyncM.wp_weaken (Soal.wp_checkpoint h.sound) fun _ run' w' hr => ?_
  obtain ⟨hs, hsame, hl⟩ := hr
  refine ⟨⟨hs.synced, fun p hp => ?_, hs.untorn, hs.trace⟩, after_checkpoint hsame hl⟩
  rw [hl p (by rw [hp]; decide), h.roots p hp]

/-! ## §3. Imports. -/

theorem After.relisted {run₂ run₂' : SyncRun} {fs₁ fs₂ : VaultFs} (h : After run run₂ fs₁ fs₂)
    (hc : run₂.job.doneCommits ⊆ run₂'.job.doneCommits)
    (ht : run₂.job.doneTrees ⊆ run₂'.job.doneTrees)
    (hch : run₂.job.doneChunks ⊆ run₂'.job.doneChunks) : After run run₂' fs₁ fs₂ :=
  ⟨h.commits, h.trees, h.chunks, h.doneCommits.trans hc, h.doneTrees.trans ht,
    h.doneChunks.trans hch⟩

omit [Crates] in
/-- Writing the file of a new object keeps every other object. -/
theorem keeps_imported {α β : Type} (K : ObjectKind α) (K' : ObjectKind β) {x : ContentHash}
    {data : Bytes} (hK : K'.dir = K.dir → ∀ y, K'.Present w.fs y →
      K'.pathBin y ≠ K.importPath x data ∧ K'.pathJson y ≠ K.importPath x data) :
    K'.Keeps w.fs (w.written (K.importPath x data) data).fs := by
  intro y hy
  rw [World.lookup_written, World.lookup_written]
  by_cases hd : K'.dir = K.dir
  · obtain ⟨h₁, h₂⟩ := hK hd y hy
    rw [if_neg h₁, if_neg h₂]
    exact ⟨rfl, rfl⟩
  · have hdir := K.importPath_dir x data
    rw [if_neg fun heq => hd (by rw [← hdir, ← heq]; rfl),
      if_neg fun heq => hd (by rw [← hdir, ← heq]; rfl)]
    exact ⟨rfl, rfl⟩

omit [Crates] in
theorem ne_importPath {α : Type} {K : ObjectKind α} {x y : ContentHash} {data : Bytes}
    (hn : ¬K.Present w.fs x) (hy : K.Present w.fs y) :
    K.pathBin y ≠ K.importPath x data ∧ K.pathJson y ≠ K.importPath x data := by
  have hne : y ≠ x := by
    rintro rfl
    exact hn hy
  unfold ObjectKind.importPath
  constructor <;> split <;> simp [hne]

theorem after_importedCommit (run : SyncRun) {c : ContentHash} (data : Bytes) (hn : ¬commitKind.Present w.fs c) :
    After run run w.fs (w.written (commitKind.importPath c data) data).fs := by
  refine ⟨keeps_imported _ _ fun _ y hy => ne_importPath hn hy,
    keeps_imported _ _ nofun, fun x hx => ?_, subset_rfl, subset_rfl, subset_rfl⟩
  exact ObjectKind.mem_of_imported (World.lookup_written w _ · data) hx

theorem after_importedTree (run : SyncRun) {t : ContentHash} (data : Bytes) (hn : ¬treeKind.Present w.fs t) :
    After run run w.fs (w.written (treeKind.importPath t data) data).fs := by
  refine ⟨keeps_imported _ _ nofun,
    keeps_imported _ _ fun _ y hy => ne_importPath hn hy, fun x hx => ?_, subset_rfl, subset_rfl,
    subset_rfl⟩
  exact ObjectKind.mem_of_imported (World.lookup_written w _ · data) hx

omit [Crates] in
/-- An imported object is there. -/
theorem present_imported {α : Type} (K : ObjectKind α) (x : ContentHash) (data : Bytes) :
    K.Present (w.written (K.importPath x data) data).fs x := by
  have hl : (w.written (K.importPath x data) data).fs.lookup (K.importPath x data) = some data := by
    rw [World.lookup_written, if_pos rfl]
  have hm := Fs.mem_iff_lookup.2 ⟨_, hl⟩
  unfold ObjectKind.importPath at hm ⊢
  split at hm
  next hf => exact .inl (by rwa [if_pos hf])
  next hf => exact .inr (by rwa [if_neg hf])

/-- The rest of a state in which an object was imported. -/
theorem Going.written {α : Type} {K : ObjectKind α} {x : ContentHash} {data : Bytes}
    (h : Going D target fs run w) (hK : K.dir ≠ .root)
    (hs : Synced D target fs (w.written (K.importPath x data) data).fs)
    (ha : After run run w.fs (w.written (K.importPath x data) data).fs) :
    Going D target fs run (w.written (K.importPath x data) data) where
  synced := hs
  roots p hp := by
    rw [World.lookup_written, if_neg, h.roots p hp]
    rintro rfl
    exact hK ((K.importPath_dir x data).symm.trans hp)
  untorn := tornObject_change nofun
  trace := h.trace.mono (fun _ => ha.commits.present) (fun _ => ha.trees.present) ha.chunks

/-- **A missing commit is fetched**, or some object cannot be had. -/
theorem wp_fetchCommit {β : Type} {c : ContentHash} {f : Unit → SyncM β}
    {P : β → SyncRun → VaultWorld → Prop} (hA : Agrees D target fs env)
    (hfree : CollisionFree (Served env)) (h : Going D target fs run w) (hc : D.Commits target c)
    (hn : ¬commitKind.Present w.fs c) (hnew : c ∉ run.job.doneCommits)
    (hnext : ∀ w', Stepped D target fs run w run w' → commitKind.Present w'.fs c →
      wp env (Fetching D target fs) (f () run) (Ends (Missed D target fs env peers) P) w') :
    wp env (Fetching D target fs)
      ((SyncM.attempt (getBlobWithFailover peers c) >>= fun found =>
        SyncM.attempt (importCommitBytes c found.2) >>= f) run)
      (Ends (Missed D target fs env peers) P) w := by
  have hskip : ¬CheckedOff SyncJob.doneCommits fs target c := fun hs => hnew (h.trace.oldCommits c hs)
  refine SyncM.wp_attempt_bind (wp_getBlobWithFailover peers fun w' hf hl => (h.same hf hl).settled)
    (fun found w₁ _ h₁ => ?_) (fun e w₁ _ h₁ => ?_)
  · obtain ⟨hfs, hlog, hgot, -⟩ := h₁
    obtain ⟨hhash, hserved⟩ := hgot found rfl
    have h₁ := h.same hfs hlog
    rw [← hfs] at hn
    have hstored : ∀ k, commitKind.Imports c found.2 k →
        Going D target fs run (w₁.written (commitKind.importPath c found.2) found.2) ∧
          After run run w₁.fs (w₁.written (commitKind.importPath c found.2) found.2).fs := by
      intro k hk
      have hn₀ : ¬commitKind.Present fs c := fun hp => hn (h₁.synced.commits.kept.present hp)
      have ha := after_importedCommit run found.2 hn
      refine ⟨h₁.written nofun (h₁.synced.importedCommit hn hskip hc ?_ hk fun p => ?_) ha, ha⟩
      · exact hA.commits.served c found.2 k hc hn₀ hserved hk
      · exact w₁.lookup_written _ p found.2
    refine SyncM.wp_attempt_bind (commitKind.wp_importBytes h₁.settled fun k hk => ⟨?_, ?_⟩)
      (fun _ w₂ _ h₂ => ?_) (fun e w₂ _ h₂ => ?_)
    · exact .cutCommit h₁.synced hn hc hk rfl
    · exact (hstored k hk).1.settled
    · rcases h₂ with ⟨_, he, -⟩ | ⟨k, hk, -, rfl⟩
      · cases he
      · obtain ⟨hgoing, hafter⟩ := hstored k hk
        exact hnext _ ⟨hgoing, hfs ▸ hafter⟩ (present_imported _ _ _)
    · rcases h₂ with ⟨_, -, rfl, hbad⟩ | ⟨_, _, he, -⟩
      · refine ⟨h₁, fun hsup => ?_⟩
        -- what failover returned is what the good peer serves
        obtain ⟨-, peer, -, data, k, hprov, hk⟩ :=
          h₁.synced.commits.served_of_obtainable (hsup.commit c hc) hn
        obtain rfl := hfree _ _ hserved hprov.served (hhash.trans hk.hash_eq.symm)
        exact hbad k hk
      · cases he
  · obtain ⟨hfs, hlog, -, hprov⟩ := h₁
    refine ⟨h.same hfs hlog, fun hsup => ?_⟩
    obtain ⟨-, peer, hpeer, data, k, hpr, hk⟩ :=
      h.synced.commits.served_of_obtainable (hsup.commit c hc) hn
    obtain ⟨found, hfound⟩ := hprov peer hpeer data hpr hk.hash_eq
    cases hfound

/-- **A missing tree is fetched**, or some object cannot be had. -/
theorem wp_fetchTree {β : Type} {t : ContentHash} {f : Unit → SyncM β}
    {P : β → SyncRun → VaultWorld → Prop} (hA : Agrees D target fs env)
    (hfree : CollisionFree (Served env)) (h : Going D target fs run w) (ht : D.Trees target t)
    (hn : ¬treeKind.Present w.fs t) (hnew : t ∉ run.job.doneTrees)
    (hnext : ∀ w', Stepped D target fs run w run w' → treeKind.Present w'.fs t →
      wp env (Fetching D target fs) (f () run) (Ends (Missed D target fs env peers) P) w') :
    wp env (Fetching D target fs)
      ((SyncM.attempt (getBlobWithFailover peers t) >>= fun found =>
        SyncM.attempt (importTreeBytes t found.2) >>= f) run)
      (Ends (Missed D target fs env peers) P) w := by
  have hskip : ¬CheckedOff SyncJob.doneTrees fs target t := fun hs => hnew (h.trace.oldTrees t hs)
  refine SyncM.wp_attempt_bind (wp_getBlobWithFailover peers fun w' hf hl => (h.same hf hl).settled)
    (fun found w₁ _ h₁ => ?_) (fun e w₁ _ h₁ => ?_)
  · obtain ⟨hfs, hlog, hgot, -⟩ := h₁
    obtain ⟨hhash, hserved⟩ := hgot found rfl
    have h₁ := h.same hfs hlog
    rw [← hfs] at hn
    -- what a peer serves under the tree's hash is the tree of the catalog
    have hstored : ∀ tr, treeKind.Imports t found.2 tr →
        Going D target fs run (w₁.written (treeKind.importPath t found.2) found.2) ∧
          After run run w₁.fs (w₁.written (treeKind.importPath t found.2) found.2).fs := by
      intro tr htr
      have hn₀ : ¬treeKind.Present fs t := fun hp => hn (h₁.synced.trees.kept.present hp)
      have ha := after_importedTree run found.2 hn
      refine ⟨h₁.written nofun (h₁.synced.importedTree hn hskip ht ?_ htr fun p => ?_) ha, ha⟩
      · exact hA.trees.served t found.2 tr ht hn₀ hserved htr
      · exact w₁.lookup_written _ p found.2
    refine SyncM.wp_attempt_bind (treeKind.wp_importBytes h₁.settled fun tr htr => ⟨?_, ?_⟩)
      (fun _ w₂ _ h₂ => ?_) (fun e w₂ _ h₂ => ?_)
    · exact .cutTree h₁.synced hn ht htr rfl
    · exact (hstored tr htr).1.settled
    · rcases h₂ with ⟨_, he, -⟩ | ⟨tr, htr, -, rfl⟩
      · cases he
      · obtain ⟨hgoing, hafter⟩ := hstored tr htr
        exact hnext _ ⟨hgoing, hfs ▸ hafter⟩ (present_imported _ _ _)
    · rcases h₂ with ⟨_, -, rfl, hbad⟩ | ⟨_, _, he, -⟩
      · refine ⟨h₁, fun hsup => ?_⟩
        obtain ⟨-, peer, -, data, tr, hprov, htr⟩ :=
          h₁.synced.trees.served_of_obtainable (hsup.tree t ht) hn
        -- refused, though a good peer's bytes have the same hash: they are these bytes
        obtain rfl := hfree _ _ hserved hprov.served (hhash.trans htr.hash_eq.symm)
        exact hbad tr htr
      · cases he
  · obtain ⟨hfs, hlog, -, hprov⟩ := h₁
    refine ⟨h.same hfs hlog, fun hsup => ?_⟩
    obtain ⟨-, peer, hpeer, data, tr, hpr, htr⟩ :=
      h.synced.trees.served_of_obtainable (hsup.tree t ht) hn
    -- no peer answered, but the good one does
    obtain ⟨found, hfound⟩ := hprov peer hpeer data hpr htr.hash_eq
    cases hfound

/-! ## §4. The steps of a visit. -/

/-- An object that was checked off loads, or some object cannot be had. -/
theorem wp_loadCommit {c : ContentHash} {run₀ : SyncRun} {fs₁ : VaultFs}
    (hA : Agrees D target fs env) (h : Going D target fs run w) (ha : After run₀ run fs₁ w.fs)
    (hc : D.Commits target c) (hdone : c ∈ run.job.doneCommits) :
    wp env (Fetching D target fs) (SyncM.attempt (ofRead (loadCommit c)) run)
      (Ends (Missed D target fs env peers) fun k run' w' => Going D target fs run' w' ∧
        After run₀ run' fs₁ w'.fs ∧ ReadM.eval w'.fs (loadCommit c) = .ok k ∧ D.commit c k) w := by
  refine SyncM.wp_attempt (R := fun out w' => w' = w ∧ out = ReadM.eval w.fs (loadCommit c))
    (wp_ofRead.2 ⟨h.settled, rfl, rfl⟩) (fun k w' _ hw' => ?_) (fun e w' _ hw' => ?_)
  · obtain ⟨rfl, hk⟩ := hw'
    exact ⟨h, ha, hk.symm, h.synced.commits.loaded hA.commits hc hk.symm⟩
  · obtain ⟨rfl, he⟩ := hw'
    refine ⟨h, fun hsup => ?_⟩
    have hp : commitKind.Present w'.fs c := by
      rcases h.trace.commits c hdone with hs | hp
      · by_contra hn
        exact (h.synced.commits.served_of_obtainable (hsup.commit c hc) hn).1 hs
      · exact hp
    obtain ⟨k, hk⟩ := h.synced.commits.load_of_obtainable (hsup.commit c hc) hp
    cases he.trans hk

theorem wp_loadTree {t : ContentHash} {run₀ : SyncRun} {fs₁ : VaultFs}
    (hA : Agrees D target fs env) (h : Going D target fs run w) (ha : After run₀ run fs₁ w.fs)
    (ht : D.Trees target t) (hdone : t ∈ run.job.doneTrees) :
    wp env (Fetching D target fs) (SyncM.attempt (ofRead (loadTree t)) run)
      (Ends (Missed D target fs env peers) fun tr run' w' => Going D target fs run' w' ∧
        After run₀ run' fs₁ w'.fs ∧ ReadM.eval w'.fs (loadTree t) = .ok tr ∧ D.tree t tr) w := by
  refine SyncM.wp_attempt (R := fun out w' => w' = w ∧ out = ReadM.eval w.fs (loadTree t))
    (wp_ofRead.2 ⟨h.settled, rfl, rfl⟩) (fun tr w' _ hw' => ?_) (fun e w' _ hw' => ?_)
  · obtain ⟨rfl, htr⟩ := hw'
    exact ⟨h, ha, htr.symm, h.synced.trees.loaded hA.trees ht htr.symm⟩
  · obtain ⟨rfl, he⟩ := hw'
    refine ⟨h, fun hsup => ?_⟩
    have hp : treeKind.Present w'.fs t := by
      rcases h.trace.trees t hdone with hs | hp
      · by_contra hn
        exact (h.synced.trees.served_of_obtainable (hsup.tree t ht) hn).1 hs
      · exact hp
    obtain ⟨tr, htr⟩ := h.synced.trees.load_of_obtainable (hsup.tree t ht) hp
    cases he.trans htr

/-- A checkpoint at the end of a step. -/
theorem wp_checkpoint_bind {β : Type} {f : Unit → SyncM β} {run₀ : SyncRun} {fs₁ : VaultFs}
    {S : SyncRun → VaultWorld → Prop} {P : β → SyncRun → VaultWorld → Prop}
    (h : Going D target fs run w) (ha : After run₀ run fs₁ w.fs)
    (hnext : ∀ run' w', Going D target fs run' w' → After run₀ run' fs₁ w'.fs →
      After run run' w.fs w'.fs → wp env (Fetching D target fs) (f () run') (Ends S P) w') :
    wp env (Fetching D target fs) ((SyncM.checkpoint >>= f) run) (Ends S P) w := by
  exact SyncM.wp_then h.wp_checkpoint fun _ run' w' hr => hnext run' w' hr.1 (ha.trans hr.2) hr.2

/-- **One commit**: it loads and is checked off. -/
theorem wp_syncCommit {c : ContentHash} (hA : Agrees D target fs env)
    (hfree : CollisionFree (Served env)) (h : Going D target fs run w) (hc : D.Commits target c) :
    wp env (Fetching D target fs) (syncCommit peers c run)
      (Ends (Missed D target fs env peers) fun k run' w' => Going D target fs run' w' ∧
        After run run' w.fs w'.fs ∧ ReadM.eval w'.fs (loadCommit c) = .ok k ∧ D.commit c k) w := by
  unfold syncCommit
  refine SyncM.wp_get ?_
  dsimp only
  -- what comes after the commit is there
  have hmark : ∀ run₁ w₁, Going D target fs run₁ w₁ → After run run₁ w.fs w₁.fs →
      commitKind.Present w₁.fs c → wp env (Fetching D target fs)
        ((SyncM.modify (fun run => { run with job := { run.job with
            doneCommits := insert c run.job.doneCommits } }) >>= fun _ =>
          SyncM.checkpoint >>= fun _ => SyncM.attempt (ofRead (loadCommit c))) run₁)
        (Ends (Missed D target fs env peers) fun k run' w' => Going D target fs run' w' ∧
          After run run' w.fs w'.fs ∧ ReadM.eval w'.fs (loadCommit c) = .ok k ∧ D.commit c k)
        w₁ := by
    intro run₁ w₁ h₁ ha₁ hp
    refine SyncM.wp_modify (wp_checkpoint_bind (h₁.relisted ⟨h₁.trace.target_eq,
      fun x hx => Finset.mem_insert_of_mem (h₁.trace.oldCommits x hx), h₁.trace.oldTrees,
      h₁.trace.oldChunks, fun x hx => ?_, h₁.trace.trees, h₁.trace.chunks⟩)
      (ha₁.relisted (Finset.subset_insert _ _) subset_rfl subset_rfl) fun run₂ w₂ h₂ ha₂ hs => ?_)
    · rcases Finset.mem_insert.1 hx with rfl | hx
      · exact .inr hp
      · exact h₁.trace.commits x hx
    · exact wp_loadCommit hA h₂ ha₂ hc (hs.doneCommits (Finset.mem_insert_self _ _))
  split
  next hnew =>
    refine SyncM.wp_attempt_read (x := hasCommitObject c) h.settled (fun b hb => ?_)
      (fun e he => ?_)
    · rw [hasCommitObject, commitKind.eval_hasObject] at hb
      obtain rfl := Except.ok.inj hb
      split
      next hn =>
        refine wp_fetchCommit hA hfree h hc (by simpa using hn) hnew fun w' hs hp => ?_
        exact SyncM.wp_modify (hmark _ w' (hs.1.relisted hs.1.trace)
          (hs.2.relisted subset_rfl subset_rfl subset_rfl) hp)
      next hp =>
        refine SyncM.wp_attempt_read (x := loadCommit c) h.settled (fun k hk => ?_)
          (fun e he => ⟨h, fun hsup => ?_⟩)
        · have hDk := h.synced.commits.loaded hA.commits hc hk
          refine SyncM.wp_attempt_bind (R := fun out w' => w' = w ∧ out = verifyCommitSignature k)
            (wp_done.2 ⟨h.settled, rfl, rfl⟩) (fun _ w' _ hw' => ?_) (fun e w' _ hw' => ?_)
          · obtain ⟨rfl, -⟩ := hw'
            exact hmark run w' h .refl (by simpa using hp)
          · obtain ⟨rfl, he⟩ := hw'
            exact ⟨h, fun hsup => by cases he.trans (hsup.signed c k hc hDk)⟩
        · obtain ⟨k, hk⟩ :=
            h.synced.commits.load_of_obtainable (hsup.commit c hc) (by simpa using hp)
          cases he.symm.trans hk
    · rw [hasCommitObject, commitKind.eval_hasObject] at he
      cases he
  next hdone => exact wp_loadCommit hA h .refl hc (not_not.1 hdone)

/-- **One tree**: it loads and is checked off. -/
theorem wp_syncTree {t : ContentHash} (hA : Agrees D target fs env)
    (hfree : CollisionFree (Served env)) (h : Going D target fs run w) (ht : D.Trees target t) :
    wp env (Fetching D target fs) (syncTree peers t run)
      (Ends (Missed D target fs env peers) fun tr run' w' => Going D target fs run' w' ∧
        After run run' w.fs w'.fs ∧ ReadM.eval w'.fs (loadTree t) = .ok tr ∧ D.tree t tr) w := by
  unfold syncTree
  refine SyncM.wp_get ?_
  dsimp only
  -- what comes once the tree is there: checked off, saved in the job file, and read
  have hmark : ∀ run₁ w₁, Going D target fs run₁ w₁ → After run run₁ w.fs w₁.fs →
      treeKind.Present w₁.fs t → wp env (Fetching D target fs)
        ((SyncM.modify (fun run => { run with job := { run.job with
            doneTrees := insert t run.job.doneTrees } }) >>= fun _ =>
          SyncM.checkpoint >>= fun _ => SyncM.attempt (ofRead (loadTree t))) run₁)
        (Ends (Missed D target fs env peers) fun tr run' w' => Going D target fs run' w' ∧
          After run run' w.fs w'.fs ∧ ReadM.eval w'.fs (loadTree t) = .ok tr ∧ D.tree t tr)
        w₁ := by
    intro run₁ w₁ h₁ ha₁ hp
    refine SyncM.wp_modify (wp_checkpoint_bind (h₁.relisted ⟨h₁.trace.target_eq,
      h₁.trace.oldCommits, fun x hx => Finset.mem_insert_of_mem (h₁.trace.oldTrees x hx),
      h₁.trace.oldChunks, h₁.trace.commits, fun x hx => ?_, h₁.trace.chunks⟩)
      (ha₁.relisted subset_rfl (Finset.subset_insert _ _) subset_rfl) fun run₂ w₂ h₂ ha₂ hs => ?_)
    · rcases Finset.mem_insert.1 hx with rfl | hx
      · exact .inr hp
      · exact h₁.trace.trees x hx
    · exact wp_loadTree hA h₂ ha₂ ht (hs.doneTrees (Finset.mem_insert_self _ _))
  split
  next hnew =>
    refine SyncM.wp_attempt_read (x := hasTreeObject t) h.settled (fun b hb => ?_)
      (fun e he => ?_)
    · rw [hasTreeObject, treeKind.eval_hasObject] at hb
      obtain rfl := Except.ok.inj hb
      split
      -- an object that is not there is asked for
      next hn =>
        refine wp_fetchTree hA hfree h ht (by simpa using hn) hnew fun w' hs hp => ?_
        exact SyncM.wp_modify (hmark _ w' (hs.1.relisted hs.1.trace)
          (hs.2.relisted subset_rfl subset_rfl subset_rfl) hp)
      next hp => exact hmark run w h .refl (by simpa using hp)
    · rw [hasTreeObject, treeKind.eval_hasObject] at he
      cases he
  -- a tree checked off before is only read
  next hdone => exact wp_loadTree hA h .refl ht (not_not.1 hdone)

/-- A missing chunk is stored through its temporary file. -/
theorem wp_importStoredChunk {ch : ContentHash} {data : Bytes} {I : VaultWorld → Prop}
    {P : Res Unit → VaultWorld → Prop} (hd : ContentHash.of data = ch) (hn : chunkPath ch ∉ w.fs)
    (hI : I w) (ht : I (w.change (.truncate (chunkTmp ch)))) (hw : I (w.written (chunkTmp ch) data))
    (hr : I (renamed w (chunkTmp ch) (chunkPath ch) data))
    (hP : P (.ok ()) (renamed w (chunkTmp ch) (chunkPath ch) data)) :
    wp env I (importStoredChunk ch data) P w := by
  have hput : wp env I (ChunkStore.putVerified ch data) (fun r w' => r = .ok true ∧
      w' = renamed w (chunkTmp ch) (chunkPath ch) data) w := by
    unfold ChunkStore.putVerified
    rw [if_neg (not_not.2 hd)]
    refine wp_exists hI ?_
    rw [if_neg (by simp [hn])]
    refine wp_seq (R := fun r w' => r = .ok () ∧
      w' = renamed w (chunkTmp ch) (chunkPath ch) data)
      (wp_writeRename.2 ⟨hI, ht, hw, hr, rfl, rfl⟩) (fun _ w' hI' h => ⟨hI', rfl, h.2⟩)
      (fun e w' _ h => by cases h.1)
  unfold importStoredChunk
  refine wp_seq hput (fun _ w' _ h => ?_) (fun e w' _ h => by cases h.1)
  obtain ⟨-, rfl⟩ := h
  exact ⟨hr, hP⟩

/-- The rest of a state in which a chunk was stored. -/
theorem Going.storedChunk {ch : ContentHash} (data : Bytes) (h : Going D target fs run w)
    (hn : chunkPath ch ∉ w.fs) (hs : ¬CheckedOff SyncJob.doneChunks fs target ch) :
    Going D target fs run (renamed w (chunkTmp ch) (chunkPath ch) data) ∧
      After run run w.fs (renamed w (chunkTmp ch) (chunkPath ch) data).fs ∧
      chunkPath ch ∈ (renamed w (chunkTmp ch) (chunkPath ch) data).fs := by
  have hl : ∀ q, (renamed w (chunkTmp ch) (chunkPath ch) data).fs.lookup q = _ :=
    fun q => lookup_renamed q
  have hdir : ∀ p : FilePath VaultDir, p.dir ≠ .chunks →
      (renamed w (chunkTmp ch) (chunkPath ch) data).fs.lookup p = w.fs.lookup p := fun p hp => by
    rw [hl, if_neg (by rintro rfl; exact hp rfl), if_neg (by rintro rfl; exact hp rfl)]
  have hafter : After run run w.fs (renamed w (chunkTmp ch) (chunkPath ch) data).fs := by
    refine ⟨ObjectKind.keeps_of_eq (fun x => hdir _ nofun) fun x => hdir _ nofun,
      ObjectKind.keeps_of_eq (fun x => hdir _ nofun) fun x => hdir _ nofun, fun x hx => ?_,
      subset_rfl, subset_rfl, subset_rfl⟩
    refine (mem_congr ?_).2 hx
    rw [hl, if_neg (by rintro heq; exact hn (heq ▸ hx)), if_neg]
    intro heq
    have hname := (hexName_inj.1 (congrArg FilePath.name heq)).2
    simp at hname
  refine ⟨⟨h.synced.importedChunk hn hs hl, fun p hp => ?_, tornObject_change nofun,
    h.trace.mono (fun _ => hafter.commits.present) (fun _ => hafter.trees.present) hafter.chunks⟩,
    hafter, Fs.mem_iff_lookup.2 ⟨data, by rw [hl, if_pos rfl]⟩⟩
  rw [hdir p (by rw [hp]; decide), h.roots p hp]

/-- **One chunk**: it is checked off. -/
theorem wp_syncChunk {ch : ContentHash} (h : Going D target fs run w) (hch : D.Chunks target ch) :
    wp env (Fetching D target fs) (syncChunk peers ch run)
      (Ends (Missed D target fs env peers) fun _ run' w' => Going D target fs run' w' ∧
        After run run' w.fs w'.fs ∧ ch ∈ run'.job.doneChunks) w := by
  unfold syncChunk
  refine SyncM.wp_get ?_
  dsimp only
  -- what comes after the chunk is there
  have hmark : ∀ run₁ w₁, Going D target fs run₁ w₁ → After run run₁ w.fs w₁.fs →
      chunkPath ch ∈ w₁.fs → wp env (Fetching D target fs)
        ((SyncM.modify (fun run => { run with job := { run.job with
            doneChunks := insert ch run.job.doneChunks } }) >>= fun _ => SyncM.get >>= fun run =>
          if run.job.doneChunks.card % 32 = 0 then SyncM.checkpoint else pure ()) run₁)
        (Ends (Missed D target fs env peers) fun _ run' w' => Going D target fs run' w' ∧
          After run run' w.fs w'.fs ∧ ch ∈ run'.job.doneChunks) w₁ := by
    intro run₁ w₁ h₁ ha₁ hp
    refine SyncM.wp_modify (SyncM.wp_get ?_)
    have h₂ : Going D target fs { run₁ with job := { run₁.job with
        doneChunks := insert ch run₁.job.doneChunks } } w₁ := by
      refine h₁.relisted ⟨h₁.trace.target_eq, h₁.trace.oldCommits, h₁.trace.oldTrees,
        fun x hx => Finset.mem_insert_of_mem (h₁.trace.oldChunks x hx), h₁.trace.commits,
        h₁.trace.trees, fun x hx => ?_⟩
      rcases Finset.mem_insert.1 hx with rfl | hx
      · exact .inr hp
      · exact h₁.trace.chunks x hx
    have ha₂ : After run { run₁ with job := { run₁.job with
        doneChunks := insert ch run₁.job.doneChunks } } w.fs w₁.fs :=
      ha₁.relisted subset_rfl subset_rfl (Finset.subset_insert _ _)
    split
    next =>
      refine SyncM.wp_weaken h₂.wp_checkpoint fun _ run₃ w₃ hr => ?_
      exact ⟨hr.1, ha₂.trans hr.2, hr.2.doneChunks (Finset.mem_insert_self _ _)⟩
    next => exact ⟨h₂.settled, h₂, ha₂, Finset.mem_insert_self _ _⟩
  split
  next hdone => exact ⟨h.settled, h, .refl, hdone⟩
  next hnew =>
    have hskip : ¬CheckedOff SyncJob.doneChunks fs target ch := fun hs =>
      hnew (h.trace.oldChunks ch hs)
    refine SyncM.wp_attempt_read (x := hasChunk ch) h.settled (fun b hb => ?_) (fun e he => ?_)
    · obtain rfl := Except.ok.inj hb
      split
      next hn =>
        have hn : chunkPath ch ∉ w.fs := by simpa [answer] using hn
        refine SyncM.wp_attempt_bind
          (wp_getBlobWithFailover peers fun w' hf hl => (h.same hf hl).settled)
          (fun found w₁ _ h₁ => ?_) (fun e w₁ _ h₁ => ?_)
        · obtain ⟨hfs, hlog, hgot, -⟩ := h₁
          have hg := h.same hfs hlog
          rw [← hfs] at hn
          obtain ⟨hg', ha', hm'⟩ := hg.storedChunk found.2 hn hskip
          have htmp : ∀ p, ¬Scratch target p ∨ p.dir = .root → p ≠ chunkTmp ch := by
            rintro p (hp | hp) rfl
            · exact hp (.inr (.inl ⟨ch, rfl⟩))
            · cases hp
          refine SyncM.wp_attempt_bind (R := fun r w' => r = .ok () ∧
            w' = renamed w₁ (chunkTmp ch) (chunkPath ch) found.2)
            (wp_importStoredChunk (hgot found rfl).1 hn hg.settled ?_ ?_ hg'.settled ⟨rfl, rfl⟩)
            (fun _ w₂ _ h₂ => ?_) (fun e w₂ _ h₂ => by cases h₂.1)
          · refine hg.sound.scratch (fun p hp => ?_) (tornObject_change fun p hp => ?_)
            · rw [World.lookup_truncated, if_neg (htmp p hp)]
            · cases hp
              exact ⟨by simp [chunkTmp], by simp [chunkTmp]⟩
          · refine hg.sound.scratch (fun p hp => ?_) (tornObject_change fun p hp => by cases hp)
            rw [World.lookup_written, if_neg (htmp p hp)]
          · obtain ⟨-, rfl⟩ := h₂
            exact SyncM.wp_modify (hmark _ _ (hg'.relisted hg'.trace)
              ((hfs ▸ ha').relisted subset_rfl subset_rfl subset_rfl) hm')
        · obtain ⟨hfs, hlog, -, hprov⟩ := h₁
          refine ⟨h.same hfs hlog, fun hsup => ?_⟩
          rcases hsup.chunk ch hch with hp | hs | ⟨peer, hpeer, data, hpr, hd⟩
          · exact hn ((mem_congr (h.synced.chunks.kept ch hp)).2 hp)
          · exact hskip hs
          · obtain ⟨found, hfound⟩ := hprov peer hpeer data hpr hd
            cases hfound
      next hp => exact hmark run w h .refl (by simpa [answer] using hp)
    · cases he

/-- A list of chunks. -/
theorem wp_syncChunks {chs : List ContentHash} (h : Going D target fs run w)
    (hchs : ∀ ch ∈ chs, D.Chunks target ch) :
    wp env (Fetching D target fs) (syncChunks peers chs run)
      (Ends (Missed D target fs env peers) fun _ run' w' => Going D target fs run' w' ∧
        After run run' w.fs w'.fs ∧ ∀ ch ∈ chs, ch ∈ run'.job.doneChunks) w := by
  induction chs generalizing run w with
  | nil => exact ⟨h.settled, h, .refl, nofun⟩
  | cons ch chs ih =>
    refine SyncM.wp_then (wp_syncChunk h (hchs ch List.mem_cons_self)) fun _ run₁ w₁ h₁ => ?_
    obtain ⟨h₁, ha₁, hd₁⟩ := h₁
    refine SyncM.wp_weaken (ih h₁ fun x hx => hchs x (List.mem_cons_of_mem _ hx))
      fun _ run₂ w₂ h₂ => ?_
    obtain ⟨h₂, ha₂, hd₂⟩ := h₂
    refine ⟨h₂, ha₁.trans ha₂, fun x hx => ?_⟩
    rcases List.mem_cons.1 hx with rfl | hx
    · exact ha₂.doneChunks hd₁
    · exact hd₂ x hx

end Walk

end Soal

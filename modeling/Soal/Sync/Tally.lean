/-
  Soal.Sync.Tally — the counters of a sync.

  A run counts what it imports.  The counters are the numbers of the commits, trees and chunks that
  are there and were not at the start, whatever the job file lists and whatever the peers answer.
-/
import Mathlib.Data.Set.Card
import Soal.Sync.Fetch

namespace Soal

open FileProg

/-! ## §1. What is new. -/

/-- The objects of a kind that are there now and were not at the start. -/
def ObjectKind.Added {α : Type} (K : ObjectKind α) (fs fs' : VaultFs) : Set ContentHash :=
  {h | ¬K.Present fs h ∧ K.Present fs' h}

/-- The chunks that are there now and were not at the start. -/
def NewChunks (fs fs' : VaultFs) : Set ContentHash := {ch | chunkPath ch ∉ fs ∧ chunkPath ch ∈ fs'}

/-- One element more. -/
theorem encard_of_mem_iff {s s' : Set ContentHash} {a : ContentHash} {n : Nat}
    (hs : ∀ h, h ∈ s' ↔ h = a ∨ h ∈ s) (ha : a ∉ s) (hn : s.encard = n) :
    s'.encard = (n + 1 : Nat) := by
  have heq : s' = insert a s := by
    ext h
    rw [hs h, Set.mem_insert_iff]
  rw [heq, Set.encard_insert_of_notMem ha, hn]
  rfl

namespace ObjectKind

variable {α : Type} {K : ObjectKind α} {fs fs' fs'' : VaultFs} {c : ContentHash} {data : Bytes}

theorem added_refl : K.Added fs fs = ∅ := by
  ext h
  constructor
  · rintro ⟨hn, hp⟩
    exact hn hp
  · rintro ⟨⟩

theorem added_congr (hl : ∀ p : FilePath VaultDir, p.dir = K.dir → fs''.lookup p = fs'.lookup p) :
    K.Added fs fs'' = K.Added fs fs' := by
  ext h
  exact and_congr_right fun _ => or_congr (mem_congr (hl _ rfl)) (mem_congr (hl _ rfl))

/-- After an import the object is there, and the others as before. -/
theorem present_written_iff (hl : ∀ p, fs''.lookup p =
      if p = K.importPath c data then some data else fs'.lookup p) (h : ContentHash) :
    K.Present fs'' h ↔ h = c ∨ K.Present fs' h := by
  constructor
  · intro hp
    by_cases heq : h = c
    · exact .inl heq
    · right
      have hbin : fs''.lookup (K.pathBin h) = fs'.lookup (K.pathBin h) := by
        rw [hl, importPath]
        split <;> simp [heq]
      have hjson : fs''.lookup (K.pathJson h) = fs'.lookup (K.pathJson h) := by
        rw [hl, importPath]
        split <;> simp [heq]
      exact hp.imp (mem_congr hbin).1 (mem_congr hjson).1
  · rintro (rfl | hp)
    · have hm : K.importPath h data ∈ fs'' := Fs.mem_iff_lookup.2 ⟨data, by rw [hl, if_pos rfl]⟩
      unfold importPath at hm
      by_cases hf : isFramed K.domain data = true
      · rw [if_pos hf] at hm
        exact .inl hm
      · rw [if_neg hf] at hm
        exact .inr hm
    · exact hp.imp (mem_of_imported hl) (mem_of_imported hl)

variable [Crates]

/-- What is new is counted, and was served; what was there is there. -/
structure Tally (K : ObjectKind α) (env : Outside) (fs fs' : VaultFs) (n : Nat) : Prop where
  count : (K.Added fs fs').encard = n
  kept : ∀ h, K.Present fs h → K.Present fs' h
  content : ∀ h ∈ K.Added fs fs', ∃ data, Served env data ∧ ContentHash.of data = h ∧
    K.StoredAs fs' h data

variable {env : Outside}

theorem Tally.start : K.Tally env fs fs 0 := by
  refine ⟨?_, fun _ h => h, fun h hx => absurd hx.2 hx.1⟩
  rw [added_refl, Set.encard_empty]
  rfl

/-- Files elsewhere do not matter. -/
theorem Tally.congr {n : Nat} (h : K.Tally env fs fs' n)
    (hl : ∀ p : FilePath VaultDir, p.dir = K.dir → fs''.lookup p = fs'.lookup p) :
    K.Tally env fs fs'' n := by
  refine ⟨?_, fun x hx => ?_, fun x hx => ?_⟩
  · rw [added_congr hl]
    exact h.count
  · exact (h.kept x hx).imp (mem_congr (hl _ rfl)).2 (mem_congr (hl _ rfl)).2
  · rw [added_congr hl] at hx
    obtain ⟨data, hserved, hd, hst⟩ := h.content x hx
    exact ⟨data, hserved, hd, hst.congr (hl _ rfl) (hl _ rfl)⟩

/-- An import adds one to what is new. -/
theorem Tally.written {n : Nat} (h : K.Tally env fs fs' n) (hl : ∀ p, fs''.lookup p =
      if p = K.importPath c data then some data else fs'.lookup p) (hn : ¬K.Present fs' c)
    (hserved : Served env data) (hd : ContentHash.of data = c) : K.Tally env fs fs'' (n + 1) := by
  have hold : ¬K.Present fs c := fun hp => hn (h.kept c hp)
  have hiff : ∀ x, x ∈ K.Added fs fs'' ↔ x = c ∨ x ∈ K.Added fs fs' := by
    intro x
    show ¬K.Present fs x ∧ K.Present fs'' x ↔ x = c ∨ ¬K.Present fs x ∧ K.Present fs' x
    rw [present_written_iff hl x]
    constructor
    · rintro ⟨hx, rfl | hp⟩
      · exact .inl rfl
      · exact .inr ⟨hx, hp⟩
    · rintro (rfl | ⟨hx, hp⟩)
      · exact ⟨hold, .inl rfl⟩
      · exact ⟨hx, .inr hp⟩
  refine ⟨encard_of_mem_iff hiff (fun hc => hn hc.2) h.count, fun x hx => ?_, fun x hx => ?_⟩
  · exact (present_written_iff hl x).2 (.inr (h.kept x hx))
  · by_cases heq : x = c
    · subst heq
      exact ⟨data, hserved, hd, storedAs_written hl hn⟩
    · obtain ⟨data', hserved', hd', hst⟩ := h.content x (((hiff x).1 hx).resolve_left heq)
      refine ⟨data', hserved', hd', hst.congr ?_ ?_⟩ <;>
      · rw [hl, importPath]
        split <;> simp [heq]

end ObjectKind

variable [Crates]

/-- New chunks are counted; each is one of the DAG, with content that was served for it. -/
structure ChunkTally (D : Catalog) (target : ContentHash) (env : Outside) (fs fs' : VaultFs)
    (n : Nat) : Prop where
  count : (NewChunks fs fs').encard = n
  kept : ∀ ch, chunkPath ch ∈ fs → chunkPath ch ∈ fs'
  content : ∀ ch ∈ NewChunks fs fs', D.Chunks target ch ∧ ∃ data,
    fs'.lookup (chunkPath ch) = some data ∧ ContentHash.of data = ch ∧ Served env data

section ChunkTally

variable {D : Catalog} {target : ContentHash} {env : Outside} {fs fs' fs'' : VaultFs} {n : Nat}

theorem ChunkTally.start : ChunkTally D target env fs fs 0 := by
  have hempty : NewChunks fs fs = ∅ := by
    ext ch
    exact ⟨fun h => h.1 h.2, fun h => h.elim⟩
  refine ⟨?_, fun _ h => h, fun ch h => absurd h.2 h.1⟩
  rw [hempty, Set.encard_empty]
  rfl

theorem ChunkTally.congr (h : ChunkTally D target env fs fs' n)
    (hl : ∀ ch, fs''.lookup (chunkPath ch) = fs'.lookup (chunkPath ch)) :
    ChunkTally D target env fs fs'' n := by
  have hnew : NewChunks fs fs'' = NewChunks fs fs' := by
    ext ch
    exact and_congr_right fun _ => mem_congr (hl ch)
  refine ⟨?_, fun ch hx => (mem_congr (hl ch)).2 (h.kept ch hx), fun ch hx => ?_⟩
  · rw [hnew]
    exact h.count
  · rw [hnew] at hx
    rw [hl]
    exact h.content ch hx

/-- A chunk more. -/
theorem ChunkTally.stored (h : ChunkTally D target env fs fs' n) {ch : ContentHash} {data : Bytes}
    (hn : chunkPath ch ∉ fs') (hch : D.Chunks target ch) (hd : ContentHash.of data = ch)
    (hserved : Served env data) (hl : ∀ x, fs''.lookup (chunkPath x) =
      if x = ch then some data else fs'.lookup (chunkPath x)) :
    ChunkTally D target env fs fs'' (n + 1) := by
  have hmem : ∀ x, chunkPath x ∈ fs'' ↔ x = ch ∨ chunkPath x ∈ fs' := by
    intro x
    rw [Fs.mem_iff_lookup, hl]
    by_cases heq : x = ch
    · simp [heq]
    · rw [if_neg heq, Fs.mem_iff_lookup]
      simp [heq]
  -- the chunk was not there at first either, so it counts once
  have hold : chunkPath ch ∉ fs := fun hp => hn (h.kept ch hp)
  refine ⟨encard_of_mem_iff (a := ch) (fun x => ?_) (fun hx => hn hx.2) h.count,
    fun x hx => (hmem x).2 (.inr (h.kept x hx)), ?_⟩
  · show chunkPath x ∉ fs ∧ chunkPath x ∈ fs'' ↔ x = ch ∨ chunkPath x ∉ fs ∧ chunkPath x ∈ fs'
    rw [hmem]
    constructor
    · rintro ⟨hx, rfl | hp⟩
      · exact .inl rfl
      · exact .inr ⟨hx, hp⟩
    · rintro (rfl | ⟨hx, hp⟩)
      · exact ⟨hold, .inl rfl⟩
      · exact ⟨hx, .inr hp⟩
  · rintro x ⟨hx, hp⟩
    rw [hl]
    by_cases heq : x = ch
    · subst heq
      exact ⟨hch, data, if_pos rfl, hd, hserved⟩
    · rw [if_neg heq]
      exact h.content x ⟨hx, ((hmem x).1 hp).resolve_left heq⟩

end ChunkTally

/-! ## §2. The counters. -/

/-- The counters of a run say what is new. -/
structure Tally (D : Catalog) (target : ContentHash) (fs : VaultFs) (env : Outside) (run : SyncRun)
    (w : VaultWorld) : Prop where
  commits : commitKind.Tally env fs w.fs run.commitsImported
  trees : treeKind.Tally env fs w.fs run.treesImported
  chunks : ChunkTally D target env fs w.fs run.chunksImported

/-- The two runs count the same. -/
def SameCounts (run run' : SyncRun) : Prop :=
  run'.commitsImported = run.commitsImported ∧ run'.treesImported = run.treesImported ∧
    run'.chunksImported = run.chunksImported

section Tally

variable {D : Catalog} {target : ContentHash} {fs : VaultFs} {env : Outside} {peers : List String}
  {run run' : SyncRun} {w w' : VaultWorld}

/-- At the start nothing is new. -/
theorem Tally.start {job : SyncJob} (hfs : w.fs = fs) : Tally D target fs env ⟨job, 0, 0, 0⟩ w := by
  subst hfs
  exact ⟨.start, .start, .start⟩

/-- Other files do not matter, nor does the job. -/
theorem Tally.congr (h : Tally D target fs env run w) (hs : SameCounts run run')
    (hl : ∀ p : FilePath VaultDir, ObjectDir p.dir → w'.fs.lookup p = w.fs.lookup p) :
    Tally D target fs env run' w' := by
  obtain ⟨hc, ht, hch⟩ := hs
  refine ⟨?_, ?_, ?_⟩
  · rw [hc]
    exact h.commits.congr fun p hp => hl p (.inr (.inl hp))
  · rw [ht]
    exact h.trees.congr fun p hp => hl p (.inr (.inr hp))
  · rw [hch]
    exact h.chunks.congr fun ch => hl _ (.inl rfl)

omit [Crates] in
/-- Importing an object leaves the other directories alone. -/
theorem lookup_written_of_dir {α : Type} (K : ObjectKind α) (c : ContentHash) (data : Bytes)
    {p : FilePath VaultDir} (hp : p.dir ≠ K.dir) :
    (w.written (K.importPath c data) data).fs.lookup p = w.fs.lookup p := by
  rw [World.lookup_written, if_neg]
  rintro rfl
  exact hp (K.importPath_dir c data)

/-- A commit was imported and counted. -/
theorem Tally.commit (h : Tally D target fs env run w) {c : ContentHash} {data : Bytes}
    (hn : ¬commitKind.Present w.fs c) (hserved : Served env data) (hd : ContentHash.of data = c) :
    Tally D target fs env { run with commitsImported := run.commitsImported + 1 }
      (w.written (commitKind.importPath c data) data) where
  commits := h.commits.written (fun p => w.lookup_written _ p data) hn hserved hd
  trees := h.trees.congr fun p hp =>
    lookup_written_of_dir commitKind c data (by simp [hp, commitKind, treeKind])
  chunks := h.chunks.congr fun ch =>
    lookup_written_of_dir commitKind c data (by simp [chunkPath, commitKind])

/-- A tree was imported and counted. -/
theorem Tally.tree (h : Tally D target fs env run w) {t : ContentHash} {data : Bytes}
    (hn : ¬treeKind.Present w.fs t) (hserved : Served env data) (hd : ContentHash.of data = t) :
    Tally D target fs env { run with treesImported := run.treesImported + 1 }
      (w.written (treeKind.importPath t data) data) where
  commits := h.commits.congr fun p hp =>
    lookup_written_of_dir treeKind t data (by simp [hp, commitKind, treeKind])
  trees := h.trees.written (fun p => w.lookup_written _ p data) hn hserved hd
  chunks := h.chunks.congr fun ch =>
    lookup_written_of_dir treeKind t data (by simp [chunkPath, treeKind])

/-- A chunk was imported and counted. -/
theorem Tally.chunk (h : Tally D target fs env run w) {ch : ContentHash} {data : Bytes}
    (hn : chunkPath ch ∉ w.fs) (hch : D.Chunks target ch) (hd : ContentHash.of data = ch)
    (hserved : Served env data) :
    Tally D target fs env { run with chunksImported := run.chunksImported + 1 }
      (renamed w (chunkTmp ch) (chunkPath ch) data) := by
  have hother : ∀ p : FilePath VaultDir, p.dir ≠ .chunks →
      (renamed w (chunkTmp ch) (chunkPath ch) data).fs.lookup p = w.fs.lookup p := by
    intro p hp
    rw [lookup_renamed, if_neg (by rintro rfl; exact hp rfl), if_neg (by rintro rfl; exact hp rfl)]
  refine ⟨h.commits.congr fun p hp => hother p (by simp [hp, commitKind]),
    h.trees.congr fun p hp => hother p (by simp [hp, treeKind]),
    h.chunks.stored hn hch hd hserved fun x => ?_⟩
  have htmp : chunkPath x ≠ chunkTmp ch := by
    intro heq
    have hname := (hexName_inj.1 (congrArg FilePath.name heq)).2
    simp at hname
  rw [lookup_renamed, if_neg htmp]
  by_cases heq : x = ch
  · rw [if_pos heq, if_pos (by rw [heq])]
  · rw [if_neg heq, if_neg fun hp => heq (hexName_inj.1 (congrArg FilePath.name hp)).1]

/-! ## §3. The steps of a visit. -/

omit [Crates] in
/-- Two rules for one part of a run. -/
theorem SyncM.wp_both {α : Type} {x : SyncM α} {I : VaultWorld → Prop}
    {S T : SyncRun → VaultWorld → Prop} {P P' : α → SyncRun → VaultWorld → Prop}
    (h : wp env I (x run) (Ends S P) w) (h' : wp env (fun _ => True) (x run) (Ends T P') w) :
    wp env I (x run) (Ends S fun a r w => P a r w ∧ P' a r w) w := by
  refine (h.and h').mono (fun _ hI => hI.1) fun out w' _ hout => ?_
  obtain ⟨hout, hout'⟩ := hout
  rcases out with e | ⟨e | a, r⟩
  · exact hout
  · exact hout
  · exact ⟨hout, hout'⟩

/-- A checkpoint does not touch the store, nor the counters. -/
theorem wp_tally_checkpoint (h : Tally D target fs env run w) :
    wp env (fun _ => True) (SyncM.checkpoint run)
      (Ends (fun _ _ => True) fun _ run' w' => Tally D target fs env run' w') w := by
  unfold SyncM.checkpoint
  refine SyncM.wp_get (SyncM.wp_attempt_bind (R := fun _ w' => w' = w.asked)
    (wp_answer trivial ⟨trivial, rfl⟩) (fun job w₁ _ hw => ?_) fun _ _ _ _ => trivial)
  subst hw
  refine SyncM.wp_modify (SyncM.wp_attempt (R := fun _ w' => Tally D target fs env run w')
    (wp_writeRename.2 ⟨trivial, trivial, trivial, trivial, ?_⟩) (fun _ w' _ h' => ?_)
    fun _ _ _ _ => trivial)
  · refine h.congr ⟨rfl, rfl, rfl⟩ fun p hp => ?_
    have hjobs : p.dir ≠ .jobs := by
      rcases hp with hp | hp | hp <;> simp [hp]
    exact lookup_persisted (w := w.asked) hjobs
  · exact h'.congr ⟨rfl, rfl, rfl⟩ fun p _ => rfl

/-- Checking an object off, and loading it. -/
theorem wp_tally_checkOff {α : Type} {f : SyncRun → SyncRun} {x : Reads α}
    (h : Tally D target fs env run w) (hf : SameCounts run (f run)) :
    wp env (fun _ => True) ((SyncM.modify f >>= fun _ => SyncM.checkpoint >>= fun _ =>
        SyncM.attempt (ofRead x)) run)
      (Ends (fun _ _ => True) fun _ run' w' => Tally D target fs env run' w') w := by
  have h' : Tally D target fs env (f run) w := h.congr hf fun p _ => rfl
  refine SyncM.wp_modify (SyncM.wp_then (wp_tally_checkpoint h') fun _ run₁ w₁ h₁ => ?_)
  exact SyncM.wp_attempt (R := fun _ w' => w' = w₁) (wp_ofRead.2 ⟨trivial, rfl⟩)
    (fun _ w₂ _ hw => hw ▸ h₁) fun _ _ _ _ => trivial

/-- Loading alone. -/
theorem wp_tally_read {α : Type} {x : Reads α} (h : Tally D target fs env run w) :
    wp env (fun _ => True) (SyncM.attempt (ofRead x) run)
      (Ends (fun _ _ => True) fun _ run' w' => Tally D target fs env run' w') w :=
  SyncM.wp_attempt (R := fun _ w' => w' = w) (wp_ofRead.2 ⟨trivial, rfl⟩)
    (fun _ _ _ hw => hw ▸ h) fun _ _ _ _ => trivial

/-- **One commit.** -/
theorem wp_tally_syncCommit (h : Tally D target fs env run w) (c : ContentHash) :
    wp env (fun _ => True) (syncCommit peers c run)
      (Ends (fun _ _ => True) fun _ run' w' => Tally D target fs env run' w') w := by
  unfold syncCommit
  refine SyncM.wp_get ?_
  dsimp only
  split
  next hnew =>
    refine SyncM.wp_attempt_read (x := hasCommitObject c) trivial (fun b hb => ?_)
      fun _ _ => trivial
    rw [hasCommitObject, commitKind.eval_hasObject] at hb
    obtain rfl := Except.ok.inj hb
    split
    next hno =>
      have hno : ¬commitKind.Present w.fs c := by simpa using hno
      refine SyncM.wp_attempt_bind (wp_getBlobWithFailover peers fun _ _ _ => trivial)
        (fun found w₁ _ h₁ => ?_) fun _ _ _ _ => trivial
      -- what a peer gave was served and has the hash asked for
      obtain ⟨hfs, -, hgot, -⟩ := h₁
      obtain ⟨hd, hserved⟩ := hgot found rfl
      have ht₁ : Tally D target fs env run w₁ := h.congr ⟨rfl, rfl, rfl⟩ fun p _ => by rw [hfs]
      rw [← hfs] at hno
      refine SyncM.wp_attempt_bind (commitKind.wp_importBytes trivial fun _ _ => ⟨trivial, trivial⟩)
        (fun _ w₂ _ h₂ => ?_) fun _ _ _ _ => trivial
      rcases h₂ with ⟨_, he, -⟩ | ⟨k, -, -, rfl⟩
      · cases he
      · exact SyncM.wp_modify (wp_tally_checkOff (ht₁.commit hno hserved hd) ⟨rfl, rfl, rfl⟩)
    -- a commit already there is read and checked off, and nothing is counted
    next =>
      refine SyncM.wp_attempt_read (x := loadCommit c) trivial (fun k hk => ?_) fun _ _ => trivial
      refine SyncM.wp_attempt_bind (R := fun _ w' => w' = w) (wp_done.2 ⟨trivial, rfl⟩)
        (fun _ w₁ _ hw => ?_) fun _ _ _ _ => trivial
      rw [hw]
      exact wp_tally_checkOff h ⟨rfl, rfl, rfl⟩
  next => exact wp_tally_read h

/-- **One tree.** -/
theorem wp_tally_syncTree (h : Tally D target fs env run w) (t : ContentHash) :
    wp env (fun _ => True) (syncTree peers t run)
      (Ends (fun _ _ => True) fun _ run' w' => Tally D target fs env run' w') w := by
  unfold syncTree
  refine SyncM.wp_get ?_
  dsimp only
  split
  next hnew =>
    refine SyncM.wp_attempt_read (x := hasTreeObject t) trivial (fun b hb => ?_) fun _ _ => trivial
    rw [hasTreeObject, treeKind.eval_hasObject] at hb
    obtain rfl := Except.ok.inj hb
    split
    next hno =>
      have hno : ¬treeKind.Present w.fs t := by simpa using hno
      refine SyncM.wp_attempt_bind (wp_getBlobWithFailover peers fun _ _ _ => trivial)
        (fun found w₁ _ h₁ => ?_) fun _ _ _ _ => trivial
      obtain ⟨hfs, -, hgot, -⟩ := h₁
      obtain ⟨hd, hserved⟩ := hgot found rfl
      have ht₁ : Tally D target fs env run w₁ := h.congr ⟨rfl, rfl, rfl⟩ fun p _ => by rw [hfs]
      rw [← hfs] at hno
      refine SyncM.wp_attempt_bind (treeKind.wp_importBytes trivial fun _ _ => ⟨trivial, trivial⟩)
        (fun _ w₂ _ h₂ => ?_) fun _ _ _ _ => trivial
      rcases h₂ with ⟨_, he, -⟩ | ⟨tr, -, -, rfl⟩
      · cases he
      · exact SyncM.wp_modify (wp_tally_checkOff (ht₁.tree hno hserved hd) ⟨rfl, rfl, rfl⟩)
    -- a tree already there is checked off, and nothing is counted
    next => exact wp_tally_checkOff h ⟨rfl, rfl, rfl⟩
  next => exact wp_tally_read h

/-- **One chunk of the DAG.** -/
theorem wp_tally_syncChunk (h : Tally D target fs env run w) {ch : ContentHash}
    (hch : D.Chunks target ch) :
    wp env (fun _ => True) (syncChunk peers ch run)
      (Ends (fun _ _ => True) fun _ run' w' => Tally D target fs env run' w') w := by
  -- what comes after the chunk is there
  have hmark : ∀ run₁ w₁, Tally D target fs env run₁ w₁ →
      wp env (fun _ => True) ((SyncM.modify (fun run => { run with job := { run.job with
            doneChunks := insert ch run.job.doneChunks } }) >>= fun _ => SyncM.get >>= fun run =>
          if run.job.doneChunks.card % 32 = 0 then SyncM.checkpoint else pure ()) run₁)
        (Ends (fun _ _ => True) fun _ run' w' => Tally D target fs env run' w') w₁ := by
    intro run₁ w₁ h₁
    have h₂ : Tally D target fs env { run₁ with job := { run₁.job with
        doneChunks := insert ch run₁.job.doneChunks } } w₁ := h₁.congr ⟨rfl, rfl, rfl⟩ fun _ _ => rfl
    refine SyncM.wp_modify (SyncM.wp_get ?_)
    split
    next => exact wp_tally_checkpoint h₂
    next => exact ⟨trivial, h₂⟩
  unfold syncChunk
  refine SyncM.wp_get ?_
  dsimp only
  split
  next => exact ⟨trivial, h⟩
  next hnew =>
    refine SyncM.wp_attempt_read (x := hasChunk ch) trivial (fun b hb => ?_) fun _ _ => trivial
    obtain rfl := Except.ok.inj hb
    split
    next hno =>
      have hno : chunkPath ch ∉ w.fs := by simpa [answer] using hno
      refine SyncM.wp_attempt_bind (wp_getBlobWithFailover peers fun _ _ _ => trivial)
        (fun found w₁ _ h₁ => ?_) fun _ _ _ _ => trivial
      obtain ⟨hfs, -, hgot, -⟩ := h₁
      obtain ⟨hd, hserved⟩ := hgot found rfl
      have ht₁ : Tally D target fs env run w₁ := h.congr ⟨rfl, rfl, rfl⟩ fun p _ => by rw [hfs]
      rw [← hfs] at hno
      refine SyncM.wp_attempt_bind (R := fun r w' => r = .ok () ∧
        w' = renamed w₁ (chunkTmp ch) (chunkPath ch) found.2)
        (wp_importStoredChunk hd hno trivial trivial trivial trivial ⟨rfl, rfl⟩)
        (fun _ w₂ _ h₂ => ?_) fun _ _ _ _ => trivial
      obtain ⟨-, rfl⟩ := h₂
      exact SyncM.wp_modify (hmark _ _ (ht₁.chunk hno hch hd hserved))
    next => exact hmark run w h

theorem wp_tally_syncChunks (chs : List ContentHash) (h : Tally D target fs env run w)
    (hchs : ∀ ch ∈ chs, D.Chunks target ch) :
    wp env (fun _ => True) (syncChunks peers chs run)
      (Ends (fun _ _ => True) fun _ run' w' => Tally D target fs env run' w') w := by
  induction chs generalizing run w with
  | nil => exact ⟨trivial, h⟩
  | cons ch chs ih =>
    refine SyncM.wp_then (wp_tally_syncChunk h (hchs ch List.mem_cons_self)) fun _ run₁ w₁ h₁ => ?_
    exact ih h₁ fun x hx => hchs x (List.mem_cons_of_mem _ hx)

/-! ## §4. The whole run. -/

/-- **One visit**, beside what `wp_syncVisit` says of it. -/
theorem wp_tally_syncVisit {c : ContentHash} (hA : Agrees D target fs env)
    (hfree : CollisionFree (Served env)) (hg : Going D target fs run w)
    (h : Tally D target fs env run w) (hc : D.Commits target c) :
    wp env (Fetching D target fs) (syncVisit peers c run)
      (Ends (Missed D target fs env peers) fun _ run' w' => Tally D target fs env run' w')
      w := by
  unfold syncVisit
  refine SyncM.wp_then (SyncM.wp_both (wp_syncCommit hA hfree hg hc) (wp_tally_syncCommit h c))
    fun k run₁ w₁ h₁ => ?_
  obtain ⟨⟨hg₁, -, -, hDk⟩, h₁⟩ := h₁
  have ht : D.Trees target k.tree := ⟨c, k, hc, hDk, rfl⟩
  refine SyncM.wp_then (SyncM.wp_both (wp_syncTree hA hfree hg₁ ht) (wp_tally_syncTree h₁ k.tree))
    fun tr run₂ w₂ h₂ => ?_
  obtain ⟨⟨hg₂, -, -, hDtr⟩, h₂⟩ := h₂
  have hchs : ∀ ch ∈ tr.allChunkHashes, D.Chunks target ch := fun ch hch => ⟨k.tree, tr, ht, hDtr, hch⟩
  refine SyncM.wp_then (SyncM.wp_both (wp_syncChunks hg₂ hchs) (wp_tally_syncChunks _ h₂ hchs))
    fun _ run₃ w₃ h₃ => ?_
  exact SyncM.wp_pure h₃.1.1.settled h₃.2

/-- **The walk.** -/
theorem wp_tally_syncWalk {adopt : Bool} (hA : Agrees D target fs env)
    (hfree : CollisionFree (Served env)) (hg : Going D target fs run w)
    (h : Tally D target fs env run w) :
    wp env (Fetching D target fs) (syncWalk peers ∅ [target] run)
      (Ends (Stopped D target fs env peers adopt) fun _ run' w' => Tally D target fs env run' w')
      w := by
  refine SyncM.wp_weaken (wp_syncWalk_of
    (J := fun v run w => Visiting D target fs v run w ∧ Tally D target fs env run w) hA.functional
    (fun _ _ _ h => h.1.1.settled) (fun _ _ _ h => h.1.stopped) (fun v c run w hv hc => ?_)
    (.init fun x => by simp) ⟨⟨hg, by simp⟩, h⟩) fun _ _ _ h' => ?_
  · have hvisit : wp env (fun _ => True) (syncVisit peers c run)
        (Ends (Missed D target fs env peers) fun _ run' w' => Tally D target fs env run' w')
        w :=
      (wp_tally_syncVisit hA hfree hv.1.1 hv.2 hc).mono (fun _ _ => trivial) fun _ _ _ h => h
    refine SyncM.wp_relax (SyncM.wp_both (wp_syncVisit hA hfree hv.1.1 hc) hvisit)
      (fun _ _ h => h.stopped) fun parents run' w' h' => ?_
    obtain ⟨⟨hg', ha, hvc, hk⟩, ht⟩ := h'
    exact ⟨⟨hv.1.insert hg' ha hvc, ht⟩, hk⟩
  · obtain ⟨v, h', -⟩ := h'
    exact h'.2

/-- The result reports the counters. -/
def Counted (D : Catalog) (target : ContentHash) (fs : VaultFs) (env : Outside) (adopt : Bool)
    (a : SyncResult) (w : VaultWorld) : Prop :=
  ∃ run, Tally D target fs env run w ∧
    a = ⟨target, run.commitsImported, run.treesImported, run.chunksImported, adopt⟩

/-- **The body of a run** reports what it imported. -/
theorem wp_tally_syncBody {adopt : Bool} (hA : Agrees D target fs env)
    (hfree : CollisionFree (Served env)) (hg : Going D target fs run w)
    (h : Tally D target fs env run w) :
    wp env (fun _ => True) (syncBody peers target adopt run)
      (Ends (fun _ _ => True) fun a _ w' => Counted D target fs env adopt a w') w := by
  -- the last checkpoint
  have hseal : ∀ run₁ w₁, Tally D target fs env run₁ w₁ →
      wp env (fun _ => True) ((SyncM.setState .done >>= fun _ => SyncM.checkpoint >>= fun _ =>
        SyncM.get >>= fun run => (pure ⟨target, run.commitsImported, run.treesImported,
          run.chunksImported, adopt⟩ : SyncM SyncResult)) run₁)
        (Ends (fun _ _ => True) fun a _ w' => Counted D target fs env adopt a w') w₁ := by
    intro run₁ w₁ h₁
    have h₂ : Tally D target fs env { run₁ with job := { run₁.job with state := .done } } w₁ :=
      h₁.congr ⟨rfl, rfl, rfl⟩ fun _ _ => rfl
    refine SyncM.wp_modify (SyncM.wp_then (wp_tally_checkpoint h₂) fun _ run₃ w₃ h₃ => ?_)
    exact SyncM.wp_get (SyncM.wp_pure trivial ⟨run₃, h₃, rfl⟩)
  have hwalk : wp env (fun _ => True) (syncWalk peers ∅ [target] run)
      (Ends (Stopped D target fs env peers adopt) fun _ run' w' => Tally D target fs env run' w')
      w :=
    (wp_tally_syncWalk hA hfree hg h).mono (fun _ _ => trivial) fun _ _ _ h => h
  unfold syncBody
  refine SyncM.wp_then (SyncM.wp_relax hwalk (fun _ _ _ => trivial) fun _ _ _ h => h)
    fun _ run₁ w₁ h₁ => ?_
  have h₁' : Tally D target fs env { run₁ with job := { run₁.job with state := .verifying } } w₁ :=
    h₁.congr ⟨rfl, rfl, rfl⟩ fun _ _ => rfl
  refine SyncM.wp_modify (SyncM.wp_then (wp_tally_checkpoint h₁') fun _ run₂ w₂ h₂ => ?_)
  refine SyncM.wp_attempt_read trivial (fun b _ => ?_) fun _ _ => trivial
  cases b with
  | false => exact SyncM.wp_reject trivial trivial
  | true =>
    cases adopt with
    | false => exact hseal run₂ w₂ h₂
    | true =>
      refine SyncM.wp_attempt_bind (wp_setHeadPublic trivial fun _ =>
        ⟨trivial, trivial, fun _ _ => ⟨trivial, trivial⟩⟩) (fun _ w₃ _ h₃ => ?_)
        fun _ _ _ _ => trivial
      rcases h₃ with ⟨_, he, -⟩ | ⟨k, -, ⟨_, he, -⟩ | ⟨heads, -, -, rfl⟩⟩
      · cases he
      · cases he
      · refine hseal run₂ _ (h₂.congr ⟨rfl, rfl, rfl⟩ fun p hp => lookup_adopted ?_ ?_)
        · rintro rfl
          rcases hp with hp | hp | hp <;> cases hp
        · rintro rfl
          rcases hp with hp | hp | hp <;> cases hp

/-- **A run from a job file on** reports what it imported. -/
theorem wp_tally_fetchMissing {adopt : Bool} (hA : Agrees D target fs env)
    (hfree : CollisionFree (Served env)) (hfs : w.fs = fs) (hu : ¬TornObject w) :
    wp env (fun _ => True) (fetchMissing peers target adopt)
      (fun r w' => ∀ a, r = .ok a → Counted D target fs env adopt a w') w := by
  have hjob : wp env (fun _ => True) (loadOrCreateJob target) (fun r w' => ∀ job, r = .ok job →
      Going D target fs ⟨job, 0, 0, 0⟩ w' ∧ Tally D target fs env ⟨job, 0, 0, 0⟩ w') w := by
    have hconf : Confined (fun _ => False) (loadOrCreateJob target) := by
      refine Confined.bind (.ofRead _) fun saved => ?_
      cases saved with
      | some job => exact .done
      | none => exact Confined.bind (.ask _) fun _ => Confined.bind (.ask _) fun _ => .done
    have hrule : wp env (Fetching D target fs) (loadOrCreateJob target) _ w :=
      wp_loadOrCreateJob hfs hu
    refine (hrule.and (hconf.wp w)).mono
      (fun _ _ => trivial) fun r w' hI hr => ?_
    obtain ⟨-, hsame⟩ := hI
    obtain ⟨hr, -⟩ := hr
    intro job hok
    rcases hr with ⟨e, he, -⟩ | ⟨job', hjob', hg⟩
    · cases he.symm.trans hok
    · obtain rfl := Except.ok.inj (hjob'.symm.trans hok)
      have hstart : Tally D target fs env ⟨job', 0, 0, 0⟩ w := .start hfs
      exact ⟨hg, hstart.congr ⟨rfl, rfl, rfl⟩ fun p _ => hsame.frame p id⟩
  unfold fetchMissing
  refine wp_seq hjob (fun job w₁ _ h₁ => ?_) fun e w₁ _ _ => nofun
  obtain ⟨hg₁, h₁⟩ := h₁ job rfl
  unfold SyncJob.touch
  refine wp_seq (R := fun r w' => ∀ job', r = .ok job' → Going D target fs ⟨job', 0, 0, 0⟩ w' ∧
    Tally D target fs env ⟨job', 0, 0, 0⟩ w') (wp_answer trivial ⟨trivial, fun job' hok => ?_⟩)
    (fun job₂ w₂ _ h₂ => ?_) fun e w₂ _ _ => nofun
  · obtain rfl := Except.ok.inj hok
    have hasked : Going D target fs ⟨job, 0, 0, 0⟩ w₁.asked := hg₁.same rfl rfl
    exact ⟨hasked.sameLists ⟨rfl, rfl, rfl, rfl⟩, h₁.congr ⟨rfl, rfl, rfl⟩ fun _ _ => rfl⟩
  · obtain ⟨hg₂, h₂⟩ := h₂ job₂ rfl
    have hpersist : wp env (fun _ => True) (persistJob job₂) (fun _ w' =>
        Going D target fs ⟨job₂, 0, 0, 0⟩ w' ∧ Tally D target fs env ⟨job₂, 0, 0, 0⟩ w') w₂ := by
      have hstore : wp env (fun _ => True) (persistJob job₂) (fun _ w' =>
          Tally D target fs env ⟨job₂, 0, 0, 0⟩ w') w₂ := by
        refine wp_writeRename.2 ⟨trivial, trivial, trivial, trivial, ?_⟩
        refine h₂.congr ⟨rfl, rfl, rfl⟩ fun p hp => lookup_persisted ?_
        rcases hp with hp | hp | hp <;> simp [hp]
      exact (hg₂.wp_persistJob.and hstore).mono (fun _ _ => trivial) fun _ _ _ hr => ⟨hr.1.2, hr.2⟩
    refine wp_seq hpersist (fun _ w₃ _ h₃ => ?_) fun e w₃ _ _ => nofun
    refine wp_seq (wp_tally_syncBody hA hfree h₃.1 h₃.2) (fun out w₄ _ h₄ => ?_)
      fun e w₄ _ _ => nofun
    obtain ⟨out, run₄⟩ := out
    cases out with
    | ok a =>
      refine ⟨trivial, fun a' ha => ?_⟩
      obtain rfl := Except.ok.inj ha
      exact h₄
    | error e =>
      -- an error is recorded, and returned
      unfold syncFinish SyncJob.touch
      refine wp_answer trivial (wp_seq (R := fun _ _ => True) ?_ (fun _ _ _ _ => ?_) ?_)
      · refine wp_handle.2 (wp_writeRename.2 ⟨trivial, trivial, trivial, trivial, ?_⟩)
        exact ⟨trivial, trivial⟩
      · exact ⟨trivial, nofun⟩
      · exact fun _ _ _ _ => nofun

end Tally

end Soal

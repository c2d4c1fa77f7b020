/-
  Soal.Sync.Progress — what a sync may have done to the disk.

  A sync adds objects of the target's DAG and chunks, and rewrites its own job file; what was there
  stays.  `Synced` says so of a disk, relative to the disk at the start.  Every state a sync passes
  through is of that kind, except that the file of one new commit or tree may be cut: truncated, and
  not written yet (`Fetching`).
-/
import Soal.Sync.Catalog

namespace Soal

open FileProg

variable [Crates]

/-! ## §1. Objects that were added. -/

namespace ObjectKind

variable {α : Type} (K : ObjectKind α)

/-- What is there stays as it is. -/
def Keeps (fs fs' : VaultFs) : Prop := ∀ h, K.Present fs h →
  fs'.lookup (K.pathBin h) = fs.lookup (K.pathBin h) ∧
    fs'.lookup (K.pathJson h) = fs.lookup (K.pathJson h)

/-- An import stored these bytes, and the object's other file does not exist. -/
structure StoredAs (fs : VaultFs) (h : ContentHash) (data : Bytes) : Prop where
  bin : isFramed K.domain data = true →
    fs.lookup (K.pathBin h) = some data ∧ K.pathJson h ∉ fs
  json : isFramed K.domain data = false →
    fs.lookup (K.pathJson h) = some data ∧ K.pathBin h ∉ fs

/-- From `fs` to `fs'` objects of `R` were added, none of them in `skip`. -/
structure Grown (skip : ContentHash → Prop) (R : ContentHash → α → Prop) (fs fs' : VaultFs) :
    Prop where
  kept : K.Keeps fs fs'
  fresh : ∀ h, ¬K.Present fs h → K.Present fs' h →
    ¬skip h ∧ ∃ data x, R h x ∧ K.Imports h data x ∧ K.StoredAs fs' h data

section Lemmas

variable {K} {skip : ContentHash → Prop} {R : ContentHash → α → Prop} {fs fs' fs'' : VaultFs}
  {h : ContentHash} {data : Bytes} {x : α}

omit [Crates] in
theorem Keeps.refl : K.Keeps fs fs := fun _ _ => ⟨rfl, rfl⟩

omit [Crates] in
theorem Keeps.present (hk : K.Keeps fs fs') (hp : K.Present fs h) : K.Present fs' h :=
  hp.imp (mem_congr (hk h hp).1).2 (mem_congr (hk h hp).2).2

omit [Crates] in
theorem Keeps.trans (hk : K.Keeps fs fs') (hk' : K.Keeps fs' fs'') : K.Keeps fs fs'' := fun h hp =>
  ⟨(hk' h (hk.present hp)).1.trans (hk h hp).1, (hk' h (hk.present hp)).2.trans (hk h hp).2⟩

theorem Keeps.load (hk : K.Keeps fs fs') (hp : K.Present fs h) :
    ReadM.eval fs' (K.load h) = ReadM.eval fs (K.load h) :=
  K.eval_load_congr (hk h hp).1 (hk h hp).2

theorem Keeps.load_ok (hk : K.Keeps fs fs') (hx : ReadM.eval fs (K.load h) = .ok x) :
    ReadM.eval fs' (K.load h) = .ok x := (hk.load (K.present_of_load hx)).trans hx

omit [Crates] in
/-- Changes to other files keep every object. -/
theorem keeps_of_eq (hb : ∀ h, fs'.lookup (K.pathBin h) = fs.lookup (K.pathBin h))
    (hj : ∀ h, fs'.lookup (K.pathJson h) = fs.lookup (K.pathJson h)) : K.Keeps fs fs' :=
  fun h _ => ⟨hb h, hj h⟩

/-- What was imported loads. -/
theorem StoredAs.load (hs : K.StoredAs fs h data) (hx : K.Imports h data x) :
    ReadM.eval fs (K.load h) = .ok x := by
  refine hx.load _ ?_ fun hf => (hs.json hf).2
  cases hf : isFramed K.domain data with
  | true => rw [importPath, if_pos hf]; exact (hs.bin hf).1
  | false => rw [importPath, if_neg (by simp [hf])]; exact (hs.json hf).1

omit [Crates] in
theorem StoredAs.congr (hs : K.StoredAs fs h data)
    (hb : fs'.lookup (K.pathBin h) = fs.lookup (K.pathBin h))
    (hj : fs'.lookup (K.pathJson h) = fs.lookup (K.pathJson h)) : K.StoredAs fs' h data where
  bin hf := ⟨hb.trans (hs.bin hf).1, fun hm => (hs.bin hf).2 ((mem_congr hj).1 hm)⟩
  json hf := ⟨hj.trans (hs.json hf).1, fun hm => (hs.json hf).2 ((mem_congr hb).1 hm)⟩

theorem Grown.refl : K.Grown skip R fs fs := ⟨.refl, fun _ hn hp => absurd hp hn⟩

/-- Changes to other files do not matter. -/
theorem Grown.congr (hg : K.Grown skip R fs fs')
    (hb : ∀ h, fs''.lookup (K.pathBin h) = fs'.lookup (K.pathBin h))
    (hj : ∀ h, fs''.lookup (K.pathJson h) = fs'.lookup (K.pathJson h)) :
    K.Grown skip R fs fs'' where
  kept := hg.kept.trans (keeps_of_eq hb hj)
  fresh h hn hp := by
    obtain ⟨hs, data, x, hR, hx, hst⟩ :=
      hg.fresh h hn (hp.imp (mem_congr (hb h)).1 (mem_congr (hj h)).1)
    exact ⟨hs, data, x, hR, hx, hst.congr (hb h) (hj h)⟩

omit [Crates] in
/-- An import of a missing object leaves its other file missing. -/
theorem storedAs_written (hl : ∀ p, fs''.lookup p =
      if p = K.importPath h data then some data else fs'.lookup p) (hn : ¬K.Present fs' h) :
    K.StoredAs fs'' h data := by
  constructor <;> intro hf <;> simp only [hl, importPath, hf, ← AList.lookup_eq_none, if_true,
    Bool.false_eq_true, if_false, true_and]
  · rw [if_neg (by simp)]
    exact AList.lookup_eq_none.2 (not_or.1 hn).2
  · rw [if_neg (by simp)]
    exact AList.lookup_eq_none.2 (not_or.1 hn).1

/-- One more object. -/
theorem Grown.imported (hg : K.Grown skip R fs fs') (hn : ¬K.Present fs' h) (hs : ¬skip h)
    (hR : R h x) (hx : K.Imports h data x) (hl : ∀ p, fs''.lookup p =
      if p = K.importPath h data then some data else fs'.lookup p) : K.Grown skip R fs fs'' := by
  have hother : ∀ h', h' ≠ h → fs''.lookup (K.pathBin h') = fs'.lookup (K.pathBin h') ∧
      fs''.lookup (K.pathJson h') = fs'.lookup (K.pathJson h') := by
    intro h' hne
    rw [hl, hl, importPath]
    constructor <;> split <;> simp [hne]
  have hstored : K.StoredAs fs'' h data := storedAs_written hl hn
  refine ⟨fun h' hp => ?_, fun h' hn' hp => ?_⟩
  · have hne : h' ≠ h := by
      rintro rfl
      exact hn (hg.kept.present hp)
    exact ⟨(hother h' hne).1.trans (hg.kept h' hp).1, (hother h' hne).2.trans (hg.kept h' hp).2⟩
  · by_cases hh : h' = h
    · subst hh
      exact ⟨hs, data, x, hR, hx, hstored⟩
    · obtain ⟨hb, hj⟩ := hother h' hh
      obtain ⟨hs', data', x', hR', hx', hst⟩ :=
        hg.fresh h' hn' (hp.imp (mem_congr hb).1 (mem_congr hj).1)
      exact ⟨hs', data', x', hR', hx', hst.congr hb hj⟩

/-- A wanted object that loads is the catalog's. -/
theorem Grown.loaded {env : Outside} {wants : ContentHash → Prop}
    (hg : K.Grown skip (fun h x => wants h ∧ R h x) fs fs') (ha : K.Agree wants R fs env)
    (hw : wants h) (hx : ReadM.eval fs' (K.load h) = .ok x) : R h x := by
  by_cases hp : K.Present fs h
  · exact ha.stored h x hw ((hg.kept.load hp).symm.trans hx)
  · obtain ⟨-, data, y, ⟨-, hR⟩, hy, hst⟩ := hg.fresh h hp (K.present_of_load hx)
    obtain rfl := Except.ok.inj ((hst.load hy).symm.trans hx)
    exact hR

/-- An obtainable object that is there loads. -/
theorem Grown.load_of_obtainable {env : Outside} {peers : List String}
    (hg : K.Grown skip R fs fs') (ho : K.Obtainable skip fs env peers h) (hp : K.Present fs' h) :
    ∃ x, ReadM.eval fs' (K.load h) = .ok x := by
  rcases ho with ⟨x, hx⟩ | ⟨hn, -⟩
  · exact ⟨x, hg.kept.load_ok hx⟩
  · obtain ⟨-, data, x, -, hx, hst⟩ := hg.fresh h hn hp
    exact ⟨x, hst.load hx⟩

/-- An obtainable object that is not there is served. -/
theorem Grown.served_of_obtainable {env : Outside} {peers : List String}
    (hg : K.Grown skip R fs fs') (ho : K.Obtainable skip fs env peers h) (hn : ¬K.Present fs' h) :
    ¬skip h ∧ ∃ peer ∈ peers, ∃ data x, Provides env peer h data ∧ K.Imports h data x := by
  rcases ho with ⟨x, hx⟩ | ⟨-, hs, hserved⟩
  · exact absurd (hg.kept.present (K.present_of_load hx)) hn
  · exact ⟨hs, hserved⟩

end Lemmas

end ObjectKind

/-! ## §2. The disk of a sync. -/

/-- From `fs` to `fs'` chunks were added, none of them in `skip`. -/
structure ChunksGrown (skip : ContentHash → Prop) (fs fs' : VaultFs) : Prop where
  kept : ∀ h, chunkPath h ∈ fs → fs'.lookup (chunkPath h) = fs.lookup (chunkPath h)
  fresh : ∀ h, chunkPath h ∉ fs → chunkPath h ∈ fs' → ¬skip h

/-- A job lists what was listed at the start, and besides only what is there. -/
structure Trace (target : ContentHash) (fs fs' : VaultFs) (job : SyncJob) : Prop where
  target_eq : job.target = target
  oldCommits : ∀ h, CheckedOff SyncJob.doneCommits fs target h → h ∈ job.doneCommits
  oldTrees : ∀ h, CheckedOff SyncJob.doneTrees fs target h → h ∈ job.doneTrees
  oldChunks : ∀ h, CheckedOff SyncJob.doneChunks fs target h → h ∈ job.doneChunks
  commits : ∀ h ∈ job.doneCommits,
    CheckedOff SyncJob.doneCommits fs target h ∨ commitKind.Present fs' h
  trees : ∀ h ∈ job.doneTrees, CheckedOff SyncJob.doneTrees fs target h ∨ treeKind.Present fs' h
  chunks : ∀ h ∈ job.doneChunks, CheckedOff SyncJob.doneChunks fs target h ∨ chunkPath h ∈ fs'

/-- The text of a job file. -/
def jobText (job : SyncJob) : Bytes := Text.toUtf8 (Crates.jobJson.toStringPretty job)

/-- What a sync of the target, begun on `fs`, may have made of the disk. -/
structure Synced (D : Catalog) (target : ContentHash) (fs fs' : VaultFs) : Prop where
  commits : commitKind.Grown (CheckedOff SyncJob.doneCommits fs target)
    (fun c k => D.Commits target c ∧ D.commit c k) fs fs'
  trees : treeKind.Grown (CheckedOff SyncJob.doneTrees fs target)
    (fun h tr => D.Trees target h ∧ D.tree h tr) fs fs'
  chunks : ChunksGrown (CheckedOff SyncJob.doneChunks fs target) fs fs'
  job : fs'.lookup (jobPath target) = fs.lookup (jobPath target) ∨
    ∃ job, fs'.lookup (jobPath target) = some (jobText job) ∧ Trace target fs fs' job
  other : ∀ p, p.dir = .jobs → p ≠ jobPath target → p ≠ jobTmp target →
    fs'.lookup p = fs.lookup p

/-- Files that no one but their writer looks at, and the root files. -/
def Scratch (target : ContentHash) (p : FilePath VaultDir) : Prop :=
  p = jobTmp target ∨ (∃ h, p = chunkTmp h) ∨ p.dir = .root

section Synced

variable {D : Catalog} {target : ContentHash} {fs fs' fs'' : VaultFs}

omit [Crates] in
theorem not_scratch_object {α : Type} {K : ObjectKind α} {h : ContentHash}
    (hK : K.dir = .commits ∨ K.dir = .trees) :
    ¬Scratch target (K.pathBin h) ∧ ¬Scratch target (K.pathJson h) := by
  constructor <;> rintro (heq | ⟨h', heq⟩ | hd)
  all_goals first
    | (have hdir := congrArg FilePath.dir heq
       rcases hK with hK | hK <;> simp [hK, jobTmp, chunkTmp] at hdir)
    | (rcases hK with hK | hK <;> simp [hK] at hd)

omit [Crates] in
theorem not_scratch_chunk (h : ContentHash) : ¬Scratch target (chunkPath h) := by
  rintro (heq | ⟨h', heq⟩ | hd)
  · cases congrArg FilePath.dir heq
  · have hname := (hexName_inj.1 (congrArg FilePath.name heq)).2
    simp at hname
  · cases hd

omit [Crates] in
theorem jobPath_ne_jobTmp (t t' : ContentHash) : jobPath t ≠ jobTmp t' := fun heq => by
  have hname := (hexName_inj.1 (congrArg FilePath.name heq)).2
  simp at hname

omit [Crates] in
theorem not_scratch_job (t : ContentHash) : ¬Scratch target (jobPath t) := by
  rintro (heq | ⟨h', heq⟩ | hd)
  · exact jobPath_ne_jobTmp _ _ heq
  · cases congrArg FilePath.dir heq
  · cases hd

/-- What a trace lists stays listed as things are added. -/
theorem Trace.mono {job : SyncJob} (h : Trace target fs fs' job)
    (hc : ∀ x, commitKind.Present fs' x → commitKind.Present fs'' x)
    (ht : ∀ x, treeKind.Present fs' x → treeKind.Present fs'' x)
    (hch : ∀ x, chunkPath x ∈ fs' → chunkPath x ∈ fs'') : Trace target fs fs'' job where
  target_eq := h.target_eq
  oldCommits := h.oldCommits
  oldTrees := h.oldTrees
  oldChunks := h.oldChunks
  commits x hx := (h.commits x hx).imp_right (hc x)
  trees x hx := (h.trees x hx).imp_right (ht x)
  chunks x hx := (h.chunks x hx).imp_right (hch x)

theorem Synced.refl : Synced D target fs fs where
  commits := .refl
  trees := .refl
  chunks := ⟨fun _ _ => rfl, fun _ hn hp => absurd hp hn⟩
  job := .inl rfl
  other _ _ _ _ := rfl

/-- Writing scratch files and the job file does not matter, as long as the job is sound. -/
theorem Synced.rewrite (h : Synced D target fs fs')
    (hl : ∀ p, ¬Scratch target p → p ≠ jobPath target → fs''.lookup p = fs'.lookup p)
    (hjob : fs''.lookup (jobPath target) = fs'.lookup (jobPath target) ∨
      ∃ job, fs''.lookup (jobPath target) = some (jobText job) ∧ Trace target fs fs' job) :
    Synced D target fs fs'' := by
  -- objects and chunks are not scratch files, so the new files hold them as the old ones do
  have hobject : ∀ {α : Type} (K : ObjectKind α), (K.dir = .commits ∨ K.dir = .trees) → ∀ x,
      fs''.lookup (K.pathBin x) = fs'.lookup (K.pathBin x) ∧
        fs''.lookup (K.pathJson x) = fs'.lookup (K.pathJson x) := by
    intro α K hK x
    have hne : ∀ p : FilePath VaultDir, p.dir = K.dir → p ≠ jobPath target := by
      rintro p hp rfl
      rcases hK with hK | hK <;> rw [hK] at hp <;> cases hp
    exact ⟨hl _ (not_scratch_object hK).1 (hne _ rfl), hl _ (not_scratch_object hK).2 (hne _ rfl)⟩
  have hpresent : ∀ {α : Type} (K : ObjectKind α), (K.dir = .commits ∨ K.dir = .trees) → ∀ x,
      K.Present fs' x → K.Present fs'' x := fun K hK x =>
    Or.imp (mem_congr (hobject K hK x).1).2 (mem_congr (hobject K hK x).2).2
  have hchunk : ∀ x, fs''.lookup (chunkPath x) = fs'.lookup (chunkPath x) := fun x =>
    hl _ (not_scratch_chunk x) fun heq => by cases congrArg FilePath.dir heq
  -- what a job file lists is there still
  have htrace : ∀ job, Trace target fs fs' job → Trace target fs fs'' job := fun job h =>
    h.mono (hpresent commitKind (.inl rfl)) (hpresent treeKind (.inr rfl))
      fun x => (mem_congr (hchunk x)).2
  refine ⟨h.commits.congr (fun x => (hobject commitKind (.inl rfl) x).1)
    (fun x => (hobject commitKind (.inl rfl) x).2),
    h.trees.congr (fun x => (hobject treeKind (.inr rfl) x).1)
      (fun x => (hobject treeKind (.inr rfl) x).2),
    ⟨fun x hx => (hchunk x).trans (h.chunks.kept x hx),
      fun x hn hx => h.chunks.fresh x hn ((mem_congr (hchunk x)).1 hx)⟩, ?_, fun p hd hp ht => ?_⟩
  · -- the job file is the old one, or lists what is there
    rcases hjob with hjob | ⟨job, hjob, ht⟩
    · rw [hjob]
      exact h.job.imp_right fun ⟨job, hjob, ht⟩ => ⟨job, hjob, htrace job ht⟩
    · exact .inr ⟨job, hjob, htrace job ht⟩
  · refine (hl p ?_ hp).trans (h.other p hd hp ht)
    rintro (rfl | ⟨x, rfl⟩ | hroot)
    · exact ht rfl
    · cases hd
    · rw [hd] at hroot
      cases hroot

/-- Writing scratch files does not matter. -/
theorem Synced.scratch (h : Synced D target fs fs')
    (hl : ∀ p, ¬Scratch target p → fs''.lookup p = fs'.lookup p) : Synced D target fs fs'' :=
  h.rewrite (fun p hp _ => hl p hp) (.inl (hl _ (not_scratch_job target)))

omit [Crates] in
theorem ObjectKind.importPath_dir {α : Type} (K : ObjectKind α) (h : ContentHash) (data : Bytes) :
    (K.importPath h data).dir = K.dir := by
  unfold ObjectKind.importPath
  split <;> rfl

omit [Crates] in
/-- An import only adds. -/
theorem ObjectKind.mem_of_imported {α : Type} {K : ObjectKind α} {h : ContentHash} {data : Bytes}
    (hl : ∀ p, fs''.lookup p = if p = K.importPath h data then some data else fs'.lookup p)
    {p : FilePath VaultDir} (hp : p ∈ fs') : p ∈ fs'' := by
  rw [Fs.mem_iff_lookup, hl]
  split
  next => exact ⟨data, rfl⟩
  next => exact Fs.mem_iff_lookup.1 hp

/-- A commit of the DAG was imported. -/
theorem Synced.importedCommit (h : Synced D target fs fs') {c : ContentHash} {data : Bytes}
    {k : Commit} (hn : ¬commitKind.Present fs' c)
    (hs : ¬CheckedOff SyncJob.doneCommits fs target c) (hw : D.Commits target c)
    (hk : D.commit c k) (hx : commitKind.Imports c data k)
    (hl : ∀ p, fs''.lookup p =
      if p = commitKind.importPath c data then some data else fs'.lookup p) :
    Synced D target fs fs'' := by
  have hother : ∀ p : FilePath VaultDir, p.dir ≠ .commits → fs''.lookup p = fs'.lookup p := by
    intro p hp
    rw [hl, if_neg]
    rintro rfl
    exact hp (ObjectKind.importPath_dir _ _ _)
  have hmem : ∀ {p}, p ∈ fs' → p ∈ fs'' := ObjectKind.mem_of_imported hl
  have hchunk : ∀ x, fs''.lookup (chunkPath x) = fs'.lookup (chunkPath x) := fun x =>
    hother _ fun hd => by cases hd
  refine ⟨h.commits.imported hn hs ⟨hw, hk⟩ hx hl,
    h.trees.congr (fun x => hother _ fun hd => by cases hd)
      (fun x => hother _ fun hd => by cases hd),
    ⟨fun x hx => (hchunk x).trans (h.chunks.kept x hx),
      fun x hn hx => h.chunks.fresh x hn ((mem_congr (hchunk x)).1 hx)⟩, ?_,
    fun p hd hp ht => (hother p (by rw [hd]; decide)).trans (h.other p hd hp ht)⟩
  rw [hother _ fun hd => by cases hd]
  exact h.job.imp_right fun ⟨job, hjob, ht⟩ => ⟨job, hjob,
    ht.mono (fun x => Or.imp hmem hmem) (fun x => Or.imp hmem hmem) fun x => hmem⟩

/-- A tree of the DAG was imported. -/
theorem Synced.importedTree (h : Synced D target fs fs') {t : ContentHash} {data : Bytes}
    {tr : Tree} (hn : ¬treeKind.Present fs' t)
    (hs : ¬CheckedOff SyncJob.doneTrees fs target t) (hw : D.Trees target t)
    (hk : D.tree t tr) (hx : treeKind.Imports t data tr)
    (hl : ∀ p, fs''.lookup p =
      if p = treeKind.importPath t data then some data else fs'.lookup p) :
    Synced D target fs fs'' := by
  have hother : ∀ p : FilePath VaultDir, p.dir ≠ .trees → fs''.lookup p = fs'.lookup p := by
    intro p hp
    rw [hl, if_neg]
    rintro rfl
    exact hp (ObjectKind.importPath_dir _ _ _)
  have hmem : ∀ {p}, p ∈ fs' → p ∈ fs'' := ObjectKind.mem_of_imported hl
  have hchunk : ∀ x, fs''.lookup (chunkPath x) = fs'.lookup (chunkPath x) := fun x =>
    hother _ fun hd => by cases hd
  refine ⟨h.commits.congr (fun x => hother _ fun hd => by cases hd)
      (fun x => hother _ fun hd => by cases hd),
    h.trees.imported hn hs ⟨hw, hk⟩ hx hl,
    ⟨fun x hx => (hchunk x).trans (h.chunks.kept x hx),
      fun x hn hx => h.chunks.fresh x hn ((mem_congr (hchunk x)).1 hx)⟩, ?_,
    fun p hd hp ht => (hother p (by rw [hd]; decide)).trans (h.other p hd hp ht)⟩
  rw [hother _ fun hd => by cases hd]
  exact h.job.imp_right fun ⟨job, hjob, ht⟩ => ⟨job, hjob,
    ht.mono (fun x => Or.imp hmem hmem) (fun x => Or.imp hmem hmem) fun x => hmem⟩

/-- A chunk was imported. -/
theorem Synced.importedChunk (h : Synced D target fs fs') {ch : ContentHash} {data : Bytes}
    (hn : chunkPath ch ∉ fs') (hs : ¬CheckedOff SyncJob.doneChunks fs target ch)
    (hl : ∀ p, fs''.lookup p = if p = chunkPath ch then some data else
      if p = chunkTmp ch then none else fs'.lookup p) : Synced D target fs fs'' := by
  have hother : ∀ p : FilePath VaultDir, p ≠ chunkPath ch → (∀ x, p ≠ chunkTmp x) →
      fs''.lookup p = fs'.lookup p := fun p hp ht => by rw [hl, if_neg hp, if_neg (ht ch)]
  have hdir : ∀ p : FilePath VaultDir, p.dir ≠ .chunks → fs''.lookup p = fs'.lookup p := fun p hp =>
    hother p (by rintro rfl; exact hp rfl) (by rintro x rfl; exact hp rfl)
  -- a temporary file is not a chunk: its name ends otherwise
  have htmp : ∀ x y, chunkPath x ≠ chunkTmp y := fun x y heq => by
    have hname := (hexName_inj.1 (congrArg FilePath.name heq)).2
    simp at hname
  have hchunk : ∀ x, x ≠ ch → fs''.lookup (chunkPath x) = fs'.lookup (chunkPath x) := fun x hx =>
    hother _ (fun heq => hx (hexName_inj.1 (congrArg FilePath.name heq)).1) (htmp x)
  have hmem : ∀ x, chunkPath x ∈ fs' → chunkPath x ∈ fs'' := fun x hx =>
    (mem_congr (hchunk x (by rintro rfl; exact hn hx))).2 hx
  -- objects lie in other directories
  have hkeep : ∀ {α : Type} (K : ObjectKind α), (K.dir = .commits ∨ K.dir = .trees) → ∀ x,
      fs''.lookup (K.pathBin x) = fs'.lookup (K.pathBin x) ∧
        fs''.lookup (K.pathJson x) = fs'.lookup (K.pathJson x) := fun K hK x => by
    constructor <;> refine hdir _ ?_ <;> rcases hK with hK | hK <;> simp [hK]
  have hcommit := hkeep commitKind (.inl rfl)
  have htree := hkeep treeKind (.inr rfl)
  refine ⟨h.commits.congr (fun x => (hcommit x).1) (fun x => (hcommit x).2),
    h.trees.congr (fun x => (htree x).1) (fun x => (htree x).2),
    ⟨fun x hx => ?_, fun x hx hm => ?_⟩, ?_,
    fun p hd hp ht => (hdir p (by rw [hd]; decide)).trans (h.other p hd hp ht)⟩
  · have hx' : chunkPath x ∈ fs' := (mem_congr (h.chunks.kept x hx)).2 hx
    exact (hchunk x (by rintro rfl; exact hn hx')).trans (h.chunks.kept x hx)
  · -- only this chunk is new, and the job file did not list it
    by_cases hxc : x = ch
    · exact hxc ▸ hs
    · exact h.chunks.fresh x hx ((mem_congr (hchunk x hxc)).1 hm)
  · rw [hdir _ fun hd => by cases hd]
    refine h.job.imp_right fun ⟨job, hjob, ht⟩ =>
      ⟨job, hjob, ht.mono (fun x => ?_) (fun x => ?_) hmem⟩
    · exact Or.imp (mem_congr (hcommit x).1).2 (mem_congr (hcommit x).2).2
    · exact Or.imp (mem_congr (htree x).1).2 (mem_congr (htree x).2).2

end Synced

end Soal

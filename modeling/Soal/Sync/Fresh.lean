/-
  Soal.Sync.Fresh — the sync of a whole DAG into a vault that holds none of it.

  It succeeds as soon as every object is served by one peer.  It counts each object once, and what it
  leaves in the store is the source's files: nothing of it depends on the order of the peers, nor on
  what the others answer.
-/
import Soal.Sync.Tally
import Soal.Vault.Serve

namespace Soal

open FileProg

section Model

variable [Crates]

/-! ## §1. Source, destination, peers. -/

/-- The catalog of a directory: what its objects load as. -/
def stored (src : VaultFs) : Catalog where
  commit c k := ReadM.eval src (loadCommit c) = .ok k
  tree h tr := ReadM.eval src (loadTree h) = .ok tr

/-- The object loads from a file in wire form, of legal size. -/
def ObjectKind.Wired {α : Type} (K : ObjectKind α) (src : VaultFs) (h : ContentHash) (x : α) : Prop :=
  ReadM.eval src (K.load h) = .ok x ∧ ∃ data, src.lookup (K.pathBin h) = some data ∧
    isFramed K.domain data = true ∧ data.length ≤ maxBlobBytes

/-- The target's DAG at the source: commits and trees in wire form, unsigned or validly signed
commits, and chunks that load.  It is no larger than a sync allows. -/
structure SourceDag (src : VaultFs) (target : ContentHash) : Prop where
  commit : ∀ c, (stored src).Commits target c →
    ∃ k, commitKind.Wired src c k ∧ verifyCommitSignature k = .ok ()
  tree : ∀ h, (stored src).Trees target h → ∃ tr, treeKind.Wired src h tr
  chunk : ∀ ch, (stored src).Chunks target ch →
    ∃ data, ReadM.eval src (exportStoredChunk ch) = .ok data ∧ data.length ≤ maxBlobBytes
  small : {c | (stored src).Commits target c}.encard ≤ maxJobCommits

/-- A vault that holds nothing of the DAG and has no job for it.  Its list of heads, a file that only
the vault itself writes, can be read. -/
structure Vacant (src : VaultFs) (target : ContentHash) (fs : VaultFs) : Prop where
  commit : ∀ c, (stored src).Commits target c → ¬commitKind.Present fs c
  tree : ∀ h, (stored src).Trees target h → ¬treeKind.Present fs h
  chunk : ∀ ch, (stored src).Chunks target ch → chunkPath ch ∉ fs
  job : jobPath target ∉ fs
  heads : ∃ hs, ReadM.eval fs listHeadsFileOnly = .ok hs

/-- One of the peers serves the file of the source under this hash. -/
def ServesFile (src : VaultFs) (env : Outside) (peers : List String) (p : FilePath VaultDir)
    (h : ContentHash) : Prop :=
  ∃ peer ∈ peers, ∀ data, src.lookup p = some data → ∀ n, env n (.getBlob peer h) = .ok data

/-- Every object of the DAG is served by at least one of the peers. -/
structure EachServed (src : VaultFs) (target : ContentHash) (env : Outside) (peers : List String) :
    Prop where
  commit : ∀ c, (stored src).Commits target c → ServesFile src env peers (commitPathBin c) c
  tree : ∀ h, (stored src).Trees target h → ServesFile src env peers (treePathBin h) h
  chunk : ∀ ch, (stored src).Chunks target ch → ServesFile src env peers (chunkPath ch) ch

/-- A file of the object store. -/
def StoreFile (p : FilePath VaultDir) : Prop :=
  ∃ h, p = commitPathBin h ∨ p = commitPathJson h ∨ p = treePathBin h ∨ p = treePathJson h ∨
    p = chunkPath h

/-- The file at the source of an object of the DAG. -/
def DagFile (src : VaultFs) (target : ContentHash) (p : FilePath VaultDir) : Prop :=
  (∃ c, (stored src).Commits target c ∧ p = commitPathBin c) ∨
    (∃ h, (stored src).Trees target h ∧ p = treePathBin h) ∨
    ∃ ch, (stored src).Chunks target ch ∧ p = chunkPath ch

/-- How a fresh sync ends: it counts every object of the DAG once, HEAD is at the target, every commit
of the DAG is complete, and the store is the old one with the files of the source. -/
structure FreshlySynced (src : VaultFs) (target : ContentHash) (fs : VaultFs) (a : SyncResult)
    (fs' : VaultFs) : Prop where
  target_eq : a.target = target
  headUpdated : a.headUpdated = true
  commits : {c | (stored src).Commits target c}.encard = a.commitsImported
  trees : {h | (stored src).Trees target h}.encard = a.treesImported
  chunks : {ch | (stored src).Chunks target ch}.encard = a.chunksImported
  complete : ∀ c, (stored src).Commits target c → ReadM.eval fs' (isComplete c) = .ok true
  head : ReadM.eval fs' head = .ok (some target)
  dagFile : ∀ p, DagFile src target p → fs'.lookup p = src.lookup p
  otherFile : ∀ p, StoreFile p → ¬DagFile src target p → fs'.lookup p = fs.lookup p

/-! ## §2. What a sync asks for can be had. -/

section Supply

variable {src fs : VaultFs} {target : ContentHash} {env : Outside} {peers : List String}

theorem stored_functional (src : VaultFs) : (stored src).Functional :=
  ⟨fun _ _ _ h h' => Except.ok.inj (h.symm.trans h'),
    fun _ _ _ h h' => Except.ok.inj (h.symm.trans h')⟩

/-- A verified object in wire form is accepted under its hash. -/
theorem ObjectKind.Wired.imports {α : Type} {K : ObjectKind α} {h : ContentHash} {x : α}
    (hw : K.Wired src h x) (hv : K.verify x = .ok ()) : ∃ data, src.lookup (K.pathBin h) = some data ∧
      isFramed K.domain data = true ∧ data.length ≤ maxBlobBytes ∧ K.Imports h data x := by
  obtain ⟨hload, data, hl, hf, hsize⟩ := hw
  have hparse := (K.eval_load_bin hl).symm.trans hload
  obtain ⟨hd, hread, hhash⟩ := K.parseBin_ok_iff.1 hparse
  exact ⟨data, hl, hf, hsize, hd, fun _ => ⟨hread, hhash, hv⟩, fun hno => by cases hf.symm.trans hno⟩

theorem SourceDag.imports_commit (h : SourceDag src target) {c : ContentHash}
    (hc : (stored src).Commits target c) : ∃ data k, src.lookup (commitPathBin c) = some data ∧
      isFramed domainCommit data = true ∧ data.length ≤ maxBlobBytes ∧
      commitKind.Imports c data k ∧ (stored src).commit c k := by
  obtain ⟨k, hw, hv⟩ := h.commit c hc
  obtain ⟨data, hl, hf, hsize, hi⟩ := hw.imports hv
  exact ⟨data, k, hl, hf, hsize, hi, hw.1⟩

theorem SourceDag.imports_tree (h : SourceDag src target) {t : ContentHash}
    (ht : (stored src).Trees target t) : ∃ data tr, src.lookup (treePathBin t) = some data ∧
      isFramed domainTree data = true ∧ data.length ≤ maxBlobBytes ∧
      treeKind.Imports t data tr ∧ (stored src).tree t tr := by
  obtain ⟨tr, hw⟩ := h.tree t ht
  obtain ⟨data, hl, hf, hsize, hi⟩ := hw.imports (K := treeKind) rfl
  exact ⟨data, tr, hl, hf, hsize, hi, hw.1⟩

omit [Crates] in
/-- A served file is provided, whatever else the peers do. -/
theorem ServesFile.provides {p : FilePath VaultDir} {h : ContentHash} {data : Bytes}
    (hs : ServesFile src env peers p h) (hl : src.lookup p = some data)
    (hsize : data.length ≤ maxBlobBytes) : ∃ peer ∈ peers, Provides env peer h data := by
  obtain ⟨peer, hpeer, hall⟩ := hs
  exact ⟨peer, hpeer, hall data hl, hsize⟩

/-- Peers offer nothing else under the hashes of the DAG. -/
theorem agrees_stored (hsrc : SourceDag src target) (hdest : Vacant src target fs)
    (hserved : EachServed src target env peers) (hfree : CollisionFree (Served env)) :
    Agrees (stored src) target fs env where
  functional := stored_functional src
  commits := by
    refine ⟨fun c k hc hk => absurd (commitKind.present_of_load hk) (hdest.commit c hc), ?_⟩
    intro c data k hc _ hdata hi
    obtain ⟨data', k', hl, -, hsize, hi', hk'⟩ := hsrc.imports_commit hc
    obtain ⟨peer, -, hprov⟩ := (hserved.commit c hc).provides hl hsize
    obtain rfl := hfree data data' hdata hprov.served (hi.hash_eq.trans hi'.hash_eq.symm)
    rw [hi.unique _ hi']
    exact hk'
  trees := by
    refine ⟨fun t tr ht htr => absurd (treeKind.present_of_load htr) (hdest.tree t ht), ?_⟩
    intro t data tr ht _ hdata hi
    obtain ⟨data', tr', hl, -, hsize, hi', htr'⟩ := hsrc.imports_tree ht
    obtain ⟨peer, -, hprov⟩ := (hserved.tree t ht).provides hl hsize
    obtain rfl := hfree data data' hdata hprov.served (hi.hash_eq.trans hi'.hash_eq.symm)
    rw [hi.unique _ hi']
    exact htr'

theorem Vacant.noJob (h : Vacant src target fs) : ReadM.eval fs (savedJob target) = .ok none := by
  unfold savedJob
  rw [ReadM.eval_bind, ReadM.eval_pathExists, ok_bind, if_neg (by simp [h.job])]
  rfl

theorem Vacant.notCheckedOff (h : Vacant src target fs) {done : SyncJob → Finset ContentHash}
    (x : ContentHash) : ¬CheckedOff done fs target x :=
  not_checkedOff fun job hj => by cases h.noJob.symm.trans hj

/-- **Everything the sync needs can be had.** -/
theorem supplied_stored (hsrc : SourceDag src target) (hdest : Vacant src target fs)
    (hserved : EachServed src target env peers) :
    Supplied (stored src) target fs env peers true where
  peers_ne := by
    obtain ⟨peer, hpeer, -⟩ := hserved.commit target Catalog.commits_target
    exact List.ne_nil_of_mem hpeer
  commit c hc := by
    obtain ⟨data, k, hl, -, hsize, hi, -⟩ := hsrc.imports_commit hc
    obtain ⟨peer, hpeer, hprov⟩ := (hserved.commit c hc).provides hl hsize
    exact .inr ⟨hdest.commit c hc, hdest.notCheckedOff c, peer, hpeer, data, k, hprov, hi⟩
  signed c k hc hk := by
    obtain ⟨k', hw, hv⟩ := hsrc.commit c hc
    obtain rfl := (stored_functional src).commit c k k' hk hw.1
    exact hv
  tree t ht := by
    obtain ⟨data, tr, hl, -, hsize, hi, -⟩ := hsrc.imports_tree ht
    obtain ⟨peer, hpeer, hprov⟩ := (hserved.tree t ht).provides hl hsize
    exact .inr ⟨hdest.tree t ht, hdest.notCheckedOff t, peer, hpeer, data, tr, hprov, hi⟩
  chunk ch hch := by
    obtain ⟨data, hload, hsize⟩ := hsrc.chunk ch hch
    obtain ⟨hl, hd⟩ := exportStoredChunk_ok_iff.1 hload
    obtain ⟨peer, hpeer, hprov⟩ := (hserved.chunk ch hch).provides hl hsize
    exact .inr (.inr ⟨peer, hpeer, data, hprov, hd⟩)
  tip k tr _ _ ch _ hdone := absurd hdone (hdest.notCheckedOff ch)
  small := by
    have hfin : {c | (stored src).Commits target c}.Finite :=
      Set.finite_of_encard_le_coe hsrc.small
    refine ⟨hfin.toFinset, ?_, fun c hc => hfin.mem_toFinset.2 hc⟩
    have hcard := hsrc.small
    rw [hfin.encard_eq_coe_toFinset_card] at hcard
    exact_mod_cast hcard
  job := ⟨none, hdest.noJob⟩
  heads _ := hdest.heads

/-- An empty vault is vacant. -/
theorem empty_vacant (src : VaultFs) (target : ContentHash) : Vacant src target ∅ where
  commit _ _ := fun h => by cases h <;> contradiction
  tree _ _ := fun h => by cases h <;> contradiction
  chunk _ _ := AList.notMem_empty _
  job := AList.notMem_empty _
  heads := ⟨_, eval_listHeadsFileOnly_absent (AList.notMem_empty _)⟩

/-- The target is not complete before. -/
theorem Vacant.notComplete (h : Vacant src target fs) :
    ReadM.eval fs (isComplete target) ≠ .ok true := by
  intro hc
  obtain ⟨k, tr, hk, -⟩ := eval_isComplete_iff.1 hc
  exact h.commit target Catalog.commits_target (commitKind.present_of_load hk)

end Supply

/-! ## §3. The sync. -/

section Fresh

variable {src fs : VaultFs} {target : ContentHash} {env : Outside} {peers : List String}

/-- What is counted at the end. -/
theorem fetchDag_counted (hA : Agrees (stored src) target fs env)
    (hfree : CollisionFree (Served env)) (hno : ReadM.eval fs (isComplete target) ≠ .ok true)
    {a : SyncResult} {w' : VaultWorld}
    (hrun : run env (fetchDag peers target true) (World.boot fs) = (.ok a, w')) :
    Counted (stored src) target fs env true a w' := by
  have hrule : wp env (fun _ => True) (fetchDag peers target true) (fun r w' => ∀ a, r = .ok a →
      Counted (stored src) target fs env true a w') (World.boot fs) := by
    unfold fetchDag
    split
    next =>
      refine wp_done.2 ⟨trivial, ?_⟩
      intro a ha
      cases ha
    next =>
      refine wp_read (x := isComplete target) trivial (fun b hb => ?_) (fun e he => ?_)
      · cases b with
        | true => exact absurd hb hno
        | false => exact wp_tally_fetchMissing hA hfree rfl (not_torn_boot fs)
      · intro a ha
        cases ha
  have hpost := hrule.post
  rw [hrun] at hpost
  exact hpost a rfl

/-- A new object of the DAG is stored in the source's file. -/
theorem stored_as_source {α : Type} {K : ObjectKind α} {n : Nat} {fs' : VaultFs} {h : ContentHash}
    {data : Bytes} {x : α} (ht : K.Tally env fs fs' n) (hfree : CollisionFree (Served env))
    (hold : ¬K.Present fs h) (hnew : K.Present fs' h) (hl : src.lookup (K.pathBin h) = some data)
    (hf : isFramed K.domain data = true) (hi : K.Imports h data x) (hdata : Served env data) :
    fs'.lookup (K.pathBin h) = src.lookup (K.pathBin h) ∧
      fs'.lookup (K.pathJson h) = fs.lookup (K.pathJson h) := by
  obtain ⟨data', hdata', hd', hst⟩ := ht.content h ⟨hold, hnew⟩
  obtain rfl := hfree data' data hdata' hdata (hd'.trans hi.hash_eq.symm)
  obtain ⟨hbin, hjson⟩ := hst.bin hf
  refine ⟨hbin.trans hl.symm, ?_⟩
  rw [AList.lookup_eq_none.2 hjson, AList.lookup_eq_none.2 (not_or.1 hold).2]

/-- An object that is not of the DAG stays as it was. -/
theorem kept_as_before {α : Type} {K : ObjectKind α} {skip : ContentHash → Prop}
    {R : ContentHash → α → Prop} {fs' : VaultFs} {h : ContentHash} (hg : K.Grown skip R fs fs')
    (hno : ∀ x, ¬R h x) : fs'.lookup (K.pathBin h) = fs.lookup (K.pathBin h) ∧
      fs'.lookup (K.pathJson h) = fs.lookup (K.pathJson h) := by
  by_cases hp : K.Present fs h
  · exact hg.kept h hp
  · have hp' : ¬K.Present fs' h := fun hp' => by
      obtain ⟨-, data, x, hR, -⟩ := hg.fresh h hp hp'
      exact hno x hR
    obtain ⟨hb, hj⟩ := not_or.1 hp
    obtain ⟨hb', hj'⟩ := not_or.1 hp'
    rw [AList.lookup_eq_none.2 hb, AList.lookup_eq_none.2 hj, AList.lookup_eq_none.2 hb',
      AList.lookup_eq_none.2 hj']
    exact ⟨rfl, rfl⟩

/-- A commit of the DAG on both disks, when the walk is done. -/
theorem Walked.loads {D : Catalog} {fs' : VaultFs} (h : Walked D target fs fs')
    (hfun : D.Functional) {c : ContentHash} {k : Commit} (hc : D.Commits target c)
    (hk : D.commit c k) : ∃ tr, ReadM.eval fs' (loadCommit c) = .ok k ∧
      ReadM.eval fs' (loadTree k.tree) = .ok tr ∧ D.tree k.tree tr ∧
      ∀ ch ∈ tr.allChunkHashes, chunkPath ch ∈ fs' ↔
        chunkPath ch ∈ fs ∨ ¬CheckedOff SyncJob.doneChunks fs target ch := by
  obtain ⟨k', tr, hk', hDk', htr, hDtr, hch⟩ := h.visited c hc
  obtain rfl := hfun.commit c k k' hk hDk'
  exact ⟨tr, hk', htr, hDtr, hch⟩

/-- **A fresh sync succeeds and brings the DAG.** -/
theorem freshlySynced (hsrc : SourceDag src target) (hdest : Vacant src target fs)
    (hserved : EachServed src target env peers) (hfree : CollisionFree (Served env)) :
    ∃ a w', run env (fetchDag peers target true) (World.boot fs) = (.ok a, w') ∧
      FreshlySynced src target fs a w'.fs := by
  have hA := agrees_stored hsrc hdest hserved hfree
  have hfun := stored_functional src
  have hu : ¬TornObject (World.boot fs) := not_torn_boot fs
  have hrule : wp env (Fetching (stored src) target fs) (fetchDag peers target true)
      (Outcome (stored src) target fs env peers true) (World.boot fs) :=
    wp_fetchDag hA hfree rfl hu
  have hout := hrule.post
  generalize hrun : run env (fetchDag peers target true) (World.boot fs) = out at hout
  obtain ⟨r, w'⟩ := out
  cases r with
  | error e => exact absurd (supplied_stored hsrc hdest hserved) (hout.2 e rfl).2.2.2
  | ok a =>
    have hfetched := hout.1 a rfl
    rw [if_neg hdest.notComplete] at hfetched
    obtain ⟨run₁, htally, rfl⟩ := fetchDag_counted hA hfree hdest.notComplete hrun
    -- the new objects are those of the DAG
    have hcommits : ∀ c, c ∈ commitKind.Added fs w'.fs ↔ (stored src).Commits target c := by
      intro c
      constructor
      · rintro ⟨hn, hp⟩
        obtain ⟨-, data, x, ⟨hc, -⟩, -⟩ := hfetched.synced.commits.fresh c hn hp
        exact hc
      · intro hc
        obtain ⟨k, tr, hk, -⟩ := hfetched.walked.visited c hc
        exact ⟨hdest.commit c hc, commitKind.present_of_load hk⟩
    have htrees : ∀ h, h ∈ treeKind.Added fs w'.fs ↔ (stored src).Trees target h := by
      intro h
      constructor
      · rintro ⟨hn, hp⟩
        obtain ⟨-, data, x, ⟨ht, -⟩, -⟩ := hfetched.synced.trees.fresh h hn hp
        exact ht
      · intro ht
        obtain ⟨c, k, hc, hk, rfl⟩ := id ht
        obtain ⟨tr, -, htr, -⟩ := hfetched.walked.loads hfun hc hk
        exact ⟨hdest.tree _ ht, treeKind.present_of_load htr⟩
    have hchunks : ∀ ch, ch ∈ NewChunks fs w'.fs ↔ (stored src).Chunks target ch := by
      intro ch
      constructor
      · exact fun hnew => (htally.chunks.content ch hnew).1
      · intro hch
        obtain ⟨t, tr, ⟨c, k, hc, hk, rfl⟩, htr, hmem⟩ := id hch
        obtain ⟨tr', -, -, htr', hiff⟩ := hfetched.walked.loads hfun hc hk
        obtain rfl := hfun.tree _ tr tr' htr htr'
        exact ⟨hdest.chunk ch hch, (hiff ch hmem).2 (.inr (hdest.notCheckedOff ch))⟩
    -- and they are in the source's files
    have hcommitFile : ∀ c, (stored src).Commits target c →
        w'.fs.lookup (commitPathBin c) = src.lookup (commitPathBin c) ∧
          w'.fs.lookup (commitPathJson c) = fs.lookup (commitPathJson c) := by
      intro c hc
      obtain ⟨data, k, hl, hf, hsize, hi, -⟩ := hsrc.imports_commit hc
      obtain ⟨peer, -, hprov⟩ := (hserved.commit c hc).provides hl hsize
      obtain ⟨hn, hp⟩ := (hcommits c).2 hc
      exact stored_as_source htally.commits hfree hn hp hl hf hi hprov.served
    have htreeFile : ∀ t, (stored src).Trees target t →
        w'.fs.lookup (treePathBin t) = src.lookup (treePathBin t) ∧
          w'.fs.lookup (treePathJson t) = fs.lookup (treePathJson t) := by
      intro t ht
      obtain ⟨data, tr, hl, hf, hsize, hi, -⟩ := hsrc.imports_tree ht
      obtain ⟨peer, -, hprov⟩ := (hserved.tree t ht).provides hl hsize
      obtain ⟨hn, hp⟩ := (htrees t).2 ht
      exact stored_as_source htally.trees hfree hn hp hl hf hi hprov.served
    refine ⟨_, w', rfl, rfl, rfl, ?_, ?_, ?_, fun c hc => ?_, ?_, ?_, ?_⟩
    · rw [← htally.commits.count]
      exact congrArg Set.encard (Set.ext hcommits).symm
    · rw [← htally.trees.count]
      exact congrArg Set.encard (Set.ext htrees).symm
    · rw [← htally.chunks.count]
      exact congrArg Set.encard (Set.ext hchunks).symm
    · obtain ⟨k, tr, hk, -, htr, -, hiff⟩ := hfetched.walked.visited c hc
      refine eval_isComplete_iff.2 ⟨k, tr, hk, htr, fun ch hch => ?_⟩
      exact (hiff ch hch).2 (.inr (hdest.notCheckedOff ch))
    · obtain ⟨heads, -, hhead, -⟩ := hfetched.adopts rfl
      exact hhead
    · rintro p (⟨c, hc, rfl⟩ | ⟨t, ht, rfl⟩ | ⟨ch, hch, rfl⟩)
      · exact (hcommitFile c hc).1
      · exact (htreeFile t ht).1
      · obtain ⟨data, hload, hsize⟩ := hsrc.chunk ch hch
        obtain ⟨hl, hd⟩ := exportStoredChunk_ok_iff.1 hload
        obtain ⟨peer, -, hprov⟩ := (hserved.chunk ch hch).provides hl hsize
        obtain ⟨-, data', hl', hd', hdata'⟩ := htally.chunks.content ch ((hchunks ch).2 hch)
        obtain rfl := hfree data' data hdata' hprov.served (hd'.trans hd.symm)
        rw [hl', hl]
    · rintro p ⟨h, rfl | rfl | rfl | rfl | rfl⟩ hno
      · have hc : ¬(stored src).Commits target h := fun hc => hno (.inl ⟨h, hc, rfl⟩)
        exact (kept_as_before hfetched.synced.commits fun x hx => hc hx.1).1
      · by_cases hc : (stored src).Commits target h
        · exact (hcommitFile h hc).2
        · exact (kept_as_before hfetched.synced.commits fun x hx => hc hx.1).2
      · have ht : ¬(stored src).Trees target h := fun ht => hno (.inr (.inl ⟨h, ht, rfl⟩))
        exact (kept_as_before hfetched.synced.trees fun x hx => ht hx.1).1
      · by_cases ht : (stored src).Trees target h
        · exact (htreeFile h ht).2
        · exact (kept_as_before hfetched.synced.trees fun x hx => ht hx.1).2
      · have hch : ¬(stored src).Chunks target h := fun hch => hno (.inr (.inr ⟨h, hch, rfl⟩))
        by_cases hp : chunkPath h ∈ fs
        · exact hfetched.synced.chunks.kept h hp
        · have hp' : chunkPath h ∉ w'.fs := fun hp' => hch ((hchunks h).1 ⟨hp, hp'⟩)
          rw [AList.lookup_eq_none.2 hp, AList.lookup_eq_none.2 hp']

/-- **A fresh sync succeeds as soon as every object is served by one peer, and what it leaves in the
store does not depend on the peers' order or on their other answers.** -/
theorem fetchDag_fresh (hsrc : SourceDag src target) (hdest : Vacant src target fs)
    (hserved : EachServed src target env peers) (hfree : CollisionFree (Served env)) :
    (∃ a w', run env (fetchDag peers target true) (World.boot fs) = (.ok a, w') ∧
      FreshlySynced src target fs a w'.fs) ∧
    ∀ (env' : Outside) (peers' : List String), EachServed src target env' peers' →
      CollisionFree (Served env') → ∀ p, StoreFile p →
        (run env' (fetchDag peers' target true) (World.boot fs)).2.fs.lookup p =
          (run env (fetchDag peers target true) (World.boot fs)).2.fs.lookup p := by
  refine ⟨freshlySynced hsrc hdest hserved hfree, fun env' peers' hserved' hfree' p hp => ?_⟩
  obtain ⟨a, w', hrun, hend⟩ := freshlySynced hsrc hdest hserved hfree
  obtain ⟨a', w'', hrun', hend'⟩ := freshlySynced hsrc hdest hserved' hfree'
  rw [hrun, hrun']
  show w''.fs.lookup p = w'.fs.lookup p
  by_cases hd : DagFile src target p
  · rw [hend.dagFile p hd, hend'.dagFile p hd]
  · rw [hend.otherFile p hp hd, hend'.otherFile p hp hd]

end Fresh

end Model

/-! ## §4. The note and its overwriting. -/

/-- What is listed under a hash. -/
def blobAmong (blobs : List (ContentHash × Bytes)) (hash : ContentHash) : Except SoalError Bytes :=
  match blobs.find? (fun blob => blob.1 == hash) with
  | some blob => .ok blob.2
  | none => .error (.other "not found")

/-- The peer `good` serves what is listed, every other peer answers everything with the same bytes. -/
def goodPeer (blobs : List (ContentHash × Bytes)) (other : Bytes) : Outside := fun n q => match q with
  | .getBlob peer hash => if peer = "good" then blobAmong blobs hash else .ok other
  | .now => quiet 0 n .now
  | .random k => quiet 0 n (.random k)
  | .loadSecretKey name => quiet 0 n (.loadSecretKey name)
  | .addBytes data => quiet 0 n (.addBytes data)
  | .broadcastHead id head => quiet 0 n (.broadcastHead id head)

theorem goodPeer_served {blobs : List (ContentHash × Bytes)} {other b : Bytes}
    (h : Served (goodPeer blobs other) b) : b ∈ other :: blobs.map Prod.snd := by
  obtain ⟨n, peer, hash, h⟩ := h
  have h : (if peer = "good" then blobAmong blobs hash else .ok other) = .ok b := h
  split at h
  next =>
    unfold blobAmong at h
    split at h
    next blob hblob =>
      obtain rfl := Except.ok.inj h
      exact List.mem_cons_of_mem _ (List.mem_map_of_mem (List.mem_of_find?_eq_some hblob))
    next => cases h
  next =>
    obtain rfl := Except.ok.inj h
    exact List.mem_cons_self

/-- The good peer serves a file of the source. -/
theorem goodPeer_servesFile {blobs : List (ContentHash × Bytes)} {other data : Bytes} {src : VaultFs}
    {p : FilePath VaultDir} {h : ContentHash} (hl : src.lookup p = some data)
    (hb : blobAmong blobs h = .ok data) :
    ServesFile src (goodPeer blobs other) ["bad", "good"] p h := by
  refine ⟨"good", by simp, fun data' hl' n => ?_⟩
  obtain rfl := Option.some.inj (hl.symm.trans hl')
  exact hb

section Sample

attribute [local instance] noteSample

/-- A source of two commits, two trees and two chunks: the note was added, and overwritten. -/
def twoNotes : VaultFs := diskOf [
  (chunkPath chunkHello, noteData),
  (treePathBin treeNote, wireNote),
  (commitPathBin hashN, wireN),
  (chunkPath chunkWorld, worldData),
  (treePathBin treeWorld, wireWorld),
  (commitPathBin hashW, wireW)]

def notesBlobs : List (ContentHash × Bytes) := [
  (hashW, wireW),
  (treeWorld, wireWorld),
  (chunkWorld, worldData),
  (hashN, wireN),
  (treeNote, wireNote),
  (chunkHello, noteData)]

/-- One peer serves them all; the others answer with a commit that nobody asked for. -/
def notesPeer : Outside := goodPeer notesBlobs wireK

theorem lookup_twoNotes : twoNotes.lookup (chunkPath chunkHello) = some noteData ∧
    twoNotes.lookup (chunkPath chunkWorld) = some worldData ∧
    twoNotes.lookup (treePathBin treeNote) = some wireNote ∧
    twoNotes.lookup (treePathBin treeWorld) = some wireWorld ∧
    twoNotes.lookup (commitPathBin hashN) = some wireN ∧
    twoNotes.lookup (commitPathBin hashW) = some wireW := by decide +kernel

theorem blobAmong_notes : blobAmong notesBlobs chunkHello = .ok noteData ∧
    blobAmong notesBlobs chunkWorld = .ok worldData ∧
    blobAmong notesBlobs treeNote = .ok wireNote ∧
    blobAmong notesBlobs treeWorld = .ok wireWorld ∧
    blobAmong notesBlobs hashN = .ok wireN ∧
    blobAmong notesBlobs hashW = .ok wireW := by decide +kernel

theorem notesPeer_collisionFree : CollisionFree (Served notesPeer) := by
  have hnodup : ((wireK :: notesBlobs.map Prod.snd).map ContentHash.of).Nodup := by decide +kernel
  have hfree : CollisionFree (fun b => b ∈ wireK :: notesBlobs.map Prod.snd) :=
    fun a b ha hb h => List.inj_on_of_nodup_map hnodup ha hb h
  exact hfree.mono fun _ => goodPeer_served

theorem loadN_twoNotes : ReadM.eval twoNotes (loadCommit hashN) = .ok commitN.normal :=
  eval_loadCommit_of encodeN note_hashes.2.2.2.2.1 lookup_twoNotes.2.2.2.2.1

theorem loadW_twoNotes : ReadM.eval twoNotes (loadCommit hashW) = .ok commitW.normal :=
  eval_loadCommit_of encodeW note_hashes.2.2.2.2.2 lookup_twoNotes.2.2.2.2.2

theorem loadNote_twoNotes : ReadM.eval twoNotes (loadTree treeNote) = .ok noteTree :=
  eval_loadTree_of encodeTreeWire_note (by decide) note_hashes.2.2.1 lookup_twoNotes.2.2.1

theorem loadWorld_twoNotes : ReadM.eval twoNotes (loadTree treeWorld) = .ok worldTree :=
  eval_loadTree_of encodeTreeWire_world (by decide) note_hashes.2.2.2.1 lookup_twoNotes.2.2.2.1

/-- The DAG has the two commits, their trees, and the two contents. -/
theorem twoNotes_commits {c : ContentHash} (h : (stored twoNotes).Commits hashW c) :
    c = hashW ∨ c = hashN := by
  obtain ⟨r, rfl, h⟩ := h
  induction h with
  | refl => exact .inl rfl
  | tail _ hp ih =>
    obtain ⟨k, hk, hmem⟩ := hp
    rcases ih with rfl | rfl
    · obtain rfl := Except.ok.inj (loadW_twoNotes.symm.trans hk)
      exact .inr (List.mem_singleton.1 hmem)
    · obtain rfl := Except.ok.inj (loadN_twoNotes.symm.trans hk)
      cases hmem

theorem twoNotes_trees {h : ContentHash} (ht : (stored twoNotes).Trees hashW h) :
    h = treeWorld ∨ h = treeNote := by
  obtain ⟨c, k, hc, hk, rfl⟩ := ht
  rcases twoNotes_commits hc with rfl | rfl
  · obtain rfl := Except.ok.inj (loadW_twoNotes.symm.trans hk)
    exact .inl rfl
  · obtain rfl := Except.ok.inj (loadN_twoNotes.symm.trans hk)
    exact .inr rfl

theorem twoNotes_chunks {ch : ContentHash} (hch : (stored twoNotes).Chunks hashW ch) :
    ch = chunkWorld ∨ ch = chunkHello := by
  obtain ⟨h, tr, ht, htr, hmem⟩ := hch
  rcases twoNotes_trees ht with rfl | rfl
  · obtain rfl := Except.ok.inj (loadWorld_twoNotes.symm.trans htr)
    exact .inl (List.mem_singleton.1 hmem)
  · obtain rfl := Except.ok.inj (loadNote_twoNotes.symm.trans htr)
    exact .inr (List.mem_singleton.1 hmem)

theorem twoNotes_dag : SourceDag twoNotes hashW where
  commit c hc := by
    obtain ⟨-, -, -, -, hlN, hlW⟩ := lookup_twoNotes
    rcases twoNotes_commits hc with rfl | rfl
    · exact ⟨commitW.normal, ⟨loadW_twoNotes, wireW, hlW, by decide +kernel, by decide +kernel⟩,
        by decide +kernel⟩
    · exact ⟨commitN.normal, ⟨loadN_twoNotes, wireN, hlN, by decide +kernel, by decide +kernel⟩,
        by decide +kernel⟩
  tree h ht := by
    obtain ⟨-, -, hlNote, hlWorld, -⟩ := lookup_twoNotes
    rcases twoNotes_trees ht with rfl | rfl
    · exact ⟨worldTree, loadWorld_twoNotes, wireWorld, hlWorld, by decide, by decide⟩
    · exact ⟨noteTree, loadNote_twoNotes, wireNote, hlNote, by decide, by decide⟩
  chunk ch hch := by
    obtain ⟨hlHello, hlChunk, -⟩ := lookup_twoNotes
    rcases twoNotes_chunks hch with rfl | rfl
    · exact ⟨worldData, exportStoredChunk_ok_iff.2 ⟨hlChunk, note_hashes.2.1⟩, by decide +kernel⟩
    · exact ⟨noteData, exportStoredChunk_ok_iff.2 ⟨hlHello, note_hashes.1⟩, by decide +kernel⟩
  small := by
    have hsub : {c | (stored twoNotes).Commits hashW c} ⊆ {hashW, hashN} :=
      fun c hc => twoNotes_commits hc
    refine (Set.encard_le_encard hsub).trans ((Set.encard_insert_le _ _).trans ?_)
    rw [Set.encard_singleton]
    decide

theorem twoNotes_served : EachServed twoNotes hashW notesPeer ["bad", "good"] where
  commit c hc := by
    obtain ⟨-, -, -, -, hlN, hlW⟩ := lookup_twoNotes
    obtain ⟨-, -, -, -, hbN, hbW⟩ := blobAmong_notes
    rcases twoNotes_commits hc with rfl | rfl
    · exact goodPeer_servesFile hlW hbW
    · exact goodPeer_servesFile hlN hbN
  tree h ht := by
    obtain ⟨-, -, hlNote, hlWorld, -⟩ := lookup_twoNotes
    obtain ⟨-, -, hbNote, hbWorld, -⟩ := blobAmong_notes
    rcases twoNotes_trees ht with rfl | rfl
    · exact goodPeer_servesFile hlWorld hbWorld
    · exact goodPeer_servesFile hlNote hbNote
  chunk ch hch := by
    obtain ⟨hlHello, hlChunk, -⟩ := lookup_twoNotes
    obtain ⟨hbHello, hbChunk, -⟩ := blobAmong_notes
    rcases twoNotes_chunks hch with rfl | rfl
    · exact goodPeer_servesFile hlChunk hbChunk
    · exact goodPeer_servesFile hlHello hbHello

/-- The sync of the note's history from one good peer and a bad one. -/
theorem twoNotes_fresh : ∃ a w',
    run notesPeer (fetchDag ["bad", "good"] hashW true) (World.boot ∅) = (.ok a, w') ∧
      FreshlySynced twoNotes hashW ∅ a w'.fs :=
  (fetchDag_fresh twoNotes_dag (empty_vacant _ _) twoNotes_served notesPeer_collisionFree).1

end Sample

end Soal

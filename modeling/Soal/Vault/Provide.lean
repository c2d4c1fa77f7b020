/-
  Soal.Vault.Provide — whatever is imported can be served on, when it re-encodes.

  What was accepted loads, so over a DAG of accepted objects the walk of a collection is defined by the
  files alone: it ends, or stops at its bound, exactly when every commit it meets and every tree it
  walks can be served.
-/
import Soal.Vault.ProvideWalk

namespace Soal

open FileProg Worklist

section Laws

variable [Crates] {fs : VaultFs}

/-! ## §1. Collecting a DAG. -/

variable {root : ContentHash}

/-- The files under this hash are as an accepted import left them. -/
def ObjectKind.Accepted {α : Type} (K : ObjectKind α) (fs : VaultFs) (h : ContentHash) : Prop :=
  ∃ data x, K.Imports h data x ∧ fs.lookup (K.importPath h data) = some data ∧
    (isFramed K.domain data = false → K.pathBin h ∉ fs)

/-- Every commit and tree of the DAG that is present was accepted. -/
def DagAccepted (fs : VaultFs) (root : ContentHash) : Prop :=
  ∀ c, Reach fs root c → commitKind.Present fs c → commitKind.Accepted fs c ∧
    ∀ k, ReadM.eval fs (loadCommit c) = .ok k → treeKind.Present fs k.tree →
      treeKind.Accepted fs k.tree

/-- The DAG has at most `MAX_JOB_COMMITS` commits. -/
def DagSmall (fs : VaultFs) (root : ContentHash) : Prop :=
  ∃ all : Finset ContentHash, all.card ≤ maxJobCommits ∧ ∀ c, Reach fs root c → c ∈ all

theorem reachable_root {c : ContentHash} :
    Reachable (Parent fs) (· = root) c ↔ Reach fs root c :=
  ⟨fun ⟨_, hr, h⟩ => hr ▸ h, fun h => ⟨root, rfl, h⟩⟩

/-- What was accepted loads. -/
theorem ObjectKind.Accepted.loads {α : Type} {K : ObjectKind α} {h : ContentHash}
    (ha : K.Accepted fs h) : K.Loads fs h := by
  obtain ⟨data, x, hx, hl, hb⟩ := ha
  exact ⟨x, hx.load K hl hb⟩

theorem DagAccepted.loadsAt (ha : DagAccepted fs root) {c : ContentHash} (hc : Reach fs root c) :
    LoadsAt fs c := by
  intro hp
  obtain ⟨hcommit, htree⟩ := ha c hc hp
  obtain ⟨k, hk⟩ := hcommit.loads
  exact ⟨k, hk, fun ht => (htree k hk ht).loads⟩

theorem DagSmall.not_tooDeep (hsmall : DagSmall fs root) : ¬TooDeep fs (· = root) := by
  obtain ⟨all, hcard, hall⟩ := hsmall
  rintro ⟨met, hmet, hin⟩
  have hsub : met ⊆ all := fun c hc => hall c (reachable_root.1 (hin c hc))
  have := Finset.card_le_card hsub
  omega

theorem eval_collect : ReadM.eval fs (collectProvideHashes root) =
    (ReadM.eval fs (provideWalk ∅ ⟨∅, []⟩ [root])).map Provided.out := by
  unfold collectProvideHashes
  rw [ReadM.eval_bind]
  cases ReadM.eval fs (provideWalk ∅ ⟨∅, []⟩ [root]) <;> rfl

theorem collect_ok_iff {out : List (ContentHash × Bytes)} :
    ReadM.eval fs (collectProvideHashes root) = .ok out ↔
      ∃ s, ReadM.eval fs (provideWalk ∅ ⟨∅, []⟩ [root]) = .ok s ∧ s.out = out := by
  rw [eval_collect]
  cases ReadM.eval fs (provideWalk ∅ ⟨∅, []⟩ [root]) <;> simp [Except.map]

theorem collect_error_iff {e : Fault} : ReadM.eval fs (collectProvideHashes root) = .error e ↔
    ReadM.eval fs (provideWalk ∅ ⟨∅, []⟩ [root]) = .error e := by
  rw [eval_collect]
  cases ReadM.eval fs (provideWalk ∅ ⟨∅, []⟩ [root]) <;> simp [Except.map]

theorem frontier_root : Frontier (Parent fs) (· = root) ∅ [root] := .init (by simp)

/-- Along every walk from the commit (there is one), what is met can be served. -/
def CollectServes (fs : VaultFs) (root : ContentHash) : Prop :=
  ∀ vs, WalkOrder fs ∅ [root] vs → ServesAlong fs ∅ vs

/-- **Over accepted objects the bound is the only error**, exactly when what the walk meets can be
served. -/
theorem collect_bounded_iff (ha : DagAccepted fs root) :
    (∀ e, ReadM.eval fs (collectProvideHashes root) = .error e →
      e = .err (.other "provide DAG too deep (MAX_JOB_COMMITS)")) ↔ CollectServes fs root := by
  constructor
  · intro hbound vs hvs
    exact hvs.serves (s := ⟨∅, []⟩) fun e he => hbound e (collect_error_iff.2 he)
  · intro hserves e he
    rw [collect_error_iff] at he
    obtain ⟨vs, hvs⟩ := walkOrder_exists (fun c hc => ha.loadsAt (reachable_root.1 hc)) frontier_root
    rcases hvs.provides (s := ⟨∅, []⟩) (hserves vs hvs) with ⟨s, hs, -⟩ | ⟨hdeep, -⟩
    · cases hs.symm.trans he
    · exact (Except.error.inj (hdeep.symm.trans he)).symm

/-- Within the bound the collection succeeds exactly then. -/
theorem collect_succeeds_iff (ha : DagAccepted fs root) (hsmall : DagSmall fs root) :
    (∃ out, ReadM.eval fs (collectProvideHashes root) = .ok out) ↔ CollectServes fs root := by
  constructor
  · rintro ⟨out, hout⟩
    refine (collect_bounded_iff ha).1 fun e he => ?_
    cases hout.symm.trans he
  · intro hserves
    obtain ⟨vs, hvs⟩ := walkOrder_exists (fun c hc => ha.loadsAt (reachable_root.1 hc)) frontier_root
    rcases hvs.provides (s := ⟨∅, []⟩) (hserves vs hvs) with ⟨s, hs, -⟩ | ⟨-, hdeep⟩
    · exact ⟨s.out, collect_ok_iff.2 ⟨s, hs, rfl⟩⟩
    · exact absurd (hdeep _ frontier_root) hsmall.not_tooDeep

/-! ## §2. Imports. -/

section Imports

variable {env : Outside} {h : ContentHash} {data : Bytes} {w' : VaultWorld}

theorem serves_commit_import_iff
    (hrun : run env (importCommitBytes h data) (World.boot fs) = (.ok (), w')) :
    (commitKind.Loads w'.fs h ∧ commitKind.Exports w'.fs h ∧ Resolves w'.fs h) ↔
      commitKind.ImportsServable fs h data ∧ ClearOfTree fs h := by
  obtain ⟨c, hc, rfl⟩ := commitKind.importBytes_outcome hrun
  rw [← commitKind.loads_exports_import_iff hc, and_assoc]
  refine and_congr_right fun _ => and_congr_right fun hexp => ?_
  rw [resolves_commit_iff (commitKind.exports_iff_servable.1 hexp)]
  -- a commit import leaves chunks and trees alone
  have hother : ∀ p : FilePath VaultDir, p.dir ≠ .commits →
      ((World.boot fs).written (commitKind.importPath h data) data).fs.lookup p = fs.lookup p := by
    intro p hp
    rw [World.lookup_written, if_neg]
    · rfl
    · rintro rfl
      unfold ObjectKind.importPath at hp
      split at hp <;> exact hp rfl
  exact clearOfTree_congr (hother _ nofun) (hother _ nofun) (hother _ nofun)

theorem serves_tree_import_iff
    (hrun : run env (importTreeBytes h data) (World.boot fs) = (.ok (), w')) :
    (treeKind.Loads w'.fs h ∧ treeKind.Exports w'.fs h ∧ Resolves w'.fs h) ↔
      treeKind.ImportsServable fs h data ∧ ClearOfChunk fs h := by
  obtain ⟨t, ht, rfl⟩ := treeKind.importBytes_outcome hrun
  rw [← treeKind.loads_exports_import_iff ht, and_assoc]
  refine and_congr_right fun _ => and_congr_right fun hexp => ?_
  rw [resolves_tree_iff (treeKind.exports_iff_servable.1 hexp)]
  have hchunk : ((World.boot fs).written (treeKind.importPath h data) data).fs.lookup (chunkPath h) =
      fs.lookup (chunkPath h) := by
    rw [World.lookup_written, if_neg]
    · rfl
    · unfold ObjectKind.importPath
      split <;> exact fun heq => by cases congrArg FilePath.dir heq
  exact clearOfChunk_congr hchunk

theorem serves_chunk_import_iff (v : Vault)
    (hrun : run env (importStoredChunk h data) (World.boot fs) = (.ok (), w')) :
    ((∃ plain, ReadM.eval w'.fs (v.loadChunk h) = .ok plain) ∧
        (∃ b, ReadM.eval w'.fs (exportStoredChunk h) = .ok b ∧ ContentHash.of b = h) ∧
        Resolves w'.fs h) ↔ v.Opens data := by
  obtain ⟨hl, hh⟩ := importStoredChunk_outcome hrun
  rw [v.loadChunk_ok_iff hl hh, and_iff_left]
  refine ⟨⟨data, exportStoredChunk_ok_iff.2 ⟨hl, hh⟩, hh⟩, resolves_iff.2 ?_⟩
  rw [if_pos (Fs.mem_iff_lookup.2 ⟨data, hl⟩)]
  exact ⟨data, hl, hh⟩

end Imports

/-- **Serving on what was imported.**  An accepted commit or tree loads, and is exported and resolved
under its hash, exactly when its bytes are framed or re-encode and nothing of another kind is in the
way; an accepted chunk, exactly when it decrypts.  A DAG of accepted objects is collected, up to the
bound on commits, exactly when every commit that the walk meets and every tree that it walks can be
served. -/
theorem import_serves_iff (v : Vault) (fs : VaultFs) (env : Outside) :
    (∀ h data w', run env (importCommitBytes h data) (World.boot fs) = (.ok (), w') →
      ((commitKind.Loads w'.fs h ∧ commitKind.Exports w'.fs h ∧ Resolves w'.fs h) ↔
        commitKind.ImportsServable fs h data ∧ ClearOfTree fs h)) ∧
    (∀ h data w', run env (importTreeBytes h data) (World.boot fs) = (.ok (), w') →
      ((treeKind.Loads w'.fs h ∧ treeKind.Exports w'.fs h ∧ Resolves w'.fs h) ↔
        treeKind.ImportsServable fs h data ∧ ClearOfChunk fs h)) ∧
    (∀ h data w', run env (importStoredChunk h data) (World.boot fs) = (.ok (), w') →
      (((∃ plain, ReadM.eval w'.fs (v.loadChunk h) = .ok plain) ∧
          (∃ b, ReadM.eval w'.fs (exportStoredChunk h) = .ok b ∧ ContentHash.of b = h) ∧
          Resolves w'.fs h) ↔ v.Opens data)) ∧
    (∀ root, DagAccepted fs root →
      ((∀ e, ReadM.eval fs (collectProvideHashes root) = .error e →
        e = .err (.other "provide DAG too deep (MAX_JOB_COMMITS)")) ↔ CollectServes fs root)) ∧
    ∀ root, DagAccepted fs root → DagSmall fs root →
      ((∃ out, ReadM.eval fs (collectProvideHashes root) = .ok out) ↔ CollectServes fs root) :=
  ⟨fun _ _ _ => serves_commit_import_iff, fun _ _ _ => serves_tree_import_iff,
    fun _ _ _ => serves_chunk_import_iff v, fun _ => collect_bounded_iff,
    fun _ => collect_succeeds_iff⟩

end Laws

/-! ### At the forged commit: its JSON text is not what it is written as. -/

section Sample

attribute [local instance] jsonSample

theorem encode_forged {wire : Bytes} (h : encodeCommitWire forgedCommit = .ok wire) :
    wire = wireForged := by
  obtain ⟨body, hbody, hframe⟩ := bind_ok_iff.1 h
  unfold encodeCommitBody encodeCommitFields at hbody
  have hauthor : authorToBytes forgedCommit.author = sampleAuthor := authorToBytes_toHex sampleAuthor
  rw [if_neg (by decide), hauthor] at hbody
  rw [(frame_ok_iff.1 hframe).1, (vec_ok_iff.1 hbody).1]
  decide +kernel

theorem forged_not_reEncodes : ¬commitKind.ReEncodes hashForged forgedCommit := by
  rintro ⟨wire, hw, hh⟩
  have hof : ∀ b, ContentHash.of b = forgedDigest b := fun _ => rfl
  have hkind : commitKind.wireBytes = encodeCommitWire := rfl
  obtain ⟨-, hlegacy, hwire⟩ := forgedDigest_texts
  rw [hkind] at hw
  rw [encode_forged hw, hof, hwire] at hh
  have hjson : ∀ c, commitKind.legacyJsonHash c = ContentHash.of (Text.toUtf8 legacyTextA) :=
    fun _ => rfl
  rw [hjson, hof, hlegacy] at hh
  exact hh.elim (by decide) (by decide)

theorem forged_not_servable : ¬commitKind.ImportsServable ∅ hashForged (Text.toUtf8 forgedText) := by
  have hdomain : commitKind.domain = domainCommit := rfl
  unfold ObjectKind.ImportsServable
  rw [hdomain, forgedText_unframed]
  rintro (h | ⟨c, hc, hr⟩)
  · cases h
  · obtain rfl := Except.ok.inj ((forged_imports.json forgedText_unframed).symm.trans hc)
    exact forged_not_reEncodes hr

/-- An empty vault accepts the forged commit, and cannot export it. -/
theorem import_not_served : ¬∀ (fs : VaultFs) (env : Outside) (h : ContentHash) (data : Bytes)
    (w' : VaultWorld), run env (importCommitBytes h data) (World.boot fs) = (.ok (), w') →
      commitKind.Loads w'.fs h ∧ commitKind.Exports w'.fs h ∧ Resolves w'.fs h := by
  intro hall
  have hrun := commitKind.run_importBytes (quiet 0) ∅ forged_imports
  exact forged_not_servable ((serves_commit_import_iff hrun).1 (hall _ _ _ _ _ hrun)).1

/-- The vault after that import. -/
def forgedDisk : VaultFs := diskOf [(commitPathJson hashForged, Text.toUtf8 forgedText)]

theorem forged_importPath :
    commitKind.importPath hashForged (Text.toUtf8 forgedText) = commitPathJson hashForged := by
  refine if_neg ?_
  show ¬isFramed domainCommit (Text.toUtf8 forgedText) = true
  rw [forgedText_unframed]
  decide

theorem forgedDisk_written : ((World.boot ∅).written
    (commitKind.importPath hashForged (Text.toUtf8 forgedText)) (Text.toUtf8 forgedText)).fs =
      forgedDisk := by
  rw [forged_importPath]
  rfl

theorem forgedDisk_loads : ReadM.eval forgedDisk (loadCommit hashForged) = .ok forgedCommit :=
  forgedDisk_written ▸
    forged_imports.load_json commitKind forgedText_unframed (AList.lookup_eq_none.1 rfl)

theorem forgedDisk_reach {c : ContentHash} (h : Reach forgedDisk hashForged c) : c = hashForged := by
  refine (reachable_root.2 h).induct (P := (· = hashForged)) (fun r hr => hr) fun x y hx hxy => ?_
  subst hx
  obtain ⟨k, hk, hy⟩ := hxy
  obtain rfl := Except.ok.inj (forgedDisk_loads.symm.trans hk)
  cases hy

theorem lookup_forgedDisk (p : FilePath VaultDir) : forgedDisk.lookup p =
    if p = commitPathJson hashForged then some (Text.toUtf8 forgedText) else none := by
  rw [← forgedDisk_written, forged_importPath, World.lookup_written]
  rfl

/-- Its one commit was accepted; the tree is not there. -/
theorem forgedDisk_accepted : DagAccepted forgedDisk hashForged := by
  intro c hc hp
  obtain rfl := forgedDisk_reach hc
  refine ⟨⟨_, _, forged_imports, ?_, fun _ => ?_⟩, fun k hk ht => ?_⟩
  · rw [forged_importPath, lookup_forgedDisk, if_pos rfl]
  · exact AList.lookup_eq_none.1 ((lookup_forgedDisk _).trans (if_neg (by decide)))
  · -- a tree has no file there
    rcases ht with ht | ht
    all_goals
      obtain ⟨b, hb⟩ := Fs.mem_iff_lookup.1 ht
      rw [lookup_forgedDisk, if_neg (fun heq => by cases congrArg FilePath.dir heq)] at hb
      cases hb

/-- The rule at the forged commit: for its import, and for the collection that starts at it. -/
theorem forged_serves_iff :
    ((commitKind.Loads forgedDisk hashForged ∧ commitKind.Exports forgedDisk hashForged ∧
        Resolves forgedDisk hashForged) ↔
      commitKind.ImportsServable ∅ hashForged (Text.toUtf8 forgedText) ∧ ClearOfTree ∅ hashForged) ∧
    ((∀ e, ReadM.eval forgedDisk (collectProvideHashes hashForged) = .error e →
        e = .err (.other "provide DAG too deep (MAX_JOB_COMMITS)")) ↔
      CollectServes forgedDisk hashForged) ∧
    ((∃ out, ReadM.eval forgedDisk (collectProvideHashes hashForged) = .ok out) ↔
      CollectServes forgedDisk hashForged) := by
  obtain ⟨hcommit, -⟩ := import_serves_iff ⟨sampleConfig, none, none⟩ ∅ (quiet 0)
  obtain ⟨-, -, -, hbound, hsmall⟩ :=
    import_serves_iff ⟨sampleConfig, none, none⟩ forgedDisk (quiet 0)
  have himport := hcommit _ _ _ (commitKind.run_importBytes _ _ forged_imports)
  rw [forgedDisk_written] at himport
  refine ⟨himport, hbound _ forgedDisk_accepted, hsmall _ forgedDisk_accepted ?_⟩
  exact ⟨{hashForged}, by decide, fun c hc => Finset.mem_singleton.2 (forgedDisk_reach hc)⟩

end Sample

end Soal

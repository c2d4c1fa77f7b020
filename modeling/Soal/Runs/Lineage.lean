/-
  Soal.Runs.Lineage — the history of HEAD only grows.

  Adds, snapshots and merges put a commit on top of HEAD, with every path that HEAD had; imports,
  syncs that do not adopt, recorded heads and collections leave HEAD and its ancestors alone.  So a
  commit that HEAD once named stays an ancestor of HEAD, goes on loading, and a diff from it to HEAD
  removes nothing.  Along a run of adds and snapshots a diff tells which paths hold different data.
-/
import Soal.Diff
import Soal.Runs.HeadComplete
import Soal.Runs.Restored

namespace Soal

open FileProg Worklist

section Laws

variable [Crates]

/-! ## §1. Paths only grow. -/

/-- Every path of the one is a path of the other. -/
def Tree.PathsIn (tree tree' : Tree) : Prop :=
  ∀ path, tree.entries.get? path ≠ none → tree'.entries.get? path ≠ none

section Paths

variable {tree tree' : Tree}

omit [Crates] in
theorem Tree.PathsIn.refl : tree.PathsIn tree := fun _ h => h

omit [Crates] in
theorem Tree.PathsIn.trans {tree'' : Tree} (h : tree.PathsIn tree') (h' : tree'.PathsIn tree'') :
    tree.PathsIn tree'' := fun path hp => h' path (h path hp)

omit [Crates] in
theorem pathsIn_insert (path : String) (entry : TreeEntry) :
    tree.PathsIn ⟨tree.entries.insert path entry⟩ := by
  intro p hp
  rw [SortedMap.get?_insert]
  split
  next => nofun
  next => exact hp

omit [Crates] in
/-- Adding files takes no path away. -/
theorem pathsIn_addEntries {entries : List FileEntry} (h : tree.addEntries entries = .ok tree') :
    tree.PathsIn tree' := by
  induction entries generalizing tree with
  | nil =>
    obtain rfl := Except.ok.inj h
    exact .refl
  | cons e entries ih =>
    obtain ⟨path, size, chunks⟩ := e
    obtain ⟨tree₁, h₁, h⟩ := bind_ok_iff.1 h
    obtain ⟨path', -, rfl⟩ := Tree.tryAddFile_ok_iff.1 h₁
    exact (pathsIn_insert path' _).trans (ih h)

omit [Crates] in
/-- Merging takes no path away, even where a conflict copy replaces an entry. -/
theorem pathsIn_merge (ours theirs : Tree) (label : String) :
    ours.PathsIn (ours.mergeWithConflicts theirs label).1 := by
  suffices h : ∀ (l : List (String × TreeEntry)) (acc : Tree × Nat),
      acc.1.PathsIn (l.foldl (Tree.mergeEntry (sanitizeConflictLabel label)) acc).1 from
    h theirs.entries.entries (ours, 0)
  intro l
  induction l with
  | nil => exact fun _ => .refl
  | cons x l ih =>
    intro acc
    refine Tree.PathsIn.trans ?_ (ih _)
    unfold Tree.mergeEntry
    split
    next => exact pathsIn_insert _ _
    next =>
      split
      next => exact .refl
      next => exact pathsIn_insert _ _

end Paths

/-! ## §2. History that is kept. -/

/-- Of a set of commits, each goes on loading with its tree and its parents, its tree as the same, and
the tree's chunks stay stored. -/
def HistoryKept (which : ContentHash → Prop) (fs fs' : VaultFs) : Prop :=
  ∀ c k, which c → ReadM.eval fs (loadCommit c) = .ok k →
    ∃ k', ReadM.eval fs' (loadCommit c) = .ok k' ∧ k'.tree = k.tree ∧ k'.parents = k.parents ∧
      ∀ t, ReadM.eval fs (loadTree k.tree) = .ok t → ReadM.eval fs' (loadTree k.tree) = .ok t ∧
        ∀ ch ∈ t.allChunkHashes, chunkPath ch ∈ fs → chunkPath ch ∈ fs'

/-- The legacy text of a commit names the same parents. -/
def JsonKeepsParents : Prop := ∀ data x y, commitKind.fromBytes data = .ok x →
  commitKind.fromBytes (commitKind.legacyBytes x) = .ok y → y.parents = x.parents

section History

variable {fs fs' : VaultFs} {which : ContentHash → Prop} {c h : ContentHash}

theorem HistoryKept.ofRetains (hr : Retains fs fs') (hc : ∀ c k, ReadM.eval fs (loadCommit c) = .ok k →
    ∃ k', ReadM.eval fs' (loadCommit c) = .ok k' ∧ k'.tree = k.tree ∧ k'.parents = k.parents) :
    HistoryKept which fs fs' := by
  intro c k _ hk
  obtain ⟨k', hk', htree, hparents⟩ := hc c k hk
  exact ⟨k', hk', htree, hparents, fun t ht => ⟨hr.trees _ t ht, fun ch _ hch => hr.chunks ch hch⟩⟩

theorem HistoryKept.ofPersists (hc : commitKind.Persists fs fs') (ht : treeKind.Persists fs fs')
    (hch : ∀ ch, chunkPath ch ∈ fs → chunkPath ch ∈ fs') : HistoryKept which fs fs' :=
  fun c k _ hk => ⟨k, hc c k hk, rfl, rfl, fun t htree =>
    ⟨ht _ t htree, fun ch _ hmem => hch ch hmem⟩⟩

/-- A kept commit leads to the same parents. -/
theorem HistoryKept.parent (hkept : HistoryKept which fs fs') (hw : which c)
    (hp : Parent fs c h) : Parent fs' c h := by
  obtain ⟨k, hk, hmem⟩ := hp
  obtain ⟨k', hk', -, hparents, -⟩ := hkept c k hw hk
  exact ⟨k', hk', hparents ▸ hmem⟩

/-- Ancestors stay ancestors. -/
theorem HistoryKept.reach (hkept : HistoryKept (Reach fs h) fs fs') (hc : Reach fs h c) :
    Reach fs' h c := by
  induction hc with
  | refl => exact .refl
  | tail hxy hyz ih => exact ih.tail (hkept.parent hxy hyz)

end History

/-! ## §3. A commit on top of HEAD. -/

section Top

variable {P : Plan} {fs : VaultFs} {w' : VaultWorld} {c h : ContentHash} {told : Tree}

/-- **A commit made on HEAD** has it for a parent, and every path it had. -/
theorem Extended.onTop (he : Extended P (World.boot fs) c w') (hP : P.Tidy)
    (htrees : treeKind.Persists fs w'.fs) (hparents : ∀ ps, P.parents ps → h ∈ ps)
    (hsave : ∀ w₁ tree, P.saves w₁ tree → tree.PathsValid ∧ told.PathsIn tree)
    (hreuse : ∀ t, P.reuses t → ReadM.eval fs (loadTree t) = .ok told) :
    ReadM.eval w'.fs head = .ok (some c) ∧ Parent w'.fs c h ∧ ∃ k tree,
      ReadM.eval w'.fs (loadCommit c) = .ok k ∧ ReadM.eval w'.fs (loadTree k.tree) = .ok tree ∧
      told.PathsIn tree := by
  obtain ⟨k, hps, ⟨bytes, hb, rfl, hl⟩, hhead, hput⟩ := he.written hP
  have hk : ReadM.eval w'.fs (loadCommit (.of bytes)) = .ok k.normal := eval_loadCommit_saved hb hl
  refine ⟨hhead, ⟨k.normal, hk, hparents _ hps⟩, k.normal, ?_⟩
  rcases hput with ⟨w₁, tree, -, hs, ⟨tbytes, htb, hthash, htl⟩, -⟩ | ⟨hr, -, -⟩
  · obtain ⟨hvalid, hin⟩ := hsave w₁.fs tree hs
    refine ⟨tree, hk, ?_, hin⟩
    show ReadM.eval w'.fs (loadTree k.tree) = .ok tree
    exact eval_loadTree_of htb hvalid.mem hthash.symm htl
  · exact ⟨told, hk, htrees _ _ (hreuse _ hr), .refl⟩

end Top

/-! ## §4. One command. -/

/-- What a command has to be given so that HEAD's history only grows: it puts its commit on top of
HEAD, out of trees with valid paths, or leaves HEAD alone. -/
def Command.GrowsLine (fs : VaultFs) : Command → Prop
  | .addPath source baseName => (Command.addPath source baseName).ValidTrees fs
  | .mergeHead r label => (Command.mergeHead r label).ValidTrees fs
  | .fetchDag _ _ adopt => adopt = false
  | .setHeadPublic _ => False
  | _ => True

/-- The commit loads, its tree is this one, and of the tree's chunks those in `Q` are stored. -/
def Holding (Q : ContentHash → Prop) (fs : VaultFs) (c : ContentHash) (t : Tree) : Prop :=
  ∃ k, ReadM.eval fs (loadCommit c) = .ok k ∧ ReadM.eval fs (loadTree k.tree) = .ok t ∧
    ∀ ch ∈ t.allChunkHashes, Q ch → chunkPath ch ∈ fs

/-- The commit, with its tree, is HEAD or an ancestor of it, and HEAD has its paths. -/
def OnLine (Q : ContentHash → Prop) (fs : VaultFs) (c : ContentHash) (t : Tree) : Prop :=
  ∃ h kh th, ReadM.eval fs head = .ok (some h) ∧ Reach fs h c ∧
    ReadM.eval fs (loadCommit h) = .ok kh ∧ ReadM.eval fs (loadTree kh.tree) = .ok th ∧
    t.PathsIn th ∧ Holding Q fs c t

section OneStep

variable {S : Bytes → Prop} {fs fs' : VaultFs} {v : Vault} {env : Outside} {c h : ContentHash}
  {t : Tree} {Q : ContentHash → Prop}

/-- A sync that does not adopt leaves the root files alone. -/
theorem confined_fetchDag_noAdopt (peers : List String) (target : ContentHash) :
    Confined BelowRoot (fetchDag peers target false) := by
  unfold fetchDag
  split
  next => exact .done
  next =>
    refine Confined.bind (.ofRead _) fun b => ?_
    cases b with
    | true => exact .done
    | false =>
      have hload : Confined BelowRoot (loadOrCreateJob target) := by
        refine Confined.bind (.ofRead _) fun saved => ?_
        cases saved with
        | some job => exact .done
        | none => exact Confined.bind (.ask _) fun _ => Confined.bind (.ask _) fun _ => .done
      have hcheckpoint : ∀ run, Confined BelowRoot (SyncM.checkpoint run) := fun run =>
        belowRoot_of_jobs (confined_checkpoint run)
      have hbody : ∀ run, Confined BelowRoot (syncBody peers target false run) := by
        unfold syncBody
        refine confined_bindM (confined_syncWalk peers _ _) fun _ => ?_
        refine confined_bindM (fun _ => .done) fun _ => confined_bindM hcheckpoint fun _ => ?_
        refine confined_bindM (confined_attempt (.ofRead _)) fun b => ?_
        split
        next => exact fun _ => .done
        next =>
          exact confined_bindM (fun _ => .done) fun _ => confined_bindM hcheckpoint fun _ =>
            confined_bindM (fun _ => .done) fun _ _ => .done
      unfold fetchMissing
      refine Confined.bind hload fun job => Confined.bind (Confined.bind (.ask _) fun _ => .done)
        fun job' => Confined.bind (belowRoot_of_jobs (confined_persistJob job')) fun _ =>
          Confined.bind (hbody _) fun out => ?_
      obtain ⟨e | a, run⟩ := out
      · exact Confined.bind (Confined.bind (.ask _) fun _ => .done) fun job =>
          Confined.bind (confined_okOrNone (belowRoot_of_jobs (confined_persistJob job))) fun _ =>
            .done
      · exact .done

theorem fetchDag_kept {which : ContentHash → Prop} (env : Outside) (fs : VaultFs) (peers : List String)
    (target : ContentHash) (adopt : Bool) (hfree : CollisionFree (Served env)) :
    HistoryKept which fs (run env (fetchDag peers target adopt) (World.boot fs)).2.fs := by
  have hsynced : ∀ {D : Catalog} {fs' : VaultFs}, Synced D target fs fs' → HistoryKept which fs fs' :=
    fun h => .ofPersists h.commits.kept.persists h.trees.kept.persists fun ch hch =>
      (mem_congr (h.chunks.kept ch hch)).2 hch
  have hout : Outcome (known fs env) target fs env peers adopt
      (run env (fetchDag peers target adopt) (World.boot fs)).1
      (run env (fetchDag peers target adopt) (World.boot fs)).2 := fetchDag_outcome hfree rfl
  cases hr : (run env (fetchDag peers target adopt) (World.boot fs)).1 with
  | error e => exact hsynced (hout.2 e hr).1
  | ok a =>
    have hok := hout.1 a hr
    split at hok
    next =>
      have hother : ∀ p : FilePath VaultDir, p.dir ≠ .root →
          (run env (fetchDag peers target adopt) (World.boot fs)).2.fs.lookup p = fs.lookup p := by
        intro p hp
        exact hok.other p fun _ => ⟨fun heq => hp (congrArg FilePath.dir heq),
          fun heq => hp (congrArg FilePath.dir heq)⟩
      exact .ofPersists (ObjectKind.persists_of_eq fun p hp => hother p (by simp [hp, commitKind]))
        (ObjectKind.persists_of_eq fun p hp => hother p (by simp [hp, treeKind]))
        fun ch hch => (mem_congr (hother _ (by simp [chunkPath]))).2 hch
    next => exact hsynced hok.synced

/-- **A collection keeps HEAD and its ancestors**, whether or not the other roots can be read. -/
theorem gcAll_kept (env : Outside) (hhead : ReadM.eval fs head = .ok (some h)) :
    HistoryKept (Reach fs h) fs (run env Soal.gcAll (World.boot fs)).2.fs ∧
      ReadM.eval (run env Soal.gcAll (World.boot fs)).2.fs head = .ok (some h) := by
  rcases (wp_gcAll env (World.boot fs)).post with ⟨e, -, hw, -⟩ | ⟨n, -, -, hsw⟩
  · rw [hw]
    exact ⟨.ofPersists .refl .refl fun _ hch => hch, hhead⟩
  · have hsw : Swept (Garbage fs) fs (run env Soal.gcAll (World.boot fs)).2.fs n := hsw
    constructor
    · intro c k hc hk
      have hlive : LiveFrom (GcRoot fs) fs c := by
        refine Reachable.trans (.root ?_) hc
        by_cases hread : RootsReadable fs
        · exact .inl ⟨hread, .head hhead⟩
        · exact .inr ⟨hread, hhead⟩
      obtain ⟨hcb, hcj⟩ := hsw.kept_object (K := commitKind) (by simp [commitKind])
        ⟨c, k, hlive, hk, .inl rfl⟩
      obtain ⟨htb, htj⟩ := hsw.kept_object (K := treeKind) (by simp [treeKind])
        ⟨c, k, hlive, hk, .inr rfl⟩
      refine ⟨k, (commitKind.eval_load_congr hcb hcj).trans hk, rfl, rfl, fun t ht =>
        ⟨(treeKind.eval_load_congr htb htj).trans ht, fun ch hmem hch => ?_⟩⟩
      exact (mem_congr (hsw.kept_chunk ⟨c, k, t, hlive, hk, ht, hmem⟩)).2 hch
    · refine (eval_head_congr (hsw.kept headFile (not_or.2 ⟨not_garbageChunk_of_dir ?_, ?_⟩))).trans
        hhead
      · simp [headFile]
      · rintro ⟨hd | hd, -⟩ <;> cases hd

theorem Holding.kept {which : ContentHash → Prop} (hc : Holding Q fs c t)
    (hkept : HistoryKept which fs fs') (hw : which c) : Holding Q fs' c t := by
  obtain ⟨k, hk, ht, hch⟩ := hc
  obtain ⟨k', hk', htree, -, hrest⟩ := hkept c k hw hk
  obtain ⟨ht', hch'⟩ := hrest t ht
  exact ⟨k', hk', htree ▸ ht', fun ch hmem hq => hch' ch hmem (hch ch hmem hq)⟩

/-- HEAD is where it was, and its history was kept. -/
theorem OnLine.same (hline : OnLine Q fs c t)
    (hkept : ∀ h, ReadM.eval fs head = .ok (some h) → HistoryKept (Reach fs h) fs fs' ∧
      ReadM.eval fs' head = .ok (some h)) : OnLine Q fs' c t := by
  obtain ⟨h, kh, th, hhead, hreach, hkh, hth, hin, hc⟩ := hline
  obtain ⟨hkept, hhead'⟩ := hkept h hhead
  obtain ⟨kh', hkh', htreeh, -, hresth⟩ := hkept h kh .refl hkh
  exact ⟨h, kh', th, hhead', hkept.reach hreach, hkh', htreeh ▸ (hresth th hth).1, hin,
    hc.kept hkept hreach⟩

/-- An operation that makes a commit: HEAD stays, or the commit is on top of it. -/
theorem OnLine.extend {P : Plan} {r : Res ContentHash} {w' : VaultWorld} (laws : JsonLaws)
    (hline : OnLine Q fs c t) (hP : P.Tidy) (hends : ExtendEnds P (World.boot fs) r w')
    (hsep : commitKind.Separate fs w'.fs ∧ treeKind.Separate fs w'.fs)
    (hparents : ∀ h ps, ReadM.eval fs head = .ok (some h) → P.parents ps → h ∈ ps)
    (hsave : ∀ h kh th w₁ tree, ReadM.eval fs head = .ok (some h) →
      ReadM.eval fs (loadCommit h) = .ok kh → ReadM.eval fs (loadTree kh.tree) = .ok th →
      P.saves w₁ tree → tree.PathsValid ∧ th.PathsIn tree)
    (hreuse : ∀ h kh t, ReadM.eval fs head = .ok (some h) →
      ReadM.eval fs (loadCommit h) = .ok kh → P.reuses t → t = kh.tree) : OnLine Q w'.fs c t := by
  have hsaved := hends.saved hP
  obtain ⟨hcommits, htrees⟩ := hsaved.persists laws hsep.1 hsep.2
  have hkept : ∀ {which : ContentHash → Prop}, HistoryKept which fs w'.fs :=
    .ofPersists hcommits htrees fun ch hch => (mem_congr (hsaved.chunks ch hch)).2 hch
  rcases hends.head with hsame | ⟨c', he⟩
  · exact hline.same fun h hhead => ⟨hkept, hsame.trans hhead⟩
  · obtain ⟨h, kh, th, hhead, hreach, hkh, hth, hin, hc⟩ := hline
    obtain ⟨hhead', hparent, kc, tc, hkc, htc, hin'⟩ := he.onTop hP htrees
      (fun ps hps => hparents h ps hhead hps)
      (fun w₁ tree hs => hsave h kh th w₁ tree hhead hkh hth hs)
      (fun t hr => by rw [hreuse h kh t hhead hkh hr]; exact hth)
    exact ⟨c', kc, tc, hhead', .head hparent (hkept.reach hreach), hkc, htc, hin.trans hin',
      hc.kept hkept hreach⟩

/-- The tree of HEAD, read as HEAD's. -/
theorem eval_headTree_some (hhead : ReadM.eval fs head = .ok (some h)) {k : Commit}
    (hk : ReadM.eval fs (loadCommit h) = .ok k) : ReadM.eval fs headTree =
      ReadM.eval fs (loadTree k.tree) ∧
    ReadM.eval fs (treeOfHead (some h)) = ReadM.eval fs (loadTree k.tree) := by
  have htree : ReadM.eval fs (treeOfHead (some h)) = ReadM.eval fs (loadTree k.tree) := by
    unfold treeOfHead
    rw [ReadM.eval_bind, hk]
    rfl
  refine ⟨?_, htree⟩
  rw [eval_headTree, hhead]
  exact htree

/-- **One command**: what is on HEAD's line stays on it. -/
theorem OnLine.step (laws : JsonLaws) (hagain : JsonKeepsParents) (hS : CollisionFree S)
    (hline : OnLine Q fs c t) (hstep : Step S (fun fs cmd => cmd.GrowsLine fs) fs fs') :
    OnLine Q fs' c t := by
  cases hstep with
  | mk v env cmd hsafe hdata hdata' hserved =>
    have hsep := separate_of_dataIn hS hdata hdata'
    have hfree : CollisionFree (Served env) := hS.mono hserved
    cases cmd with
    | addPath source baseName =>
      -- the tree that is saved is HEAD's with entries added over it
      refine hline.extend laws (addPlan_tidy v source baseName fs)
        (addPath_ends v env fs source baseName) hsep ?_ ?_ fun _ _ _ _ _ hr => hr.elim
      · rintro h ps hhead ⟨l, hl, rfl⟩
        obtain rfl := Except.ok.inj (hhead.symm.trans hl)
        exact Option.mem_toList.2 rfl
      · rintro h kh th w₁ tree hhead hkh hth ⟨base, entries, old, -, -, hold, hadd⟩
        rw [(eval_headTree_some hhead hkh).1, hth] at hold
        obtain rfl := Except.ok.inj hold
        have hvalid : th.PathsValid := hsafe h hhead kh th hkh hth
        exact ⟨hvalid.addEntries hadd fun e _ path hpath => hpath, pathsIn_addEntries hadd⟩
    | snapshot message =>
      -- a HEAD's tree is reused; without a HEAD there would be no line
      refine hline.extend laws (snapshotPlan_tidy fs) (snapshot_ends v env fs message) hsep ?_ ?_ ?_
      · rintro h ps hhead ⟨l, hl, rfl⟩
        obtain rfl := Except.ok.inj (hhead.symm.trans hl)
        exact Option.mem_toList.2 rfl
      · rintro h kh th w₁ tree hhead - - ⟨hnone, -⟩
        cases hhead.symm.trans hnone
      · rintro h kh t' hhead hkh ⟨h', k', hhead', hk', rfl⟩
        obtain rfl := Option.some.inj (Except.ok.inj (hhead.symm.trans hhead'))
        rw [Except.ok.inj (hk'.symm.trans hkh)]
    | mergeHead r label =>
      -- the merge starts from HEAD's tree, and HEAD is the first parent
      obtain ⟨hours, htheirs⟩ := hsafe
      refine hline.extend laws (mergePlan_tidy r label fs) (mergeHead_ends v env fs r label) hsep ?_ ?_
        fun _ _ _ _ _ hr => hr.elim
      · rintro h ps hhead ⟨l, hl, rfl⟩
        obtain rfl := Except.ok.inj (hhead.symm.trans hl)
        unfold mergeParents
        split
        next => exact Option.mem_toList.2 rfl
        next => exact List.mem_append_left _ (Option.mem_toList.2 rfl)
      · rintro h kh th w₁ tree hhead hkh hth ⟨k, theirs, l, ours, hk, ht, hl, ho, rfl⟩
        obtain rfl := Except.ok.inj (hhead.symm.trans hl)
        rw [(eval_headTree_some hhead hkh).2, hth] at ho
        obtain rfl := Except.ok.inj ho
        refine ⟨?_, pathsIn_merge _ _ _⟩
        exact Tree.All.merge (hours h hhead kh th hkh hth) (htheirs k theirs hk ht)
          fun path entry hpath => validatePath_conflict label hpath
    | importCommit hash data =>
      show OnLine Q (run env (importCommitBytes hash data) (World.boot fs)).2.fs c t
      have hc : commitKind.Separate fs
        (run env (importCommitBytes hash data) (World.boot fs)).2.fs := hsep.1
      unfold importCommitBytes at hc ⊢
      -- refused, or written: what loaded before loads, with the same tree and parents
      rcases importBytes_ends commitKind env fs hash data with hw | ⟨x, hx, hw⟩
      · rw [hw]
        exact hline
      · rw [hw] at hc ⊢
        have hkept := retains_importCommit (w := World.boot fs) laws hx hc
        refine hline.same fun h hhead => ⟨.ofRetains hkept fun c k hk => ?_, (eval_head_congr
          (commitKind.lookup_imported (by simp [headFile, commitKind]))).trans hhead⟩
        rcases hx.load_after (w := World.boot fs) laws.commit hc hk with hsame | ⟨hy, ⟨old, hold⟩, hsame⟩
        · exact ⟨k, hsame, rfl, rfl⟩
        · exact ⟨x, hy, laws.commitAgain old k x hold hsame, hagain old k x hold hsame⟩
    | importTree hash data =>
      show OnLine Q (run env (importTreeBytes hash data) (World.boot fs)).2.fs c t
      have ht : treeKind.Separate fs
        (run env (importTreeBytes hash data) (World.boot fs)).2.fs := hsep.2
      unfold importTreeBytes at ht ⊢
      rcases importBytes_ends treeKind env fs hash data with hw | ⟨x, hx, hw⟩
      · rw [hw]
        exact hline
      · rw [hw] at ht ⊢
        have hkept := retains_importTree (w := World.boot fs) laws hx ht
        -- a tree file is no commit, so every commit loads as before
        have hcommits : commitKind.Persists fs
            ((World.boot fs).written (treeKind.importPath hash data) data).fs :=
          ObjectKind.persists_of_eq fun p hp => treeKind.lookup_imported (by
            simp [hp, commitKind, treeKind])
        exact hline.same fun h hhead => ⟨.ofPersists hcommits hkept.trees hkept.chunks,
          (eval_head_congr (treeKind.lookup_imported (by simp [headFile, treeKind]))).trans hhead⟩
    | importChunk hash data =>
      have ha := importStoredChunk_ends env fs hash data
      have hl : ∀ p : FilePath VaultDir, p.dir ≠ .chunks →
        (run env (importStoredChunk hash data) (World.boot fs)).2.fs.lookup p = fs.lookup p :=
        fun p hp => ha.other hp
      refine hline.same fun h hhead => ⟨.ofPersists ?_ ?_ fun ch hch => ha.mem hch,
        (eval_head_congr (hl _ (by decide))).trans hhead⟩
      · exact ObjectKind.persists_of_eq fun p hp => hl p (by simp [hp, commitKind])
      · exact ObjectKind.persists_of_eq fun p hp => hl p (by simp [hp, treeKind])
    | fetchDag peers target adopt =>
      obtain rfl : adopt = false := hsafe
      -- without adoption nothing in the root directory is written
      have hroot : Within BelowRoot (World.boot fs)
          (run env (Soal.fetchDag peers target false) (World.boot fs)).2 :=
        ((confined_fetchDag_noAdopt peers target).wp_of (I := fun _ => True) fun _ _ => trivial).post
      refine hline.same fun h hhead => ⟨fetchDag_kept env fs peers target false hfree, ?_⟩
      exact (eval_head_congr (hroot.frame headFile (by simp [BelowRoot, headFile]))).trans hhead
    | setHeadPublic c' => exact absurd hsafe not_false
    | setDivergentHead c' =>
      obtain ⟨hl, hhead'⟩ := setDivergentHead_ends env fs c'
      refine hline.same fun h hhead => ⟨.ofPersists
        (ObjectKind.persists_of_eq fun p hp => hl p (by simp [hp, commitKind]))
        (ObjectKind.persists_of_eq fun p hp => hl p (by simp [hp, treeKind]))
        fun ch hch => (mem_congr (hl _ (by simp [chunkPath]))).2 hch, ?_⟩
      rcases hhead' with hsame | ⟨hnone, -⟩
      · exact hsame.trans hhead
      · -- it moves HEAD only where there is none
        cases hhead.symm.trans hnone
    | gcAll => exact hline.same fun h hhead => gcAll_kept env hhead

end OneStep

/-! ## §5. Whole runs. -/

section WholeRun

variable {S : Bytes → Prop} {fs fs' : VaultFs} {c h : ContentHash} {k : Commit} {t : Tree}
  {Q : ContentHash → Prop}

/-- A commit that is on the line is compared with HEAD: nothing was removed. -/
theorem OnLine.diff (hline : OnLine Q fs c t) : ∃ h d, ReadM.eval fs head = .ok (some h) ∧
    Reach fs h c ∧ ReadM.eval fs (diffCommits c h) = .ok d ∧ d.removed = [] := by
  obtain ⟨h, kh, th, hhead, hreach, hkh, hth, hin, k, hk, ht, -⟩ := hline
  refine ⟨h, _, hhead, hreach, eval_diffCommits hk hkh ht hth, ?_⟩
  rw [List.eq_nil_iff_forall_not_mem]
  intro path hmem
  obtain ⟨hthere, hgone⟩ := mem_removed.1 hmem
  exact hin path hthere hgone

/-- What runs lead to keeps the line. -/
theorem OnLine.runs (laws : JsonLaws) (hagain : JsonKeepsParents) (hS : CollisionFree S)
    (hline : OnLine Q fs c t)
    (hrun : Reachable (Step S fun fs cmd => cmd.GrowsLine fs) (fun start => start = fs) fs') :
    OnLine Q fs' c t := by
  refine hrun.induct (P := fun fs' => OnLine Q fs' c t) (fun start heq => ?_)
    fun x y hx hxy => hx.step laws hagain hS hxy
  rw [heq]
  exact hline

/-- **HEAD's history only grows**: wherever a run leads to from a directory with a HEAD that loads, as
long as no command replaces HEAD, that HEAD is an ancestor of the new one; it is complete if it was;
and the diff from it to the new one can be made and removes no path. -/
theorem head_history_grows (laws : JsonLaws) (hagain : JsonKeepsParents) (hS : CollisionFree S)
    (hhead : ReadM.eval fs head = .ok (some c)) (hk : ReadM.eval fs (loadCommit c) = .ok k)
    (ht : ReadM.eval fs (loadTree k.tree) = .ok t)
    (hrun : Reachable (Step S fun fs cmd => cmd.GrowsLine fs) (fun start => start = fs) fs') :
    (ReadM.eval fs (isComplete c) = .ok true → ReadM.eval fs' (isComplete c) = .ok true) ∧
    ∃ h d, ReadM.eval fs' head = .ok (some h) ∧ Reach fs' h c ∧
      ReadM.eval fs' (diffCommits c h) = .ok d ∧ d.removed = [] := by
  have hstart : OnLine (fun ch => chunkPath ch ∈ fs) fs c t :=
    ⟨c, k, t, hhead, .refl, hk, ht, .refl, k, hk, ht, fun _ _ hch => hch⟩
  have hline := hstart.runs laws hagain hS hrun
  refine ⟨fun hcomplete => ?_, hline.diff⟩
  obtain ⟨k₀, t₀, hk₀, ht₀, hch₀⟩ := eval_isComplete_iff.1 hcomplete
  obtain rfl := Except.ok.inj (hk.symm.trans hk₀)
  obtain rfl := Except.ok.inj (ht.symm.trans ht₀)
  obtain ⟨-, -, -, -, -, -, -, -, k', hk', ht', hch'⟩ := hline
  exact eval_isComplete_iff.2 ⟨k', t, hk', ht', fun ch hmem => hch' ch hmem (hch₀ ch hmem)⟩

end WholeRun

/-! ## §6. What a diff says about the data. -/

section Data

variable {S : Bytes → Prop} {key : Option Key} {calls : List Made} {v : Vault} {fs : VaultFs}
  {data data' : Bytes}

/-- A chunk's name depends on the chunk only. -/
theorem Vault.Holds.unique {plain : Bytes} {ch ch' : ContentHash} (h : v.Holds fs plain ch)
    (h' : v.Holds fs plain ch') : ch = ch' := by
  obtain ⟨stored, hs, rfl, -⟩ := h
  obtain ⟨stored', hs', rfl, -⟩ := h'
  rw [Except.ok.inj (hs.symm.trans hs')]

/-- **Two files have the same entry exactly when they have the same data.** -/
theorem Vault.HoldsFile.entry_eq_iff (hcdc : FastcdcTiles) (haead : AeadCorrect) {path path' : String}
    {size size' : UInt64} {chunks chunks' : List ContentHash}
    (h : v.HoldsFile fs data (path, size, chunks)) (h' : v.HoldsFile fs data' (path', size', chunks')) :
    TreeEntry.file size chunks = .file size' chunks' ↔ data = data' := by
  constructor
  · intro heq
    obtain ⟨-, rfl⟩ := TreeEntry.file.inj heq
    exact Except.ok.inj ((h.restoreChunks hcdc haead).symm.trans (h'.restoreChunks hcdc haead))
  · rintro rfl
    have hsize : size = size' := (show size = _ from h.size).trans (show size' = _ from h'.size).symm
    have hunique : Relator.RightUnique (v.Holds fs) := fun _ _ _ hc hc' => hc.unique hc'
    have hchunks : chunks = chunks' := hunique.forall₂ h.chunks h'.chunks
    rw [hsize, hchunks]

/-- **A diff is about data**: between any two commits of a run of adds and snapshots it names, in
ascending order, exactly the paths that only the one or only the other held, and exactly those that
held different data. -/
theorem recorded_diff (hcdc : FastcdcTiles) (haead : AeadCorrect) (hS : CollisionFree S)
    (h : Recorded S key calls fs) (hv : v.key = key) {made made' : Made} {older older' : List Made}
    (hmade : made :: older <:+ calls) (hmade' : made' :: older' <:+ calls) :
    ∃ d, ReadM.eval fs (diffCommits made.commit made'.commit) = .ok d ∧
      (d.added.Pairwise (· < ·) ∧ d.removed.Pairwise (· < ·) ∧ d.changed.Pairwise (· < ·)) ∧
      ∀ path, (path ∈ d.added ↔ contentOf ((made :: older).map Made.call) path = none ∧
          contentOf ((made' :: older').map Made.call) path ≠ none) ∧
        (path ∈ d.removed ↔ contentOf ((made :: older).map Made.call) path ≠ none ∧
          contentOf ((made' :: older').map Made.call) path = none) ∧
        (path ∈ d.changed ↔ ∃ data data', contentOf ((made :: older).map Made.call) path = some data ∧
          contentOf ((made' :: older').map Made.call) path = some data' ∧ data ≠ data') := by
  obtain ⟨-, hall⟩ := h.stands hS hv
  obtain ⟨k, t, hk, ht, -, hl⟩ := hall.lists hmade
  obtain ⟨k', t', hk', ht', -, hl'⟩ := hall.lists hmade'
  refine ⟨_, eval_diffCommits hk hk' ht ht', between_ascending _ _ _ _,
    fun path => ?_⟩
  rw [mem_added, mem_removed, mem_changed]
  -- each of the two trees lists the path exactly when its content has it
  have hpath := hl path
  have hpath' := hl' path
  cases hc : contentOf ((made :: older).map Made.call) path with
  | none =>
    rw [hc] at hpath
    cases hc' : contentOf ((made' :: older').map Made.call) path with
    | none =>
      rw [hc'] at hpath'
      simp [hpath, hpath']
    | some data' =>
      rw [hc'] at hpath'
      obtain ⟨size', chunks', hget', -⟩ := hpath'
      simp [hpath, hget']
  | some data =>
    rw [hc] at hpath
    obtain ⟨size, chunks, hget, hfile⟩ := hpath
    cases hc' : contentOf ((made' :: older').map Made.call) path with
    | none =>
      rw [hc'] at hpath'
      simp [hget, hpath']
    | some data' =>
      rw [hc'] at hpath'
      obtain ⟨size', chunks', hget', hfile'⟩ := hpath'
      -- both have it: the entries differ exactly when the data does
      have hsame := hfile.entry_eq_iff hcdc haead hfile'
      simp [hget, hget', hsame]

end Data

end Laws

/-! ## §7. The note. -/

section Sample

attribute [local instance] noteSample

/-- Its tree has a valid path. -/
theorem noted_treePaths : TreePathsValid notedWorld.fs hashN ∧ ∃ k tree,
    ReadM.eval notedWorld.fs (loadCommit hashN) = .ok k ∧
    ReadM.eval notedWorld.fs (loadTree k.tree) = .ok tree := by
  obtain ⟨-, hall⟩ := noted_recorded.stands (v := plainVault) note_collisionFree rfl
  have hlast : [⟨addNote, hashN⟩] <:+ [(⟨addNote, hashN⟩ : Made)] := List.suffix_rfl
  obtain ⟨k, tree, hk, htree, hvalid, -⟩ := hall.lists hlast
  refine ⟨fun k' tree' hk' htree' => ?_, k, tree, hk, htree⟩
  obtain rfl := Except.ok.inj (hk.symm.trans hk')
  obtain rfl := Except.ok.inj (htree.symm.trans htree')
  exact hvalid

/-- Overwriting the note and taking a snapshot puts two commits on top of the first. -/
theorem note_history : ReadM.eval keptWorld.fs head = .ok (some hashK) ∧
    (ReadM.eval notedWorld.fs (isComplete hashN) = .ok true →
      ReadM.eval keptWorld.fs (isComplete hashN) = .ok true) ∧
    ∃ h d, ReadM.eval keptWorld.fs head = .ok (some h) ∧ Reach keptWorld.fs h hashN ∧
      ReadM.eval keptWorld.fs (diffCommits hashN h) = .ok d ∧ d.removed = [] := by
  have hserved : ∀ now b, Served (quiet now) b → NoteObject b :=
    fun now b hb => absurd hb (not_served_quiet now b)
  have hhead : ReadM.eval notedWorld.fs head = .ok (some hashN) :=
    (noted_recorded.stands (v := plainVault) note_collisionFree rfl).1
  obtain ⟨hvalid, k, tree, hk, htree⟩ := noted_treePaths
  have hgrows : (Command.addPath (.file worldData) "n.txt").GrowsLine notedWorld.fs := by
    intro h hh
    obtain rfl := Option.some.inj (Except.ok.inj (hhead.symm.trans hh))
    exact hvalid
  have hadd : Step NoteObject (fun fs cmd => cmd.GrowsLine fs) notedWorld.fs rewrittenWorld.fs := by
    have hafter : (Command.addPath (.file worldData) "n.txt").after plainVault (quiet 1700000006)
        notedWorld.fs = rewrittenWorld.fs := by
      obtain ⟨w, hrun, hfs⟩ := run_of_outcome outcome_addWorld
      rw [addWorld, Call.action] at hrun
      rw [Command.after, hrun]
      exact hfs
    rw [← hafter]
    refine .mk plainVault (quiet 1700000006) _ hgrows (noted_objects.dataIn note_noJson) ?_
      (hserved 1700000006)
    rw [hafter]
    exact rewritten_objects.dataIn note_noJson
  have hkeep : Step NoteObject (fun fs cmd => cmd.GrowsLine fs) rewrittenWorld.fs keptWorld.fs := by
    have hafter : (Command.snapshot "kept").after plainVault (quiet 1700000007) rewrittenWorld.fs =
        keptWorld.fs := by
      have hrun := run_takeKept.1
      rw [takeKept, Call.action] at hrun
      rw [Command.after, hrun]
    rw [← hafter]
    refine .mk plainVault (quiet 1700000007) _ trivial (rewritten_objects.dataIn note_noJson) ?_
      (hserved 1700000007)
    rw [hafter]
    exact kept_objects.dataIn note_noJson
  have hrun : Reachable (Step NoteObject fun fs cmd => cmd.GrowsLine fs)
      (fun start => start = notedWorld.fs) keptWorld.fs :=
    Reachable.step (Reachable.step (Reachable.root rfl) hadd) hkeep
  have hagain : JsonKeepsParents := fun b x _ h => absurd h (note_noJson.1 b x)
  exact ⟨(kept_recorded.stands (v := plainVault) note_collisionFree rfl).1,
    head_history_grows (standIn_jsonLaws noteDigest) hagain note_collisionFree hhead hk htree hrun⟩

/-- From the first commit to the snapshot the note has changed. -/
theorem noted_diff : ∃ d, ReadM.eval keptWorld.fs (diffCommits hashN hashK) = .ok d ∧
    (d.added.Pairwise (· < ·) ∧ d.removed.Pairwise (· < ·) ∧ d.changed.Pairwise (· < ·)) ∧
    (∀ path, (path ∈ d.added ↔ contentOf [addNote] path = none ∧
        contentOf [takeKept, addWorld, addNote] path ≠ none) ∧
      (path ∈ d.removed ↔ contentOf [addNote] path ≠ none ∧
        contentOf [takeKept, addWorld, addNote] path = none) ∧
      (path ∈ d.changed ↔ ∃ data data', contentOf [addNote] path = some data ∧
        contentOf [takeKept, addWorld, addNote] path = some data' ∧ data ≠ data')) ∧
    "n.txt" ∈ d.changed := by
  have hfirst : [⟨addNote, hashN⟩] <:+ noteCalls :=
    (List.suffix_cons _ _).trans (List.suffix_cons _ _)
  have hlast : ⟨takeKept, hashK⟩ :: [⟨addWorld, hashW⟩, ⟨addNote, hashN⟩] <:+ noteCalls :=
    List.suffix_rfl
  have h := recorded_diff (v := plainVault) note_tiles note_aead note_collisionFree kept_recorded rfl
    hfirst hlast
  dsimp only [List.map] at h
  obtain ⟨d, hd, horder, hpaths⟩ := h
  refine ⟨d, hd, horder, hpaths, (hpaths "n.txt").2.2.2 ⟨noteData, worldData, ?_, ?_, ?_⟩⟩
  · decide
  · decide
  · decide

end Sample

end Soal

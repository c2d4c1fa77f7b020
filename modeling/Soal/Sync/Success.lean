/-
  Soal.Sync.Success — what a successful sync guarantees, and what it does not.

  The shortcut for a complete target looks at the target alone, so ancestors may be missing; a resumed
  job may list chunks that are gone.  Apart from these two the whole DAG is there.  Adopting the
  target replaces HEAD, so local history stays protected only where something else leads to it.
-/
import Soal.Sync.Fetch
import Soal.SampleVault

namespace Soal

open FileProg

section Laws

variable [Crates]

/-! ## §1. The whole DAG. -/

section Dag

variable {D : Catalog} {target : ContentHash} {fs fs' : VaultFs} {env : Outside}
  {peers : List String} {adopt : Bool}

theorem Walked.commits_of_reach (h : Walked D target fs fs') {c : ContentHash}
    (hc : Reach fs' target c) : D.Commits target c := by
  induction hc with
  | refl => exact Catalog.commits_target
  | tail _ hyz ih =>
    obtain ⟨k, hk, hp⟩ := hyz
    obtain ⟨k', tr, hk', hDk', -⟩ := h.visited _ ih
    obtain rfl := Except.ok.inj (hk.symm.trans hk')
    exact ih.parent hDk' hp

/-- After the walk the commits on disk are those of the catalog. -/
theorem Walked.reach_iff (h : Walked D target fs fs') (hfun : D.Functional) {c : ContentHash} :
    Reach fs' target c ↔ D.Commits target c := by
  refine ⟨h.commits_of_reach, fun hc => hc.induct (fun r hr => hr ▸ .refl) fun x y hx hxy => ?_⟩
  obtain ⟨k, hDk, hp⟩ := hxy
  obtain ⟨k', tr, hk', hDk', -⟩ := h.visited x (h.commits_of_reach hx)
  obtain rfl := hfun.commit x k k' hDk hDk'
  exact hx.tail ⟨k, hk', hp⟩

/-- After the walk the DAG is whole unless the resumed job lists a chunk of it that was not there. -/
theorem Walked.wholeDag_iff (h : Walked D target fs fs') (hfun : D.Functional) :
    WholeDag fs' target ↔ ∀ ch, D.Chunks target ch →
      CheckedOff SyncJob.doneChunks fs target ch → chunkPath ch ∈ fs := by
  constructor
  · rintro hall ch ⟨t, tr, ⟨c, k, hc, hDk, rfl⟩, hDtr, hch⟩ hdone
    obtain ⟨k₁, tr₁, hk₁, hDk₁, htr₁, hDtr₁, hiff⟩ := h.visited c hc
    obtain rfl := hfun.commit c k k₁ hDk hDk₁
    obtain rfl := hfun.tree _ tr tr₁ hDtr hDtr₁
    obtain ⟨k₂, tr₂, hk₂, htr₂, hstored⟩ := hall c ((h.reach_iff hfun).2 hc)
    obtain rfl := Except.ok.inj (hk₁.symm.trans hk₂)
    obtain rfl := Except.ok.inj (htr₁.symm.trans htr₂)
    exact ((hiff ch hch).1 (hstored ch hch)).resolve_right (not_not.2 hdone)
  · intro hold c hr
    have hc := h.commits_of_reach hr
    obtain ⟨k, tr, hk, hDk, htr, hDtr, hiff⟩ := h.visited c hc
    refine ⟨k, tr, hk, htr, fun ch hch => (hiff ch hch).2 ?_⟩
    have hcat : D.Chunks target ch := ⟨k.tree, tr, ⟨c, k, hc, hDk, rfl⟩, hDtr, hch⟩
    by_cases hdone : CheckedOff SyncJob.doneChunks fs target ch
    · exact .inl (hold ch hcat hdone)
    · exact .inr hdone

/-- What has to hold before a sync: a complete target has its whole DAG, and the job that is resumed
for an incomplete one lists no chunk of the DAG that is not stored. -/
def WholeBefore (fs : VaultFs) (env : Outside) (target : ContentHash) : Prop :=
  if ReadM.eval fs (isComplete target) = .ok true then WholeDag fs target
  else ∀ ch, (known fs env).Chunks target ch → CheckedOff SyncJob.doneChunks fs target ch →
    chunkPath ch ∈ fs

/-- The outcome of a run from a given disk. -/
theorem fetchDag_outcome {r : Res SyncResult} {w' : VaultWorld} (hfree : CollisionFree (Served env))
    (hrun : run env (fetchDag peers target adopt) (World.boot fs) = (r, w')) :
    Outcome (known fs env) target fs env peers adopt r w' := by
  have hu : ¬TornObject (World.boot fs) := not_torn_boot fs
  have h : wp env (Fetching (known fs env) target fs) (fetchDag peers target adopt)
      (Outcome (known fs env) target fs env peers adopt) (World.boot fs) :=
    wp_fetchDag (agrees_known fs hfree target) hfree rfl hu
  replace h := h.post
  rwa [hrun] at h

/-- Without adoption the sync of a complete target does nothing. -/
theorem run_fetchDag_complete {peer : String} (hc : ReadM.eval fs (isComplete target) = .ok true) :
    run env (fetchDag (peer :: peers) target false) (World.boot fs) =
      (.ok ⟨target, 0, 0, 0, false⟩, World.boot fs) := by
  unfold fetchDag
  exact run_read_ok (x := isComplete target) (w := World.boot fs) hc

/-- **After a successful sync the whole DAG of the target is there exactly when it was there behind a
target that was complete, or else no resumed checkpoint was wrong about a chunk.** -/
theorem fetchDag_wholeDag_iff {result : SyncResult} {w' : VaultWorld}
    (hfree : CollisionFree (Served env))
    (hrun : run env (fetchDag peers target adopt) (World.boot fs) = (.ok result, w')) :
    WholeDag w'.fs target ↔ WholeBefore fs env target := by
  have hout := (fetchDag_outcome hfree hrun).1 result rfl
  unfold WholeBefore
  split at hout
  next hc =>
    rw [if_pos hc]
    refine wholeDag_congr (fun p hp => hout.other p fun _ => ?_) target
    constructor <;> rintro rfl <;> rcases hp with hp | hp | hp <;> cases hp
  next hc =>
    rw [if_neg hc]
    exact hout.walked.wholeDag_iff (agrees_known fs hfree target).functional

end Dag

/-! ## §2. Local history. -/

section Protect

variable {D : Catalog} {target h : ContentHash} {fs fs' : VaultFs} {env : Outside}
  {peers : List String}

/-- HEADS or the snapshot registry names the commit. -/
def OtherRoot (fs : VaultFs) (r : ContentHash) : Prop :=
  (∃ hs, ReadM.eval fs listHeadsFileOnly = .ok hs ∧ r ∈ hs) ∨
    ∃ log, ReadM.eval fs loadSnapshots = .ok log ∧ r ∈ log.roots

/-- The commit stays protected when HEAD moves: the registry can be read, and the new HEAD leads to
the commit (`leads`), or a root beside HEAD does. -/
def Covered (fs : VaultFs) (leads : Prop) (h : ContentHash) : Prop :=
  (∃ log, ReadM.eval fs loadSnapshots = .ok log) ∧ (leads ∨ ∃ r, OtherRoot fs r ∧ Reach fs r h)

/-- What is protected once the target was adopted. -/
theorem protected_adopted_iff {heads : Finset ContentHash}
    (hheads : ReadM.eval fs listHeadsFileOnly = .ok heads)
    (hhead' : ReadM.eval fs' head = .ok (some target))
    (hheads' : ReadM.eval fs' listHeadsFileOnly = .ok (insert target heads))
    (hreg : fs'.lookup snapshotsPath = fs.lookup snapshotsPath) :
    Protected fs' h ↔ (∃ log, ReadM.eval fs loadSnapshots = .ok log) ∧
      (Reach fs' target h ∨ ∃ r, OtherRoot fs r ∧ Reach fs' r h) := by
  have hlog := eval_loadSnapshots_congr hreg
  rw [protected_iff]
  constructor
  · rintro ⟨hread, r, hr, hrh⟩
    refine ⟨hlog ▸ hread.registry, ?_⟩
    -- HEAD is the target now; HEADS holds it besides what it held; the registry is the same
    rcases hr with hr | ⟨hr, hmem⟩ | ⟨hr, hmem⟩
    · obtain rfl := Option.some.inj (Except.ok.inj (hhead'.symm.trans hr))
      exact .inl hrh
    · obtain rfl := Except.ok.inj (hheads'.symm.trans hr)
      rcases Finset.mem_insert.1 hmem with rfl | hmem
      · exact .inl hrh
      · exact .inr ⟨r, .inl ⟨heads, hheads, hmem⟩, hrh⟩
    · exact .inr ⟨r, .inr ⟨_, hlog ▸ hr, hmem⟩, hrh⟩
  · rintro ⟨hreg', hwhy⟩
    refine ⟨⟨⟨_, hhead'⟩, ⟨_, hheads'⟩, hlog ▸ hreg'⟩, ?_⟩
    rcases hwhy with hrh | ⟨r, ⟨hs, hhs, hmem⟩ | ⟨log, hl, hmem⟩, hrh⟩
    · exact ⟨target, .head hhead', hrh⟩
    · obtain rfl := Except.ok.inj (hheads.symm.trans hhs)
      exact ⟨r, .heads hheads' (Finset.mem_insert_of_mem hmem), hrh⟩
    · exact ⟨r, .registry (hlog ▸ hl) hmem, hrh⟩

/-- A sync adds commits of the target's DAG only: what a root reached before it reaches still, and
what it reaches besides, the target reaches too. -/
theorem Fetched.reach_iff (hf : Fetched D target fs true fs') (hfun : D.Functional)
    {r : ContentHash} :
    Reach fs' target h ∨ Reach fs' r h ↔ D.Commits target h ∨ Reach fs r h := by
  have hkeep : ∀ {x}, commitKind.Present fs x →
      ReadM.eval fs' (loadCommit x) = ReadM.eval fs (loadCommit x) := fun hp =>
    hf.synced.commits.kept.load hp
  rw [hf.walked.reach_iff hfun]
  refine ⟨fun hr => ?_, Or.imp_right fun hr => ?_⟩
  · rcases hr with hr | hr
    · exact .inl hr
    -- walking from `r`, the first commit that was not there before is one of the target's DAG
    induction hr using Relation.ReflTransGen.head_induction_on with
    | refl => exact .inr .refl
    | head hxy hyh ih =>
      rename_i x y
      by_cases hp : commitKind.Present fs x
      · obtain ⟨k, hk, hmem⟩ := hxy
        exact ih.imp_right fun hyh => .head ⟨k, hkeep hp ▸ hk, hmem⟩ hyh
      · obtain ⟨k, hk, hmem⟩ := hxy
        obtain ⟨-, data, k', ⟨hcx, -⟩, -⟩ :=
          hf.synced.commits.fresh x hp (commitKind.present_of_load hk)
        have htx := (hf.walked.reach_iff hfun).2 hcx
        exact .inl ((hf.walked.reach_iff hfun).1 ((htx.tail ⟨k, hk, hmem⟩).trans hyh))
  · refine Relation.ReflTransGen.mono (fun x y hxy => ?_) _ _ hr
    obtain ⟨k, hk, hmem⟩ := hxy
    exact ⟨k, hf.synced.commits.kept.load_ok hk, hmem⟩

/-- The target leads to the commit, as far as the sync can see. -/
def LeadsTo (fs : VaultFs) (env : Outside) (target h : ContentHash) : Prop :=
  if ReadM.eval fs (isComplete target) = .ok true then Reach fs target h
  else (known fs env).Commits target h

/-- Adopting a head without touching objects. -/
theorem adopted_protects_iff {heads : Finset ContentHash}
    (hheads : ReadM.eval fs listHeadsFileOnly = .ok heads)
    (hhead' : ReadM.eval fs' head = .ok (some target))
    (hheads' : ReadM.eval fs' listHeadsFileOnly = .ok (insert target heads))
    (hl : ∀ p : FilePath VaultDir, p ≠ headFile → p ≠ headsFile → fs'.lookup p = fs.lookup p) :
    Protected fs' h ↔ Covered fs (Reach fs target h) h := by
  rw [protected_adopted_iff hheads hhead' hheads' (hl _ (by decide) (by decide))]
  have hreach : ∀ r, Reach fs' r h ↔ Reach fs r h := fun r => reach_congr fun p hp =>
    hl p (by rintro rfl; cases hp) (by rintro rfl; cases hp)
  simp only [hreach]
  rfl

/-- How `set_head_public` ends from a given disk. -/
theorem setHeadPublic_outcome {w' : VaultWorld}
    (hrun : run env (setHeadPublic target) (World.boot fs) = (.ok (), w')) :
    ∃ heads, ReadM.eval fs listHeadsFileOnly = .ok heads ∧
      w' = adopted (World.boot fs) target heads := by
  have hrule : wp env (fun _ => True) (setHeadPublic target) _ (World.boot fs) :=
    wp_setHeadPublic trivial fun _ => ⟨trivial, trivial, fun _ _ => ⟨trivial, trivial⟩⟩
  replace hrule := hrule.post
  rw [hrun] at hrule
  rcases hrule with ⟨_, he, -⟩ | ⟨k, -, ⟨_, he, -⟩ | ⟨heads, hheads, -, rfl⟩⟩
  · cases he
  · cases he
  · exact ⟨heads, hheads, rfl⟩

/-- **After a remote head was adopted, a commit (the old HEAD, say) is protected exactly when the
registry can be read and the new head, a recorded head or a registered snapshot leads to it.** -/
theorem adopt_protects_iff (peers : List String) (hfree : CollisionFree (Served env)) :
    (∀ w', run env (setHeadPublic target) (World.boot fs) = (.ok (), w') →
      (Protected w'.fs h ↔ Covered fs (Reach fs target h) h)) ∧
    ∀ result w', run env (fetchDag peers target true) (World.boot fs) = (.ok result, w') →
      (Protected w'.fs h ↔ Covered fs (LeadsTo fs env target h) h) := by
  refine ⟨fun w' hrun => ?_, fun result w' hrun => ?_⟩
  · obtain ⟨heads, hheads, rfl⟩ := setHeadPublic_outcome hrun
    exact adopted_protects_iff hheads eval_head_adopted eval_listHeadsFileOnly_adopted
      fun p hp hp' => lookup_adopted hp hp'
  · have hout := (fetchDag_outcome hfree hrun).1 result rfl
    unfold LeadsTo
    split at hout
    -- the tip was complete: only HEAD and HEADS are written
    next hc =>
      obtain ⟨heads, hheads, hh', hhs'⟩ := hout.adopts rfl
      rw [if_pos hc]
      exact adopted_protects_iff hheads hh' hhs' fun p hp hp' => hout.other p fun _ => ⟨hp, hp'⟩
    -- it was fetched: what the target reaches is the DAG walked
    next hc =>
      have hfun := (agrees_known fs hfree target).functional
      obtain ⟨heads, hheads, hh', hhs'⟩ := hout.adopts rfl
      rw [if_neg hc, protected_adopted_iff hheads hh' hhs'
        (hout.roots _ rfl fun _ => ⟨by decide, by decide⟩)]
      refine and_congr_right fun _ => ?_
      constructor
      · rintro (hr | ⟨r, hr, hrh⟩)
        · exact .inl ((hout.walked.reach_iff hfun).1 hr)
        · exact ((hout.reach_iff hfun).1 (.inr hrh)).imp_right fun hrh => ⟨r, hr, hrh⟩
      · rintro (hc | ⟨r, hr, hrh⟩)
        · exact .inl ((hout.walked.reach_iff hfun).2 hc)
        · exact ((hout.reach_iff hfun).2 (.inr hrh)).imp_right fun hrh => ⟨r, hr, hrh⟩

end Protect

omit [Crates] in
/-- Nothing is served by a quiet world. -/
theorem not_served_quiet (now : UInt64) (b : Bytes) : ¬Served (quiet now) b := by
  intro h
  obtain ⟨n, peer, hash, h⟩ := h
  cases h

theorem quiet_collisionFree (now : UInt64) : CollisionFree (Served (quiet now)) :=
  fun a _ ha _ _ => absurd ha (not_served_quiet now a)

end Laws

/-! ## §3. At fixed inputs. -/

section Sample

attribute [local instance] sample

/-- A vault that got `commitD` alone, as a transfer of a tip does; its parent `commitA` is missing. -/
def tipDisk : VaultFs := diskOf [
  (headFile, Text.toUtf8 hashD.toHex),
  (treePathBin treeE, wireE),
  (commitPathBin hashD, wireD)]

theorem lookup_tipDisk : tipDisk.lookup (treePathBin treeE) = some wireE ∧
    tipDisk.lookup (commitPathBin hashD) = some wireD ∧ ¬commitKind.Present tipDisk hashA := by
  have hno : tipDisk.lookup (commitPathBin hashA) = none ∧
      tipDisk.lookup (commitPathJson hashA) = none := by
    simp [tipDisk, headFile, commitPathBin, commitPathJson, treePathBin]
  refine ⟨?_, ?_, not_or.2 ⟨AList.lookup_eq_none.1 hno.1, AList.lookup_eq_none.1 hno.2⟩⟩ <;>
    simp [tipDisk, headFile, commitPathBin, treePathBin]

theorem tip_complete : ReadM.eval tipDisk (isComplete hashD) = .ok true := by
  obtain ⟨hlE, hlD, -⟩ := lookup_tipDisk
  have hD := loadCommit_sample encodeD sampleDigest_wires.2.2.2.2.1 hlD
  exact eval_isComplete_iff.2 ⟨_, _, hD, loadTree_sample hlE, fun ch hch => by cases hch⟩

theorem tip_not_whole : ¬WholeDag tipDisk hashD := by
  obtain ⟨-, hlD, hnoA⟩ := lookup_tipDisk
  have hD := loadCommit_sample encodeD sampleDigest_wires.2.2.2.2.1 hlD
  intro hall
  obtain ⟨k, tr, hk, -⟩ := hall hashA (.single ⟨_, hD, List.mem_singleton.2 rfl⟩)
  exact hnoA (commitKind.present_of_load hk)

theorem run_fetchDag_tip : run (quiet 0) (fetchDag ["peer"] hashD false) (World.boot tipDisk) =
    (.ok ⟨hashD, 0, 0, 0, false⟩, World.boot tipDisk) := run_fetchDag_complete tip_complete

/-- Success with a missing ancestor. -/
theorem fetchDag_keeps_hole : ¬∀ (fs : VaultFs) (env : Outside) (peers : List String)
    (target : ContentHash) (adopt : Bool) (result : SyncResult) (w' : VaultWorld),
    run env (fetchDag peers target adopt) (World.boot fs) = (.ok result, w') →
      WholeDag w'.fs target := fun h => tip_not_whole (h _ _ _ _ _ _ _ run_fetchDag_tip)

/-- The rule at this disk. -/
theorem tip_wholeDag_iff : WholeDag tipDisk hashD ↔ WholeBefore tipDisk (quiet 0) hashD :=
  fetchDag_wholeDag_iff (quiet_collisionFree 0) run_fetchDag_tip

/-- HEAD is `commitA`; `commitB`, unrelated, was imported. -/
def divergedDisk : VaultFs := diskOf [
  (headFile, Text.toUtf8 hashA.toHex),
  (treePathBin treeE, wireE),
  (commitPathBin hashA, wireA),
  (commitPathBin hashB, wireB)]

theorem lookup_divergedDisk : divergedDisk.lookup headFile = some (Text.toUtf8 hashA.toHex) ∧
    headsFile ∉ divergedDisk ∧ snapshotsPath ∉ divergedDisk ∧
    divergedDisk.lookup (commitPathBin hashB) = some wireB := by
  simp only [← AList.lookup_eq_none]
  simp [divergedDisk, headFile, headsFile, snapshotsPath, commitPathBin, treePathBin]

theorem run_setHeadPublic_diverged : run (quiet 0) (setHeadPublic hashB) (World.boot divergedDisk) =
    (.ok (), adopted (World.boot divergedDisk) hashB ∅) := by
  obtain ⟨-, hnoHeads, -, hlB⟩ := lookup_divergedDisk
  have hB := loadCommit_sample encodeB sampleDigest_wires.2.2.1 hlB
  have hheads := eval_listHeadsFileOnly_absent hnoHeads
  have hrule : wp (quiet 0) (fun _ => True) (setHeadPublic hashB) _ (World.boot divergedDisk) :=
    wp_setHeadPublic trivial fun _ => ⟨trivial, trivial, fun _ _ => ⟨trivial, trivial⟩⟩
  rcases hrule.post with ⟨e, -, he, -⟩ | ⟨k, -, ⟨e, -, he, -⟩ | ⟨heads, hok, hr, hw⟩⟩
  · cases hB.symm.trans he
  · cases hheads.symm.trans he
  · obtain rfl := Except.ok.inj (hheads.symm.trans hok)
    exact Prod.ext hr hw

/-- Adopting an unrelated head leaves the old one unprotected. -/
theorem setHeadPublic_forgets_head : ¬∀ (fs : VaultFs) (env : Outside) (h target : ContentHash)
    (w' : VaultWorld), ReadM.eval fs head = .ok (some h) →
    run env (setHeadPublic target) (World.boot fs) = (.ok (), w') → Protected w'.fs h := by
  intro hall
  obtain ⟨hlA, hnoHeads, hnoLog, hlB⟩ := lookup_divergedDisk
  have hB := loadCommit_sample encodeB sampleDigest_wires.2.2.1 hlB
  have hheads := eval_listHeadsFileOnly_absent hnoHeads
  have hlog := eval_loadSnapshots_absent hnoLog
  have hp := hall _ _ hashA hashB _ (eval_head_written hlA) run_setHeadPublic_diverged
  rw [adopted_protects_iff hheads eval_head_adopted eval_listHeadsFileOnly_adopted
    fun p hp hp' => lookup_adopted hp hp'] at hp
  obtain ⟨-, hr | ⟨r, ⟨hs, hhs, hr⟩ | ⟨log, hl, hr⟩, -⟩⟩ := hp
  · exact absurd ((reach_parentless hB rfl).1 hr) (by decide)
  · obtain rfl := Except.ok.inj (hheads.symm.trans hhs)
    cases hr
  · obtain rfl := Except.ok.inj (hlog.symm.trans hl)
    cases hr

/-- The rule at this disk. -/
theorem diverged_protects_iff :
    Protected (adopted (World.boot divergedDisk) hashB ∅).fs hashA ↔
      Covered divergedDisk (Reach divergedDisk hashB hashA) hashA :=
  (adopt_protects_iff ["peer"] (quiet_collisionFree 0)).1 _ run_setHeadPublic_diverged

end Sample

end Soal

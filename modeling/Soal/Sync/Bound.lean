/-
  Soal.Sync.Bound — the bound on commits, where a DAG is served and where it is fetched.

  Serving tests the bound when a commit is new, fetching when an entry of the queue is popped.  So
  serving refuses a DAG by the number of its commits alone, while fetching counts the commits seen
  before the last entry of the queue.  The two differ for a DAG that is one commit too large and whose
  last entry is a commit not met before.
-/
import Mathlib.Data.Set.Card
import Soal.Codec.Announced
import Soal.Sync.Fresh
import Soal.Vault.ProvideWalk

namespace Soal

open FileProg Worklist

section Model

variable [Crates]

/-! ## §1. A DAG that is held and handed out. -/

/-- The server holds the DAG of the target and can serve each object of it; each object reaches the
receiver from some peer, in a form that it accepts. -/
structure ServedDag (src : VaultFs) (target : ContentHash) (env : Outside) (peers : List String) :
    Prop where
  commit : ∀ c, (stored src).Commits target c → commitKind.Served src c
  tree : ∀ h, (stored src).Trees target h → treeKind.Served src h
  signed : ∀ c k, (stored src).Commits target c → (stored src).commit c k →
    verifyCommitSignature k = .ok ()
  sendsCommit : ∀ c k, (stored src).Commits target c → (stored src).commit c k →
    ∃ peer ∈ peers, ∃ data, Provides env peer c data ∧ commitKind.Imports c data k
  sendsTree : ∀ h tr, (stored src).Trees target h → (stored src).tree h tr →
    ∃ peer ∈ peers, ∃ data, Provides env peer h data ∧ treeKind.Imports h data tr
  sendsChunk : ∀ ch, (stored src).Chunks target ch →
    ∃ peer ∈ peers, ∃ data, Provides env peer ch data ∧ ContentHash.of data = ch

/-- The parents of a commit, in its own order. -/
def parentsOf (src : VaultFs) (c : ContentHash) : List ContentHash :=
  match ReadM.eval src (loadCommit c) with
  | .ok k => k.parents
  | .error _ => []

/-- The last entry of the breadth-first queue of the DAG repeats an earlier one. -/
def LastRepeats (src : VaultFs) (target : ContentHash) : Prop :=
  ∃ es, Taken (parentsOf src) ∅ [target] es ∧ ∃ h : es ≠ [], es.getLast h ∈ es.dropLast

/-- The number of commits of the DAG. -/
noncomputable def dagSize (src : VaultFs) (target : ContentHash) : Nat :=
  {c | (stored src).Commits target c}.ncard

/-- Both sides refuse exactly the DAGs of more than `MAX_JOB_COMMITS` commits. -/
def SameBound (src fs : VaultFs) (target : ContentHash) (env : Outside) (peers : List String)
    (adopt : Bool) : Prop :=
  (ReadM.eval src (collectProvideHashes target) =
      fail (.other "provide DAG too deep (MAX_JOB_COMMITS)") ↔ maxJobCommits < dagSize src target) ∧
    ((run env (fetchDag peers target adopt) (World.boot fs)).1 =
      fail (.other "DAG too deep (MAX_JOB_COMMITS)") ↔ maxJobCommits < dagSize src target)

section Bound

variable {src fs : VaultFs} {target : ContentHash} {env : Outside} {peers : List String}

theorem mem_parentsOf {c p : ContentHash} : p ∈ parentsOf src c ↔ (stored src).Parent c p := by
  unfold parentsOf Catalog.Parent
  cases hk : ReadM.eval src (loadCommit c) with
  | ok k =>
    constructor
    · exact fun hp => ⟨k, hk, hp⟩
    · intro h
      obtain ⟨k', hk', hp⟩ := h
      obtain rfl := Except.ok.inj (hk.symm.trans hk')
      exact hp
  | error e =>
    constructor
    · exact fun hp => absurd hp List.not_mem_nil
    · intro h
      obtain ⟨k', hk', -⟩ := h
      cases hk.symm.trans hk'

theorem parentsOf_eq {c : ContentHash} {k : Commit} (hk : (stored src).commit c k) :
    parentsOf src c = k.parents := by
  unfold parentsOf
  rw [show ReadM.eval src (loadCommit c) = .ok k from hk]

/-- The entries of the queue are the commits of the DAG. -/
theorem taken_commits {es : List ContentHash} (hT : Taken (parentsOf src) ∅ [target] es)
    (c : ContentHash) : c ∈ es ↔ (stored src).Commits target c := by
  have hnext : (fun a b => b ∈ parentsOf src a) = (stored src).Parent := by
    funext a b
    exact propext mem_parentsOf
  have hinit : Frontier (fun a b => b ∈ parentsOf src a) (· = target) ∅ [target] :=
    .init fun x => by simp
  have hmem := hT.mem_iff (x := c) hinit
  rw [hnext, Finset.empty_union, List.mem_toFinset] at hmem
  exact hmem

theorem taken_card {es : List ContentHash} (hT : Taken (parentsOf src) ∅ [target] es) :
    es.toFinset.card = dagSize src target := by
  have hset : {c | (stored src).Commits target c} = (es.toFinset : Set ContentHash) := by
    ext c
    rw [Finset.mem_coe, List.mem_toFinset, taken_commits hT]
    rfl
  rw [dagSize, hset, Set.ncard_coe_finset]

/-- The queue of a finite DAG runs empty. -/
theorem exists_taken_dag (hfin : {c | (stored src).Commits target c}.Finite) :
    ∃ es, Taken (parentsOf src) ∅ [target] es := by
  refine exists_taken (fun a ha b hb => ?_) (Finset.empty_subset hfin.toFinset) fun a ha => ?_
  · have ha : (stored src).Commits target a := hfin.mem_toFinset.1 ha
    exact hfin.mem_toFinset.2 (ha.step (mem_parentsOf.1 hb))
  · obtain rfl := List.mem_singleton.1 ha
    exact hfin.mem_toFinset.2 Catalog.commits_target

/-! ## §2. Serving. -/

/-- **Serving refuses a DAG by its number of commits.** -/
theorem collect_deep_iff (hfin : {c | (stored src).Commits target c}.Finite)
    (hsrc : ServedDag src target env peers) :
    ReadM.eval src (collectProvideHashes target) =
      fail (.other "provide DAG too deep (MAX_JOB_COMMITS)") ↔
        maxJobCommits < dagSize src target := by
  have hinit : Frontier (Parent src) (· = target) ∅ [target] := .init (by simp)
  have hserved : ∀ c, Reachable (Parent src) (· = target) c → ServedAt src c := by
    intro c hc _
    exact ⟨hsrc.commit c hc, fun k hk _ => hsrc.tree k.tree ⟨c, k, hc, hk, rfl⟩⟩
  unfold collectProvideHashes
  rw [ReadM.eval_bind]
  rcases provideWalk_served (s := ⟨∅, []⟩) hinit hserved with
    ⟨out, hout⟩ | ⟨hdeep, met, hmet, hin⟩
  · -- everything was met, within the bound
    obtain ⟨seen, hf, hcap⟩ := provideWalk_met hinit (by simp) hout
    have hset : {c | (stored src).Commits target c} = (seen : Set ContentHash) := by
      ext c
      exact hf.seen_iff.symm
    have hsize : dagSize src target ≤ maxJobCommits := by
      rw [dagSize, hset, Set.ncard_coe_finset]
      exact hcap
    rw [hout, ok_bind]
    constructor
    · intro h
      cases h
    · intro h
      omega
  · have hle : met.card ≤ dagSize src target := by
      rw [← Set.ncard_coe_finset]
      exact Set.ncard_le_ncard (fun c hc => hin c hc) hfin
    rw [hdeep]
    constructor
    · intro _
      omega
    · intro _
      rfl

/-- A DAG whose files are served is served. -/
theorem SourceDag.servedDag (hsrc : SourceDag src target)
    (hserved : EachServed src target env peers) : ServedDag src target env peers where
  commit c hc := by
    obtain ⟨data, k, hl, -, -, hi, hk⟩ := hsrc.imports_commit hc
    exact ⟨⟨k, hk⟩, (commitKind.servable_bin hl).2 hi.hash_eq⟩
  tree h ht := by
    obtain ⟨data, tr, hl, -, -, hi, htr⟩ := hsrc.imports_tree ht
    exact ⟨⟨tr, htr⟩, (treeKind.servable_bin hl).2 hi.hash_eq⟩
  signed c k hc hk := by
    obtain ⟨k', hw, hv⟩ := hsrc.commit c hc
    obtain rfl := (stored_functional src).commit c k k' hk hw.1
    exact hv
  sendsCommit c k hc hk := by
    obtain ⟨data, k', hl, -, hsize, hi, hk'⟩ := hsrc.imports_commit hc
    obtain rfl := (stored_functional src).commit c k k' hk hk'
    obtain ⟨peer, hpeer, hprov⟩ := (hserved.commit c hc).provides hl hsize
    exact ⟨peer, hpeer, data, hprov, hi⟩
  sendsTree h tr ht htr := by
    obtain ⟨data, tr', hl, -, hsize, hi, htr'⟩ := hsrc.imports_tree ht
    obtain rfl := (stored_functional src).tree h tr tr' htr htr'
    obtain ⟨peer, hpeer, hprov⟩ := (hserved.tree h ht).provides hl hsize
    exact ⟨peer, hpeer, data, hprov, hi⟩
  sendsChunk ch hch := by
    obtain ⟨data, hload, hsize⟩ := hsrc.chunk ch hch
    obtain ⟨hl, hd⟩ := exportStoredChunk_ok_iff.1 hload
    obtain ⟨peer, hpeer, hprov⟩ := (hserved.chunk ch hch).provides hl hsize
    exact ⟨peer, hpeer, data, hprov, hd⟩

/-! ## §3. Fetching. -/

/-- What the receiver hears agrees with what the server holds. -/
theorem ServedDag.agrees (hsrc : ServedDag src target env peers) (hdest : Vacant src target fs)
    (hfree : CollisionFree (Served env)) : Agrees (stored src) target fs env where
  functional := stored_functional src
  commits := by
    refine ⟨fun c k hc hk => absurd (commitKind.present_of_load hk) (hdest.commit c hc), ?_⟩
    intro c data k hc _ hdata hi
    obtain ⟨⟨k', hk'⟩, -⟩ := hsrc.commit c hc
    obtain ⟨peer, -, data', hprov, hi'⟩ := hsrc.sendsCommit c k' hc hk'
    obtain rfl := hfree data data' hdata hprov.served (hi.hash_eq.trans hi'.hash_eq.symm)
    rw [hi.unique _ hi']
    exact hk'
  trees := by
    refine ⟨fun t tr ht htr => absurd (treeKind.present_of_load htr) (hdest.tree t ht), ?_⟩
    intro t data tr ht _ hdata hi
    obtain ⟨⟨tr', htr'⟩, -⟩ := hsrc.tree t ht
    obtain ⟨peer, -, data', hprov, hi'⟩ := hsrc.sendsTree t tr' ht htr'
    obtain rfl := hfree data data' hdata hprov.served (hi.hash_eq.trans hi'.hash_eq.symm)
    rw [hi.unique _ hi']
    exact htr'

theorem ServedDag.objects (hsrc : ServedDag src target env peers) (hdest : Vacant src target fs) :
    ObjectsSupplied (stored src) target fs env peers where
  commit c hc := by
    obtain ⟨⟨k, hk⟩, -⟩ := hsrc.commit c hc
    obtain ⟨peer, hpeer, data, hprov, hi⟩ := hsrc.sendsCommit c k hc hk
    exact .inr ⟨hdest.commit c hc, hdest.notCheckedOff c, peer, hpeer, data, k, hprov, hi⟩
  signed := hsrc.signed
  tree t ht := by
    obtain ⟨⟨tr, htr⟩, -⟩ := hsrc.tree t ht
    obtain ⟨peer, hpeer, data, hprov, hi⟩ := hsrc.sendsTree t tr ht htr
    exact .inr ⟨hdest.tree t ht, hdest.notCheckedOff t, peer, hpeer, data, tr, hprov, hi⟩
  chunk ch hch := .inr (.inr (hsrc.sendsChunk ch hch))

theorem Vacant.tipSupplied (hdest : Vacant src target fs) (adopt : Bool) :
    TipSupplied (stored src) target fs adopt where
  tip _ _ _ _ ch _ hdone := absurd hdone (hdest.notCheckedOff ch)
  heads _ := hdest.heads

section Walk

variable {D : Catalog} {adopt : Bool} {next : ContentHash → List ContentHash}
  {visited : Finset ContentHash} {queue es : List ContentHash} {run : SyncRun} {w : VaultWorld}

/-- **How the walk over supplied objects ends**: it is too deep when more than `MAX_JOB_COMMITS`
commits were seen at some entry, and otherwise it succeeds.  The induction is on what the queue
pops. -/
theorem wp_syncWalk_taken (hA : Agrees D target fs env) (hfree : CollisionFree (Served env))
    (hsup : ObjectsSupplied D target fs env peers)
    (hnext : ∀ c k, D.commit c k → next c = k.parents) (hT : Taken next visited queue es)
    (hin : ∀ c ∈ es, D.Commits target c) (h : Going D target fs run w) :
    wp env (Fetching D target fs) (syncWalk peers visited queue run) (fun out _ =>
      (DeepAt maxJobCommits visited es →
        ∃ run', out = .ok (.error (.other "DAG too deep (MAX_JOB_COMMITS)"), run')) ∧
      (¬DeepAt maxJobCommits visited es → ∃ run', out = .ok (.ok (), run'))) w := by
  induction hT generalizing run w with
  | done =>
    rw [syncWalk]
    exact ⟨h.settled, fun hd => absurd hd id, fun _ => ⟨run, rfl⟩⟩
  | @again visited c queue es hc _ ih =>
    have hin' : ∀ x ∈ es, D.Commits target x := fun x hx => hin x (List.mem_cons_of_mem c hx)
    rw [syncWalk]
    -- the cap is looked at before the entry is, repeated or not
    by_cases hcap : visited.card > maxJobCommits
    · rw [dif_pos hcap]
      exact ⟨h.settled, fun _ => ⟨run, rfl⟩, fun hd => absurd (.inl hcap) hd⟩
    · -- a repeated entry changes nothing
      have hdeep : DeepAt maxJobCommits visited (c :: es) ↔ DeepAt maxJobCommits visited es := by
        rw [DeepAt, Finset.insert_eq_of_mem hc]
        exact or_iff_right hcap
      rw [dif_neg hcap, dif_pos hc, hdeep]
      exact ih hin' h
  | @fresh visited c queue es hc _ ih =>
    have hin' : ∀ x ∈ es, D.Commits target x := fun x hx => hin x (List.mem_cons_of_mem c hx)
    rw [syncWalk]
    by_cases hcap : visited.card > maxJobCommits
    · rw [dif_pos hcap]
      exact ⟨h.settled, fun _ => ⟨run, rfl⟩, fun hd => absurd (.inl hcap) hd⟩
    · have hdeep : DeepAt maxJobCommits visited (c :: es) ↔
          DeepAt maxJobCommits (insert c visited) es := or_iff_right hcap
      rw [dif_neg hcap, dif_neg hc, hdeep]
      -- a visit only stops when an object is missing, and none is
      refine SyncM.wp_surely (SyncM.wp_relax (wp_syncVisit hA hfree h (hin c List.mem_cons_self))
        (fun _ _ hm => hm.2 hsup) fun _ _ _ h' => h') fun parents run' w' h' => ?_
      obtain ⟨hg, -, -, k, hk, rfl⟩ := h'
      rw [← hnext c k hk]
      exact ih hin' hg

/-- The end of a run whose walk is too deep. -/
theorem wp_fetchMissing_deep (hA : Agrees D target fs env) (hfree : CollisionFree (Served env))
    (hsup : ObjectsSupplied D target fs env peers) (hjob : ReadM.eval fs (savedJob target) = .ok none)
    (hnext : ∀ c k, D.commit c k → next c = k.parents) (hT : Taken next ∅ [target] es)
    (hin : ∀ c ∈ es, D.Commits target c) (hdeep : DeepAt maxJobCommits ∅ es) (hfs : w.fs = fs)
    (hu : ¬TornObject w) :
    wp env (Fetching D target fs) (fetchMissing peers target adopt) (fun r _ =>
      r = fail (.other "DAG too deep (MAX_JOB_COMMITS)")) w := by
  refine wp_fetchMissing_of hfs hu (fun e he => by cases hjob.symm.trans he) fun run₁ w₁ h₁ => ?_
  have hwalk : wp env (Fetching D target fs) (syncWalk peers ∅ [target] run₁) (fun out w' =>
      ∃ run', out = .ok (.error (.other "DAG too deep (MAX_JOB_COMMITS)"), run') ∧
        Sound D target fs run' w') w₁ := by
    -- the same walk, with what holds where it stops
    have hends : wp env (Fetching D target fs) (syncWalk peers ∅ [target] run₁)
        (Ends (Stopped D target fs env peers adopt) _) w₁ := wp_syncWalk hA hfree h₁
    refine ((wp_syncWalk_taken hA hfree hsup hnext hT hin h₁).and hends).mono
      (fun _ hI => hI.1) fun out w' _ hr => ?_
    obtain ⟨⟨hd, -⟩, hends⟩ := hr
    obtain ⟨run', rfl⟩ := hd hdeep
    have hstop : Stopped D target fs env peers adopt run' w' := hends
    exact ⟨run', rfl, hstop.1.sound⟩
  have hbody : wp env (Fetching D target fs) (syncBody peers target adopt run₁) (fun out w' =>
      ∃ run', out = .ok (.error (.other "DAG too deep (MAX_JOB_COMMITS)"), run') ∧
        Sound D target fs run' w') w₁ := by
    unfold syncBody
    exact SyncM.wp_stop hwalk
  refine wp_seq hbody (fun out w₂ _ h₂ => ?_) fun e w₂ _ h₂ => ?_
  · obtain ⟨run', hout, hs⟩ := h₂
    obtain rfl := Except.ok.inj hout
    exact (wp_syncFinish hs).mono (fun _ h => h) fun r w₃ _ h₃ => h₃.1
  · obtain ⟨_, he, -⟩ := h₂
    cases he

/-- The end of a run whose walk is not. -/
theorem wp_fetchMissing_within (hA : Agrees D target fs env) (hfree : CollisionFree (Served env))
    (hsup : ObjectsSupplied D target fs env peers) (htip : TipSupplied D target fs adopt)
    (hjob : ReadM.eval fs (savedJob target) = .ok none)
    (hnext : ∀ c k, D.commit c k → next c = k.parents) (hT : Taken next ∅ [target] es)
    (hin : ∀ c ∈ es, D.Commits target c) (hdeep : ¬DeepAt maxJobCommits ∅ es) (hfs : w.fs = fs)
    (hu : ¬TornObject w) :
    wp env (Fetching D target fs) (fetchMissing peers target adopt) (fun r _ => ∃ a, r = .ok a)
      w := by
  refine wp_fetchMissing_of hfs hu (fun e he => by cases hjob.symm.trans he) fun run₁ w₁ h₁ => ?_
  have hwalk : wp env (Fetching D target fs) (syncWalk peers ∅ [target] run₁)
      (Ends (fun _ _ => False) fun _ run' w' => Going D target fs run' w' ∧
        ∀ c, D.Commits target c → Visited D run' w'.fs c) w₁ := by
    have hends : wp env (Fetching D target fs) (syncWalk peers ∅ [target] run₁)
        (Ends (Stopped D target fs env peers adopt) _) w₁ := wp_syncWalk hA hfree h₁
    refine ((wp_syncWalk_taken hA hfree hsup hnext hT hin h₁).and hends).mono
      (fun _ hI => hI.1) fun out w' _ hr => ?_
    obtain ⟨⟨-, hw⟩, hends⟩ := hr
    obtain ⟨run', rfl⟩ := hw hdeep
    exact hends
  refine wp_seq (wp_syncBody_of hwalk fun _ _ _ hno => hno htip) (fun out w₂ hI₂ h₂ => ?_)
    fun e w₂ _ h₂ => ?_
  · obtain ⟨out, run'⟩ := out
    cases out with
    | ok a => exact ⟨hI₂, a, rfl⟩
    | error e => exact absurd h₂ id
  · obtain ⟨_, h₂⟩ := h₂
    exact absurd h₂ id

/-- Of a target that is not complete, a run from a job file on is all there is. -/
theorem wp_fetchDag_missing {P : Res SyncResult → VaultWorld → Prop} (hpeers : peers ≠ [])
    (hb : ReadM.eval w.fs (isComplete target) = .ok false) (hI : Fetching D target fs w)
    (h : wp env (Fetching D target fs) (fetchMissing peers target adopt) P w) :
    wp env (Fetching D target fs) (fetchDag peers target adopt) P w := by
  have hsome : ¬peers.isEmpty = true := fun he => hpeers (List.isEmpty_iff.1 he)
  unfold fetchDag
  rw [if_neg hsome]
  refine wp_read hI (fun b hb' => ?_) fun e he => ?_
  · obtain rfl := Except.ok.inj (hb.symm.trans hb')
    exact h
  · cases hb.symm.trans he

end Walk

/-- **Fetching refuses a DAG by the commits met before the last entry of the queue.** -/
theorem fetch_deep_iff (hsrc : ServedDag src target env peers) (hdest : Vacant src target fs)
    (hfree : CollisionFree (Served env)) (adopt : Bool) {es : List ContentHash}
    (hT : Taken (parentsOf src) ∅ [target] es) :
    (run env (fetchDag peers target adopt) (World.boot fs)).1 =
      fail (.other "DAG too deep (MAX_JOB_COMMITS)") ↔
        maxJobCommits < es.dropLast.toFinset.card := by
  have hA := hsrc.agrees hdest hfree
  have hsup := hsrc.objects hdest
  have hin : ∀ c ∈ es, (stored src).Commits target c := fun c => (taken_commits hT c).1
  have htarget : target ∈ es := (taken_commits hT target).2 Catalog.commits_target
  have hdeep : DeepAt maxJobCommits ∅ es ↔ maxJobCommits < es.dropLast.toFinset.card := by
    rw [deepAt_iff, Finset.empty_union]
    exact and_iff_right (List.ne_nil_of_mem htarget)
  -- there are peers, and the target is not complete
  obtain ⟨⟨k, hk⟩, -⟩ := hsrc.commit target Catalog.commits_target
  obtain ⟨peer, hpeer, -⟩ := hsrc.sendsCommit target k Catalog.commits_target hk
  have hpeers : peers ≠ [] := List.ne_nil_of_mem hpeer
  have hmissing : ReadM.eval fs (isComplete target) = .ok false := by
    obtain ⟨b, hb⟩ := isComplete_of_supplied hA hsup
    cases b with
    | false => exact hb
    | true => exact absurd hb hdest.notComplete
  have hI : Fetching (stored src) target fs (World.boot fs) := by
    obtain ⟨job, ht⟩ := exists_trace target fs
    have hg : Going (stored src) target fs ⟨job, 0, 0, 0⟩ (World.boot fs) :=
      going_start rfl (not_torn_boot fs) ht
    exact hg.settled
  rw [← hdeep]
  by_cases hd : DeepAt maxJobCommits ∅ es
  · have hrule : wp env (Fetching (stored src) target fs) (fetchMissing peers target adopt)
        (fun r _ => r = fail (.other "DAG too deep (MAX_JOB_COMMITS)")) (World.boot fs) :=
      wp_fetchMissing_deep hA hfree hsup hdest.noJob (fun _ _ => parentsOf_eq) hT hin hd rfl
        (not_torn_boot fs)
    exact iff_of_true (wp_fetchDag_missing hpeers hmissing hI hrule).post hd
  · have hrule := wp_fetchMissing_within (w := World.boot fs) hA hfree hsup
      (hdest.tipSupplied adopt) hdest.noJob (fun _ _ => parentsOf_eq) hT hin hd rfl
      (not_torn_boot fs)
    obtain ⟨a, ha⟩ := (wp_fetchDag_missing hpeers hmissing hI hrule).post
    refine iff_of_false (fun h => ?_) hd
    rw [ha] at h
    cases h

/-- **Serving and fetching apply the same bound exactly when** the DAG does not have one commit too
many, or the last entry of its queue repeats an earlier one. -/
theorem sameBound_iff (hfin : {c | (stored src).Commits target c}.Finite)
    (hsrc : ServedDag src target env peers) (hdest : Vacant src target fs)
    (hfree : CollisionFree (Served env)) (adopt : Bool) :
    SameBound src fs target env peers adopt ↔
      (dagSize src target = maxJobCommits + 1 → LastRepeats src target) := by
  -- both walks take the entries of one list; only the last entry decides at the boundary
  obtain ⟨es, hT⟩ := exists_taken_dag hfin
  have hne : es ≠ [] :=
    List.ne_nil_of_mem ((taken_commits hT target).2 Catalog.commits_target)
  unfold SameBound
  rw [and_iff_right (collect_deep_iff hfin hsrc), fetch_deep_iff hsrc hdest hfree adopt hT]
  constructor
  · intro h hsize
    -- were the last entry new, those before it would only just meet the cap
    by_contra hno
    have hlast : es.getLast hne ∉ es.dropLast := fun hmem => hno ⟨es, hT, hne, hmem⟩
    have hcard := card_dropLast hne
    rw [if_neg hlast, taken_card hT] at hcard
    omega
  · intro h
    by_cases hsize : dagSize src target = maxJobCommits + 1
    · obtain ⟨es', hT', hne', hmem⟩ := h hsize
      have hcard := card_dropLast hne'
      rw [if_pos hmem, taken_card hT'] at hcard
      rw [← fetch_deep_iff hsrc hdest hfree adopt hT, fetch_deep_iff hsrc hdest hfree adopt hT',
        hcard]
    · have hcard := card_dropLast hne
      rw [taken_card hT] at hcard
      split at hcard <;> omega

end Bound

end Model

/-! ### A chain of `MAX_JOB_COMMITS + 1` commits. -/

section Chain

/-- The hash of the commit number `n`. -/
def chainHash (n : Nat) : ContentHash where
  bytes := UInt8.ofNat (n / 256) :: UInt8.ofNat (n % 256) :: List.replicate 30 0
  length_eq := rfl

/-- The number of a commit. -/
def chainIndex (h : ContentHash) : Nat :=
  256 * (h.bytes.getD 0 0).toNat + (h.bytes.getD 1 0).toNat

/-- Commit `n + 1` has the parent `n`. -/
def chainParents : Nat → List ContentHash
  | 0 => []
  | n + 1 => [chainHash n]

def chainCommit (n : Nat) : Commit := sampleCommit (chainParents n) (UInt64.ofNat n) "c"

def chainWire (n : Nat) : Bytes := plainWire sampleAuthor (chainCommit n)

/-- BLAKE3 on the chain: commits are told apart by their times. -/
def chainDigest (b : Bytes) : ContentHash :=
  if b = wireE then treeE
  else match decodeCommitWire b with
    | .ok k => chainHash k.timestamp.toNat
    | .error _ => sampleAuthor

/-- The third-party functions on the chain. -/
@[reducible] noncomputable def chained : Crates := standIn chainDigest

/-- A disk with the first `n` commits. -/
def chainDisk : Nat → VaultFs
  | 0 => diskOf [(treePathBin treeE, wireE)]
  | n + 1 => (chainDisk n).insert (commitPathBin (chainHash n)) (chainWire n)

/-- Every peer serves the chain. -/
def chainPeer : Outside := fun n q => match q with
  | .getBlob _ hash => .ok (if hash = treeE then wireE else chainWire (chainIndex hash))
  | .now => quiet 0 n .now
  | .random k => quiet 0 n (.random k)
  | .loadSecretKey name => quiet 0 n (.loadSecretKey name)
  | .addBytes data => quiet 0 n (.addBytes data)
  | .broadcastHead id head => quiet 0 n (.broadcastHead id head)

/-- The commits from number `n` down. -/
def chainFrom : Nat → List ContentHash
  | 0 => [chainHash 0]
  | n + 1 => chainHash (n + 1) :: chainFrom n

theorem chainIndex_chainHash {n : Nat} (hn : n < 65536) : chainIndex (chainHash n) = n := by
  show 256 * (UInt8.ofNat (n / 256)).toNat + (UInt8.ofNat (n % 256)).toNat = n
  rw [UInt8.toNat_ofNat', UInt8.toNat_ofNat']
  omega

theorem chainIndex_lt (h : ContentHash) : chainIndex h < 65536 := by
  have hhigh := (h.bytes.getD 0 0).toNat_lt
  have hlow := (h.bytes.getD 1 0).toNat_lt
  unfold chainIndex
  omega

theorem chainHash_inj {n m : Nat} (hn : n < 65536) (hm : m < 65536)
    (h : chainHash n = chainHash m) : n = m := by
  rw [← chainIndex_chainHash hn, h, chainIndex_chainHash hm]

theorem chainHash_ne_treeE (n : Nat) : chainHash n ≠ treeE := by
  intro h
  have hbyte : (0 : UInt8) = 0x25 := congrArg (fun x : ContentHash => x.bytes.getD 2 0) h
  exact absurd hbyte (by decide)

theorem chainParents_length (n : Nat) : (chainParents n).length ≤ 1 := by
  cases n with
  | zero => exact Nat.zero_le 1
  | succ n => exact le_rfl

theorem uintSize_keys : uintSize 1 = 1 ∧ uintSize 2 = 1 ∧ uintSize 3 = 1 ∧ uintSize 4 = 1 ∧
    uintSize 5 = 1 ∧ uintSize 6 = 1 ∧ uintSize 7 = 1 ∧ uintSize 32 = 2 ∧ uintSize 64 = 2 := by decide

theorem zeroSignature_length : zeroSignature.length = 64 := rfl

theorem plainWire_length_le (author : ContentHash) (c : Commit) : (plainWire author c).length ≤
    34 * c.parents.length + (Text.toUtf8 c.message).length + 400 := by
  have hcount := uintSize_le c.parents.length
  have htime := uintSize_le c.timestamp.toNat
  have hmsg := uintSize_le (Text.toUtf8 c.message).length
  unfold plainWire
  simp only [List.length_append, writeMapHeader, writeArrayHeader, writeU64, pushUint_length,
    writeTstr_length, writeBstr_length, textSize, ContentHash.length_eq,
    Decodes.encodeHashes_length, domainCommit_length, zeroSignature_length, uintSize_keys]
  omega

theorem chainWire_length (n : Nat) : (chainWire n).length ≤ 1000 := by
  have hlen := plainWire_length_le sampleAuthor (chainCommit n)
  have hparents : (chainCommit n).parents.length ≤ 1 := chainParents_length n
  have hmsg : (Text.toUtf8 (chainCommit n).message).length = 1 := by
    show (Text.toUtf8 "c").length = 1
    decide
  rw [hmsg] at hlen
  show (plainWire sampleAuthor (chainCommit n)).length ≤ 1000
  omega

theorem chainWire_ne_wireE (n : Nat) : chainWire n ≠ wireE := by
  intro h
  have htake := congrArg (List.take 16) h
  have hcommit : (chainWire n).take 16 = domainCommit := by
    unfold chainWire plainWire
    rw [← domainCommit_length, List.take_left]
  rw [hcommit] at htake
  exact absurd htake (by decide)

theorem chainDisk_tree (n : Nat) : (chainDisk n).lookup (treePathBin treeE) = some wireE := by
  induction n with
  | zero => simp [chainDisk]
  | succ n ih =>
    rw [chainDisk, AList.lookup_insert_ne (by simp [treePathBin, commitPathBin]), ih]

theorem chainDisk_commit {n i : Nat} (hn : n ≤ 65536) (hi : i < n) :
    (chainDisk n).lookup (commitPathBin (chainHash i)) = some (chainWire i) := by
  induction n with
  | zero => omega
  | succ n ih =>
    by_cases heq : i = n
    · rw [heq, chainDisk, AList.lookup_insert]
    · have hne : commitPathBin (chainHash i) ≠ commitPathBin (chainHash n) := by
        intro h
        have hhash := (hexName_inj.1 (congrArg FilePath.name h)).1
        exact heq (chainHash_inj (by omega) (by omega) hhash)
      rw [chainDisk, AList.lookup_insert_ne hne]
      exact ih (by omega) (by omega)

theorem mem_chainFrom {n : Nat} {c : ContentHash} : c ∈ chainFrom n ↔ ∃ i ≤ n, c = chainHash i := by
  induction n with
  | zero => simp [chainFrom]
  | succ n ih =>
    rw [chainFrom, List.mem_cons, ih]
    constructor
    · intro h
      rcases h with h | h
      · exact ⟨n + 1, le_rfl, h⟩
      · obtain ⟨i, hi, h⟩ := h
        exact ⟨i, by omega, h⟩
    · intro h
      obtain ⟨i, hi, h⟩ := h
      by_cases heq : i = n + 1
      · exact .inl (heq ▸ h)
      · exact .inr ⟨i, by omega, h⟩

theorem chainFrom_length (n : Nat) : (chainFrom n).length = n + 1 := by
  induction n with
  | zero => rfl
  | succ n ih => rw [chainFrom, List.length_cons, ih]

theorem chainFrom_nodup {n : Nat} (hn : n < 65536) : (chainFrom n).Nodup := by
  induction n with
  | zero => exact List.nodup_singleton _
  | succ n ih =>
    refine List.nodup_cons.2 ⟨fun hmem => ?_, ih (by omega)⟩
    obtain ⟨i, hi, h⟩ := mem_chainFrom.1 hmem
    have heq := chainHash_inj hn (by omega) h
    omega

section Sample

attribute [local instance] chained

theorem encode_chain (n : Nat) : encodeCommitWire (chainCommit n) = .ok (chainWire n) := by
  refine encodeCommitWire_plain (authorToBytes_toHex sampleAuthor) rfl rfl ?_ ?_
  · have hparents : (chainCommit n).parents.length ≤ 1 := chainParents_length n
    unfold maxCommitParents
    omega
  · have hlen := chainWire_length n
    unfold isizeMax
    show (chainWire n).length ≤ _
    omega

theorem chain_of {n : Nat} (hn : n < 65536) : ContentHash.of (chainWire n) = chainHash n := by
  have hd : decodeCommitWire (chainWire n) = .ok (chainCommit n).normal :=
    (decodeCommitWire_encodeCommitWire (encode_chain n)).2
  have htime : (chainCommit n).normal.timestamp.toNat = n := by
    show (UInt64.ofNat n).toNat = n
    rw [UInt64.toNat_ofNat']
    omega
  show chainDigest (chainWire n) = chainHash n
  rw [chainDigest, if_neg (chainWire_ne_wireE n), hd]
  exact congrArg chainHash htime

theorem chain_ofTree : ContentHash.of wireE = treeE := by
  show chainDigest wireE = treeE
  exact if_pos rfl

theorem chain_signed (n : Nat) : verifyCommitSignature (chainCommit n).normal = .ok () := by
  unfold verifyCommitSignature
  rw [(chainCommit n).signatureBytes_normal]
  exact if_pos rfl

theorem chain_imports {n : Nat} (hn : n < 65536) :
    commitKind.Imports (chainHash n) (chainWire n) (chainCommit n).normal := by
  rw [← chain_of hn]
  exact imports_commitWire (encode_chain n) (chain_signed n)

theorem chain_importsTree : treeKind.Imports treeE wireE Tree.new := by
  rw [← chain_ofTree]
  exact imports_treeWire encodeTreeWire_new fun p hp => by cases hp

theorem chain_loadTree (n : Nat) : ReadM.eval (chainDisk n) (loadTree treeE) = .ok Tree.new :=
  eval_loadTree_of encodeTreeWire_new (fun p hp => by cases hp) chain_ofTree (chainDisk_tree n)

theorem chain_load {n i : Nat} (hn : n ≤ 65536) (hi : i < n) :
    ReadM.eval (chainDisk n) (loadCommit (chainHash i)) = .ok (chainCommit i).normal :=
  eval_loadCommit_of (encode_chain i) (chain_of (by omega)) (chainDisk_commit hn hi)

/-- The queue of the chain pops every commit once. -/
theorem chain_taken {n m : Nat} (hn : n ≤ 65536) (hm : m < n) {seen : Finset ContentHash}
    (hseen : ∀ i ≤ m, chainHash i ∉ seen) :
    Taken (parentsOf (chainDisk n)) seen [chainHash m] (chainFrom m) := by
  have hparents : ∀ i < n, parentsOf (chainDisk n) (chainHash i) = chainParents i :=
    fun i hi => parentsOf_eq (chain_load hn hi)
  induction m generalizing seen with
  | zero =>
    refine .fresh (hseen 0 le_rfl) ?_
    rw [hparents 0 hm]
    exact .done
  | succ m ih =>
    refine .fresh (hseen (m + 1) le_rfl) ?_
    rw [hparents (m + 1) hm]
    refine ih (by omega) fun i hi hmem => ?_
    rcases Finset.mem_insert.1 hmem with h | h
    · have heq := chainHash_inj (by omega) (by omega) h
      omega
    · exact hseen i (by omega) h

theorem chain_commits {n m : Nat} (hn : n ≤ 65536) (hm : m < n) {c : ContentHash} :
    (stored (chainDisk n)).Commits (chainHash m) c ↔ ∃ i ≤ m, c = chainHash i := by
  rw [← taken_commits (chain_taken hn hm fun i _ => Finset.notMem_empty _), mem_chainFrom]

theorem chain_trees {n m : Nat} (hn : n ≤ 65536) (hm : m < n) {h : ContentHash}
    (ht : (stored (chainDisk n)).Trees (chainHash m) h) : h = treeE := by
  obtain ⟨c, k, hc, hk, rfl⟩ := ht
  obtain ⟨i, hi, rfl⟩ := (chain_commits hn hm).1 hc
  obtain rfl := Except.ok.inj ((chain_load hn (by omega)).symm.trans hk)
  rfl

theorem chain_chunks {n m : Nat} (hn : n ≤ 65536) (hm : m < n) {ch : ContentHash} :
    ¬(stored (chainDisk n)).Chunks (chainHash m) ch := by
  intro h
  obtain ⟨t, tr, ht, htr, hmem⟩ := h
  obtain rfl := chain_trees hn hm ht
  obtain rfl := Except.ok.inj ((chain_loadTree n).symm.trans htr)
  cases hmem

theorem chain_served {n m : Nat} (hn : n ≤ 65536) (hm : m < n) :
    ServedDag (chainDisk n) (chainHash m) chainPeer ["server"] where
  commit c hc := by
    obtain ⟨i, hi, rfl⟩ := (chain_commits hn hm).1 hc
    refine ⟨⟨_, chain_load hn (by omega)⟩, ?_⟩
    exact (commitKind.servable_bin (chainDisk_commit hn (by omega))).2 (chain_of (by omega))
  tree h ht := by
    obtain rfl := chain_trees hn hm ht
    exact ⟨⟨_, chain_loadTree n⟩, (treeKind.servable_bin (chainDisk_tree n)).2 chain_ofTree⟩
  signed c k hc hk := by
    obtain ⟨i, hi, rfl⟩ := (chain_commits hn hm).1 hc
    obtain rfl := Except.ok.inj ((chain_load hn (by omega)).symm.trans hk)
    exact chain_signed i
  sendsCommit c k hc hk := by
    obtain ⟨i, hi, rfl⟩ := (chain_commits hn hm).1 hc
    obtain rfl := Except.ok.inj ((chain_load hn (by omega)).symm.trans hk)
    have hsize : (chainWire i).length ≤ maxBlobBytes := by
      have hlen := chainWire_length i
      unfold maxBlobBytes
      omega
    refine ⟨"server", List.mem_singleton_self _, chainWire i, ⟨fun _ => ?_, hsize⟩,
      chain_imports (by omega)⟩
    show Except.ok (if chainHash i = treeE then wireE else chainWire (chainIndex (chainHash i))) = _
    rw [if_neg (chainHash_ne_treeE i), chainIndex_chainHash (by omega)]
  sendsTree h tr ht htr := by
    obtain rfl := chain_trees hn hm ht
    obtain rfl := Except.ok.inj ((chain_loadTree n).symm.trans htr)
    exact ⟨"server", List.mem_singleton_self _, wireE, ⟨fun _ => rfl, by decide⟩,
      chain_importsTree⟩
  sendsChunk ch hch := absurd hch (chain_chunks hn hm)

theorem chainPeer_collisionFree : CollisionFree (Served chainPeer) := by
  have hserved : ∀ b, Served chainPeer b → b = wireE ∨ ∃ i < 65536, b = chainWire i := by
    intro b h
    obtain ⟨n, peer, hash, h⟩ := h
    have h : (Except.ok (if hash = treeE then wireE else chainWire (chainIndex hash)) :
        Except SoalError Bytes) = .ok b := h
    by_cases htree : hash = treeE
    · rw [if_pos htree] at h
      exact .inl (Except.ok.inj h).symm
    · rw [if_neg htree] at h
      exact .inr ⟨chainIndex hash, chainIndex_lt hash, (Except.ok.inj h).symm⟩
  intro a b ha hb h
  rcases hserved a ha with rfl | ⟨i, hi, rfl⟩
  · rcases hserved b hb with rfl | ⟨j, hj, rfl⟩
    · rfl
    · rw [chain_ofTree, chain_of hj] at h
      exact absurd h.symm (chainHash_ne_treeE j)
  · rcases hserved b hb with rfl | ⟨j, hj, rfl⟩
    · rw [chain_ofTree, chain_of hi] at h
      exact absurd h (chainHash_ne_treeE i)
    · rw [chain_of hi, chain_of hj] at h
      rw [chainHash_inj hi hj h]

/-- The chain is fetched although serving refuses it. -/
theorem chain_not_sameBound : ¬∀ (src fs : VaultFs) (target : ContentHash) (env : Outside)
    (peers : List String) (adopt : Bool), {c | (stored src).Commits target c}.Finite →
    ServedDag src target env peers → Vacant src target fs → CollisionFree (Served env) →
    SameBound src fs target env peers adopt := by
  intro h
  have hlt : maxJobCommits < 65536 := by decide
  -- the chain ends in commit number `MAX_JOB_COMMITS`
  have hT : Taken (parentsOf (chainDisk (maxJobCommits + 1))) ∅ [chainHash maxJobCommits]
      (chainFrom maxJobCommits) :=
    chain_taken (by omega) (by omega) fun i _ => Finset.notMem_empty _
  have hsrc := chain_served (n := maxJobCommits + 1) (m := maxJobCommits) (by omega) (by omega)
  have hdest := empty_vacant (chainDisk (maxJobCommits + 1)) (chainHash maxJobCommits)
  have hnodup := chainFrom_nodup hlt
  have hsize : dagSize (chainDisk (maxJobCommits + 1)) (chainHash maxJobCommits) =
      maxJobCommits + 1 := by
    rw [← taken_card hT, List.toFinset_card_of_nodup hnodup, chainFrom_length]
  have hbefore : (chainFrom maxJobCommits).dropLast.toFinset.card = maxJobCommits := by
    rw [List.toFinset_card_of_nodup (hnodup.sublist (List.dropLast_sublist _)), List.length_dropLast,
      chainFrom_length]
    omega
  have hfin : {c | (stored (chainDisk (maxJobCommits + 1))).Commits
      (chainHash maxJobCommits) c}.Finite := by
    refine (Finset.finite_toSet (chainFrom maxJobCommits).toFinset).subset fun c hc => ?_
    exact List.mem_toFinset.2 ((taken_commits hT c).2 hc)
  have hsame := h _ ∅ _ chainPeer ["server"] false hfin hsrc hdest chainPeer_collisionFree
  have hdeep := hsame.2.2 (by omega)
  rw [fetch_deep_iff hsrc hdest chainPeer_collisionFree false hT, hbefore] at hdeep
  omega

end Sample

end Chain

/-! ### The note and its overwriting. -/

section Two

attribute [local instance] noteSample

/-- The rule at two commits. -/
theorem twoNotes_sameBound_iff :
    SameBound twoNotes ∅ hashW notesPeer ["bad", "good"] true ↔
      (dagSize twoNotes hashW = maxJobCommits + 1 → LastRepeats twoNotes hashW) := by
  refine sameBound_iff ?_ (twoNotes_dag.servedDag twoNotes_served) (empty_vacant _ _)
    notesPeer_collisionFree true
  exact (Set.toFinite {hashW, hashN}).subset fun c hc => twoNotes_commits hc

end Two

end Soal

/-
  Soal.Sync.Fetch — what a whole sync does.

  The walk visits the whole DAG of the target; after it every commit and tree of the DAG loads and
  every chunk is checked off.  The rule of `fetchDag` says what is on disk at any end, what a success
  means, and that a failure shows that something was not supplied.
-/
import Soal.Sync.Walk
import Soal.Vault.Adopt

namespace Soal

open FileProg Worklist

variable [Crates]

/-! ## §1. The walk. -/

/-- The commit and its tree load, and the chunks of the tree are checked off. -/
def Visited (D : Catalog) (run : SyncRun) (fs : VaultFs) (c : ContentHash) : Prop :=
  ∃ k tr, ReadM.eval fs (loadCommit c) = .ok k ∧ D.commit c k ∧
    ReadM.eval fs (loadTree k.tree) = .ok tr ∧ D.tree k.tree tr ∧
    ∀ ch ∈ tr.allChunkHashes, ch ∈ run.job.doneChunks

theorem Visited.after {D : Catalog} {run run' : SyncRun} {fs fs' : VaultFs} {c : ContentHash}
    (h : Visited D run fs c) (ha : After run run' fs fs') : Visited D run' fs' c := by
  obtain ⟨k, tr, hk, hDk, htr, hDtr, hch⟩ := h
  exact ⟨k, tr, ha.commits.load_ok hk, hDk, ha.trees.load_ok htr, hDtr,
    fun ch hc => ha.doneChunks (hch ch hc)⟩

section Walk

variable {D : Catalog} {target : ContentHash} {fs : VaultFs} {env : Outside} {peers : List String}
  {adopt : Bool} {w : VaultWorld} {run : SyncRun}

/-- **One visit.** -/
theorem wp_syncVisit {c : ContentHash} (hA : Agrees D target fs env)
    (hfree : CollisionFree (Served env)) (h : Going D target fs run w) (hc : D.Commits target c) :
    wp env (Fetching D target fs) (syncVisit peers c run)
      (Ends (Missed D target fs env peers) fun parents run' w' =>
        Going D target fs run' w' ∧ After run run' w.fs w'.fs ∧ Visited D run' w'.fs c ∧
        ∃ k, D.commit c k ∧ parents = k.parents) w := by
  unfold syncVisit
  refine SyncM.wp_then (wp_syncCommit hA hfree h hc) fun k run₁ w₁ h₁ => ?_
  obtain ⟨h₁, ha₁, hk, hDk⟩ := h₁
  have ht : D.Trees target k.tree := ⟨c, k, hc, hDk, rfl⟩
  refine SyncM.wp_then (wp_syncTree hA hfree h₁ ht) fun tr run₂ w₂ h₂ => ?_
  obtain ⟨h₂, ha₂, htr, hDtr⟩ := h₂
  refine SyncM.wp_then (wp_syncChunks h₂ fun ch hch => ⟨k.tree, tr, ht, hDtr, hch⟩)
    fun _ run₃ w₃ h₃ => ?_
  obtain ⟨h₃, ha₃, hd₃⟩ := h₃
  refine SyncM.wp_pure h₃.settled ⟨h₃, (ha₁.trans ha₂).trans ha₃, ?_, k, hDk, rfl⟩
  exact ⟨k, tr, (ha₂.trans ha₃).commits.load_ok hk, hDk, ha₃.trees.load_ok htr, hDtr, hd₃⟩

/-- **The walk**, by an invariant `J` of the commits visited so far that a visit of another commit of
the DAG keeps.  The induction is on the recursion of `syncWalk`; the frontier of the search carries
it. -/
theorem wp_syncWalk_of {I : VaultWorld → Prop} {S : SyncRun → VaultWorld → Prop}
    {J : Finset ContentHash → SyncRun → VaultWorld → Prop} {visited : Finset ContentHash}
    {queue : List ContentHash} (hfun : D.Functional) (hI : ∀ v run w, J v run w → I w)
    (hdeep : ∀ v run w, J v run w → v.card > maxJobCommits → (∀ c ∈ v, D.Commits target c) →
      S run w)
    (hvisit : ∀ v c run w, J v run w → D.Commits target c →
      wp env I (syncVisit peers c run) (Ends S fun parents run' w' => J (insert c v) run' w' ∧
        ∃ k, D.commit c k ∧ parents = k.parents) w)
    (hf : Frontier D.Parent (· = target) visited queue) (h : J visited run w) :
    wp env I (syncWalk peers visited queue run) (Ends S fun _ run' w' =>
      ∃ v, J v run' w' ∧ ∀ c, c ∈ v ↔ D.Commits target c) w := by
  induction visited, queue using syncWalk.induct generalizing run w with
  | case1 visited =>
    rw [syncWalk]
    exact SyncM.wp_pure (hI _ _ _ h) ⟨visited, h, fun c => hf.seen_iff⟩
  | case2 visited c queue hcap =>
    rw [syncWalk, dif_pos hcap]
    exact SyncM.wp_reject (hI _ _ _ h) (hdeep _ _ _ h hcap fun x hx => hf.sound x (.inl hx))
  | case3 visited c queue hcap hmem ih =>
    rw [syncWalk, dif_neg hcap, dif_pos hmem]
    exact ih (hf.skip hmem) h
  | case4 visited c queue hcap hmem ih =>
    rw [syncWalk, dif_neg hcap, dif_neg hmem]
    have hc : D.Commits target c := hf.sound c (.inr List.mem_cons_self)
    refine SyncM.wp_then (hvisit _ _ _ _ h hc) fun parents run₁ w₁ h₁ => ?_
    obtain ⟨h₁, k, hDk, rfl⟩ := h₁
    have hnext : ∀ y, y ∈ queue ++ k.parents ↔ D.Parent c y ∨ y ∈ queue := by
      intro y
      rw [List.mem_append, or_comm]
      refine or_congr_left ⟨fun hy => ⟨k, hDk, hy⟩, fun ⟨k', hk', hy⟩ => ?_⟩
      rwa [hfun.commit c k k' hDk hk']
    exact ih k.parents (hf.visit hnext) h₁

/-- What the walk keeps: every visited commit loads, with its tree and chunks checked off. -/
def Visiting (D : Catalog) (target : ContentHash) (fs : VaultFs) (v : Finset ContentHash)
    (run : SyncRun) (w : VaultWorld) : Prop :=
  Going D target fs run w ∧ ∀ c ∈ v, Visited D run w.fs c

/-- A visit adds its commit. -/
theorem Visiting.insert {v : Finset ContentHash} {run' : SyncRun} {w' : VaultWorld}
    {c : ContentHash} (h : Visiting D target fs v run w) (hg : Going D target fs run' w')
    (ha : After run run' w.fs w'.fs) (hc : Visited D run' w'.fs c) :
    Visiting D target fs (Insert.insert c v) run' w' := by
  refine ⟨hg, fun x hx => ?_⟩
  rcases Finset.mem_insert.1 hx with rfl | hx
  · exact hc
  · exact (h.2 x hx).after ha

/-- A DAG that was visited too deep is not small. -/
theorem Visiting.stopped {v : Finset ContentHash} (h : Visiting D target fs v run w)
    (hcap : v.card > maxJobCommits) (hv : ∀ c ∈ v, D.Commits target c) :
    Stopped D target fs env peers adopt run w := by
  refine ⟨h.1, fun hsup => ?_⟩
  obtain ⟨all, hcard, hall⟩ := hsup.small
  have hle : v.card ≤ all.card := Finset.card_le_card fun x hx => hall x (hv x hx)
  omega

/-- The walk visits the whole DAG. -/
theorem wp_syncWalk (hA : Agrees D target fs env) (hfree : CollisionFree (Served env))
    (h : Going D target fs run w) :
    wp env (Fetching D target fs) (syncWalk peers ∅ [target] run)
      (Ends (Stopped D target fs env peers adopt) fun _ run' w' => Going D target fs run' w' ∧
        ∀ c, D.Commits target c → Visited D run' w'.fs c) w := by
  refine SyncM.wp_weaken (wp_syncWalk_of (J := Visiting D target fs) hA.functional
    (fun _ _ _ h => h.1.settled) (fun _ _ _ h => h.stopped) (fun v c run w hv hc => ?_)
    (.init fun x => by simp) ⟨h, by simp⟩) fun _ run' w' h' => ?_
  · refine SyncM.wp_relax (wp_syncVisit hA hfree hv.1 hc) (fun _ _ h => h.stopped)
      fun parents run' w' h' => ?_
    obtain ⟨hg, ha, hvc, hk⟩ := h'
    exact ⟨hv.insert hg ha hvc, hk⟩
  · obtain ⟨v, ⟨hg, hv⟩, hall⟩ := h'
    exact ⟨hg, fun c hc => hv c ((hall c).2 hc)⟩

end Walk

/-! ## §2. The end of a run. -/

/-- What the walk established: the whole DAG loads, and a chunk of it is stored unless the resumed
job lists it although it was not there. -/
structure Walked (D : Catalog) (target : ContentHash) (fs fs' : VaultFs) : Prop where
  visited : ∀ c, D.Commits target c → ∃ k tr, ReadM.eval fs' (loadCommit c) = .ok k ∧
    D.commit c k ∧ ReadM.eval fs' (loadTree k.tree) = .ok tr ∧ D.tree k.tree tr ∧
    ∀ ch ∈ tr.allChunkHashes, chunkPath ch ∈ fs' ↔
      chunkPath ch ∈ fs ∨ ¬CheckedOff SyncJob.doneChunks fs target ch
  complete : Complete fs' target

/-- What a successful run leaves. -/
structure Fetched (D : Catalog) (target : ContentHash) (fs : VaultFs) (adopt : Bool)
    (fs' : VaultFs) : Prop where
  synced : Synced D target fs fs'
  walked : Walked D target fs fs'
  adopts : adopt = true → ∃ heads, ReadM.eval fs listHeadsFileOnly = .ok heads ∧
    ReadM.eval fs' head = .ok (some target) ∧
    ReadM.eval fs' listHeadsFileOnly = .ok (insert target heads)
  roots : ∀ p : FilePath VaultDir, p.dir = .root →
    (adopt = true → p ≠ headFile ∧ p ≠ headsFile) → fs'.lookup p = fs.lookup p

/-- What a failed run leaves. -/
def Failed (D : Catalog) (target : ContentHash) (fs : VaultFs) (env : Outside)
    (peers : List String) (adopt : Bool) (run : SyncRun) (w : VaultWorld) : Prop :=
  Sound D target fs run w ∧ ¬Supplied D target fs env peers adopt

section Ends

variable {D : Catalog} {target : ContentHash} {fs : VaultFs} {env : Outside} {peers : List String}
  {adopt : Bool} {w : VaultWorld} {run : SyncRun}

theorem Walked.congr {fs' fs'' : VaultFs} (h : Walked D target fs fs')
    (hl : ∀ p : FilePath VaultDir, p.dir = .commits ∨ p.dir = .trees ∨ p.dir = .chunks →
      fs''.lookup p = fs'.lookup p) : Walked D target fs fs'' := by
  refine ⟨fun c hc => ?_, (complete_congr hl target).2 h.complete⟩
  obtain ⟨k, tr, hk, hDk, htr, hDtr, hch⟩ := h.visited c hc
  refine ⟨k, tr, (eval_loadCommit_congr (fun p hp => hl p (.inl hp)) c).trans hk, hDk,
    (eval_loadTree_congr (fun p hp => hl p (.inr (.inl hp))) _).trans htr, hDtr, fun ch hc => ?_⟩
  rw [mem_congr (hl _ (.inr (.inr rfl)))]
  exact hch ch hc

/-- The lists of the job and the chunks that were added tell which chunks are stored. -/
theorem Going.walked (h : Going D target fs run w)
    (hv : ∀ c, D.Commits target c → Visited D run w.fs c) (hc : Complete w.fs target) :
    Walked D target fs w.fs := by
  refine ⟨fun c hcc => ?_, hc⟩
  obtain ⟨k, tr, hk, hDk, htr, hDtr, hdone⟩ := hv c hcc
  refine ⟨k, tr, hk, hDk, htr, hDtr, fun ch hch => ⟨fun hp => ?_, fun hp => ?_⟩⟩
  · by_cases hfs : chunkPath ch ∈ fs
    · exact .inl hfs
    · exact .inr (h.synced.chunks.fresh ch hfs hp)
  · rcases hp with hp | hp
    · exact (mem_congr (h.synced.chunks.kept ch hp)).2 hp
    · exact (h.trace.chunks ch (hdone ch hch)).resolve_left hp

/-- When the chunks of the target were supplied, it is complete after the walk. -/
theorem complete_of_supplied (h : Going D target fs run w)
    (hv : ∀ c, D.Commits target c → Visited D run w.fs c)
    (hsup : TipSupplied D target fs adopt) : Complete w.fs target := by
  obtain ⟨k, tr, hk, hDk, htr, hDtr, hdone⟩ := hv target Catalog.commits_target
  refine ⟨k, tr, hk, htr, fun ch hch => ?_⟩
  rcases h.trace.chunks ch (hdone ch hch) with hs | hp
  · have hp := hsup.tip k tr hDk hDtr ch hch hs
    exact (mem_congr (h.synced.chunks.kept ch hp)).2 hp
  · exact hp

omit [Crates] in
/-- A HEADS file that was cut reads as empty. -/
theorem eval_listHeadsFileOnly_cut :
    ReadM.eval (w.change (.truncate headsFile)).fs listHeadsFileOnly = .ok ∅ := by
  refine eval_listHeadsFileOnly_written ?_
  rw [World.lookup_truncated, if_pos rfl, headsBody, Finset.sort_empty]
  rfl

/-- Adopting the target touches only HEAD and HEADS. -/
theorem wp_adopt (h : Going D target fs run w) :
    wp env (Fetching D target fs) (setHeadPublic target) (fun r w' =>
      (∃ e, r = .error e ∧ Sound D target fs run w' ∧
        ((ReadM.eval w.fs (loadCommit target) = .error e) ∨
          ReadM.eval fs listHeadsFileOnly = .error e)) ∨
      ∃ heads, ReadM.eval fs listHeadsFileOnly = .ok heads ∧ r = .ok () ∧
        Sound D target fs run w' ∧ w' = adopted w target heads) w := by
  have hfile : ReadM.eval w.fs listHeadsFileOnly = ReadM.eval fs listHeadsFileOnly :=
    eval_listHeadsFileOnly_congr (h.roots headsFile rfl)
  -- every state on the way differs in root files only
  have hsound : ∀ w' : VaultWorld, (∀ p : FilePath VaultDir, p.dir ≠ .root →
      w'.fs.lookup p = w.fs.lookup p) → HeadsKept fs w'.fs → ¬TornObject w' →
      Sound D target fs run w' := by
    intro w' hl hh hu
    have hpre : ∀ p : FilePath VaultDir, p.dir ≠ .root → p ∈ w.fs → p ∈ w'.fs := fun p hp hm =>
      (mem_congr (hl p hp)).2 hm
    refine ⟨h.synced.scratch fun p hp => hl p fun hd => hp (.inr (.inr hd)), hh, hu, ?_⟩
    exact h.trace.mono (fun x => Or.imp (hpre _ nofun) (hpre _ nofun))
      (fun x => Or.imp (hpre _ nofun) (hpre _ nofun)) fun x => hpre _ nofun
  have hroot : ∀ p : FilePath VaultDir, p.dir ≠ .root → p ≠ headFile ∧ p ≠ headsFile := by
    intro p hp
    constructor <;> rintro rfl <;> exact hp rfl
  have hkept : HeadsKept fs w.fs := headsKept_of_roots h.roots
  have hset : Sound D target fs run (headSet w target) :=
    hsound _ (fun p hp => lookup_headSet (hroot p hp).1)
      (hkept.congr (lookup_headSet (by decide))) (tornObject_change nofun)
  have hadopted : ∀ heads, Sound D target fs run (adopted w target heads) := fun heads =>
    hsound _ (fun p hp => lookup_adopted (hroot p hp).1 (hroot p hp).2)
      (fun _ => ⟨_, eval_listHeadsFileOnly_adopted⟩) (tornObject_change nofun)
  refine (wp_setHeadPublic h.settled fun _ => ⟨?_, hset.settled, fun heads _ => ⟨?_, ?_⟩⟩).mono
    (fun _ hI => hI) fun r w' _ hr => ?_
  · refine (hsound _ (fun p hp => ?_) (hkept.congr ?_) (tornObject_change ?_)).settled
    · rw [World.lookup_truncated, if_neg (hroot p hp).1]
    · rw [World.lookup_truncated, if_neg (by decide)]
    · rintro p hp
      cases hp
      exact ⟨nofun, nofun⟩
  · refine (hsound _ (fun p hp => ?_) (fun _ => ⟨_, eval_listHeadsFileOnly_cut⟩)
      (tornObject_change ?_)).settled
    · rw [World.lookup_truncated, if_neg (hroot p hp).2, lookup_headSet (hroot p hp).1]
    · rintro p hp
      cases hp
      exact ⟨nofun, nofun⟩
  · exact (hadopted heads).settled
  · rcases hr with ⟨e, rfl, he, rfl⟩ | ⟨k, -, ⟨e, rfl, he, rfl⟩ | ⟨heads, hheads, rfl, rfl⟩⟩
    · exact .inl ⟨e, rfl, h.sound, .inl he⟩
    · exact .inl ⟨e, rfl, hset, .inr (hfile ▸ he)⟩
    · exact .inr ⟨heads, hfile ▸ hheads, rfl, hadopted heads, rfl⟩

/-- Only the lists of a job matter. -/
theorem Going.sameLists {run' : SyncRun} (h : Going D target fs run w)
    (hs : SameLists run.job run'.job) : Going D target fs run' w :=
  h.relisted (h.trace.sameLists hs)

/-- **The body of a run, after its walk**: it leaves the whole DAG, or what its end needs was not
supplied. -/
theorem wp_syncBody_of {T : SyncRun → VaultWorld → Prop}
    (hwalk : wp env (Fetching D target fs) (syncWalk peers ∅ [target] run)
      (Ends T fun _ run' w' => Going D target fs run' w' ∧
        ∀ c, D.Commits target c → Visited D run' w'.fs c) w)
    (hend : ∀ run' w', Sound D target fs run' w' → ¬TipSupplied D target fs adopt → T run' w') :
    wp env (Fetching D target fs) (syncBody peers target adopt run)
      (Ends T fun _ _ w' => Fetched D target fs adopt w'.fs) w := by
  unfold syncBody
  refine SyncM.wp_then hwalk fun _ run₁ w₁ h₁ => ?_
  obtain ⟨h₁, hv₁⟩ := h₁
  have h₁' : Going D target fs { run₁ with job := { run₁.job with state := .verifying } } w₁ :=
    h₁.sameLists ⟨rfl, rfl, rfl, rfl⟩
  have hv₁' : ∀ c, D.Commits target c →
      Visited D { run₁ with job := { run₁.job with state := .verifying } } w₁.fs c := hv₁
  refine SyncM.wp_modify (SyncM.wp_then h₁'.wp_checkpoint fun _ run₂ w₂ h₂ => ?_)
  obtain ⟨h₂, ha₂⟩ := h₂
  have hv₂ : ∀ c, D.Commits target c → Visited D run₂ w₂.fs c := fun c hc => (hv₁' c hc).after ha₂
  have hnot : ReadM.eval w₂.fs (isComplete target) ≠ .ok true → T run₂ w₂ := fun hne =>
    hend run₂ w₂ h₂.sound fun hsup =>
      hne (eval_isComplete_iff.2 (complete_of_supplied h₂ hv₂ hsup))
  -- the last checkpoint
  have hseal : ∀ w₃, Sound D target fs run₂ w₃ → (Sound D target fs run₂ w₃ →
      ∀ w₄ : VaultWorld, Synced D target fs w₄.fs →
        (∀ p : FilePath VaultDir, p.dir ≠ .jobs → w₄.fs.lookup p = w₃.fs.lookup p) →
        Fetched D target fs adopt w₄.fs) →
      wp env (Fetching D target fs) ((SyncM.setState .done >>= fun _ => SyncM.checkpoint >>= fun _ =>
        SyncM.get >>= fun run => (pure ⟨target, run.commitsImported, run.treesImported,
          run.chunksImported, adopt⟩ : SyncM SyncResult)) run₂)
        (Ends T fun _ _ w' => Fetched D target fs adopt w'.fs) w₃ := by
    intro w₃ h₃ hdone
    have h₃' : Sound D target fs { run₂ with job := { run₂.job with state := .done } } w₃ :=
      ⟨h₃.synced, h₃.heads, h₃.untorn, h₃.trace.sameLists ⟨rfl, rfl, rfl, rfl⟩⟩
    refine SyncM.wp_modify (SyncM.wp_then (wp_checkpoint h₃') fun _ run₄ w₄ h₄ => ?_)
    obtain ⟨h₄, -, hl₄⟩ := h₄
    exact SyncM.wp_get (SyncM.wp_pure h₄.settled (hdone h₃ w₄ h₄.synced hl₄))
  refine SyncM.wp_attempt_read h₂.settled (fun b hb => ?_) (fun e he => ?_)
  · cases b with
    | false => exact SyncM.wp_reject h₂.settled (hnot fun ht => by cases hb.symm.trans ht)
    | true =>
      have hwalked := h₂.walked hv₂ (eval_isComplete_iff.1 hb)
      cases adopt with
      | false =>
        refine hseal w₂ h₂.sound fun _ w₄ hs₄ hl₄ => ⟨hs₄, ?_, nofun, fun p hp _ => ?_⟩
        · refine hwalked.congr fun p hp => hl₄ p ?_
          rcases hp with hp | hp | hp <;> rw [hp] <;> decide
        · rw [hl₄ p (by rw [hp]; decide), h₂.roots p hp]
      | true =>
        refine SyncM.wp_attempt_bind (wp_adopt h₂) (fun _ w₃ _ h₃ => ?_) (fun e w₃ _ h₃ => ?_)
        · rcases h₃ with ⟨e, he, -⟩ | ⟨heads, hheads, -, hs₃, rfl⟩
          · cases he
          refine hseal _ hs₃ fun _ w₄ hs₄ hl₄ =>
            ⟨hs₄, hwalked.congr fun p hp => ?_, fun _ => ⟨heads, hheads, ?_, ?_⟩, fun p hp hne => ?_⟩
          · have hdir : p.dir ≠ .jobs ∧ p.dir ≠ .root := by
              rcases hp with hp | hp | hp <;> rw [hp] <;> decide
            rw [hl₄ p hdir.1]
            refine lookup_adopted ?_ ?_ <;> rintro rfl <;> exact hdir.2 rfl
          · exact (eval_head_congr (hl₄ headFile (by decide))).trans eval_head_adopted
          · exact (eval_listHeadsFileOnly_congr (hl₄ headsFile (by decide))).trans
              eval_listHeadsFileOnly_adopted
          · obtain ⟨hh, hhs⟩ := hne rfl
            rw [hl₄ p (by rw [hp]; decide), lookup_adopted hh hhs, h₂.roots p hp]
        · rcases h₃ with ⟨e', -, hs₃, hwhy⟩ | ⟨heads, -, he, -⟩
          · refine hend run₂ w₃ hs₃ fun hsup => ?_
            rcases hwhy with hload | hheads
            · obtain ⟨k, tr, hk, -⟩ := hwalked.complete
              cases hload.symm.trans hk
            · obtain ⟨heads, hok⟩ := hsup.heads rfl
              cases hheads.symm.trans hok
          · cases he
  · exact hnot fun ht => by cases he.symm.trans ht

/-- **The body of a run**: it leaves the whole DAG, or something was not supplied. -/
theorem wp_syncBody (hA : Agrees D target fs env) (hfree : CollisionFree (Served env))
    (h : Going D target fs run w) :
    wp env (Fetching D target fs) (syncBody peers target adopt run)
      (Ends (Failed D target fs env peers adopt) fun _ _ w' => Fetched D target fs adopt w'.fs)
      w := by
  apply wp_syncBody_of
  · exact SyncM.wp_relax (wp_syncWalk hA hfree h) (fun _ _ hstop => ⟨hstop.1.sound, hstop.2⟩)
      fun _ _ _ hr => hr
  · exact fun _ _ hs hno => ⟨hs, fun hsup => hno hsup.toTipSupplied⟩

end Ends

/-! ## §3. A whole sync. -/

/-- The shortcut for a complete target: objects stay as they are. -/
structure Shortcut (target : ContentHash) (fs : VaultFs) (adopt : Bool) (fs' : VaultFs) : Prop where
  other : ∀ p, (adopt = true → p ≠ headFile ∧ p ≠ headsFile) → fs'.lookup p = fs.lookup p
  adopts : adopt = true → ∃ heads, ReadM.eval fs listHeadsFileOnly = .ok heads ∧
    ReadM.eval fs' head = .ok (some target) ∧
    ReadM.eval fs' listHeadsFileOnly = .ok (insert target heads)

section Whole

variable {D : Catalog} {target : ContentHash} {fs : VaultFs} {env : Outside} {peers : List String}
  {adopt : Bool} {w : VaultWorld}

theorem checkedOff_iff {done : SyncJob → Finset ContentHash} {job : SyncJob} {h : ContentHash}
    (hjob : ReadM.eval fs (savedJob target) = .ok (some job)) :
    CheckedOff done fs target h ↔ h ∈ done job := by
  constructor
  · rintro ⟨job', hjob', hh⟩
    cases hjob.symm.trans hjob'
    exact hh
  · exact fun hh => ⟨job, hjob, hh⟩

theorem not_checkedOff {done : SyncJob → Finset ContentHash} {h : ContentHash}
    (hjob : ∀ job, ReadM.eval fs (savedJob target) ≠ .ok (some job)) :
    ¬CheckedOff done fs target h := fun ⟨job, hj, _⟩ => hjob job hj

/-- A resumed job is the target's. -/
theorem target_of_savedJob {job : SyncJob}
    (h : ReadM.eval fs (savedJob target) = .ok (some job)) : job.target = target := by
  unfold savedJob at h
  simp only [ReadM.eval_bind, ReadM.eval_pathExists, ReadM.eval_ite, ok_bind] at h
  split at h
  next =>
    obtain ⟨s, -, h⟩ := bind_ok_iff.1 h
    have h : resumableJob target s = some job := Except.ok.inj h
    unfold resumableJob at h
    split at h
    next job' _ =>
      split at h
      next hc =>
        cases h
        exact hc.1
      next => cases h
    next => cases h
  next => cases h

/-- The resumed job traces the disk it was read from. -/
theorem trace_saved {job : SyncJob} (h : ReadM.eval fs (savedJob target) = .ok (some job)) :
    Trace target fs fs job where
  target_eq := target_of_savedJob h
  oldCommits _ := (checkedOff_iff h).1
  oldTrees _ := (checkedOff_iff h).1
  oldChunks _ := (checkedOff_iff h).1
  commits _ hx := .inl ((checkedOff_iff h).2 hx)
  trees _ hx := .inl ((checkedOff_iff h).2 hx)
  chunks _ hx := .inl ((checkedOff_iff h).2 hx)

/-- So does an empty job, when there is none to resume. -/
theorem trace_empty {job : SyncJob} (h : ∀ job, ReadM.eval fs (savedJob target) ≠ .ok (some job))
    (ht : job.target = target) (hc : job.doneCommits = ∅) (htr : job.doneTrees = ∅)
    (hch : job.doneChunks = ∅) : Trace target fs fs job where
  target_eq := ht
  oldCommits _ hx := absurd hx (not_checkedOff h)
  oldTrees _ hx := absurd hx (not_checkedOff h)
  oldChunks _ hx := absurd hx (not_checkedOff h)
  commits x hx := by simp [hc] at hx
  trees x hx := by simp [htr] at hx
  chunks x hx := by simp [hch] at hx

/-- Some job traces the disk. -/
theorem exists_trace (target : ContentHash) (fs : VaultFs) : ∃ job, Trace target fs fs job := by
  by_cases h : ∃ job, ReadM.eval fs (savedJob target) = .ok (some job)
  · obtain ⟨job, h⟩ := h
    exact ⟨job, trace_saved h⟩
  · exact ⟨⟨target, 0, .fetching, ∅, ∅, ∅, 0, none⟩,
      trace_empty (fun job hj => h ⟨job, hj⟩) rfl rfl rfl rfl⟩

/-- The start of a run. -/
theorem going_start {run : SyncRun} (hfs : w.fs = fs) (hu : ¬TornObject w)
    (ht : Trace target fs fs run.job) : Going D target fs run w :=
  ⟨hfs ▸ .refl, fun p _ => by rw [hfs], hu, hfs ▸ ht⟩

/-- The job of a run: the resumed one, or an empty one. -/
theorem wp_loadOrCreateJob (hfs : w.fs = fs) (hu : ¬TornObject w) :
    wp env (Fetching D target fs) (loadOrCreateJob target) (fun r w' =>
      (∃ e, r = .error e ∧ w' = w ∧ ReadM.eval fs (savedJob target) = .error e) ∨
      ∃ job, r = .ok job ∧ Going D target fs ⟨job, 0, 0, 0⟩ w') w := by
  obtain ⟨job₀, ht₀⟩ := exists_trace target fs
  have hgoing : Going D target fs ⟨job₀, 0, 0, 0⟩ w := going_start hfs hu ht₀
  have hI : ∀ w' : VaultWorld, w'.fs = w.fs → w'.log = w.log → Fetching D target fs w' :=
    fun w' hf hl => (hgoing.same hf hl).settled
  unfold loadOrCreateJob
  refine wp_read (hI w rfl rfl) (fun found hfound => ?_) (fun e he => .inl ⟨e, rfl, rfl, hfs ▸ he⟩)
  rw [hfs] at hfound
  cases found with
  | some job => exact ⟨hI w rfl rfl, .inr ⟨job, rfl, going_start hfs hu (trace_saved hfound)⟩⟩
  | none =>
    have hno : ∀ job, ReadM.eval fs (savedJob target) ≠ .ok (some job) := fun job hj => by
      cases hj.symm.trans hfound
    unfold SyncJob.new
    refine wp_answer (hI w rfl rfl) (wp_answer (hI _ rfl rfl) ⟨hI _ rfl rfl, .inr ⟨_, rfl, ?_⟩⟩)
    exact (going_start hfs hu (trace_empty hno rfl rfl rfl rfl)).same rfl rfl

/-- What an error leaves. -/
def Aborted (D : Catalog) (target : ContentHash) (fs : VaultFs) (env : Outside)
    (peers : List String) (adopt : Bool) (w : VaultWorld) : Prop :=
  Synced D target fs w.fs ∧ HeadsKept fs w.fs ∧ ¬TornObject w ∧
    ¬Supplied D target fs env peers adopt

theorem Failed.aborted {run : SyncRun} (h : Failed D target fs env peers adopt run w) :
    Aborted D target fs env peers adopt w := ⟨h.1.synced, h.1.heads, h.1.untorn, h.2⟩

/-- An error is recorded in the job file, and returned. -/
theorem wp_syncFinish {e : SoalError} {run : SyncRun} (hs : Sound D target fs run w) :
    wp env (Fetching D target fs) (syncFinish (.error e, run)) (fun r w' =>
      r = .error (.err e) ∧ ∃ run', Sound D target fs run' w') w := by
  -- the job as it is recorded
  let job : SyncJob := { run.job with
    state := .failed, error := some e.display, updatedAt := env w.tick .now }
  have hstamped : Sound D target fs { run with job } w.asked :=
    hs.stamped ⟨rfl, rfl, rfl, rfl⟩
  have hpersist : wp env (Fetching D target fs) (okOrNone (persistJob job)) (fun r w' =>
      (∃ o, r = .ok o) ∧ Sound D target fs { run with job } w') w.asked := by
    refine wp_handle.2 (wp_persistJob hstamped ?_)
    exact ⟨hstamped.persisted.settled, ⟨_, rfl⟩, hstamped.persisted⟩
  unfold syncFinish SyncJob.touch
  refine wp_answer hs.settled (wp_seq hpersist (fun _ w' _ hr => ?_) (fun e w' _ hr => ?_))
  · have hdone : (fail e : Res SyncResult) = .error (.err e) ∧
        ∃ run', Sound D target fs run' w' := ⟨rfl, _, hr.2⟩
    exact wp_done.2 ⟨hr.2.settled, hdone⟩
  · obtain ⟨⟨o, he⟩, -⟩ := hr
    cases he

theorem Going.wp_persistJob {run : SyncRun} (h : Going D target fs run w) :
    wp env (Fetching D target fs) (persistJob run.job) (fun r w' =>
      r = .ok () ∧ Going D target fs run w') w := by
  have hp := h.sound.persisted
  refine Soal.wp_persistJob h.sound ⟨rfl, hp.synced, fun p hd => ?_, hp.untorn, hp.trace⟩
  exact (lookup_persisted (by rw [hd]; decide)).trans (h.roots p hd)

/-- A run from a job file on: the job is found and marked, then the body runs. -/
theorem wp_fetchMissing_of {P : Res SyncResult → VaultWorld → Prop} (hfs : w.fs = fs)
    (hu : ¬TornObject w) (hjob : ∀ e, ReadM.eval fs (savedJob target) = .error e → P (.error e) w)
    (hrun : ∀ run w', Going D target fs run w' →
      wp env (Fetching D target fs) (syncBody peers target adopt run >>= syncFinish) P w') :
    wp env (Fetching D target fs) (fetchMissing peers target adopt) P w := by
  unfold fetchMissing
  refine wp_seq (wp_loadOrCreateJob hfs hu) (fun job w₁ _ h₁ => ?_) (fun e w₁ _ h₁ => ?_)
  · rcases h₁ with ⟨_, he, -⟩ | ⟨job', hjob, h₁⟩
    · cases he
    obtain rfl := Except.ok.inj hjob
    unfold SyncJob.touch
    refine wp_seq (R := fun r w' => ∃ job', r = .ok job' ∧ Going D target fs ⟨job', 0, 0, 0⟩ w')
      (wp_answer h₁.settled ?_) (fun job₂ w₂ _ h₂ => ?_) (fun e w₂ _ h₂ => ?_)
    · have hasked : Going D target fs ⟨job, 0, 0, 0⟩ w₁.asked := h₁.same rfl rfl
      have hstamped : Going D target fs
          ⟨{ job with state := .fetching, updatedAt := env w₁.tick .now }, 0, 0, 0⟩ w₁.asked :=
        hasked.sameLists ⟨rfl, rfl, rfl, rfl⟩
      exact ⟨hstamped.settled, _, rfl, hstamped⟩
    · obtain ⟨job₂', hjob₂, h₂⟩ := h₂
      obtain rfl := Except.ok.inj hjob₂
      refine wp_seq h₂.wp_persistJob (fun _ w₃ _ h₃ => ?_) (fun e w₃ _ h₃ => by cases h₃.1)
      exact hrun _ w₃ h₃.2
    · obtain ⟨_, he, -⟩ := h₂
      cases he
  · rcases h₁ with ⟨e', he, rfl, herr⟩ | ⟨_, he, -⟩
    · cases he
      exact hjob e herr
    · cases he

/-- **A run from a job file on.** -/
theorem wp_fetchMissing (hA : Agrees D target fs env) (hfree : CollisionFree (Served env))
    (hfs : w.fs = fs) (hu : ¬TornObject w) :
    wp env (Fetching D target fs) (fetchMissing peers target adopt) (fun r w' =>
      (∀ a, r = .ok a → Fetched D target fs adopt w'.fs) ∧
      ∀ e, r = .error e → Aborted D target fs env peers adopt w') w := by
  refine wp_fetchMissing_of hfs hu (fun e he => ?_) (fun run w₃ h₃ => ?_)
  · refine ⟨nofun, fun _ _ => ⟨hfs ▸ .refl, hfs ▸ id, hu, fun hsup => ?_⟩⟩
    obtain ⟨job, hok⟩ := hsup.job
    cases he.symm.trans hok
  · refine wp_seq (wp_syncBody hA hfree h₃) (fun out w₄ hI₄ h₄ => ?_) (fun e w₄ _ h₄ => ?_)
    · obtain ⟨out, run⟩ := out
      cases out with
      | ok a => exact ⟨hI₄, fun _ _ => h₄, nofun⟩
      | error e =>
        refine (wp_syncFinish (e := e) h₄.1).mono (fun _ h => h) fun r w₅ _ h₅ => ?_
        obtain ⟨rfl, run₅, hs₅⟩ := h₅
        exact ⟨nofun, fun _ _ => ⟨hs₅.synced, hs₅.heads, hs₅.untorn, h₄.2⟩⟩
    · obtain ⟨run, h₄⟩ := h₄
      exact ⟨nofun, fun _ _ => h₄.aborted⟩

/-- With every object supplied, completeness of the target can be told. -/
theorem isComplete_of_supplied (hA : Agrees D target fs env)
    (hsup : ObjectsSupplied D target fs env peers) :
    ∃ b, ReadM.eval fs (isComplete target) = .ok b := by
  unfold isComplete hasCommitObject hasTreeObject
  simp only [ReadM.eval_bind, ReadM.eval_ite, commitKind.eval_hasObject, treeKind.eval_hasObject,
    eval_hasChunks, ok_bind]
  split
  next hp =>
    have hc : D.Commits target target := Catalog.commits_target
    have hp := of_decide_eq_true hp
    obtain ⟨k, hk⟩ := ObjectKind.Grown.load_of_obtainable (R := fun _ _ => True) .refl
      (hsup.commit target hc) hp
    rw [show ReadM.eval fs (loadCommit target) = .ok k from hk, ok_bind]
    split
    next hp' =>
      have ht : D.Trees target k.tree := ⟨target, k, hc, hA.commits.stored _ _ hc hk, rfl⟩
      obtain ⟨tr, htr⟩ := ObjectKind.Grown.load_of_obtainable (R := fun _ _ => True) .refl
        (hsup.tree _ ht) (of_decide_eq_true hp')
      rw [show ReadM.eval fs (loadTree k.tree) = .ok tr from htr]
      exact ⟨_, rfl⟩
    next => exact ⟨_, rfl⟩
  next => exact ⟨_, rfl⟩

/-- How a sync ends.  A success left the objects of a complete target alone, or brought the whole DAG
of the target; a failure shows that something was not supplied. -/
def Outcome (D : Catalog) (target : ContentHash) (fs : VaultFs) (env : Outside)
    (peers : List String) (adopt : Bool) (r : Res SyncResult) (w : VaultWorld) : Prop :=
  (∀ a, r = .ok a →
    if ReadM.eval fs (isComplete target) = .ok true then Shortcut target fs adopt w.fs
    else Fetched D target fs adopt w.fs) ∧
  ∀ e, r = .error e → Aborted D target fs env peers adopt w

/-- **The rule of `fetch_dag`**: every state on the way is one of a sync. -/
theorem wp_fetchDag (hA : Agrees D target fs env) (hfree : CollisionFree (Served env))
    (hfs : w.fs = fs) (hu : ¬TornObject w) :
    wp env (Fetching D target fs) (fetchDag peers target adopt)
      (Outcome D target fs env peers adopt) w := by
  obtain ⟨job₀, ht₀⟩ := exists_trace target fs
  have hgoing : Going D target fs ⟨job₀, 0, 0, 0⟩ w := going_start hfs hu ht₀
  -- an error before the walk leaves the disk as it was
  have hstop : ∀ e : Fault, ¬Supplied D target fs env peers adopt →
      Outcome D target fs env peers adopt (.error e) w := fun e hno =>
    ⟨by simp, fun _ _ => ⟨hgoing.synced, hgoing.sound.heads, hu, hno⟩⟩
  unfold fetchDag
  split
  next hempty =>
    exact wp_done.2 ⟨hgoing.settled, hstop _ fun hsup => hsup.peers_ne (List.isEmpty_iff.1 hempty)⟩
  next =>
    refine wp_read (x := isComplete target) hgoing.settled (fun b hb => ?_) (fun e he => ?_)
    · rw [hfs] at hb
      cases b with
      | false =>
        refine (wp_fetchMissing hA hfree hfs hu).mono (fun _ h => h) fun r w' _ h => ?_
        unfold Outcome
        rw [if_neg (by rw [hb]; decide)]
        exact h
      | true =>
        -- a complete target ends the sync at once, with no walk over its parents
        have hshort : ∀ w' : VaultWorld, Shortcut target fs adopt w'.fs → ∀ a,
            Outcome D target fs env peers adopt (.ok a) w' := fun w' hs a =>
          ⟨fun _ _ => by rw [if_pos hb]; exact hs, by simp⟩
        cases adopt with
        | false => exact wp_done.2 ⟨hgoing.settled, hshort w ⟨fun p _ => by rw [hfs], by simp⟩ _⟩
        | true =>
          refine wp_seq (wp_adopt hgoing) (fun _ w₁ hI₁ h₁ => ?_) (fun e w₁ _ h₁ => ?_)
          · rcases h₁ with ⟨e, he, -⟩ | ⟨heads, hheads, -, -, rfl⟩
            · cases he
            refine wp_done.2 ⟨hI₁, hshort _ ⟨fun p hp => ?_, fun _ => ⟨heads, hheads,
              eval_head_adopted, eval_listHeadsFileOnly_adopted⟩⟩ _⟩
            rw [lookup_adopted (hp rfl).1 (hp rfl).2, hfs]
          · rcases h₁ with ⟨e', -, hs₁, hwhy⟩ | ⟨heads, -, he, -⟩
            · refine ⟨by simp, fun _ _ => ⟨hs₁.synced, hs₁.heads, hs₁.untorn, fun hsup => ?_⟩⟩
              rcases hwhy with hload | hheads
              · -- adoption loads the target, which was just found complete
                obtain ⟨k, tr, hk, -⟩ := eval_isComplete_iff.1 hb
                rw [hfs] at hload
                cases hload.symm.trans hk
              · obtain ⟨heads, hok⟩ := hsup.heads rfl
                cases hheads.symm.trans hok
            · cases he
    · rw [hfs] at he
      refine hstop e fun hsup => ?_
      obtain ⟨b, hb⟩ := isComplete_of_supplied hA hsup.toObjectsSupplied
      cases he.symm.trans hb

end Whole

end Soal

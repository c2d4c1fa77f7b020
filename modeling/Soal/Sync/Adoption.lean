/-
  Soal.Sync.Adoption — what a sync does to HEAD and HEADS.

  Everything a sync writes before it adopts its target lies below the root directory; afterwards it
  only writes its job file.  So HEAD and HEADS are as they were, or as `set_head_public` leaves them.
-/
import Soal.Sync.Rules
import Soal.Vault.Committing

namespace Soal

open FileProg

section Laws

variable [Crates]

/-! ## §1. What the parts of a sync touch. -/

/-- Outside the root directory. -/
abbrev BelowRoot (p : FilePath VaultDir) : Prop := p.dir ≠ .root

section Confinement

variable {D : FilePath VaultDir → Prop} {α β : Type}

omit [Crates] in
theorem confined_bindM {x : SyncM α} {f : α → SyncM β} (hx : ∀ run, Confined D (x run))
    (hf : ∀ a run, Confined D (f a run)) : ∀ run, Confined D ((x >>= f) run) := by
  intro run
  refine Confined.bind (hx run) fun out => ?_
  obtain ⟨out, run'⟩ := out
  cases out with
  | ok a => exact hf a run'
  | error e => exact .done

omit [Crates] in
theorem confined_attempt {x : Action α} (hx : Confined D x) :
    ∀ run, Confined D (SyncM.attempt x run) := by
  intro run
  refine hx.handle fun r => ?_
  rcases r with (e | _) | a <;> exact .done

theorem confined_tryPeers (hash : ContentHash) (peers : List String) (last : SoalError) :
    Confined D (tryPeers hash peers last) := by
  induction peers generalizing last with
  | nil => exact .done
  | cons peer peers ih =>
    refine Confined.handle (Confined.bind (.ask _) fun r => ?_) fun r => ?_
    · cases r with
      | error e => exact .done
      | ok data =>
        dsimp only
        split
        next => exact .done
        next => split <;> exact .done
    · rcases r with (e | _) | data
      · exact ih e
      · exact .done
      · exact .done

theorem confined_importBytes {γ : Type} (K : ObjectKind γ) (h : ContentHash) (data : Bytes)
    (hb : D (K.pathBin h)) (hj : D (K.pathJson h)) : Confined D (K.importBytes h data) := by
  unfold ObjectKind.importBytes
  split
  next => exact .done
  next =>
    split
    next =>
      refine Confined.bind .done fun x => Confined.bind .done fun actual => ?_
      split
      next => exact .done
      next => exact Confined.bind .done fun _ => .writeFile hb
    next =>
      refine Confined.bind .done fun x => ?_
      split
      next => exact .done
      next => exact .writeFile hj

theorem confined_persistJob (job : SyncJob) : Confined (InDir .jobs) (persistJob job) :=
  confined_writeRename rfl rfl

theorem confined_checkpoint (run : SyncRun) : Confined (InDir .jobs) (SyncM.checkpoint run) := by
  unfold SyncM.checkpoint
  refine confined_bindM (fun _ => .done) (fun run => ?_) run
  refine confined_bindM (confined_attempt (Confined.bind (.ask _) fun _ => .done)) fun job => ?_
  exact confined_bindM (fun _ => .done) fun _ => confined_attempt (confined_persistJob job)

omit [Crates] in
theorem belowRoot_of_jobs {x : Action α} (h : Confined (InDir .jobs) x) : Confined BelowRoot x :=
  h.mono fun p hp => by simp [BelowRoot, hp]

/-- Checking an object off, then going on. -/
theorem confined_checkOff {f : SyncRun → SyncRun} {x : SyncM α}
    (hx : ∀ run, Confined BelowRoot (x run)) :
    ∀ run, Confined BelowRoot ((do SyncM.modify f; SyncM.checkpoint; x) run) :=
  confined_bindM (fun _ => .done) fun _ =>
    confined_bindM (fun run => belowRoot_of_jobs (confined_checkpoint run)) fun _ => hx

/-- Fetching a missing object, then going on. -/
theorem confined_fetched {hash : ContentHash} {peers : List String} {put : Bytes → Action Unit}
    {f : SyncRun → SyncRun} {x : SyncM α} (hput : ∀ b, Confined BelowRoot (put b))
    (hx : ∀ run, Confined BelowRoot (x run)) : ∀ run, Confined BelowRoot ((do
      let found ← SyncM.attempt (getBlobWithFailover peers hash)
      SyncM.attempt (put found.2)
      SyncM.modify f
      x) run) :=
  confined_bindM (confined_attempt (confined_tryPeers _ _ _)) fun found =>
    confined_bindM (confined_attempt (hput found.2)) fun _ =>
      confined_bindM (fun _ => .done) fun _ => hx

theorem confined_syncCommit (peers : List String) (c : ContentHash) (run : SyncRun) :
    Confined BelowRoot (syncCommit peers c run) := by
  have hload : ∀ run, Confined BelowRoot (SyncM.attempt (loadCommit c : Action Commit) run) :=
    confined_attempt (.ofRead _)
  unfold syncCommit
  refine confined_bindM (fun _ => .done) (fun run₀ => ?_) run
  split
  next =>
    refine confined_bindM (confined_attempt (.ofRead _)) fun there => ?_
    split
    next =>
      refine confined_fetched (fun b => ?_) (confined_checkOff hload)
      exact confined_importBytes commitKind c b (by simp [commitKind]) (by simp [commitKind])
    next =>
      refine confined_bindM (confined_attempt (.ofRead _)) fun commit => ?_
      exact confined_bindM (confined_attempt .done) fun _ => confined_checkOff hload
  next => exact hload

theorem confined_syncTree (peers : List String) (t : ContentHash) (run : SyncRun) :
    Confined BelowRoot (syncTree peers t run) := by
  have hload : ∀ run, Confined BelowRoot (SyncM.attempt (loadTree t : Action Tree) run) :=
    confined_attempt (.ofRead _)
  unfold syncTree
  refine confined_bindM (fun _ => .done) (fun run₀ => ?_) run
  split
  next =>
    refine confined_bindM (confined_attempt (.ofRead _)) fun there => ?_
    split
    next =>
      refine confined_fetched (fun b => ?_) (confined_checkOff hload)
      exact confined_importBytes treeKind t b (by simp [treeKind]) (by simp [treeKind])
    next => exact confined_checkOff hload
  next => exact hload

theorem confined_syncChunk (peers : List String) (ch : ContentHash) (run : SyncRun) :
    Confined BelowRoot (syncChunk peers ch run) := by
  have hend : ∀ run, Confined BelowRoot ((do
      SyncM.modify (fun run =>
        { run with job := { run.job with doneChunks := insert ch run.job.doneChunks } })
      let run ← SyncM.get
      if run.job.doneChunks.card % 32 = 0 then SyncM.checkpoint : SyncM Unit) run) := by
    refine confined_bindM (fun _ => .done) fun _ => confined_bindM (fun _ => .done) fun run => ?_
    intro run'
    split
    next => exact belowRoot_of_jobs (confined_checkpoint run')
    next => exact .done
  unfold syncChunk
  refine confined_bindM (fun _ => .done) (fun run₀ => ?_) run
  split
  next => exact fun _ => .done
  next =>
    refine confined_bindM (confined_attempt (.ofRead _)) fun there => ?_
    split
    next =>
      refine confined_fetched (fun b => ?_) hend
      refine Confined.bind (confined_putVerified ?_ ?_) fun _ => .done
      · simp [BelowRoot, chunkPath]
      · simp [BelowRoot, chunkTmp]
    next => exact hend

theorem confined_syncChunks (peers : List String) (chs : List ContentHash) :
    ∀ run, Confined BelowRoot (syncChunks peers chs run) := by
  induction chs with
  | nil => exact fun _ => .done
  | cons ch chs ih => exact confined_bindM (confined_syncChunk peers ch) fun _ => ih

/-- **The walk never touches a root file.** -/
theorem confined_syncWalk (peers : List String) (visited : Finset ContentHash)
    (queue : List ContentHash) : ∀ run, Confined BelowRoot (syncWalk peers visited queue run) := by
  induction visited, queue using syncWalk.induct with
  | case1 visited =>
    rw [syncWalk]
    exact fun _ => .done
  | case2 visited c queue hdeep =>
    rw [syncWalk, dif_pos hdeep]
    exact fun _ => .done
  | case3 visited c queue hdeep hmem ih =>
    rw [syncWalk, dif_neg hdeep, dif_pos hmem]
    exact ih
  | case4 visited c queue hdeep hmem ih =>
    rw [syncWalk, dif_neg hdeep, dif_neg hmem]
    refine confined_bindM ?_ ih
    refine confined_bindM (confined_syncCommit peers c) fun commit => ?_
    refine confined_bindM (confined_syncTree peers commit.tree) fun tree => ?_
    exact confined_bindM (confined_syncChunks peers _) fun _ _ => .done

end Confinement

/-! ## §2. The root directory after a sync. -/

/-- From `w` to `w'` the root directory was left alone, or the complete target was adopted; without a
readable HEADS the adoption stops after HEAD. -/
inductive Landed (target : ContentHash) (w w' : VaultWorld) : Bool → Prop
  | kept {b : Bool} (h : Within BelowRoot w w') : Landed target w w' b
  | headOnly {w₁ : VaultWorld} {e : Fault} (h₁ : Within BelowRoot w w₁)
      (hc : Complete w₁.fs target) (he : ReadM.eval w₁.fs listHeadsFileOnly = .error e)
      (h₂ : Within (InDir .jobs) (headSet w₁ target) w') : Landed target w w' false
  | adopted {w₁ : VaultWorld} {heads : Finset ContentHash} (h₁ : Within BelowRoot w w₁)
      (hc : Complete w₁.fs target) (hh : ReadM.eval w₁.fs listHeadsFileOnly = .ok heads)
      (h₂ : Within (InDir .jobs) (adopted w₁ target heads) w') : Landed target w w' true

section Fetch

variable {env : Outside} {w w' w'' : VaultWorld} {target : ContentHash} {peers : List String}
  {adopt : Bool}

/-- Before anything was adopted. -/
theorem Landed.after {b : Bool} (h : Landed target w' w'' b) (hw : Within BelowRoot w w') :
    Landed target w w'' b := by
  cases h with
  | kept h => exact .kept (hw.trans h)
  | headOnly h₁ hc he h₂ => exact .headOnly (hw.trans h₁) hc he h₂
  | adopted h₁ hc hh h₂ => exact .adopted (hw.trans h₁) hc hh h₂

omit [Crates] in
theorem within_belowRoot_of_jobs (h : Within (InDir .jobs) w w') : Within BelowRoot w w' := by
  refine ⟨fun p hp => h.frame p fun hd => hp ?_, ?_⟩
  · rw [BelowRoot, hd]
    decide
  · obtain ⟨ops, hlog, hops⟩ := h.log
    refine ⟨ops, hlog, fun op hop p hp => ?_⟩
    rw [BelowRoot, hops op hop p hp]
    decide

/-- Writing job files does not matter. -/
theorem Landed.jobs {b : Bool} (h : Landed target w w' b) (hw : Within (InDir .jobs) w' w'') :
    Landed target w w'' b := by
  cases h with
  | kept h => exact .kept (h.trans (within_belowRoot_of_jobs hw))
  | headOnly h₁ hc he h₂ => exact .headOnly h₁ hc he (h₂.trans hw)
  | adopted h₁ hc hh h₂ => exact .adopted h₁ hc hh (h₂.trans hw)

omit [Crates] in
/-- A part of a run that is confined, as a rule about the disk alone. -/
theorem wp_confinedM {α : Type} {x : SyncM α} {D : FilePath VaultDir → Prop} {run : SyncRun}
    {J : VaultWorld → Prop} (hx : Confined D (x run)) (hJ : ∀ w', Within D w w' → J w') :
    wp env (fun _ => True) (x run) (Ends (fun _ w' => J w') fun _ _ w' => J w') w := by
  refine (hx.wp w).mono (fun _ _ => trivial) fun out w' hw _ => ?_
  rcases out with e | ⟨e | a, run'⟩
  · exact ⟨run, hJ w' hw⟩
  · exact hJ w' hw
  · exact hJ w' hw

/-- Recording the progress of a job always succeeds. -/
theorem wp_checkpoint_jobs (run : SyncRun) :
    wp env (fun _ => True) (SyncM.checkpoint run)
      (Ends (fun _ _ => False) fun _ _ w' => Within (InDir .jobs) w w') w := by
  unfold SyncM.checkpoint
  refine SyncM.wp_get (SyncM.wp_attempt_bind (R := fun r w' => (∃ job, r = .ok job) ∧
    Within (InDir .jobs) w w') (wp_answer trivial ⟨trivial, ⟨_, rfl⟩, .asked w⟩)
    (fun job w₁ _ h₁ => ?_) fun e w₁ _ h₁ => ?_)
  · have hsaved : ∀ job', wp env (fun _ => True) (persistJob job') (fun r _ => r = .ok ()) w₁ :=
      fun job' => wp_writeRename.2 ⟨trivial, trivial, trivial, trivial, rfl⟩
    refine SyncM.wp_modify (SyncM.wp_attempt (R := fun r w' => r = .ok () ∧
      Within (InDir .jobs) w w') ?_ (fun _ w₂ _ h₂ => h₂.2) fun e w₂ _ h₂ => by cases h₂.1)
    refine (((confined_persistJob _).wp w₁).and (hsaved _)).mono (fun _ _ => trivial)
      fun r w₂ hw h => ?_
    exact ⟨h.2, h₁.2.trans hw.1⟩
  · obtain ⟨⟨job, hjob⟩, -⟩ := h₁
    cases hjob

/-- How the body of a sync ends: an error adopted nothing, or stopped after HEAD. -/
def BodyLanded (target : ContentHash) (adopt : Bool) (w : VaultWorld) :
    Res (Except SoalError SyncResult × SyncRun) → VaultWorld → Prop :=
  Ends (fun _ w' => Landed target w w' false) fun _ _ w' => Landed target w w' adopt

/-- **The body of a sync.** -/
theorem wp_syncBody_landed (run : SyncRun) :
    wp env (fun _ => True) (syncBody peers target adopt run) (BodyLanded target adopt w) w := by
  -- after HEAD was dealt with, only the job file is written, and that cannot fail
  have hseal : ∀ (run' : SyncRun) (w₁ : VaultWorld), Landed target w w₁ adopt →
      wp env (fun _ => True) ((do
        SyncM.setState .done
        SyncM.checkpoint
        let run ← SyncM.get
        return {
          target
          commitsImported := run.commitsImported
          treesImported := run.treesImported
          chunksImported := run.chunksImported
          headUpdated := adopt } : SyncM SyncResult) run') (BodyLanded target adopt w) w₁ := by
    intro run' w₁ h₁
    refine SyncM.wp_modify (SyncM.wp_then (SyncM.wp_relax (wp_checkpoint_jobs _)
      (fun _ _ (h : False) => h.elim) fun _ _ w₂ h => h₁.jobs h) fun _ run₂ w₂ h₂ => ?_)
    exact SyncM.wp_get (SyncM.wp_pure trivial h₂)
  unfold syncBody
  refine SyncM.wp_then (SyncM.wp_relax (wp_confinedM (confined_syncWalk peers _ _ run)
    fun _ h => h) (fun _ _ h => .kept h) fun _ _ _ h => h) fun _ run₁ w₁ h₁ => ?_
  refine SyncM.wp_modify (SyncM.wp_then (SyncM.wp_relax (wp_confinedM
    (belowRoot_of_jobs (confined_checkpoint _)) fun w₂ (h₂ : Within BelowRoot w₁ w₂) => h₁.trans h₂)
    (fun _ _ h => .kept h) fun _ _ _ h => h) fun _ run₂ w₂ h₂ => ?_)
  refine SyncM.wp_attempt_read trivial (fun b hb => ?_) (fun _ _ => .kept h₂)
  cases b with
  | false => exact SyncM.wp_reject trivial (.kept h₂)
  | true =>
    have hcomplete : Complete w₂.fs target := eval_isComplete_iff.1 hb
    cases adopt with
    | false => exact hseal run₂ w₂ (.kept h₂)
    | true =>
      refine SyncM.wp_attempt_bind (wp_setHeadPublic trivial fun _ =>
        ⟨trivial, trivial, fun _ _ => ⟨trivial, trivial⟩⟩) (fun _ w₃ _ h₃ => ?_)
        (fun e w₃ _ h₃ => ?_)
      · rcases h₃ with ⟨_, he, -⟩ | ⟨k, -, ⟨_, he, -⟩ | ⟨heads, hheads, -, rfl⟩⟩
        · cases he
        · cases he
        · exact hseal run₂ _ (.adopted h₂ hcomplete hheads (.refl _))
      · rcases h₃ with ⟨_, -, -, rfl⟩ | ⟨k, -, ⟨_, -, he, rfl⟩ | ⟨_, -, he, -⟩⟩
        · exact .kept h₂
        · exact .headOnly h₂ hcomplete he (.refl _)
        · cases he

/-- How a sync ends: an error adopted nothing, or stopped after HEAD; a success adopted the target
when it was asked to. -/
def SyncLanded (target : ContentHash) (adopt : Bool) (w : VaultWorld) (r : Res SyncResult)
    (w' : VaultWorld) : Prop :=
  (∀ e, r = .error e → Landed target w w' false) ∧ ∀ a, r = .ok a → Landed target w w' adopt

theorem SyncLanded.error {e : Fault} (h : Landed target w w' false) :
    SyncLanded target adopt w (.error e) w' := by
  refine ⟨fun _ _ => h, fun a ha => ?_⟩
  cases ha

theorem SyncLanded.ok {a : SyncResult} (h : Landed target w w' adopt) :
    SyncLanded target adopt w (.ok a) w' := by
  refine ⟨fun e he => ?_, fun _ _ => h⟩
  cases he

/-- **A sync adopts its complete target, or leaves HEAD and HEADS alone.** -/
theorem wp_fetchDag_landed (w : VaultWorld) :
    wp env (fun _ => True) (fetchDag peers target adopt) (SyncLanded target adopt w) w := by
  have hsame : ∀ {e : Fault}, SyncLanded target adopt w (.error e) w := .error (.kept (.refl w))
  unfold fetchDag
  split
  next => exact ⟨trivial, hsame⟩
  next =>
    refine wp_read (x := isComplete target) trivial (fun b hb => ?_) (fun _ _ => hsame)
    cases b with
    | true =>
      have hcomplete : Complete w.fs target := eval_isComplete_iff.1 hb
      cases adopt with
      | false => exact ⟨trivial, .ok (.kept (.refl w))⟩
      | true =>
        refine wp_seq (wp_setHeadPublic trivial fun _ =>
          ⟨trivial, trivial, fun _ _ => ⟨trivial, trivial⟩⟩) (fun _ w₁ hI h₁ => ⟨hI, ?_⟩)
          (fun e w₁ _ h₁ => ?_)
        · rcases h₁ with ⟨_, he, -⟩ | ⟨k, -, ⟨_, he, -⟩ | ⟨heads, hheads, -, rfl⟩⟩
          · cases he
          · cases he
          · exact .ok (.adopted (.refl w) hcomplete hheads (.refl _))
        · rcases h₁ with ⟨_, -, -, rfl⟩ | ⟨k, -, ⟨_, -, he, rfl⟩ | ⟨_, -, he, -⟩⟩
          · exact hsame
          · exact .error (.headOnly (.refl w) hcomplete he (.refl _))
          · cases he
    | false =>
      -- a job is created or resumed, and persisted
      have hload : Confined BelowRoot (loadOrCreateJob target) := by
        refine Confined.bind (.ofRead _) fun saved => ?_
        cases saved with
        | some job => exact .done
        | none => exact Confined.bind (.ask _) fun _ => Confined.bind (.ask _) fun _ => .done
      unfold fetchMissing
      refine wp_seq ((hload.wp w).mono (fun _ _ => trivial) fun _ _ h _ => h)
        (fun job w₁ _ h₁ => ?_) (fun e w₁ _ h₁ => .error (.kept h₁))
      refine wp_seq (R := fun _ w' => Within BelowRoot w w')
        (wp_answer trivial ⟨trivial, h₁.trans (.asked w₁)⟩) (fun job w₂ _ h₂ => ?_)
        (fun e w₂ _ h₂ => .error (.kept h₂))
      refine wp_seq (R := fun _ w' => Within BelowRoot w w')
        (((belowRoot_of_jobs (confined_persistJob job)).wp w₂).mono (fun _ _ => trivial)
          fun _ _ h _ => h₂.trans h) (fun _ w₃ _ h₃ => ?_) (fun e w₃ _ h₃ => .error (.kept h₃))
      refine wp_seq (wp_syncBody_landed (w := w₃) ⟨job, 0, 0, 0⟩) (fun out w₄ _ h₄ => ?_)
        (fun e w₄ _ h₄ => ?_)
      · obtain ⟨e | a, run⟩ := out
        · have h₄ : Landed target w w₄ false := Landed.after h₄ h₃
          have hfinish : Confined (InDir .jobs) (syncFinish (.error e, run)) :=
            Confined.bind (Confined.bind (.ask _) fun _ => .done) fun job =>
              Confined.bind (confined_okOrNone (confined_persistJob job)) fun _ => .done
          have herr : wp env (fun _ => True) (syncFinish (.error e, run))
              (fun r _ => ∃ e, r = .error e) w₄ := by
            refine wp_seq (R := fun _ _ => True) (wp_answer trivial ⟨trivial, trivial⟩)
              (fun job w₅ _ _ => ?_) fun e _ _ _ => ⟨e, rfl⟩
            refine wp_seq (R := fun _ _ => True) ?_ (fun _ w₆ _ _ => ⟨trivial, _, rfl⟩)
              fun e _ _ _ => ⟨e, rfl⟩
            exact ((confined_okOrNone (confined_persistJob job)).wp w₅).mono (fun _ _ => trivial)
              fun _ _ _ _ => trivial
          refine ((hfinish.wp w₄).and herr).mono (fun _ _ => trivial) fun r w' hw hr => ?_
          obtain ⟨e', rfl⟩ := hr.2
          exact .error (h₄.jobs hw.1)
        · exact ⟨trivial, .ok (Landed.after h₄ h₃)⟩
      · obtain ⟨run, h₄⟩ := h₄
        exact .error (h₄.after h₃)

end Fetch

end Laws

end Soal

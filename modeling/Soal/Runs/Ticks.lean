/-
  Soal.Runs.Ticks — automatic snapshots over whole runs.

  The scheduler ticks, is forced, and lives beside everything else that happens to a vault directory.
  Its memory is one file.  What a tick does to that file is decided by one reading of the clock:

    * a tick that takes a snapshot found the last one at least an interval ago, and records its own
      reading of the clock;
    * any other tick, and every other operation on the vault, leaves the file as it was.

  From these two facts the spacing of the snapshots follows by induction over the run.  That a snapshot
  which is due is taken needs more: a registry that can be read, and a HEAD to commit on top of.
-/
import Soal.Lib.Leads
import Soal.Lib.Trace
import Soal.Runs.Commands
import Soal.Vault.Frames

open Trace (Each)

namespace Soal

open FileProg

section Model

variable [Crates] [PolicyStateText]

/-! ## §1. What the state file tells. -/

/-- The state file tells `s`; without one it is the default. -/
def StateIs (fs : VaultFs) (s : PolicyState) : Prop :=
  statePath ∉ fs ∧ s = .default ∨
    fs.lookup statePath = some (Text.toUtf8 (PolicyStateText.stateJson.toStringPretty s))

section StateIs

variable {fs fs' : VaultFs} {s : PolicyState}

omit [Crates] in
theorem StateIs.load (h : StateIs fs s) (hjson : PolicyStateText.stateJson.RoundTrip) :
    ReadM.eval fs loadState = .ok s := by
  unfold loadState
  rcases h with ⟨hno, rfl⟩ | hl
  · simp only [ReadM.eval_bind, ReadM.eval_pathExists, ok_bind, hno, decide_false,
      Bool.false_eq_true, if_false]
    rfl
  · have hm : statePath ∈ fs := Fs.mem_iff_lookup.2 ⟨_, hl⟩
    simp only [ReadM.eval_bind, ReadM.eval_pathExists, ok_bind, hm, decide_true, if_true,
      eval_readToString_text hl]
    show serde (PolicyStateText.stateJson.fromStr (PolicyStateText.stateJson.toStringPretty s)) = _
    rw [hjson s]
    rfl

omit [Crates] in
theorem eval_loadState_congr (hl : fs'.lookup statePath = fs.lookup statePath) :
    ReadM.eval fs' loadState = ReadM.eval fs loadState := by
  have hm : statePath ∈ fs' ↔ statePath ∈ fs := mem_congr hl
  unfold loadState
  simp only [ReadM.eval_bind, ReadM.eval_pathExists, ok_bind, hm, ReadM.eval_ite,
    eval_readToString_congr hl]
  rfl

omit [Crates] in
theorem StateIs.congr (h : StateIs fs s) (hl : fs'.lookup statePath = fs.lookup statePath) :
    StateIs fs' s := by
  rcases h with ⟨hno, rfl⟩ | h
  · exact .inl ⟨fun hm => hno ((mem_congr hl).1 hm), rfl⟩
  · exact .inr (hl.trans h)

omit [Crates] [PolicyStateText] in
/-- Whatever keeps to the vault's files keeps the state. -/
theorem lookup_state {w w' : VaultWorld} (h : Within VaultFile w w') :
    w'.fs.lookup statePath = w.fs.lookup statePath :=
  h.frame statePath not_vaultFile_state.1

end StateIs

/-! ## §2. One tick. -/

/-- How the snapshot part of a tick ends, `now` being what the clock said: a snapshot was due and is
recorded, or the state file is as it was; without an error it is skipped only when none is due, or
there is no HEAD. -/
structure AutoEnds (policy : VaultPolicy) (now : UInt64) (fs : VaultFs)
    (r : Res (Option ContentHash)) (fs' : VaultFs) : Prop where
  taken : ∀ h, r = .ok (some h) → ∃ s, ReadM.eval fs loadState = .ok s ∧
    snapshotDue policy s now = true ∧ StateIs fs' (s.took h now)
  kept : (∀ h, r ≠ .ok (some h)) → fs'.lookup statePath = fs.lookup statePath
  skipped : r = .ok none → ReadM.eval fs head = .ok none ∨
    ∃ s, ReadM.eval fs loadState = .ok s ∧ snapshotDue policy s now = false

section Rules

variable {env : Outside} {w : VaultWorld}

omit [Crates] in
/-- Saving the state succeeds. -/
theorem wp_saveState (s : PolicyState) :
    wp env (fun _ => True) (saveState s)
      (fun r w' => r = .ok () ∧ StateIs w'.fs s ∧ w'.tick = w.tick) w := by
  refine wp_writeRename.2 ⟨trivial, trivial, trivial, trivial, rfl, .inr ?_, rfl⟩
  rw [lookup_renamed, if_pos rfl]

theorem Vault.wp_maybeAutoSnapshot (v : Vault) (policy : VaultPolicy) (messagePrefix : String) :
    wp env (fun _ => True) (v.maybeAutoSnapshot policy messagePrefix)
      (fun r w' => AutoEnds policy (env w.tick .now) w.fs r w'.fs) w := by
  have hfail : ∀ (e : Fault) (w' : VaultWorld), Within VaultFile w w' →
      AutoEnds policy (env w.tick .now) w.fs (.error e) w'.fs := fun e w' h =>
    ⟨fun _ hh => (by cases hh), fun _ => lookup_state h, fun hh => (by cases hh)⟩
  have hnone : (ReadM.eval w.fs head = .ok none ∨ ∃ s, ReadM.eval w.fs loadState = .ok s ∧
      snapshotDue policy s (env w.tick .now) = false) →
      AutoEnds policy (env w.tick .now) w.fs (.ok none) w.asked.fs := fun h =>
    ⟨fun _ hh => (by cases hh), fun _ => rfl, fun _ => h⟩
  -- the books of a snapshot are vault files
  have hbooks : ∀ {α : Type} {x : Action α} (w₁ : VaultWorld), Confined Registry x →
      wp env (fun _ => True) x (fun _ w₂ => Within VaultFile w₁ w₂) w₁ := fun w₁ hx =>
    ((hx.mono fun _ => VaultFile.registry).wp w₁).mono (fun _ _ => trivial) fun _ _ h _ => h
  unfold Vault.maybeAutoSnapshot
  refine wp_read (x := loadState) trivial (fun s hs => ?_) fun e _ => hfail e w (.refl w)
  refine wp_answer trivial ?_
  split
  next hdue =>
    refine wp_read (x := head) trivial (fun l hl => ?_) fun e _ => hfail e _ (.asked w)
    cases l with
    | none => exact ⟨trivial, hnone (.inl hl)⟩
    | some c =>
      refine wp_seq (((v.confined_snapshot _).wp w.asked).mono (fun _ _ => trivial)
        fun _ _ h _ => (Within.asked w).trans h) (fun h w₁ _ h₁ => ?_) fun e w₁ _ h₁ => hfail e w₁ h₁
      refine wp_seq (hbooks w₁ (confined_registerSnapshot h _ true)) (fun _ w₂ _ h₂ => ?_)
        fun e w₂ _ h₂ => hfail e w₂ (h₁.trans h₂)
      refine wp_seq (hbooks w₂ (confined_applyRetention policy)) (fun _ w₃ _ h₃ => ?_)
        fun e w₃ _ h₃ => hfail e w₃ ((h₁.trans h₂).trans h₃)
      -- the state is saved last, and that does not fail
      refine wp_seq (wp_saveState (s.took h (env w.tick .now))) (fun _ w₄ _ h₄ => ?_) fun e w₄ _ h₄ => ?_
      · refine ⟨trivial, fun h' hh' => ?_, fun hne => absurd rfl (hne h), fun hh => by cases hh⟩
        obtain rfl := Option.some.inj (Except.ok.inj hh')
        exact ⟨s, hs, hdue, h₄.2.1⟩
      · cases h₄.1
  next hno => exact ⟨trivial, hnone (.inr ⟨s, hs, Bool.eq_false_iff.2 hno⟩)⟩

omit [PolicyStateText] in
/-- What follows the snapshot in a tick leaves the state file alone. -/
theorem confined_tickUpkeep (name : String) (policy : VaultPolicy) (c : Option ContentHash) :
    Confined VaultFile (tickUpkeep name policy c) := by
  refine Confined.bind (confined_ensureLocalPins.mono fun _ => .pins) fun pins => ?_
  refine Confined.bind ((confined_applyRetention policy).mono fun _ => .registry) fun pruned => ?_
  split
  next =>
    exact Confined.bind ((confined_okOrNone confined_gcAll).mono fun _ => .history) fun n => .done
  next => exact .done

/-- **A tick**: its snapshot part decides what becomes of the state file. -/
theorem Vault.runTick_state (v : Vault) (name : String) (policy : VaultPolicy) :
    AutoEnds policy (env w.tick .now) w.fs
      (run env (v.maybeAutoSnapshot policy "scheduled") w).1
      (run env (v.runTick name policy) w).2.fs := by
  have hauto : wp env (fun _ => True) (v.maybeAutoSnapshot policy "scheduled") _ w :=
    v.wp_maybeAutoSnapshot policy "scheduled"
  have hrule := wp_iff.1 hauto
  have hsame : ∀ w', Within VaultFile (run env (v.maybeAutoSnapshot policy "scheduled") w).2 w' →
      AutoEnds policy (env w.tick .now) w.fs
        (run env (v.maybeAutoSnapshot policy "scheduled") w).1 w'.fs := by
    intro w' hw'
    have hl := lookup_state hw'
    refine ⟨fun h hh => ?_, fun hne => hl.trans (hrule.2.kept hne), hrule.2.skipped⟩
    obtain ⟨s, hs, hdue, hstate⟩ := hrule.2.taken h hh
    exact ⟨s, hs, hdue, hstate.congr hl⟩
  -- the end of the snapshot part is where the rest begins
  have hends : wp env (fun _ => True) (v.maybeAutoSnapshot policy "scheduled") (fun _ w₁ =>
      w₁ = (run env (v.maybeAutoSnapshot policy "scheduled") w).2) w :=
    wp_iff.2 ⟨fun _ _ => trivial, rfl⟩
  have htick : wp env (fun _ => True) (v.runTick name policy) (fun _ w' =>
      AutoEnds policy (env w.tick .now) w.fs
        (run env (v.maybeAutoSnapshot policy "scheduled") w).1 w'.fs) w := by
    unfold Vault.runTick
    refine wp_seq hends (fun c w₁ _ h₁ => ?_) fun e w₁ _ h₁ => hsame w₁ (h₁ ▸ .refl _)
    refine ((confined_tickUpkeep name policy c).wp w₁).mono (fun _ _ => trivial) fun _ w' hw' _ => ?_
    exact hsame w' (h₁ ▸ hw')
  exact htick.post

/-- **A forced snapshot** is recorded with the last reading of the clock; an error leaves the state
file alone. -/
theorem Vault.wp_forceAutoSnapshot (v : Vault) (message : String) :
    wp env (fun _ => True) (v.forceAutoSnapshot message) (fun r w' =>
      (∀ h, r = .ok h → ∃ s, ReadM.eval w.fs loadState = .ok s ∧
        StateIs w'.fs (s.took h (env (w'.tick - 1) .now))) ∧
      (∀ e, r = .error e → w'.fs.lookup statePath = w.fs.lookup statePath)) w := by
  have hfail : ∀ (e : Fault) (w' : VaultWorld), Within VaultFile w w' →
      (∀ h, (.error e : Res ContentHash) = .ok h → ∃ s, ReadM.eval w.fs loadState = .ok s ∧
        StateIs w'.fs (s.took h (env (w'.tick - 1) .now))) ∧
      (∀ e', (.error e : Res ContentHash) = .error e' →
        w'.fs.lookup statePath = w.fs.lookup statePath) := fun e w' h =>
    ⟨fun _ hh => (by cases hh), fun _ _ => lookup_state h⟩
  have hbooks : ∀ {α : Type} {x : Action α} (w₁ : VaultWorld), Confined Registry x →
      wp env (fun _ => True) x (fun _ w₂ => Within VaultFile w₁ w₂) w₁ := fun w₁ hx =>
    ((hx.mono fun _ => VaultFile.registry).wp w₁).mono (fun _ _ => trivial) fun _ _ h _ => h
  unfold Vault.forceAutoSnapshot
  refine wp_seq (hbooks w (confined_loadPolicy v.config)) (fun policy w₁ _ h₁ => ?_)
    fun e w₁ _ h₁ => hfail e w₁ h₁
  refine wp_read (x := loadState) trivial (fun s hs => ?_) fun e _ => hfail e w₁ h₁
  refine wp_read (x := head) trivial (fun l _ => ?_) fun e _ => hfail e w₁ h₁
  cases l with
  | none => exact ⟨trivial, hfail _ w₁ h₁⟩
  | some c =>
    refine wp_seq (((v.confined_snapshot message).wp w₁).mono (fun _ _ => trivial)
      fun _ _ h _ => h₁.trans h) (fun h w₂ _ h₂ => ?_) fun e w₂ _ h₂ => hfail e w₂ h₂
    refine wp_seq (hbooks w₂ (confined_applyRetention policy)) (fun _ w₃ _ h₃ => ?_)
      fun e w₃ _ h₃ => hfail e w₃ (h₂.trans h₃)
    refine wp_answer trivial ?_
    refine wp_seq (wp_saveState (s.took h (env w₃.tick .now))) (fun _ w₄ _ h₄ => ?_) fun e w₄ _ h₄ => ?_
    · refine ⟨trivial, fun h' hh' => ⟨s, ?_, ?_⟩, fun e he => (by cases he)⟩
      · rw [← eval_loadState_congr (lookup_state h₁), hs]
      · obtain rfl := Except.ok.inj hh'
        -- the clock was the last thing asked
        have htick : w₄.tick - 1 = w₃.tick := by rw [h₄.2.2]; rfl
        rw [htick]
        exact h₄.2.1
    · cases h₄.1

omit [PolicyStateText] in
/-- What a command but a snapshot touches. -/
theorem Command.frame_history (v : Vault) (env : Outside) (fs : VaultFs) {cmd : Command}
    (hcmd : ∀ message, cmd ≠ .snapshot message) {p : FilePath VaultDir} (hp : ¬HistoryFile p) :
    (cmd.after v env fs).lookup p = fs.lookup p := by
  have hrun : ∀ {α : Type} {x : Action α}, Confined HistoryFile x →
      (run env x (World.boot fs)).2.fs.lookup p = fs.lookup p := fun hx =>
    Within.frame ((hx.wp (World.boot fs)).crash (.final env _ _)) p hp
  cases cmd with
  | addPath source baseName => exact hrun (v.confined_addPath source baseName)
  | snapshot message => exact absurd rfl (hcmd message)
  | importCommit hash data =>
    exact hrun (confined_importBytes commitKind hash data (.below (by simp [BelowRoot, commitKind]))
      (.below (by simp [BelowRoot, commitKind])))
  | importTree hash data =>
    exact hrun (confined_importBytes treeKind hash data (.below (by simp [BelowRoot, treeKind]))
      (.below (by simp [BelowRoot, treeKind])))
  | importChunk hash data => exact hrun (confined_importStoredChunk hash data)
  | fetchDag peers target adopt => exact hrun (confined_fetchDag peers target adopt)
  | mergeHead remoteHead label => exact hrun (v.confined_mergeHead remoteHead label)
  | setHeadPublic c => exact hrun (confined_setHeadPublic c)
  | setDivergentHead c => exact hrun (confined_setDivergentHead c)
  | gcAll => exact hrun confined_gcAll

omit [PolicyStateText] in
/-- A command leaves the state file alone. -/
theorem Command.after_state (v : Vault) (env : Outside) (fs : VaultFs) (cmd : Command) :
    (cmd.after v env fs).lookup statePath = fs.lookup statePath := by
  by_cases hcmd : ∃ message, cmd = .snapshot message
  · obtain ⟨message, rfl⟩ := hcmd
    have hw : Within VaultFile (World.boot fs) _ :=
      ((v.confined_snapshot message).wp (World.boot fs)).crash (.final env _ _)
    exact lookup_state hw
  · exact Command.frame_history v env fs (fun message h => hcmd ⟨message, h⟩)
      fun h => not_vaultFile_state.1 (.history h)

end Rules

/-! ## §3. A snapshot that is due is taken. -/

/-- The snapshot registry can be read. -/
def RegistryReads (fs : VaultFs) : Prop := ∃ log, ReadM.eval fs loadSnapshots = .ok log

/-- If the registry could be read before, it can be read afterwards. -/
def KeepsRegistry (fs fs' : VaultFs) : Prop := RegistryReads fs → RegistryReads fs'

instance : IsPreorder VaultFs KeepsRegistry where
  refl _ h := h
  trans _ _ _ h h' := fun hr => h' (h hr)

section Takes

variable {env : Outside} {w : VaultWorld}

omit [PolicyStateText] in
theorem keepsRegistry_ofConfined {D : FilePath VaultDir → Prop} {α : Type} {x : Action α}
    (hx : Confined D x) (hD : ¬D snapshotsPath) : Leads KeepsRegistry x := by
  refine .ofConfined hx fun fs fs' hsame hreg => ?_
  obtain ⟨log, hlog⟩ := hreg
  exact ⟨log, (eval_loadSnapshots_congr (hsame _ hD)).trans hlog⟩

omit [PolicyStateText] in
theorem keepsRegistry_okOrNone {α : Type} {x : Action α} (hx : Leads KeepsRegistry x) :
    Leads KeepsRegistry (okOrNone x) := by
  refine Leads.handle hx fun r => ?_
  rcases r with (e | _) | a <;> exact .done

omit [PolicyStateText] in
/-- Saving the registry succeeds, and it can be read afterwards. -/
theorem wp_saveSnapshots_ok (hjson : Crates.snapshotsJson.RoundTrip) (log : SnapshotLog) :
    wp env (fun _ => True) (saveSnapshots log) (fun r w' => r = .ok () ∧ RegistryReads w'.fs) w := by
  refine wp_writeRename.2 ⟨trivial, trivial, trivial, trivial, rfl, log, ?_⟩
  exact eval_loadSnapshots_saved hjson (by rw [lookup_renamed, if_pos rfl])

omit [PolicyStateText] in
theorem keepsRegistry_save (hjson : Crates.snapshotsJson.RoundTrip) (log : SnapshotLog) :
    Leads KeepsRegistry (saveSnapshots log) :=
  Leads.iff_wp.2 fun _ _ => (wp_saveSnapshots_ok hjson log).mono (fun _ h => h) fun _ _ _ h _ => h.2

omit [PolicyStateText] in
theorem keepsRegistry_register (hjson : Crates.snapshotsJson.RoundTrip) (hash : ContentHash)
    (message : String) (auto : Bool) : Leads KeepsRegistry (registerSnapshot hash message auto) :=
  Leads.bind (.ofRead _) fun _ => Leads.bind (.ask _) fun _ => keepsRegistry_save hjson _

omit [PolicyStateText] in
theorem keepsRegistry_retention (hjson : Crates.snapshotsJson.RoundTrip) (policy : VaultPolicy) :
    Leads KeepsRegistry (applyRetention policy) := by
  unfold applyRetention pruneSnapshotRegistry
  split
  next => exact .done
  next =>
    refine Leads.bind (.ofRead _) fun log => ?_
    dsimp only
    split
    next => exact .done
    next => exact Leads.bind (keepsRegistry_save hjson _) fun _ => .done

omit [PolicyStateText] in
/-- A snapshot leaves a registry that can be read. -/
theorem Vault.keepsRegistry_snapshot (hjson : Crates.snapshotsJson.RoundTrip) (v : Vault)
    (message : String) : Leads KeepsRegistry (v.snapshot message) := by
  have hcommit : Leads KeepsRegistry (v.snapshotCommit message) :=
    keepsRegistry_ofConfined (v.confined_snapshotCommit message) (Registry.not_history (.inr (.inl rfl)))
  have hpolicy : Leads KeepsRegistry (loadPolicy v.config) :=
    keepsRegistry_ofConfined (confined_loadPolicy_files v.config) (by decide)
  refine Leads.bind hcommit fun c => ?_
  refine Leads.bind (keepsRegistry_okOrNone (keepsRegistry_register hjson c message false)) fun _ => ?_
  refine Leads.bind (keepsRegistry_okOrNone hpolicy) fun pol => ?_
  cases pol with
  | none => exact .done
  | some pol =>
    exact Leads.bind (keepsRegistry_okOrNone (keepsRegistry_retention hjson pol)) fun _ => .done

omit [PolicyStateText] in
/-- With a registry that can be read, registering succeeds. -/
theorem wp_registerSnapshot_ok (hjson : Crates.snapshotsJson.RoundTrip) (hreg : RegistryReads w.fs)
    (hash : ContentHash) (message : String) (auto : Bool) :
    wp env (fun _ => True) (registerSnapshot hash message auto)
      (fun r w' => r = .ok () ∧ RegistryReads w'.fs) w := by
  obtain ⟨log, hlog⟩ := hreg
  refine wp_read (x := loadSnapshots) trivial (fun log' _ => wp_answer trivial ?_) fun e he => ?_
  · exact wp_saveSnapshots_ok hjson _
  · cases hlog.symm.trans he

omit [PolicyStateText] in
/-- So does retention. -/
theorem wp_applyRetention_ok (hjson : Crates.snapshotsJson.RoundTrip) (hreg : RegistryReads w.fs)
    (policy : VaultPolicy) :
    wp env (fun _ => True) (applyRetention policy) (fun r _ => ∃ n, r = .ok n) w := by
  obtain ⟨log, hlog⟩ := hreg
  unfold applyRetention pruneSnapshotRegistry
  split
  next => exact ⟨trivial, 0, rfl⟩
  next =>
    refine wp_read (x := loadSnapshots) trivial (fun log' _ => ?_) fun e he => ?_
    · dsimp only
      split
      next => exact ⟨trivial, 0, rfl⟩
      next =>
        refine wp_seq (wp_saveSnapshots_ok hjson _) (fun _ _ _ _ => ⟨trivial, _, rfl⟩) fun e _ _ h => ?_
        cases h.1
    · cases hlog.symm.trans he

/-- **A snapshot that is due is taken**, when there is a HEAD, the registry can be read, and the
commit can be made. -/
theorem Vault.maybeAutoSnapshot_takes (hjson : Crates.snapshotsJson.RoundTrip) {v : Vault}
    {policy : VaultPolicy} {messagePrefix : String} {state : PolicyState} {c h : ContentHash}
    {w₁ : VaultWorld} {now : UInt64} (hnow : env w.tick .now = now)
    (hstate : ReadM.eval w.fs loadState = .ok state) (hdue : snapshotDue policy state now = true)
    (hhead : ReadM.eval w.fs head = .ok (some c)) (hreg : RegistryReads w.fs)
    (hcommit : run env (v.snapshotCommit (messagePrefix ++ " auto @" ++ toString now)) w.asked =
      (.ok h, w₁)) :
    (run env (v.maybeAutoSnapshot policy messagePrefix) w).1 = .ok (some h) := by
  subst hnow
  have hrule : wp env (fun _ => True) (v.maybeAutoSnapshot policy messagePrefix)
      (fun r _ => r = .ok (some h)) w := by
    unfold Vault.maybeAutoSnapshot
    refine wp_read_ok (x := loadState) trivial hstate (wp_answer trivial ?_)
    rw [if_pos hdue]
    refine wp_read_ok (x := head) trivial hhead ?_
    refine wp_seq (((wp_snapshot_returns hcommit).and (Leads.iff_wp.1
      (v.keepsRegistry_snapshot hjson _) env w.asked)).mono (fun _ _ => trivial) fun _ _ _ h => h)
      (fun c' w₂ _ h₂ => ?_) fun e _ _ h₂ => ?_
    · obtain ⟨⟨hc, -⟩, hkeeps⟩ := h₂
      obtain rfl := Except.ok.inj hc
      refine wp_seq (wp_registerSnapshot_ok hjson (hkeeps hreg) c' _ true) (fun _ w₃ _ h₃ => ?_)
        fun e _ _ h₃ => by cases h₃.1
      refine wp_seq (wp_applyRetention_ok hjson h₃.2 policy) (fun _ w₄ _ _ => ?_)
        fun e _ _ h₄ => by obtain ⟨_, h₄⟩ := h₄; cases h₄
      exact wp_seq (wp_saveState _) (fun _ _ _ _ => ⟨trivial, rfl⟩) fun e _ _ h₅ => by cases h₅.1
    · cases h₂.1.1
  exact hrule.post

end Takes

/-! ## §4. Runs. -/

/-- A snapshot the scheduler took: what the clock said, and whether it was forced. -/
structure Taken where
  time : UInt64
  forced : Bool

/-- A vault directory in the care of a scheduler, a time that has passed, and the snapshots taken so
far, newest first. -/
structure Ticking where
  disk : VaultFs
  clock : UInt64
  taken : List Taken

/-- What happens to the directory. -/
inductive TickEvent where
  | tick (v : Vault) (env : Outside) (name : String) (policy : VaultPolicy)
  | force (v : Vault) (env : Outside) (message : String)
  | command (v : Vault) (env : Outside) (cmd : Command)
  /-- anything else: another operation, another process -/
  | other (disk : VaultFs)

/-- The directory after an event.  The clock of a tick is its first reading, that of a forced snapshot
the last one. -/
def Ticking.after (s : Ticking) : TickEvent → Ticking
  | .tick v env name policy =>
    { disk := (run env (v.runTick name policy) (World.boot s.disk)).2.fs
      clock := env 0 .now
      taken := match (run env (v.maybeAutoSnapshot policy "scheduled") (World.boot s.disk)).1 with
        | .ok (some _) => ⟨env 0 .now, false⟩ :: s.taken
        | _ => s.taken }
  | .force v env message =>
    let out := run env (v.forceAutoSnapshot message) (World.boot s.disk)
    match out.1 with
    | .ok _ =>
      let now := env (out.2.tick - 1) .now
      ⟨out.2.fs, now, ⟨now, true⟩ :: s.taken⟩
    | .error _ => ⟨out.2.fs, s.clock, s.taken⟩
  | .command v env cmd => { s with disk := cmd.after v env s.disk }
  | .other disk => { s with disk }

/-- A tick that takes a snapshot puts it on top of those taken. -/
theorem Ticking.taken_tick (s : Ticking) (v : Vault) (env : Outside) (name : String)
    (policy : VaultPolicy) {c : ContentHash}
    (h : (run env (v.maybeAutoSnapshot policy "scheduled") (World.boot s.disk)).1 = .ok (some c)) :
    (s.after (.tick v env name policy)).taken = ⟨env 0 .now, false⟩ :: s.taken := by
  simp only [Ticking.after, h]

/-- The clock does not go back, ticks are under policies whose interval is at least `interval`, and
nothing else writes the state file. -/
def TickEvent.Allowed (interval : UInt64) (s : Ticking) : TickEvent → Prop
  | .tick _ env _ policy => interval ≤ policy.snapshotIntervalSecs ∧ s.clock ≤ env 0 .now
  | .force _ env _ => ∀ n, s.clock ≤ env n .now
  | .command _ _ _ => True
  | .other disk => disk.lookup statePath = s.disk.lookup statePath

/-- The snapshots are in order of time, and each that was not forced came at least `interval` after
every one before it. -/
def Spaced (interval : UInt64) (taken : List Taken) : Prop :=
  taken.Pairwise fun new old => old.time ≤ new.time ∧
    (new.forced = false → old.time.toNat + interval.toNat ≤ new.time.toNat)

/-- The state file tells the time of the newest snapshot, and how many there were. -/
def Told (s : Ticking) : Prop := ∃ state, StateIs s.disk state ∧
  state.lastAutoSnapshotAt = (s.taken.head?.map Taken.time).getD 0 ∧
  state.autoSnapshotCount.toNat = min s.taken.length (2 ^ 64 - 1)

/-- The scheduler's invariant. -/
structure WellSpaced (interval : UInt64) (s : Ticking) : Prop where
  started : 0 < s.clock
  passed : ∀ t ∈ s.taken, 0 < t.time ∧ t.time ≤ s.clock
  spaced : Spaced interval s.taken
  told : Told s

section Run

variable {interval : UInt64} {s : Ticking} {fs : VaultFs} {h : ContentHash} {state : PolicyState}

omit [Crates] [PolicyStateText] in
/-- A snapshot is due when there was none, or when the last one is an interval ago. -/
theorem snapshotDue_iff {policy : VaultPolicy} {now : UInt64} :
    snapshotDue policy state now = true ↔ policy.snapshotIntervalSecs ≠ 0 ∧
      (state.lastAutoSnapshotAt = 0 ∨ state.lastAutoSnapshotAt.toNat +
        policy.snapshotIntervalSecs.toNat ≤ now.toNat) := by
  unfold snapshotDue
  by_cases hzero : policy.snapshotIntervalSecs = 0
  · simp [hzero]
  · have hpos : policy.snapshotIntervalSecs.toNat ≠ 0 := by
      intro h
      exact hzero (UInt64.toNat_inj.1 h)
    by_cases hnever : state.lastAutoSnapshotAt = 0
    · simp [hzero, hnever]
    · rw [if_neg hzero, if_neg hnever, decide_eq_true_eq, UInt64.le_iff_toNat_le, saturatingSub_toNat]
      constructor
      · intro h
        exact ⟨hzero, .inr (by omega)⟩
      · rintro ⟨-, h⟩
        have h := h.resolve_left hnever
        omega

omit [Crates] [PolicyStateText] in
/-- From `now` on, a snapshot becomes due after the seconds reported at `now`. -/
theorem secsUntilSnapshot_exact {policy : VaultPolicy} {now later k : UInt64}
    (hpast : state.lastAutoSnapshotAt ≤ now) (hk : secsUntilSnapshot policy state now = some k)
    (hlater : now ≤ later) :
    snapshotDue policy state later = true ↔ now.toNat + k.toNat ≤ later.toNat := by
  rw [UInt64.le_iff_toNat_le] at hpast hlater
  rw [snapshotDue_iff]
  unfold secsUntilSnapshot at hk
  by_cases hzero : policy.snapshotIntervalSecs = 0
  · rw [if_pos hzero] at hk
    cases hk
  rw [if_neg hzero] at hk
  by_cases hnever : state.lastAutoSnapshotAt = 0
  · -- the first snapshot is due at once
    rw [if_pos hnever] at hk
    obtain rfl := Option.some.inj hk
    exact iff_of_true ⟨hzero, .inl hnever⟩ (by simpa using hlater)
  rw [if_neg hnever] at hk
  have hsub := saturatingSub_toNat now state.lastAutoSnapshotAt
  have hdue : (policy.snapshotIntervalSecs ≠ 0 ∧ (state.lastAutoSnapshotAt = 0 ∨
      state.lastAutoSnapshotAt.toNat + policy.snapshotIntervalSecs.toNat ≤ later.toNat)) ↔
      state.lastAutoSnapshotAt.toNat + policy.snapshotIntervalSecs.toNat ≤ later.toNat :=
    ⟨fun h => h.2.resolve_left hnever, fun h => ⟨hzero, .inr h⟩⟩
  rw [hdue]
  by_cases hover : policy.snapshotIntervalSecs ≤ saturatingSub now state.lastAutoSnapshotAt
  · rw [if_pos hover] at hk
    obtain rfl := Option.some.inj hk
    rw [UInt64.le_iff_toNat_le] at hover
    show _ ↔ now.toNat + 0 ≤ later.toNat
    omega
  · rw [if_neg hover] at hk
    obtain rfl := Option.some.inj hk
    have hle : saturatingSub now state.lastAutoSnapshotAt ≤ policy.snapshotIntervalSecs := by
      rw [UInt64.le_iff_toNat_le] at hover ⊢
      omega
    rw [UInt64.toNat_sub_of_le _ _ hle]
    rw [UInt64.le_iff_toNat_le] at hle
    omega

omit [Crates] [PolicyStateText] in
theorem saturatingSucc_toNat (n : UInt64) :
    (saturatingSucc n).toNat = min (n.toNat + 1) (2 ^ 64 - 1) := by
  unfold saturatingSucc
  have hlt : n.toNat < 2 ^ 64 := n.toNat_lt
  by_cases hn : n = .ofNat (2 ^ 64 - 1)
  · subst hn
    decide
  · have hne : n.toNat ≠ 2 ^ 64 - 1 := by
      intro h
      refine hn (UInt64.toNat_inj.1 ?_)
      rw [h]
      decide
    rw [if_neg hn, UInt64.toNat_add]
    show (n.toNat + 1) % 2 ^ 64 = _
    omega

omit [Crates] in
/-- The next snapshot is recorded. -/
theorem WellSpaced.took (hs : WellSpaced interval s) {t : Taken} (hclock : s.clock ≤ t.time)
    (hcount : state.autoSnapshotCount.toNat = min s.taken.length (2 ^ 64 - 1))
    (hnew : StateIs fs (state.took h t.time))
    (hspace : t.forced = false → ∀ old ∈ s.taken, old.time.toNat + interval.toNat ≤ t.time.toNat) :
    WellSpaced interval ⟨fs, t.time, t :: s.taken⟩ := by
  have hstarted : 0 < t.time := UInt64.lt_of_lt_of_le hs.started hclock
  refine ⟨hstarted, fun old hold => ?_, ?_, ⟨_, hnew, rfl, ?_⟩⟩
  · rcases List.mem_cons.1 hold with rfl | hold
    · exact ⟨hstarted, UInt64.le_refl _⟩
    · exact ⟨(hs.passed old hold).1, UInt64.le_trans (hs.passed old hold).2 hclock⟩
  · refine List.pairwise_cons.2 ⟨fun old hold => ⟨?_, fun hf => hspace hf old hold⟩, hs.spaced⟩
    exact UInt64.le_trans (hs.passed old hold).2 hclock
  · show (saturatingSucc state.autoSnapshotCount).toNat = min (s.taken.length + 1) (2 ^ 64 - 1)
    rw [saturatingSucc_toNat, hcount]
    omega

omit [Crates] in
/-- Nothing was taken: only the directory and the clock moved on. -/
theorem WellSpaced.kept (hs : WellSpaced interval s) {clock : UInt64} (hclock : s.clock ≤ clock)
    (hl : fs.lookup statePath = s.disk.lookup statePath) :
    WellSpaced interval ⟨fs, clock, s.taken⟩ := by
  obtain ⟨state, hstate, hlast, hcount⟩ := hs.told
  refine ⟨UInt64.lt_of_lt_of_le hs.started hclock, fun t ht => ?_, hs.spaced, ⟨state, hstate.congr hl, hlast, hcount⟩⟩
  exact ⟨(hs.passed t ht).1, UInt64.le_trans (hs.passed t ht).2 hclock⟩

omit [Crates] in
/-- Every snapshot so far is an interval ago when one is due. -/
theorem WellSpaced.due (hs : WellSpaced interval s) {policy : VaultPolicy} {now : UInt64}
    (hinterval : interval ≤ policy.snapshotIntervalSecs)
    (hlast : state.lastAutoSnapshotAt = (s.taken.head?.map Taken.time).getD 0)
    (hdue : snapshotDue policy state now = true) :
    ∀ old ∈ s.taken, old.time.toNat + interval.toNat ≤ now.toNat := by
  intro old hold
  cases htaken : s.taken with
  | nil =>
    rw [htaken] at hold
    cases hold
  | cons newest rest =>
    have hmem : newest ∈ s.taken := htaken ▸ List.mem_cons_self
    have hnewest : state.lastAutoSnapshotAt = newest.time := by
      rw [hlast, htaken]
      rfl
    -- the newest snapshot was taken, so the state does not say "never"
    have hpos : newest.time ≠ 0 := (UInt64.ne_of_lt (hs.passed newest hmem).1).symm
    have holder : old.time ≤ newest.time := by
      have hspaced := hs.spaced
      rw [htaken] at hspaced hold
      rcases List.mem_cons.1 hold with rfl | hold
      · exact UInt64.le_refl _
      · exact ((List.pairwise_cons.1 hspaced).1 old hold).1
    have hage := (snapshotDue_iff.1 hdue).2
    rw [hnewest] at hage
    have hage := hage.resolve_left hpos
    rw [UInt64.le_iff_toNat_le] at holder hinterval
    omega

/-- **One event.** -/
theorem WellSpaced.step (hjson : PolicyStateText.stateJson.RoundTrip) {e : TickEvent}
    (he : e.Allowed interval s) (hs : WellSpaced interval s) : WellSpaced interval (s.after e) := by
  obtain ⟨state, hstate, hlast, hcount⟩ := hs.told
  have hload := hstate.load hjson
  cases e with
  | tick v env name policy =>
    have hends : AutoEnds policy (env 0 .now) s.disk _ _ :=
      v.runTick_state (w := World.boot s.disk) name policy
    obtain ⟨hinterval, hclock⟩ := he
    show WellSpaced interval ⟨_, env 0 .now, _⟩
    split
    next c hc =>
      -- the tick took a snapshot, so it was due
      obtain ⟨state', hload', hdue, hnew⟩ := hends.taken c hc
      obtain rfl := Except.ok.inj (hload.symm.trans hload')
      exact hs.took (t := ⟨env 0 .now, false⟩) hclock hcount hnew
        fun _ => hs.due hinterval hlast hdue
    next hno => exact hs.kept hclock (hends.kept hno)
  | force v env message =>
    have hforce : wp env (fun _ => True) (v.forceAutoSnapshot message) _ (World.boot s.disk) :=
      v.wp_forceAutoSnapshot message
    have hends := hforce.post
    show WellSpaced interval (match (run env (v.forceAutoSnapshot message) (World.boot s.disk)).1 with
      | .ok _ => _
      | .error _ => _)
    split
    next c hc =>
      obtain ⟨state', hload', hnew⟩ := hends.1 c hc
      obtain rfl := Except.ok.inj (hload.symm.trans hload')
      exact hs.took (t := ⟨_, true⟩) (he _) hcount hnew fun hf => by cases hf
    next e' he' => exact hs.kept (UInt64.le_refl _) (hends.2 e' he')
  | command v env cmd => exact hs.kept (UInt64.le_refl _) (cmd.after_state v env s.disk)
  | other disk => exact hs.kept (UInt64.le_refl _) he

/-- A vault directory for which no snapshot was ever scheduled. -/
def Ticking.start (disk : VaultFs) (clock : UInt64) : Ticking := ⟨disk, clock, []⟩

/-- **Automatic snapshots keep their distance.**  In every state of every run, the snapshots that the
scheduler took are at least an interval after every one before them, forced ones included, and the
state file tells the newest one and their number. -/
theorem autoSnapshots_spaced (hjson : PolicyStateText.stateJson.RoundTrip) {disk : VaultFs}
    (hdisk : statePath ∉ disk) {clock : UInt64} (hclock : 0 < clock) (es : List TickEvent)
    (hes : Each Ticking.after (fun s e => e.Allowed interval s) (.start disk clock) es) :
    Trace.Always Ticking.after (fun s => Spaced interval s.taken ∧ Told s) (.start disk clock) es := by
  have hstart : WellSpaced interval (.start disk clock) := by
    refine ⟨hclock, fun t ht => absurd ht List.not_mem_nil, .nil, .default, .inl ⟨hdisk, rfl⟩, rfl, ?_⟩
    show (0 : UInt64).toNat = min 0 (2 ^ 64 - 1)
    decide
  have hrun := Trace.always_of_each (fun s e he hs => hs.step hjson he) hes hstart
  exact hrun.mono fun s hs => ⟨hs.spaced, hs.told⟩

/-- **The countdown is what the ticks do.**  When the report at `now` says `k` seconds, a later tick
without an error takes its snapshot exactly when these seconds have passed. -/
theorem autoSnapshot_countdown (hjson : PolicyStateText.stateJson.RoundTrip) {v : Vault}
    {policy : VaultPolicy} {env : Outside} {now k : UInt64} {c : ContentHash} {messagePrefix : String}
    {r : Option ContentHash} {w' : VaultWorld} (hstate : StateIs fs state)
    (hpast : state.lastAutoSnapshotAt ≤ now) (hk : secsUntilSnapshot policy state now = some k)
    (hhead : ReadM.eval fs head = .ok (some c)) (hlater : now ≤ env 0 .now)
    (hrun : run env (v.maybeAutoSnapshot policy messagePrefix) (World.boot fs) = (.ok r, w')) :
    r.isSome = true ↔ now.toNat + k.toNat ≤ (env 0 .now).toNat := by
  have hauto : wp env (fun _ => True) (v.maybeAutoSnapshot policy messagePrefix) _ (World.boot fs) :=
    v.wp_maybeAutoSnapshot policy messagePrefix
  have hends : AutoEnds policy (env 0 .now) fs _ _ := hauto.post
  rw [hrun] at hends
  have hload := hstate.load hjson
  have hdue : r.isSome = true ↔ snapshotDue policy state (env 0 .now) = true := by
    cases r with
    | some h =>
      obtain ⟨state', hload', hdue, -⟩ := hends.taken h rfl
      obtain rfl := Except.ok.inj (hload.symm.trans hload')
      simp [hdue]
    | none =>
      rcases hends.skipped rfl with hno | ⟨state', hload', hdue⟩
      · cases hhead.symm.trans hno
      · obtain rfl := Except.ok.inj (hload.symm.trans hload')
        simp [hdue]
  exact hdue.trans (secsUntilSnapshot_exact hpast hk hlater)

end Run

end Model

/-! ## §5. A scheduled vault. -/

section Sample

attribute [local instance] sample

instance countablePolicyState : Countable PolicyState :=
  countable_of (fun s => (s.lastAutoSnapshotAt, s.lastAutoSnapshotHead, s.autoSnapshotCount,
    s.updatedAt)) (by rintro ⟨⟩ ⟨⟩ h; simpa using h)

/-- A text for every state. -/
@[reducible] noncomputable def sampleStateText : PolicyStateText where
  stateJson := .ofPrinter fun s => String.ofList (codeText s)

attribute [local instance] sampleStateText

theorem sample_stateJson : PolicyStateText.stateJson.RoundTrip :=
  SerdeJson.ofPrinter_roundTrip fun _ _ h => codeText_injective (String.ofList_inj.1 h)

/-- A snapshot every ten seconds. -/
def everyTenSecs : VaultPolicy := { VaultPolicy.default with snapshotIntervalSecs := 10 }

/-- The state after a snapshot at 100. -/
def tookAt100 : PolicyState := ⟨100, some hashA.toHex, 1, 100⟩

/-- A vault whose scheduler remembers it. -/
noncomputable def scheduledDisk : VaultFs := diskOf [
  (headFile, Text.toUtf8 hashA.toHex),
  (statePath, Text.toUtf8 (PolicyStateText.stateJson.toStringPretty tookAt100))]

theorem scheduled_state : StateIs scheduledDisk tookAt100 := by
  refine .inr ?_
  simp [scheduledDisk, statePath, headFile]

theorem scheduled_head : ReadM.eval scheduledDisk head = .ok (some hashA) :=
  eval_head_written (by simp [scheduledDisk])

/-- Seven seconds later nothing is due. -/
theorem run_scheduled_early : run (quiet 107) (plainVault.maybeAutoSnapshot everyTenSecs "scheduled")
    (World.boot scheduledDisk) = (.ok none, (World.boot scheduledDisk).asked) := by
  have hload : ReadM.eval (World.boot scheduledDisk).fs loadState = .ok tookAt100 :=
    scheduled_state.load sample_stateJson
  have hnot : snapshotDue everyTenSecs tookAt100 107 = false := by decide
  unfold Vault.maybeAutoSnapshot
  have hask : run (quiet 107) nowSecs (World.boot scheduledDisk) =
      (.ok (107 : UInt64), (World.boot scheduledDisk).asked) := rfl
  rw [liftM_ofRead, run_read_ok hload, run_bind_ok hask, if_neg (by rw [hnot]; simp)]
  rfl

/-- The countdown at 105 says five seconds; the tick at 107 takes no snapshot. -/
theorem scheduled_countdown : (none : Option ContentHash).isSome = true ↔
    (105 : UInt64).toNat + (5 : UInt64).toNat ≤ (quiet 107 0 .now : UInt64).toNat :=
  have hlater : (105 : UInt64) ≤ 107 := by decide
  autoSnapshot_countdown sample_stateJson scheduled_state (by decide) (by decide) scheduled_head
    hlater run_scheduled_early

end Sample

/-- Digest of `commitS`. -/
def hashS : ContentHash where
  bytes := [
    0x43, 0x99, 0x0b, 0x6e, 0x8e, 0x12, 0xaf, 0x96, 0xa6, 0xbc, 0x6c, 0xa8, 0x69, 0x7d, 0x21,
    0x45, 0xf9, 0x81, 0xdd, 0x51, 0xeb, 0xfa, 0xb1, 0x18, 0x7e, 0x61, 0x02, 0x2e, 0xb2, 0x42,
    0xb0, 0x6d]
  length_eq := rfl

/-- Digest of `commitT`. -/
def hashT : ContentHash where
  bytes := [
    0x45, 0xb0, 0x77, 0xdf, 0x3d, 0x6d, 0x8d, 0x04, 0x61, 0xac, 0x72, 0x35, 0x18, 0x37, 0x30,
    0x86, 0xac, 0x6c, 0x8b, 0x8b, 0x52, 0xd9, 0xb4, 0x52, 0x20, 0x7f, 0x40, 0xa4, 0x16, 0xa6,
    0xa7, 0xe6]
  length_eq := rfl

/-- The commit of a tick on top of `commitA`. -/
def commitS : Commit :=
  { sampleCommit [hashA] 1700000010 "scheduled auto @1700000010" with author := "soal-local" }

/-- The commit of the next one. -/
def commitT : Commit :=
  { sampleCommit [hashS] 1700000020 "scheduled auto @1700000020" with author := "soal-local" }

def wireTickS : Bytes := plainWire localAuthorHash commitS

def wireTickT : Bytes := plainWire localAuthorHash commitT

/-- BLAKE3 on these commits. -/
def tickDigest : Bytes → ContentHash :=
  tableDigest [(wireE, treeE), (wireA, hashA), (wireTickS, hashS), (wireTickT, hashT),
    (Text.toUtf8 "soal-author:soal-local", localAuthorHash)]

section Ticked

@[reducible] noncomputable def tickSample : Crates := standIn tickDigest

attribute [local instance] tickSample sampleStateText

/-- HEAD is at `commitA`; nothing was scheduled so far. -/
def untickedDisk : VaultFs := diskOf [
  (headFile, Text.toUtf8 hashA.toHex),
  (treePathBin treeE, wireE),
  (commitPathBin hashA, wireA)]

/-- The state after the first tick. -/
def tookS : PolicyState := ⟨1700000010, some hashS.toHex, 1, 1700000010⟩

/-- HEAD is at the first tick's commit; the registry was removed meanwhile. -/
noncomputable def tickedDisk : VaultFs := diskOf [
  (headFile, Text.toUtf8 hashS.toHex),
  (statePath, Text.toUtf8 (PolicyStateText.stateJson.toStringPretty tookS)),
  (treePathBin treeE, wireE),
  (commitPathBin hashA, wireA),
  (commitPathBin hashS, wireTickS)]

theorem lookup_tickedState : tickedDisk.lookup statePath =
    some (Text.toUtf8 (PolicyStateText.stateJson.toStringPretty tookS)) := by
  simp [tickedDisk, statePath, headFile]

theorem unticked_takes : (run (quiet 1700000010) (plainVault.maybeAutoSnapshot everyTenSecs
    "scheduled") (World.boot untickedDisk)).1 = .ok (some hashS) := by
  have hcommit : (run (quiet 1700000010) (plainVault.snapshotCommit
      ("scheduled" ++ " auto @" ++ toString (1700000010 : UInt64))) (World.boot untickedDisk).asked).1 =
      .ok hashS := by decide +kernel
  obtain ⟨w₁, hrun⟩ := run_of_result hcommit
  have hno : statePath ∉ untickedDisk ∧ snapshotsPath ∉ untickedDisk := by decide
  have hnow : quiet 1700000010 (World.boot untickedDisk).tick .now = (1700000010 : UInt64) := rfl
  have hstate : StateIs (World.boot untickedDisk).fs .default := .inl ⟨hno.1, rfl⟩
  have hhead : ReadM.eval (World.boot untickedDisk).fs head = .ok (some hashA) :=
    eval_head_written (by simp [untickedDisk])
  exact Vault.maybeAutoSnapshot_takes (standIn_snapshotsJson tickDigest) hnow
    (hstate.load sample_stateJson) (by decide) hhead ⟨_, eval_loadSnapshots_absent hno.2⟩ hrun

theorem ticked_takes : (run (quiet 1700000020) (plainVault.maybeAutoSnapshot everyTenSecs
    "scheduled") (World.boot tickedDisk)).1 = .ok (some hashT) := by
  have hcommit : (run (quiet 1700000020) (plainVault.snapshotCommit
      ("scheduled" ++ " auto @" ++ toString (1700000020 : UInt64))) (World.boot tickedDisk).asked).1 =
      .ok hashT := by decide +kernel
  obtain ⟨w₁, hrun⟩ := run_of_result hcommit
  have hnow : quiet 1700000020 (World.boot tickedDisk).tick .now = (1700000020 : UInt64) := rfl
  have hstate : StateIs (World.boot tickedDisk).fs tookS := .inr lookup_tickedState
  have hhead : ReadM.eval (World.boot tickedDisk).fs head = .ok (some hashS) :=
    eval_head_written (by simp [tickedDisk])
  have hno : snapshotsPath ∉ tickedDisk := by
    rw [← AList.lookup_eq_none]
    simp [tickedDisk, snapshotsPath, headFile, statePath, treePathBin, commitPathBin]
  exact Vault.maybeAutoSnapshot_takes (standIn_snapshotsJson tickDigest) hnow
    (hstate.load sample_stateJson) (by decide) hhead ⟨_, eval_loadSnapshots_absent hno⟩ hrun

/-- A tick, the loss of the registry, and a tick ten seconds after the first. -/
noncomputable def twoTicks : List TickEvent := [
  .tick plainVault (quiet 1700000010) "vault" everyTenSecs,
  .other tickedDisk,
  .tick plainVault (quiet 1700000020) "vault" everyTenSecs]

/-- After the first tick. -/
noncomputable def firstTicked : Ticking :=
  Ticking.after (.start untickedDisk 1) (.tick plainVault (quiet 1700000010) "vault" everyTenSecs)

theorem firstTicked_taken : firstTicked.taken = [⟨1700000010, false⟩] :=
  Ticking.taken_tick _ _ _ _ _ unticked_takes

theorem statePath_not_mem_unticked : statePath ∉ untickedDisk := by decide

/-- The state that the first tick writes is the one the second tick finds. -/
theorem firstTicked_state :
    tickedDisk.lookup statePath = firstTicked.disk.lookup statePath := by
  have hends : AutoEnds everyTenSecs (quiet 1700000010 (World.boot untickedDisk).tick .now)
      (World.boot untickedDisk).fs _ _ := plainVault.runTick_state "vault" everyTenSecs
  obtain ⟨state, hload, -, hstate⟩ := hends.taken hashS unticked_takes
  have hdefault : StateIs untickedDisk .default := .inl ⟨statePath_not_mem_unticked, rfl⟩
  obtain rfl := Except.ok.inj ((hdefault.load sample_stateJson).symm.trans hload)
  have htook : PolicyState.default.took hashS (quiet 1700000010 (World.boot untickedDisk).tick .now) =
      tookS := by decide
  rw [htook] at hstate
  rw [lookup_tickedState]
  rcases hstate with ⟨-, hd⟩ | hl
  · cases hd
  · dsimp only [firstTicked, Ticking.after, Ticking.start]
    rw [hl]

attribute [local irreducible] untickedDisk tickedDisk

/-- Both ticks take a snapshot, and the rule holds all along. -/
theorem two_ticks_spaced :
    (twoTicks.foldl Ticking.after (.start untickedDisk 1)).taken =
      [⟨1700000020, false⟩, ⟨1700000010, false⟩] ∧
    Trace.Always Ticking.after (fun s => Spaced 10 s.taken ∧ Told s) (.start untickedDisk 1)
      twoTicks := by
  have hfirst : (1 : UInt64) ≤ 1700000010 := by decide
  have hsecond : (1700000010 : UInt64) ≤ 1700000020 := by decide
  constructor
  · have hsecondTaken := Ticking.taken_tick { firstTicked with disk := tickedDisk } plainVault
      (quiet 1700000020) "vault" everyTenSecs ticked_takes
    refine hsecondTaken.trans ?_
    rw [firstTicked_taken]
    rfl
  · exact autoSnapshots_spaced sample_stateJson statePath_not_mem_unticked (by decide) _
      ⟨⟨by decide, hfirst⟩, firstTicked_state, ⟨by decide, hsecond⟩, trivial⟩

end Ticked

end Soal

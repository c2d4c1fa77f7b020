/-
  Soal.Schedule — automatic snapshots: the state of the policy engine, and the maintenance tick.

  `policy_state.json` remembers when the last automatic snapshot was taken.  A tick takes a snapshot
  when one is due, pins the live chunks, prunes the snapshot registry, and collects garbage after a
  change.  The clock is asked once to decide whether a snapshot is due; that reading is what the state
  file keeps.
-/
import Soal.Placement
import Soal.Replication

namespace Soal

open FileProg

/-! ## §1. The state of the policy engine. -/

/-- `policy_state.json` -/
structure PolicyState where
  /-- 0 = never -/
  lastAutoSnapshotAt : UInt64
  lastAutoSnapshotHead : Option String
  autoSnapshotCount : UInt64
  updatedAt : UInt64
  deriving DecidableEq

/-- `PolicyState::default` -/
def PolicyState.default : PolicyState := ⟨0, none, 0, 0⟩

/-- `serde_json` at `PolicyState`. -/
class PolicyStateText where
  stateJson : SerdeJson PolicyState

def statePath : FilePath VaultDir := ⟨.root, "policy_state.json"⟩

def stateTmp : FilePath VaultDir := ⟨.root, "policy_state.json.tmp"⟩

/-- `u64::saturating_add(1)` -/
def saturatingSucc (n : UInt64) : UInt64 := if n = .ofNat (2 ^ 64 - 1) then n else n + 1

/-- Whether an auto-snapshot is due given policy + state. -/
def snapshotDue (policy : VaultPolicy) (state : PolicyState) (now : UInt64) : Bool :=
  if policy.snapshotIntervalSecs = 0 then false
  else if state.lastAutoSnapshotAt = 0 then true
  else decide (policy.snapshotIntervalSecs ≤ saturatingSub now state.lastAutoSnapshotAt)

/-- Seconds until next auto-snapshot (none if disabled). -/
def secsUntilSnapshot (policy : VaultPolicy) (state : PolicyState) (now : UInt64) :
    Option UInt64 :=
  if policy.snapshotIntervalSecs = 0 then none
  else if state.lastAutoSnapshotAt = 0 then some 0
  else
    let elapsed := saturatingSub now state.lastAutoSnapshotAt
    if policy.snapshotIntervalSecs ≤ elapsed then some 0
    else some (policy.snapshotIntervalSecs - elapsed)

/-- Merge the overrides that are given into a copy; an empty label removes the label. -/
def VaultPolicy.withUpdates (policy : VaultPolicy) (minReplicas : Option UInt8)
    (snapshotIntervalSecs retainSnapshots : Option UInt64) (liveMode : Option Bool)
    (maxHeadAgeSecs : Option UInt64) (label : Option String) : Res VaultPolicy := do
  let policy := { policy with
    minReplicas := (minReplicas.map (max · 1)).getD policy.minReplicas
    snapshotIntervalSecs := snapshotIntervalSecs.getD policy.snapshotIntervalSecs
    retainSnapshots := retainSnapshots.getD policy.retainSnapshots
    liveMode := liveMode.getD policy.liveMode
    maxHeadAgeSecs := maxHeadAgeSecs.getD policy.maxHeadAgeSecs
    label := match label with
      | some lab => if lab.isEmpty then none else some lab
      | none => policy.label }
  policy.validate
  return policy

section Model

variable [Crates] [PolicyStateText]

def loadState : Reads PolicyState := do
  if ← ReadM.pathExists statePath then
    let s ← readToString statePath
    (serde (PolicyStateText.stateJson.fromStr s) : Res PolicyState)
  else return .default

def saveState (state : PolicyState) : Action Unit :=
  writeRename stateTmp statePath (Text.toUtf8 (PolicyStateText.stateJson.toStringPretty state))

/-- Whether HEAD is older than the policy's `max_head_age_secs`. -/
def headStale (policy : VaultPolicy) (now : UInt64) : Reads Bool := do
  if policy.maxHeadAgeSecs = 0 then return false
  else
    match ← head with
    | none => return false
    | some h =>
      let c ← loadCommit h
      return decide (policy.maxHeadAgeSecs < saturatingSub now c.timestamp)

/-! ## §2. The tick. -/

/-- The state after an automatic snapshot. -/
def PolicyState.took (state : PolicyState) (h : ContentHash) (now : UInt64) : PolicyState where
  lastAutoSnapshotAt := now
  lastAutoSnapshotHead := some h.toHex
  autoSnapshotCount := saturatingSucc state.autoSnapshotCount
  updatedAt := now

/-- Run one auto-snapshot if due.  Returns the commit when a snapshot was taken. -/
def Vault.maybeAutoSnapshot (v : Vault) (policy : VaultPolicy) (messagePrefix : String) :
    Action (Option ContentHash) := do
  let state ← loadState
  let now ← nowSecs
  if snapshotDue policy state now then
    match ← head with
    -- Only snapshot if there is a HEAD (something to label).
    | none => return none
    | some _ =>
      let msg := messagePrefix ++ " auto @" ++ toString now
      let h ← v.snapshot msg
      registerSnapshot h msg true
      let _ ← applyRetention policy
      saveState (state.took h now)
      return some h
  else return none

/-- What a tick did. -/
structure ScheduleTick where
  vault : String
  snapshot : Option String
  pinsAdded : Nat
  snapshotsPruned : Nat
  gcRemoved : Nat
  skippedReason : Option String

/-- Why a tick took no snapshot; a vault without HEAD is not told apart. -/
def skippedReason (policy : VaultPolicy) : Option ContentHash → Option String
  | some _ => none
  | none =>
    if policy.snapshotIntervalSecs = 0 then some "auto-snapshot disabled"
    else some "interval not elapsed"

/-- The rest of a tick, after the snapshot: pins, retention, and a collection after a change. -/
def tickUpkeep (name : String) (policy : VaultPolicy) (snapshot : Option ContentHash) :
    Action ScheduleTick := do
  let pinsAdded ← ensureLocalPins
  let snapshotsPruned ← applyRetention policy
  let gcRemoved ←
    -- Opportunistic GC of orphans after retention changes.
    if 0 < snapshotsPruned ∨ snapshot.isSome then do
      let removed ← okOrNone gcAll
      pure (removed.getD 0)
    else pure 0
  return {
    vault := name
    snapshot := snapshot.map ContentHash.toHex
    pinsAdded
    snapshotsPruned
    gcRemoved
    skippedReason := skippedReason policy snapshot }

/-- Run one maintenance tick on the vault opened under `name`: auto-snapshot if due + pins +
retention + light GC. -/
def Vault.runTick (v : Vault) (name : String) (policy : VaultPolicy) : Action ScheduleTick := do
  let snapshot ← v.maybeAutoSnapshot policy "scheduled"
  tickUpkeep name policy snapshot

/-- Run the scheduler: one tick, then one for each of the `polls` that end before the deadline.  The
policy is loaded again for each tick so CLI updates apply. -/
def Vault.runFor (v : Vault) (name : String) : Nat → Action (List ScheduleTick)
  | 0 => do
    let policy ← loadPolicy v.config
    return [← v.runTick name policy]
  | polls + 1 => do
    let ticks ← v.runFor name polls
    let policy ← loadPolicy v.config
    return ticks ++ [← v.runTick name policy]

/-- Force an auto-snapshot now (ignores interval), updates policy state. -/
def Vault.forceAutoSnapshot (v : Vault) (message : String) : Action ContentHash := do
  let policy ← loadPolicy v.config
  let state ← loadState
  match ← head with
  | none => abort (.other "no HEAD to snapshot")
  | some _ =>
    let h ← v.snapshot message
    let _ ← applyRetention policy
    let now ← nowSecs
    saveState (state.took h now)
    return h

end Model

end Soal

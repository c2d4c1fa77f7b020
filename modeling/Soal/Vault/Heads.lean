/-
  Soal.Vault.Heads — HEAD, the HEADS file, the snapshot registry, and the roots they name.

  Three files keep the roots of a vault: `HEAD`, `HEADS` (alternate tips) and `snapshots.json`
  (registered snapshots).  `protectedCommitRoots` is their union.
-/
import Mathlib.Data.Finset.Option
import Soal.Vault.Objects

namespace Soal

open FileProg

/-! ## §1. HEAD and HEADS. -/

def setHead (commitHash : ContentHash) : Action Unit :=
  writeFile headFile (Text.toUtf8 commitHash.toHex)

/-- The hash on one line of `HEADS`; an empty or malformed line is passed over. -/
def headOfLine (line : List Char) : Option ContentHash :=
  let line := Text.trim line
  if line.isEmpty then none else (ContentHash.fromHexChars line).toOption

/-- Read alternate tips from the HEADS file only (does not inject current HEAD). -/
def listHeadsFileOnly : Reads (Finset ContentHash) := do
  if ← ReadM.pathExists headsFile then
    let body ← readToString headsFile
    return ((Text.lines body.toList).filterMap headOfLine).toFinset
  else return ∅

/-- Get current HEAD commit hash. -/
def head : Reads (Option ContentHash) := do
  if ← ReadM.pathExists headFile then
    let hexstr ← readToString headFile
    let h ← ContentHash.fromHexChars (Text.trim hexstr.toList)
    return some h
  else return none

/-- All known heads (HEAD plus HEADS file). -/
def listHeads : Reads (Finset ContentHash) := do
  let heads ← listHeadsFileOnly
  match ← head with
  | some h => return insert h heads
  | none => return heads

/-- The lines of a HEADS file, in hash order. -/
def headsBody (heads : Finset ContentHash) : List Char :=
  (heads.sort (· ≤ ·)).flatMap (fun h => h.toHexChars ++ ['\n'])

/-- The hashes of a set, in hash order. -/
def sortedHashes (hashes : Finset ContentHash) : List ContentHash := hashes.sort (· ≤ ·)

theorem mem_sortedHashes {hashes : Finset ContentHash} {h : ContentHash} :
    h ∈ sortedHashes hashes ↔ h ∈ hashes := Finset.mem_sort _

def writeHeads (heads : Finset ContentHash) : Action Unit :=
  writeFile headsFile (Text.toUtf8 (String.ofList (headsBody heads)))

/-- Record an alternate head. -/
def recordHead (commitHash : ContentHash) : Action Unit := do
  let heads ← listHeads
  writeHeads (insert commitHash heads)

variable [Crates]

/-- Load the tree at HEAD, or the empty tree if there are no commits yet. -/
def headTree : Reads Tree := do
  match ← head with
  | some h =>
      let commit ← loadCommit h
      loadTree commit.tree
  | none => return Tree.new

/-- Adopt a remote commit as HEAD after it (and its tree) are imported. -/
def setHeadPublic (commitHash : ContentHash) : Action Unit := do
  let _ ← loadCommit commitHash
  setHead commitHash
  recordHead commitHash

/-- Record a head; HEAD itself changes only when it was empty. -/
def setDivergentHead (commitHash : ContentHash) : Action Unit := do
  let _ ← loadCommit commitHash
  recordHead commitHash
  match ← head with
  | none => setHead commitHash
  | some _ => pure ()

/-! ## §2. The snapshot registry. -/

def snapshotsPath : FilePath VaultDir := ⟨.root, "snapshots.json"⟩

def snapshotsTmp : FilePath VaultDir := ⟨.root, "snapshots.json.tmp"⟩

def loadSnapshots : Reads SnapshotLog := do
  if ← ReadM.pathExists snapshotsPath then
    let s ← readToString snapshotsPath
    (serde (Crates.snapshotsJson.fromStr s) : Res SnapshotLog)
  else return ⟨[]⟩

def saveSnapshots (log : SnapshotLog) : Action Unit :=
  writeRename snapshotsTmp snapshotsPath (Text.toUtf8 (Crates.snapshotsJson.toStringPretty log))

/-- Record a snapshot tip in the registry (newest last). -/
def registerSnapshot (hash : ContentHash) (message : String) (auto : Bool) : Action Unit := do
  let log ← loadSnapshots
  let hex := hash.toHex
  let entries := log.entries.filter (fun e => e.hash ≠ hex)
  let now ← nowSecs
  saveSnapshots ⟨entries ++ [⟨hex, now, message, auto⟩]⟩

/-- Drop oldest registry entries beyond `retain` (0 = no prune).  `retain as usize` keeps the value
on a 64-bit target. -/
def pruneSnapshotRegistry (retain : UInt64) : Action Nat := do
  if retain = 0 then return 0
  else
    let log ← loadSnapshots
    let retain := retain.toNat
    if log.entries.length ≤ retain then return 0
    else
      let remove := log.entries.length - retain
      saveSnapshots ⟨log.entries.drop remove⟩
      return remove

/-- Commits the registry names; a malformed hash is passed over. -/
def SnapshotLog.roots (log : SnapshotLog) : Finset ContentHash :=
  (log.entries.filterMap (fun e => (ContentHash.fromHex e.hash).toOption)).toFinset

/-- Commit roots that must stay live for GC: HEAD + registered snapshots + HEADS. -/
def protectedCommitRoots : Reads (List ContentHash) := do
  let h ← head
  let heads ← listHeads
  let log ← loadSnapshots
  return (h.toFinset ∪ heads ∪ log.roots).sort (· ≤ ·)

/-! ## §3. The policy file. -/

def policyPath : FilePath VaultDir := ⟨.root, "policy.json"⟩

def policyTmp : FilePath VaultDir := ⟨.root, "policy.json.tmp"⟩

/-- `VaultPolicy::default` -/
def VaultPolicy.default : VaultPolicy where
  minReplicas := 2
  snapshotIntervalSecs := 0
  retainSnapshots := 0
  liveMode := false
  preferNodes := []
  maxHeadAgeSecs := 0
  label := none

def VaultPolicy.validate (policy : VaultPolicy) : Res Unit :=
  if policy.minReplicas = 0 then fail (.other "min_replicas must be >= 1")
  else if 0 < policy.snapshotIntervalSecs ∧ policy.snapshotIntervalSecs < 5 then
    fail (.other "snapshot_interval_secs must be 0 or >= 5")
  else .ok ()

def savePolicy (policy : VaultPolicy) : Action Unit := do
  (policy.validate : Res Unit)
  writeRename policyTmp policyPath (Text.toUtf8 (Crates.policyJson.toStringPretty policy))

/-- Load policy; if missing, seed from the vault config's `min_replicas`. -/
def loadPolicy (config : VaultConfig) : Action VaultPolicy := do
  if ← (ReadM.pathExists policyPath : Reads Bool) then
    let s ← readToString policyPath
    let p ← (serde (Crates.policyJson.fromStr s) : Res VaultPolicy)
    (p.validate : Res Unit)
    return p
  else
    let p := { VaultPolicy.default with minReplicas := max config.minReplicas 1 }
    savePolicy p
    return p

/-- Apply retention: prune the registry, return how many entries were dropped. -/
def applyRetention (policy : VaultPolicy) : Action Nat := pruneSnapshotRegistry policy.retainSnapshots

omit [Crates] in
/-- The default policy passes its own check. -/
theorem VaultPolicy.default_valid : VaultPolicy.default.validate = .ok () := by decide

end Soal

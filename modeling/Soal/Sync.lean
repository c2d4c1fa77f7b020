/-
  Soal.Sync — DAG fetch with peer failover and checkpoint resume.

  Walks commit parents → trees → chunks, verifying every blob before import.  Checkpoints under
  `sync/jobs/{head}.json` so interrupted syncs can resume (INV-SYNC-02).
-/
import Mathlib.Data.Finset.Card
import Soal.Vault.Heads

namespace Soal

open FileProg

/-! ## §1. Job files. -/

def jobPath (target : ContentHash) : FilePath VaultDir := ⟨.jobs, hexName target ".json"⟩

/-- `path.with_extension("json.tmp")` -/
def jobTmp (target : ContentHash) : FilePath VaultDir := ⟨.jobs, hexName target ".json.tmp"⟩

/-- `SyncJob::new` -/
def SyncJob.new (target : ContentHash) : Action SyncJob := do
  let epoch ← nowSecs
  let updatedAt ← nowSecs
  return {
    target, epoch, updatedAt
    state := .fetching
    doneCommits := ∅
    doneTrees := ∅
    doneChunks := ∅
    error := none }

/-- `SyncJob::touch` -/
def SyncJob.touch (job : SyncJob) : Action SyncJob := do
  return { job with updatedAt := ← nowSecs }

variable [Crates]

/-- The unfinished job a job file holds for the target. -/
def resumableJob (target : ContentHash) (s : String) : Option SyncJob :=
  match Crates.jobJson.fromStr s with
  | .ok job => if job.target = target ∧ job.state ≠ .done then some job else none
  | .error _ => none

/-- The job to resume, when there is one. -/
def savedJob (target : ContentHash) : Reads (Option SyncJob) := do
  if ← ReadM.pathExists (jobPath target) then
    let s ← readToString (jobPath target)
    return resumableJob target s
  else return none

def loadOrCreateJob (target : ContentHash) : Action SyncJob := do
  match ← savedJob target with
  | some job => return job
  | none => SyncJob.new target

def persistJob (job : SyncJob) : Action Unit :=
  writeRename (jobTmp job.target) (jobPath job.target)
    (Text.toUtf8 (Crates.jobJson.toStringPretty job))

/-! ## §2. The network. -/

/-- Fetch a blob by content hash from one peer. -/
def getChunkFromPeer (peer : String) (hash : ContentHash) : Action Bytes := do
  match ← getBlob peer hash with
  | .error e => abort e
  | .ok data =>
    if data.length > maxBlobBytes then abort (.verify "fetched blob exceeds MAX_BLOB_BYTES")
    else if ContentHash.of data ≠ hash then abort (.mismatch hash (.of data))
    else return data

/-- Try the peers in order until one succeeds. -/
def tryPeers (hash : ContentHash) : List String → SoalError → Action (String × Bytes)
  | [], lastErr => abort (.other ("unavailable " ++ hash.toHex ++ ": " ++ lastErr.display))
  | peer :: peers, _ =>
    (getChunkFromPeer peer hash).handle (fun r => match r with
      | .ok data => .done (.ok (peer, data))
      | .error (.err e) => tryPeers hash peers e
      | .error .panic => .done (.error .panic))

/-- Fetch a blob trying peers in order until one succeeds (failover). -/
def getBlobWithFailover (peers : List String) (hash : ContentHash) : Action (String × Bytes) :=
  tryPeers hash peers (.other "no peers")

/-! ## §3. A run: the job outlives an error. -/

/-- The variables of a run that its error path, or its result, reads. -/
structure SyncRun where
  job : SyncJob
  commitsImported : Nat
  treesImported : Nat
  chunksImported : Nat

/-- A part of a run: an error value keeps the variables, a panic does not. -/
def SyncM (α : Type) := SyncRun → Action (Except SoalError α × SyncRun)

namespace SyncM

instance : Monad SyncM where
  pure a := fun run => .done (.ok (.ok a, run))
  bind x f := fun run => do
    match ← x run with
    | (.ok a, run) => f a run
    | (.error e, run) => return (.error e, run)

/-- A step of the vault or the network inside a run. -/
def attempt {α : Type} (x : Action α) : SyncM α := fun run =>
  x.handle (fun r => match r with
    | .ok a => .done (.ok (.ok a, run))
    | .error (.err e) => .done (.ok (.error e, run))
    | .error .panic => .done (.error .panic))

def reject {α : Type} (e : SoalError) : SyncM α := fun run => .done (.ok (.error e, run))

def get : SyncM SyncRun := fun run => .done (.ok (.ok run, run))

def modify (f : SyncRun → SyncRun) : SyncM Unit := fun run => .done (.ok (.ok (), f run))

/-- `job.touch(); persist_job(vault, &job)?` -/
def checkpoint : SyncM Unit := do
  let run ← get
  let job ← attempt run.job.touch
  modify (fun run => { run with job })
  attempt (persistJob job)

def setState (state : SyncState) : SyncM Unit :=
  modify (fun run => { run with job := { run.job with state } })

end SyncM

open SyncM

/-! ## §4. The walk. -/

/-- Make sure a commit is there, then load it. -/
def syncCommit (peers : List String) (c : ContentHash) : SyncM Commit := do
  let run ← get
  if c ∉ run.job.doneCommits then
    if !(← attempt (hasCommitObject c)) then
      let (_, bytes) ← attempt (getBlobWithFailover peers c)
      attempt (importCommitBytes c bytes)
      modify (fun run => { run with commitsImported := run.commitsImported + 1 })
    else
      -- still verify signature on existing
      let commit ← attempt (loadCommit c)
      attempt (verifyCommitSignature commit : Res Unit)
    modify (fun run =>
      { run with job := { run.job with doneCommits := insert c run.job.doneCommits } })
    checkpoint
  attempt (loadCommit c)

/-- Make sure a tree is there, then load it. -/
def syncTree (peers : List String) (treeCid : ContentHash) : SyncM Tree := do
  let run ← get
  if treeCid ∉ run.job.doneTrees then
    if !(← attempt (hasTreeObject treeCid)) then
      let (_, bytes) ← attempt (getBlobWithFailover peers treeCid)
      attempt (importTreeBytes treeCid bytes)
      modify (fun run => { run with treesImported := run.treesImported + 1 })
    modify (fun run =>
      { run with job := { run.job with doneTrees := insert treeCid run.job.doneTrees } })
    checkpoint
  attempt (loadTree treeCid)

/-- Make sure a chunk is there; checkpoint every 32 chunks. -/
def syncChunk (peers : List String) (ch : ContentHash) : SyncM Unit := do
  let run ← get
  if ch ∈ run.job.doneChunks then pure ()
  else
    if !(← attempt (hasChunk ch)) then
      let (_, bytes) ← attempt (getBlobWithFailover peers ch)
      attempt (importStoredChunk ch bytes)
      modify (fun run => { run with chunksImported := run.chunksImported + 1 })
    modify (fun run =>
      { run with job := { run.job with doneChunks := insert ch run.job.doneChunks } })
    let run ← get
    if run.job.doneChunks.card % 32 = 0 then checkpoint

def syncChunks (peers : List String) : List ContentHash → SyncM Unit
  | [] => pure ()
  | ch :: chs => do
    syncChunk peers ch
    syncChunks peers chs

/-- Everything a commit needs besides its parents, which are returned. -/
def syncVisit (peers : List String) (c : ContentHash) : SyncM (List ContentHash) := do
  let commit ← syncCommit peers c
  let tree ← syncTree peers commit.tree
  syncChunks peers tree.allChunkHashes
  return commit.parents

/-- The walk over the DAG, first in first out.  A pop either shortens the queue or visits a new
commit, of which the cap allows `MAX_JOB_COMMITS + 1`. -/
def syncWalk (peers : List String) (visited : Finset ContentHash) : List ContentHash → SyncM Unit
  | [] => pure ()
  | c :: queue =>
    if _ : visited.card > maxJobCommits then reject (.other "DAG too deep (MAX_JOB_COMMITS)")
    else if _ : c ∈ visited then syncWalk peers visited queue
    else do
      let parents ← syncVisit peers c
      syncWalk peers (insert c visited) (queue ++ parents)
termination_by queue => (maxJobCommits + 1 - visited.card, queue.length)
decreasing_by
  · exact Prod.Lex.right _ (by simp)
  · refine Prod.Lex.left _ _ ?_
    have hcard : (insert c visited).card = visited.card + 1 := Finset.card_insert_of_notMem ‹_›
    omega

/-! ## §5. `fetch_dag`. -/

/-- Result of a successful DAG sync. -/
structure SyncResult where
  target : ContentHash
  commitsImported : Nat
  treesImported : Nat
  chunksImported : Nat
  headUpdated : Bool
  deriving DecidableEq

/-- The fallible part of a run: walk, verify, adopt. -/
def syncBody (peers : List String) (target : ContentHash) (adopt : Bool) : SyncM SyncResult := do
  syncWalk peers ∅ [target]
  setState .verifying
  checkpoint
  if !(← attempt (isComplete target)) then
    reject (.verify "sync finished but target not complete")
  else
    if adopt then attempt (setHeadPublic target)
    setState .done
    checkpoint
    let run ← get
    return {
      target
      commitsImported := run.commitsImported
      treesImported := run.treesImported
      chunksImported := run.chunksImported
      headUpdated := adopt }

/-- The end of a run: an error is recorded in the job file before it is returned. -/
def syncFinish : Except SoalError SyncResult × SyncRun → Action SyncResult
  | (.ok result, _) => return result
  | (.error e, run) => do
    let job ← SyncJob.touch { run.job with state := .failed, error := some e.display }
    let _ ← okOrNone (persistJob job)
    abort e

/-- Fetch from the start of a job file on. -/
def fetchMissing (peers : List String) (target : ContentHash) (adopt : Bool) :
    Action SyncResult := do
  let job ← loadOrCreateJob target
  let job ← SyncJob.touch { job with state := .fetching }
  persistJob job
  let out ← syncBody peers target adopt ⟨job, 0, 0, 0⟩
  syncFinish out

/-- Fetch a complete commit DAG (target + parents) with peer failover; `adopt` is the source's
`set_head`. -/
def fetchDag (peers : List String) (target : ContentHash) (adopt : Bool) : Action SyncResult := do
  if peers.isEmpty then abort (.other "no peers for sync")
  else if ← isComplete target then
    if adopt then setHeadPublic target
    return ⟨target, 0, 0, 0, adopt⟩
  else fetchMissing peers target adopt

end Soal

/-
  Soal.Replication — pins, have-lists of peers, replica estimates, and serving HEAD to the network.

  `pins.json` lists the chunks this node keeps.  `replication/peer_have.json` lists, for every peer,
  the objects it announced; an estimate adds the peers that list an object to the local copy.
-/
import Soal.Lib.LooksAt
import Soal.Vault.Config
import Soal.Vault.Gc
import Soal.Vault.Serve

namespace Soal

open FileProg

/-! ## §1. Pins. -/

def PinSet.default : PinSet := ⟨∅, 0⟩

def PeerHave.default : PeerHave := ⟨.empty, 0⟩

def pinsPath : FilePath VaultDir := ⟨.root, "pins.json"⟩

/-- `path.with_extension("json.tmp")` -/
def pinsTmp : FilePath VaultDir := ⟨.root, "pins.json.tmp"⟩

def havePath : FilePath VaultDir := ⟨.replication, "peer_have.json"⟩

def haveTmp : FilePath VaultDir := ⟨.replication, "peer_have.json.tmp"⟩

section Model

variable [Crates]

def loadPins : Reads PinSet := do
  if ← ReadM.pathExists pinsPath then
    let s ← readToString pinsPath
    (serde (Crates.pinsJson.fromStr s) : Res PinSet)
  else return .default

def savePins (pins : PinSet) : Action Unit :=
  writeRename pinsTmp pinsPath (Text.toUtf8 (Crates.pinsJson.toStringPretty pins))

/-- Pin every live chunk; the number of new pins is returned. -/
def ensureLocalPins : Action Nat := do
  let live ← liveChunkHashes
  let pins ← loadPins
  let all := pins.pins ∪ live.image ContentHash.toHex
  let now ← nowSecs
  savePins ⟨all, now⟩
  return all.card - pins.pins.card

/-! ## §2. Have-lists. -/

/-- The list a peer gets: what it had, and `cids`. -/
def PeerHave.noted (known : PeerHave) (peerId : String) (cids : List ContentHash) (now : UInt64) :
    PeerHave :=
  let entry := (known.peers.get? peerId).getD ∅
  ⟨known.peers.insert peerId (cids.foldl (fun s c => insert c.toHex s) entry), now⟩

/-- The have-lists on disk, `PeerHave::default()` when there is no file. -/
def readHave : Reads PeerHave := do
  if ← ReadM.pathExists havePath then
    let s ← readToString havePath
    (serde (Crates.haveJson.fromStr s) : Res PeerHave)
  else return .default

/-- Record that a peer has a set of CIDs (from gossip / sync). -/
def notePeerHas (peerId : String) (cids : List ContentHash) : Action Unit := do
  let known ← readHave
  let now ← nowSecs
  writeRename haveTmp havePath
    (Text.toUtf8 (Crates.haveJson.toStringPretty (known.noted peerId cids now)))

/-- The have-lists; a file that cannot be read or parsed counts as empty. -/
def loadHave : Reads PeerHave := do
  match ← okOrNone (readToString havePath) with
  | some s => return (Crates.haveJson.fromStr s).toOption.getD .default
  | none => return .default

/-- The peers whose list contains `hex`, in order. -/
def PeerHave.holders (known : PeerHave) (hex : String) : List String :=
  (known.peers.entries.filter (fun e => decide (hex ∈ e.2))).map Prod.fst

/-- A chunk, a tree or a commit of this hash is stored here. -/
def heldLocally (cid : ContentHash) : Reads Bool := do
  return (← hasChunk cid) || (← hasTreeObject cid) || (← hasCommitObject cid)

/-- Estimate replica count for a CID: local + peers who announced it. -/
def estimatedReplicas (cid : ContentHash) : Reads Nat := do
  let n := if ← heldLocally cid then 1 else 0
  let known ← loadHave
  return n + (known.holders cid.toHex).length

/-! ## §3. What is under-replicated. -/

/-- The hashes of the list with fewer than `min` replicas, in order. -/
def belowMin (min : Nat) : List ContentHash → Reads (List ContentHash)
  | [] => return []
  | h :: hs => do
    let n ← estimatedReplicas h
    let rest ← belowMin min hs
    return if n < min then h :: rest else rest

/-- Check which live chunks are below min_replicas. -/
def underReplicatedChunks (v : Vault) : Reads (List ContentHash) := do
  let live ← liveChunkHashes
  belowMin v.config.minReplicas.toNat (sortedHashes live)

/-- The number of hashes of the list with no chunk file. -/
def countMissing : List ContentHash → Reads Nat
  | [] => return 0
  | h :: hs => do
    let here ← hasChunk h
    let rest ← countMissing hs
    return if here then rest else rest + 1

/-- Status summary for CLI / health. -/
structure ReplicationStatus where
  minReplicas : UInt8
  liveChunks : Nat
  pinnedChunks : Nat
  missingLocal : Nat
  estimatedUnderReplicated : Nat
  peersKnown : Nat

def replicationStatus (v : Vault) : Reads ReplicationStatus := do
  let live ← liveChunkHashes
  let pins ← loadPins
  let known ← loadHave
  let missing ← countMissing (sortedHashes live)
  let under ← belowMin v.config.minReplicas.toNat (sortedHashes live)
  return {
    minReplicas := v.config.minReplicas
    liveChunks := live.card
    pinnedChunks := pins.pins.card
    missingLocal := missing
    estimatedUnderReplicated := under.length
    peersKnown := known.peers.size }

/-! ## §4. Serving HEAD. -/

/-- Make bytes available for peers.  Verifies the hash before providing (INV-IROH-01). -/
def provide (hash : ContentHash) (data : Bytes) : Action Unit := do
  if data.length > maxBlobBytes then
    abort (.verify ("blob exceeds MAX_BLOB_BYTES (" ++ toString maxBlobBytes ++ ")"))
  else if ContentHash.of data ≠ hash then abort (.mismatch hash (.of data))
  else
    match ← ask (Q := outside) (.addBytes data) with
    | .ok () => pure ()
    | .error e => abort (.other ("blobs provide: " ++ e))

/-- Provide many (hash, bytes) pairs. -/
def provideMany : List (ContentHash × Bytes) → Action Nat
  | [] => return 0
  | (h, data) :: items => do
    provide h data
    let n ← provideMany items
    return n + 1

/-- Load the objects of a commit DAG into the blob store. -/
def provideFromVault (commitHash : ContentHash) : Action Nat := do
  let items ← collectProvideHashes commitHash
  provideMany items

/-- Announce a vault HEAD with a signed head announcement (INV-SIG-02). -/
def announceHeadSigned (v : Vault) (headHash : ContentHash) : Action Unit := do
  let _ ← provideFromVault headHash
  let vaultId ← (v.vaultIdBytes : Res Bytes)
  match ← ask (Q := outside) (.broadcastHead vaultId headHash) with
  | .ok () => pure ()
  | .error e => abort e

/-- Pin live data and re-provide the HEAD DAG so that peers can pull replicas; `nodeId` is the
network's own id.  Returns the number of blobs provided. -/
def replicateHead (v : Vault) (nodeId : String) : Action Nat := do
  let _ ← ensureLocalPins
  match ← head with
  | none => return 0
  | some h =>
    -- Record ourselves as having these CIDs.
    let items ← collectProvideHashes h
    notePeerHas nodeId (items.map Prod.fst)
    let n ← provideFromVault h
    let _ ← okOrNone (announceHeadSigned v h)
    return n

end Model

end Soal

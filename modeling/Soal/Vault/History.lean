/-
  Soal.Vault.History — the operations that extend the history: add, snapshot, merge, ingest; and
  restore.
-/
import Soal.Crypto
import Soal.Merge
import Soal.Vault.Heads

namespace Soal

open FileProg

variable [Crates]

/-! ## §1. Chunks of a vault. -/

/-- What a vault stores for a plaintext chunk. -/
def Vault.storedForm (v : Vault) (plain : Bytes) : Res Bytes :=
  match v.key with
  | some k => encryptDeterministic plain k
  | none => .ok plain

/-- The storage key is BLAKE3 of what is stored (ciphertext when encrypted). -/
def Vault.storeChunk (v : Vault) (plain : Bytes) : Action ContentHash := do
  let dataToStore ← (v.storedForm plain : Res Bytes)
  let storeHash := ContentHash.of dataToStore
  let _ ← ChunkStore.putVerified storeHash dataToStore
  return storeHash

def Vault.storeChunks (v : Vault) : List Bytes → Action (List ContentHash)
  | [] => return []
  | c :: cs => do
    let h ← v.storeChunk c
    return h :: (← v.storeChunks cs)

def Vault.loadChunk (v : Vault) (hash : ContentHash) : Reads Bytes := do
  let stored ← ChunkStore.get hash
  match v.key with
  | some k => (decryptChunk stored k : Res Bytes)
  | none => return stored

/-! ## §2. Commits. -/

/-- The local node's author text, when there is a node identity. -/
def Vault.localAuthor (v : Vault) : Action String := do
  match v.soalHome with
  | some home =>
      let author ← localAuthorSync home
      return author.toOption.getD "soal-local"
  | none => return "soal-local"

/-- Sign a commit when there is a node key. -/
def Vault.signLocally (v : Vault) (commit : Commit) : Action Commit := do
  match v.soalHome with
  | some home =>
      match ← loadSecretKey home with
      | .ok sk => (signCommit sk commit : Res Commit)
      | .error _ => return commit
  | none => return commit

/-- Build a commit, signed with the local node key when there is one. -/
def Vault.makeCommit (v : Vault) (tree : ContentHash) (parents : List ContentHash)
    (message : String) : Action Commit := do
  let author ← v.localAuthor
  let timestamp ← nowSecs
  v.signLocally {
    tree, parents, author, timestamp, message
    protocolVersion := .ofNat protocolVersion
    signature := none }

/-- The end of every operation that makes a commit: save it, then point HEAD at it. -/
def Vault.commitTree (v : Vault) (tree : ContentHash) (parents : List ContentHash)
    (message : String) : Action ContentHash := do
  let commit ← v.makeCommit tree parents message
  let commitHash ← saveCommit commit
  setHead commitHash
  return commitHash

/-! ## §3. Adding files. -/

/-- What `add_path` finds at the path it is given.  A directory is its regular files, each by the
components of its name below the directory, in operating-system bytes. -/
inductive Source where
  | file (data : Bytes)
  | dir (files : List (List Bytes × Bytes))
  | neither

/-- `walkdir_simple`: the files in path order. -/
def walkdirSimple (files : List (List Bytes × Bytes)) : List (List Bytes × Bytes) :=
  files.mergeSort (fun a b => decide (¬b.1 < a.1))

/-- Components joined by `/`; a component that is not UTF-8 is dropped. -/
def relativeName (components : List Bytes) : String :=
  String.intercalate "/" (components.filterMap Text.fromUtf8)

/-- The logical path of a file of a directory, under the base name. -/
def logicalName (baseName : String) (components : List Bytes) : Res String :=
  (normalizeAndValidate (relativeName components)).bind (fun relStr =>
    normalizeAndValidate (if baseName.isEmpty then relStr else baseName ++ "/" ++ relStr))

/-- A file read for the new tree: path, size, chunks. -/
abbrev FileEntry := String × UInt64 × List ContentHash

/-- Chunk a file's data and store the chunks. -/
def Vault.addData (v : Vault) (path : String) (data : Bytes) : Action FileEntry := do
  let hashes ← v.storeChunks (chunkBytes data)
  return (path, .ofNat data.length, hashes)

/-- The files of a directory, under the base name. -/
def Vault.addFiles (v : Vault) (baseName : String) :
    List (List Bytes × Bytes) → Action (List FileEntry)
  | [] => return []
  | (components, data) :: files => do
    let relStr ← (normalizeAndValidate (relativeName components) : Res String)
    if relStr.isEmpty then v.addFiles baseName files
    else
      let (_, size, hashes) ← v.addData relStr data
      let logical := if baseName.isEmpty then relStr else baseName ++ "/" ++ relStr
      let logical ← (normalizeAndValidate logical : Res String)
      return (logical, size, hashes) :: (← v.addFiles baseName files)

/-- The entries a source contributes. -/
def Vault.addSource (v : Vault) (baseName : String) : Source → Action (List FileEntry)
  | .file data =>
      if baseName.isEmpty then abort (.invalidPath "logical file name required")
      else do return [← v.addData baseName data]
  | .dir files => v.addFiles baseName (walkdirSimple files)
  | .neither => abort (.other "path is neither file nor dir")

def Tree.addEntries : Tree → List FileEntry → Res Tree
  | tree, [] => .ok tree
  | tree, (p, size, chunks) :: entries => do
    let tree ← tree.tryAddFile p size chunks
    tree.addEntries entries

omit [Crates] in
/-- What every added file and every old entry satisfies, every entry of the new tree does. -/
theorem Tree.All.addEntries {P : String → TreeEntry → Prop} {tree tree' : Tree}
    {entries : List FileEntry} (h : tree.All P) (hadd : tree.addEntries entries = .ok tree')
    (hnew : ∀ e ∈ entries, ∀ path, validatePath path = .ok () → P path (.file e.2.1 e.2.2)) :
    tree'.All P := by
  induction entries generalizing tree with
  | nil =>
    obtain rfl := Except.ok.inj hadd
    exact h
  | cons e entries ih =>
    obtain ⟨path, size, chunks⟩ := e
    obtain ⟨tree₁, h₁, hadd⟩ := bind_ok_iff.1 hadd
    obtain ⟨path', hnorm, rfl⟩ := Tree.tryAddFile_ok_iff.1 h₁
    refine ih (h.insert ?_) hadd fun e he => hnew e (List.mem_cons_of_mem _ he)
    exact hnew _ List.mem_cons_self path' (validatePath_of_normalize hnorm)

/-- The logical base name: empty, or strictly valid. -/
def validBaseName (baseName : String) : Res String :=
  if baseName.isEmpty then .ok "" else normalizeAndValidate baseName

/-- Add a file or directory, merging into the current HEAD tree. -/
def Vault.addPath (v : Vault) (source : Source) (baseName : String) : Action ContentHash := do
  let baseName ← (validBaseName baseName : Res String)
  let fileEntries ← v.addSource baseName source
  if fileEntries.isEmpty then abort (.other "nothing to add")
  else
    let tree ← headTree
    let tree ← (tree.addEntries fileEntries : Res Tree)
    let treeHash ← saveTree tree
    let msg := match source with
      | .dir _ => "Add dir " ++ baseName
      | _ => "Add " ++ baseName
    let parents ← head
    v.commitTree treeHash parents.toList msg

/-! ## §4. Snapshots. -/

/-- The commit of a snapshot: HEAD's tree, or an empty tree when there is no HEAD. -/
def Vault.snapshotCommit (v : Vault) (message : String) : Action ContentHash := do
  match ← head with
  | some currentHead =>
      let headCommit ← loadCommit currentHead
      v.commitTree headCommit.tree [currentHead] message
  | none =>
      let treeHash ← saveTree Tree.new
      v.commitTree treeHash [] message

/-- Create an explicit snapshot commit; the registry is best-effort. -/
def Vault.snapshot (v : Vault) (message : String) : Action ContentHash := do
  let commitHash ← v.snapshotCommit message
  let _ ← okOrNone (registerSnapshot commitHash message false)
  match ← okOrNone (loadPolicy v.config) with
  | some pol =>
      let _ ← okOrNone (applyRetention pol)
      return commitHash
  | none => return commitHash

/-! ## §5. Merging heads. -/

def mergeMessage (fromLabel : String) (conflicts : Nat) : String :=
  if conflicts > 0 then
    "Merge " ++ fromLabel ++ " (" ++ toString conflicts ++ " conflict" ++
      (if conflicts = 1 then "" else "s") ++ ")"
  else "Merge " ++ fromLabel

/-- The local HEAD, then the remote head unless it is the same. -/
def mergeParents (localHead : Option ContentHash) (remoteHead : ContentHash) : List ContentHash :=
  if remoteHead ∈ localHead.toList then localHead.toList else localHead.toList ++ [remoteHead]

/-- The tree of the local HEAD, empty without one. -/
def treeOfHead : Option ContentHash → Reads Tree
  | some h => do
      let lc ← loadCommit h
      loadTree lc.tree
  | none => return Tree.new

/-- Merge a remote head into local HEAD with conflict copies.  Returns the merge commit hash and the
number of conflict copies. -/
def Vault.mergeHead (v : Vault) (remoteHead : ContentHash) (fromLabel : String) :
    Action (ContentHash × Nat) := do
  let _ ← loadCommit remoteHead
  let remoteCommit ← loadCommit remoteHead
  let remoteTree ← loadTree remoteCommit.tree
  let localHead ← head
  let ours ← treeOfHead localHead
  let (merged, conflicts) := ours.mergeWithConflicts remoteTree fromLabel
  let treeHash ← saveTree merged
  let commitHash ← v.commitTree treeHash (mergeParents localHead remoteHead)
    (mergeMessage fromLabel conflicts)
  -- Collapse multi-heads to the merge result
  writeHeads {commitHash}
  return (commitHash, conflicts)

/-! ## §6. Ingest from a peer. -/

/-- Fetch the chunks of the list that are missing. -/
def ingestChunks (peer : String) : List ContentHash → Action Unit
  | [] => pure ()
  | ch :: chs => do
    if ← hasChunk ch then ingestChunks peer chs
    else
      let bytes ← fetch ch
      importStoredChunk ch bytes
      ingestChunks peer chs
where
  /-- the caller's fetch function -/
  fetch (hash : ContentHash) : Action Bytes := do
    match ← getBlob peer hash with
    | .ok bytes => return bytes
    | .error e => abort e

/-- Adopt the remote as HEAD when there is none, otherwise record it as an alternate head (whether or
not it is the local HEAD). -/
def adoptIngested (commitHash : ContentHash) : Action Bool := do
  match ← head with
  | none =>
      setHead commitHash
      return true
  | some _ =>
      recordHead commitHash
      return false

/-- Ingest a full snapshot from a peer: commit → tree → missing chunks. -/
def ingestCommitFromPeer (peer : String) (commitHash : ContentHash) : Action Bool := do
  if !(← hasCommitObject commitHash) then
    let bytes ← ingestChunks.fetch peer commitHash
    importCommitBytes commitHash bytes
  let commit ← loadCommit commitHash
  if !(← hasTreeObject commit.tree) then
    let bytes ← ingestChunks.fetch peer commit.tree
    importTreeBytes commit.tree bytes
  let tree ← loadTree commit.tree
  ingestChunks peer tree.allChunkHashes
  adoptIngested commitHash

/-! ## §7. Restore. -/

/-- The target of a restore: what it asks of the file system outside the vault.  A call that fails
leaves behind what it did. -/
structure Destination (σ : Type) where
  /-- `fs::create_dir_all(target)` -/
  createTarget : σ → Res Unit × σ
  /-- `safe_join(target, name)` -/
  safeJoin : σ → String → Res String
  /-- `fs::create_dir_all(parent)` of an output path -/
  createParent : σ → String → Res Unit × σ
  /-- `fs::write(path, data)` -/
  write : σ → String → Bytes → Res Unit × σ

/-- Load the chunks of a file, re-deriving each storage hash from the plaintext. -/
def Vault.restoreChunks (v : Vault) : List ContentHash → Reads Bytes
  | [] => return []
  | h :: hs => do
    let chunkPlain ← v.loadChunk h
    let stored ← (v.storedForm chunkPlain : Res Bytes)
    if ContentHash.of stored ≠ h then abort (.mismatch h (.of stored))
    else return chunkPlain ++ (← v.restoreChunks hs)

/-- Write the file entries of a tree; the target keeps what was written before an error. -/
def Vault.restoreEntries {σ : Type} (v : Vault) (dest : Destination σ) :
    List (String × TreeEntry) → σ → Reads (Res Unit × σ)
  | [], target => return (.ok (), target)
  | (_, .dir _) :: entries, target => v.restoreEntries dest entries target
  | (name, .file size chunks) :: entries, target =>
    let stop (e : Fault) : Reads (Res Unit × σ) := return (.error e, target)
    match dest.safeJoin target name with
    | .error e => stop e
    | .ok outPath =>
      (v.restoreChunks chunks).handle (fun r => match r with
        | .error e => stop e
        | .ok fileData =>
          if UInt64.ofNat fileData.length ≠ size then
            stop (.err (.verify ("file size mismatch for '" ++ name ++ "': manifest " ++
              toString size ++ ", got " ++ toString fileData.length)))
          else
            match dest.createParent target outPath with
            | (.error e, target) => return (.error e, target)
            | (.ok (), target) =>
              match dest.write target outPath fileData with
              | (.error e, target) => return (.error e, target)
              | (.ok (), target) => v.restoreEntries dest entries target)

/-- Restore a commit's files into a target. -/
def Vault.restore {σ : Type} (v : Vault) (dest : Destination σ) (commitHash : ContentHash)
    (target : σ) : Reads (Res Unit × σ) := do
  let commit ← loadCommit commitHash
  let tree ← loadTree commit.tree
  match dest.createTarget target with
  | (.error e, target) => return (.error e, target)
  | (.ok (), target) => v.restoreEntries dest tree.entries.entries target

end Soal

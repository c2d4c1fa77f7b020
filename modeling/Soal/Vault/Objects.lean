/-
  Soal.Vault.Objects — commit and tree objects on disk: has, load, save, export, import.

  Commits and trees go through the same code; what differs is collected in `ObjectKind`.
-/
import Soal.Codec.RoundTrip
import Soal.Identity
import Soal.Store

namespace Soal

open FileProg

/-! ## §1. A kind of object. -/

/-- What distinguishes commits from trees on disk. -/
structure ObjectKind (α : Type) where
  dir : VaultDir
  domain : Bytes
  fromWireOrJson : Bytes → Res α
  fromBytes : Bytes → Res α
  wireBytes : α → Res Bytes
  legacyBytes : α → Bytes
  notFound : String → SoalError
  /-- check of a framed import beyond its hash -/
  verify : α → Res Unit

namespace ObjectKind

variable {α : Type} (K : ObjectKind α)

/-- Wire file. -/
def pathBin (hash : ContentHash) : FilePath VaultDir := ⟨K.dir, hexName hash ".bin"⟩

/-- Legacy file. -/
def pathJson (hash : ContentHash) : FilePath VaultDir := ⟨K.dir, hexName hash ".json"⟩

section Paths

variable {K} {h h' : ContentHash}

@[simp] theorem pathBin_dir : (K.pathBin h).dir = K.dir := rfl

@[simp] theorem pathJson_dir : (K.pathJson h).dir = K.dir := rfl

@[simp] theorem pathBin_inj : K.pathBin h = K.pathBin h' ↔ h = h' := by simp [pathBin]

@[simp] theorem pathJson_inj : K.pathJson h = K.pathJson h' ↔ h = h' := by simp [pathJson]

@[simp] theorem pathBin_ne_pathJson : K.pathBin h ≠ K.pathJson h' := by simp [pathBin, pathJson]

@[simp] theorem pathJson_ne_pathBin : K.pathJson h ≠ K.pathBin h' := by simp [pathBin, pathJson]

end Paths

variable [Crates]

/-- Wire CID. -/
def hash (x : α) : Res ContentHash := (K.wireBytes x).map ContentHash.of

/-- Legacy CID. -/
def legacyJsonHash (x : α) : ContentHash := .of (K.legacyBytes x)

def hasObject (hash : ContentHash) : Reads Bool := do
  return (← ReadM.pathExists (K.pathBin hash)) || (← ReadM.pathExists (K.pathJson hash))

/-- The object a `.bin` file of this name holds. -/
def parseBin (hash : ContentHash) (data : Bytes) : Res α := do
  if ContentHash.of data ≠ hash then fail (.mismatch hash (.of data))
  else
    let x ← K.fromWireOrJson data
    let actual ← K.hash x
    if actual ≠ hash then fail (.mismatch hash actual) else return x

/-- The object a `.json` file of this name holds; the file's own hash is accepted as well. -/
def parseJson (hash : ContentHash) (data : Bytes) : Res α := do
  let x ← K.fromBytes data
  let actual := K.legacyJsonHash x
  if actual ≠ hash ∧ ContentHash.of data ≠ hash then fail (.mismatch hash actual) else return x

/-- Prefer wire `.bin`; dual-read legacy `.json`. -/
def load (hash : ContentHash) : Reads α := do
  if ← ReadM.pathExists (K.pathBin hash) then
    let data ← readFile (K.pathBin hash)
    K.parseBin hash data
  else if ← ReadM.pathExists (K.pathJson hash) then
    let data ← readFile (K.pathJson hash)
    K.parseJson hash data
  else abort (K.notFound hash.toHex)

/-- Write the wire form under its CID. -/
def save (x : α) : Action ContentHash := do
  let hash ← (K.hash x : Res ContentHash)
  let bytes ← (K.wireBytes x : Res Bytes)
  writeFile (K.pathBin hash) bytes
  return hash

/-- Bytes that content-address to `hash`: the `.bin` file, else a re-encoding of the loaded
object. -/
def exportLoaded (hash : ContentHash) : Reads Bytes := do
  let x ← K.load hash
  let wire ← (K.wireBytes x : Res Bytes)
  if ContentHash.of wire = hash then return wire
  else
    let legacy := K.legacyBytes x
    if ContentHash.of legacy = hash then return legacy else abort (.mismatch hash (.of wire))

def exportBytes (hash : ContentHash) : Reads Bytes := do
  if ← ReadM.pathExists (K.pathBin hash) then
    let data ← readFile (K.pathBin hash)
    if ContentHash.of data = hash then return data else K.exportLoaded hash
  else K.exportLoaded hash

/-- Import an object; accepts framed wire or legacy JSON. -/
def importBytes (hash : ContentHash) (data : Bytes) : Action Unit := do
  if ContentHash.of data ≠ hash then abort (.mismatch hash (.of data))
  else if isFramed K.domain data then
    let x ← (K.fromWireOrJson data : Res α)
    let actual ← (K.hash x : Res ContentHash)
    if actual ≠ hash then abort (.mismatch hash actual)
    else
      (K.verify x : Res Unit)
      writeFile (K.pathBin hash) data
  else
    let x ← (K.fromBytes data : Res α)
    if K.legacyJsonHash x ≠ hash ∧ ContentHash.of data ≠ hash then
      abort (.mismatch hash (K.legacyJsonHash x))
    else writeFile (K.pathJson hash) data

end ObjectKind

/-! ## §2. Commits and trees. -/

variable [Crates]

def commitKind : ObjectKind Commit where
  dir := .commits
  domain := domainCommit
  fromWireOrJson := Commit.fromWireOrJson
  fromBytes := Commit.fromBytes
  wireBytes := encodeCommitWire
  legacyBytes := Commit.legacyJsonBytes
  notFound := .commitNotFound
  verify := verifyCommitSignature

def treeKind : ObjectKind Tree where
  dir := .trees
  domain := domainTree
  fromWireOrJson := Tree.fromWireOrJson
  fromBytes := Tree.fromBytes
  wireBytes := encodeTreeWire
  legacyBytes := Tree.canonicalBytes
  notFound := .treeNotFound
  verify _ := .ok ()

/-- The files of a kind are the source's. -/
theorem kind_paths (h : ContentHash) : commitKind.pathBin h = commitPathBin h ∧
    commitKind.pathJson h = commitPathJson h ∧ treeKind.pathBin h = treePathBin h ∧
    treeKind.pathJson h = treePathJson h := ⟨rfl, rfl, rfl, rfl⟩

def hasCommitObject (hash : ContentHash) : Reads Bool := commitKind.hasObject hash

def hasTreeObject (hash : ContentHash) : Reads Bool := treeKind.hasObject hash

def loadCommit (hash : ContentHash) : Reads Commit := commitKind.load hash

def loadTree (hash : ContentHash) : Reads Tree := treeKind.load hash

def saveCommit (commit : Commit) : Action ContentHash := commitKind.save commit

def saveTree (tree : Tree) : Action ContentHash := treeKind.save tree

def exportCommitBytes (hash : ContentHash) : Reads Bytes := commitKind.exportBytes hash

def exportTreeBytes (hash : ContentHash) : Reads Bytes := treeKind.exportBytes hash

def importCommitBytes (hash : ContentHash) (data : Bytes) : Action Unit :=
  commitKind.importBytes hash data

def importTreeBytes (hash : ContentHash) (data : Bytes) : Action Unit :=
  treeKind.importBytes hash data

/-- Read raw stored bytes for a chunk. -/
def exportStoredChunk (hash : ContentHash) : Reads Bytes := ChunkStore.get hash

/-- Write received stored bytes under the given storage hash (verified). -/
def importStoredChunk (hash : ContentHash) (data : Bytes) : Action Unit := do
  let _ ← ChunkStore.putVerified hash data
  pure ()

def hasChunk (hash : ContentHash) : Reads Bool := ChunkStore.existsChunk hash

/-- Every hash of the list is a stored chunk. -/
def hasChunks : List ContentHash → Reads Bool
  | [] => return true
  | ch :: chs => do if ← hasChunk ch then hasChunks chs else return false

/-- Whether commit + tree + all chunks are present and loadable. -/
def isComplete (commitHash : ContentHash) : Reads Bool := do
  if ← hasCommitObject commitHash then
    let commit ← loadCommit commitHash
    if ← hasTreeObject commit.tree then
      let tree ← loadTree commit.tree
      hasChunks tree.allChunkHashes
    else return false
  else return false

/-! ## §3. What loading depends on. -/

namespace ObjectKind

variable {α : Type} (K : ObjectKind α) {fs fs' : VaultFs} {h : ContentHash}

/-- An object is present: one of its two files exists. -/
def Present (fs : VaultFs) (h : ContentHash) : Prop := K.pathBin h ∈ fs ∨ K.pathJson h ∈ fs

instance (fs : VaultFs) (h : ContentHash) : Decidable (K.Present fs h) :=
  inferInstanceAs (Decidable (_ ∨ _))

omit [Crates] in
@[simp] theorem eval_hasObject : ReadM.eval fs (K.hasObject h) = .ok (decide (K.Present fs h)) := by
  unfold hasObject
  simp only [ReadM.eval_bind, ReadM.eval_pathExists, ok_bind]
  exact congrArg Except.ok (Bool.decide_or _ _).symm

theorem eval_load_bin {data : Bytes} (hd : fs.lookup (K.pathBin h) = some data) :
    ReadM.eval fs (K.load h) = K.parseBin h data := by
  have hmem : K.pathBin h ∈ fs := Fs.mem_iff_lookup.2 ⟨data, hd⟩
  unfold load
  simp only [ReadM.eval_bind, ReadM.eval_pathExists, ok_bind, hmem, decide_true, if_true,
    eval_readFile_some hd]
  rfl

theorem eval_load_json {data : Bytes} (hb : K.pathBin h ∉ fs)
    (hd : fs.lookup (K.pathJson h) = some data) :
    ReadM.eval fs (K.load h) = K.parseJson h data := by
  have hmem : K.pathJson h ∈ fs := Fs.mem_iff_lookup.2 ⟨data, hd⟩
  unfold load
  simp only [ReadM.eval_bind, ReadM.eval_pathExists, ok_bind, hmem, hb, decide_true, decide_false,
    if_true, Bool.false_eq_true, if_false, eval_readFile_some hd]
  rfl

theorem eval_load_absent (hn : ¬K.Present fs h) :
    ReadM.eval fs (K.load h) = fail (K.notFound h.toHex) := by
  obtain ⟨hb, hj⟩ := not_or.1 hn
  unfold load
  simp only [ReadM.eval_bind, ReadM.eval_pathExists, ok_bind, hb, hj, decide_false,
    Bool.false_eq_true, if_false, eval_abort]

/-- Only what is present loads. -/
theorem present_of_load {x : α} (hx : ReadM.eval fs (K.load h) = .ok x) : K.Present fs h := by
  by_contra hn
  rw [K.eval_load_absent hn] at hx
  cases hx

/-- **Loading looks at the object's own two files.** -/
theorem eval_load_congr (hb : fs'.lookup (K.pathBin h) = fs.lookup (K.pathBin h))
    (hj : fs'.lookup (K.pathJson h) = fs.lookup (K.pathJson h)) :
    ReadM.eval fs' (K.load h) = ReadM.eval fs (K.load h) := by
  cases hbin : fs.lookup (K.pathBin h) with
  | some data => rw [K.eval_load_bin hbin, K.eval_load_bin (hb.trans hbin)]
  | none =>
      have hb₀ : K.pathBin h ∉ fs := AList.lookup_eq_none.1 hbin
      have hb₁ : K.pathBin h ∉ fs' := AList.lookup_eq_none.1 (hb.trans hbin)
      cases hjson : fs.lookup (K.pathJson h) with
      | some data => rw [K.eval_load_json hb₀ hjson, K.eval_load_json hb₁ (hj.trans hjson)]
      | none =>
          rw [K.eval_load_absent (not_or.2 ⟨hb₀, AList.lookup_eq_none.1 hjson⟩),
            K.eval_load_absent (not_or.2 ⟨hb₁, AList.lookup_eq_none.1 (hj.trans hjson)⟩)]

end ObjectKind

end Soal

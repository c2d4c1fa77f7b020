/-
  Soal.Codec.Objects — wire form of trees and commits: domain frames, bodies, content hashes.

  `wire = DOMAIN || cbor(body)`, `cid = BLAKE3(wire)`.  The legacy JSON forms are the `Crates`
  functions they are in the source.
-/
import Soal.Codec.Cbor
import Soal.Paths

namespace Soal

open FileProg

/-! ## §1. Domains and caps. -/

def domainTree : Bytes := Text.toUtf8 "soal/tree/v1" ++ [0, 0, 0, 0]

def domainCommit : Bytes := Text.toUtf8 "soal/commit/v1" ++ [0, 0]

def protocolVersion : Nat := 1

def maxCommitParents : Nat := 16

def maxTreeEntries : Nat := 1000000

/-- Max single blob size. -/
def maxBlobBytes : Nat := 16 * 1024 * 1024

/-- Max commits walked in one sync DAG job. -/
def maxJobCommits : Nat := 10000

/-- `DOMAIN || body` -/
def frame (domain body : Bytes) : Res Bytes := vec (domain ++ body)

/-- Strip and verify the domain prefix. -/
def unframe (domain wire : Bytes) : Res Bytes :=
  if wire.length < 16 then fail (.verify "wire too short for domain frame")
  else if wire.take 16 ≠ domain then fail (.verify "domain mismatch")
  else .ok (wire.drop 16)

/-- `data.len() >= 16 && data[..16] == domain` -/
def isFramed (domain data : Bytes) : Bool := 16 ≤ data.length && data.take 16 == domain

/-! ## §2. Trees. -/

def encodeHashes (hs : List ContentHash) : Bytes := hs.flatMap (fun h => writeBstr h.bytes)

/-- One entry: path, then `{ 1: 0, 2: size, 3: [ * bstr-32 ] }` or `{ 1: 1, 2: bstr-32 }`. -/
def encodeTreeEntry : String × TreeEntry → Bytes
  | (path, .file size chunks) =>
      writeTstr path ++ (writeMapHeader 3 ++ (writeU64 1 ++ (writeU64 0 ++ (writeU64 2 ++
        (writeU64 size.toNat ++ (writeU64 3 ++ (writeArrayHeader chunks.length ++
          encodeHashes chunks)))))))
  | (path, .dir hash) =>
      writeTstr path ++ (writeMapHeader 2 ++ (writeU64 1 ++ (writeU64 1 ++ (writeU64 2 ++
        writeBstr hash.bytes))))

/-- Encode TreeBody CBOR (no domain frame). -/
def encodeTreeBody (tree : Tree) : Res Bytes :=
  if tree.entries.size > maxTreeEntries then fail (.verify "tree exceeds MAX_TREE_ENTRIES")
  else vec (writeMapHeader 1 ++ (writeU64 1 ++ (writeMapHeader tree.entries.size ++
    tree.entries.entries.flatMap encodeTreeEntry)))

/-- The fields of an entry read so far. -/
structure EntryFields where
  entryType : Option Nat
  size : Option Nat
  chunks : Option (List ContentHash)
  dirHash : Option ContentHash
  lastK : Option Nat

def EntryFields.none : EntryFields := ⟨.none, .none, .none, .none, .none⟩

open Cursor

/-- A computed result in a reader. -/
def ofRes {α : Type} (r : Res α) : Reader α := .done r

/-- Map keys must ascend strictly. -/
def checkAscending {α : Type} [LT α] [DecidableRel (α := α) (· < ·)] (last : Option α) (k : α)
    (complaint : String) : Reader Unit :=
  match last with
  | some prev => if prev < k then return () else reject (.verify complaint)
  | none => return ()

/-- `n` byte strings of 32 bytes. -/
def readHashes (complaint : String) : Nat → Reader (List ContentHash)
  | 0 => return []
  | n + 1 => do
      turn
      let h ← readHash complaint
      return h :: (← readHashes complaint n)

/-- `Vec::with_capacity(n)` of 32-byte elements. -/
def withCapacity (n : Nat) : Reader Unit := .request (S := cursorSig) (.withCapacity n)

/-- The value under key `k` of an entry map.  Key 2 is a directory's hash once key 1 said so, a size
otherwise. -/
def readEntryValue (acc : EntryFields) (k : Nat) : Reader EntryFields :=
  if k = 1 then return { acc with entryType := some (← readU64Value) }
  else if k = 2 then
    if acc.entryType = some 1 then
      return { acc with dirHash := some (← readHash "Dir hash must be 32 bytes") }
    else return { acc with size := some (← readU64Value) }
  else if k = 3 then do
    let alen ← readArrayHeader
    withCapacity alen
    return { acc with chunks := some (← readHashes "chunk CID must be 32 bytes" alen) }
  else reject (.verify ("unknown TreeEntry key " ++ toString k))

/-- One key of an entry map. -/
def readEntryField (acc : EntryFields) : Reader EntryFields := do
  let k ← readU64Value
  checkAscending acc.lastK k "entry map keys not sorted"
  readEntryValue { acc with lastK := some k } k

def readEntryFields : Nat → EntryFields → Reader EntryFields
  | 0, acc => return acc
  | n + 1, acc => do
      turn
      readEntryFields n (← readEntryField acc)

/-- The entry its fields describe. -/
def entryOfFields (acc : EntryFields) : Res TreeEntry :=
  match acc.entryType with
  | some 0 =>
      match acc.size, acc.chunks with
      | none, _ => fail (.verify "File missing size")
      | some _, none => fail (.verify "File missing chunks")
      | some size, some chunks => .ok (.file (.ofNat size) chunks)
  | some 1 =>
      match acc.dirHash with
      | none => fail (.verify "Dir missing hash")
      | some hash => .ok (.dir hash)
  | _ => fail (.verify "TreeEntry missing/invalid type")

def readTreeEntries : Nat → Option String → Tree → Reader Tree
  | 0, _, tree => return tree
  | n + 1, lastPath, tree => do
      turn
      let path ← readTstr
      checkAscending lastPath path "tree entry keys not strictly sorted"
      ofRes (validatePath path)
      let em ← readMapHeader
      let entry ← ofRes (entryOfFields (← readEntryFields em .none))
      readTreeEntries n (some path) ⟨tree.entries.insert path entry⟩

def Tree.new : Tree := ⟨.empty⟩

def readTreeBody : Reader Tree := do
  let n ← readMapHeader
  if n ≠ 1 then reject (.verify "TreeBody must have exactly key 1") else do
    let key ← readU64Value
    if key ≠ 1 then reject (.verify ("unexpected TreeBody key " ++ toString key)) else do
      let nEntries ← readMapHeader
      if nEntries > maxTreeEntries then reject (.verify "tree exceeds MAX_TREE_ENTRIES")
      else readTreeEntries nEntries none Tree.new

/-- Decode TreeBody CBOR (no domain frame). -/
def decodeTreeBody (data : Bytes) : Res Tree :=
  decodeAll (readTreeBody >>= fun tree => finish >>= fun _ => pure tree) data

def encodeTreeWire (tree : Tree) : Res Bytes := (encodeTreeBody tree).bind (frame domainTree)

def decodeTreeWire (wire : Bytes) : Res Tree := (unframe domainTree wire).bind decodeTreeBody

/-- Collect all file chunk hashes (flat; does not recurse into Dir CIDs). -/
def Tree.allChunkHashes (tree : Tree) : List ContentHash :=
  tree.entries.entries.flatMap (fun p => match p.2 with
    | .file _ chunks => chunks
    | .dir _ => [])

/-! ## §3. Reading commits. -/

def authorFromBytes (bytes : ContentHash) : String := bytes.toHex

/-- The fields of a commit read so far. -/
structure CommitFields where
  tree : Option ContentHash
  parents : Option (List ContentHash)
  author : Option String
  timestamp : Option Nat
  message : Option String
  protocolVersion : Option Nat
  signature : Option Bytes
  lastK : Option Nat

def CommitFields.none : CommitFields :=
  ⟨.none, .none, .none, .none, .none, .none, .none, .none⟩

/-- The value under key `k` of a commit map. -/
def readCommitValue (acc : CommitFields) (k : Nat) : Reader CommitFields :=
  if k = 1 then return { acc with tree := some (← readHash "tree CID len") }
  else if k = 2 then do
    let alen ← readArrayHeader
    if alen > maxCommitParents then reject (.verify "too many parents")
    else do
      withCapacity alen
      return { acc with parents := some (← readHashes "parent CID len" alen) }
  else if k = 3 then return { acc with author := some (authorFromBytes (← readHash "author len")) }
  else if k = 4 then return { acc with timestamp := some (← readU64Value) }
  else if k = 5 then return { acc with message := some (← readTstr) }
  else if k = 6 then do
    let v ← readU64Value
    if v > 0xffff then reject (.verify "protocol_version overflow")
    else return { acc with protocolVersion := some v }
  else if k = 7 then do
    let b ← readBstr
    if b.length ≠ 64 then reject (.verify "signature must be 64 bytes")
    else return { acc with signature := some b }
  else reject (.verify ("unknown CommitBody key " ++ toString k))

/-- One key of a commit map. -/
def readCommitField (acc : CommitFields) : Reader CommitFields := do
  let k ← readU64Value
  checkAscending acc.lastK k "CommitBody keys not sorted"
  readCommitValue { acc with lastK := some k } k

def readCommitFields : Nat → CommitFields → Reader CommitFields
  | 0, acc => return acc
  | n + 1, acc => do
      turn
      readCommitFields n (← readCommitField acc)

/-- `Option::ok_or_else` with a `Verify` error. -/
def require {α : Type} (o : Option α) (complaint : String) : Res α :=
  match o with
  | some a => .ok a
  | none => fail (.verify complaint)

/-- The commit its fields describe. -/
def commitOfFields (acc : CommitFields) : Res Commit := do
  let tree ← require acc.tree "missing tree"
  let parents ← require acc.parents "missing parents"
  let author ← require acc.author "missing author"
  let timestamp ← require acc.timestamp "missing timestamp"
  let message ← require acc.message "missing message"
  return {
    tree, parents, author, message
    timestamp := .ofNat timestamp
    protocolVersion := .ofNat (acc.protocolVersion.getD 1)
    signature := acc.signature.map (fun b => String.ofList (Text.hexEncode b)) }

def readCommitBody : Reader CommitFields := do
  let n ← readMapHeader
  if n ≠ 7 then reject (.verify ("CommitBody must have 7 keys, got " ++ toString n))
  else readCommitFields n .none

def decodeCommitBody (data : Bytes) : Res Commit :=
  (decodeAll (readCommitBody >>= fun acc => finish >>= fun _ => pure acc) data).bind commitOfFields

def decodeCommitWire (wire : Bytes) : Res Commit := (unframe domainCommit wire).bind decodeCommitBody

/-- A `serde_json` result in the source's error type. -/
def serde {α : Type} (r : Except String α) : Res α := r.mapError (fun e => .err (.serde e))

section

variable [Crates]

/-! ## §4. Writing commits. -/

/-- 64-char hex → its bytes; anything else → BLAKE3 of a tagged copy. -/
def authorToBytes (author : String) : ContentHash :=
  match ContentHash.fromHex author with
  | .ok h => h
  | .error _ => ContentHash.of (Text.toUtf8 "soal-author:" ++ Text.toUtf8 author)

def zeroSignature : Bytes := List.replicate 64 0

/-- 64-byte signature (zeros if unsigned). -/
def Commit.signatureBytes (commit : Commit) : Bytes :=
  match commit.signature with
  | some hexSig =>
      match Text.hexDecode (Text.trim hexSig.toList) with
      | some bytes => if bytes.length = 64 then bytes else zeroSignature
      | none => zeroSignature
  | none => zeroSignature

/-- Version on the wire: 0 counts as 1. -/
def Commit.wireVersion (commit : Commit) : Nat :=
  if commit.protocolVersion = 0 then Soal.protocolVersion else commit.protocolVersion.toNat

/-- Fields 1–6 of the commit body, after the map header. -/
def encodeCommitFields (commit : Commit) (tail : Bytes) : Bytes :=
  writeU64 1 ++ (writeBstr commit.tree.bytes ++ (writeU64 2 ++
    (writeArrayHeader commit.parents.length ++ (encodeHashes commit.parents ++ (writeU64 3 ++
      (writeBstr (authorToBytes commit.author).bytes ++ (writeU64 4 ++
        (writeU64 commit.timestamp.toNat ++ (writeU64 5 ++ (writeTstr commit.message ++
          (writeU64 6 ++ (writeU64 commit.wireVersion ++ tail))))))))))))

/-- Encode CommitBody (includes signature; unsigned = 64 zero bytes). -/
def encodeCommitBody (commit : Commit) : Res Bytes :=
  if commit.parents.length > maxCommitParents then fail (.verify "too many parents")
  else vec (writeMapHeader 7 ++
    encodeCommitFields commit (writeU64 7 ++ writeBstr commit.signatureBytes))

/-- Sign preimage body: fields 1–6 only. -/
def encodeCommitSignBody (commit : Commit) : Res Bytes :=
  if commit.parents.length > maxCommitParents then fail (.verify "too many parents")
  else vec (writeMapHeader 6 ++ encodeCommitFields commit [])

/-- Message bytes for ed25519: `DOMAIN_COMMIT || cbor(SignBody)`. -/
def commitSignMessage (commit : Commit) : Res Bytes :=
  (encodeCommitSignBody commit).bind (frame domainCommit)

def encodeCommitWire (commit : Commit) : Res Bytes :=
  (encodeCommitBody commit).bind (frame domainCommit)

/-! ## §5. Content hashes, and the legacy JSON form. -/

/-- Content hash of a tree (wire CID). -/
def Tree.hash (tree : Tree) : Res ContentHash := (encodeTreeWire tree).map ContentHash.of

/-- Content hash of a commit (wire CID). -/
def Commit.hash (commit : Commit) : Res ContentHash := (encodeCommitWire commit).map ContentHash.of

/-- `Tree::from_bytes` -/
def Tree.fromBytes (data : Bytes) : Res Tree := serde (Crates.treeFromSlice data)

/-- `Commit::from_bytes` -/
def Commit.fromBytes (data : Bytes) : Res Commit := serde (Crates.commitFromSlice data)

/-- `Tree::canonical_bytes` -/
def Tree.canonicalBytes (tree : Tree) : Bytes := Crates.treeToVec tree

/-- Compact JSON used by older vaults: five fields only. -/
def Commit.legacyJsonBytes (commit : Commit) : Bytes :=
  Crates.legacyCommitToVec commit.tree commit.parents commit.author commit.timestamp commit.message

def Tree.legacyJsonHash (tree : Tree) : ContentHash := .of tree.canonicalBytes

def Commit.legacyJsonHash (commit : Commit) : ContentHash := .of commit.legacyJsonBytes

/-- Decode from framed wire or legacy JSON. -/
def Tree.fromWireOrJson (data : Bytes) : Res Tree :=
  if isFramed domainTree data then decodeTreeWire data else Tree.fromBytes data

/-- Prefer wire; fall back to JSON parse for dual-read. -/
def Commit.fromWireOrJson (data : Bytes) : Res Commit :=
  if isFramed domainCommit data then decodeCommitWire data else Commit.fromBytes data

end

end Soal

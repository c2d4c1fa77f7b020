/-
  Soal.Types — the data of the vault: hashes, trees, commits, metadata records, errors.

  One structure per source structure, under the source's field names.  A `Fault` is what ends a
  computation early: an error value, or a panic (which no `?` and no `unwrap_or_else` sees).
-/
import Mathlib.Data.Finset.Sort
import Mathlib.Data.Fintype.Pi
import Soal.Lib.Program
import Soal.Lib.SortedMap
import Soal.Lib.Text

namespace Soal

open FileProg (Bytes)

/-! ## §1. Content hashes. -/

/-- 32-byte BLAKE3 content hash. -/
@[ext] structure ContentHash where
  bytes : Bytes
  length_eq : bytes.length = 32
  deriving DecidableEq

namespace ContentHash

/-- 64 lower-case hex characters. -/
def toHexChars (h : ContentHash) : List Char := Text.hexEncode h.bytes

def toHex (h : ContentHash) : String := String.ofList h.toHexChars

@[simp] theorem toHex_toList (h : ContentHash) : h.toHex.toList = h.toHexChars := by
  simp [toHex]

@[simp] theorem toHexChars_length (h : ContentHash) : h.toHexChars.length = 64 := by
  rw [toHexChars, Text.hexEncode_length, h.length_eq]

theorem toHexChars_injective : Function.Injective toHexChars := fun _ _ h =>
  ContentHash.ext (Text.hexEncode_injective h)

theorem toHex_injective : Function.Injective toHex := fun a b h => by
  have := congrArg String.toList h
  rw [toHex_toList, toHex_toList] at this
  exact toHexChars_injective this

/-- Byte order; hex digits sort like the nibbles they stand for. -/
instance : LinearOrder ContentHash := LinearOrder.lift' toHex toHex_injective

instance : Finite ContentHash := by
  refine Finite.of_injective (fun h (i : Fin 32) =>
    (h.bytes.get (i.cast h.length_eq.symm)).toFin) ?_
  intro a b hab
  refine ContentHash.ext (List.ext_getElem (by rw [a.length_eq, b.length_eq]) ?_)
  intro i h₁ h₂
  have := congrFun hab ⟨i, by rw [← a.length_eq]; exact h₁⟩
  exact UInt8.toFin_inj.1 this

end ContentHash

/-! ## §2. Errors. -/

/-- `SoalError`; a library error is carried as its text. -/
inductive SoalError where
  | io (text : String)
  | serde (text : String)
  | crypto (text : String)
  | invalidHash
  | hashMismatch (expected actual : String)
  | vaultNotFound (name : String)
  | chunkNotFound (hash : String)
  | commitNotFound (hash : String)
  | treeNotFound (hash : String)
  | cidCollision (hash : String)
  | invalidPath (text : String)
  | verify (text : String)
  | other (text : String)
  deriving DecidableEq

namespace SoalError

/-- `SoalError::hash_mismatch` -/
def mismatch (expected actual : ContentHash) : SoalError :=
  .hashMismatch expected.toHex actual.toHex

/-- `impl Display for SoalError` -/
def display : SoalError → String
  | .io e => "IO error: " ++ e
  | .serde e => "Serialization error: " ++ e
  | .crypto e => "Crypto error: " ++ e
  | .invalidHash => "Invalid hash"
  | .hashMismatch e a => "Hash mismatch: expected " ++ e ++ ", got " ++ a
  | .vaultNotFound n => "Vault not found: " ++ n
  | .chunkNotFound h => "Chunk not found: " ++ h
  | .commitNotFound h => "Commit not found: " ++ h
  | .treeNotFound h => "Tree not found: " ++ h
  | .cidCollision h => "CID collision: existing blob under " ++ h ++ " has different bytes"
  | .invalidPath e => "Invalid path: " ++ e
  | .verify e => "Verification failed: " ++ e
  | .other e => e

/-- `std::io::Error` of opening a path with no file. -/
def notFound : SoalError := .io "No such file or directory (os error 2)"

/-- `std::io::Error` of `read_to_string` on bytes that are not UTF-8. -/
def notUtf8 : SoalError := .io "stream did not contain valid UTF-8"

end SoalError

/-- What ends a computation early. -/
inductive Fault where
  | err (e : SoalError)
  | panic
  deriving DecidableEq

/-- Result of a source function. -/
abbrev Res (α : Type) := Except Fault α

/-- `Err(e)` -/
abbrev fail {α : Type} (e : SoalError) : Res α := .error (.err e)

theorem bind_ok_iff {ε α β : Type} {x : Except ε α} {f : α → Except ε β} {b : β} :
    x.bind f = .ok b ↔ ∃ a, x = .ok a ∧ f a = .ok b := by
  cases x <;> simp [Except.bind]

@[simp] theorem ok_bind {ε α β : Type} (a : α) (f : α → Except ε β) :
    (Except.ok a).bind f = f a := rfl

@[simp] theorem error_bind {ε α β : Type} (e : ε) (f : α → Except ε β) :
    (Except.error e : Except ε α).bind f = .error e := rfl

/-- A result that is not a panic. -/
def Orderly {α : Type} (r : Res α) : Prop := r ≠ .error .panic

theorem Orderly.bind {α β : Type} {r : Res α} {f : α → Res β} (hr : Orderly r)
    (hf : ∀ a, Orderly (f a)) : Orderly (r.bind f) := by
  cases r with
  | ok a => exact hf a
  | error e => exact fun h => hr (by cases h; rfl)

theorem Orderly.map {α β : Type} {r : Res α} {f : α → β} (hr : Orderly r) : Orderly (r.map f) := by
  cases r with
  | ok a => exact fun h => by cases h
  | error e => exact fun h => hr (by cases h; rfl)

/-! ## §3. Trees and commits. -/

/-- Entry in a directory tree. -/
inductive TreeEntry where
  | file (size : UInt64) (chunks : List ContentHash)
  | dir (hash : ContentHash)
  deriving DecidableEq

/-- A Merkle tree: logical paths with `/` separators. -/
@[ext] structure Tree where
  entries : SortedMap String TreeEntry
  deriving DecidableEq

/-- Immutable snapshot, a node of the commit DAG. -/
structure Commit where
  tree : ContentHash
  parents : List ContentHash
  author : String
  timestamp : UInt64
  message : String
  /-- 0 in legacy JSON means "treat as 1 for wire" -/
  protocolVersion : UInt16
  /-- ed25519 signature as 128 hex characters; absent = unsigned -/
  signature : Option String
  deriving DecidableEq

/-! ## §4. Metadata records. -/

/-- One registered snapshot tip. -/
structure SnapshotEntry where
  hash : String
  timestamp : UInt64
  message : String
  auto : Bool
  deriving DecidableEq

/-- `snapshots.json` -/
structure SnapshotLog where
  entries : List SnapshotEntry
  deriving DecidableEq

/-- `policy.json` -/
structure VaultPolicy where
  minReplicas : UInt8
  snapshotIntervalSecs : UInt64
  retainSnapshots : UInt64
  liveMode : Bool
  preferNodes : List String
  maxHeadAgeSecs : UInt64
  label : Option String
  deriving DecidableEq

inductive SyncState where
  | fetching
  | verifying
  | done
  | failed
  deriving DecidableEq

/-- Checkpoint of a sync job, `sync/jobs/{target}.json`. -/
structure SyncJob where
  target : ContentHash
  epoch : UInt64
  state : SyncState
  doneCommits : Finset ContentHash
  doneTrees : Finset ContentHash
  doneChunks : Finset ContentHash
  updatedAt : UInt64
  error : Option String
  deriving DecidableEq

/-- `vault.json` -/
structure VaultConfig where
  name : String
  encryptionEnabled : Bool
  minReplicas : UInt8
  createdAt : UInt64
  vaultId : String
  configSeq : UInt64
  members : List String
  owner : Option String
  configSig : Option String
  keyWrapped : Bool
  keyHex : Option String
  deriving DecidableEq

/-- `vault.wrapped.json`: a vault key sealed under a passphrase. -/
structure WrappedKey where
  kdf : String
  saltHex : String
  mKib : UInt32
  tCost : UInt32
  pCost : UInt32
  sealedHex : String
  deriving DecidableEq

/-- `pins.json`: hashes, in hex, that this node pins. -/
structure PinSet where
  pins : Finset String
  updatedAt : UInt64
  deriving DecidableEq

/-- `replication/peer_have.json`: for every peer the hashes, in hex, it announced having. -/
structure PeerHave where
  peers : SortedMap String (Finset String)
  updatedAt : UInt64
  deriving DecidableEq

/-- 32-byte symmetric key. -/
abbrev Key := { b : Bytes // b.length = 32 }

/-- ed25519 secret key of a node. -/
structure SecretKey where
  bytes : { b : Bytes // b.length = 32 }
  deriving DecidableEq

/-- Directories of a vault. -/
inductive VaultDir where
  | root
  | chunks
  | commits
  | trees
  | jobs
  | replication
  deriving DecidableEq

/-- The directories that hold objects. -/
abbrev ObjectDir (d : VaultDir) : Prop := d = .chunks ∨ d = .commits ∨ d = .trees

/-- An open vault.  Its directory is the disk of the program that uses it. -/
structure Vault where
  config : VaultConfig
  key : Option Key
  /-- directory of the node identity that signs commits -/
  soalHome : Option String

end Soal

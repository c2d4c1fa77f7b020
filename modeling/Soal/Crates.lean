/-
  Soal.Crates — what the program uses from outside its own sources.

  `Crates` collects the third-party functions (hashing, AEAD, KDF, signatures, chunk boundaries,
  JSON text); the definitions of the model take them as an instance, and a theorem that needs a law
  of one of them says so.  `Question` is what a program asks the world outside the vault directory.
-/
import Soal.Types

namespace Soal

open FileProg

/-- `serde_json` at one type: parse a text, print a value. -/
structure SerdeJson (α : Type) where
  fromStr : String → Except String α
  toStringPretty : α → String

/-- `from_str` undoes `to_string_pretty`. -/
def SerdeJson.RoundTrip {α : Type} (s : SerdeJson α) : Prop :=
  ∀ a, s.fromStr (s.toStringPretty a) = .ok a

/-- No JSON text is empty. -/
def SerdeJson.RejectsEmpty {α : Type} (s : SerdeJson α) : Prop :=
  ∀ a, s.fromStr "" ≠ .ok a

/-- A `serde_json::Value` that stands in a signed object. -/
inductive JsonValue where
  | null
  | bool (b : Bool)
  | number (n : UInt64)
  | string (s : String)
  | strings (items : List String)
  deriving DecidableEq

/-- The members of a `serde_json::Map`, in the order they are printed in. -/
abbrev JsonObject := List (String × JsonValue)

/-- Members under sorted keys. -/
def JsonObject.sorted (object : JsonObject) : JsonObject :=
  object.mergeSort (fun a b => decide (a.1 ≤ b.1))

/-- The third-party functions. -/
class Crates where
  /-- `blake3::hash` -/
  blake3 : Bytes → ContentHash
  /-- `FastCDC::new(data, min, avg, max)`: offset and length of every entry -/
  fastcdc : Bytes → UInt32 → UInt32 → UInt32 → List (Nat × Nat)
  /-- `XChaCha20Poly1305::encrypt(nonce, Payload { msg, aad })` -/
  aeadEncrypt : Key → Bytes → Bytes → Bytes → Except String Bytes
  /-- `XChaCha20Poly1305::decrypt(nonce, Payload { msg, aad })` -/
  aeadDecrypt : Key → Bytes → Bytes → Bytes → Except String Bytes
  /-- Argon2id `hash_password_into` with 32 output bytes: passphrase, salt, memory, time, lanes -/
  argon2id : Bytes → Bytes → UInt32 → UInt32 → UInt32 → Except String Key
  /-- `SecretKey::public` -/
  publicKey : SecretKey → Key
  /-- `impl Display for PublicKey` -/
  publicKeyText : Key → String
  /-- `impl FromStr for PublicKey` -/
  publicKeyFromStr : String → Except String Key
  /-- `PublicKey::from_bytes` accepts these bytes -/
  publicKeyFromBytes : Key → Except String Unit
  /-- `SecretKey::sign`, 64 bytes -/
  ed25519Sign : SecretKey → Bytes → { b : Bytes // b.length = 64 }
  /-- `PublicKey::verify` -/
  ed25519Verify : Key → Bytes → Bytes → Bool
  /-- `serde_json::from_slice::<Commit>` -/
  commitFromSlice : Bytes → Except String Commit
  /-- `serde_json::to_vec` of the legacy commit: tree, parents, author, timestamp, message -/
  legacyCommitToVec : ContentHash → List ContentHash → String → UInt64 → String → Bytes
  /-- `serde_json::from_slice::<Tree>` -/
  treeFromSlice : Bytes → Except String Tree
  /-- `serde_json::to_vec::<Tree>` -/
  treeToVec : Tree → Bytes
  /-- `serde_json::to_vec` of a `Value::Object` -/
  objectToVec : JsonObject → Bytes
  snapshotsJson : SerdeJson SnapshotLog
  policyJson : SerdeJson VaultPolicy
  jobJson : SerdeJson SyncJob
  configJson : SerdeJson VaultConfig
  wrappedJson : SerdeJson WrappedKey
  pinsJson : SerdeJson PinSet
  haveJson : SerdeJson PeerHave

/-- Questions to the world outside the vault directory. -/
inductive Question where
  /-- `now_secs()` -/
  | now
  /-- `thread_rng().fill_bytes` of `n` bytes -/
  | random (n : Nat)
  /-- one `get_blob` of `hash` from `peer` over the network -/
  | getBlob (peer : String) (hash : ContentHash)
  /-- `identity::load_secret_key(home)` -/
  | loadSecretKey (home : String)
  /-- `blobs.add_bytes(data)` of the node's blob store -/
  | addBytes (data : Bytes)
  /-- number, sign and gossip a head announcement: touches no vault directory -/
  | broadcastHead (vaultId : Bytes) (head : ContentHash)

/-- Questions with the types of their answers. -/
def outside : Signature where
  Op := Question
  Reply
    | .now => UInt64
    | .random n => { b : Bytes // b.length = n }
    | .getBlob _ _ => Except SoalError Bytes
    | .loadSecretKey _ => Except SoalError SecretKey
    | .addBytes _ => Except String Unit
    | .broadcastHead _ _ => Except SoalError Unit

/-- A program that only reads the vault directory. -/
abbrev Reads (α : Type) := ReadM VaultDir Fault α

/-- A program over the vault directory. -/
abbrev Action (α : Type) := FileM VaultDir outside Fault α

abbrev VaultFs := Fs VaultDir

abbrev VaultWorld := World VaultDir

abbrev Outside := Env outside

/-- `now_secs()` -/
def nowSecs : Action UInt64 := ask (Q := outside) .now

/-- `thread_rng().fill_bytes` -/
def randomBytes (n : Nat) : Action { b : Bytes // b.length = n } := ask (Q := outside) (.random n)

/-- One blob request to one peer. -/
def getBlob (peer : String) (hash : ContentHash) : Action (Except SoalError Bytes) :=
  ask (Q := outside) (.getBlob peer hash)

/-- `identity::load_secret_key` -/
def loadSecretKey (home : String) : Action (Except SoalError SecretKey) :=
  ask (Q := outside) (.loadSecretKey home)

/-- `Err(e)` in a program. -/
def abort {S : Signature} {α : Type} (e : SoalError) : Prog S Fault α := .done (fail e)

/-! ## Content hashes of bytes and of text. -/

/-- BLAKE3 hash of arbitrary bytes. -/
def ContentHash.of [Crates] (data : Bytes) : ContentHash := Crates.blake3 data

/-- Parse a 64-char hex string, either case, trimmed.  (For hex digits the byte length is the number
of characters.) -/
def ContentHash.fromHexChars (s : List Char) : Res ContentHash :=
  let s := Text.trim s
  if s.length = 64 ∧ s.all Text.isHexDigit then
    match Text.hexDecode s with
    | some b => if h : b.length = 32 then .ok ⟨b, h⟩ else fail .invalidHash
    | none => fail .invalidHash
  else fail .invalidHash

def ContentHash.fromHex (s : String) : Res ContentHash := fromHexChars s.toList

namespace ContentHash

theorem toHexChars_plain (h : ContentHash) : ∀ c ∈ h.toHexChars,
    Text.isHexDigit c = true ∧ Text.isWhiteSpace c = false ∧ c ≠ '\n' ∧ c ≠ '\r' ∧ c ≠ '.' := by
  intro c hc
  obtain ⟨n, hn, rfl⟩ := Text.mem_hexEncode hc
  exact ⟨Text.isHexDigit_hexDigit n hn, Text.hexDigit_plain n hn⟩

/-- A hash reads back from its own text. -/
@[simp] theorem fromHexChars_toHexChars (h : ContentHash) : fromHexChars h.toHexChars = .ok h := by
  have htrim : Text.trim h.toHexChars = h.toHexChars :=
    Text.trim_eq_self (fun c hc => (h.toHexChars_plain c hc).2.1)
  have hall : h.toHexChars.all Text.isHexDigit = true :=
    List.all_eq_true.2 (fun c hc => (h.toHexChars_plain c hc).1)
  unfold fromHexChars
  simp only [htrim, hall, toHexChars_length, and_self, if_true]
  rw [toHexChars, Text.hexDecode_hexEncode]
  show (if h' : h.bytes.length = 32 then _ else _) = _
  rw [dif_pos h.length_eq]

@[simp] theorem fromHex_toHex (h : ContentHash) : fromHex h.toHex = .ok h := by
  rw [fromHex, toHex_toList, fromHexChars_toHexChars]

end ContentHash

end Soal

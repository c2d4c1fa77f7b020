/-
  Soal.Crypto — chunk encryption, key wrapping, chunk boundaries.

  Stored chunks are encrypted deterministically: the nonce is the first 24 bytes of
  BLAKE3(plaintext), so equal plaintext under one key has one storage hash.
-/
import Soal.Crates

namespace Soal

open FileProg (Bytes)

variable [Crates]

/-! ## §1. Chunks. -/

/-- Nonce size for XChaCha20-Poly1305. -/
def nonceLen : Nat := 24

/-- A library error text as `SoalError::Crypto`. -/
def crypto {α : Type} (r : Except String α) : Res α := r.mapError (fun e => .err (.crypto e))

/-- Decrypt: input = nonce(24) + ciphertext. -/
def decrypt (ciphertext : Bytes) (key : Key) : Res Bytes :=
  if ciphertext.length < nonceLen then fail (.crypto "ciphertext too short")
  else crypto (Crates.aeadDecrypt key (ciphertext.take nonceLen) (ciphertext.drop nonceLen) [])

/-- Encrypt a plaintext chunk deterministically. -/
def encryptDeterministic (plain : Bytes) (key : Key) : Res Bytes := do
  let nonce := (Crates.blake3 plain).bytes.take nonceLen
  let ct ← crypto (Crates.aeadEncrypt key nonce plain [])
  return nonce ++ ct

def decryptChunk (stored : Bytes) (key : Key) : Res Bytes := decrypt stored key

/-- `ChunkConfig::default`: minimum, average and maximum size. -/
def chunkSizes : UInt32 × UInt32 × UInt32 := (256 * 1024, 2 * 1024 * 1024, 8 * 1024 * 1024)

/-- Chunk in-memory bytes; an entry that leaves the data is dropped. -/
def chunkBytes (data : Bytes) : List Bytes :=
  if data.isEmpty then []
  else
    let (min, avg, max) := chunkSizes
    let chunks := (Crates.fastcdc data min avg max).filterMap (fun entry =>
      let (start, length) := entry
      if start + length ≤ data.length then some ((data.drop start).take length) else none)
    if chunks.isEmpty then [data] else chunks

/-! ## §2. Keys. -/

/-- A 32-byte string as a key. -/
def keyOfBytes (bytes : Bytes) (complaint : SoalError) : Res Key :=
  if h : bytes.length = 32 then .ok ⟨bytes, h⟩ else fail complaint

/-- `hex::decode(s.trim())` -/
def hexBytes (s : String) : Res Bytes :=
  match Text.hexDecode (Text.trim s.toList) with
  | some b => .ok b
  | none => fail .invalidHash

/-- Parse a 32-byte key from hex. -/
def keyFromHex (s : String) : Res Key := do
  let bytes ← hexBytes s
  keyOfBytes bytes (.other "invalid key length")

/-- Parse a 16-byte vault id from 32 hex characters. -/
def vaultIdFromHex (s : String) : Res Bytes :=
  let s := Text.trim s.toList
  if s.length ≠ 32 ∨ s.all Text.isHexDigit = false then
    fail (.other "vault_id must be 32 hex chars")
  else
    match Text.hexDecode s with
    | some b => .ok b
    | none => fail (.other "invalid vault_id hex")

/-- AAD for vault key wrap: `vault_id || "wrap/v1"`. -/
def wrapAad (vaultId : Bytes) : Bytes := vaultId ++ Text.toUtf8 "wrap/v1"

/-- Seal a vault key with a wrap key: nonce(24) || ciphertext. -/
def wrapKey (vaultKey wrapKey : Key) (aad : Bytes) : Action Bytes := do
  let nonce ← randomBytes nonceLen
  let ct ← (crypto (Crates.aeadEncrypt wrapKey nonce.val vaultKey.val aad) : Res Bytes)
  return nonce.val ++ ct

/-- Open a sealed vault key. -/
def unwrapKey (blob : Bytes) (wrapKey : Key) (aad : Bytes) : Res Key := do
  if blob.length < nonceLen + 16 then fail (.crypto "wrapped key too short")
  else
    let plain ← crypto
      (Crates.aeadDecrypt wrapKey (blob.take nonceLen) (blob.drop nonceLen) aad)
    keyOfBytes plain (.crypto "unwrapped key wrong length")

/-! ## §3. Passphrases. -/

/-- Argon2id memory cost (KiB), time cost and lanes of new wraps. -/
def argon2MKib : UInt32 := 19456
def argon2TCost : UInt32 := 2
def argon2PCost : UInt32 := 1

/-- Derive a 32-byte wrap key from a passphrase via Argon2id. -/
def deriveKeyFromPassphrase (passphrase : String) (salt : Bytes) (mKib tCost pCost : UInt32) :
    Res Key :=
  crypto (Crates.argon2id (Text.toUtf8 passphrase) salt mKib tCost pCost)

def WrappedKey.saltBytes (wrapped : WrappedKey) : Res Bytes := do
  let b ← hexBytes wrapped.saltHex
  if b.length ≠ 16 then fail (.crypto "wrapped key salt must be 16 bytes") else return b

def WrappedKey.sealedBytes (wrapped : WrappedKey) : Res Bytes := hexBytes wrapped.sealedHex

/-- Seal a vault key under a passphrase. -/
def wrapVaultKeyPassphrase (vaultKey : Key) (passphrase : String) (vaultId : Bytes) :
    Action WrappedKey := do
  let salt ← randomBytes 16
  let wrap ← (deriveKeyFromPassphrase passphrase salt.val argon2MKib argon2TCost argon2PCost :
    Res Key)
  let aad := wrapAad vaultId
  let bytes ← wrapKey vaultKey wrap aad
  return {
    kdf := "argon2id"
    saltHex := String.ofList (Text.hexEncode salt.val)
    mKib := argon2MKib
    tCost := argon2TCost
    pCost := argon2PCost
    sealedHex := String.ofList (Text.hexEncode bytes) }

/-- Open a passphrase-wrapped vault key. -/
def unwrapVaultKeyPassphrase (wrapped : WrappedKey) (passphrase : String) (vaultId : Bytes) :
    Res Key := do
  if wrapped.kdf ≠ "argon2id" then fail (.crypto ("unsupported wrap kdf: " ++ wrapped.kdf))
  else
    let salt ← wrapped.saltBytes
    let wrap ← deriveKeyFromPassphrase passphrase salt wrapped.mKib wrapped.tCost wrapped.pCost
    let bytes ← wrapped.sealedBytes
    unwrapKey bytes wrap (wrapAad vaultId)

end Soal

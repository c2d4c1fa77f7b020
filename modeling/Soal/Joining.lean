/-
  Soal.Joining — making an invite, checking it, and joining a vault with it.

  The token is the invite's JSON in base64url.  It carries the vault key sealed under a secret that
  stands in the token itself; the issuer's signature covers every other field.
-/
import Soal.Invite
import Soal.Lib.Base64
import Soal.Vault.Config

namespace Soal

open FileProg

/-- `serde_json` at `Invite`, and the complaint of the second base64 decoder about a text. -/
class InviteText where
  toVec : Invite → Bytes
  fromSlice : Bytes → Except String Invite
  base64Complaint : List Char → String

/-- A printed invite parses back. -/
def InviteText.RoundTrip [InviteText] : Prop := ∀ inv, fromSlice (toVec inv) = .ok inv

def inviteAad : Bytes := Text.toUtf8 "soal/invite/key/v1"

/-- 7 days -/
def defaultTtlSecs : UInt64 := 7 * 24 * 3600

/-- `u64::saturating_add` -/
def saturatingAdd (a b : UInt64) : UInt64 :=
  if a.toNat + b.toNat < 2 ^ 64 then a + b else .ofNat (2 ^ 64 - 1)

/-! ## §1. Tokens. -/

def Invite.vaultIdBytes (inv : Invite) : Res Bytes := vaultIdFromHex inv.vaultIdHex

def Invite.isExpired (inv : Invite) (now : UInt64) : Bool := inv.expiresAt < now

section Token

variable [InviteText]

def base64UrlEncode (data : Bytes) : List Char := Base64.encode data

/-- Without padding, or else with it. -/
def base64UrlDecode (s : List Char) : Res Bytes :=
  match Base64.decode (Text.trim s) with
  | some b => .ok b
  | none =>
      match Base64.decodePadded (Text.trim s) with
      | some b => .ok b
      | none => fail (.other ("base64: " ++ InviteText.base64Complaint (Text.trim s)))

/-- Encode as base64url (no pad) token for CLI exchange. -/
def Invite.toToken (inv : Invite) : String := String.ofList (base64UrlEncode (InviteText.toVec inv))

/-- Decode token (base64url or raw JSON). -/
def Invite.fromToken (token : String) : Res Invite := do
  let token := Text.trim token.toList
  let bytes ← if token.head? = some '\x7b' then .ok (Text.toUtf8 (String.ofList token))
    else base64UrlDecode token
  match InviteText.fromSlice bytes with
  | .ok inv => return inv
  | .error e => fail (.other ("invite decode: " ++ e))

end Token

section Model

variable [Crates]

/-! ## §2. Making an invite. -/

/-- The vault key sealed under the invite secret (hex), empty when encryption is disabled. -/
def Vault.sealInviteKey (v : Vault) (secret : { b : Bytes // b.length = 32 }) : Action String := do
  if v.config.encryptionEnabled then
    match v.key with
    | none => abort (.other "encrypted vault has no key loaded")
    | some key =>
        let blob ← wrapKey key secret inviteAad
        return String.ofList (Text.hexEncode blob)
  else return ""

/-- Append an id to the members unless it is among them. -/
def withMember (members : List String) (id : String) : List String :=
  if !members.any (fun m => Text.eqIgnoreAsciiCase m id) then members ++ [id] else members

/-- Create a signed invite for an open vault. -/
def generateInvite (v : Vault) (sk : SecretKey) (role : InviteRole) (ttlSecs : Option UInt64) :
    Action Invite := do
  let now ← nowSecs
  let ttl := ttlSecs.getD defaultTtlSecs
  let secret ← randomBytes 32
  let sealedKeyHex ← v.sealInviteKey secret
  let issuer := Crates.publicKeyText (Crates.publicKey sk)
  let inv : Invite := {
    protocolVersion := .ofNat protocolVersion
    vaultIdHex := v.config.vaultId
    vaultName := v.config.name
    encryptionEnabled := v.config.encryptionEnabled
    minReplicas := v.config.minReplicas
    configSeq := v.config.configSeq
    members := withMember v.config.members issuer
    role, issuer
    createdAt := now
    expiresAt := saturatingAdd now ttl
    inviteSecretHex := String.ofList (Text.hexEncode secret.val)
    sealedKeyHex
    signatureHex := "" }
  let msg ← (inviteSignPreimage inv : Res Bytes)
  let sig := Crates.ed25519Sign sk msg
  return { inv with signatureHex := String.ofList (Text.hexEncode sig.val) }

/-! ## §3. Checking it. -/

/-- The signature bytes in an invite. -/
def inviteSigBytes (inv : Invite) : Res Bytes :=
  match Text.hexDecode (Text.trim inv.signatureHex.toList) with
  | none => fail (.verify "bad invite signature hex")
  | some bytes =>
      if bytes.length ≠ 64 then fail (.verify "invite signature must be 64 bytes") else .ok bytes

/-- The public key of the issuer. -/
def inviteIssuerKey (inv : Invite) : Res Key :=
  match Crates.publicKeyFromStr inv.issuer with
  | .error e => fail (.verify ("bad invite issuer: " ++ e))
  | .ok pk => .ok pk

/-- The checks once the clock was read. -/
def checkInvite (inv : Invite) (now : UInt64) : Res Unit := do
  if inv.isExpired now then fail (.verify "invite expired")
  else if inv.signatureHex = "" then fail (.verify "invite unsigned")
  else
    let sig ← inviteSigBytes inv
    let pk ← inviteIssuerKey inv
    let msg ← inviteSignPreimage inv
    if Crates.ed25519Verify pk msg sig then return ()
    else fail (.verify "invite signature invalid")

/-- `now.unwrap_or_else(now_secs)` -/
def nowOr (now : Option UInt64) : Action UInt64 :=
  match now with
  | some now => return now
  | none => nowSecs

/-- Verify invite signature + expiry; without a time, the clock is read. -/
def verifyInvite (inv : Invite) (now : Option UInt64) : Action Unit := do
  if inv.protocolVersion ≠ .ofNat protocolVersion then
    abort (.verify ("unsupported invite protocol_version " ++ Text.printU64 inv.protocolVersion))
  else
    let now ← nowOr now
    (checkInvite inv now : Res Unit)

/-! ## §4. Joining. -/

/-- The vault key that an invite carries. -/
def Invite.openKey (inv : Invite) : Res (Option Key) :=
  if inv.encryptionEnabled then
    match Text.hexDecode (Text.trim inv.inviteSecretHex.toList) with
    | none => fail (.other "bad invite secret")
    | some secretBytes => do
        let secret ← keyOfBytes secretBytes (.other "invite secret must be 32 bytes")
        match Text.hexDecode (Text.trim inv.sealedKeyHex.toList) with
        | none => fail (.other "bad sealed key")
        | some blob =>
            let key ← unwrapKey blob secret inviteAad
            return some key
  else .ok none

/-- `key.unwrap_or_else(generate_key)` when the vault is encrypted. -/
def keyOr (encryptionEnabled : Bool) (key : Option Key) : Action (Option Key) :=
  if encryptionEnabled then
    match key with
    | some k => return some k
    | none => newKey true
  else return none

/-- Create a vault with a given id, key and members in a fresh directory; a handle without a home. -/
def createForTest (name : String) (encryptionEnabled : Bool) (vaultId : Bytes) (key : Option Key)
    (members : List String) : Action Vault := do
  let key ← keyOr encryptionEnabled key
  let createdAt ← nowSecs
  let config : VaultConfig := {
    name, encryptionEnabled, createdAt, members
    minReplicas := defaultMinReplicas
    vaultId := String.ofList (Text.hexEncode vaultId)
    configSeq := 1
    owner := members.head?
    configSig := none
    keyWrapped := false
    keyHex := none }
  writeConfig config
  match key with
  | some k =>
      writeKeyFile k
      return ⟨config, key, none⟩
  | none => return ⟨config, key, none⟩

/-- The members of the joined vault: the local node and the issuer are among them. -/
def joinedMembers (inv : Invite) (me : Except SoalError String) : List String :=
  withMember (match me with
    | .ok me => withMember inv.members me
    | .error _ => inv.members) inv.issuer

/-- What happens once the invite is checked and opened. -/
def materialize (defaultHome home : String) (inv : Invite) (name : String) (vaultId : Bytes)
    (key : Option Key) : Action Vault := do
  let me ← localAuthorSync home
  let v ← createForTest name inv.encryptionEnabled vaultId key (joinedMembers inv me)
  let v : Vault := { v with config := { v.config with
    minReplicas := max inv.minReplicas 1
    configSeq := inv.configSeq
    vaultId := inv.vaultIdHex } }
  v.persistConfig
  let opened ← openWithPassphrase defaultHome none
  return opened.withSoalHome home

/-- Join a vault from an invite (creates a local vault) in a fresh directory.  `defaultHome` is the
default home directory of the node identity. -/
def joinInvite [InviteText] (defaultHome home token : String) (localName : Option String) :
    Action Vault := do
  let inv ← (Invite.fromToken token : Res Invite)
  verifyInvite inv none
  let name := localName.getD inv.vaultName
  let vaultId ← (inv.vaultIdBytes : Res Bytes)
  let key ← (inv.openKey : Res (Option Key))
  materialize defaultHome home inv name vaultId key

end Model

end Soal

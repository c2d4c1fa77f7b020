/-
  Soal.Invite — vault invites, and the preimage of their signatures.
-/
import Soal.Codec.Objects

namespace Soal

open FileProg

/-- Role granted by an invite. -/
inductive InviteRole where
  | read
  | write
  deriving DecidableEq

def InviteRole.asStr : InviteRole → String
  | .read => "read"
  | .write => "write"

/-- Signed vault invite (wire + token body). -/
structure Invite where
  protocolVersion : UInt64
  vaultIdHex : String
  vaultName : String
  encryptionEnabled : Bool
  minReplicas : UInt8
  configSeq : UInt64
  members : List String
  role : InviteRole
  /-- issuer NodeID -/
  issuer : String
  createdAt : UInt64
  expiresAt : UInt64
  /-- random 32-byte invite secret (hex) that seals the vault key -/
  inviteSecretHex : String
  /-- sealed vault key (hex), empty when encryption is disabled -/
  sealedKeyHex : String
  /-- ed25519 signature over the sign preimage (hex) -/
  signatureHex : String
  deriving DecidableEq

def domainInvite : Bytes := Text.toUtf8 "soal/invite/v1" ++ [0, 0]

/-- The fields of an invite, the signature left out. -/
def inviteFields (inv : Invite) : JsonObject := [
  ("protocol_version", .number inv.protocolVersion),
  ("vault_id_hex", .string inv.vaultIdHex),
  ("vault_name", .string inv.vaultName),
  ("encryption_enabled", .bool inv.encryptionEnabled),
  ("min_replicas", .number inv.minReplicas.toUInt64),
  ("config_seq", .number inv.configSeq),
  ("members", .strings inv.members),
  ("role", .string inv.role.asStr),
  ("issuer", .string inv.issuer),
  ("created_at", .number inv.createdAt),
  ("expires_at", .number inv.expiresAt),
  ("invite_secret_hex", .string inv.inviteSecretHex),
  ("sealed_key_hex", .string inv.sealedKeyHex)]

/-- `DOMAIN_INVITE || compact JSON` of the fields under sorted keys. -/
def inviteSignPreimage [Crates] (inv : Invite) : Res Bytes :=
  frame domainInvite (Crates.objectToVec (inviteFields inv).sorted)

end Soal

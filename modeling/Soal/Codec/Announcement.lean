/-
  Soal.Codec.Announcement — wire form of head announcements (gossip; not domain-framed), and the
  preimage of their signatures.
-/
import Soal.Codec.Objects

namespace Soal

open FileProg Cursor

/-- Max bytes for a single gossip message. -/
def maxMessageBytes : Nat := 64 * 1024

/-- Vault ID length in bytes. -/
def vaultIdLen : Nat := 16

/-- Signed head announcement. -/
structure HeadAnnouncement where
  protocolVersion : UInt64
  vaultId : { b : Bytes // b.length = vaultIdLen }
  /-- display hint only, not covered by the signature -/
  vaultName : String
  head : ContentHash
  timestamp : UInt64
  /-- public key of the node -/
  nodeId : Key
  /-- per-node monotonic sequence -/
  seq : UInt64
  /-- membership generation binding -/
  configSeq : UInt64
  signature : { b : Bytes // b.length = 64 }

/-- The nine keys of the body. -/
def encodeHeadFields (ann : HeadAnnouncement) : Bytes :=
  writeMapHeader 9 ++ (writeU64 1 ++ (writeU64 ann.protocolVersion.toNat ++ (writeU64 2 ++
    (writeBstr ann.vaultId.val ++ (writeU64 3 ++ (writeTstr ann.vaultName ++ (writeU64 4 ++
      (writeBstr ann.head.bytes ++ (writeU64 5 ++ (writeU64 ann.timestamp.toNat ++ (writeU64 6 ++
        (writeBstr ann.nodeId.val ++ (writeU64 7 ++ (writeU64 ann.seq.toNat ++ (writeU64 8 ++
          (writeU64 ann.configSeq.toNat ++ (writeU64 9 ++
            writeBstr ann.signature.val)))))))))))))))))

/-- Encode full HeadAnnBody CBOR for gossip (9 keys). -/
def encodeHeadAnnouncement (ann : HeadAnnouncement) : Res Bytes :=
  if (Text.toUtf8 ann.vaultName).length > 1024 then fail (.verify "vault_name too long")
  else
    let buf := encodeHeadFields ann
    if buf.length > maxMessageBytes then
      fail (.verify "head announcement exceeds MAX_MESSAGE_BYTES")
    else .ok buf

/-- The fields of an announcement read so far. -/
structure HeadFields where
  protocolVersion : Option Nat
  vaultId : Option { b : Bytes // b.length = vaultIdLen }
  vaultName : Option String
  head : Option ContentHash
  timestamp : Option Nat
  nodeId : Option Key
  seq : Option Nat
  configSeq : Option Nat
  signature : Option { b : Bytes // b.length = 64 }
  lastK : Option Nat

def HeadFields.none : HeadFields :=
  ⟨.none, .none, .none, .none, .none, .none, .none, .none, .none, .none⟩

/-- A byte string of exactly `n` bytes. -/
def readFixed (n : Nat) (complaint : String) : Reader { b : Bytes // b.length = n } := do
  let b ← readBstr
  if h : b.length = n then return ⟨b, h⟩ else reject (.verify complaint)

/-- The value under key `k` of an announcement. -/
def readHeadValue (acc : HeadFields) (k : Nat) : Reader HeadFields :=
  if k = 1 then return { acc with protocolVersion := some (← readU64Value) }
  else if k = 2 then
    return { acc with vaultId := some (← readFixed vaultIdLen "vault_id must be 16 bytes") }
  else if k = 3 then return { acc with vaultName := some (← readTstr) }
  else if k = 4 then return { acc with head := some (← readHash "head CID must be 32 bytes") }
  else if k = 5 then return { acc with timestamp := some (← readU64Value) }
  else if k = 6 then return { acc with nodeId := some (← readFixed 32 "node_id must be 32 bytes") }
  else if k = 7 then return { acc with seq := some (← readU64Value) }
  else if k = 8 then return { acc with configSeq := some (← readU64Value) }
  else if k = 9 then
    return { acc with signature := some (← readFixed 64 "signature must be 64 bytes") }
  else reject (.verify ("unknown HeadAnnBody key " ++ toString k))

/-- One key of an announcement. -/
def readHeadField (acc : HeadFields) : Reader HeadFields := do
  let k ← readU64Value
  checkAscending acc.lastK k "HeadAnnBody keys not sorted"
  readHeadValue { acc with lastK := some k } k

def readHeadFields : Nat → HeadFields → Reader HeadFields
  | 0, acc => return acc
  | n + 1, acc => do
      turn
      readHeadFields n (← readHeadField acc)

def readHeadBody : Reader HeadFields := do
  let n ← readMapHeader
  if n ≠ 9 then reject (.verify ("HeadAnnBody must have 9 keys, got " ++ toString n))
  else readHeadFields n .none

/-- The announcement its fields describe. -/
def announcementOfFields (acc : HeadFields) : Res HeadAnnouncement := do
  let protocolVersion ← require acc.protocolVersion "missing protocol_version"
  let vaultId ← require acc.vaultId "missing vault_id"
  let vaultName ← require acc.vaultName "missing vault_name"
  let head ← require acc.head "missing head"
  let timestamp ← require acc.timestamp "missing timestamp"
  let nodeId ← require acc.nodeId "missing node_id"
  let seq ← require acc.seq "missing seq"
  let configSeq ← require acc.configSeq "missing config_seq"
  let signature ← require acc.signature "missing signature"
  return {
    vaultId, vaultName, head, nodeId, signature
    protocolVersion := .ofNat protocolVersion
    timestamp := .ofNat timestamp
    seq := .ofNat seq
    configSeq := .ofNat configSeq }

/-- Decode HeadAnnBody CBOR. -/
def decodeHeadAnnouncement (data : Bytes) : Res HeadAnnouncement :=
  if data.length > maxMessageBytes then fail (.verify "head announcement too large")
  else (decodeAll (readHeadBody >>= fun acc => finish >>= fun _ => pure acc) data).bind
    announcementOfFields

def domainHead : Bytes := Text.toUtf8 "soal/head/v1" ++ [0, 0, 0, 0]

/-- SignAnn: fields 1, 2, 4, 5, 6, 7, 8 (no name, no signature).  The map header counts six. -/
def encodeHeadSignBody (ann : HeadAnnouncement) : Bytes :=
  writeMapHeader 6 ++ (writeU64 1 ++ (writeU64 ann.protocolVersion.toNat ++ (writeU64 2 ++
    (writeBstr ann.vaultId.val ++ (writeU64 4 ++ (writeBstr ann.head.bytes ++ (writeU64 5 ++
      (writeU64 ann.timestamp.toNat ++ (writeU64 6 ++ (writeBstr ann.nodeId.val ++ (writeU64 7 ++
        (writeU64 ann.seq.toNat ++ (writeU64 8 ++ writeU64 ann.configSeq.toNat)))))))))))))

/-- Sign preimage: `DOMAIN_HEAD || cbor(SignAnn)`. -/
def headSignMessage (ann : HeadAnnouncement) : Res Bytes :=
  frame domainHead (encodeHeadSignBody ann)

end Soal

/-
  Soal.Network — received head announcements: signature, clock skew, membership, replay.

  For every vault and node the home directory keeps the last sequence number that was accepted, in
  `seq/{vault_id}/{node_id}.seq` (INV-REPLAY-01).
-/
import Soal.Codec.Announcement
import Soal.Vault.Config

namespace Soal

open FileProg

/-! ## §1. Checking an announcement. -/

def maxSkewSecs : UInt64 := 300

/-- `u64::abs_diff` -/
def absDiff (a b : UInt64) : UInt64 := if a < b then b - a else a - b

namespace HeadAnnouncement

def vaultIdHex (ann : HeadAnnouncement) : String := String.ofList (Text.hexEncode ann.vaultId.val)

def nodeIdHex (ann : HeadAnnouncement) : String := String.ofList (Text.hexEncode ann.nodeId.val)

def isSigned (ann : HeadAnnouncement) : Bool := ann.signature.val != zeroSignature

end HeadAnnouncement

/-- INV-SKEW-01: reject announcements outside `maxSkewSecs` of the local clock. -/
def checkHeadSkew (ann : HeadAnnouncement) (nowSecs : UInt64) : Res Unit :=
  let skew := absDiff nowSecs ann.timestamp
  if skew > maxSkewSecs then
    fail (.verify ("head timestamp skew " ++ toString skew.toNat ++ "s exceeds MAX_SKEW_SECS"))
  else .ok ()

section

variable [Crates]

/-- Verify head announcement signature (INV-SIG-02).  Requires non-zero signature. -/
def verifyHeadAnnouncement (ann : HeadAnnouncement) : Res Unit :=
  if !ann.isSigned then fail (.verify "head announcement unsigned")
  else if ann.protocolVersion ≠ .ofNat protocolVersion then
    fail (.verify ("unsupported head protocol_version " ++ toString ann.protocolVersion.toNat))
  else
    match Crates.publicKeyFromBytes ann.nodeId with
    | .error e => fail (.verify ("bad node_id pubkey: " ++ e))
    | .ok () => do
        let msg ← headSignMessage ann
        if Crates.ed25519Verify ann.nodeId msg ann.signature.val then return ()
        else fail (.verify "head announcement signature invalid")

/-- The checks against a vault: its id, and the announcer among its members. -/
def checkAnnouncer (v : Vault) (ann : HeadAnnouncement) : Res Unit := do
  let localId ← v.vaultIdBytes
  if localId ≠ ann.vaultId.val then fail (.verify "vault_id mismatch")
  else if !v.isMember ann.nodeIdHex then fail (.verify "announcer not a vault member")
  else return ()

/-! ## §2. The last sequence numbers. -/

/-- Directories of a home: one for every vault id. -/
inductive HomeDir where
  /-- `seq/{vault_id_hex}` -/
  | seq (vaultIdHex : String)
  deriving DecidableEq

abbrev HomeFs := Fs HomeDir

abbrev HomeReads (α : Type) := ReadM HomeDir Fault α

abbrev HomeAction (α : Type) := FileM HomeDir outside Fault α

def lastRecvSeqPath (vaultIdHex nodeIdHex : String) : FilePath HomeDir :=
  ⟨.seq vaultIdHex, nodeIdHex ++ ".seq"⟩

/-- `path.with_extension("seq.tmp")` -/
def lastRecvSeqTmp (vaultIdHex nodeIdHex : String) : FilePath HomeDir :=
  ⟨.seq vaultIdHex, nodeIdHex ++ ".seq.tmp"⟩

/-- The last accepted number; 0 when the file is missing or no number. -/
def loadLastRecvSeq (vaultIdHex nodeIdHex : String) : HomeReads UInt64 := do
  match ← ReadM.read (lastRecvSeqPath vaultIdHex nodeIdHex) with
  | none => return 0
  | some bytes =>
      return ((Text.fromUtf8 bytes).bind (fun s => Text.parseU64 (Text.trim s.toList))).getD 0

def storeLastRecvSeq (vaultIdHex nodeIdHex : String) (seq : UInt64) : HomeAction Unit :=
  writeRename (lastRecvSeqTmp vaultIdHex nodeIdHex) (lastRecvSeqPath vaultIdHex nodeIdHex)
    (Text.toUtf8 (Text.printU64 seq))

/-! ## §3. Accepting an announcement. -/

/-- Validate a received announcement (sig, skew, optional membership, replay). -/
def validateAnnouncement (ann : HeadAnnouncement) (vault : Option Vault) : HomeAction Unit := do
  (verifyHeadAnnouncement ann : Res Unit)
  let now ← ask (Q := outside) .now
  (checkHeadSkew ann now : Res Unit)
  (match vault with
    | some v => checkAnnouncer v ann
    | none => .ok () : Res Unit)
  let last ← loadLastRecvSeq ann.vaultIdHex ann.nodeIdHex
  if ann.seq ≤ last then
    abort (.verify
      ("replay: seq " ++ toString ann.seq.toNat ++ " <= last " ++ toString last.toNat))
  else storeLastRecvSeq ann.vaultIdHex ann.nodeIdHex ann.seq

end

end Soal

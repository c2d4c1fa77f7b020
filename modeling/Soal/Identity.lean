/-
  Soal.Identity — node identity: authors, commit signatures (INV-SIG-01).
-/
import Soal.Codec.Objects

namespace Soal

open FileProg

variable [Crates]

/-- `Option::None` of a failed lookup; a panic passes through. -/
def okOrNone {S : Signature} {α : Type} (x : Prog S Fault α) : Prog S Fault (Option α) :=
  x.handle (fun r => match r with
    | .ok a => .done (.ok (some a))
    | .error (.err _) => .done (.ok none)
    | .error .panic => .done (.error .panic))

/-- Public key text of the node identity under `home`. -/
def localAuthorSync (home : String) : Action (Except SoalError String) := do
  let sk ← loadSecretKey home
  return sk.map (fun sk => Crates.publicKeyText (Crates.publicKey sk))

/-- Sign a commit (sets author, protocol version, signature); the preimage has fields 1–6. -/
def signCommit (sk : SecretKey) (commit : Commit) : Res Commit := do
  let commit := { commit with
    author := Crates.publicKeyText (Crates.publicKey sk)
    protocolVersion := .ofNat protocolVersion
    signature := none }
  let msg ← commitSignMessage commit
  let sig := Crates.ed25519Sign sk msg
  return { commit with signature := some (String.ofList (Text.hexEncode sig.val)) }

/-- Verify a commit's signature when present: 64 zero bytes count as unsigned. -/
def verifyCommitSignature (commit : Commit) : Res Unit :=
  let sigBytes := commit.signatureBytes
  if sigBytes = zeroSignature then .ok ()
  else
    let pk : Key := ⟨(authorToBytes commit.author).bytes, (authorToBytes commit.author).length_eq⟩
    match Crates.publicKeyFromBytes pk with
    | .error e => fail (.verify ("bad author pubkey: " ++ e))
    | .ok () => do
        let msg ← commitSignMessage commit
        if Crates.ed25519Verify pk msg sigBytes then return ()
        else fail (.verify "commit signature invalid")

/-- A signature does not change which tree a commit names or which parents it has. -/
theorem signCommit_ok {sk : SecretKey} {c c' : Commit} (h : signCommit sk c = .ok c') :
    c'.tree = c.tree ∧ c'.parents = c.parents := by
  obtain ⟨msg, _, hc⟩ := bind_ok_iff.1 h
  cases hc
  exact ⟨rfl, rfl⟩

end Soal

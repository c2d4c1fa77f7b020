/-
  Soal.StandIn — functions that can stand in for the third-party ones, and a small history.

  `standIn` answers from tables where tables are given: BLAKE3 digests of listed inputs, JSON texts of
  listed values.  Elsewhere it is any function with the laws that theorems ask for: every JSON codec
  round-trips and rejects the empty text, the AEAD opens what it sealed.

  Examples at fixed inputs run over it.
-/
import Mathlib.Data.Countable.Basic
import Mathlib.Logic.Equiv.List
import Soal.Codec.RoundTrip

namespace Soal

open FileProg (Bytes)

/-! ## §1. The stored records are countable. -/

theorem countable_of {α β : Type} [Countable β] (f : α → β) (h : Function.Injective f) :
    Countable α := h.countable

instance countableChar : Countable Char := countable_of Char.toNat fun _ _ h => Char.toNat_inj.1 h

instance countableString : Countable String := countable_of String.toList fun _ _ h => String.toList_inj.1 h

instance countableUInt8 : Countable UInt8 := countable_of UInt8.toNat fun _ _ h => UInt8.toNat_inj.1 h

instance countableUInt32 : Countable UInt32 := countable_of UInt32.toNat fun _ _ h => UInt32.toNat_inj.1 h

instance countableUInt64 : Countable UInt64 := countable_of UInt64.toNat fun _ _ h => UInt64.toNat_inj.1 h

instance countableVaultConfig : Countable VaultConfig :=
  countable_of (fun c => ((c.name, c.encryptionEnabled, c.minReplicas, c.createdAt, c.vaultId),
    (c.configSeq, c.members, c.owner, c.configSig, c.keyWrapped, c.keyHex)))
    (by rintro ⟨⟩ ⟨⟩ h; simpa [and_assoc] using h)

instance countableSyncState : Countable SyncState :=
  countable_of (fun s => match s with | .fetching => 0 | .verifying => 1 | .done => 2 | .failed => 3)
    (by rintro ⟨⟩ ⟨⟩ h <;> first | rfl | cases h)

instance countableSnapshotEntry : Countable SnapshotEntry :=
  countable_of (fun e => (e.hash, e.timestamp, e.message, e.auto))
    (by rintro ⟨⟩ ⟨⟩ h; simpa using h)

instance countableSnapshotLog : Countable SnapshotLog :=
  countable_of SnapshotLog.entries (by rintro ⟨⟩ ⟨⟩ h; simpa using h)

instance countableVaultPolicy : Countable VaultPolicy :=
  countable_of (fun p => (p.minReplicas, p.snapshotIntervalSecs, p.retainSnapshots, p.liveMode,
    p.preferNodes, p.maxHeadAgeSecs, p.label)) (by rintro ⟨⟩ ⟨⟩ h; simpa using h)

instance countableSyncJob : Countable SyncJob :=
  countable_of (fun j => (j.target, j.epoch, j.state, j.doneCommits, j.doneTrees, j.doneChunks,
    j.updatedAt, j.error)) (by rintro ⟨⟩ ⟨⟩ h; simpa using h)

/-- The alternatives of a value side by side, behind a number. -/
def JsonValue.parts : JsonValue → Nat × Bool × UInt64 × String × List String
  | .null => (0, false, 0, "", [])
  | .bool b => (1, b, 0, "", [])
  | .number n => (2, false, n, "", [])
  | .string s => (3, false, 0, s, [])
  | .strings l => (4, false, 0, "", l)

instance countableJsonValue : Countable JsonValue := countable_of JsonValue.parts (by
  rintro (_ | b | n | s | l) (_ | b' | n' | s' | l') h <;> simp_all [JsonValue.parts])

instance countableWrappedKey : Countable WrappedKey :=
  countable_of (fun w => (w.kdf, w.saltHex, w.mKib, w.tCost, w.pCost, w.sealedHex))
    (by rintro ⟨⟩ ⟨⟩ h; simpa using h)

instance countablePinSet : Countable PinSet :=
  countable_of (fun p => (p.pins, p.updatedAt)) (by rintro ⟨⟩ ⟨⟩ h; simpa using h)

instance countablePeerHave : Countable PeerHave :=
  countable_of (fun h => (h.peers.entries, h.updatedAt))
    (by rintro ⟨⟨⟩, _⟩ ⟨⟨⟩, _⟩ h; simpa using h)

/-! ## §2. JSON. -/

/-- The codec that prints with a given function and parses whatever was printed. -/
noncomputable def SerdeJson.ofPrinter {α : Type} (print : α → String) : SerdeJson α where
  toStringPretty := print
  fromStr s :=
    have := Classical.propDecidable (∃ a, print a = s)
    if h : ∃ a, print a = s then .ok h.choose else .error "expected value"

theorem SerdeJson.ofPrinter_roundTrip {α : Type} {print : α → String}
    (h : Function.Injective print) : (SerdeJson.ofPrinter print).RoundTrip := by
  intro a
  have hex : ∃ b, print b = print a := ⟨a, rfl⟩
  exact (dif_pos hex).trans (congrArg _ (h hex.choose_spec))

/-- What was never printed is rejected. -/
theorem SerdeJson.ofPrinter_rejects {α : Type} {print : α → String} {s : String}
    (h : ∀ a, print a ≠ s) (a : α) : (SerdeJson.ofPrinter print).fromStr s ≠ .ok a := by
  have hno : ¬∃ b, print b = s := fun ⟨b, hb⟩ => h b hb
  show (@dite _ _ (Classical.propDecidable _) _ _ : Except String α) ≠ _
  rw [dif_neg hno]
  exact fun h => by cases h

/-- A text for every value: one of countably many, on one line. -/
noncomputable def codeText {α : Type} [Countable α] (a : α) : List Char :=
  '\x7b' :: List.replicate (Classical.choose (exists_injective_nat α) a) '0'

theorem codeText_injective {α : Type} [Countable α] : Function.Injective (codeText (α := α)) := by
  intro a b h
  have hlen := congrArg List.length h
  simp only [codeText, List.length_cons, List.length_replicate, Nat.add_right_cancel_iff] at hlen
  exact Classical.choose_spec (exists_injective_nat α) hlen

theorem codeText_plain {α : Type} [Countable α] {c : Char} (hc : c ≠ '\x7b' ∧ c ≠ '0') (a : α) :
    c ∉ codeText a := by
  simp [codeText, hc]

/-- A listed value has its listed text, which is no code text; every other value a text of its
own. -/
noncomputable def printOr {α : Type} [Countable α] [DecidableEq α] (a₀ : α) (text : String) (a : α) :
    String :=
  if a = a₀ then text else String.ofList (codeText a)

theorem printOr_injective {α : Type} [Countable α] [DecidableEq α] {a₀ : α} {text : String}
    {c : Char} (hc : c ≠ '\x7b' ∧ c ≠ '0') (h : c ∈ text.toList) :
    Function.Injective (printOr a₀ text) := by
  have hne : ∀ a : α, text ≠ String.ofList (codeText a) := fun a heq => by
    rw [heq, String.toList_ofList] at h
    exact codeText_plain hc a h
  intro a b hab
  unfold printOr at hab
  split at hab <;> split at hab
  next ha hb => rw [ha, hb]
  next => exact absurd hab (hne b)
  next => exact absurd hab.symm (hne a)
  next => exact codeText_injective (String.ofList_inj.1 hab)

theorem printOr_ne_empty {α : Type} [Countable α] [DecidableEq α] {a₀ : α} {text : String}
    {c : Char} (h : c ∈ text.toList) (a : α) : printOr a₀ text a ≠ "" := by
  unfold printOr
  split
  next => rintro rfl; cases h
  next =>
    intro heq
    have := congrArg String.toList heq
    rw [String.toList_ofList] at this
    cases this

/-- A second listed value. -/
noncomputable def printBoth {α : Type} [Countable α] [DecidableEq α] (a₀ a₁ : α) (text₀ text₁ : String)
    (a : α) : String := if a = a₀ then text₀ else printOr a₁ text₁ a

/-- BLAKE3 from a table; what is not listed has the digest of zeros. -/
def tableDigest (table : List (Bytes × ContentHash)) (b : Bytes) : ContentHash :=
  ((table.find? (fun entry => entry.1 == b)).map Prod.snd).getD ⟨List.replicate 32 0, rfl⟩

/-- The config of a plaintext-key vault, and its text in `vault.json`. -/
def sampleConfig : VaultConfig where
  name := "demo"
  encryptionEnabled := true
  minReplicas := 2
  createdAt := 1700000000
  vaultId := "00112233445566778899aabbccddeeff"
  configSeq := 1
  members := []
  owner := none
  configSig := none
  keyWrapped := false
  keyHex := none

def sampleConfigText : String :=
  "\x7b\n  \"name\": \"demo\",\n  \"encryption_enabled\": true,\n  \"min_replicas\": 2,\n" ++
  "  \"created_at\": 1700000000,\n  \"vault_id\": \"00112233445566778899aabbccddeeff\",\n" ++
  "  \"config_seq\": 1,\n  \"key_wrapped\": false\n\x7d"

/-- The signed object of `sampleConfig`, and its compact text. -/
def sampleObject : JsonObject := [
  ("config_seq", .number 1), ("created_at", .number 1700000000),
  ("encryption_enabled", .bool true), ("key_wrapped", .bool false), ("members", .strings []),
  ("min_replicas", .number 2), ("name", .string "demo"), ("owner", .null),
  ("vault_id", .string "00112233445566778899aabbccddeeff")]

def sampleObjectText : String :=
  "\x7b\"config_seq\":1,\"created_at\":1700000000,\"encryption_enabled\":true," ++
  "\"key_wrapped\":false,\"members\":[],\"min_replicas\":2,\"name\":\"demo\",\"owner\":null," ++
  "\"vault_id\":\"00112233445566778899aabbccddeeff\"\x7d"

/-- The bytes of an object: a listed one, or a text of its own. -/
noncomputable def printObject (object₀ : JsonObject) (text : String) (object : JsonObject) : Bytes :=
  Text.toUtf8 (printOr object₀ text object)

/-- Two listed objects. -/
noncomputable def printObjects (object₀ object₁ : JsonObject) (text₀ text₁ : String)
    (object : JsonObject) : Bytes :=
  Text.toUtf8 (printBoth object₀ object₁ text₀ text₁ object)

/-- A key from its hex text. -/
def keyFromText (s : String) : Except String Key :=
  match Text.hexDecode s.toList with
  | some b => if h : b.length = 32 then .ok ⟨b, h⟩ else .error "invalid length"
  | none => .error "invalid encoding"

/-- Functions with the laws of the third-party ones.  The AEAD appends a tag and checks its length;
no bytes are a JSON commit or tree. -/
@[reducible] noncomputable def standIn (digest : Bytes → ContentHash) : Crates where
  blake3 := digest
  fastcdc data _ _ _ := [(0, data.length)]
  aeadEncrypt _ _ msg _ := .ok (msg ++ List.replicate 16 0)
  aeadDecrypt _ _ ct _ :=
    if ct.length < 16 then .error "aead::Error" else .ok (ct.take (ct.length - 16))
  argon2id _ _ _ _ _ := .ok ⟨List.replicate 32 7, rfl⟩
  publicKey sk := sk.bytes
  publicKeyText k := String.ofList (Text.hexEncode k.val)
  publicKeyFromStr := keyFromText
  publicKeyFromBytes _ := .ok ()
  ed25519Sign _ _ := ⟨List.replicate 64 1, rfl⟩
  ed25519Verify _ _ _ := false
  commitFromSlice _ := .error "expected value at line 1 column 1"
  legacyCommitToVec _ _ _ _ _ := Text.toUtf8 "\x7b\x7d"
  treeFromSlice _ := .error "expected value at line 1 column 1"
  treeToVec _ := Text.toUtf8 "\x7b\x7d"
  objectToVec := printObject sampleObject sampleObjectText
  snapshotsJson := .ofPrinter (printOr ⟨[]⟩ "\x7b\n  \"entries\": []\n\x7d")
  policyJson := .ofPrinter (fun p => String.ofList (codeText p))
  jobJson := .ofPrinter (fun j => String.ofList (codeText j))
  configJson := .ofPrinter (printOr sampleConfig sampleConfigText)
  wrappedJson := .ofPrinter (fun w => String.ofList (codeText w))
  pinsJson := .ofPrinter (fun p => String.ofList (codeText p))
  haveJson := .ofPrinter (fun h => String.ofList (codeText h))

/-- The registry texts of the stand-in read back. -/
theorem standIn_snapshotsJson (digest : Bytes → ContentHash) :
    (standIn digest).snapshotsJson.RoundTrip :=
  SerdeJson.ofPrinter_roundTrip (printOr_injective (c := 'e') (by decide) (by decide))

/-- A quiet world: the clock stands at a given time, randomness is zero, no peer and no node key
answers. -/
def quiet (now : UInt64) : Outside := fun _ q => match q with
  | .now => now
  | .random n => ⟨List.replicate n 0, List.length_replicate⟩
  | .getBlob _ _ => .error (.other "unreachable")
  | .loadSecretKey _ => .error .notFound
  | .addBytes _ => .ok ()
  | .broadcastHead _ _ => .error (.other "no route")

/-! ## §4. A small history, with its real digests. -/

/-- The wire form of an unsigned commit. -/
def plainWire (author : ContentHash) (c : Commit) : Bytes :=
  domainCommit ++ (writeMapHeader 7 ++ (writeU64 1 ++ (writeBstr c.tree.bytes ++ (writeU64 2 ++
    (writeArrayHeader c.parents.length ++ (encodeHashes c.parents ++ (writeU64 3 ++
      (writeBstr author.bytes ++ (writeU64 4 ++ (writeU64 c.timestamp.toNat ++ (writeU64 5 ++
        (writeTstr c.message ++ (writeU64 6 ++ (writeU64 1 ++
          (writeU64 7 ++ writeBstr zeroSignature)))))))))))))))

/-- Digest of the empty tree. -/
def treeE : ContentHash where
  bytes := [
    0x75, 0xf4, 0x25, 0x2a, 0xed, 0x35, 0xde, 0x6c, 0xd9, 0xa8, 0x12, 0x62, 0xe2, 0xae, 0x23,
    0x8a, 0x44, 0x53, 0x6f, 0x32, 0x7f, 0x17, 0xfc, 0x8c, 0x8e, 0xb0, 0x1a, 0x95, 0x5e, 0x8c,
    0x33, 0x47]
  length_eq := rfl

/-- Digest of `commitA`. -/
def hashA : ContentHash where
  bytes := [
    0x72, 0xa7, 0x30, 0x0a, 0x58, 0x7d, 0x25, 0xcd, 0xaa, 0x6f, 0x59, 0x70, 0x6d, 0x4f, 0xa5,
    0x08, 0x8d, 0xa1, 0x2f, 0x74, 0x24, 0x24, 0xe8, 0x3c, 0x6b, 0x1b, 0x4e, 0xa1, 0x08, 0x44,
    0x97, 0x4f]
  length_eq := rfl

/-- Digest of `commitB`. -/
def hashB : ContentHash where
  bytes := [
    0x6d, 0x3d, 0xe0, 0x4e, 0x36, 0xbe, 0xfc, 0xba, 0xfc, 0x2c, 0x57, 0x48, 0x84, 0xa6, 0x95,
    0xbe, 0x84, 0xe4, 0x9d, 0xf9, 0x9a, 0x86, 0x97, 0xd8, 0xff, 0x8c, 0x0d, 0x7b, 0xe5, 0xec,
    0x99, 0x5d]
  length_eq := rfl

/-- Digest of `commitC`. -/
def hashC : ContentHash where
  bytes := [
    0x44, 0x41, 0xf1, 0x03, 0xae, 0xd5, 0x45, 0x17, 0xed, 0x2f, 0xe8, 0xe9, 0x5a, 0x03, 0x7b,
    0x4f, 0xd7, 0x53, 0xe4, 0x9a, 0x3e, 0x51, 0x01, 0x38, 0x16, 0x56, 0x0e, 0xdf, 0x63, 0xb1,
    0xdd, 0x0f]
  length_eq := rfl

/-- Digest of `commitD`. -/
def hashD : ContentHash where
  bytes := [
    0xc4, 0xed, 0xbc, 0x3c, 0x76, 0x2b, 0x9f, 0xf4, 0xa1, 0x84, 0xc2, 0x80, 0x43, 0xb9, 0xcb,
    0x13, 0xb8, 0x99, 0x6e, 0x2b, 0xd8, 0x7c, 0x34, 0x7d, 0xb7, 0xf5, 0xf4, 0xc0, 0xb7, 0xbe,
    0xd7, 0xa2]
  length_eq := rfl

/-- Digest of `commitM`. -/
def hashM : ContentHash where
  bytes := [
    0x0f, 0xcc, 0x16, 0xb4, 0x56, 0xc9, 0xe6, 0xc3, 0xee, 0xe7, 0xbd, 0x5c, 0x3b, 0x17, 0x7e,
    0x0a, 0x32, 0x86, 0x16, 0xf3, 0xc2, 0x37, 0xd3, 0x59, 0xf3, 0xa0, 0x58, 0xe6, 0xc4, 0xa2,
    0x85, 0x44]
  length_eq := rfl

/-- Digest of `soal-author:soal-local`. -/
def localAuthorHash : ContentHash where
  bytes := [
    0x68, 0x1f, 0x3e, 0x90, 0x82, 0x54, 0x38, 0x3a, 0x35, 0xa9, 0xf1, 0x51, 0xd4, 0xfd, 0x89,
    0xd0, 0xbb, 0xa4, 0x43, 0x65, 0xfc, 0x80, 0xd2, 0x6e, 0x90, 0xcd, 0xe2, 0x0a, 0x58, 0xc6,
    0x8f, 0x34]
  length_eq := rfl

/-- The author of the sample commits. -/
def sampleAuthor : ContentHash := ⟨List.replicate 32 0x11, rfl⟩

/-- An unsigned commit of the empty tree. -/
def sampleCommit (parents : List ContentHash) (timestamp : UInt64) (message : String) : Commit where
  tree := treeE
  parents := parents
  author := sampleAuthor.toHex
  timestamp := timestamp
  message := message
  protocolVersion := 1
  signature := none

def commitA : Commit := sampleCommit [] 1700000000 "a"
def commitB : Commit := sampleCommit [] 1700000001 "b"
def commitC : Commit := sampleCommit [] 1700000002 "c"
/-- A child of `commitA`. -/
def commitD : Commit := sampleCommit [hashA] 1700000003 "d"
/-- The merge of `commitB` into `commitA`, made without a node identity. -/
def commitM : Commit :=
  { sampleCommit [hashA, hashB] 1700000004 "Merge b" with author := "soal-local" }

/-- Wire form of the empty tree. -/
def wireE : Bytes := domainTree ++ [0xa1, 0x01, 0xa0]
def wireA : Bytes := plainWire sampleAuthor commitA
def wireB : Bytes := plainWire sampleAuthor commitB
def wireC : Bytes := plainWire sampleAuthor commitC
def wireD : Bytes := plainWire sampleAuthor commitD
def wireM : Bytes := plainWire localAuthorHash commitM

/-- BLAKE3 on the small history. -/
def sampleDigest : Bytes → ContentHash :=
  tableDigest [(wireE, treeE), (wireA, hashA), (wireB, hashB), (wireC, hashC), (wireD, hashD),
    (wireM, hashM), (Text.toUtf8 "soal-author:soal-local", localAuthorHash)]

/-- The five commits are different. -/
@[simp] theorem sample_hashes_ne :
    hashA ≠ hashB ∧ hashA ≠ hashC ∧ hashA ≠ hashD ∧ hashA ≠ hashM ∧ hashB ≠ hashA ∧ hashB ≠ hashC
    ∧ hashB ≠ hashD ∧ hashB ≠ hashM ∧ hashC ≠ hashA ∧ hashC ≠ hashB ∧ hashC ≠ hashD ∧ hashC ≠
    hashM ∧ hashD ≠ hashA ∧ hashD ≠ hashB ∧ hashD ≠ hashC ∧ hashD ≠ hashM ∧ hashM ≠ hashA ∧ hashM
    ≠ hashB ∧ hashM ≠ hashC ∧ hashM ≠ hashD := by decide

theorem sampleDigest_wires : sampleDigest wireE = treeE ∧ sampleDigest wireA = hashA ∧
    sampleDigest wireB = hashB ∧ sampleDigest wireC = hashC ∧ sampleDigest wireD = hashD ∧
    sampleDigest wireM = hashM := by decide +kernel

end Soal

/-
  Soal.SampleVault — the small history on disk, for examples at fixed inputs.
-/
import Soal.StandIn
import Soal.Vault.Integrity
import Soal.Vault.Roots
import Soal.Vault.Rules

namespace Soal

open FileProg

/-! ## §1. A disk from a list of files. -/

def diskOf (files : List (FilePath VaultDir × Bytes)) : VaultFs :=
  files.foldr (fun f fs => fs.insert f.1 f.2) ∅

@[simp] theorem lookup_diskOf_nil (p : FilePath VaultDir) : (diskOf []).lookup p = none := rfl

@[simp] theorem lookup_diskOf_cons (p q : FilePath VaultDir) (b : Bytes)
    (files : List (FilePath VaultDir × Bytes)) :
    (diskOf ((q, b) :: files)).lookup p = if p = q then some b else (diskOf files).lookup p := by
  show AList.lookup p (AList.insert q b (diskOf files)) = _
  split
  next h => rw [h, AList.lookup_insert]
  next h => rw [AList.lookup_insert_ne h]

theorem mem_of_lookup_diskOf {files : List (FilePath VaultDir × Bytes)} {p : FilePath VaultDir}
    {b : Bytes} (h : (diskOf files).lookup p = some b) : (p, b) ∈ files := by
  induction files with
  | nil => simp at h
  | cons f files ih =>
    rw [lookup_diskOf_cons] at h
    split at h
    next hp =>
      obtain rfl := Option.some.inj h
      exact hp ▸ List.mem_cons_self
    next => exact List.mem_cons_of_mem _ (ih h)

/-! ## §2. The history. -/

/-- An unsigned commit of version 1 has the plain wire form. -/
theorem encodeCommitWire_plain [Crates] {c : Commit} {author : ContentHash}
    (ha : authorToBytes c.author = author) (hs : c.signature = none) (hv : c.protocolVersion = 1)
    (hp : c.parents.length ≤ maxCommitParents) (hl : (plainWire author c).length ≤ isizeMax) :
    encodeCommitWire c = .ok (plainWire author c) := by
  have hsig : c.signatureBytes = zeroSignature := by rw [Commit.signatureBytes, hs]
  have hver : c.wireVersion = 1 := by rw [Commit.wireVersion, hv]; rfl
  refine bind_ok_iff.2 ⟨(plainWire author c).drop 16, ?_, frame_ok_iff.2 ⟨?_, ?_⟩⟩
  · unfold encodeCommitBody encodeCommitFields
    rw [if_neg (by omega), ha, hsig, hver]
    refine vec_ok_iff.2 ⟨?_, ?_⟩
    · rw [plainWire, ← domainCommit_length, List.drop_left]
    · rw [plainWire, List.length_append] at hl
      exact le_trans (Nat.le_add_left _ _) hl
  · rw [plainWire, ← domainCommit_length, List.drop_left]
  · rwa [plainWire, ← domainCommit_length, List.drop_left]

/-- The third-party functions on the small history. -/
@[reducible] noncomputable def sample : Crates := standIn sampleDigest

section Sample

attribute [local instance] sample

theorem sample_commitJson : commitKind.JsonUnframed where
  parsed _ _ h := by cases h
  printed _ := by
    show isFramed domainCommit (Text.toUtf8 "\x7b\x7d") = false
    decide

theorem encodeTreeWire_new : encodeTreeWire Tree.new = .ok wireE := rfl

theorem encode_sample (parents : List ContentHash) (timestamp : UInt64) (message : String)
    (hp : parents.length ≤ maxCommitParents)
    (hl : (plainWire sampleAuthor (sampleCommit parents timestamp message)).length ≤ isizeMax) :
    encodeCommitWire (sampleCommit parents timestamp message) =
      .ok (plainWire sampleAuthor (sampleCommit parents timestamp message)) :=
  encodeCommitWire_plain (authorToBytes_toHex sampleAuthor) rfl rfl hp hl

theorem sampleWires_length : wireA.length ≤ isizeMax ∧ wireB.length ≤ isizeMax ∧
    wireC.length ≤ isizeMax ∧ wireD.length ≤ isizeMax ∧ wireM.length ≤ isizeMax := by decide +kernel

theorem encodeA : encodeCommitWire commitA = .ok wireA :=
  encode_sample _ _ _ (by decide) sampleWires_length.1

theorem encodeB : encodeCommitWire commitB = .ok wireB :=
  encode_sample _ _ _ (by decide) sampleWires_length.2.1

theorem encodeD : encodeCommitWire commitD = .ok wireD :=
  encode_sample _ _ _ (by decide) sampleWires_length.2.2.2.1

theorem encodeM : encodeCommitWire commitM = .ok wireM := by
  refine encodeCommitWire_plain ?_ rfl rfl (by decide) sampleWires_length.2.2.2.2
  have hnot : ContentHash.fromHex "soal-local" = fail .invalidHash := by decide
  unfold authorToBytes
  rw [show commitM.author = "soal-local" from rfl, hnot]
  show sampleDigest (Text.toUtf8 "soal-author:" ++ Text.toUtf8 "soal-local") = localAuthorHash
  decide

/-- BLAKE3 separates the history. -/
theorem sample_collisionFree :
    CollisionFree (fun b => b ∈ [wireE, wireA, wireB, wireC, wireD, wireM]) := by
  have hmap : [wireE, wireA, wireB, wireC, wireD, wireM].map ContentHash.of =
      [treeE, hashA, hashB, hashC, hashD, hashM] := by
    obtain ⟨h₁, h₂, h₃, h₄, h₅, h₆⟩ := sampleDigest_wires
    have hof : ∀ b, ContentHash.of b = sampleDigest b := fun _ => rfl
    simp only [List.map_cons, List.map_nil, hof, h₁, h₂, h₃, h₄, h₅, h₆]
  have hnodup : ([wireE, wireA, wireB, wireC, wireD, wireM].map ContentHash.of).Nodup := by
    rw [hmap]
    decide
  exact fun a b ha hb h => List.inj_on_of_nodup_map hnodup ha hb h

/-! ## §3. Saving it, and loading from a disk that holds it. -/

section Runs

variable {env : Outside} {w : VaultWorld}

theorem run_saveTree_sample :
    run env (saveTree Tree.new) w = (.ok treeE, w.written (treePathBin treeE) wireE) := by
  have hE : ContentHash.of wireE = treeE := sampleDigest_wires.1
  rw [← hE]
  rfl

/-- Without a node identity a commit is made from the clock alone. -/
theorem Vault.run_commitTree_plain {v : Vault} {tree hash : ContentHash} {parents : List ContentHash}
    {message : String} {bytes : Bytes} (hv : v.soalHome = none)
    (hc : encodeCommitWire ⟨tree, parents, "soal-local", env w.tick .now, message,
      .ofNat protocolVersion, none⟩ = .ok bytes) (hh : sampleDigest bytes = hash) :
    run env (v.commitTree tree parents message) w = (.ok hash, committed w.asked hash bytes) := by
  obtain ⟨config, key, soalHome⟩ := v
  subst hv hh
  unfold Vault.commitTree
  refine (run_bind_ok (v := w.asked) (a := _) rfl).trans ?_
  refine (run_bind_ok (v := w.asked.written (commitPathBin (.of bytes)) bytes)
    (a := .of bytes) ?_).trans rfl
  unfold saveCommit ObjectKind.save ObjectKind.hash
  refine (run_compute_ok (a := .of bytes) ?_).trans ((run_compute_ok (a := bytes) ?_).trans rfl)
  · exact congrArg (Except.map ContentHash.of) hc
  · exact hc

end Runs

variable {fs : VaultFs}

theorem loadTree_sample (h : fs.lookup (treePathBin treeE) = some wireE) :
    ReadM.eval fs (loadTree treeE) = .ok Tree.new :=
  eval_loadTree_of encodeTreeWire_new (fun p hp => by cases hp) sampleDigest_wires.1 h

theorem loadCommit_sample {c : Commit} {wire : Bytes} {hash : ContentHash}
    (hc : encodeCommitWire c = .ok wire) (hh : sampleDigest wire = hash)
    (h : fs.lookup (commitPathBin hash) = some wire) :
    ReadM.eval fs (loadCommit hash) = .ok c.normal := eval_loadCommit_of hc hh h

/-- An unsigned commit of the history is accepted under its hash. -/
theorem imports_sample {c : Commit} {wire : Bytes} {hash : ContentHash}
    (hc : encodeCommitWire c = .ok wire) (hh : sampleDigest wire = hash)
    (hs : c.signature = none) : commitKind.Imports hash wire c.normal := by
  have hE : ContentHash.of wire = hash := hh
  rw [← hE]
  refine imports_commitWire hc ?_
  unfold verifyCommitSignature
  rw [c.signatureBytes_normal, Commit.signatureBytes, hs]
  exact if_pos rfl

theorem imports_treeE : treeKind.Imports treeE wireE Tree.new := by
  have hE : ContentHash.of wireE = treeE := sampleDigest_wires.1
  rw [← hE]
  exact imports_treeWire encodeTreeWire_new fun p hp => by cases hp

end Sample

/-! ## §4. A commit in JSON, with a signature that is not its author's. -/

/-- `commitA` with a made-up signature. -/
def forgedCommit : Commit :=
  { commitA with signature := some (String.ofList (Text.hexEncode (List.replicate 64 1))) }

/-- `commitA` as older vaults wrote it: the five fields that have no default. -/
def legacyTextA : String :=
  "\x7b\"tree\":\"" ++ treeE.toHex ++ "\",\"parents\":[],\"author\":\"" ++ sampleAuthor.toHex ++
    "\",\"timestamp\":1700000000,\"message\":\"a\"\x7d"

/-- `forgedCommit` in JSON, with all its fields. -/
def forgedText : String :=
  "\x7b\"tree\":\"" ++ treeE.toHex ++ "\",\"parents\":[],\"author\":\"" ++ sampleAuthor.toHex ++
    "\",\"timestamp\":1700000000,\"message\":\"a\",\"protocol_version\":1,\"signature\":\"" ++
    String.ofList (Text.hexEncode (List.replicate 64 1)) ++ "\"\x7d"

def wireForged : Bytes :=
  (plainWire sampleAuthor commitA).take (wireA.length - 64) ++ List.replicate 64 1

/-- Digest of `forgedText`. -/
def hashForged : ContentHash where
  bytes := [
    0x40, 0xf9, 0xbd, 0xee, 0xe8, 0xf0, 0x23, 0xed, 0x25, 0x77, 0xbe, 0x7f, 0xfe, 0x9d, 0xcd,
    0xb3, 0x5f, 0x9f, 0x5e, 0x20, 0xa1, 0xab, 0x3c, 0x3e, 0xb7, 0xa1, 0x8d, 0x09, 0xb4, 0x4f,
    0x5b, 0x32]
  length_eq := rfl

/-- Digest of `legacyTextA`. -/
def hashLegacyA : ContentHash where
  bytes := [
    0x7e, 0x3f, 0xcb, 0xe7, 0x43, 0x05, 0x27, 0x96, 0x88, 0x62, 0xd8, 0x55, 0x88, 0x35, 0xc2,
    0x65, 0x8b, 0xe4, 0x8f, 0xf3, 0x31, 0x60, 0x7c, 0xa8, 0x5a, 0x54, 0xf3, 0x80, 0x85, 0x06,
    0xf1, 0x13]
  length_eq := rfl

/-- Digest of the wire form of `forgedCommit`. -/
def hashWireForged : ContentHash where
  bytes := [
    0x17, 0xd8, 0xde, 0xa6, 0xec, 0x59, 0x06, 0x00, 0x80, 0x01, 0xb1, 0x4f, 0x49, 0xe1, 0xdd,
    0x02, 0xbc, 0x19, 0x94, 0x75, 0x07, 0xfc, 0x6f, 0x2d, 0x37, 0x43, 0xcc, 0x6e, 0x5a, 0x6c,
    0x6d, 0x71]
  length_eq := rfl

/-- BLAKE3 on the forged commit. -/
def forgedDigest : Bytes → ContentHash :=
  tableDigest [(Text.toUtf8 forgedText, hashForged), (Text.toUtf8 legacyTextA, hashLegacyA),
    (wireForged, hashWireForged)]

/-- Only the forged text parses. -/
def forgedFromSlice (b : Bytes) : Except String Commit :=
  if b = Text.toUtf8 forgedText then .ok forgedCommit
  else .error "expected value at line 1 column 1"

/-- The third-party functions on the forged commit: its text parses, and its signature does not
verify. -/
@[reducible] noncomputable def jsonSample : Crates :=
  { standIn forgedDigest with
    commitFromSlice := forgedFromSlice
    legacyCommitToVec := fun _ _ _ _ _ => Text.toUtf8 legacyTextA }

theorem forgedDigest_texts : forgedDigest (Text.toUtf8 forgedText) = hashForged ∧
    forgedDigest (Text.toUtf8 legacyTextA) = hashLegacyA ∧
    forgedDigest wireForged = hashWireForged := by decide +kernel

theorem forgedText_unframed : isFramed domainCommit (Text.toUtf8 forgedText) = false := by
  decide +kernel

/-- The forged text is accepted under its own hash. -/
theorem forged_imports :
    @ObjectKind.Imports jsonSample _ (@commitKind jsonSample) hashForged (Text.toUtf8 forgedText)
      forgedCommit := by
  have hparse : forgedFromSlice (Text.toUtf8 forgedText) = .ok forgedCommit := if_pos rfl
  have hof : ∀ b, @ContentHash.of jsonSample b = forgedDigest b := fun _ => rfl
  have hhash : @ContentHash.of jsonSample (Text.toUtf8 forgedText) = hashForged :=
    (hof _).trans forgedDigest_texts.1
  refine @ObjectKind.Imports.mk jsonSample _ _ _ _ _ hhash (fun hf => ?_) fun _ => ?_
  · have hf : isFramed domainCommit (Text.toUtf8 forgedText) = true := hf
    exact absurd (hf.symm.trans forgedText_unframed) (by decide)
  · have hslice : (@commitKind jsonSample).fromBytes = fun b => serde (forgedFromSlice b) := rfl
    rw [hslice]
    exact congrArg serde hparse

/-! ## §5. A tree of one file. -/

/-- The tree that holds one file of one chunk. -/
def oneFile (path : String) (size : UInt64) (chunk : ContentHash) : Tree :=
  ⟨Tree.new.entries.insert path (.file size [chunk])⟩

def wireOneFile (path : String) (size : UInt64) (chunk : ContentHash) : Bytes :=
  domainTree ++ (writeMapHeader 1 ++ (writeU64 1 ++ (writeMapHeader 1 ++
    encodeTreeEntry (path, .file size [chunk]))))

theorem entries_oneFile (path : String) (size : UInt64) (chunk : ContentHash) :
    (oneFile path size chunk).entries.entries = [(path, .file size [chunk])] := rfl

theorem encodeTreeWire_oneFile {path : String} {size : UInt64} {chunk : ContentHash}
    (hl : (wireOneFile path size chunk).length ≤ isizeMax) :
    encodeTreeWire (oneFile path size chunk) = .ok (wireOneFile path size chunk) := by
  refine bind_ok_iff.2 ⟨(wireOneFile path size chunk).drop 16, ?_, frame_ok_iff.2 ⟨?_, ?_⟩⟩
  · have hsize : ¬(oneFile path size chunk).entries.size > maxTreeEntries := by
      show ¬1 > maxTreeEntries
      decide
    unfold encodeTreeBody
    rw [if_neg hsize]
    refine vec_ok_iff.2 ⟨?_, ?_⟩
    · rw [wireOneFile, ← domainTree_length, List.drop_left, entries_oneFile, List.flatMap_singleton]
      rfl
    · rw [entries_oneFile, List.flatMap_singleton]
      rw [wireOneFile, List.length_append] at hl
      exact le_trans (Nat.le_add_left _ _) hl
  · rw [wireOneFile, ← domainTree_length, List.drop_left]
  · rwa [wireOneFile, ← domainTree_length, List.drop_left]

/-! ## §6. A note, overwritten and kept. -/

/-- Digest of the content `hello`. -/
def chunkHello : ContentHash where
  bytes := [
    0xea, 0x8f, 0x16, 0x3d, 0xb3, 0x86, 0x82, 0x92, 0x5e, 0x44, 0x91, 0xc5, 0xe5, 0x8d, 0x4b,
    0xb3, 0x50, 0x6e, 0xf8, 0xc1, 0x4e, 0xb7, 0x8a, 0x86, 0xe9, 0x08, 0xc5, 0x62, 0x4a, 0x67,
    0x20, 0x0f]
  length_eq := rfl

/-- A tree of one file. -/
def noteTree : Tree := ⟨.insert .empty "n.txt" (.file 5 [chunkHello])⟩

/-- Digest of the wire form of `noteTree`. -/
def treeNote : ContentHash where
  bytes := [
    0x9d, 0x00, 0x3d, 0x44, 0x21, 0xc1, 0xf8, 0x96, 0x17, 0xcc, 0x5b, 0xe3, 0x7e, 0x59, 0x6c,
    0x7d, 0x87, 0xf0, 0x74, 0x8c, 0x8e, 0xe0, 0x42, 0x27, 0xf2, 0x50, 0xd1, 0x12, 0xf4, 0x8c,
    0xfc, 0xbd]
  length_eq := rfl

/-- Wire form of `noteTree`. -/
def wireNote : Bytes :=
  domainTree ++ ([0xa1, 0x01, 0xa1, 0x65] ++ (Text.toUtf8 "n.txt" ++
    ([0xa3, 0x01, 0x00, 0x02, 0x05, 0x03, 0x81, 0x58, 0x20] ++ chunkHello.bytes)))

/-- Digest of the content `world`. -/
def chunkWorld : ContentHash where
  bytes := [
    0xd7, 0x89, 0x4a, 0xe9, 0x71, 0x6d, 0x38, 0xd2, 0xdf, 0xad, 0x0e, 0xc5, 0x54, 0x24, 0xca,
    0x32, 0x1e, 0xe1, 0x24, 0x53, 0xd5, 0x1f, 0x1b, 0x3a, 0xde, 0xb7, 0x7d, 0x04, 0x75, 0xed,
    0x98, 0x8c]
  length_eq := rfl

/-- The same path with another content of the same size. -/
def worldTree : Tree := ⟨.insert .empty "n.txt" (.file 5 [chunkWorld])⟩

/-- Digest of the wire form of `worldTree`. -/
def treeWorld : ContentHash where
  bytes := [
    0xd0, 0xeb, 0x56, 0x1c, 0xb6, 0x61, 0xaa, 0xf0, 0x8d, 0x6f, 0xd1, 0x36, 0x2c, 0x29, 0xa1,
    0xed, 0x18, 0xf1, 0xad, 0x66, 0xc9, 0x0a, 0xa9, 0x0b, 0x5c, 0xf1, 0x6e, 0xf4, 0xc1, 0x87,
    0x60, 0x37]
  length_eq := rfl

/-- Wire form of `worldTree`. -/
def wireWorld : Bytes :=
  domainTree ++ ([0xa1, 0x01, 0xa1, 0x65] ++ (Text.toUtf8 "n.txt" ++
    ([0xa3, 0x01, 0x00, 0x02, 0x05, 0x03, 0x81, 0x58, 0x20] ++ chunkWorld.bytes)))

/-- Digest of `commitN`. -/
def hashN : ContentHash where
  bytes := [
    0x87, 0xfc, 0xf6, 0xb0, 0x33, 0xa5, 0x89, 0x5a, 0x28, 0xc2, 0x2a, 0x38, 0x96, 0xaa, 0xa4,
    0x04, 0xa2, 0x93, 0x42, 0x9f, 0x5b, 0xa3, 0xe0, 0xfd, 0x44, 0xdd, 0x96, 0x83, 0xb2, 0xe1,
    0x06, 0xaf]
  length_eq := rfl

/-- Digest of `commitW`. -/
def hashW : ContentHash where
  bytes := [
    0x3d, 0x99, 0xe2, 0x38, 0xdc, 0x35, 0xd5, 0x11, 0xb4, 0x67, 0x2e, 0xed, 0xbe, 0xbf, 0x05,
    0x82, 0x8b, 0x89, 0x28, 0xac, 0x2d, 0x41, 0x1a, 0xed, 0x35, 0xf8, 0x13, 0x1f, 0x8d, 0xc8,
    0x55, 0x16]
  length_eq := rfl

/-- Digest of `commitK`. -/
def hashK : ContentHash where
  bytes := [
    0x7e, 0x68, 0xbc, 0x85, 0x9f, 0x9a, 0x77, 0x30, 0x74, 0xdf, 0xbf, 0xed, 0x97, 0x5c, 0x81,
    0x98, 0x42, 0x8c, 0xa1, 0x91, 0xbb, 0x21, 0xc9, 0x66, 0x3e, 0xd9, 0x6b, 0x28, 0x93, 0xb6,
    0xc2, 0x44]
  length_eq := rfl

/-- The commit that adding the note makes. -/
def commitN : Commit :=
  { sampleCommit [] 1700000005 "Add n.txt" with tree := treeNote, author := "soal-local" }

/-- The commit that overwriting it makes. -/
def commitW : Commit :=
  { sampleCommit [hashN] 1700000006 "Add n.txt" with tree := treeWorld, author := "soal-local" }

/-- A snapshot after that. -/
def commitK : Commit :=
  { sampleCommit [hashW] 1700000007 "kept" with tree := treeWorld, author := "soal-local" }

def wireN : Bytes := plainWire localAuthorHash commitN

def wireW : Bytes := plainWire localAuthorHash commitW

def wireK : Bytes := plainWire localAuthorHash commitK

def noteData : Bytes := Text.toUtf8 "hello"

def worldData : Bytes := Text.toUtf8 "world"

/-- BLAKE3 on the note. -/
def noteDigest : Bytes → ContentHash :=
  tableDigest [(noteData, chunkHello), (wireNote, treeNote), (wireN, hashN),
    (worldData, chunkWorld), (wireWorld, treeWorld), (wireW, hashW), (wireK, hashK),
    (Text.toUtf8 "soal-author:soal-local", localAuthorHash)]

@[reducible] noncomputable def noteSample : Crates := standIn noteDigest

section Note

attribute [local instance] noteSample

theorem encodeTreeWire_note : encodeTreeWire noteTree = .ok wireNote := by decide

theorem encodeTreeWire_world : encodeTreeWire worldTree = .ok wireWorld := by decide

theorem encodeN : encodeCommitWire commitN = .ok wireN := by decide +kernel

theorem encodeW : encodeCommitWire commitW = .ok wireW := by decide +kernel

theorem note_hashes : ContentHash.of noteData = chunkHello ∧ ContentHash.of worldData = chunkWorld ∧
    ContentHash.of wireNote = treeNote ∧ ContentHash.of wireWorld = treeWorld ∧
    ContentHash.of wireN = hashN ∧ ContentHash.of wireW = hashW := by decide +kernel

end Note

end Soal

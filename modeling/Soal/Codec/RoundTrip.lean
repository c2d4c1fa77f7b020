/-
  Soal.Codec.RoundTrip — what the writers wrote, the readers read back.

  The length hypotheses are discharged by the capacity panic of `vec`: a wire that was produced fits
  a buffer, so no declared length overflows.
-/
import Soal.Codec.Objects

namespace Soal

open FileProg (Bytes)

/-! ## §1. Frames. -/

theorem vec_ok_iff {b w : Bytes} : vec b = .ok w ↔ w = b ∧ b.length ≤ isizeMax := by
  unfold vec
  split
  next h => simp [h, eq_comm]
  next h => simp [h]

theorem frame_ok_iff {domain body w : Bytes} :
    frame domain body = .ok w ↔ w = domain ++ body ∧ (domain ++ body).length ≤ isizeMax := vec_ok_iff

theorem unframe_append {domain body : Bytes} (h : domain.length = 16) :
    unframe domain (domain ++ body) = .ok body := by
  unfold unframe
  rw [if_neg (by rw [List.length_append]; omega), ← h, List.take_left, if_neg (by simp),
    List.drop_left]

theorem isFramed_append {domain body : Bytes} (h : domain.length = 16) :
    isFramed domain (domain ++ body) = true := by
  unfold isFramed
  rw [← h, List.take_left, List.length_append]
  simp

@[simp] theorem domainTree_length : domainTree.length = 16 := by decide

@[simp] theorem domainCommit_length : domainCommit.length = 16 := by decide

namespace Decodes

open Cursor

variable {α β : Type}

/-! ## §2. Readers shared by trees and commits. -/

theorem ofRes {r : Res α} {a : α} (h : r = .ok a) : Decodes (Soal.ofRes r) [] a := by
  intro pos rest _
  subst h
  rfl

theorem checkAscending [LT α] [DecidableRel (α := α) (· < ·)] {last : Option α} {k : α}
    {complaint : String} (h : ∀ prev ∈ last, prev < k) :
    Decodes (Soal.checkAscending last k complaint) [] () := by
  cases last with
  | none => exact pure ()
  | some prev =>
      show Decodes (if prev < k then _ else _) [] ()
      rw [if_pos (h prev rfl)]
      exact pure ()

/-- A reader that consumes nothing, followed by another. -/
theorem nil_bind {r : Reader α} {f : α → Reader β} {b : Bytes} {a : α} {c : β}
    (hr : Decodes r [] a) (hf : Decodes (f a) b c) : Decodes (r >>= f) b c := hr.bind hf

theorem turn : Decodes Cursor.turn [] () := fun _ _ _ => rfl

theorem readHashes (complaint : String) (hs : List ContentHash) :
    Decodes (Soal.readHashes complaint hs.length) (encodeHashes hs) hs := by
  induction hs with
  | nil => exact pure []
  | cons h hs ih => exact turn.nil_bind ((readHash complaint h).bind (ih.bind_nil (pure _)))

theorem encodeHashes_length (hs : List ContentHash) : (encodeHashes hs).length = 34 * hs.length := by
  induction hs with
  | nil => rfl
  | cons h hs ih =>
      have hh : (writeBstr h.bytes).length = 34 := by
        rw [writeBstr, List.length_append, h.length_eq]
        rfl
      show (writeBstr h.bytes ++ encodeHashes hs).length = _
      rw [List.length_append, hh, ih, List.length_cons]
      ring

/-! ## §3. Trees. -/

/-- The hashes of a buffer fit a preallocation. -/
theorem withCapacity {n : Nat} (h : 34 * n ≤ isizeMax) : Decodes (Soal.withCapacity n) [] () := by
  intro pos rest _
  show (step .bits64 ⟨pos, rest⟩ (.withCapacity n)).bind _ = _
  rw [step, if_neg (by omega)]
  rfl

/-- The value under key 3 of a file entry. -/
theorem chunkList {acc : EntryFields} (chunks : List ContentHash) :
    Decodes (readEntryValue acc 3) (writeArrayHeader chunks.length ++ encodeHashes chunks)
      { acc with chunks := some chunks } := by
  refine of_fits fun hfit => ?_
  rw [List.length_append, encodeHashes_length] at hfit
  have hn : chunks.length < usizeBound := lt_usizeBound (by omega)
  exact (readArrayHeader hn).bind ((withCapacity (by omega)).nil_bind
    ((readHashes _ chunks).bind_nil (pure _)))

theorem entryField {acc acc' : EntryFields} {k : Nat} {b : Bytes}
    (hk : ∀ prev ∈ acc.lastK, prev < k) (hk' : k < usizeBound)
    (h : Decodes (readEntryValue { acc with lastK := some k } k) b acc') :
    Decodes (readEntryField acc) (writeU64 k ++ b) acc' :=
  (readU64Value hk').bind ((checkAscending hk).nil_bind h)

theorem entryStep {n : Nat} {acc acc' acc'' : EntryFields} {b b' : Bytes}
    (h : Decodes (readEntryField acc) b acc') (h' : Decodes (readEntryFields n acc') b' acc'') :
    Decodes (readEntryFields (n + 1) acc) (b ++ b') acc'' :=
  turn.nil_bind (h.bind h')

theorem uint64_lt (v : UInt64) : v.toNat < usizeBound := v.toNat_lt

/-- The body of an entry reads back as its fields. -/
theorem entryBody : ∀ (entry : TreeEntry), ∃ (n : Nat) (acc : EntryFields) (b : Bytes),
    n < usizeBound ∧ (∀ path, encodeTreeEntry (path, entry) = writeTstr path ++ (writeMapHeader n ++ b)) ∧
      Decodes (readEntryFields n .none) b acc ∧ entryOfFields acc = .ok entry
  | .file size chunks => by
      have h₁ : Decodes (readEntryField .none) (writeU64 1 ++ writeU64 0)
          ⟨some 0, none, none, none, some 1⟩ :=
        entryField (by simp [EntryFields.none]) (by decide)
          ((readU64Value (v := 0) (by decide)).bind_nil (pure _))
      have h₂ : Decodes (readEntryField ⟨some 0, none, none, none, some 1⟩)
          (writeU64 2 ++ writeU64 size.toNat) ⟨some 0, some size.toNat, none, none, some 2⟩ :=
        entryField (by simp) (by decide)
          ((readU64Value (uint64_lt size)).bind_nil (pure _))
      have h₃ : Decodes (readEntryField ⟨some 0, some size.toNat, none, none, some 2⟩)
          (writeU64 3 ++ (writeArrayHeader chunks.length ++ encodeHashes chunks))
          ⟨some 0, some size.toNat, some chunks, none, some 3⟩ :=
        entryField (by simp) (by decide) (chunkList chunks)
      have h := entryStep h₁ (entryStep h₂ (entryStep (n := 0) h₃ (pure _)))
      refine ⟨3, _, _, by decide, fun path => ?_, h, ?_⟩
      · simp [encodeTreeEntry]
      · simp [entryOfFields]
  | .dir hash => by
      have h₁ : Decodes (readEntryField .none) (writeU64 1 ++ writeU64 1)
          ⟨some 1, none, none, none, some 1⟩ :=
        entryField (by simp [EntryFields.none]) (by decide)
          ((readU64Value (v := 1) (by decide)).bind_nil (pure _))
      have h₂ : Decodes (readEntryField ⟨some 1, none, none, none, some 1⟩)
          (writeU64 2 ++ writeBstr hash.bytes) ⟨some 1, none, none, some hash, some 2⟩ :=
        entryField (by simp) (by decide) ((readHash _ hash).bind_nil (pure _))
      have h := entryStep h₁ (entryStep (n := 0) h₂ (pure _))
      refine ⟨2, _, _, by decide, fun path => ?_, h, rfl⟩
      simp [encodeTreeEntry]

/-- The entries still to come are appended to those read so far: the induction is on the entries,
and the keys stay in ascending order. -/
theorem treeEntries (es : List (String × TreeEntry)) : ∀ (last : Option String) (acc : Tree),
    (acc.entries.entries ++ es).Pairwise (fun p q => p.1 < q.1) →
    (∀ prev ∈ last, ∀ p ∈ es, prev < p.1) →
    (∀ p ∈ es, validatePath p.1 = .ok ()) →
    ∃ t : Tree, t.entries.entries = acc.entries.entries ++ es ∧
      Decodes (readTreeEntries es.length last acc) (es.flatMap encodeTreeEntry) t := by
  induction es with
  | nil => exact fun last acc _ _ _ => ⟨acc, by simp, pure acc⟩
  | cons p es ih =>
      intro last acc hsorted hlast hvalid
      obtain ⟨path, entry⟩ := p
      have hins : (acc.entries.insert path entry).entries = acc.entries.entries ++ [(path, entry)] :=
        SortedMap.entries_insert_of_lt fun q hq =>
          (List.pairwise_append.1 hsorted).2.2 q hq (path, entry) (by simp)
      obtain ⟨t, ht, hdec⟩ := ih (some path) ⟨acc.entries.insert path entry⟩
        (by rw [hins, List.append_assoc]; exact hsorted)
        (by
          intro prev hprev q hq
          cases hprev
          exact (List.pairwise_cons.1 (List.pairwise_append.1 hsorted).2.1).1 q hq)
        (fun q hq => hvalid q (List.mem_cons_of_mem _ hq))
      refine ⟨t, by rw [ht, hins, List.append_assoc]; rfl, ?_⟩
      obtain ⟨n, fields, b, hn, henc, hfields, hentry⟩ := entryBody entry
      rw [List.flatMap_cons, henc, List.append_assoc, List.append_assoc]
      have hasc : Decodes (Soal.checkAscending last path "tree entry keys not strictly sorted") [] () :=
        checkAscending fun prev hp => hlast prev hp (path, entry) (by simp)
      have hpath := ofRes (hvalid (path, entry) (by simp))
      refine turn.nil_bind ((readTstr path).bind (hasc.nil_bind (hpath.nil_bind ?_)))
      exact (readMapHeader hn).bind (hfields.bind ((ofRes hentry).nil_bind hdec))

theorem treeBody {tree : Tree} (hsize : tree.entries.size ≤ maxTreeEntries)
    (hvalid : ∀ p ∈ tree.entries.entries, validatePath p.1 = .ok ()) :
    Decodes readTreeBody (writeMapHeader 1 ++ (writeU64 1 ++ (writeMapHeader tree.entries.size ++
      tree.entries.entries.flatMap encodeTreeEntry))) tree := by
  obtain ⟨t, ht, hdec⟩ := treeEntries tree.entries.entries none Tree.new
    (by simpa [Tree.new] using tree.entries.sorted) (by simp) hvalid
  have htree : t = tree := Tree.ext (SortedMap.ext (by simpa [Tree.new] using ht))
  subst htree
  have hn : t.entries.size < usizeBound := lt_of_le_of_lt hsize (by decide)
  refine (readMapHeader (n := 1) (by decide)).bind ?_
  refine (readU64Value (v := 1) (by decide)).bind ((readMapHeader hn).bind ?_)
  rw [if_neg (by omega)]
  exact hdec

end Decodes

/-- **Tree round trip**: a tree of valid paths reads back from its wire form. -/
theorem decodeTreeWire_encodeTreeWire {tree : Tree} {w : Bytes} (h : encodeTreeWire tree = .ok w)
    (hvalid : ∀ p ∈ tree.entries.entries, validatePath p.1 = .ok ()) :
    isFramed domainTree w = true ∧ decodeTreeWire w = .ok tree := by
  obtain ⟨body, hbody, hw⟩ := bind_ok_iff.1 h
  obtain ⟨rfl, hlen⟩ := frame_ok_iff.1 hw
  unfold encodeTreeBody at hbody
  split at hbody
  next => cases hbody
  next hsize =>
    obtain ⟨rfl, hfit⟩ := vec_ok_iff.1 hbody
    refine ⟨isFramed_append domainTree_length, ?_⟩
    rw [decodeTreeWire, unframe_append domainTree_length]
    exact (Decodes.treeBody (by omega) hvalid).decodeAll hfit

/-! ## §4. Commits. -/

namespace Decodes

open Cursor

theorem commitField {acc acc' : CommitFields} {k : Nat} {b : Bytes}
    (hk : ∀ prev ∈ acc.lastK, prev < k) (hk' : k < usizeBound)
    (h : Decodes (readCommitValue { acc with lastK := some k } k) b acc') :
    Decodes (readCommitField acc) (writeU64 k ++ b) acc' :=
  (readU64Value hk').bind ((checkAscending hk).nil_bind h)

theorem commitStep {n : Nat} {acc acc' acc'' : CommitFields} {b b' : Bytes}
    (h : Decodes (readCommitField acc) b acc') (h' : Decodes (readCommitFields n acc') b' acc'') :
    Decodes (readCommitFields (n + 1) acc) (b ++ b') acc'' :=
  turn.nil_bind (h.bind h')

end Decodes

section

variable [Crates]

omit [Crates] in
theorem Commit.signatureBytes_length (c : Commit) : c.signatureBytes.length = 64 := by
  unfold Commit.signatureBytes
  split
  next =>
    split
    next => split <;> first | assumption | rfl
    next => rfl
  next => rfl

omit [Crates] in
theorem Commit.wireVersion_le (c : Commit) : c.wireVersion ≤ 0xffff := by
  unfold Commit.wireVersion
  split
  next => decide
  next => have := c.protocolVersion.toNat_lt; omega

/-- The fields that reading a commit's body collects. -/
def Commit.fields (c : Commit) : CommitFields where
  tree := some c.tree
  parents := some c.parents
  author := some (authorFromBytes (authorToBytes c.author))
  timestamp := some c.timestamp.toNat
  message := some c.message
  protocolVersion := some c.wireVersion
  signature := some c.signatureBytes
  lastK := some 7

/-- What a commit becomes when it is written and read: author and signature in hex, the version
explicit. -/
def Commit.normal (c : Commit) : Commit where
  tree := c.tree
  parents := c.parents
  author := (authorToBytes c.author).toHex
  timestamp := c.timestamp
  message := c.message
  protocolVersion := .ofNat c.wireVersion
  signature := some (String.ofList (Text.hexEncode c.signatureBytes))

@[simp] theorem Commit.normal_tree (c : Commit) : c.normal.tree = c.tree := rfl

@[simp] theorem Commit.normal_parents (c : Commit) : c.normal.parents = c.parents := rfl

theorem commitOfFields_fields (c : Commit) : commitOfFields c.fields = .ok c.normal := by
  simp [commitOfFields, Commit.fields, Commit.normal, require, authorFromBytes, Bind.bind,
    Except.bind, Pure.pure, Except.pure]

/-- The seven keys of a commit body read back in order. -/
theorem Decodes.commitBody {c : Commit} (hparents : c.parents.length ≤ maxCommitParents) :
    Decodes readCommitBody (writeMapHeader 7 ++
      encodeCommitFields c (writeU64 7 ++ writeBstr c.signatureBytes)) c.fields := by
  have hp : ¬c.parents.length > maxCommitParents := by omega
  have hv : ¬c.wireVersion > 0xffff := by have := c.wireVersion_le; omega
  have hs : ¬c.signatureBytes.length ≠ 64 := by simp [c.signatureBytes_length]
  refine (readMapHeader (n := 7) (by decide)).bind ?_
  -- one step per key: `f₁` … `f₇` are the fields after keys 1 … 7
  let f₁ : CommitFields := { CommitFields.none with tree := some c.tree, lastK := some 1 }
  let f₂ : CommitFields := { f₁ with parents := some c.parents, lastK := some 2 }
  let f₃ : CommitFields :=
    { f₂ with author := some (authorFromBytes (authorToBytes c.author)), lastK := some 3 }
  let f₄ : CommitFields := { f₃ with timestamp := some c.timestamp.toNat, lastK := some 4 }
  let f₅ : CommitFields := { f₄ with message := some c.message, lastK := some 5 }
  let f₆ : CommitFields := { f₅ with protocolVersion := some c.wireVersion, lastK := some 6 }
  have h₁ : Decodes (readCommitField .none) (writeU64 1 ++ writeBstr c.tree.bytes) f₁ :=
    commitField (by simp [CommitFields.none]) (by decide) ((readHash _ c.tree).bind_nil (pure _))
  have h₂ : Decodes (readCommitField f₁)
      (writeU64 2 ++ (writeArrayHeader c.parents.length ++ encodeHashes c.parents)) f₂ := by
    refine commitField (by simp [f₁]) (by decide) ?_
    refine (readArrayHeader (lt_of_le_of_lt hparents (by decide))).bind ?_
    rw [if_neg hp]
    have hcap : 34 * c.parents.length ≤ isizeMax :=
      le_trans (Nat.mul_le_mul_left 34 hparents) (by decide)
    exact (withCapacity hcap).nil_bind ((readHashes _ c.parents).bind_nil (pure _))
  have h₃ : Decodes (readCommitField f₂)
      (writeU64 3 ++ writeBstr (authorToBytes c.author).bytes) f₃ :=
    commitField (by simp [f₂]) (by decide) ((readHash _ _).bind_nil (pure _))
  have h₄ : Decodes (readCommitField f₃) (writeU64 4 ++ writeU64 c.timestamp.toNat) f₄ :=
    commitField (by simp [f₃]) (by decide) ((readU64Value (uint64_lt _)).bind_nil (pure _))
  have h₅ : Decodes (readCommitField f₄) (writeU64 5 ++ writeTstr c.message) f₅ :=
    commitField (by simp [f₄]) (by decide) ((readTstr _).bind_nil (pure _))
  have h₆ : Decodes (readCommitField f₅) (writeU64 6 ++ writeU64 c.wireVersion) f₆ := by
    refine commitField (by simp [f₅]) (by decide) ?_
    refine (readU64Value (lt_of_le_of_lt c.wireVersion_le (by decide))).bind_nil ?_
    rw [if_neg hv]
    exact pure _
  have h₇ : Decodes (readCommitField f₆) (writeU64 7 ++ writeBstr c.signatureBytes) c.fields := by
    refine commitField (by simp [f₆]) (by decide) ((readBstr _).bind_nil ?_)
    rw [if_neg hs]
    exact pure _
  have h := commitStep h₁ (commitStep h₂ (commitStep h₃ (commitStep h₄ (commitStep h₅
    (commitStep h₆ (commitStep (n := 0) h₇ (pure _)))))))
  show Decodes (readCommitFields 7 .none) _ _
  unfold encodeCommitFields
  simpa only [List.append_assoc, List.append_nil] using h

/-- Writing depends on the normal form only. -/
theorem authorToBytes_toHex (h : ContentHash) : authorToBytes h.toHex = h := by
  rw [authorToBytes, ContentHash.fromHex_toHex]

omit [Crates] in
/-- Hex digits of a signature are read back. -/
theorem Commit.signatureBytes_hex {c : Commit} {b : Bytes} (hlen : b.length = 64)
    (h : c.signature = some (String.ofList (Text.hexEncode b))) : c.signatureBytes = b := by
  have htrim : Text.trim (Text.hexEncode b) = Text.hexEncode b :=
    Text.trim_eq_self fun x hx => by
      obtain ⟨n, hn, rfl⟩ := Text.mem_hexEncode hx
      exact (Text.hexDigit_plain n hn).1
  unfold signatureBytes
  rw [h]
  dsimp only
  rw [String.toList_ofList, htrim, Text.hexDecode_hexEncode]
  exact if_pos hlen

theorem Commit.signatureBytes_normal (c : Commit) : c.normal.signatureBytes = c.signatureBytes :=
  signatureBytes_hex c.signatureBytes_length rfl

omit [Crates] in
/-- The version zero is never written. -/
theorem Commit.wireVersion_ne_zero (c : Commit) : c.wireVersion ≠ 0 := by
  unfold Commit.wireVersion
  split
  next => decide
  next h => exact fun h0 => h (UInt16.toNat_inj.1 (by simpa using h0))

theorem Commit.wireVersion_normal (c : Commit) : c.normal.wireVersion = c.wireVersion := by
  have hle := c.wireVersion_le
  have hpos := c.wireVersion_ne_zero
  have hn : (UInt16.ofNat c.wireVersion).toNat = c.wireVersion := by
    rw [UInt16.toNat_ofNat', Nat.mod_eq_of_lt (by omega)]
  have h0 : UInt16.ofNat c.wireVersion ≠ 0 := fun h => hpos (by rw [← hn, h]; rfl)
  show (if UInt16.ofNat c.wireVersion = 0 then _ else (UInt16.ofNat c.wireVersion).toNat) = _
  rw [if_neg h0, hn]

@[simp] theorem Commit.authorToBytes_normal (c : Commit) :
    authorToBytes c.normal.author = authorToBytes c.author := authorToBytes_toHex _

theorem encodeCommitFields_normal (c : Commit) (tail : Bytes) :
    encodeCommitFields c.normal tail = encodeCommitFields c tail := by
  unfold encodeCommitFields
  rw [c.wireVersion_normal, c.authorToBytes_normal]
  rfl

theorem encodeCommitWire_normal (c : Commit) : encodeCommitWire c.normal = encodeCommitWire c := by
  unfold encodeCommitWire encodeCommitBody
  rw [c.signatureBytes_normal, encodeCommitFields_normal]
  rfl

/-- **Commit round trip**: a commit reads back from its wire form as its normal form, which has the
same wire form. -/
theorem decodeCommitWire_encodeCommitWire {c : Commit} {w : Bytes}
    (h : encodeCommitWire c = .ok w) :
    isFramed domainCommit w = true ∧ decodeCommitWire w = .ok c.normal := by
  obtain ⟨body, hbody, hw⟩ := bind_ok_iff.1 h
  obtain ⟨rfl, hlen⟩ := frame_ok_iff.1 hw
  unfold encodeCommitBody at hbody
  split at hbody
  next => cases hbody
  next hp =>
    obtain ⟨rfl, hfit⟩ := vec_ok_iff.1 hbody
    refine ⟨isFramed_append domainCommit_length, ?_⟩
    rw [decodeCommitWire, unframe_append domainCommit_length]
    show decodeCommitBody _ = _
    rw [decodeCommitBody, (Decodes.commitBody (by omega)).decodeAll hfit]
    exact commitOfFields_fields c

end

end Soal

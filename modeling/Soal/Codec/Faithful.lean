/-
  Soal.Codec.Faithful — the wire forms say everything there is to say: writing succeeds for every
  value within the caps, reading gives the value (a commit: its normal form) back, and a content hash
  names one tree.

  A value is held in the memory of a 64-bit process.  Its footprint (the bytes of its texts and
  hashes) is then far below `2 ^ 62`, and its wire form fits a buffer.
-/
import Soal.Codec.RoundTrip
import Soal.Vault.Integrity
import Soal.SampleVault

namespace Soal

open FileProg (Bytes)

/-! ## §1. How long a wire form is. -/

theorem pushUint_length_le (major v : Nat) : (pushUint major v).length ≤ 9 := by
  unfold pushUint
  split_ifs <;> simp

theorem writeTstr_length_le (s : String) : (writeTstr s).length ≤ 9 + (Text.toUtf8 s).length := by
  have := pushUint_length_le 3 (Text.toUtf8 s).length
  rw [writeTstr, List.length_append]
  omega

theorem writeBstr_length_le (b : Bytes) : (writeBstr b).length ≤ 9 + b.length := by
  have := pushUint_length_le 2 b.length
  rw [writeBstr, List.length_append]
  omega

/-- Bytes an entry holds: its path and its hashes. -/
def entryFootprint : String × TreeEntry → Nat
  | (path, .file _ chunks) => (Text.toUtf8 path).length + 32 * chunks.length
  | (path, .dir _) => (Text.toUtf8 path).length + 32

/-- Bytes a tree holds. -/
def Tree.footprint (tree : Tree) : Nat := (tree.entries.entries.map entryFootprint).sum

theorem encodeTreeEntry_length_le (p : String × TreeEntry) :
    (encodeTreeEntry p).length ≤ 2 * entryFootprint p + 72 := by
  obtain ⟨path, entry⟩ := p
  have hpath := writeTstr_length_le path
  cases entry with
  | file size chunks =>
      have hsize := pushUint_length_le 0 size.toNat
      have hcount := pushUint_length_le 4 chunks.length
      have hm := pushUint_length_le 5 3
      have h₀ := pushUint_length_le 0 0
      have h₁ := pushUint_length_le 0 1
      have h₂ := pushUint_length_le 0 2
      have h₃ := pushUint_length_le 0 3
      simp only [encodeTreeEntry, List.length_append, Decodes.encodeHashes_length, writeMapHeader,
        writeU64, writeArrayHeader, entryFootprint]
      omega
  | dir hash =>
      have hm := pushUint_length_le 5 2
      have h₁ := pushUint_length_le 0 1
      have h₂ := pushUint_length_le 0 2
      have hhash := writeBstr_length_le hash.bytes
      rw [hash.length_eq] at hhash
      simp only [encodeTreeEntry, List.length_append, writeMapHeader, writeU64, entryFootprint]
      omega

theorem encodeTreeEntries_length_le (es : List (String × TreeEntry)) :
    (es.flatMap encodeTreeEntry).length ≤ 2 * (es.map entryFootprint).sum + 72 * es.length := by
  induction es with
  | nil => simp
  | cons p es ih =>
      have := encodeTreeEntry_length_le p
      simp only [List.flatMap_cons, List.length_append, List.map_cons, List.sum_cons,
        List.length_cons]
      omega

/-! ## §2. Trees. -/

/-- A tree the program may hold: every path is valid, the entries are within the cap, and it fits
in memory. -/
structure Tree.Held (tree : Tree) : Prop where
  valid : ∀ p ∈ tree.entries.entries, validatePath p.1 = .ok ()
  size : tree.entries.size ≤ maxTreeEntries
  memory : tree.footprint < 2 ^ 61

/-- Body and frame of a wire form that fits a buffer. -/
theorem encodeTreeWire_ok {tree : Tree} {body : Bytes} (hsize : tree.entries.size ≤ maxTreeEntries)
    (hbody : body = writeMapHeader 1 ++ (writeU64 1 ++ (writeMapHeader tree.entries.size ++
      tree.entries.entries.flatMap encodeTreeEntry)))
    (hlen : body.length + 16 ≤ isizeMax) : encodeTreeWire tree = .ok (domainTree ++ body) := by
  refine bind_ok_iff.2 ⟨body, ?_, frame_ok_iff.2 ⟨rfl, ?_⟩⟩
  · unfold encodeTreeBody
    rw [if_neg (Nat.not_lt.2 hsize)]
    exact vec_ok_iff.2 ⟨hbody, by rw [← hbody]; omega⟩
  · rw [List.length_append, domainTree_length]
    omega

/-- Writing a held tree succeeds. -/
theorem Tree.Held.encode {tree : Tree} (h : tree.Held) : ∃ w, encodeTreeWire tree = .ok w := by
  have hm := pushUint_length_le 5 1
  have hk := pushUint_length_le 0 1
  have hn := pushUint_length_le 5 tree.entries.size
  have hes := encodeTreeEntries_length_le tree.entries.entries
  have hsize : tree.entries.entries.length ≤ 1000000 := h.size
  have hmem : (tree.entries.entries.map entryFootprint).sum < 2 ^ 61 := h.memory
  refine ⟨_, encodeTreeWire_ok h.size rfl ?_⟩
  simp only [List.length_append, writeMapHeader, writeU64, isizeMax]
  omega

section

variable [Crates]

/-- **A held tree has a wire form, which reads back as the tree; no other held tree has that wire
form, nor its content hash unless BLAKE3 collides on the two wire forms.** -/
theorem treeWire_faithful {t₁ t₂ : Tree} (h₁ : t₁.Held) (h₂ : t₂.Held)
    (hfree : CollisionFree (fun w => encodeTreeWire t₁ = .ok w ∨ encodeTreeWire t₂ = .ok w)) :
    (∃ w, encodeTreeWire t₁ = .ok w ∧ decodeTreeWire w = .ok t₁) ∧
      (encodeTreeWire t₁ = encodeTreeWire t₂ → t₁ = t₂) ∧ (t₁.hash = t₂.hash → t₁ = t₂) := by
  obtain ⟨w₁, hw₁⟩ := h₁.encode
  obtain ⟨w₂, hw₂⟩ := h₂.encode
  have hd₁ := (decodeTreeWire_encodeTreeWire hw₁ h₁.valid).2
  have hd₂ := (decodeTreeWire_encodeTreeWire hw₂ h₂.valid).2
  have hinj : w₁ = w₂ → t₁ = t₂ := fun h => by
    rw [h, hd₂] at hd₁
    exact (Except.ok.inj hd₁).symm
  refine ⟨⟨w₁, hw₁, hd₁⟩, fun h => ?_, fun h => ?_⟩
  · rw [hw₁, hw₂] at h
    exact hinj (Except.ok.inj h)
  · rw [Tree.hash, Tree.hash, hw₁, hw₂] at h
    exact hinj (hfree w₁ w₂ (.inl hw₁) (.inr hw₂) (Except.ok.inj h))

end

section Accepts

open FileProg Cursor

/-- Whatever the reader returns satisfies `Q`. -/
def Yields {α : Type} (r : Reader α) (Q : α → Prop) : Prop :=
  ∀ c a c', run .bits64 r c = .ok (a, c') → Q a

namespace Yields

variable {α β : Type} {r : Reader α} {f : α → Reader β} {Q : β → Prop}

theorem pure {b : β} (h : Q b) : Yields (Pure.pure b) Q := by
  intro c b' c' hrun
  cases hrun
  exact h

theorem reject (e : SoalError) : Yields (Cursor.reject e) Q := by
  intro c b c' hrun
  cases hrun

/-- What comes after a reader has the say. -/
theorem bind (h : ∀ a, Yields (f a) Q) : Yields (r >>= f) Q := by
  intro c b c' hrun
  rw [run_bind] at hrun
  obtain ⟨⟨a, c₁⟩, -, hrun⟩ := bind_ok_iff.1 hrun
  exact h a c₁ b c' hrun

/-- Behind a computed result. -/
theorem ofRes {x : Res α} (h : ∀ a, x = .ok a → Yields (f a) Q) :
    Yields (Soal.ofRes x >>= f) Q := by
  intro c b c' hrun
  rw [run_bind] at hrun
  obtain ⟨⟨a, c₁⟩, hx, hrun⟩ := bind_ok_iff.1 hrun
  cases x with
  | error e => cases hx
  | ok a' =>
    cases hx
    exact h a rfl c b c' hrun

theorem decodeAll {r : Reader β} (h : Yields r Q) {data : Bytes} {b : β}
    (hdata : Cursor.decodeAll r data = .ok b) : Q b := by
  unfold Cursor.decodeAll at hdata
  cases hrun : run .bits64 r ⟨0, data⟩ with
  | error e =>
    rw [hrun] at hdata
    cases hdata
  | ok p =>
    rw [hrun] at hdata
    cases hdata
    exact h _ p.1 p.2 hrun

/-- The paths are validated one by one: the induction is on the number of entries left. -/
theorem readTreeEntries (n : Nat) : ∀ (last : Option String) (tree : Tree), tree.PathsValid →
    Yields (Soal.readTreeEntries n last tree) Tree.PathsValid := by
  induction n with
  | zero =>
    intro last tree hvalid
    exact pure hvalid
  | succ n ih =>
    intro last tree hvalid
    apply bind
    intro _
    apply bind
    intro path
    apply bind
    intro _
    apply ofRes
    intro _ hpath
    apply bind
    intro em
    apply bind
    intro fields
    apply ofRes
    intro entry _
    exact ih (some path) _ (hvalid.insert hpath)

theorem readTreeBody : Yields Soal.readTreeBody Tree.PathsValid := by
  apply bind
  intro n
  split
  next => exact reject _
  next =>
    apply bind
    intro key
    split
    next => exact reject _
    next =>
      apply bind
      intro nEntries
      split
      next => exact reject _
      next => exact readTreeEntries nEntries none Tree.new Tree.all_new

end Yields

/-- **A tree that was decoded from wire bytes has valid paths.** -/
theorem pathsValid_of_decodeTreeWire {w : Bytes} {t : Tree} (h : decodeTreeWire w = .ok t) :
    t.PathsValid := by
  obtain ⟨body, -, hbody⟩ := bind_ok_iff.1 h
  have hread : Yields (Soal.readTreeBody >>= fun tree => finish >>= fun _ => pure tree)
      Tree.PathsValid := by
    intro c t c' hrun
    rw [run_bind] at hrun
    obtain ⟨⟨tree, c₁⟩, htree, hrun⟩ := bind_ok_iff.1 hrun
    rw [run_bind] at hrun
    obtain ⟨⟨_, c₂⟩, -, hrun⟩ := bind_ok_iff.1 hrun
    cases hrun
    exact Yields.readTreeBody _ _ _ htree
  exact hread.decodeAll hbody

/-- The reader rejects the bytes, wherever they stand in a buffer. -/
def Refuses {α : Type} (r : Reader α) (b : Bytes) : Prop :=
  ∀ pos rest, pos + b.length + rest.length ≤ isizeMax →
    ∃ e, run .bits64 r ⟨pos, b ++ rest⟩ = .error e

namespace Refuses

variable {α β : Type} {r : Reader α} {f : α → Reader β} {b b' : Bytes} {a : α}

theorem bind (h : Refuses r b) : Refuses (r >>= f) (b ++ b') := by
  intro pos rest hlen
  rw [List.length_append] at hlen
  have hlen' : pos + b.length + (b' ++ rest).length ≤ isizeMax := by
    rw [List.length_append]
    omega
  obtain ⟨e, he⟩ := h pos (b' ++ rest) hlen'
  refine ⟨e, ?_⟩
  rw [run_bind, List.append_assoc, he]
  rfl

/-- Behind a reader that reads its bytes. -/
theorem behind (hr : Decodes r b a) (hf : Refuses (f a) b') : Refuses (r >>= f) (b ++ b') := by
  intro pos rest hlen
  rw [List.length_append] at hlen
  have hlen' : pos + b.length + (b' ++ rest).length ≤ isizeMax := by
    rw [List.length_append]
    omega
  obtain ⟨e, he⟩ := hf (pos + b.length) rest (by omega)
  refine ⟨e, ?_⟩
  rw [run_bind, List.append_assoc, hr pos (b' ++ rest) hlen', ok_bind, he]

/-- Behind a reader that consumes nothing. -/
theorem nil_behind (hr : Decodes r [] a) (hf : Refuses (f a) b) : Refuses (r >>= f) b := by
  have h := behind hr hf
  rwa [List.nil_append] at h

theorem ofRes {x : Res α} {e : Fault} (h : x = .error e) : Refuses (Soal.ofRes x) b := by
  intro pos rest _
  subst h
  exact ⟨e, rfl⟩

/-- An entry with an invalid path is not read: the induction is on the entries, up to the first one
of that kind. -/
theorem treeEntries (es : List (String × TreeEntry)) : ∀ (last : Option String) (acc : Tree),
    es.Pairwise (fun p q => p.1 < q.1) → (∀ prev ∈ last, ∀ p ∈ es, prev < p.1) →
    (∃ p ∈ es, validatePath p.1 ≠ .ok ()) →
    Refuses (readTreeEntries es.length last acc) (es.flatMap encodeTreeEntry) := by
  induction es with
  | nil =>
    rintro last acc - - ⟨p, hp, -⟩
    cases hp
  | cons p es ih =>
    intro last acc hsorted hlast hbad
    obtain ⟨path, entry⟩ := p
    obtain ⟨n, fields, bytes, hn, henc, hfields, hentry⟩ := Decodes.entryBody entry
    rw [List.flatMap_cons, henc, List.append_assoc, List.append_assoc]
    have hasc : Decodes (checkAscending last path "tree entry keys not strictly sorted") [] () :=
      Decodes.checkAscending fun prev hp => hlast prev hp (path, entry) (by simp)
    refine nil_behind Decodes.turn (behind (Decodes.readTstr path) (nil_behind hasc ?_))
    cases hpath : validatePath path with
    | error e =>
      have hstop : Refuses (Soal.ofRes (.error e : Res Unit)) [] := ofRes rfl
      exact hstop.bind
    | ok _ =>
      have hrest : ∃ p ∈ es, validatePath p.1 ≠ .ok () := by
        obtain ⟨p, hp, hbad⟩ := hbad
        rcases List.mem_cons.1 hp with rfl | hp
        · exact absurd hpath hbad
        · exact ⟨p, hp, hbad⟩
      have hlast' : ∀ prev ∈ some path, ∀ q ∈ es, prev < q.1 := by
        intro prev hprev q hq
        cases hprev
        exact (List.pairwise_cons.1 hsorted).1 q hq
      have hnext := ih (some path) ⟨acc.entries.insert path entry⟩ (List.pairwise_cons.1 hsorted).2
        hlast' hrest
      have hok : Decodes (Soal.ofRes (Except.ok () : Res Unit)) [] () := Decodes.ofRes rfl
      refine nil_behind hok (behind (Decodes.readMapHeader hn) (behind hfields ?_))
      exact nil_behind (Decodes.ofRes hentry) hnext

theorem treeBody {tree : Tree} (hsize : tree.entries.size ≤ maxTreeEntries)
    (hbad : ¬tree.PathsValid) :
    Refuses readTreeBody (writeMapHeader 1 ++ (writeU64 1 ++ (writeMapHeader tree.entries.size ++
      tree.entries.entries.flatMap encodeTreeEntry))) := by
  have hinvalid : ∃ p ∈ tree.entries.entries, validatePath p.1 ≠ .ok () := by
    by_contra hall
    push Not at hall
    exact hbad fun path entry hget => hall (path, entry) (SortedMap.mem_entries.2 hget)
  have hread := treeEntries tree.entries.entries none Tree.new tree.entries.sorted (by simp) hinvalid
  have hn : tree.entries.size < usizeBound := lt_of_le_of_lt hsize (by decide)
  refine behind (Decodes.readMapHeader (n := 1) (by decide)) ?_
  refine behind (Decodes.readU64Value (v := 1) (by decide)) (behind (Decodes.readMapHeader hn) ?_)
  rw [if_neg (by omega)]
  exact hread

theorem decodeAll {γ : Type} {g : α → Reader γ} (h : Refuses r b) (hlen : b.length ≤ isizeMax) :
    ∃ e, Cursor.decodeAll (r >>= g) b = .error e := by
  obtain ⟨e, he⟩ := h 0 [] (by simpa using hlen)
  rw [List.append_nil] at he
  refine ⟨e, ?_⟩
  unfold Cursor.decodeAll
  rw [run_bind, he]
  rfl

end Refuses

/-- **Reading back what was written**: a tree comes back as it was, and only with valid paths. -/
theorem decodeTreeWire_written_iff {tree t : Tree} {w : Bytes} (h : encodeTreeWire tree = .ok w) :
    decodeTreeWire w = .ok t ↔ tree.PathsValid ∧ t = tree := by
  by_cases hvalid : tree.PathsValid
  · rw [(decodeTreeWire_encodeTreeWire h hvalid.mem).2]
    constructor
    · intro ht
      exact ⟨hvalid, (Except.ok.inj ht).symm⟩
    · rintro ⟨-, rfl⟩
      rfl
  · constructor
    · intro ht
      obtain ⟨body, hbody, hw⟩ := bind_ok_iff.1 h
      obtain ⟨rfl, -⟩ := frame_ok_iff.1 hw
      unfold encodeTreeBody at hbody
      split at hbody
      next => cases hbody
      next hsize =>
        obtain ⟨rfl, hfit⟩ := vec_ok_iff.1 hbody
        rw [decodeTreeWire, unframe_append domainTree_length] at ht
        obtain ⟨e, he⟩ := (Refuses.treeBody (by omega) hvalid).decodeAll
          (g := fun tree => finish >>= fun _ => pure tree) hfit
        cases he.symm.trans ht
    · intro ht
      exact absurd ht.1 hvalid

end Accepts

/-- **Loading what was written**: a tree file in wire form loads as the tree written, and only with
valid paths. -/
theorem loadTree_written [Crates] {fs : VaultFs} {tree t : Tree} {h : ContentHash} {bytes : Bytes}
    (hb : encodeTreeWire tree = .ok bytes) (hl : fs.lookup (treePathBin h) = some bytes)
    (ht : FileProg.ReadM.eval fs (loadTree h) = .ok t) : tree.PathsValid ∧ t = tree := by
  have hparse := (treeKind.eval_load_bin hl).symm.trans ht
  obtain ⟨-, hparse, -⟩ := treeKind.parseBin_ok_iff.1 hparse
  have hparse : Tree.fromWireOrJson bytes = .ok t := hparse
  rw [Tree.fromWireOrJson, if_pos (encodeTreeWire_framed hb)] at hparse
  exact (decodeTreeWire_written_iff hb).1 hparse

theorem noteTree_held : noteTree.Held where
  valid p hp := by
    obtain rfl : p = ("n.txt", .file 5 [chunkHello]) := List.mem_singleton.1 hp
    decide
  size := by decide
  memory := by decide

theorem worldTree_held : worldTree.Held where
  valid p hp := by
    obtain rfl : p = ("n.txt", .file 5 [chunkWorld]) := List.mem_singleton.1 hp
    decide
  size := by decide
  memory := by decide

/-- Two trees that differ in one chunk have different wire forms and content hashes. -/
theorem noteTree_ne_world :
    (∃ w, encodeTreeWire noteTree = .ok w ∧ decodeTreeWire w = .ok noteTree) ∧
      (encodeTreeWire noteTree = encodeTreeWire worldTree → noteTree = worldTree) ∧
      (@Tree.hash (standIn (tableDigest [(wireNote, treeNote), (wireWorld, treeWorld)])) noteTree =
        @Tree.hash (standIn (tableDigest [(wireNote, treeNote), (wireWorld, treeWorld)])) worldTree →
          noteTree = worldTree) := by
  refine @treeWire_faithful (standIn (tableDigest [(wireNote, treeNote), (wireWorld, treeWorld)])) _ _
    noteTree_held worldTree_held ?_
  have hdigest : tableDigest [(wireNote, treeNote), (wireWorld, treeWorld)] wireNote ≠
      tableDigest [(wireNote, treeNote), (wireWorld, treeWorld)] wireWorld := by decide
  rintro a b (ha | ha) (hb | hb) hab
  · exact Except.ok.inj (ha.symm.trans hb)
  · obtain rfl := Except.ok.inj (encodeTreeWire_note.symm.trans ha)
    obtain rfl := Except.ok.inj (encodeTreeWire_world.symm.trans hb)
    exact absurd hab hdigest
  · obtain rfl := Except.ok.inj (encodeTreeWire_world.symm.trans ha)
    obtain rfl := Except.ok.inj (encodeTreeWire_note.symm.trans hb)
    exact absurd hab.symm hdigest
  · exact Except.ok.inj (ha.symm.trans hb)

/-! ## §3. Commits. -/

section

variable [Crates]

theorem Commit.normal_timestamp (c : Commit) : c.normal.timestamp = c.timestamp := rfl

theorem Commit.normal_message (c : Commit) : c.normal.message = c.message := rfl

theorem commitSignMessage_normal (c : Commit) : commitSignMessage c.normal = commitSignMessage c := by
  unfold commitSignMessage encodeCommitSignBody
  rw [encodeCommitFields_normal]
  rfl

theorem verifyCommitSignature_normal (c : Commit) :
    verifyCommitSignature c.normal = verifyCommitSignature c := by
  unfold verifyCommitSignature
  simp only [c.signatureBytes_normal, commitSignMessage_normal, c.authorToBytes_normal]

theorem Commit.hash_normal (c : Commit) : c.normal.hash = c.hash := by
  rw [Commit.hash, Commit.hash, encodeCommitWire_normal]

/-- Body and frame of a wire form that fits a buffer. -/
theorem encodeCommitWire_eq {c : Commit} {body : Bytes} (hp : c.parents.length ≤ maxCommitParents)
    (hbody : body = writeMapHeader 7 ++
      encodeCommitFields c (writeU64 7 ++ writeBstr c.signatureBytes))
    (hlen : body.length + 16 ≤ isizeMax) : encodeCommitWire c = .ok (domainCommit ++ body) := by
  refine bind_ok_iff.2 ⟨body, ?_, frame_ok_iff.2 ⟨rfl, ?_⟩⟩
  · unfold encodeCommitBody
    rw [if_neg (Nat.not_lt.2 hp)]
    exact vec_ok_iff.2 ⟨hbody, by rw [← hbody]; omega⟩
  · rw [List.length_append, domainCommit_length]
    omega

theorem encodeCommitFields_length_le (c : Commit) (tail : Bytes) :
    (encodeCommitFields c tail).length ≤
      34 * c.parents.length + (Text.toUtf8 c.message).length + tail.length + 200 := by
  have hint := pushUint_length_le 0
  have h₁ := hint 1
  have h₂ := hint 2
  have h₃ := hint 3
  have h₄ := hint 4
  have h₅ := hint 5
  have h₆ := hint 6
  have ht := hint c.timestamp.toNat
  have hv := hint c.wireVersion
  have hcount := pushUint_length_le 4 c.parents.length
  have htree := writeBstr_length_le c.tree.bytes
  have hauthor := writeBstr_length_le (authorToBytes c.author).bytes
  have hmsg := writeTstr_length_le c.message
  rw [c.tree.length_eq] at htree
  rw [(authorToBytes c.author).length_eq] at hauthor
  simp only [encodeCommitFields, List.length_append, writeU64, writeArrayHeader,
    Decodes.encodeHashes_length]
  omega

/-- Writing a commit within the parents cap succeeds. -/
theorem encodeCommitWire_ok {c : Commit} (hp : c.parents.length ≤ maxCommitParents)
    (hm : (Text.toUtf8 c.message).length < 2 ^ 62) : ∃ w, encodeCommitWire c = .ok w := by
  have hcap : c.parents.length ≤ 16 := hp
  have hmap := pushUint_length_le 5 7
  have hkey := pushUint_length_le 0 7
  have hsig := writeBstr_length_le c.signatureBytes
  rw [c.signatureBytes_length] at hsig
  have hfields := encodeCommitFields_length_le c (writeU64 7 ++ writeBstr c.signatureBytes)
  rw [List.length_append] at hfields
  have hkey' : (writeU64 7).length ≤ 9 := hkey
  refine ⟨_, encodeCommitWire_eq hp rfl ?_⟩
  rw [List.length_append, writeMapHeader]
  unfold isizeMax
  omega

/-- **Every commit within the parents cap has a wire form; it reads back with the same tree, parents,
time and message, and with the same author bytes, signature bytes and version, so content hash, sign
preimage, the verdict on the signature and the wire form itself stay.** -/
theorem commitWire_stable {c : Commit} (hp : c.parents.length ≤ maxCommitParents)
    (hm : (Text.toUtf8 c.message).length < 2 ^ 62) :
    ∃ w c', encodeCommitWire c = .ok w ∧ decodeCommitWire w = .ok c' ∧
      c'.tree = c.tree ∧ c'.parents = c.parents ∧ c'.timestamp = c.timestamp ∧
      c'.message = c.message ∧ authorToBytes c'.author = authorToBytes c.author ∧
      c'.signatureBytes = c.signatureBytes ∧ c'.wireVersion = c.wireVersion ∧
      c'.hash = c.hash ∧ commitSignMessage c' = commitSignMessage c ∧
      verifyCommitSignature c' = verifyCommitSignature c ∧ encodeCommitWire c' = .ok w := by
  obtain ⟨w, hw⟩ := encodeCommitWire_ok hp hm
  have hd : decodeCommitWire w = .ok c.normal := (decodeCommitWire_encodeCommitWire hw).2
  have he : encodeCommitWire c.normal = .ok w := by rw [encodeCommitWire_normal, hw]
  refine ⟨w, c.normal, hw, hd, c.normal_tree, c.normal_parents, c.normal_timestamp,
    c.normal_message, c.authorToBytes_normal, c.signatureBytes_normal, c.wireVersion_normal, ?_⟩
  exact ⟨c.hash_normal, commitSignMessage_normal c, verifyCommitSignature_normal c, he⟩

end

/-- The merge commit, whose author is not a key, keeps its identity through the wire. -/
theorem commitM_stable : ∃ w c', @encodeCommitWire sample commitM = .ok w ∧
    decodeCommitWire w = .ok c' ∧ c'.tree = treeE ∧ c'.parents = [hashA, hashB] ∧
    @Commit.hash sample c' = @Commit.hash sample commitM ∧ @encodeCommitWire sample c' = .ok w := by
  have hp : commitM.parents.length ≤ maxCommitParents := by decide
  have hm : (Text.toUtf8 commitM.message).length < 2 ^ 62 := by decide
  obtain ⟨w, c', hw, hd, htree, hparents, _, _, _, _, _, hhash, _, _, he⟩ :=
    @commitWire_stable sample commitM hp hm
  exact ⟨w, c', hw, hd, htree, hparents, hhash, he⟩

end Soal

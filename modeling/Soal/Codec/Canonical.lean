/-
  Soal.Codec.Canonical — what a decoder accepts, written again.

  On an input in preferred encoding a decoder gives an object whose encoding is the input, but for
  one gap each: an entry map may carry a list of chunks beside a directory's hash, the version of a
  commit may be written as zero, and the name in an announcement may be longer than the encoder allows.
-/
import Soal.Codec.Preferred
import Soal.SampleVault

namespace Soal

open FileProg Cursor

/-! ## §1. Items of hashes and entries. -/

def hashData (hs : List ContentHash) : List Datum := hs.map fun h => .bstr h.bytes

theorem written_hashData (hs : List ContentHash) : written (hashData hs) = encodeHashes hs := by
  induction hs with
  | nil => rfl
  | cons h hs ih => exact congrArg (writeBstr h.bytes ++ ·) ih

theorem hashData_length_le (hs : List ContentHash) : hs.length ≤ (encodeHashes hs).length := by
  rw [Decodes.encodeHashes_length]
  omega

/-- The items of an entry. -/
def entryData : String × TreeEntry → List Datum
  | (path, .file size chunks) =>
      .tstr path :: .map 3 :: .uint 1 :: .uint 0 :: .uint 2 :: .uint size :: .uint 3 ::
        .array (.ofNat chunks.length) :: hashData chunks
  | (path, .dir hash) =>
      [.tstr path, .map 2, .uint 1, .uint 1, .uint 2, .bstr hash.bytes]

/-- The items of a tree. -/
def treeData (tree : Tree) : List Datum :=
  .map 1 :: .uint 1 :: .map (.ofNat tree.entries.size) :: tree.entries.entries.flatMap entryData

/-- A count that fits the argument of a head. -/
theorem toNat_ofNat_of_le {n : Nat} (h : n ≤ isizeMax) : (UInt64.ofNat n).toNat = n := by
  have hn : n < usizeBound := Decodes.lt_usizeBound h
  rw [UInt64.toNat_ofNat']
  exact Nat.mod_eq_of_lt hn

/-- The number of chunks an entry lists. -/
def chunkCount : String × TreeEntry → Nat
  | (_, .file _ chunks) => chunks.length
  | (_, .dir _) => 0

theorem written_entryData {p : String × TreeEntry} (h : chunkCount p ≤ isizeMax) :
    written (entryData p) = encodeTreeEntry p := by
  obtain ⟨path, entry⟩ := p
  cases entry with
  | file size chunks =>
    have hcount : (UInt64.ofNat chunks.length).toNat = chunks.length := toNat_ofNat_of_le h
    simp only [entryData, written_cons, written_hashData, Datum.bytes, hcount]
    rfl
  | dir hash =>
    simp only [entryData, written_cons, written_nil, Datum.bytes, List.append_nil]
    rfl

theorem chunkCount_le_encoded (p : String × TreeEntry) :
    chunkCount p ≤ (encodeTreeEntry p).length := by
  obtain ⟨path, entry⟩ := p
  cases entry with
  | file size chunks =>
    have := hashData_length_le chunks
    simp only [encodeTreeEntry, List.length_append, chunkCount]
    omega
  | dir hash => exact Nat.zero_le _

theorem chunkCount_le_written (p : String × TreeEntry) :
    chunkCount p ≤ (written (entryData p)).length := by
  obtain ⟨path, entry⟩ := p
  cases entry with
  | file size chunks =>
    have := hashData_length_le chunks
    simp only [entryData, written_cons, written_hashData, List.length_append, chunkCount]
    omega
  | dir hash => exact Nat.zero_le _

theorem written_entries {es : List (String × TreeEntry)} (h : ∀ p ∈ es, chunkCount p ≤ isizeMax) :
    written (es.flatMap entryData) = es.flatMap encodeTreeEntry := by
  induction es with
  | nil => rfl
  | cons p es ih =>
    rw [List.flatMap_cons, List.flatMap_cons, written_append,
      written_entryData (h p List.mem_cons_self), ih fun q hq => h q (List.mem_cons_of_mem _ hq)]

/-- The bytes the encoder writes for a tree. -/
def treeBytes (tree : Tree) : Bytes :=
  writeMapHeader 1 ++ (writeU64 1 ++ (writeMapHeader tree.entries.size ++
    tree.entries.entries.flatMap encodeTreeEntry))

theorem encodeTreeBody_ok_iff {tree : Tree} {b : Bytes} : encodeTreeBody tree = .ok b ↔
    tree.entries.size ≤ maxTreeEntries ∧ b = treeBytes tree ∧ (treeBytes tree).length ≤ isizeMax := by
  unfold encodeTreeBody
  split
  next h =>
    constructor
    · intro h'
      cases h'
    · rintro ⟨h', -⟩
      omega
  next h => exact ⟨fun hv => ⟨by omega, vec_ok_iff.1 hv⟩, fun hv => vec_ok_iff.2 hv.2⟩

/-- A list is no longer than the strings of its members together. -/
theorem length_le_flatMap {α : Type} {f : α → Bytes} {a : α} {l : List α} (h : a ∈ l) :
    (f a).length ≤ (l.flatMap f).length := by
  obtain ⟨l₁, l₂, rfl⟩ := List.append_of_mem h
  simp only [List.flatMap_append, List.flatMap_cons, List.length_append]
  omega

theorem written_treeData {tree : Tree} (hsize : tree.entries.size ≤ maxTreeEntries)
    (h : ∀ p ∈ tree.entries.entries, chunkCount p ≤ isizeMax) :
    written (treeData tree) = treeBytes tree := by
  have hcount : (UInt64.ofNat tree.entries.size).toNat = tree.entries.size :=
    toNat_ofNat_of_le (le_trans hsize (by decide))
  simp only [treeData, written_cons, written_entries h, Datum.bytes, hcount]
  rfl

/-! ## §2. Trees. -/

/-- The head of a directory's map with a third key. -/
def laxDir : List Datum := [.map 3, .uint 1, .uint 1]

/-- Fields of an entry map. -/
def entrySlots : Slots EntryFields where
  last := EntryFields.lastK
  slot acc
    | 1 => acc.entryType.elim [] fun v => [.uint 1, .uint (.ofNat v)]
    | 2 => (acc.size.elim [] fun v => [.uint 2, .uint (.ofNat v)]) ++
        acc.dirHash.elim [] fun h => [.uint 2, .bstr h.bytes]
    | 3 => acc.chunks.elim [] fun hs => .uint 3 :: .array (.ofNat hs.length) :: hashData hs
    | _ => []

/-- Key 2 holds a hash for directories only, a size for the others only. -/
def Sorted2 (acc : EntryFields) : Prop :=
  (∀ h ∈ acc.dirHash, acc.entryType = some 1) ∧ (∀ v ∈ acc.size, acc.entryType ≠ some 1)

namespace Follows

theorem readEntryField {acc : EntryFields} (ht : entrySlots.Tidy acc) (hI : Sorted2 acc) :
    Follows (Soal.readEntryField acc) fun ds acc' =>
      (∃ k, entrySlots.Grows 3 acc ds acc' k) ∧ Sorted2 acc' := by
  -- the key, above the one before, then the value of its field
  refine readU64Value.bind ?_
  rintro _ _ ⟨u, rfl, rfl⟩
  refine (checkAscending _ _ _).bind ?_
  rintro _ _ ⟨rfl, habove⟩
  have hslot := ht _ habove
  unfold readEntryValue
  split_ifs with h₁ h₂ htype h₃
  · -- the type comes before whatever it decides
    obtain rfl : u = 1 := UInt64.toNat_inj.1 h₁
    obtain ⟨hsize, hdir⟩ := List.append_eq_nil_iff.1
      (ht 2 fun prev hprev => lt_trans (habove prev hprev) (by decide))
    refine readU64Value.field [] habove (by decide) (fun _ => rfl) ?_ ?_ ?_
    · rintro _ _ ⟨v, rfl, rfl⟩
      simp [entrySlots]
    · rintro v (_ | _ | _ | _ | j) hj <;> first | rfl | exact absurd rfl hj
    · rintro _ _ -
      refine ⟨fun h hh => ?_, fun v hv => ?_⟩
      · rw [Option.mem_def.1 hh] at hdir
        cases hdir
      · rw [Option.mem_def.1 hv] at hsize
        cases hsize
  · -- the second field of a directory is its hash, of a file its size: they share the slot
    obtain rfl : u = 2 := UInt64.toNat_inj.1 h₂
    refine (readHash _).field [] habove (by decide) (fun _ => rfl) ?_ ?_ ?_
    · rintro _ h rfl
      have hsize := (List.append_eq_nil_iff.1 hslot).1
      show (acc.size.elim [] _) ++ _ = _
      rw [hsize]
      rfl
    · rintro v (_ | _ | _ | _ | j) hj <;> first | rfl | exact absurd rfl hj
    · rintro _ h -
      exact ⟨fun _ _ => htype, hI.2⟩
  · obtain rfl : u = 2 := UInt64.toNat_inj.1 h₂
    refine readU64Value.field [] habove (by decide) (fun _ => rfl) ?_ ?_ ?_
    · rintro _ _ ⟨v, rfl, rfl⟩
      have hdir := (List.append_eq_nil_iff.1 hslot).2
      show _ ++ (acc.dirHash.elim [] _) = _
      rw [hdir]
      simp
    · rintro v (_ | _ | _ | _ | j) hj <;> first | rfl | exact absurd rfl hj
    · rintro _ v -
      exact ⟨hI.1, fun _ _ => htype⟩
  · obtain rfl : u = 3 := UInt64.toNat_inj.1 h₃
    refine readArrayHeader.bind ?_
    rintro _ _ ⟨v, rfl, rfl⟩
    refine after (withCapacity _) ((readHashes _ _).field [.array v] habove (by decide)
      (fun _ => rfl) ?_ ?_ ?_)
    · rintro _ hs ⟨rfl, hlen⟩
      show .uint 3 :: .array (.ofNat hs.length) :: hashData hs = _
      rw [hlen, UInt64.ofNat_toNat]
      rfl
    · rintro v (_ | _ | _ | _ | j) hj <;> first | rfl | exact absurd rfl hj
    · rintro _ hs -
      exact hI
  · exact reject _

end Follows

/-- The fields of an entry are its items, or those of a directory with a list of chunks. -/
theorem entryData_of_fields {acc : EntryFields} {entry : TreeEntry} {n : UInt64} (path : String)
    (hI : Sorted2 acc) (hheld : entrySlots.held acc 3 = n.toNat)
    (hentry : entryOfFields acc = .ok entry) :
    .tstr path :: .map n :: entrySlots.row acc 3 = entryData (path, entry) ∨
      laxDir <:+: .tstr path :: .map n :: entrySlots.row acc 3 := by
  obtain ⟨type, size, chunks, dirHash, last⟩ := acc
  unfold entryOfFields at hentry
  split at hentry
  next htype =>
    obtain rfl : type = some 0 := htype
    -- a file cannot hold the hash of a directory
    have hdir : dirHash = none := by
      cases dirHash with
      | none => rfl
      | some h => cases hI.1 h rfl
    subst hdir
    split at hentry
    next => cases hentry
    next => cases hentry
    next v hs hsize hchunks =>
      cases hentry
      obtain rfl : size = some v := hsize
      obtain rfl : chunks = some hs := hchunks
      obtain rfl : n = 3 := UInt64.toNat_inj.1 hheld.symm
      exact .inl rfl
  next htype =>
    obtain rfl : type = some 1 := htype
    -- nor a directory a size; but a list of chunks is read and dropped
    have hsize : size = none := by
      cases size with
      | none => rfl
      | some v => exact absurd rfl (hI.2 v rfl)
    subst hsize
    split at hentry
    next => cases hentry
    next h hdir =>
      cases hentry
      obtain rfl : dirHash = some h := hdir
      cases chunks with
      | none =>
        obtain rfl : n = 2 := UInt64.toNat_inj.1 hheld.symm
        exact .inl rfl
      | some hs =>
        obtain rfl : n = 3 := UInt64.toNat_inj.1 hheld.symm
        exact .inr ⟨[.tstr path], .uint 2 :: .bstr h.bytes :: .uint 3 ::
          .array (.ofNat hs.length) :: hashData hs, rfl⟩
  next => cases hentry

theorem lax_append {l l₁ l₂ : List Datum} (h : l <:+: l₁ ∨ l <:+: l₂) : l <:+: l₁ ++ l₂ := by
  rcases h with h | h
  · exact h.trans (List.prefix_append _ _).isInfix
  · exact h.trans (List.suffix_append _ _).isInfix

/-- The entries are read in order behind those read so far: the induction is on their number, and
the keys stay ascending. -/
theorem Follows.readTreeEntries (n : Nat) : ∀ (last : Option String) (tree : Tree),
    (∀ path, (∀ prev ∈ last, prev < path) → ∀ p ∈ tree.entries.entries, p.1 < path) →
    Follows (Soal.readTreeEntries n last tree) fun ds t => ∃ es, es.length = n ∧
      t.entries.entries = tree.entries.entries ++ es ∧
      (ds = es.flatMap entryData ∨ laxDir <:+: ds) := by
  induction n with
  | zero => exact fun last tree _ => pure ⟨[], rfl, (List.append_nil _).symm, .inl rfl⟩
  | succ n ih =>
    intro last tree hlast
    refine after turn (readTstr.bind ?_)
    rintro _ path rfl
    -- path, check of the order, check of the path, fields, entry
    refine (checkAscending _ _ _).bind ?_
    rintro _ _ ⟨rfl, habove⟩
    refine (ofRes (P := fun ds _ => ds = []) fun _ _ => rfl).bind ?_
    rintro _ _ rfl
    refine readMapHeader.bind ?_
    rintro _ _ ⟨u, rfl, rfl⟩
    have hnone : entrySlots.Tidy .none := by
      rintro (_ | _ | _ | _ | k) _ <;> rfl
    have hsorted : Sorted2 .none := ⟨by simp [EntryFields.none], by simp [EntryFields.none]⟩
    refine (Follows.fields (fun _ => rfl) (fun _ _ => rfl)
      (fun acc ht hI => readEntryField ht hI) u.toNat .none hnone hsorted).bind ?_
    rintro fields acc ⟨hrow, hheld, hI⟩
    refine (ofRes (P := fun ds entry => ds = [] ∧ entryOfFields acc = .ok entry)
      fun entry h => ⟨rfl, h⟩).bind ?_
    rintro _ entry ⟨rfl, hentry⟩
    -- an ascending key is inserted at the end
    have hins : (tree.entries.insert path entry).entries = tree.entries.entries ++ [(path, entry)] :=
      SortedMap.entries_insert_of_lt (hlast path habove)
    have hrow : entrySlots.row acc 3 = fields := hrow
    have hheld : entrySlots.held acc 3 = u.toNat := hheld.trans (Nat.zero_add _)
    have hfields := entryData_of_fields path hI hheld hentry
    refine (ih (some path) ⟨tree.entries.insert path entry⟩ ?_).imp ?_
    · intro path' habove' p hp
      have hpath : path < path' := habove' path rfl
      rw [hins] at hp
      rcases List.mem_append.1 hp with hp | hp
      · exact lt_trans (hlast path habove p hp) hpath
      · obtain rfl := List.mem_singleton.1 hp
        exact hpath
    · rintro ds t ⟨es, rfl, hes, hds⟩
      rw [hins, List.append_assoc] at hes
      refine ⟨(path, entry) :: es, rfl, hes, ?_⟩
      rw [hrow] at hfields
      show .tstr path :: .map u :: (fields ++ ds) = _ ∨ laxDir <:+: (.tstr path :: .map u :: fields) ++ ds
      rcases hfields with hfields | hlax
      · rcases hds with rfl | hlax
        · left
          rw [List.flatMap_cons, ← hfields]
          rfl
        · exact .inr (lax_append (.inr hlax))
      · exact .inr (lax_append (.inl hlax))

theorem Follows.readTreeBody : Follows Soal.readTreeBody fun ds t =>
    t.entries.size ≤ maxTreeEntries ∧ (ds = treeData t ∨ laxDir <:+: ds) := by
  refine readMapHeader.bind ?_
  rintro _ _ ⟨u, rfl, rfl⟩
  split_ifs with hone
  · exact reject _
  obtain rfl : u = 1 := UInt64.toNat_inj.1 (not_not.1 hone)
  refine readU64Value.bind ?_
  rintro _ _ ⟨u, rfl, rfl⟩
  split_ifs with hkey
  · exact reject _
  obtain rfl : u = 1 := UInt64.toNat_inj.1 (not_not.1 hkey)
  refine readMapHeader.bind ?_
  rintro _ _ ⟨u, rfl, rfl⟩
  split_ifs with hcap
  · exact reject _
  refine (readTreeEntries u.toNat none Tree.new fun _ _ p hp => by cases hp).imp ?_
  rintro ds t ⟨es, hn, hes, hds⟩
  have hsize : t.entries.size = u.toNat := by rw [← hn, SortedMap.size, hes]; rfl
  have hes : t.entries.entries = es := hes
  refine ⟨by omega, ?_⟩
  rcases hds with rfl | hlax
  · left
    rw [treeData, hsize, hes, UInt64.ofNat_toNat]
    rfl
  · exact .inr (hlax.trans (List.suffix_append [.map 1, .uint 1, .map u] ds).isInfix)

/-- Nothing starts a map among byte strings. -/
theorem lax_hashData (hs : List ContentHash) {ds : List Datum} (h : laxDir <:+: hashData hs ++ ds) :
    laxDir <:+: ds := by
  induction hs with
  | nil => exact h
  | cons x hs ih =>
    rcases List.infix_cons_iff.1 h with h | h
    · cases (List.cons_prefix_cons.1 h).1
    · exact ih h

/-- What the encoder writes has no such map. -/
theorem not_lax_entries (es : List (String × TreeEntry)) : ¬laxDir <:+: es.flatMap entryData := by
  induction es with
  | nil => simp [laxDir]
  | cons p es ih =>
    obtain ⟨path, entry⟩ := p
    intro h
    cases entry with
    | file size chunks =>
      refine ih (lax_hashData chunks ?_)
      simpa [entryData, laxDir, List.infix_cons_iff] using h
    | dir hash =>
      refine ih ?_
      simpa [entryData, laxDir, List.infix_cons_iff] using h

theorem not_lax_treeData (tree : Tree) : ¬laxDir <:+: treeData tree := by
  intro h
  rcases (List.infix_cons_iff.1 h) with h | h
  · simp [laxDir] at h
  rcases (List.infix_cons_iff.1 h) with h | h
  · simp [laxDir] at h
  rcases (List.infix_cons_iff.1 h) with h | h
  · -- a path follows the header of the entries
    have hnext := (List.cons_prefix_cons.1 h).2
    cases hes : tree.entries.entries with
    | nil =>
      rw [hes] at hnext
      simp at hnext
    | cons p es =>
      obtain ⟨path, entry⟩ := p
      rw [hes] at hnext
      cases entry <;> simp [entryData] at hnext
  · exact not_lax_entries tree.entries.entries h

/-- Lists of chunks that fit a buffer have lengths that fit the argument of a head. -/
theorem chunkCount_le_of_fits {tree : Tree} (hlen : (treeBytes tree).length ≤ isizeMax) :
    ∀ p ∈ tree.entries.entries, chunkCount p ≤ isizeMax := by
  intro p hp
  have hp' := length_le_flatMap (f := encodeTreeEntry) hp
  have hcount := chunkCount_le_encoded p
  unfold treeBytes at hlen
  simp only [List.length_append] at hlen
  omega

/-- A tree body is what the encoder writes exactly when it is in preferred encoding and no directory
carries a list of chunks. -/
theorem tree_canonical_iff {b : Bytes} {tree : Tree} (h : decodeTreeBody b = .ok tree) :
    encodeTreeBody tree = .ok b ↔
      b.length ≤ isizeMax ∧ ∃ ds, b = written ds ∧ ¬laxDir <:+: ds := by
  rw [encodeTreeBody_ok_iff]
  constructor
  · rintro ⟨hsize, rfl, hlen⟩
    have hchunks := chunkCount_le_of_fits hlen
    exact ⟨hlen, treeData tree, (written_treeData hsize hchunks).symm, not_lax_treeData tree⟩
  · rintro ⟨hlen, ds, rfl, hlax⟩
    obtain ⟨hsize, hds⟩ := Follows.readTreeBody.decodeAll hlen h
    obtain rfl := hds.resolve_right hlax
    have hwritten : written (treeData tree) = treeBytes tree := by
      refine written_treeData hsize fun p hp => ?_
      have hp' := length_le_flatMap (f := fun p => written (entryData p)) hp
      have hcount := chunkCount_le_written p
      have hsame : written (tree.entries.entries.flatMap entryData) =
          tree.entries.entries.flatMap fun p => written (entryData p) := List.flatMap_assoc
      simp only [treeData, written_cons, hsame, List.length_append] at hlen
      omega
    exact ⟨hsize, hwritten, by rwa [← hwritten]⟩

theorem require_ok {α : Type} {o : Option α} {complaint : String} {a : α}
    (h : require o complaint = .ok a) : o = some a := by
  unfold require at h
  split at h
  next => exact congrArg some (Except.ok.inj h)
  next => cases h

/-! ## §3. Commits. -/

/-- The version zero of a commit, which is written as one. -/
def zeroVersion : List Datum := [.uint 6, .uint 0, .uint 7]

/-- Fields of a commit map.  The author was read as a hash. -/
def commitSlots [Crates] : Slots CommitFields where
  last := CommitFields.lastK
  slot acc
    | 1 => acc.tree.elim [] fun h => [.uint 1, .bstr h.bytes]
    | 2 => acc.parents.elim [] fun hs => .uint 2 :: .array (.ofNat hs.length) :: hashData hs
    | 3 => acc.author.elim [] fun a => [.uint 3, .bstr (authorToBytes a).bytes]
    | 4 => acc.timestamp.elim [] fun v => [.uint 4, .uint (.ofNat v)]
    | 5 => acc.message.elim [] fun s => [.uint 5, .tstr s]
    | 6 => acc.protocolVersion.elim [] fun v => [.uint 6, .uint (.ofNat v)]
    | 7 => acc.signature.elim [] fun b => [.uint 7, .bstr b]
    | _ => []

/-- What the values of a commit map were checked for. -/
structure Checked (acc : CommitFields) : Prop where
  parents : ∀ hs ∈ acc.parents, hs.length ≤ maxCommitParents
  protocolVersion : ∀ v ∈ acc.protocolVersion, v ≤ 0xffff
  signature : ∀ b ∈ acc.signature, b.length = 64

section

variable [Crates]

namespace Follows

theorem readCommitField {acc : CommitFields} (hI : Checked acc) :
    Follows (Soal.readCommitField acc) fun ds acc' =>
      (∃ k, commitSlots.Grows 7 acc ds acc' k) ∧ Checked acc' := by
  -- the key, above the one before, then one branch for each field
  refine readU64Value.bind ?_
  rintro _ _ ⟨u, rfl, rfl⟩
  refine (checkAscending _ _ _).bind ?_
  rintro _ _ ⟨rfl, habove⟩
  unfold readCommitValue
  split_ifs with h₁ h₂ h₃ h₄ h₅ h₆ h₇
  · obtain rfl : u = 1 := UInt64.toNat_inj.1 h₁
    refine (readHash _).field [] habove (by decide) (fun _ => rfl) ?_ ?_ (fun _ _ _ => ⟨hI.1, hI.2, hI.3⟩)
    · rintro _ h rfl
      rfl
    · rintro v (_ | _ | _ | _ | _ | _ | _ | _ | j) hj <;> first | rfl | exact absurd rfl hj
  · obtain rfl : u = 2 := UInt64.toNat_inj.1 h₂
    refine readArrayHeader.bind ?_
    rintro _ _ ⟨v, rfl, rfl⟩
    split_ifs with hcap
    · exact reject _
    refine after (withCapacity _) ((readHashes _ _).field [.array v] habove (by decide)
      (fun _ => rfl) ?_ ?_ ?_)
    · rintro _ hs ⟨rfl, hlen⟩
      show .uint 2 :: .array (.ofNat hs.length) :: hashData hs = _
      rw [hlen, UInt64.ofNat_toNat]
      rfl
    · rintro v (_ | _ | _ | _ | _ | _ | _ | _ | j) hj <;> first | rfl | exact absurd rfl hj
    · -- the count was compared with the bound before the hashes were read
      rintro _ hs ⟨-, hlen⟩
      refine ⟨fun hs' hh => ?_, hI.2, hI.3⟩
      obtain rfl := Option.some.inj hh
      omega
  · obtain rfl : u = 3 := UInt64.toNat_inj.1 h₃
    refine (readHash _).field [] habove (by decide) (fun _ => rfl) ?_ ?_ (fun _ _ _ => ⟨hI.1, hI.2, hI.3⟩)
    · rintro _ h rfl
      show [Datum.uint 3, .bstr (authorToBytes h.toHex).bytes] = _
      rw [authorToBytes_toHex]
      rfl
    · rintro v (_ | _ | _ | _ | _ | _ | _ | _ | j) hj <;> first | rfl | exact absurd rfl hj
  · obtain rfl : u = 4 := UInt64.toNat_inj.1 h₄
    refine readU64Value.field [] habove (by decide) (fun _ => rfl) ?_ ?_ (fun _ _ _ => ⟨hI.1, hI.2, hI.3⟩)
    · rintro _ _ ⟨v, rfl, rfl⟩
      show [Datum.uint 4, .uint (.ofNat v.toNat)] = _
      rw [UInt64.ofNat_toNat]
      rfl
    · rintro v (_ | _ | _ | _ | _ | _ | _ | _ | j) hj <;> first | rfl | exact absurd rfl hj
  · obtain rfl : u = 5 := UInt64.toNat_inj.1 h₅
    refine readTstr.field [] habove (by decide) (fun _ => rfl) ?_ ?_ (fun _ _ _ => ⟨hI.1, hI.2, hI.3⟩)
    · rintro _ s rfl
      rfl
    · rintro v (_ | _ | _ | _ | _ | _ | _ | _ | j) hj <;> first | rfl | exact absurd rfl hj
  · obtain rfl : u = 6 := UInt64.toNat_inj.1 h₆
    refine readU64Value.bind ?_
    rintro _ _ ⟨v, rfl, rfl⟩
    split_ifs with hcap
    · exact reject _
    refine pure ⟨⟨6, habove, by decide, rfl, ?_, by simp, ?_⟩, ?_⟩
    · show [Datum.uint 6, .uint (.ofNat v.toNat)] = _
      rw [UInt64.ofNat_toNat]
      rfl
    · rintro (_ | _ | _ | _ | _ | _ | _ | _ | j) hj <;> first | rfl | exact absurd rfl hj
    · refine ⟨hI.1, fun v' hv => ?_, hI.3⟩
      obtain rfl := Option.some.inj hv
      omega
  · obtain rfl : u = 7 := UInt64.toNat_inj.1 h₇
    refine readBstr.bind ?_
    rintro _ b rfl
    split_ifs with hlen
    · exact reject _
    refine pure ⟨⟨7, habove, by decide, rfl, rfl, by simp, ?_⟩, ?_⟩
    · rintro (_ | _ | _ | _ | _ | _ | _ | _ | j) hj <;> first | rfl | exact absurd rfl hj
    · refine ⟨hI.1, hI.2, fun b' hb => ?_⟩
      obtain rfl := Option.some.inj hb
      exact not_not.1 hlen
  · exact reject _

end Follows

/-- The items of a commit. -/
def commitData (c : Commit) : List Datum :=
  .map 7 :: .uint 1 :: .bstr c.tree.bytes :: .uint 2 :: .array (.ofNat c.parents.length) ::
    (hashData c.parents ++ [.uint 3, .bstr (authorToBytes c.author).bytes, .uint 4,
      .uint c.timestamp, .uint 5, .tstr c.message, .uint 6, .uint (.ofNat c.wireVersion), .uint 7,
      .bstr c.signatureBytes])

/-- The bytes the encoder writes for a commit. -/
def commitBytes (c : Commit) : Bytes :=
  writeMapHeader 7 ++ encodeCommitFields c (writeU64 7 ++ writeBstr c.signatureBytes)

theorem encodeCommitBody_ok_iff {c : Commit} {b : Bytes} : encodeCommitBody c = .ok b ↔
    c.parents.length ≤ maxCommitParents ∧ b = commitBytes c ∧ (commitBytes c).length ≤ isizeMax := by
  unfold encodeCommitBody
  split
  next h =>
    constructor
    · intro h'
      cases h'
    · rintro ⟨h', -⟩
      omega
  next h => exact ⟨fun hv => ⟨by omega, vec_ok_iff.1 hv⟩, fun hv => vec_ok_iff.2 hv.2⟩

theorem written_commitData {c : Commit} (hp : c.parents.length ≤ maxCommitParents) :
    written (commitData c) = commitBytes c := by
  have hcount : (UInt64.ofNat c.parents.length).toNat = c.parents.length :=
    toNat_ofNat_of_le (le_trans hp (by decide))
  have hversion : (UInt64.ofNat c.wireVersion).toNat = c.wireVersion :=
    toNat_ofNat_of_le (le_trans c.wireVersion_le (by decide))
  simp only [commitData, written_cons, written_append, written_hashData, written_nil, Datum.bytes,
    hcount, hversion, List.append_nil]
  rfl

theorem not_zero_commitData (c : Commit) : ¬zeroVersion <:+: commitData c := by
  have hversion : UInt64.ofNat c.wireVersion ≠ 0 := by
    intro h
    have hval : (UInt64.ofNat c.wireVersion).toNat = c.wireVersion :=
      toNat_ofNat_of_le (le_trans c.wireVersion_le (by decide))
    rw [h] at hval
    exact c.wireVersion_ne_zero hval.symm
  have hhashes : ∀ (hs : List ContentHash) (ds : List Datum),
      zeroVersion <:+: hashData hs ++ ds → zeroVersion <:+: ds := by
    intro hs ds h
    induction hs with
    | nil => exact h
    | cons x hs ih =>
      rcases List.infix_cons_iff.1 h with h | h
      · cases (List.cons_prefix_cons.1 h).1
      · exact ih h
  intro h
  have htail := hhashes c.parents _ (by simpa [commitData, zeroVersion, List.infix_cons_iff] using h)
  simp [zeroVersion, List.infix_cons_iff, hversion.symm] at htail

/-- Seven fields are the items of their commit, unless the version was written as zero. -/
theorem commitData_of_fields {acc : CommitFields} {c : Commit} (hI : Checked acc)
    (hheld : commitSlots.held acc 7 = 7) (hc : commitOfFields acc = .ok c) :
    c.parents.length ≤ maxCommitParents ∧ (.map 7 :: commitSlots.row acc 7 = commitData c ∨
      zeroVersion <:+: .map 7 :: commitSlots.row acc 7) := by
  obtain ⟨tree, parents, author, timestamp, message, version, signature, last⟩ := acc
  -- seven fields in seven slots: none is empty
  have hall := Slots.slot_ne_nil hheld
  have hversion := hall 6 (by decide) (by decide)
  have hsignature := hall 7 (by decide) (by decide)
  cases version with
  | none => exact absurd rfl hversion
  | some v =>
  cases signature with
  | none => exact absurd rfl hsignature
  | some b =>
  unfold commitOfFields at hc
  obtain ⟨tree, htree, hc⟩ := bind_ok_iff.1 hc
  obtain rfl := require_ok htree
  obtain ⟨parents, hparents, hc⟩ := bind_ok_iff.1 hc
  obtain rfl := require_ok hparents
  obtain ⟨author, hauthor, hc⟩ := bind_ok_iff.1 hc
  obtain rfl := require_ok hauthor
  obtain ⟨timestamp, htimestamp, hc⟩ := bind_ok_iff.1 hc
  obtain rfl := require_ok htimestamp
  obtain ⟨message, hmessage, hc⟩ := bind_ok_iff.1 hc
  obtain rfl := require_ok hmessage
  obtain rfl := Except.ok.inj hc
  refine ⟨hI.parents parents rfl, ?_⟩
  have hv := hI.protocolVersion v rfl
  -- a version of zero is read, and would be written as the present one
  by_cases hzero : v = 0
  · subst hzero
    exact .inr ⟨.map 7 :: .uint 1 :: .bstr tree.bytes :: .uint 2 ::
      .array (.ofNat parents.length) :: (hashData parents ++ [.uint 3,
        .bstr (authorToBytes author).bytes, .uint 4, .uint (.ofNat timestamp), .uint 5,
        .tstr message]), [.bstr b], by simp [zeroVersion, commitSlots, Slots.row]⟩
  · left
    have hversion : (UInt16.ofNat v).toNat = v := by
      rw [UInt16.toNat_ofNat', Nat.mod_eq_of_lt (by omega)]
    have hne : UInt16.ofNat v ≠ 0 := by
      intro h
      rw [h] at hversion
      exact hzero hversion.symm
    let c : Commit := ⟨tree, parents, author, .ofNat timestamp, message, .ofNat v,
      some (String.ofList (Text.hexEncode b))⟩
    have hwire : c.wireVersion = v := by
      show (if UInt16.ofNat v = 0 then _ else (UInt16.ofNat v).toNat) = _
      rw [if_neg hne, hversion]
    have hbytes : c.signatureBytes = b := Commit.signatureBytes_hex (hI.signature b rfl) rfl
    show _ = commitData c
    unfold commitData
    rw [hwire, hbytes]
    simp [commitSlots, Slots.row, c]

theorem Follows.readCommitBody : Follows Soal.readCommitBody fun ds acc =>
    ds = .map 7 :: commitSlots.row acc 7 ∧ commitSlots.held acc 7 = 7 ∧ Checked acc := by
  refine readMapHeader.bind ?_
  rintro _ _ ⟨u, rfl, rfl⟩
  split_ifs with hseven
  · exact reject _
  obtain rfl : u = 7 := UInt64.toNat_inj.1 (not_not.1 hseven)
  have hnone : commitSlots.Tidy .none := by
    rintro (_ | _ | _ | _ | _ | _ | _ | _ | k) _ <;> rfl
  have hchecked : Checked .none :=
    ⟨by simp [CommitFields.none], by simp [CommitFields.none], by simp [CommitFields.none]⟩
  refine (Follows.fields (fun _ => rfl) (fun _ _ => rfl) (fun acc _ hI => readCommitField hI) 7
    .none hnone hchecked).imp ?_
  rintro ds acc ⟨hrow, hheld, hI⟩
  have hrow : commitSlots.row acc 7 = ds := hrow
  exact ⟨by rw [hrow]; rfl, hheld, hI⟩

/-- A commit body is what the encoder writes exactly when it is in preferred encoding and its version
is not zero. -/
theorem commit_canonical_iff {b : Bytes} {c : Commit} (h : decodeCommitBody b = .ok c) :
    encodeCommitBody c = .ok b ↔
      b.length ≤ isizeMax ∧ ∃ ds, b = written ds ∧ ¬zeroVersion <:+: ds := by
  rw [encodeCommitBody_ok_iff]
  constructor
  · rintro ⟨hp, rfl, hlen⟩
    exact ⟨hlen, commitData c, (written_commitData hp).symm, not_zero_commitData c⟩
  · rintro ⟨hlen, ds, rfl, hzero⟩
    obtain ⟨acc, hacc, hc⟩ := bind_ok_iff.1 h
    obtain ⟨hds, hheld, hI⟩ := Follows.readCommitBody.decodeAll hlen hacc
    obtain ⟨hp, hdata⟩ := commitData_of_fields hI hheld hc
    rw [← hds] at hdata
    obtain rfl := hdata.resolve_right hzero
    exact ⟨hp, written_commitData hp, by rwa [← written_commitData hp]⟩

end

/-! ## §4. Head announcements. -/

/-- Fields of an announcement. -/
def headSlots : Slots HeadFields where
  last := HeadFields.lastK
  slot acc
    | 1 => acc.protocolVersion.elim [] fun v => [.uint 1, .uint (.ofNat v)]
    | 2 => acc.vaultId.elim [] fun b => [.uint 2, .bstr b.val]
    | 3 => acc.vaultName.elim [] fun s => [.uint 3, .tstr s]
    | 4 => acc.head.elim [] fun h => [.uint 4, .bstr h.bytes]
    | 5 => acc.timestamp.elim [] fun v => [.uint 5, .uint (.ofNat v)]
    | 6 => acc.nodeId.elim [] fun b => [.uint 6, .bstr b.val]
    | 7 => acc.seq.elim [] fun v => [.uint 7, .uint (.ofNat v)]
    | 8 => acc.configSeq.elim [] fun v => [.uint 8, .uint (.ofNat v)]
    | 9 => acc.signature.elim [] fun b => [.uint 9, .bstr b.val]
    | _ => []

namespace Follows

/-- A number under key `u` of an announcement. -/
theorem headNumber {acc : HeadFields} {u : UInt64} {g : Nat → HeadFields}
    (habove : ∀ prev ∈ acc.lastK, prev < u.toNat) (hkey : 1 ≤ u.toNat ∧ u.toNat ≤ 9)
    (hlast : ∀ v, (g v).lastK = some u.toNat)
    (hslot : ∀ v : Nat, headSlots.slot (g v) u.toNat = [.uint u, .uint (.ofNat v)])
    (hothers : ∀ v, ∀ j ≠ u.toNat, headSlots.slot (g v) j = headSlots.slot acc j) :
    Follows (Cursor.readU64Value >>= fun v => Pure.pure (g v)) fun ds acc' =>
      (∃ k, headSlots.Grows 9 acc (.uint u :: ds) acc' k) ∧ True := by
  refine readU64Value.field [] habove hkey hlast ?_ hothers fun _ _ _ => trivial
  rintro _ _ ⟨v, rfl, rfl⟩
  rw [hslot, UInt64.ofNat_toNat]
  rfl

theorem readHeadField (acc : HeadFields) : Follows (Soal.readHeadField acc) fun ds acc' =>
    (∃ k, headSlots.Grows 9 acc ds acc' k) ∧ True := by
  refine readU64Value.bind ?_
  rintro _ _ ⟨u, rfl, rfl⟩
  refine (checkAscending _ _ _).bind ?_
  rintro _ _ ⟨rfl, habove⟩
  unfold readHeadValue
  split_ifs with h₁ h₂ h₃ h₄ h₅ h₆ h₇ h₈ h₉
  · obtain rfl : u = 1 := UInt64.toNat_inj.1 h₁
    refine headNumber habove (by decide) (fun _ => rfl) (fun _ => rfl) ?_
    rintro v (_ | _ | _ | _ | _ | _ | _ | _ | _ | _ | j) hj <;> first | rfl | exact absurd rfl hj
  · obtain rfl : u = 2 := UInt64.toNat_inj.1 h₂
    refine (readFixed _ _).field [] habove (by decide) (fun _ => rfl) ?_ ?_ fun _ _ _ => trivial
    · rintro _ b rfl
      rfl
    · rintro v (_ | _ | _ | _ | _ | _ | _ | _ | _ | _ | j) hj <;> first | rfl | exact absurd rfl hj
  · obtain rfl : u = 3 := UInt64.toNat_inj.1 h₃
    refine readTstr.field [] habove (by decide) (fun _ => rfl) ?_ ?_ fun _ _ _ => trivial
    · rintro _ s rfl
      rfl
    · rintro v (_ | _ | _ | _ | _ | _ | _ | _ | _ | _ | j) hj <;> first | rfl | exact absurd rfl hj
  · obtain rfl : u = 4 := UInt64.toNat_inj.1 h₄
    refine (readHash _).field [] habove (by decide) (fun _ => rfl) ?_ ?_ fun _ _ _ => trivial
    · rintro _ h rfl
      rfl
    · rintro v (_ | _ | _ | _ | _ | _ | _ | _ | _ | _ | j) hj <;> first | rfl | exact absurd rfl hj
  · obtain rfl : u = 5 := UInt64.toNat_inj.1 h₅
    refine headNumber habove (by decide) (fun _ => rfl) (fun _ => rfl) ?_
    rintro v (_ | _ | _ | _ | _ | _ | _ | _ | _ | _ | j) hj <;> first | rfl | exact absurd rfl hj
  · obtain rfl : u = 6 := UInt64.toNat_inj.1 h₆
    refine (readFixed _ _).field [] habove (by decide) (fun _ => rfl) ?_ ?_ fun _ _ _ => trivial
    · rintro _ b rfl
      rfl
    · rintro v (_ | _ | _ | _ | _ | _ | _ | _ | _ | _ | j) hj <;> first | rfl | exact absurd rfl hj
  · obtain rfl : u = 7 := UInt64.toNat_inj.1 h₇
    refine headNumber habove (by decide) (fun _ => rfl) (fun _ => rfl) ?_
    rintro v (_ | _ | _ | _ | _ | _ | _ | _ | _ | _ | j) hj <;> first | rfl | exact absurd rfl hj
  · obtain rfl : u = 8 := UInt64.toNat_inj.1 h₈
    refine headNumber habove (by decide) (fun _ => rfl) (fun _ => rfl) ?_
    rintro v (_ | _ | _ | _ | _ | _ | _ | _ | _ | _ | j) hj <;> first | rfl | exact absurd rfl hj
  · obtain rfl : u = 9 := UInt64.toNat_inj.1 h₉
    refine (readFixed _ _).field [] habove (by decide) (fun _ => rfl) ?_ ?_ fun _ _ _ => trivial
    · rintro _ b rfl
      rfl
    · rintro v (_ | _ | _ | _ | _ | _ | _ | _ | _ | _ | j) hj <;> first | rfl | exact absurd rfl hj
  · exact reject _

end Follows

/-- The items of an announcement. -/
def headData (ann : HeadAnnouncement) : List Datum :=
  [.map 9, .uint 1, .uint ann.protocolVersion, .uint 2, .bstr ann.vaultId.val, .uint 3,
    .tstr ann.vaultName, .uint 4, .bstr ann.head.bytes, .uint 5, .uint ann.timestamp, .uint 6,
    .bstr ann.nodeId.val, .uint 7, .uint ann.seq, .uint 8, .uint ann.configSeq, .uint 9,
    .bstr ann.signature.val]

theorem written_headData (ann : HeadAnnouncement) : written (headData ann) = encodeHeadFields ann := by
  simp only [headData, written_cons, written_nil, Datum.bytes, List.append_nil]
  rfl

theorem headData_of_fields {acc : HeadFields} {ann : HeadAnnouncement}
    (h : announcementOfFields acc = .ok ann) : .map 9 :: headSlots.row acc 9 = headData ann := by
  obtain ⟨version, vaultId, vaultName, head, timestamp, nodeId, seq, configSeq, signature, last⟩ := acc
  unfold announcementOfFields at h
  obtain ⟨version, hversion, h⟩ := bind_ok_iff.1 h
  obtain rfl := require_ok hversion
  obtain ⟨vaultId, hvaultId, h⟩ := bind_ok_iff.1 h
  obtain rfl := require_ok hvaultId
  obtain ⟨vaultName, hvaultName, h⟩ := bind_ok_iff.1 h
  obtain rfl := require_ok hvaultName
  obtain ⟨head, hhead, h⟩ := bind_ok_iff.1 h
  obtain rfl := require_ok hhead
  obtain ⟨timestamp, htimestamp, h⟩ := bind_ok_iff.1 h
  obtain rfl := require_ok htimestamp
  obtain ⟨nodeId, hnodeId, h⟩ := bind_ok_iff.1 h
  obtain rfl := require_ok hnodeId
  obtain ⟨seq, hseq, h⟩ := bind_ok_iff.1 h
  obtain rfl := require_ok hseq
  obtain ⟨configSeq, hconfigSeq, h⟩ := bind_ok_iff.1 h
  obtain rfl := require_ok hconfigSeq
  obtain ⟨signature, hsignature, h⟩ := bind_ok_iff.1 h
  obtain rfl := require_ok hsignature
  obtain rfl := Except.ok.inj h
  rfl

theorem Follows.readHeadBody : Follows Soal.readHeadBody fun ds acc =>
    ds = .map 9 :: headSlots.row acc 9 := by
  refine readMapHeader.bind ?_
  rintro _ _ ⟨u, rfl, rfl⟩
  split_ifs with hnine
  · exact reject _
  obtain rfl : u = 9 := UInt64.toNat_inj.1 (not_not.1 hnine)
  have hnone : headSlots.Tidy .none := by
    rintro (_ | _ | _ | _ | _ | _ | _ | _ | _ | _ | k) _ <;> rfl
  refine (Follows.fields (I := fun _ => True) (fun _ => rfl) (fun _ _ => rfl)
    (fun acc _ _ => readHeadField acc) 9 .none hnone trivial).imp ?_
  rintro ds acc ⟨hrow, -, -⟩
  have hrow : headSlots.row acc 9 = ds := hrow
  rw [hrow]
  rfl

theorem encodeHeadAnnouncement_ok_iff {ann : HeadAnnouncement} {b : Bytes} :
    encodeHeadAnnouncement ann = .ok b ↔ (Text.toUtf8 ann.vaultName).length ≤ 1024 ∧
      b = encodeHeadFields ann ∧ b.length ≤ maxMessageBytes := by
  unfold encodeHeadAnnouncement
  dsimp only
  split_ifs with hname hlen
  · constructor
    · intro h
      cases h
    · rintro ⟨h, -⟩
      omega
  · constructor
    · intro h
      cases h
    · rintro ⟨-, rfl, h⟩
      omega
  · constructor
    · intro h
      cases h
      exact ⟨by omega, rfl, by omega⟩
    · rintro ⟨-, rfl, -⟩
      rfl

/-- An announcement is what the encoder writes exactly when it is in preferred encoding and its name
is within the encoder's bound. -/
theorem head_canonical_iff {b : Bytes} {ann : HeadAnnouncement}
    (h : decodeHeadAnnouncement b = .ok ann) : encodeHeadAnnouncement ann = .ok b ↔
      ∃ ds, b = written ds ∧ ∀ s, .tstr s ∈ ds → (Text.toUtf8 s).length ≤ 1024 := by
  rw [encodeHeadAnnouncement_ok_iff]
  constructor
  · rintro ⟨hname, rfl, -⟩
    refine ⟨headData ann, (written_headData ann).symm, fun s hs => ?_⟩
    obtain rfl : s = ann.vaultName := by simpa [headData] using hs
    exact hname
  · rintro ⟨ds, rfl, hnames⟩
    unfold decodeHeadAnnouncement at h
    split at h
    next => cases h
    next hlen =>
      have hlen : (written ds).length ≤ maxMessageBytes := not_lt.1 hlen
      obtain ⟨acc, hacc, hann⟩ := bind_ok_iff.1 h
      have hds := Follows.readHeadBody.decodeAll (le_trans hlen (by decide)) hacc
      rw [headData_of_fields hann] at hds
      subst hds
      exact ⟨hnames _ (by simp [headData]), written_headData ann, hlen⟩

/-! ## §5. All decoders. -/

/-- **Preferred encoding**: an input that a decoder accepts is what the encoder writes for the decoded
object exactly when each item of it is written the shortest way, no directory carries a list of
chunks, the version of a commit is not zero, and the name in an announcement is within 1024 bytes. -/
theorem decoders_canonical_iff [Crates] (b : Bytes) :
    (∀ tree, decodeTreeBody b = .ok tree → (encodeTreeBody tree = .ok b ↔
      b.length ≤ isizeMax ∧ ∃ ds, b = written ds ∧ ¬laxDir <:+: ds)) ∧
    (∀ c, decodeCommitBody b = .ok c → (encodeCommitBody c = .ok b ↔
      b.length ≤ isizeMax ∧ ∃ ds, b = written ds ∧ ¬zeroVersion <:+: ds)) ∧
    (∀ ann, decodeHeadAnnouncement b = .ok ann → (encodeHeadAnnouncement ann = .ok b ↔
      ∃ ds, b = written ds ∧ ∀ s, .tstr s ∈ ds → (Text.toUtf8 s).length ≤ 1024)) :=
  ⟨fun _ => tree_canonical_iff, fun _ => commit_canonical_iff, fun _ => head_canonical_iff⟩

/-- The empty tree, the key of its body written in two bytes. -/
def longKey : Bytes := [0xa1, 0x18, 0x01, 0xa0]

theorem decode_longKey : decodeTreeBody longKey = .ok Tree.new := by rfl

/-- It is not in preferred encoding. -/
theorem longKey_not_preferred : ¬∃ ds, longKey = written ds ∧ ¬laxDir <:+: ds := by
  intro hds
  have hlen : longKey.length ≤ isizeMax := by decide
  have h := ((@decoders_canonical_iff sample longKey).1 Tree.new decode_longKey).2 ⟨hlen, hds⟩
  rw [encodeTreeBody_ok_iff] at h
  exact absurd h.2.1 (by decide)

/-- Two byte strings decode to the empty tree. -/
theorem longKey_not_canonical :
    ¬∀ b tree, decodeTreeBody b = .ok tree → encodeTreeBody tree = .ok b := by
  intro hall
  have h := hall longKey Tree.new decode_longKey
  rw [encodeTreeBody_ok_iff] at h
  exact absurd h.2.1 (by decide)

end Soal

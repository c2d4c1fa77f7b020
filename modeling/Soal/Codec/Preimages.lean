/-
  Soal.Codec.Preimages — what a signature covers.

  Four kinds of records are signed, each over bytes of its own.  Equal bytes mean the same kind and
  the same signed fields: the domain tag tells the kinds apart, and within a kind every field can be
  read off the bytes.
-/
import Soal.Codec.Announcement
import Soal.Codec.RoundTrip
import Soal.Invite
import Soal.Lib.PrefixCode
import Soal.SampleVault
import Soal.Vault.Keys

namespace Soal

open FileProg Cursor PrefixCode

/-! ## §1. CBOR items are prefix-free. -/

/-- A reader of an encoding separates its values. -/
theorem Decodes.prefixFree {α : Type} {r : Reader α} {enc : α → Bytes}
    (h : ∀ a, Decodes r (enc a) a) : PrefixFree isizeMax enc := by
  refine prefixFree_of_prefix fun a a' t ha ha' heq => ?_
  have hread := h a 0 t (by rw [heq, List.length_append] at ha'; omega)
  have hread' := h a' 0 [] (by simpa using ha')
  rw [List.append_nil, heq] at hread'
  have hsame := Prod.mk.inj (Except.ok.inj (hread.symm.trans hread'))
  exact ⟨hsame.1, (Cursor.mk.inj hsame.2).2⟩

theorem prefixFree_u64 : PrefixFree isizeMax (fun v : UInt64 => writeU64 v.toNat) := by
  refine Decodes.prefixFree (r := do return .ofNat (← Cursor.readU64Value)) fun v => ?_
  refine (Decodes.readU64Value (Decodes.uint64_lt v)).bind_nil ?_
  rw [UInt64.ofNat_toNat]
  exact .pure v

theorem prefixFree_bstr : PrefixFree isizeMax writeBstr := Decodes.prefixFree Decodes.readBstr

theorem prefixFree_tstr : PrefixFree isizeMax writeTstr := Decodes.prefixFree Decodes.readTstr

theorem prefixFree_hash : PrefixFree isizeMax (fun h : ContentHash => writeBstr h.bytes) :=
  prefixFree_bstr.comap fun _ _ h => ContentHash.ext h

/-- Hashes behind their number. -/
theorem prefixFree_hashes :
    PrefixFree isizeMax (fun hs => writeArrayHeader hs.length ++ encodeHashes hs) := by
  have hheader : PrefixFree isizeMax (fun k : Fin (isizeMax + 1) => writeArrayHeader k) := by
    refine prefixFree_of_prefix fun k k' t hk hk' heq => ?_
    have hread : ∀ i : Fin (isizeMax + 1),
        Decodes Cursor.readArrayHeader (writeArrayHeader i) i := fun i =>
      Decodes.readArrayHeader (Decodes.lt_usizeBound (Nat.lt_succ_iff.1 i.isLt))
    have h := hread k 0 t (by rw [heq, List.length_append] at hk'; omega)
    have h' := hread k' 0 [] (by simpa using hk')
    rw [List.append_nil, heq] at h'
    have hsame := Prod.mk.inj (Except.ok.inj (h.symm.trans h'))
    exact ⟨Fin.ext hsame.1, (Cursor.mk.inj hsame.2).2⟩
  refine hheader.counted prefixFree_hash fun h => ?_
  rw [writeBstr, List.length_append, h.length_eq]
  omega

/-! ## §2. Commits. -/

section

variable [Crates]

/-- The signed fields of a commit. -/
abbrev CommitSigned := ContentHash × List ContentHash × ContentHash × UInt64 × String × UInt64

def Commit.signed (c : Commit) : CommitSigned :=
  (c.tree, c.parents, authorToBytes c.author, c.timestamp, c.message, .ofNat c.wireVersion)

/-- The encoding of the signed fields. -/
def encodeSigned (s : CommitSigned) : Bytes :=
  writeU64 1 ++ (writeBstr s.1.bytes ++ (writeU64 2 ++
    ((writeArrayHeader s.2.1.length ++ encodeHashes s.2.1) ++ (writeU64 3 ++
      (writeBstr s.2.2.1.bytes ++ (writeU64 4 ++ (writeU64 s.2.2.2.1.toNat ++ (writeU64 5 ++
        (writeTstr s.2.2.2.2.1 ++ (writeU64 6 ++ writeU64 s.2.2.2.2.2.toNat))))))))))

omit [Crates] in
theorem prefixFree_signed : PrefixFree isizeMax encodeSigned :=
  (prefixFree_hash.pair (((prefixFree_hashes.pair ((prefixFree_hash.pair ((prefixFree_u64.pair
    ((prefixFree_tstr.pair (prefixFree_u64.behind (writeU64 6))).behind (writeU64 5))).behind
      (writeU64 4))).behind (writeU64 3)))).behind (writeU64 2))).behind (writeU64 1)

theorem encodeCommitFields_signed (c : Commit) : encodeCommitFields c [] = encodeSigned c.signed := by
  have hversion : (UInt64.ofNat c.wireVersion).toNat = c.wireVersion := by
    have hle := c.wireVersion_le
    rw [UInt64.toNat_ofNat', Nat.mod_eq_of_lt (by omega)]
  unfold encodeCommitFields encodeSigned Commit.signed
  simp only [hversion, List.append_nil, List.append_assoc]

/-- A preimage of a commit: the tag, a map header, the signed fields. -/
theorem commitSignMessage_ok_iff {c : Commit} {m : Bytes} : commitSignMessage c = .ok m ↔
    c.parents.length ≤ maxCommitParents ∧
      m = domainCommit ++ (writeMapHeader 6 ++ encodeSigned c.signed) ∧ m.length ≤ isizeMax := by
  unfold commitSignMessage encodeCommitSignBody
  rw [encodeCommitFields_signed]
  split
  next hmany =>
    constructor
    · intro h
      cases h
    · intro h
      omega
  next hfew =>
    constructor
    · intro h
      obtain ⟨body, hbody, hm⟩ := bind_ok_iff.1 h
      obtain ⟨rfl, -⟩ := vec_ok_iff.1 hbody
      obtain ⟨rfl, hlen⟩ := frame_ok_iff.1 hm
      exact ⟨by omega, rfl, hlen⟩
    · rintro ⟨-, rfl, hlen⟩
      refine bind_ok_iff.2 ⟨_, vec_ok_iff.2 ⟨rfl, ?_⟩, frame_ok_iff.2 ⟨rfl, hlen⟩⟩
      rw [List.length_append] at hlen
      omega

theorem commitSignMessage_injective {c c' : Commit} {m : Bytes} (h : commitSignMessage c = .ok m)
    (h' : commitSignMessage c' = .ok m) : c.signed = c'.signed := by
  obtain ⟨-, rfl, hlen⟩ := commitSignMessage_ok_iff.1 h
  obtain ⟨-, heq, hlen'⟩ := commitSignMessage_ok_iff.1 h'
  have hfields := List.append_cancel_left (List.append_cancel_left heq)
  rw [heq] at hlen'
  simp only [List.length_append] at hlen hlen'
  exact prefixFree_signed.injective (by omega) (by omega) hfields

end

/-! ## §3. Head announcements. -/

/-- The signed fields of an announcement: all but the name and the signature. -/
abbrev HeadSigned := UInt64 × { b : Bytes // b.length = vaultIdLen } × ContentHash × UInt64 × Key ×
  UInt64 × UInt64

def HeadAnnouncement.signed (ann : HeadAnnouncement) : HeadSigned :=
  (ann.protocolVersion, ann.vaultId, ann.head, ann.timestamp, ann.nodeId, ann.seq, ann.configSeq)

/-- The encoding of the signed fields. -/
def encodeHeadSigned (s : HeadSigned) : Bytes :=
  writeU64 1 ++ (writeU64 s.1.toNat ++ (writeU64 2 ++ (writeBstr s.2.1.val ++ (writeU64 4 ++
    (writeBstr s.2.2.1.bytes ++ (writeU64 5 ++ (writeU64 s.2.2.2.1.toNat ++ (writeU64 6 ++
      (writeBstr s.2.2.2.2.1.val ++ (writeU64 7 ++ (writeU64 s.2.2.2.2.2.1.toNat ++
        (writeU64 8 ++ writeU64 s.2.2.2.2.2.2.toNat))))))))))))

theorem prefixFree_fixed {k : Nat} :
    PrefixFree isizeMax (fun b : { b : Bytes // b.length = k } => writeBstr b.val) :=
  prefixFree_bstr.comap Subtype.val_injective

theorem prefixFree_headSigned : PrefixFree isizeMax encodeHeadSigned :=
  (prefixFree_u64.pair ((prefixFree_fixed.pair ((prefixFree_hash.pair ((prefixFree_u64.pair
    ((prefixFree_fixed.pair ((prefixFree_u64.pair (prefixFree_u64.behind (writeU64 8))).behind
      (writeU64 7))).behind (writeU64 6))).behind (writeU64 5))).behind (writeU64 4))).behind
        (writeU64 2))).behind (writeU64 1)

theorem headSignMessage_injective {a a' : HeadAnnouncement} {m : Bytes}
    (h : headSignMessage a = .ok m) (h' : headSignMessage a' = .ok m) : a.signed = a'.signed := by
  have hm : m = domainHead ++ (writeMapHeader 6 ++ encodeHeadSigned a.signed) ∧
      m.length ≤ isizeMax := by
    obtain ⟨rfl, hlen⟩ := frame_ok_iff.1 h
    exact ⟨rfl, hlen⟩
  have hm' : m = domainHead ++ (writeMapHeader 6 ++ encodeHeadSigned a'.signed) := by
    obtain ⟨rfl, -⟩ := frame_ok_iff.1 h'
    rfl
  obtain ⟨rfl, hlen⟩ := hm
  have hlen' := congrArg List.length hm'
  have hfields := List.append_cancel_left (List.append_cancel_left hm')
  simp only [List.length_append] at hlen hlen'
  exact prefixFree_headSigned.injective (by omega) (by omega) hfields

/-! ## §4. JSON objects. -/

section

variable [Crates]

/-- The keys of an object ascend. -/
def JsonObject.KeysSorted (object : JsonObject) : Prop :=
  object.Pairwise fun a b => a.1 < b.1

/-- `serde_json` prints different objects with sorted keys differently. -/
def JsonInjective : Prop := ∀ a b : JsonObject, a.KeysSorted → b.KeysSorted →
  Crates.objectToVec a = Crates.objectToVec b → a = b

omit [Crates] in
/-- Sorting an object without repeated keys makes its keys ascend. -/
theorem JsonObject.keysSorted_sorted {object : JsonObject} (h : (object.map Prod.fst).Nodup) :
    object.sorted.KeysSorted := by
  have hperm : object.sorted.Perm object := List.mergeSort_perm _ _
  have hle : object.sorted.Pairwise fun a b => decide (a.1 ≤ b.1) = true := by
    refine List.pairwise_mergeSort (fun a b c hab hbc => ?_) (fun a b => ?_) object
    · exact decide_eq_true (le_trans (of_decide_eq_true hab) (of_decide_eq_true hbc))
    · simpa using le_total a.1 b.1
  have hne : object.sorted.Pairwise fun a b => a.1 ≠ b.1 :=
    List.pairwise_map.1 ((hperm.map Prod.fst).nodup_iff.2 h)
  exact (hle.and hne).imp fun hab => lt_of_le_of_ne (of_decide_eq_true hab.1) hab.2

omit [Crates] in
/-- Objects with the same keys, none twice, in the same order, are equal when they sort to the same
object. -/
theorem JsonObject.eq_of_sorted {a b : JsonObject} (hkeys : a.map Prod.fst = b.map Prod.fst)
    (h : (b.map Prod.fst).Nodup) (heq : a.sorted = b.sorted) : a = b := by
  have hperm : a.Perm b :=
    (List.mergeSort_perm a _).symm.trans ((List.Perm.of_eq heq).trans (List.mergeSort_perm b _))
  refine List.ext_getElem hperm.length_eq fun i hi hi' => ?_
  obtain ⟨j, hj, hget⟩ := List.getElem_of_mem (hperm.subset (List.getElem_mem hi))
  -- the member of `a` at `i` stands in `b` at the place of its key, which is `i`
  have hsame : a[i].1 = b[i].1 := by
    have hat := congrArg (fun keys => keys[i]?) hkeys
    simpa only [List.getElem?_map, List.getElem?_eq_getElem hi, List.getElem?_eq_getElem hi',
      Option.map_some, Option.some.injEq] using hat
  have hkey : (b.map Prod.fst)[j]? = (b.map Prod.fst)[i]? := by
    rw [List.getElem?_map, List.getElem?_map, List.getElem?_eq_getElem hj,
      List.getElem?_eq_getElem hi', Option.map_some, Option.map_some, hget, hsame]
  have hij : j = i := (List.getElem?_inj (by simpa using hj) h).1 hkey
  subst hij
  exact hget.symm

/-- Printed alike, objects with the same keys are equal. -/
theorem JsonInjective.fields (hjson : JsonInjective) {a b : JsonObject}
    (hkeys : a.map Prod.fst = b.map Prod.fst) (h : (b.map Prod.fst).Nodup)
    (heq : Crates.objectToVec a.sorted = Crates.objectToVec b.sorted) : a = b :=
  JsonObject.eq_of_sorted hkeys h (hjson _ _ (JsonObject.keysSorted_sorted (hkeys ▸ h))
    (JsonObject.keysSorted_sorted h) heq)

omit [Crates] in
theorem toUInt64_injective {k k' : UInt8} (h : k.toUInt64 = k'.toUInt64) : k = k' := by
  have hnat := congrArg UInt64.toNat h
  rw [UInt8.toNat_toUInt64, UInt8.toNat_toUInt64] at hnat
  exact UInt8.toNat_inj.1 hnat

theorem configSignPreimage_injective (hjson : JsonInjective) {c c' : VaultConfig} {m : Bytes}
    (h : configSignPreimage c = .ok m) (h' : configSignPreimage c' = .ok m) :
    { c with configSig := c'.configSig, keyHex := c'.keyHex } = c' := by
  obtain ⟨rfl, -⟩ := frame_ok_iff.1 h
  obtain ⟨heq, -⟩ := frame_ok_iff.1 h'
  have hfields : configFields c = configFields c' := by
    refine hjson.fields rfl ?_ (List.append_cancel_left heq)
    show ["config_seq", "created_at", "encryption_enabled", "key_wrapped", "members",
      "min_replicas", "name", "owner", "vault_id"].Nodup
    decide
  obtain ⟨name, enc, minr, created, vid, seq, members, owner, sig, wrapped, hex⟩ := c
  obtain ⟨name', enc', minr', created', vid', seq', members', owner', sig', wrapped', hex'⟩ := c'
  have howner : owner = owner' := by
    cases owner <;> cases owner' <;> simp_all [configFields]
  have hreplicas : minr = minr' := by
    refine toUInt64_injective ?_
    simp_all [configFields]
  simp_all [configFields]

theorem inviteSignPreimage_injective (hjson : JsonInjective) {i i' : Invite} {m : Bytes}
    (h : inviteSignPreimage i = .ok m) (h' : inviteSignPreimage i' = .ok m) :
    { i with signatureHex := i'.signatureHex } = i' := by
  obtain ⟨rfl, -⟩ := frame_ok_iff.1 h
  obtain ⟨heq, -⟩ := frame_ok_iff.1 h'
  have hfields : inviteFields i = inviteFields i' := by
    refine hjson.fields rfl ?_ (List.append_cancel_left heq)
    show ["protocol_version", "vault_id_hex", "vault_name", "encryption_enabled", "min_replicas",
      "config_seq", "members", "role", "issuer", "created_at", "expires_at", "invite_secret_hex",
      "sealed_key_hex"].Nodup
    decide
  obtain ⟨version, vid, name, enc, minr, seq, members, role, issuer, created, expires, secret, key,
    sig⟩ := i
  obtain ⟨version', vid', name', enc', minr', seq', members', role', issuer', created', expires',
    secret', key', sig'⟩ := i'
  have hrole : role = role' := by
    cases role <;> cases role' <;> simp_all [inviteFields, InviteRole.asStr]
  have hreplicas : minr = minr' := by
    refine toUInt64_injective ?_
    simp_all [inviteFields]
  simp_all [inviteFields]

/-! ## §5. All signed records. -/

/-- A record that is signed. -/
inductive SignedRecord where
  | commit (commit : Commit)
  | head (ann : HeadAnnouncement)
  | config (config : VaultConfig)
  | invite (inv : Invite)

namespace SignedRecord

/-- The bytes its signature is over. -/
def preimage : SignedRecord → Res Bytes
  | commit c => commitSignMessage c
  | head ann => headSignMessage ann
  | config c => configSignPreimage c
  | invite inv => inviteSignPreimage inv

/-- Records of one kind that differ in unsigned fields only. -/
def SameSigned : SignedRecord → SignedRecord → Prop
  | commit c, commit c' =>
      c.tree = c'.tree ∧ c.parents = c'.parents ∧ authorToBytes c.author = authorToBytes c'.author ∧
        c.timestamp = c'.timestamp ∧ c.message = c'.message ∧ c.wireVersion = c'.wireVersion
  | head a, head a' => { a with vaultName := a'.vaultName, signature := a'.signature } = a'
  | config c, config c' => { c with configSig := c'.configSig, keyHex := c'.keyHex } = c'
  | invite i, invite i' => { i with signatureHex := i'.signatureHex } = i'
  | _, _ => False

omit [Crates] in
/-- The tag of its kind. -/
def domain : SignedRecord → Bytes
  | commit _ => domainCommit
  | head _ => domainHead
  | config _ => domainConfig
  | invite _ => domainInvite

/-- A preimage begins with the tag of its kind. -/
theorem take_preimage {r : SignedRecord} {m : Bytes} (h : r.preimage = .ok m) :
    m.take 16 = r.domain := by
  cases r with
  | commit c =>
    obtain ⟨-, rfl, -⟩ := commitSignMessage_ok_iff.1 h
    exact List.take_left' (by decide)
  | head ann =>
    obtain ⟨rfl, -⟩ := frame_ok_iff.1 h
    exact List.take_left' (by decide)
  | config c =>
    obtain ⟨rfl, -⟩ := frame_ok_iff.1 h
    exact List.take_left' (by decide)
  | invite inv =>
    obtain ⟨rfl, -⟩ := frame_ok_iff.1 h
    exact List.take_left' (by decide)

omit [Crates] in
/-- The four tags and the tag of trees are pairwise different. -/
theorem domains_ne : domainCommit ≠ domainHead ∧ domainCommit ≠ domainConfig ∧
    domainCommit ≠ domainInvite ∧ domainHead ≠ domainConfig ∧ domainHead ≠ domainInvite ∧
    domainConfig ≠ domainInvite ∧ domainCommit ≠ domainTree := by decide

theorem sameSigned_of_commit {c c' : Commit} (h : c.signed = c'.signed) :
    SameSigned (commit c) (commit c') := by
  simp only [Commit.signed, Prod.mk.injEq] at h
  obtain ⟨htree, hparents, hauthor, htime, hmessage, hversion⟩ := h
  refine ⟨htree, hparents, hauthor, htime, hmessage, ?_⟩
  -- versions fit sixteen bits, so none is cut off
  have hle := c.wireVersion_le
  have hle' := c'.wireVersion_le
  have hnat := congrArg UInt64.toNat hversion
  rw [UInt64.toNat_ofNat', UInt64.toNat_ofNat'] at hnat
  omega

theorem sameSigned_of_head {a a' : HeadAnnouncement} (h : a.signed = a'.signed) :
    SameSigned (head a) (head a') := by
  simp only [HeadAnnouncement.signed, Prod.mk.injEq] at h
  obtain ⟨hversion, hvault, hhead, htime, hnode, hseq, hconfig⟩ := h
  show { a with vaultName := a'.vaultName, signature := a'.signature } = a'
  rw [hversion, hvault, hhead, htime, hnode, hseq, hconfig]

/-- Equal preimages are preimages of one kind and of the same signed fields. -/
theorem sameSigned_of_preimage (hjson : JsonInjective) {r r' : SignedRecord} {m : Bytes}
    (h : r.preimage = .ok m) (h' : r'.preimage = .ok m) : SameSigned r r' := by
  have hdomain : r.domain = r'.domain := (take_preimage h).symm.trans (take_preimage h')
  cases r <;> cases r'
  case commit.commit c c' => exact sameSigned_of_commit (commitSignMessage_injective h h')
  case head.head a a' => exact sameSigned_of_head (headSignMessage_injective h h')
  case config.config c c' => exact configSignPreimage_injective hjson h h'
  case invite.invite i i' => exact inviteSignPreimage_injective hjson h h'
  -- records of different kinds have different tags
  all_goals
    have hne := domains_ne
    simp only [domain] at hdomain
    simp_all

end SignedRecord

/-! ## §6. Preimages and wires. -/

/-- The byte behind the tag of a commit: the map header. -/
theorem commitSignMessage_header {c : Commit} {m : Bytes} (h : commitSignMessage c = .ok m) :
    (m.drop 16).take 1 = [0xa6] := by
  obtain ⟨-, rfl, -⟩ := commitSignMessage_ok_iff.1 h
  rw [List.drop_left' domainCommit_length]
  rfl

theorem encodeCommitWire_header {c : Commit} {w : Bytes} (h : encodeCommitWire c = .ok w) :
    (w.drop 16).take 1 = [0xa7] := by
  obtain ⟨body, hbody, hw⟩ := bind_ok_iff.1 h
  obtain ⟨rfl, -⟩ := frame_ok_iff.1 hw
  rw [List.drop_left' domainCommit_length]
  unfold encodeCommitBody at hbody
  split at hbody
  · cases hbody
  · obtain ⟨rfl, -⟩ := vec_ok_iff.1 hbody
    rfl

omit [Crates] in
theorem encodeTreeWire_domain {t : Tree} {w : Bytes} (h : encodeTreeWire t = .ok w) :
    w.take 16 = domainTree := by
  obtain ⟨body, -, hw⟩ := bind_ok_iff.1 h
  obtain ⟨rfl, -⟩ := frame_ok_iff.1 hw
  exact List.take_left' domainTree_length

/-- The preimage of a commit is no wire of a commit, and no bytes that decode as one: six fields
stand in it, seven in a wire. -/
theorem commitSignMessage_ne_commitWire {c : Commit} {m : Bytes} (h : commitSignMessage c = .ok m)
    (c' : Commit) : encodeCommitWire c' ≠ .ok m ∧ decodeCommitWire m ≠ .ok c' := by
  constructor
  · intro hw
    have hheader := (commitSignMessage_header h).symm.trans (encodeCommitWire_header hw)
    exact absurd hheader (by decide)
  · intro hw
    obtain ⟨-, rfl, hlen⟩ := commitSignMessage_ok_iff.1 h
    simp only [List.length_append] at hlen
    have hread := Decodes.readMapHeader (n := 6) (by decide) 0 (encodeSigned c.signed) (by omega)
    rw [decodeCommitWire, unframe_append domainCommit_length, ok_bind, decodeCommitBody, decodeAll,
      readCommitBody, run_bind, run_bind, hread] at hw
    cases hw

/-- Nor a wire of a tree, or bytes that decode as one: the tags differ. -/
theorem commitSignMessage_ne_treeWire {c : Commit} {m : Bytes} (h : commitSignMessage c = .ok m)
    (t : Tree) : encodeTreeWire t ≠ .ok m ∧ decodeTreeWire m ≠ .ok t := by
  have htake : m.take 16 = domainCommit := SignedRecord.take_preimage (r := .commit c) h
  constructor
  · intro hw
    exact SignedRecord.domains_ne.2.2.2.2.2.2 (htake.symm.trans (encodeTreeWire_domain hw))
  · intro hw
    obtain ⟨body, hbody, -⟩ := bind_ok_iff.1 hw
    unfold unframe at hbody
    rw [htake] at hbody
    split at hbody
    · cases hbody
    · rw [if_pos (by decide)] at hbody
      cases hbody

/-- What a signature covers: records with equal preimages are of one kind and agree on every signed
field, and the preimage of a commit is no wire. -/
theorem signing_preimages (hjson : JsonInjective) {r : SignedRecord} {m : Bytes}
    (h : r.preimage = .ok m) :
    (∀ r' : SignedRecord, r'.preimage = .ok m → r.SameSigned r') ∧
      ∀ c, r = .commit c → (∀ c' : Commit, encodeCommitWire c' ≠ .ok m ∧
          decodeCommitWire m ≠ .ok c') ∧
        ∀ t : Tree, encodeTreeWire t ≠ .ok m ∧ decodeTreeWire m ≠ .ok t := by
  constructor
  · intro r' h'
    exact SignedRecord.sameSigned_of_preimage hjson h h'
  · rintro c rfl
    exact ⟨commitSignMessage_ne_commitWire h, commitSignMessage_ne_treeWire h⟩

end

section Sample

attribute [local instance] sample

theorem sample_jsonInjective : JsonInjective := by
  intro a b _ _ h
  have htext : ':' ∈ sampleObjectText.toList := by decide +kernel
  exact printOr_injective (by decide) htext (Text.toUtf8_injective h)

/-- The bytes signed for `sampleConfig`. -/
theorem configSignPreimage_sample :
    configSignPreimage sampleConfig = .ok (domainConfig ++ Text.toUtf8 sampleObjectText) := by
  have hsorted : (configFields sampleConfig).sorted = sampleObject := by
    refine List.mergeSort_of_pairwise ?_
    decide
  have hprint : printOr sampleObject sampleObjectText sampleObject = sampleObjectText :=
    if_pos rfl
  refine frame_ok_iff.2 ⟨?_, ?_⟩
  · show _ = domainConfig ++ Text.toUtf8 (printOr sampleObject sampleObjectText _)
    rw [hsorted, hprint]
  · show (domainConfig ++ Text.toUtf8 (printOr sampleObject sampleObjectText _)).length ≤ isizeMax
    rw [hsorted, hprint]
    decide +kernel

/-- The config with its signature has the same preimage, and so has the same signed fields. -/
theorem signing_preimages_config : (SignedRecord.config sampleConfig).SameSigned
    (.config { sampleConfig with configSig := some "aa" }) :=
  (signing_preimages (r := .config sampleConfig) sample_jsonInjective configSignPreimage_sample).1 _
    configSignPreimage_sample

end Sample

end Soal

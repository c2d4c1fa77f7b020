/-
  Soal.Codec.WellFormed — what the encoders write, as deterministic CBOR.

  A string is one deterministic data item when it is a row of shortest-form tokens that the grammar
  reads as a single item: an array has as many items behind it as its head says, a map as many pairs,
  and the integer keys of a map ascend.  Four encoders write one item.  The body that the signature
  of a head announcement covers announces six pairs and carries seven.
-/
import Soal.Codec.Announced
import Soal.Codec.Canonical
import Soal.Codec.Preimages

namespace Soal

open FileProg PrefixCode

/-! ## §1. Deterministic CBOR. -/

/-- A data item of major type 0 to 6, without the items inside it. -/
@[ext] structure Token where
  major : Fin 7
  argument : Nat
  payload : Bytes

namespace Token

/-- Shortest head, then the payload. -/
def bytes (t : Token) : Bytes := pushUint t.major t.argument ++ t.payload

/-- The argument fits 64 bits, strings (major types 2 and 3) have as many bytes as it says, and text
is UTF-8. -/
structure Valid (t : Token) : Prop where
  fits : t.argument < usizeBound
  sized : t.payload.length = if t.major = 2 ∨ t.major = 3 then t.argument else 0
  text : t.major = 3 → ∃ s, t.payload = Text.toUtf8 s

/-- Number of items inside: those of an array, two for each pair of a map, the tagged one. -/
def parts (t : Token) : Nat :=
  if t.major = 4 then t.argument
  else if t.major = 5 then 2 * t.argument
  else if t.major = 6 then 1
  else 0

/-- The integer that a token of major type 0 or 1 stands for. -/
def int? (t : Token) : Option Int :=
  if t.major = 0 then some t.argument
  else if t.major = 1 then some (-1 - t.argument)
  else none

end Token

/-- What a row is read as. -/
inductive Part where
  /-- as many items -/
  | items (n : Nat)
  /-- as many pairs of a map, behind the last integer key -/
  | pairs (last : Option Int) (n : Nat)

/-- What stands inside an item. -/
def Token.inside (t : Token) : Part :=
  if t.major = 5 then .pairs none t.argument else .items t.parts

/-- The grammar of data items with ascending integer keys. -/
inductive Parses : Part → List Token → Prop
  | done : Parses (.items 0) []
  | item {t : Token} {n : Nat} {inner rest : List Token} : Parses t.inside inner →
      Parses (.items n) rest → Parses (.items (n + 1)) (t :: (inner ++ rest))
  | noPair {last : Option Int} : Parses (.pairs last 0) []
  | pair {last : Option Int} {key : Token} {n : Nat} {inner value rest : List Token} :
      (∀ k ∈ key.int?, ∀ prev ∈ last, prev < k) → Parses key.inside inner →
      Parses (.items 1) value → Parses (.pairs (key.int?.or last) n) rest →
      Parses (.pairs last (n + 1)) (key :: (inner ++ (value ++ rest)))

/-- One deterministic data item and nothing else. -/
def DeterministicItem (b : Bytes) : Prop :=
  ∃ row : List Token, b = row.flatMap Token.bytes ∧ (∀ t ∈ row, t.Valid) ∧ Parses (.items 1) row

/-- Number of items of a part. -/
def Part.count : Part → Nat
  | .items n => n
  | .pairs _ n => 2 * n

theorem Token.inside_count (t : Token) : t.inside.count = t.parts := by
  unfold inside
  split_ifs with h
  · rw [parts, if_neg (by rw [h]; decide), if_pos h]
    rfl
  · rfl

/-- A parsed row has the terms its part counts. -/
theorem Parses.terms {p : Part} {row : List Token} (h : Parses p row) :
    Terms Token.parts p.count row := by
  induction h with
  | done => exact .nil
  | @item t n inner rest hinner hrest ihinner ihrest =>
    rw [Token.inside_count] at ihinner
    exact .cons ihinner ihrest
  | noPair => exact .nil
  | @pair last key n inner value rest hlast hinner hvalue hrest ihinner ihvalue ihrest =>
    rw [Token.inside_count] at ihinner
    -- the key is a term, and the value in front of the other pairs is one more
    have hbehind : Terms Token.parts (1 + 2 * n) (value ++ rest) := ihvalue.append ihrest
    have hcount : (Part.pairs last (n + 1)).count = (1 + 2 * n) + 1 := by
      show 2 * (n + 1) = _
      omega
    rw [hcount]
    exact .cons ihinner hbehind

/-! ## §2. A row of tokens is known by its bytes. -/

/-- The head and the payload of a token. -/
def readToken : Reader (Nat × Nat × Bytes) := do
  let (major, argument) ← Cursor.readUint
  if major = 2 ∨ major = 3 then return (major, argument, ← Cursor.take argument)
  else return (major, argument, [])

theorem Decodes.readToken {t : Token} (h : t.Valid) :
    Decodes Soal.readToken t.bytes (t.major, t.argument, t.payload) := by
  obtain ⟨major, argument, payload⟩ := t
  obtain ⟨hfits, hsized, -⟩ := h
  have hmajor : (major : Nat) < 8 := by omega
  refine (readUint hmajor hfits).bind ?_
  have hstring : ((major : Nat) = 2 ∨ (major : Nat) = 3) ↔ (major = 2 ∨ major = 3) := by
    constructor <;> intro h <;> omega
  simp only [hstring]
  dsimp only at hsized
  split_ifs at hsized ⊢ with hstr
  · subst hsized
    exact (take payload).bind_nil (.pure _)
  · obtain rfl := List.length_eq_zero_iff.1 hsized
    exact .pure _

theorem prefixFree_token :
    PrefixFree isizeMax (fun t : { t : Token // t.Valid } => t.val.bytes) := by
  refine prefixFree_of_prefix fun a a' t ha ha' heq => ?_
  have hread := Decodes.readToken a.property 0 t (by rw [heq, List.length_append] at ha'; omega)
  have hread' := Decodes.readToken a'.property 0 [] (by simpa using ha')
  rw [List.append_nil, heq] at hread'
  have hsame := Prod.mk.inj (Except.ok.inj (hread.symm.trans hread'))
  obtain ⟨hmajor, hrest⟩ := Prod.mk.inj hsame.1
  obtain ⟨hargument, hpayload⟩ := Prod.mk.inj hrest
  have htoken : a.val = a'.val := Token.ext (Fin.ext hmajor) hargument hpayload
  exact ⟨Subtype.ext htoken, (Cursor.mk.inj hsame.2).2⟩

theorem Token.bytes_pos (t : Token) : 0 < t.bytes.length := by
  have hhead : 0 < (pushUint t.major t.argument).length := by
    rw [pushUint_length]
    unfold uintSize
    split_ifs <;> omega
  rw [bytes, List.length_append]
  omega

/-- Equal bytes, equal tokens. -/
theorem tokens_unique {row row' : List Token} (h : ∀ t ∈ row, t.Valid) (h' : ∀ t ∈ row', t.Valid)
    (hfit : (row.flatMap Token.bytes).length ≤ isizeMax)
    (heq : row.flatMap Token.bytes = row'.flatMap Token.bytes) : row = row' := by
  lift row to List { t : Token // t.Valid } using h
  lift row' to List { t : Token // t.Valid } using h'
  rw [List.flatMap_map] at hfit
  rw [List.flatMap_map, List.flatMap_map] at heq
  rw [prefixFree_token.row (fun t => t.val.bytes_pos) row row' hfit heq]

/-! ## §3. The tokens of what the encoders write. -/

def Datum.token (d : Datum) : Token where
  major := match d with
    | .uint _ => 0
    | .bstr _ => 2
    | .tstr _ => 3
    | .array _ => 4
    | .map _ => 5
  argument := d.argument
  payload := d.payload

theorem Datum.token_bytes (d : Datum) : d.token.bytes = d.bytes := by
  rw [Datum.bytes_eq]
  cases d <;> rfl

theorem Datum.token_valid {d : Datum} (h : d.bytes.length ≤ isizeMax) : d.token.Valid where
  fits := Datum.argument_lt h
  sized := by cases d <;> rfl
  text := by
    intro htext
    cases d with
    | tstr s => exact ⟨s, rfl⟩
    | _ => cases htext

theorem tokens_bytes (ds : List Datum) : (ds.map Datum.token).flatMap Token.bytes = written ds := by
  rw [List.flatMap_map]
  exact List.flatMap_congr fun d _ => d.token_bytes

theorem tokens_valid {ds : List Datum} (h : (written ds).length ≤ isizeMax) :
    ∀ t ∈ ds.map Datum.token, t.Valid := by
  intro t ht
  obtain ⟨d, hd, rfl⟩ := List.mem_map.1 ht
  refine Datum.token_valid (le_trans ?_ h)
  exact length_le_flatMap hd

/-- The row is what the grammar reads as this part. -/
def Forms (p : Part) (ds : List Datum) : Prop := Parses p (ds.map Datum.token)

namespace Forms

variable {n : Nat} {last : Option Int} {d : Datum} {inner rest : List Datum}

theorem noPair : Forms (.pairs last 0) [] := Parses.noPair

/-- An item with what its head announces. -/
theorem item (h : Forms d.token.inside inner) : Forms (.items 1) (d :: inner) := by
  have hitem : Parses (.items (0 + 1)) (d.token :: (inner.map Datum.token ++ [])) := .item h .done
  rw [List.append_nil] at hitem
  exact hitem

theorem hashes (hs : List ContentHash) : Forms (.items hs.length) (hashData hs) := by
  induction hs with
  | nil => exact .done
  | cons h hs ih =>
    have hleaf : Parses (Datum.bstr h.bytes).token.inside [] := .done
    exact Parses.item hleaf ih

/-- A pair with an integer key. -/
theorem pair {k : UInt64} (hlast : ∀ prev ∈ last, prev < k.toNat) (h : Forms d.token.inside inner)
    (hrest : Forms (.pairs (some k.toNat) n) rest) :
    Forms (.pairs last (n + 1)) (.uint k :: d :: (inner ++ rest)) := by
  have hpair : Parses (.pairs last (n + 1)) ((Datum.uint k).token ::
      ([] ++ ((d :: inner).map Datum.token ++ rest.map Datum.token))) := by
    refine .pair (fun i hi => ?_) .done (item h) hrest
    obtain rfl := Option.some.inj hi
    exact hlast
  rw [List.nil_append, ← List.map_append] at hpair
  exact hpair

/-- A pair whose value has nothing inside. -/
theorem field {k : UInt64} (hlast : ∀ prev ∈ last, prev < k.toNat)
    (hleaf : d.token.inside = .items 0) (hrest : Forms (.pairs (some k.toNat) n) rest) :
    Forms (.pairs last (n + 1)) (.uint k :: d :: rest) := by
  have hdone : Forms d.token.inside [] := by
    rw [hleaf]
    exact .done
  exact pair hlast hdone hrest

/-- A pair whose value is a list of hashes. -/
theorem hashField {k : UInt64} {hs : List ContentHash} (hlast : ∀ prev ∈ last, prev < k.toNat)
    (hlen : hs.length ≤ isizeMax) (hrest : Forms (.pairs (some k.toNat) n) rest) :
    Forms (.pairs last (n + 1)) (.uint k :: .array (.ofNat hs.length) :: (hashData hs ++ rest)) := by
  refine pair hlast ?_ hrest
  show Forms (.items (UInt64.ofNat hs.length).toNat) (hashData hs)
  rw [toNat_ofNat_of_le hlen]
  exact hashes hs

/-- The map of an entry is one item. -/
theorem entry (p : String × TreeEntry) (hlen : chunkCount p ≤ isizeMax) :
    ∃ head inner, entryData p = .tstr p.1 :: head :: inner ∧ Forms head.token.inside inner := by
  obtain ⟨path, entry⟩ := p
  cases entry with
  | file size chunks =>
    refine ⟨_, _, rfl, ?_⟩
    have hchunks : Forms (.pairs (some (2 : UInt64).toNat) 1)
        (.uint 3 :: .array (.ofNat chunks.length) :: (hashData chunks ++ [])) :=
      hashField (by decide) hlen noPair
    rw [List.append_nil] at hchunks
    exact field (by simp) rfl (field (by decide) rfl hchunks)
  | dir hash =>
    exact ⟨_, _, rfl, field (by simp) rfl (field (by decide) rfl noPair)⟩

/-- Paths are keys of text: no integer key comes before them. -/
theorem entries {es : List (String × TreeEntry)} (hlen : ∀ p ∈ es, chunkCount p ≤ isizeMax) :
    Forms (.pairs none es.length) (es.flatMap entryData) := by
  induction es with
  | nil => exact .noPair
  | cons p es ih =>
    obtain ⟨head, inner, heq, hinner⟩ := entry p (hlen p List.mem_cons_self)
    have hrest := ih fun q hq => hlen q (List.mem_cons_of_mem _ hq)
    have hpair : Parses (.pairs none (es.length + 1)) ((Datum.tstr p.1).token ::
        ([] ++ ((head :: inner).map Datum.token ++ (es.flatMap entryData).map Datum.token))) := by
      refine .pair (fun i hi => ?_) .done (item hinner) hrest
      cases hi
    rw [List.nil_append, ← List.map_append] at hpair
    rw [List.flatMap_cons, heq]
    exact hpair

end Forms

/-- What is written in tokens that form one item is one item. -/
theorem deterministic_written {ds : List Datum} (h : Forms (.items 1) ds)
    (hfit : (written ds).length ≤ isizeMax) : DeterministicItem (written ds) :=
  ⟨ds.map Datum.token, (tokens_bytes ds).symm, tokens_valid hfit, h⟩

/-- Heads that count more or fewer than the tokens behind them do not form one item. -/
theorem not_deterministic_written {ds : List Datum} (hfit : (written ds).length ≤ isizeMax)
    (hcount : ds.length ≠ 1 + (ds.map fun d => d.token.parts).sum) :
    ¬DeterministicItem (written ds) := by
  rintro ⟨row, heq, hvalid, hparses⟩
  have hrow : ds.map Datum.token = row := by
    apply tokens_unique (tokens_valid hfit) hvalid
    · rw [tokens_bytes]
      exact hfit
    · rw [tokens_bytes, heq]
  subst hrow
  have hlen := hparses.terms.length_eq
  rw [List.length_map, List.map_map] at hlen
  exact hcount hlen

/-! ## §4. The encoders. -/

theorem forms_treeData {tree : Tree} (hsize : tree.entries.size ≤ maxTreeEntries)
    (hlen : ∀ p ∈ tree.entries.entries, chunkCount p ≤ isizeMax) :
    Forms (.items 1) (treeData tree) := by
  have hentries := Forms.entries hlen
  have hcount : (UInt64.ofNat tree.entries.size).toNat = tree.entries.size :=
    toNat_ofNat_of_le (le_trans hsize (by decide))
  have hinside : Forms (Datum.map (.ofNat tree.entries.size)).token.inside
      (tree.entries.entries.flatMap entryData) := by
    show Forms (.pairs none (UInt64.ofNat tree.entries.size).toNat) _
    rw [hcount]
    exact hentries
  have hbody : Forms (.pairs none 1) (.uint 1 :: .map (.ofNat tree.entries.size) ::
      (tree.entries.entries.flatMap entryData ++ [])) :=
    .pair (by simp) hinside .noPair
  rw [List.append_nil] at hbody
  exact .item hbody

/-- The six fields that a signature covers, in front of the others. -/
theorem forms_commitFields [Crates] {c : Commit} (hp : c.parents.length ≤ maxCommitParents) {n : Nat}
    {rest : List Datum} (hrest : Forms (.pairs (some (6 : UInt64).toNat) n) rest) :
    Forms (.pairs none (n + 6)) (.uint 1 :: .bstr c.tree.bytes :: .uint 2 ::
      .array (.ofNat c.parents.length) :: (hashData c.parents ++ .uint 3 ::
        .bstr (authorToBytes c.author).bytes :: .uint 4 :: .uint c.timestamp :: .uint 5 ::
          .tstr c.message :: .uint 6 :: .uint (.ofNat c.wireVersion) :: rest)) := by
  refine .field (by simp) rfl (.hashField (by decide) (le_trans hp (by decide)) ?_)
  exact .field (by decide) rfl (.field (by decide) rfl (.field (by decide) rfl
    (.field (by decide) rfl hrest)))

theorem forms_commitData [Crates] {c : Commit} (hp : c.parents.length ≤ maxCommitParents) :
    Forms (.items 1) (commitData c) :=
  .item (forms_commitFields hp (.field (by decide) rfl .noPair))

/-- The tokens that the signature of a commit covers. -/
def commitSignData [Crates] (c : Commit) : List Datum :=
  .map 6 :: .uint 1 :: .bstr c.tree.bytes :: .uint 2 :: .array (.ofNat c.parents.length) ::
    (hashData c.parents ++ [.uint 3, .bstr (authorToBytes c.author).bytes, .uint 4,
      .uint c.timestamp, .uint 5, .tstr c.message, .uint 6, .uint (.ofNat c.wireVersion)])

theorem written_commitSignData [Crates] {c : Commit} (hp : c.parents.length ≤ maxCommitParents) :
    written (commitSignData c) = writeMapHeader 6 ++ encodeCommitFields c [] := by
  have hcount : (UInt64.ofNat c.parents.length).toNat = c.parents.length :=
    toNat_ofNat_of_le (le_trans hp (by decide))
  have hversion : (UInt64.ofNat c.wireVersion).toNat = c.wireVersion :=
    toNat_ofNat_of_le (le_trans c.wireVersion_le (by decide))
  simp only [commitSignData, written_cons, written_append, written_hashData, written_nil,
    Datum.bytes, hcount, hversion]
  rfl

theorem forms_commitSignData [Crates] {c : Commit} (hp : c.parents.length ≤ maxCommitParents) :
    Forms (.items 1) (commitSignData c) :=
  .item (forms_commitFields hp .noPair)

theorem forms_headData (ann : HeadAnnouncement) : Forms (.items 1) (headData ann) := by
  refine .item (.field (by simp) rfl (.field (by decide) rfl (.field (by decide) rfl ?_)))
  refine .field (by decide) rfl (.field (by decide) rfl (.field (by decide) rfl ?_))
  exact .field (by decide) rfl (.field (by decide) rfl (.field (by decide) rfl .noPair))

/-- The tokens that the signature of a head announcement covers: seven pairs behind a head for
six. -/
def headSignData (ann : HeadAnnouncement) : List Datum :=
  [.map 6, .uint 1, .uint ann.protocolVersion, .uint 2, .bstr ann.vaultId.val, .uint 4,
    .bstr ann.head.bytes, .uint 5, .uint ann.timestamp, .uint 6, .bstr ann.nodeId.val, .uint 7,
    .uint ann.seq, .uint 8, .uint ann.configSeq]

theorem written_headSignData (ann : HeadAnnouncement) :
    written (headSignData ann) = encodeHeadSignBody ann := by
  simp only [headSignData, written_cons, written_nil, Datum.bytes, List.append_nil]
  rfl

theorem headSignData_parts (ann : HeadAnnouncement) :
    ((headSignData ann).map fun d => d.token.parts).sum = 12 := by
  have hmap : (Datum.map 6).token.parts = 12 := rfl
  have huint : ∀ v, (Datum.uint v).token.parts = 0 := fun _ => rfl
  have hbstr : ∀ b, (Datum.bstr b).token.parts = 0 := fun _ => rfl
  simp only [headSignData, List.map_cons, List.map_nil, hmap, huint, hbstr, List.sum_cons,
    List.sum_nil, Nat.add_zero]

/-- The signed fields of an announcement take less room than all of them. -/
theorem encodeHeadSignBody_length_le (ann : HeadAnnouncement) :
    (encodeHeadSignBody ann).length ≤ isizeMax := by
  have hint : ∀ v, (writeU64 v).length ≤ 9 := by
    intro v
    rw [writeU64, pushUint_length]
    exact uintSize_le v
  have hstr : ∀ {n : Nat} (b : { b : Bytes // b.length = n }), (writeBstr b.val).length ≤ 9 + n := by
    intro n b
    have hsize := uintSize_le b.val.length
    rw [writeBstr_length, b.property] at *
    omega
  have hhead : (writeMapHeader 6).length ≤ 9 := by decide
  have hvault := hstr ann.vaultId
  have hhash := hstr ⟨ann.head.bytes, ann.head.length_eq⟩
  have hnode := hstr ann.nodeId
  have hversion := hint ann.protocolVersion.toNat
  have htime := hint ann.timestamp.toNat
  have hseq := hint ann.seq.toNat
  have hconfig := hint ann.configSeq.toNat
  have hkeys := And.intro (hint 1) (And.intro (hint 2) (And.intro (hint 4) (And.intro (hint 5)
    (And.intro (hint 6) (And.intro (hint 7) (hint 8))))))
  unfold vaultIdLen at hvault
  dsimp only at hhash
  unfold encodeHeadSignBody isizeMax
  simp only [List.length_append]
  omega

/-- The body that the signature of a head announcement covers is not one item. -/
theorem headSignBody_not_deterministic (ann : HeadAnnouncement) :
    ¬DeterministicItem (encodeHeadSignBody ann) := by
  have hfit := encodeHeadSignBody_length_le ann
  rw [← written_headSignData] at hfit ⊢
  apply not_deterministic_written hfit
  -- a head for six pairs has twelve tokens behind it, but fourteen follow
  rw [headSignData_parts]
  show 15 ≠ 13
  decide

/-- The inputs of the encoders. -/
inductive Encoding where
  | treeBody (tree : Tree)
  | commitBody (commit : Commit)
  | commitSignBody (commit : Commit)
  | headAnnouncement (ann : HeadAnnouncement)
  | headSignBody (ann : HeadAnnouncement)

/-- What the encoders return. -/
def Encoding.encode [Crates] : Encoding → Res Bytes
  | treeBody tree => encodeTreeBody tree
  | commitBody commit => encodeCommitBody commit
  | commitSignBody commit => encodeCommitSignBody commit
  | headAnnouncement ann => encodeHeadAnnouncement ann
  | headSignBody ann => .ok (encodeHeadSignBody ann)

/-- **One deterministic item**: what an encoder returns is one deterministic data item, with the
counts, the shortest heads and the ascending keys this asks for, unless it is the body that the
signature of a head announcement covers: that one never is. -/
theorem encoders_deterministic_iff [Crates] {e : Encoding} {b : Bytes} (h : e.encode = .ok b) :
    DeterministicItem b ↔ ∀ ann, e ≠ .headSignBody ann := by
  cases e with
  | treeBody tree =>
    obtain ⟨hsize, rfl, hfit⟩ := encodeTreeBody_ok_iff.1 h
    have hlen := chunkCount_le_of_fits hfit
    rw [← written_treeData hsize hlen] at hfit ⊢
    refine iff_of_true (deterministic_written (forms_treeData hsize hlen) hfit) ?_
    intro ann heq
    cases heq
  | commitBody commit =>
    obtain ⟨hp, rfl, hfit⟩ := encodeCommitBody_ok_iff.1 h
    rw [← written_commitData hp] at hfit ⊢
    refine iff_of_true (deterministic_written (forms_commitData hp) hfit) ?_
    intro ann heq
    cases heq
  | commitSignBody commit =>
    have h : encodeCommitSignBody commit = .ok b := h
    unfold encodeCommitSignBody at h
    split at h
    next => cases h
    next hp =>
      have hp : commit.parents.length ≤ maxCommitParents := not_lt.1 hp
      obtain ⟨rfl, hfit⟩ := vec_ok_iff.1 h
      rw [← written_commitSignData hp] at hfit ⊢
      refine iff_of_true (deterministic_written (forms_commitSignData hp) hfit) ?_
      intro ann heq
      cases heq
  | headAnnouncement ann =>
    obtain ⟨-, rfl, hfit⟩ := encodeHeadAnnouncement_ok_iff.1 h
    rw [← written_headData] at hfit ⊢
    refine iff_of_true (deterministic_written (forms_headData ann) (le_trans hfit (by decide))) ?_
    intro ann heq
    cases heq
  | headSignBody ann =>
    cases h
    exact iff_of_false (headSignBody_not_deterministic ann) fun hall => hall ann rfl

section Samples

attribute [local instance] sample

/-- The body of a commit with two parents is one item. -/
theorem commitM_deterministic : DeterministicItem (wireM.drop 16) := by
  have hencode : (Encoding.commitBody commitM).encode = .ok (wireM.drop 16) := by
    obtain ⟨body, hbody, hframe⟩ := bind_ok_iff.1 encodeM
    obtain ⟨hwire, -⟩ := frame_ok_iff.1 hframe
    rw [hwire, ← domainCommit_length, List.drop_left]
    exact hbody
  rw [encoders_deterministic_iff hencode]
  intro ann h
  cases h

/-- The signed body of an announcement with full fields is not one item. -/
theorem largestAnnouncement_not_deterministic :
    ¬∀ (e : Encoding) (b : Bytes), e.encode = .ok b → DeterministicItem b := by
  intro hall
  have h := hall (.headSignBody largestAnnouncement) _ rfl
  exact headSignBody_not_deterministic largestAnnouncement h

end Samples

end Soal

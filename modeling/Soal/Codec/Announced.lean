/-
  Soal.Codec.Announced — head announcements read back what was written, within the message cap.

  An announcement takes 161 bytes besides its name and four integers of at most nine bytes each, so
  a name of at most 1024 bytes never reaches `MAX_MESSAGE_BYTES`.
-/
import Soal.Codec.Sizes
import Soal.Network
import Soal.StandIn

namespace Soal

open FileProg (Bytes)

/-! ## §1. Sizes. -/

theorem uintSize_le (v : Nat) : uintSize v ≤ 9 := by
  unfold uintSize
  split_ifs <;> omega

/-- Bytes of an announcement. -/
def HeadAnnouncement.wireSize (ann : HeadAnnouncement) : Nat :=
  161 + textSize ann.vaultName + uintSize ann.protocolVersion.toNat +
    uintSize ann.timestamp.toNat + uintSize ann.seq.toNat + uintSize ann.configSeq.toNat

theorem encodeHeadFields_length (ann : HeadAnnouncement) :
    (encodeHeadFields ann).length = ann.wireSize := by
  have hkeys : uintSize 1 = 1 ∧ uintSize 2 = 1 ∧ uintSize 3 = 1 ∧ uintSize 4 = 1 ∧ uintSize 5 = 1 ∧
      uintSize 6 = 1 ∧ uintSize 7 = 1 ∧ uintSize 8 = 1 ∧ uintSize 9 = 1 ∧ uintSize 16 = 1 ∧
      uintSize 32 = 2 ∧ uintSize 64 = 2 := by
    decide
  obtain ⟨h₁, h₂, h₃, h₄, h₅, h₆, h₇, h₈, h₉, hid, hhash, hsig⟩ := hkeys
  have hvault : ann.vaultId.val.length = 16 := ann.vaultId.property
  have hnode : ann.nodeId.val.length = 32 := ann.nodeId.property
  have hsign : ann.signature.val.length = 64 := ann.signature.property
  simp only [encodeHeadFields, List.length_append, writeMapHeader, writeU64, pushUint_length,
    writeTstr_length, writeBstr_length, ContentHash.length_eq, hvault, hnode, hsign, h₁, h₂, h₃, h₄,
    h₅, h₆, h₇, h₈, h₉, hid, hhash, hsig, HeadAnnouncement.wireSize]
  clear h₁ h₂ h₃ h₄ h₅ h₆ h₇ h₈ h₉ hid hhash hsig hvault hnode hsign
  omega

/-- **The message cap is out of reach.** -/
theorem HeadAnnouncement.wireSize_le {ann : HeadAnnouncement}
    (hname : (Text.toUtf8 ann.vaultName).length ≤ 1024) : ann.wireSize ≤ maxMessageBytes := by
  have h₁ := uintSize_le ann.protocolVersion.toNat
  have h₂ := uintSize_le ann.timestamp.toNat
  have h₃ := uintSize_le ann.seq.toNat
  have h₄ := uintSize_le ann.configSeq.toNat
  have h₅ := uintSize_le (Text.toUtf8 ann.vaultName).length
  unfold wireSize textSize maxMessageBytes
  omega

/-! ## §2. Reading back. -/

/-- The fields that reading an announcement collects. -/
def HeadAnnouncement.fields (ann : HeadAnnouncement) : HeadFields where
  protocolVersion := some ann.protocolVersion.toNat
  vaultId := some ann.vaultId
  vaultName := some ann.vaultName
  head := some ann.head
  timestamp := some ann.timestamp.toNat
  nodeId := some ann.nodeId
  seq := some ann.seq.toNat
  configSeq := some ann.configSeq.toNat
  signature := some ann.signature
  lastK := some 9

theorem announcementOfFields_fields (ann : HeadAnnouncement) :
    announcementOfFields ann.fields = .ok ann := by
  simp [announcementOfFields, HeadAnnouncement.fields, require, Bind.bind, Except.bind, Pure.pure,
    Except.pure]

namespace Decodes

open Cursor

theorem readFixed {n : Nat} (complaint : String) (b : { b : Bytes // b.length = n }) :
    Decodes (Soal.readFixed n complaint) (writeBstr b.val) b := by
  refine (readBstr b.val).bind_nil ?_
  rw [dif_pos b.property]
  exact pure b

theorem headField {acc acc' : HeadFields} {k : Nat} {b : Bytes}
    (hk : ∀ prev ∈ acc.lastK, prev < k) (hk' : k < usizeBound)
    (h : Decodes (readHeadValue { acc with lastK := some k } k) b acc') :
    Decodes (readHeadField acc) (writeU64 k ++ b) acc' :=
  (readU64Value hk').bind ((checkAscending hk).nil_bind h)

theorem headStep {n : Nat} {acc acc' acc'' : HeadFields} {b b' : Bytes}
    (h : Decodes (readHeadField acc) b acc') (h' : Decodes (readHeadFields n acc') b' acc'') :
    Decodes (readHeadFields (n + 1) acc) (b ++ b') acc'' :=
  turn.nil_bind (h.bind h')

/-- The nine keys of an announcement read back in order. -/
theorem headBody (ann : HeadAnnouncement) :
    Decodes readHeadBody (encodeHeadFields ann) ann.fields := by
  refine (readMapHeader (n := 9) (by decide)).bind ?_
  -- one step per key: `f₁` … `f₈` are the fields after keys 1 … 8
  let f₁ : HeadFields :=
    { HeadFields.none with protocolVersion := some ann.protocolVersion.toNat, lastK := some 1 }
  let f₂ : HeadFields := { f₁ with vaultId := some ann.vaultId, lastK := some 2 }
  let f₃ : HeadFields := { f₂ with vaultName := some ann.vaultName, lastK := some 3 }
  let f₄ : HeadFields := { f₃ with head := some ann.head, lastK := some 4 }
  let f₅ : HeadFields := { f₄ with timestamp := some ann.timestamp.toNat, lastK := some 5 }
  let f₆ : HeadFields := { f₅ with nodeId := some ann.nodeId, lastK := some 6 }
  let f₇ : HeadFields := { f₆ with seq := some ann.seq.toNat, lastK := some 7 }
  let f₈ : HeadFields := { f₇ with configSeq := some ann.configSeq.toNat, lastK := some 8 }
  have h₁ : Decodes (readHeadField .none)
      (writeU64 1 ++ writeU64 ann.protocolVersion.toNat) f₁ :=
    headField (by simp [HeadFields.none]) (by decide)
      ((readU64Value (uint64_lt _)).bind_nil (pure _))
  have h₂ : Decodes (readHeadField f₁) (writeU64 2 ++ writeBstr ann.vaultId.val) f₂ :=
    headField (by simp [f₁]) (by decide) ((readFixed _ ann.vaultId).bind_nil (pure _))
  have h₃ : Decodes (readHeadField f₂) (writeU64 3 ++ writeTstr ann.vaultName) f₃ :=
    headField (by simp [f₂]) (by decide) ((readTstr _).bind_nil (pure _))
  have h₄ : Decodes (readHeadField f₃) (writeU64 4 ++ writeBstr ann.head.bytes) f₄ :=
    headField (by simp [f₃]) (by decide) ((readHash _ ann.head).bind_nil (pure _))
  have h₅ : Decodes (readHeadField f₄) (writeU64 5 ++ writeU64 ann.timestamp.toNat) f₅ :=
    headField (by simp [f₄]) (by decide) ((readU64Value (uint64_lt _)).bind_nil (pure _))
  have h₆ : Decodes (readHeadField f₅) (writeU64 6 ++ writeBstr ann.nodeId.val) f₆ :=
    headField (by simp [f₅]) (by decide) ((readFixed _ ann.nodeId).bind_nil (pure _))
  have h₇ : Decodes (readHeadField f₆) (writeU64 7 ++ writeU64 ann.seq.toNat) f₇ :=
    headField (by simp [f₆]) (by decide) ((readU64Value (uint64_lt _)).bind_nil (pure _))
  have h₈ : Decodes (readHeadField f₇) (writeU64 8 ++ writeU64 ann.configSeq.toNat) f₈ :=
    headField (by simp [f₇]) (by decide) ((readU64Value (uint64_lt _)).bind_nil (pure _))
  have h₉ : Decodes (readHeadField f₈) (writeU64 9 ++ writeBstr ann.signature.val) ann.fields :=
    headField (by simp [f₈]) (by decide) ((readFixed _ ann.signature).bind_nil (pure _))
  have h := headStep h₁ (headStep h₂ (headStep h₃ (headStep h₄ (headStep h₅ (headStep h₆
    (headStep h₇ (headStep h₈ (headStep (n := 0) h₉ (pure _)))))))))
  show Decodes (readHeadFields 9 .none) _ _
  simpa only [List.append_assoc, List.append_nil] using h

end Decodes

/-! ## §3. The round trip. -/

/-- **Announcement round trip**: an announcement whose name has at most 1024 bytes is encoded within
the message cap and decodes to itself, so both sides agree on whether it is signed, on what is signed,
and on whether the signature holds. -/
theorem headAnnouncement_roundTrip [Crates] (ann : HeadAnnouncement)
    (hname : (Text.toUtf8 ann.vaultName).length ≤ 1024) : ∃ b ann',
    encodeHeadAnnouncement ann = .ok b ∧ b.length ≤ maxMessageBytes ∧
      decodeHeadAnnouncement b = .ok ann' ∧ ann' = ann ∧ ann'.isSigned = ann.isSigned ∧
      headSignMessage ann' = headSignMessage ann ∧
      verifyHeadAnnouncement ann' = verifyHeadAnnouncement ann := by
  have hlen : (encodeHeadFields ann).length ≤ maxMessageBytes := by
    rw [encodeHeadFields_length]
    exact HeadAnnouncement.wireSize_le hname
  refine ⟨encodeHeadFields ann, ann, ?_, hlen, ?_, rfl, rfl, rfl, rfl⟩
  · unfold encodeHeadAnnouncement
    rw [if_neg (by omega)]
    exact if_neg (by omega)
  · have hfit : (encodeHeadFields ann).length ≤ isizeMax :=
      le_trans hlen (by decide)
    unfold decodeHeadAnnouncement
    rw [if_neg (by omega), (Decodes.headBody ann).decodeAll hfit]
    exact announcementOfFields_fields ann

/-- An unsigned announcement with the largest numbers. -/
def largestAnnouncement : HeadAnnouncement where
  protocolVersion := .ofNat (2 ^ 64 - 1)
  vaultId := ⟨List.replicate 16 255, rfl⟩
  vaultName := "photos"
  head := ⟨List.replicate 32 255, rfl⟩
  timestamp := .ofNat (2 ^ 64 - 1)
  nodeId := ⟨List.replicate 32 255, rfl⟩
  seq := .ofNat (2 ^ 64 - 1)
  configSeq := .ofNat (2 ^ 64 - 1)
  signature := ⟨zeroSignature, rfl⟩

theorem largestAnnouncement_roundTrip : ∃ b, encodeHeadAnnouncement largestAnnouncement = .ok b ∧
    decodeHeadAnnouncement b = .ok largestAnnouncement := by
  have hname : (Text.toUtf8 largestAnnouncement.vaultName).length ≤ 1024 := by decide
  obtain ⟨b, ann', hb, -, hann, rfl, -⟩ :=
    @headAnnouncement_roundTrip (standIn sampleDigest) largestAnnouncement hname
  exact ⟨b, hb, hann⟩

end Soal

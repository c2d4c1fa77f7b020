/-
  Soal.Codec.Sizes — how long the wire forms of trees and commits are, to the byte.

  A tree grows with its paths and its chunk lists, a commit with its message and its parents; the rest
  is integer heads of one to nine bytes.
-/
import Soal.Codec.RoundTrip

namespace Soal

open FileProg (Bytes)

/-! ## §1. Heads and strings. -/

/-- Bytes of the shortest head for a value. -/
def uintSize (v : Nat) : Nat :=
  if v < 24 then 1 else if v ≤ 0xff then 2 else if v ≤ 0xffff then 3
  else if v ≤ 0xffffffff then 5 else 9

@[simp] theorem pushUint_length (major v : Nat) : (pushUint major v).length = uintSize v := by
  unfold pushUint uintSize
  split_ifs <;> simp

/-- Bytes of a text with its head. -/
def textSize (s : String) : Nat := uintSize (Text.toUtf8 s).length + (Text.toUtf8 s).length

@[simp] theorem writeTstr_length (s : String) : (writeTstr s).length = textSize s := by
  rw [writeTstr, List.length_append, pushUint_length, textSize]

@[simp] theorem writeBstr_length (b : Bytes) :
    (writeBstr b).length = uintSize b.length + b.length := by
  rw [writeBstr, List.length_append, pushUint_length]

/-! ## §2. Trees. -/

/-- Bytes of a tree entry: 34 for each chunk. -/
def entrySize : String × TreeEntry → Nat
  | (path, .file size chunks) =>
      textSize path + uintSize size.toNat + uintSize chunks.length + 34 * chunks.length + 5
  | (path, .dir _) => textSize path + 38

/-- Bytes of the wire form of a tree. -/
def Tree.wireSize (tree : Tree) : Nat :=
  18 + uintSize tree.entries.size + (tree.entries.entries.map entrySize).sum

theorem encodeTreeEntry_length (p : String × TreeEntry) :
    (encodeTreeEntry p).length = entrySize p := by
  obtain ⟨path, entry⟩ := p
  have hsmall : uintSize 0 = 1 ∧ uintSize 1 = 1 ∧ uintSize 2 = 1 ∧ uintSize 3 = 1 := by decide
  obtain ⟨h₀, h₁, h₂, h₃⟩ := hsmall
  cases entry with
  | file size chunks =>
    simp only [encodeTreeEntry, List.length_append, writeMapHeader, writeU64, writeArrayHeader,
      pushUint_length, writeTstr_length, Decodes.encodeHashes_length, entrySize, h₀, h₁, h₂, h₃]
    omega
  | dir hash =>
    have hhash : uintSize 32 = 2 := by decide
    simp only [encodeTreeEntry, List.length_append, writeMapHeader, writeU64, pushUint_length,
      writeTstr_length, writeBstr_length, hash.length_eq, entrySize, h₁, h₂, hhash]

theorem encodeTreeEntries_length (es : List (String × TreeEntry)) :
    (es.flatMap encodeTreeEntry).length = (es.map entrySize).sum := by
  induction es with
  | nil => rfl
  | cons p es ih =>
    rw [List.flatMap_cons, List.length_append, encodeTreeEntry_length, ih, List.map_cons,
      List.sum_cons]

/-- **The size of a tree's wire form.** -/
theorem encodeTreeWire_length {tree : Tree} {bytes : Bytes} (h : encodeTreeWire tree = .ok bytes) :
    bytes.length = tree.wireSize := by
  obtain ⟨body, hbody, h⟩ := bind_ok_iff.1 h
  obtain ⟨rfl, -⟩ := frame_ok_iff.1 h
  unfold encodeTreeBody at hbody
  split at hbody
  next => cases hbody
  next =>
    obtain ⟨rfl, -⟩ := vec_ok_iff.1 hbody
    have h₁ : uintSize 1 = 1 := by decide
    simp only [List.length_append, domainTree_length, writeMapHeader, writeU64, pushUint_length,
      encodeTreeEntries_length, h₁, Tree.wireSize]
    omega

/-! ## §3. Commits. -/

/-- Bytes of a commit with this message, so many parents and this time, of version 1. -/
def commitSize (message : String) (parents : Nat) (timestamp : UInt64) : Nat :=
  159 + textSize message + uintSize parents + 34 * parents + uintSize timestamp.toNat

section

variable [Crates]

/-- **The size of a commit's wire form.** -/
theorem encodeCommitWire_length {c : Commit} {bytes : Bytes} (h : encodeCommitWire c = .ok bytes)
    (hv : c.wireVersion = 1) :
    bytes.length = commitSize c.message c.parents.length c.timestamp := by
  obtain ⟨body, hbody, h⟩ := bind_ok_iff.1 h
  obtain ⟨rfl, -⟩ := frame_ok_iff.1 h
  unfold encodeCommitBody at hbody
  split at hbody
  next => cases hbody
  next =>
    obtain ⟨rfl, -⟩ := vec_ok_iff.1 hbody
    have hkeys : uintSize 1 = 1 ∧ uintSize 2 = 1 ∧ uintSize 3 = 1 ∧ uintSize 4 = 1 ∧
        uintSize 5 = 1 ∧ uintSize 6 = 1 ∧ uintSize 7 = 1 ∧ uintSize 32 = 2 ∧ uintSize 64 = 2 := by
      decide
    obtain ⟨h₁, h₂, h₃, h₄, h₅, h₆, h₇, hhash, hsig⟩ := hkeys
    simp only [encodeCommitFields, List.length_append, domainCommit_length, writeMapHeader, writeU64,
      writeArrayHeader, pushUint_length, writeTstr_length, writeBstr_length, ContentHash.length_eq,
      Decodes.encodeHashes_length, c.signatureBytes_length, hv, h₁, h₂, h₃, h₄, h₅, h₆, h₇, hhash,
      hsig, commitSize]
    omega

end

end Soal

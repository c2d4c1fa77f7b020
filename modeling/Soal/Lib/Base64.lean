/-
  Soal.Lib.Base64 — base64 over the URL-safe alphabet.

  Three bytes are four digits of six bits.  Of a last group of one or two bytes only the digits that
  carry bits are written, and the bits that are left over must be zero.  The padded form fills the last
  group with `=`.

  Nothing here names what is encoded.
-/
import Soal.Lib.Text

namespace Base64

/-! ## §1. Digits. -/

/-- The digit of a six-bit number. -/
def digit (n : Nat) : Char :=
  if n < 26 then Char.ofNat (65 + n)
  else if n < 52 then Char.ofNat (71 + n)
  else if n < 62 then Char.ofNat (n - 4)
  else if n = 62 then '-' else '_'

/-- The number of a digit. -/
def value (c : Char) : Option Nat :=
  if 'A' ≤ c ∧ c ≤ 'Z' then some (c.toNat - 65)
  else if 'a' ≤ c ∧ c ≤ 'z' then some (c.toNat - 71)
  else if '0' ≤ c ∧ c ≤ '9' then some (c.toNat + 4)
  else if c = '-' then some 62
  else if c = '_' then some 63 else none

theorem value_digit : ∀ n < 64, value (digit n) = some n := by decide

/-- A digit is no white space and opens no object. -/
theorem digit_plain : ∀ n < 64, Text.isWhiteSpace (digit n) = false ∧ digit n ≠ '\x7b' := by decide

/-! ## §2. Encoding. -/

def encode : List UInt8 → List Char
  | [] => []
  | [a] => [digit (a.toNat / 4), digit (a.toNat % 4 * 16)]
  | [a, b] => [digit (a.toNat / 4), digit (a.toNat % 4 * 16 + b.toNat / 16),
      digit (b.toNat % 16 * 4)]
  | a :: b :: c :: rest => digit (a.toNat / 4) :: digit (a.toNat % 4 * 16 + b.toNat / 16) ::
      digit (b.toNat % 16 * 4 + c.toNat / 64) :: digit (c.toNat % 64) :: encode rest

/-- Every symbol of an encoding is a digit. -/
theorem mem_encode {c : Char} : ∀ {b : List UInt8}, c ∈ encode b → ∃ n < 64, c = digit n
  | [], h => by cases h
  | [x], h => by
    have hx := x.toNat_lt
    simp only [encode, List.mem_cons, List.not_mem_nil, or_false] at h
    rcases h with rfl | rfl
    · exact ⟨_, by omega, rfl⟩
    · exact ⟨_, by omega, rfl⟩
  | [x, y], h => by
    have hx := x.toNat_lt
    have hy := y.toNat_lt
    simp only [encode, List.mem_cons, List.not_mem_nil, or_false] at h
    rcases h with rfl | rfl | rfl
    · exact ⟨_, by omega, rfl⟩
    · exact ⟨_, by omega, rfl⟩
    · exact ⟨_, by omega, rfl⟩
  | x :: y :: z :: rest, h => by
    have hx := x.toNat_lt
    have hy := y.toNat_lt
    have hz := z.toNat_lt
    simp only [encode, List.mem_cons] at h
    rcases h with rfl | rfl | rfl | rfl | h
    · exact ⟨_, by omega, rfl⟩
    · exact ⟨_, by omega, rfl⟩
    · exact ⟨_, by omega, rfl⟩
    · exact ⟨_, by omega, rfl⟩
    · exact mem_encode h

/-! ## §3. Decoding. -/

/-- Decode without padding. -/
def decode : List Char → Option (List UInt8)
  | [] => some []
  | [_] => none
  | [p, q] => do
      let x ← value p
      let y ← value q
      if y % 16 = 0 then some [.ofNat (x * 4 + y / 16)] else none
  | [p, q, r] => do
      let x ← value p
      let y ← value q
      let z ← value r
      if z % 4 = 0 then some [.ofNat (x * 4 + y / 16), .ofNat (y % 16 * 16 + z / 4)] else none
  | p :: q :: r :: s :: rest => do
      let x ← value p
      let y ← value q
      let z ← value r
      let u ← value s
      let tail ← decode rest
      some (.ofNat (x * 4 + y / 16) :: .ofNat (y % 16 * 16 + z / 4) :: .ofNat (z % 4 * 64 + u) :: tail)

/-- Decode with the padding that fills the last group. -/
def decodePadded (s : List Char) : Option (List UInt8) :=
  if s.length % 4 ≠ 0 then none
  else if ['=', '='].isSuffixOf s then decode (s.take (s.length - 2))
  else if ['='].isSuffixOf s then decode (s.take (s.length - 1))
  else decode s

/-- A byte from its value. -/
theorem ofNat_eq {n : Nat} {a : UInt8} (h : n = a.toNat) : UInt8.ofNat n = a := by
  rw [h, UInt8.ofNat_toNat]

/-- **Decoding undoes encoding.** -/
theorem decode_encode : ∀ b : List UInt8, decode (encode b) = some b
  | [] => rfl
  | [x] => by
    have hx := x.toNat_lt
    show (value (digit _) >>= fun p => value (digit _) >>= fun q => _) = _
    rw [value_digit _ (by omega), value_digit _ (by omega)]
    show (if _ then some [UInt8.ofNat _] else none) = _
    rw [if_pos (by omega), ofNat_eq (a := x) (by omega)]
  | [x, y] => by
    have hx := x.toNat_lt
    have hy := y.toNat_lt
    show (value (digit _) >>= fun p => value (digit _) >>= fun q => value (digit _) >>= fun r => _) = _
    rw [value_digit _ (by omega), value_digit _ (by omega), value_digit _ (by omega)]
    show (if _ then some [UInt8.ofNat _, UInt8.ofNat _] else none) = _
    rw [if_pos (by omega), ofNat_eq (a := x) (by omega), ofNat_eq (a := y) (by omega)]
  | x :: y :: z :: rest => by
    have hx := x.toNat_lt
    have hy := y.toNat_lt
    have hz := z.toNat_lt
    have ih := decode_encode rest
    show (value (digit _) >>= fun p => value (digit _) >>= fun q => value (digit _) >>= fun r =>
      value (digit _) >>= fun s => decode (encode rest) >>= fun t => _) = _
    rw [value_digit _ (by omega), value_digit _ (by omega), value_digit _ (by omega),
      value_digit _ (by omega), ih]
    show some (UInt8.ofNat _ :: UInt8.ofNat _ :: UInt8.ofNat _ :: rest) = _
    rw [ofNat_eq (a := x) (by omega), ofNat_eq (a := y) (by omega), ofNat_eq (a := z) (by omega)]

end Base64

/-
  Soal.Lib.Text — the text formats of small metadata files: UTF-8, hex, trimming, lines.

  Strings are sequences of Unicode scalar values, files are sequences of bytes; `toUtf8` and
  `fromUtf8` go between them.
-/
import Mathlib.Data.List.DropRight
import Mathlib.Data.String.Basic

namespace Text

/-! ## §1. UTF-8. -/

/-- The bytes of a string. -/
def toUtf8 (s : String) : List UInt8 := s.toByteArray.data.toList

/-- Decode bytes; `none` when they are not well-formed UTF-8. -/
def fromUtf8 (b : List UInt8) : Option String :=
  if h : (ByteArray.mk b.toArray).IsValidUTF8 then some (.ofByteArray ⟨b.toArray⟩ h) else none

@[simp] theorem fromUtf8_toUtf8 (s : String) : fromUtf8 (toUtf8 s) = some s := by
  have h : (ByteArray.mk (toUtf8 s).toArray) = s.toByteArray := by
    show ByteArray.mk s.toByteArray.data.toList.toArray = s.toByteArray
    rfl
  unfold fromUtf8
  rw [dif_pos (h ▸ s.isValidUTF8)]
  congr 1

theorem toUtf8_of_fromUtf8 {b : List UInt8} {s : String} (h : fromUtf8 b = some s) :
    toUtf8 s = b := by
  unfold fromUtf8 at h
  split at h
  · injection h with h
    subst h
    rfl
  · cases h

theorem toUtf8_injective : Function.Injective toUtf8 := fun s t h => by
  have := congrArg fromUtf8 h
  simpa using this

theorem toUtf8_ofList (l : List Char) :
    toUtf8 (String.ofList l) = l.flatMap String.utf8EncodeChar := by
  unfold toUtf8
  rw [String.toByteArray_ofList, List.utf8Encode]
  simp

theorem toUtf8_toList (s : String) : toUtf8 s = s.toList.flatMap String.utf8EncodeChar := by
  rw [← toUtf8_ofList, String.ofList_toList]

theorem toUtf8_append (s t : String) : toUtf8 (s ++ t) = toUtf8 s ++ toUtf8 t := by
  rw [toUtf8_toList, String.toList_append, List.flatMap_append, ← toUtf8_toList, ← toUtf8_toList]

/-- A byte below 128 in the encoding of a character is the character itself. -/
theorem ascii_of_mem {c : Char} {b : UInt8} (hb : b.toNat < 128)
    (h : b ∈ String.utf8EncodeChar c) : c.toNat = b.toNat := by
  unfold String.utf8EncodeChar at h
  dsimp only at h
  split at h
  · obtain rfl := List.mem_singleton.1 h
    rw [UInt8.toNat_ofNat']
    show c.val.toNat = c.val.toNat % 256
    omega
  · -- every byte of a longer encoding is at least 128
    exfalso
    split at h
    · simp only [List.mem_cons, List.not_mem_nil, or_false] at h
      rcases h with rfl | rfl <;> rw [UInt8.toNat_ofNat'] at hb <;> omega
    · split at h
      · simp only [List.mem_cons, List.not_mem_nil, or_false] at h
        rcases h with rfl | rfl | rfl <;> rw [UInt8.toNat_ofNat'] at hb <;> omega
      · simp only [List.mem_cons, List.not_mem_nil, or_false] at h
        rcases h with rfl | rfl | rfl | rfl <;> rw [UInt8.toNat_ofNat'] at hb <;> omega

/-- The bytes of a text hold a slash exactly where the text does. -/
theorem slash_mem_toUtf8 {s : String} : 0x2f ∈ toUtf8 s ↔ '/' ∈ s.toList := by
  rw [toUtf8_toList, List.mem_flatMap]
  constructor
  · intro h
    obtain ⟨c, hc, hb⟩ := h
    have hnat : c.toNat = '/'.toNat := ascii_of_mem (by decide) hb
    have heq : c = '/' := Char.toNat_inj.1 hnat
    exact heq ▸ hc
  · intro h
    exact ⟨'/', h, by decide⟩

theorem flatMap_intercalate {α β : Type} (f : α → List β) (sep : List α) (ls : List (List α)) :
    (sep.intercalate ls).flatMap f = (sep.flatMap f).intercalate (ls.map (List.flatMap f)) := by
  induction ls with
  | nil => rfl
  | cons l ls ih =>
    cases ls with
    | nil => simp
    | cons l' ls =>
      rw [List.intercalate_cons_cons, List.flatMap_append, List.flatMap_append, ih, List.map_cons,
        List.map_cons, List.map_cons, List.intercalate_cons_cons]

/-- Texts joined by slashes, as bytes. -/
theorem toUtf8_joined (names : List String) :
    toUtf8 (String.intercalate "/" names) = [0x2f].intercalate (names.map toUtf8) := by
  have hslash : ['/'].flatMap String.utf8EncodeChar = [0x2f] := by decide
  have hnames : names.map toUtf8 = (names.map String.toList).map
      (List.flatMap String.utf8EncodeChar) := by
    rw [List.map_map]
    exact List.map_congr_left fun s _ => toUtf8_toList s
  rw [toUtf8_toList, String.toList_intercalate, hnames, ← hslash]
  exact flatMap_intercalate _ _ _

/-- A piece of a split list does not hold the separator. -/
theorem not_mem_of_splitOn {α : Type} [DecidableEq α] {x : α} {xs l : List α}
    (h : l ∈ xs.splitOn x) : x ∉ l := by
  induction xs generalizing l with
  | nil =>
    rw [List.splitOn_nil, List.mem_singleton] at h
    rw [h]
    exact List.not_mem_nil
  | cons y xs ih =>
    rw [List.splitOn_cons_eq_if_modifyHead] at h
    split at h
    next =>
      rcases List.mem_cons.1 h with rfl | h
      · exact List.not_mem_nil
      · exact ih h
    next hy =>
      have hne : x ≠ y := fun heq => hy (by rw [heq, beq_self_eq_true])
      cases hsplit : xs.splitOn x with
      | nil => exact absurd hsplit (List.splitOn_ne_nil x xs)
      | cons piece pieces =>
        rw [hsplit] at h ih
        rcases List.mem_cons.1 h with rfl | h
        · intro hmem
          rcases List.mem_cons.1 hmem with heq | hmem
          · exact hne heq
          · exact ih List.mem_cons_self hmem
        · exact ih (List.mem_cons_of_mem _ h)

/-- A piece of a split list holds elements of the list. -/
theorem mem_of_mem_splitOn {α : Type} [DecidableEq α] {x y : α} {xs l : List α}
    (h : l ∈ xs.splitOn x) (hy : y ∈ l) : y ∈ xs := by
  induction xs generalizing l with
  | nil =>
    rw [List.splitOn_nil, List.mem_singleton] at h
    rw [h] at hy
    exact absurd hy List.not_mem_nil
  | cons z xs ih =>
    rw [List.splitOn_cons_eq_if_modifyHead] at h
    split at h
    next =>
      rcases List.mem_cons.1 h with rfl | h
      · exact absurd hy List.not_mem_nil
      · exact List.mem_cons_of_mem z (ih h hy)
    next =>
      cases hsplit : xs.splitOn x with
      | nil => exact absurd hsplit (List.splitOn_ne_nil x xs)
      | cons piece pieces =>
        rw [hsplit] at h ih
        rcases List.mem_cons.1 h with rfl | h
        · rcases List.mem_cons.1 hy with rfl | hy
          · exact List.mem_cons_self
          · exact List.mem_cons_of_mem z (ih List.mem_cons_self hy)
        · exact List.mem_cons_of_mem z (ih (List.mem_cons_of_mem piece h) hy)

/-- Bytes joined by slashes that are a text are texts joined by slashes. -/
theorem joined_of_toUtf8 {s : String} {parts : List (List UInt8)} (hne : parts ≠ [])
    (hp : ∀ p ∈ parts, 0x2f ∉ p) (h : toUtf8 s = [0x2f].intercalate parts) :
    ∃ names : List String, parts = names.map toUtf8 := by
  refine ⟨(s.toList.splitOn '/').map String.ofList, ?_⟩
  have hjoin : s = String.intercalate "/" ((s.toList.splitOn '/').map String.ofList) := by
    rw [← String.toList_inj, String.toList_intercalate, List.map_map]
    have hid : String.toList ∘ String.ofList = id := funext fun l => String.toList_ofList
    rw [hid, List.map_id]
    exact (List.intercalate_splitOn '/').symm
  have hpieces : ∀ b ∈ ((s.toList.splitOn '/').map String.ofList).map toUtf8, 0x2f ∉ b := by
    intro b hb hmem
    obtain ⟨name, hname, rfl⟩ := List.mem_map.1 hb
    obtain ⟨l, hl, rfl⟩ := List.mem_map.1 hname
    rw [slash_mem_toUtf8, String.toList_ofList] at hmem
    exact absurd hmem (not_mem_of_splitOn hl)
  have hnonempty : ((s.toList.splitOn '/').map String.ofList).map toUtf8 ≠ [] := by
    simp [List.splitOn_ne_nil]
  rw [hjoin, toUtf8_joined] at h
  have hsplit := congrArg (List.splitOn 0x2f) h
  rw [List.splitOn_intercalate _ hp hne, List.splitOn_intercalate _ hpieces hnonempty] at hsplit
  exact hsplit.symm

/-! ## §2. Trimming and lines. -/

/-- Unicode `White_Space`. -/
def isWhiteSpace (c : Char) : Bool :=
  let n := c.toNat
  (9 ≤ n && n ≤ 13) || n == 0x20 || n == 0x85 || n == 0xA0 || n == 0x1680
    || (0x2000 ≤ n && n ≤ 0x200A) || n == 0x2028 || n == 0x2029 || n == 0x202F || n == 0x205F
    || n == 0x3000

theorem not_isWhiteSpace {c : Char} (h : 32 < c.toNat ∧ c.toNat < 0x85) :
    isWhiteSpace c = false := by
  simp only [isWhiteSpace, Bool.or_eq_false_iff, Bool.and_eq_false_iff, decide_eq_false_iff_not,
    beq_eq_false_iff_ne]
  omega

/-- Drop white space at both ends. -/
def trim (s : List Char) : List Char := (s.dropWhile isWhiteSpace).rdropWhile isWhiteSpace

theorem trim_eq_self {s : List Char} (h : ∀ c ∈ s, isWhiteSpace c = false) : trim s = s := by
  have h₁ : s.dropWhile isWhiteSpace = s := by
    cases s with
    | nil => rfl
    | cons c s => simp [List.dropWhile, h c List.mem_cons_self]
  have h₂ : s.rdropWhile isWhiteSpace = s := by
    rw [List.rdropWhile_eq_self_iff]
    intro hl
    simp [h _ (List.getLast_mem hl)]
  rw [trim, h₁, h₂]

/-- Trimming only drops characters. -/
theorem trim_sublist (s : List Char) : (trim s).Sublist s :=
  (List.rdropWhile_prefix _ _).sublist.trans (List.dropWhile_sublist _)

/-- Trimming twice is trimming once. -/
theorem trim_trim (s : List Char) : trim (trim s) = trim s := by
  have hhead : (trim s).dropWhile isWhiteSpace = trim s := by
    rw [List.dropWhile_eq_self_iff]
    intro hpos
    -- what is left begins where the white space in front ends
    have hfront : trim s <+: s.dropWhile isWhiteSpace := List.rdropWhile_prefix _ _
    have hne : 0 < (s.dropWhile isWhiteSpace).length := lt_of_lt_of_le hpos hfront.length_le
    rw [List.IsPrefix.getElem hfront hpos]
    exact List.dropWhile_get_zero_not _ s hne
  show ((trim s).dropWhile isWhiteSpace).rdropWhile isWhiteSpace = trim s
  rw [hhead]
  exact List.rdropWhile_idempotent _ _

/-- Lines of a text, without their `\n` (and a `\r` before it); a final empty line does not
count. -/
def lines (s : List Char) : List (List Char) :=
  go s []
where
  /-- `cur` is the current line, reversed. -/
  go : List Char → List Char → List (List Char)
    | [], [] => []
    | [], cur => [cur.reverse]
    | c :: s, cur =>
        if c = '\n' then (match cur with
          | '\r' :: cur' => cur'.reverse
          | cur => cur.reverse) :: go s []
        else go s (c :: cur)

/-- Scanning a line that holds no line break. -/
theorem lines_go_append (l s cur : List Char) (h : '\n' ∉ l) :
    lines.go (l ++ s) cur = lines.go s (l.reverse ++ cur) := by
  induction l generalizing cur with
  | nil => rfl
  | cons c l ih =>
    rw [List.mem_cons, not_or] at h
    show (if c = '\n' then _ else lines.go (l ++ s) (c :: cur)) = _
    rw [if_neg (Ne.symm h.1), ih _ h.2]
    simp

/-- A terminated line is read back as written. -/
theorem lines_append {l : List Char} (s : List Char) (hn : '\n' ∉ l) (hr : '\r' ∉ l) :
    lines (l ++ '\n' :: s) = l :: lines s := by
  have hrev : '\r' ∉ l.reverse := by simpa using hr
  unfold lines
  rw [lines_go_append l _ [] hn, List.append_nil]
  show (match l.reverse with
    | '\r' :: cur' => cur'.reverse
    | cur => cur.reverse) :: lines.go s [] = _
  congr 1
  split
  next heq => exact absurd (heq ▸ List.mem_cons_self) hrev
  next => exact List.reverse_reverse l

/-! ## §3. Hex. -/

/-- Lower-case hex digit. -/
def hexDigit (n : Nat) : Char := if n < 10 then Char.ofNat (48 + n) else Char.ofNat (87 + n)

/-- Value of a hex digit of either case. -/
def hexVal (c : Char) : Option Nat :=
  let n := c.toNat
  if 48 ≤ n ∧ n ≤ 57 then some (n - 48)
  else if 97 ≤ n ∧ n ≤ 102 then some (n - 87)
  else if 65 ≤ n ∧ n ≤ 70 then some (n - 55)
  else none

/-- `char::is_ascii_hexdigit` -/
def isHexDigit (c : Char) : Bool := (hexVal c).isSome

/-- Two digits per byte, high nibble first. -/
def hexEncode : List UInt8 → List Char
  | [] => []
  | b :: bs => hexDigit (b.toNat / 16) :: hexDigit (b.toNat % 16) :: hexEncode bs

/-- Inverse of `hexEncode`; odd lengths and other characters are rejected. -/
def hexDecode : List Char → Option (List UInt8)
  | [] => some []
  | [_] => none
  | a :: b :: s => do
      let x ← hexVal a
      let y ← hexVal b
      let rest ← hexDecode s
      return UInt8.ofNat (16 * x + y) :: rest

theorem hexVal_hexDigit : ∀ n < 16, hexVal (hexDigit n) = some n := by decide

theorem isHexDigit_hexDigit : ∀ n < 16, isHexDigit (hexDigit n) = true := by decide

/-- Hex digits are neither white space nor line breaks nor path punctuation. -/
theorem hexDigit_plain : ∀ n < 16, isWhiteSpace (hexDigit n) = false ∧ hexDigit n ≠ '\n' ∧
    hexDigit n ≠ '\r' ∧ hexDigit n ≠ '.' := by decide

@[simp] theorem hexEncode_length (b : List UInt8) : (hexEncode b).length = 2 * b.length := by
  induction b with
  | nil => rfl
  | cons b bs ih => simp only [hexEncode, List.length_cons, ih]; omega

theorem mem_hexEncode {c : Char} : ∀ {b : List UInt8}, c ∈ hexEncode b → ∃ n < 16, c = hexDigit n
  | b :: bs, h => by
      simp only [hexEncode, List.mem_cons] at h
      rcases h with rfl | rfl | h
      · exact ⟨_, by have := b.toNat_lt; omega, rfl⟩
      · exact ⟨_, Nat.mod_lt _ (by decide), rfl⟩
      · exact mem_hexEncode h

/-- **Hex round trip.** -/
@[simp] theorem hexDecode_hexEncode (b : List UInt8) : hexDecode (hexEncode b) = some b := by
  induction b with
  | nil => rfl
  | cons b bs ih =>
    have hb := b.toNat_lt
    simp only [hexEncode, hexDecode, hexVal_hexDigit _ (show b.toNat / 16 < 16 by omega),
      hexVal_hexDigit _ (show b.toNat % 16 < 16 by omega), ih, Option.bind_eq_bind,
      Option.bind_some, Option.pure_def, Nat.div_add_mod, UInt8.ofNat_toNat]

theorem hexEncode_injective : Function.Injective hexEncode := fun a b h => by
  have := congrArg hexDecode h
  simpa using this

/-! ## §4. Letter case. -/

/-- `str::eq_ignore_ascii_case` -/
def eqIgnoreAsciiCase (s t : String) : Bool := s.toList.map Char.toLower == t.toList.map Char.toLower

theorem toLower_of_not_upper {c : Char} (h : ¬(c.val ≥ 'A'.val ∧ c.val ≤ 'Z'.val)) :
    c.toLower = c := dif_neg h

/-- An upper-case letter moves to its lower-case twin. -/
theorem toLower_of_upper {c : Char} (h : c.val ≥ 'A'.val ∧ c.val ≤ 'Z'.val) :
    65 ≤ c.toNat ∧ c.toNat ≤ 90 ∧ c.toLower.toNat = c.toNat + 32 := by
  have hrange : 65 ≤ c.toNat ∧ c.toNat ≤ 90 :=
    ⟨UInt32.le_iff_toNat_le.1 h.1, UInt32.le_iff_toNat_le.1 h.2⟩
  have hval : c.toLower.val = c.val + 32 := by
    unfold Char.toLower
    rw [dif_pos h]
    rfl
  have hadd : c.toLower.toNat = (c.toNat + 32) % 2 ^ 32 := by
    show c.toLower.val.toNat = _
    rw [hval, UInt32.toNat_add]
    rfl
  exact ⟨hrange.1, hrange.2, by omega⟩

/-- Lower-casing twice is lower-casing once. -/
theorem toLower_toLower (c : Char) : c.toLower.toLower = c.toLower := by
  by_cases h : c.val ≥ 'A'.val ∧ c.val ≤ 'Z'.val
  · obtain ⟨hge, hle, hlower⟩ := toLower_of_upper h
    refine toLower_of_not_upper fun h' => ?_
    have hle' := (toLower_of_upper h').2.1
    omega
  · rw [toLower_of_not_upper h, toLower_of_not_upper h]

/-- White space is no letter. -/
theorem isWhiteSpace_toLower (c : Char) : isWhiteSpace c.toLower = isWhiteSpace c := by
  by_cases h : c.val ≥ 'A'.val ∧ c.val ≤ 'Z'.val
  · obtain ⟨hge, hle, hlower⟩ := toLower_of_upper h
    rw [not_isWhiteSpace (by omega), not_isWhiteSpace (by omega)]
  · rw [toLower_of_not_upper h]

/-- Trimming and lower-casing commute. -/
theorem trim_map_toLower (s : List Char) : trim (s.map Char.toLower) = (trim s).map Char.toLower := by
  have hcomp : isWhiteSpace ∘ Char.toLower = isWhiteSpace := funext isWhiteSpace_toLower
  unfold trim List.rdropWhile
  rw [List.dropWhile_map, hcomp, ← List.map_reverse, List.dropWhile_map, hcomp, List.map_reverse]

theorem eqIgnoreAsciiCase_iff {s t : String} : eqIgnoreAsciiCase s t = true ↔
    s.toList.map Char.toLower = t.toList.map Char.toLower := beq_iff_eq

/-- `str::to_ascii_lowercase` -/
def toAsciiLowercase (s : String) : String := String.ofList (s.toList.map Char.toLower)

/-- Lower-casing one side of a comparison that ignores case changes nothing. -/
@[simp] theorem eqIgnoreAsciiCase_lowercase (s t : String) :
    eqIgnoreAsciiCase s (toAsciiLowercase t) = eqIgnoreAsciiCase s t := by
  have hmap : (t.toList.map Char.toLower).map Char.toLower = t.toList.map Char.toLower := by
    rw [List.map_map]
    exact List.map_congr_left fun c _ => toLower_toLower c
  unfold eqIgnoreAsciiCase toAsciiLowercase
  rw [String.toList_ofList, hmap]

/-! ## §5. Decimal numbers. -/

/-- `u64::to_string` -/
def printU64 (v : UInt64) : String := v.toNat.repr

/-- `str::parse::<u64>`: decimal digits, behind a `+` or not, that fit. -/
def parseU64 (s : List Char) : Option UInt64 :=
  let digits := match s with
    | '+' :: t => t
    | s => s
  if digits ≠ [] ∧ digits.all Char.isDigit ∧ Nat.ofDigitChars 10 digits 0 < 2 ^ 64 then
    some (.ofNat (Nat.ofDigitChars 10 digits 0))
  else none

theorem isDigit_plain {c : Char} (h : c.isDigit = true) : isWhiteSpace c = false ∧ c ≠ '+' := by
  have hrange : 48 ≤ c.toNat ∧ c.toNat ≤ 57 := by
    simpa [Char.isDigit, UInt32.le_iff_toNat_le] using h
  constructor
  · exact not_isWhiteSpace (by omega)
  · rintro rfl
    exact absurd hrange (by decide)

/-- A printed number reads back. -/
@[simp] theorem parseU64_printU64 (v : UInt64) : parseU64 (trim (printU64 v).toList) = some v := by
  have hdigits : ∀ c ∈ Nat.toDigits 10 v.toNat, c.isDigit = true := fun c hc =>
    Nat.isDigit_of_mem_toDigits (by decide) (by decide) hc
  have htrim : trim (printU64 v).toList = Nat.toDigits 10 v.toNat := by
    rw [printU64, Nat.toList_repr]
    exact trim_eq_self fun c hc => (isDigit_plain (hdigits c hc)).1
  have hsign : (match Nat.toDigits 10 v.toNat with
      | '+' :: t => t
      | s => s) = Nat.toDigits 10 v.toNat := by
    split
    next t heq => exact absurd rfl (isDigit_plain (hdigits '+' (heq ▸ List.mem_cons_self))).2
    next => rfl
  have hval : Nat.ofDigitChars 10 (Nat.toDigits 10 v.toNat) 0 = v.toNat :=
    Nat.ofDigitChars_ten_toDigits
  rw [htrim]
  unfold parseU64
  simp only [hsign, hval]
  rw [if_pos ⟨Nat.toDigits_ne_nil, List.all_eq_true.2 hdigits, v.toNat_lt⟩, UInt64.ofNat_toNat]

end Text

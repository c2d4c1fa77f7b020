/-
  Soal.Codec.Cbor — deterministic CBOR: the integer and string writers, the cursor, and that the
  cursor reads back what the writers wrote.

  Lengths and positions are 64-bit (`usize`).  `Cursor::take` adds a declared length to the position
  before it compares: an addition that leaves `usize` is a panic here (a debug build traps the
  overflow, a release build wraps and then slices backwards).  A buffer beyond `isize::MAX` is a
  capacity panic.
-/
import Mathlib.Tactic.Ring
import Soal.Crates

namespace Soal

open FileProg

/-! ## §1. Writers. -/

def usizeBound : Nat := 2 ^ 64

def isizeMax : Nat := 2 ^ 63 - 1

/-- A `Vec<u8>` never outgrows `isize::MAX` bytes. -/
def vec (b : Bytes) : Res Bytes := if b.length ≤ isizeMax then .ok b else .error .panic

/-- `to_be_bytes` of the low `8 * n` bits. -/
def beBytes : Nat → Nat → Bytes
  | 0, _ => []
  | n + 1, v => UInt8.ofNat (v / 256 ^ n) :: beBytes n v

/-- `from_be_bytes` -/
def beVal (b : Bytes) : Nat := b.foldl (fun acc x => 256 * acc + x.toNat) 0

/-- Initial byte `(major << 5) | info`. -/
def initialByte (major info : Nat) : UInt8 := UInt8.ofNat (32 * major + info)

/-- Shortest integer head. -/
def pushUint (major v : Nat) : Bytes :=
  if v < 24 then [initialByte major v]
  else if v ≤ 0xff then initialByte major 24 :: beBytes 1 v
  else if v ≤ 0xffff then initialByte major 25 :: beBytes 2 v
  else if v ≤ 0xffffffff then initialByte major 26 :: beBytes 4 v
  else initialByte major 27 :: beBytes 8 v

def writeU64 (v : Nat) : Bytes := pushUint 0 v

def writeBstr (data : Bytes) : Bytes := pushUint 2 data.length ++ data

def writeTstr (s : String) : Bytes := pushUint 3 (Text.toUtf8 s).length ++ Text.toUtf8 s

def writeArrayHeader (len : Nat) : Bytes := pushUint 4 len

def writeMapHeader (len : Nat) : Bytes := pushUint 5 len

/-! ## §2. The cursor. -/

/-- What a reader asks for. -/
inductive CursorOp where
  /-- `Cursor::take(n)` -/
  | take (n : Nat)
  /-- `Cursor::finish` -/
  | finish
  /-- `Vec::with_capacity(n)` of 32-byte elements -/
  | withCapacity (n : Nat)
  /-- the next iteration of a `for _ in 0..n` -/
  | turn

def cursorSig : Signature where
  Op := CursorOp
  Reply
    | .take _ => Bytes
    | .finish => Unit
    | .withCapacity _ => Unit
    | .turn => Unit

/-- A reader of the cursor. -/
abbrev Reader (α : Type) := Prog cursorSig Fault α

/-- Position, and what is left to read from it. -/
structure Cursor where
  pos : Nat
  rest : Bytes

/-- The target the program runs on, and one whose numbers and memory have no end. -/
inductive Machine where
  | bits64
  | unbounded
  deriving DecidableEq

namespace Cursor

/-- One request. -/
def step (m : Machine) (c : Cursor) : (op : CursorOp) → Res (cursorSig.Reply op × Cursor)
  | .take n =>
      if m = .bits64 ∧ usizeBound ≤ c.pos + n then .error .panic
      else if c.rest.length < n then fail (.verify "CBOR truncated")
      else .ok (c.rest.take n, ⟨c.pos + n, c.rest.drop n⟩)
  | .finish => if c.rest.isEmpty then .ok ((), c) else fail (.verify "trailing CBOR bytes")
  | .withCapacity n => if m = .bits64 ∧ isizeMax < n * 32 then .error .panic else .ok ((), c)
  | .turn => .ok ((), c)

/-- Run a reader from a cursor. -/
def run {α : Type} (m : Machine) : Reader α → Cursor → Res (α × Cursor)
  | .done r, c => r.map (fun a => (a, c))
  | .step op k, c => (step m c op).bind (fun p => run m (k p.1) p.2)

/-- The requests of a run, each with the cursor it was made at. -/
def requests {α : Type} (m : Machine) : Reader α → Cursor → List (Cursor × CursorOp)
  | .done _, _ => []
  | .step op k, c =>
      (c, op) :: (step m c op).toOption.elim [] (fun p => requests m (k p.1) p.2)

/-- `Cursor::take` -/
def take (n : Nat) : Reader Bytes := .request (S := cursorSig) (.take n)

/-- `Err(e)` in a reader. -/
def reject {α : Type} (e : SoalError) : Reader α := abort e

def takeU8 : Reader Nat := do
  let b ← take 1
  return (b.headD 0).toNat

/-- The value after the initial byte, by its additional information. -/
def readArg (major ai : Nat) : Reader (Nat × Nat) :=
  if ai < 24 then return (major, ai)
  else if ai = 24 then return (major, ← takeU8)
  else if ai = 25 then return (major, beVal (← take 2))
  else if ai = 26 then return (major, beVal (← take 4))
  else if ai = 27 then return (major, beVal (← take 8))
  else reject (.verify "indefinite/reserved CBOR not allowed")

/-- Head of an item: major type and value.  Any of the five widths is accepted. -/
def readUint : Reader (Nat × Nat) := do
  let b ← takeU8
  readArg (b / 32) (b % 32)

def expectMajorUint (wantMajor : Nat) : Reader Nat := do
  let (major, v) ← readUint
  if major ≠ wantMajor then
    reject (.verify ("CBOR major type " ++ toString major ++ ", expected " ++ toString wantMajor))
  else return v

def readBstr : Reader Bytes := do
  let len ← expectMajorUint 2
  take len

def readTstr : Reader String := do
  let len ← expectMajorUint 3
  let bytes ← take len
  match Text.fromUtf8 bytes with
  | some s => return s
  | none => reject (.verify "CBOR tstr not UTF-8")

def readArrayHeader : Reader Nat := expectMajorUint 4

def readMapHeader : Reader Nat := expectMajorUint 5

def readU64Value : Reader Nat := expectMajorUint 0

/-- A byte string of exactly 32 bytes, as a hash. -/
def readHash (complaint : String) : Reader ContentHash := do
  let b ← readBstr
  if h : b.length = 32 then return ⟨b, h⟩ else reject (.verify complaint)

def finish : Reader Unit := .request (S := cursorSig) .finish

/-- Another turn of a loop. -/
def turn : Reader Unit := .request (S := cursorSig) .turn

/-- Read a whole byte string. -/
def decodeAll {α : Type} (r : Reader α) (data : Bytes) : Res α :=
  (run .bits64 r ⟨0, data⟩).map Prod.fst

/-- Running is a homomorphism. -/
@[simp] theorem run_bind {α β : Type} (m : Machine) (r : Reader α) (f : α → Reader β) (c : Cursor) :
    run m (r >>= f) c = (run m r c).bind (fun p => run m (f p.1) p.2) := by
  induction r generalizing c with
  | done r => cases r <;> rfl
  | step op k ih =>
    show (step m c op).bind (fun p => run m (k p.1 >>= f) p.2) =
      ((step m c op).bind fun p => run m (k p.1) p.2).bind _
    cases step m c op with
    | error e => rfl
    | ok p => exact ih p.1 p.2

end Cursor

/-! ## §3. Big-endian numbers. -/

@[simp] theorem beBytes_length (n v : Nat) : (beBytes n v).length = n := by
  induction n with
  | zero => rfl
  | succ n ih => simp [beBytes, ih]

theorem foldl_beBytes (n v acc : Nat) :
    (beBytes n v).foldl (fun acc x => 256 * acc + x.toNat) acc = acc * 256 ^ n + v % 256 ^ n := by
  induction n generalizing acc with
  | zero => simp [beBytes, Nat.mod_one]
  | succ n ih =>
    simp only [beBytes, List.foldl_cons, ih, UInt8.toNat_ofNat']
    have hmod : v % 256 ^ (n + 1) = 256 ^ n * (v / 256 ^ n % 256) + v % 256 ^ n := by
      rw [pow_succ, Nat.mod_mul, Nat.add_comm]
    rw [hmod]
    ring

theorem beVal_beBytes (n v : Nat) (h : v < 256 ^ n) : beVal (beBytes n v) = v := by
  rw [beVal, foldl_beBytes, Nat.mod_eq_of_lt h]
  simp

/-! ## §4. Readers undo writers. -/

open Cursor (run) in
/-- `r` reads exactly the bytes `b`, as `a`, wherever they stand in a buffer. -/
def Decodes {α : Type} (r : Reader α) (b : Bytes) (a : α) : Prop :=
  ∀ pos rest, pos + b.length + rest.length ≤ isizeMax →
    run .bits64 r ⟨pos, b ++ rest⟩ = .ok (a, ⟨pos + b.length, rest⟩)

namespace Decodes

open Cursor

variable {α β : Type}

theorem pure (a : α) : Decodes (Pure.pure a : Reader α) [] a := fun _ _ _ => rfl

/-- One reader after another reads one string after another. -/
theorem bind {r : Reader α} {f : α → Reader β} {b b' : Bytes} {a : α} {c : β}
    (hr : Decodes r b a) (hf : Decodes (f a) b' c) : Decodes (r >>= f) (b ++ b') c := by
  intro pos rest hlen
  rw [List.length_append] at hlen
  have h₁ := hr pos (b' ++ rest) (by rw [List.length_append]; omega)
  have h₂ := hf (pos + b.length) rest (by omega)
  rw [run_bind, List.append_assoc, h₁, ok_bind, h₂, List.length_append, Nat.add_assoc]

/-- A reader followed by one that consumes nothing. -/
theorem bind_nil {r : Reader α} {f : α → Reader β} {b : Bytes} {a : α} {c : β}
    (hr : Decodes r b a) (hf : Decodes (f a) [] c) : Decodes (r >>= f) b c := by
  have := hr.bind hf
  rwa [List.append_nil] at this

theorem take (b : Bytes) : Decodes (Cursor.take b.length) b b := by
  intro pos rest hlen
  have h₁ : ¬(Machine.bits64 = .bits64 ∧ usizeBound ≤ pos + b.length) := by
    unfold usizeBound
    unfold isizeMax at hlen
    omega
  have h₂ : ¬(b ++ rest).length < b.length := by rw [List.length_append]; omega
  show (step .bits64 ⟨pos, b ++ rest⟩ (.take b.length)).bind _ = _
  rw [step, if_neg h₁, if_neg h₂, List.take_left, List.drop_left]
  rfl

theorem takeU8 (x : UInt8) : Decodes Cursor.takeU8 [x] x.toNat :=
  (take [x]).bind_nil (pure _)

/-- The initial byte splits into major type and additional information. -/
theorem initialByte_toNat {major info : Nat} (hm : major < 8) (hi : info < 32) :
    (initialByte major info).toNat = 32 * major + info := by
  rw [initialByte, UInt8.toNat_ofNat', Nat.mod_eq_of_lt (by omega)]

/-- The initial byte selects how the value is read. -/
theorem readUint_of_arg {major info v : Nat} {b : Bytes} (hm : major < 8) (hi : info < 32)
    (h : Decodes (readArg major info) b (major, v)) :
    Decodes Cursor.readUint (initialByte major info :: b) (major, v) := by
  have hb := initialByte_toNat hm hi
  refine Decodes.bind (b := [initialByte major info]) (takeU8 (initialByte major info)) ?_
  rwa [hb, show (32 * major + info) / 32 = major by omega,
    show (32 * major + info) % 32 = info by omega]

/-- A big-endian argument of `n` bytes. -/
theorem take_beVal (major : Nat) {n v : Nat} (h : v < 256 ^ n) :
    Decodes (do return (major, beVal (← Cursor.take n)) : Reader (Nat × Nat)) (beBytes n v)
      (major, v) := by
  have ht := take (beBytes n v)
  rw [beBytes_length] at ht
  refine ht.bind_nil ?_
  rw [beVal_beBytes n v h]
  exact pure _

/-- A head of any width is read back. -/
theorem readUint {major v : Nat} (hm : major < 8) (hv : v < usizeBound) :
    Decodes Cursor.readUint (pushUint major v) (major, v) := by
  unfold pushUint
  split
  next h =>
    refine readUint_of_arg hm (by omega) ?_
    rw [readArg, if_pos h]
    exact pure _
  next =>
    split
    next h =>
      have hb : beBytes 1 v = [UInt8.ofNat v] := by simp [beBytes]
      have hn : (UInt8.ofNat v).toNat = v := by
        rw [UInt8.toNat_ofNat', Nat.mod_eq_of_lt (by omega)]
      rw [hb]
      refine readUint_of_arg hm (by omega) ((takeU8 (UInt8.ofNat v)).bind_nil ?_)
      rw [hn]
      exact pure _
    next =>
      split
      next h => exact readUint_of_arg hm (by omega) (take_beVal major (by omega))
      next =>
        split
        next h => exact readUint_of_arg hm (by omega) (take_beVal major (by omega))
        next =>
          exact readUint_of_arg hm (by omega)
            (take_beVal major (by unfold usizeBound at hv; omega))

theorem expectMajorUint {major v : Nat} (hm : major < 8) (hv : v < usizeBound) :
    Decodes (Cursor.expectMajorUint major) (pushUint major v) v := by
  refine (readUint hm hv).bind_nil ?_
  show Decodes (if major ≠ major then _ else _) [] v
  rw [if_neg (by simp)]
  exact pure v

theorem readU64Value {v : Nat} (hv : v < usizeBound) :
    Decodes Cursor.readU64Value (writeU64 v) v := expectMajorUint (by decide) hv

theorem readMapHeader {n : Nat} (hn : n < usizeBound) :
    Decodes Cursor.readMapHeader (writeMapHeader n) n := expectMajorUint (by decide) hn

theorem readArrayHeader {n : Nat} (hn : n < usizeBound) :
    Decodes Cursor.readArrayHeader (writeArrayHeader n) n := expectMajorUint (by decide) hn

/-- A fact about a string of bytes may assume that it fits a buffer. -/
theorem of_fits {r : Reader α} {b : Bytes} {a : α}
    (h : b.length ≤ isizeMax → Decodes r b a) : Decodes r b a :=
  fun pos rest hlen => h (by omega) pos rest hlen

theorem lt_usizeBound {n : Nat} (h : n ≤ isizeMax) : n < usizeBound :=
  lt_of_le_of_lt h (by decide)

theorem readBstr (b : Bytes) : Decodes Cursor.readBstr (writeBstr b) b := by
  refine of_fits fun hfit => (expectMajorUint (by decide) (lt_usizeBound ?_)).bind (take b)
  rw [writeBstr, List.length_append] at hfit
  omega

theorem readTstr (s : String) : Decodes Cursor.readTstr (writeTstr s) s := by
  refine of_fits fun hfit =>
    (expectMajorUint (by decide) (lt_usizeBound ?_)).bind ((take _).bind_nil ?_)
  · rw [writeTstr, List.length_append] at hfit
    omega
  · rw [Text.fromUtf8_toUtf8]
    exact pure s

theorem readHash (complaint : String) (h : ContentHash) :
    Decodes (Cursor.readHash complaint) (writeBstr h.bytes) h := by
  refine (readBstr h.bytes).bind_nil ?_
  rw [dif_pos h.length_eq]
  exact pure h

/-- A whole string that a reader reads to its end. -/
theorem decodeAll {r : Reader α} {b : Bytes} {a : α} (h : Decodes r b a)
    (hlen : b.length ≤ isizeMax) :
    Cursor.decodeAll (r >>= fun x => finish >>= fun _ => Pure.pure x) b = .ok a := by
  have hr := h 0 [] (by simpa using hlen)
  rw [List.append_nil] at hr
  unfold Cursor.decodeAll
  rw [run_bind, hr]
  rfl

end Decodes

end Soal

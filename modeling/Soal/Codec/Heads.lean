/-
  Soal.Codec.Heads — where a reader comes to the heads of an input.

  An input is read item by item, each head in any of the five widths.  `Takes` says of a reader which
  rows of items it takes (`Spelled` in any widths), and after which items the head of a string or of a list
  is due: its requests stay within the limits of the machine exactly when every head that is due declares
  something within bounds.
-/
import Soal.Codec.Canonical
import Soal.Codec.Safety

namespace Soal

open FileProg Cursor

/-! ## §1. Heads of any width. -/

/-- The head of an item: the initial byte, and the argument in one of the five widths. -/
inductive IsHead (major : Nat) : Nat → Bytes → Prop where
  | short {v : Nat} (hv : v < 24) : IsHead major v [initialByte major v]
  | long {info : Nat} {arg : Bytes}
      (hw : (info, arg.length) ∈ [(24, 1), (25, 2), (26, 4), (27, 8)]) :
      IsHead major (beVal arg) (initialByte major info :: arg)

/-- The bytes are these items, one after another. -/
inductive Spelled : List Datum → Bytes → Prop where
  | nil : Spelled [] []
  | cons {d : Datum} {ds : List Datum} {h b : Bytes} (hh : IsHead d.major d.argument h)
      (hb : Spelled ds b) : Spelled (d :: ds) (h ++ (d.payload ++ b))

theorem spelled_nil_iff {b : Bytes} : Spelled [] b ↔ b = [] := by
  constructor
  · intro h
    cases h
    rfl
  · rintro rfl
    exact .nil

theorem spelled_append_iff {ds ds' : List Datum} {b : Bytes} :
    Spelled (ds ++ ds') b ↔ ∃ b₁ b₂, b = b₁ ++ b₂ ∧ Spelled ds b₁ ∧ Spelled ds' b₂ := by
  induction ds generalizing b with
  | nil =>
    constructor
    · exact fun h => ⟨[], b, rfl, .nil, h⟩
    · rintro ⟨b₁, b₂, rfl, h₁, h₂⟩
      rw [spelled_nil_iff.1 h₁]
      exact h₂
  | cons d ds ih =>
    constructor
    · intro h
      cases h with
      | cons hh hb =>
        obtain ⟨b₁, b₂, rfl, h₁, h₂⟩ := ih.1 hb
        exact ⟨_, b₂, by simp only [List.append_assoc], .cons hh h₁, h₂⟩
    · rintro ⟨b₁, b₂, rfl, h₁, h₂⟩
      cases h₁ with
      | cons hh hb =>
        rw [List.append_assoc, List.append_assoc]
        exact .cons hh (ih.2 ⟨_, b₂, rfl, hb, h₂⟩)

/-- What a decoder sizes by a declared number: a string by its length, a list of hashes by its count,
unless that is beyond a cap. -/
inductive Due where
  | bstr
  | tstr
  | hashes (cap : Option Nat)

/-- The count is not beyond the cap. -/
def UpTo (cap : Option Nat) (v : Nat) : Prop := ∀ c ∈ cap, v ≤ c

namespace Due

def major : Due → Nat
  | bstr => 2
  | tstr => 3
  | hashes _ => 4

theorem major_lt (d : Due) : d.major < 8 := by
  cases d <;> simp [major]

/-- What the head declares is within bounds, for an input of `n` bytes and a head that ends at `q`: the
string ends below `2^64`, the list has no more members than the input has bytes. -/
def Bounded (n q v : Nat) : Due → Prop
  | bstr => q + v < usizeBound
  | tstr => q + v < usizeBound
  | hashes cap => UpTo cap v → v ≤ n ∧ v * 32 ≤ isizeMax

end Due

/-- In data that stands at `pos`, a head of this sort is due after whole items; it ends at `q` and
declares `v`. -/
def DueHead (next : List Datum → Due → Prop) (pos : Nat) (data : Bytes) (d : Due) (q v : Nat) : Prop :=
  ∃ ds p h rest, next ds d ∧ Spelled ds p ∧ IsHead d.major v h ∧ data = p ++ (h ++ rest) ∧
    q = pos + p.length + h.length

/-- Every head that is due declares something within bounds. -/
def HeadsBounded (next : List Datum → Due → Prop) (n pos : Nat) (data : Bytes) : Prop :=
  ∀ d q v, DueHead next pos data d q v → d.Bounded n q v

namespace Cursor

variable {α β : Type}

/-! ## §2. Requests that always fit. -/

/-- The requests of the run fit an input of `n` bytes. -/
def AllFit (n : Nat) (r : Reader α) (c : Cursor) : Prop := ∀ e ∈ requests .unbounded r c, Fits n e

theorem allFit_bind_iff {n : Nat} {r : Reader α} {f : α → Reader β} {c : Cursor} :
    AllFit n (r >>= f) c ↔
      AllFit n r c ∧ ∀ a c', run .unbounded r c = .ok (a, c') → AllFit n (f a) c' := by
  unfold AllFit
  rw [requests_bind, List.forall_mem_append]
  refine and_congr_right fun _ => ?_
  cases hrun : run .unbounded r c with
  | error e =>
    constructor
    · intro _ a c' h
      cases h
    · intro _ e he
      cases he
  | ok p =>
    constructor
    · intro h a c' hac
      obtain rfl := Except.ok.inj hac
      exact h
    · exact fun h => h p.1 p.2 rfl

theorem run_moves {m : Machine} {r : Reader α} {c : Cursor} {p : α × Cursor}
    (h : run m r c = .ok p) : p.2.pos + p.2.rest.length = c.pos + c.rest.length := by
  induction r generalizing c with
  | done r =>
    cases r with
    | ok a =>
      obtain rfl := Except.ok.inj h
      rfl
    | error e => cases h
  | step op k ih =>
    obtain ⟨q, hq, hp⟩ := bind_ok_iff.1 (show (step m c op).bind _ = .ok p from h)
    exact (ih q.1 hp).trans (step_moves hq)

/-- No request of the reader leaves the limits, in data of a size that there can be. -/
def Light (r : Reader α) : Prop :=
  ∀ n c, c.pos + c.rest.length ≤ isizeMax → AllFit n r c

namespace Light

theorem done (r : Res α) : Light (.done r : Reader α) := fun _ _ _ _ he => nomatch he

theorem bind {r : Reader α} {f : α → Reader β} (hr : Light r) (hf : ∀ a, Light (f a)) :
    Light (r >>= f) := by
  intro n c hc
  refine allFit_bind_iff.2 ⟨hr n c hc, fun a c' hrun => hf a n c' ?_⟩
  have hsame : c'.pos + c'.rest.length = c.pos + c.rest.length := run_moves hrun
  omega

theorem request {op : CursorOp} (h : ∀ n c, c.pos ≤ isizeMax → Fits n (c, op)) :
    Light (.request (S := cursorSig) op) := by
  intro n c hc e he
  rcases List.mem_cons.1 he with rfl | he
  · exact h n c (by omega)
  · cases hs : Cursor.step .unbounded c op <;> rw [hs] at he <;> cases he

/-- The bytes of a head are few. -/
theorem take {k : Nat} (hk : k ≤ 8) : Light (Cursor.take k) := by
  refine request fun n c hc => ?_
  show c.pos + k < usizeBound
  unfold isizeMax at hc
  unfold usizeBound
  omega

theorem turn : Light Cursor.turn := request fun _ _ _ => trivial

theorem finish : Light Cursor.finish := request fun _ _ _ => trivial

theorem readUint : Light Cursor.readUint := by
  have hU8 : Light Cursor.takeU8 := (take (by decide)).bind fun _ => done _
  refine hU8.bind fun b => ?_
  unfold readArg
  split_ifs
  · exact done _
  · exact hU8.bind fun _ => done _
  · exact (take (by decide)).bind fun _ => done _
  · exact (take (by decide)).bind fun _ => done _
  · exact (take (by decide)).bind fun _ => done _
  · exact done _

theorem expectMajorUint (want : Nat) : Light (Cursor.expectMajorUint want) := by
  refine readUint.bind fun p => ?_
  show Light (if p.1 ≠ want then _ else _)
  split
  next => exact done _
  next => exact done _

theorem checkAscending [LT α] [DecidableRel (α := α) (· < ·)] (last : Option α) (k : α)
    (complaint : String) : Light (Soal.checkAscending last k complaint) := by
  cases last with
  | none => exact done _
  | some prev =>
    show Light (if prev < k then _ else _)
    split
    next => exact done _
    next => exact done _

end Light

/-! ## §3. Reading a head. -/

section Heads

variable {pos k v : Nat} {data b : Bytes} {c : Cursor}

theorem run_take_ok_iff : run .unbounded (Cursor.take k) ⟨pos, data⟩ = .ok (b, c) ↔
    b.length = k ∧ data = b ++ c.rest ∧ c.pos = pos + k := by
  have hrun : run .unbounded (Cursor.take k) ⟨pos, data⟩ =
      if data.length < k then fail (.verify "CBOR truncated")
      else .ok (data.take k, ⟨pos + k, data.drop k⟩) := by
    show (step .unbounded ⟨pos, data⟩ (.take k)).bind _ = _
    rw [step, if_neg (by simp)]
    split <;> rfl
  rw [hrun]
  constructor
  · intro h
    split at h
    next => cases h
    next hk =>
      obtain ⟨rfl, rfl⟩ := Prod.mk.inj (Except.ok.inj h)
      exact ⟨List.length_take_of_le (by omega), (List.take_append_drop k data).symm, rfl⟩
  · rintro ⟨rfl, rfl, hpos⟩
    obtain ⟨cpos, rest⟩ := c
    obtain rfl : cpos = pos + b.length := hpos
    rw [if_neg (by rw [List.length_append]; omega), List.take_left, List.drop_left]

/-- An argument of `w` bytes. -/
theorem run_argument_ok_iff {major w m : Nat} :
    run .unbounded (do return (major, beVal (← Cursor.take w)) : Reader (Nat × Nat)) ⟨pos, data⟩ =
        .ok ((m, v), c) ↔
      m = major ∧ ∃ arg, arg.length = w ∧ beVal arg = v ∧ data = arg ++ c.rest ∧ c.pos = pos + w := by
  rw [run_bind]
  constructor
  · intro h
    obtain ⟨⟨arg, c'⟩, ht, h⟩ := bind_ok_iff.1 h
    obtain ⟨hpair, rfl⟩ := Prod.mk.inj (Except.ok.inj h)
    obtain ⟨rfl, rfl⟩ := Prod.mk.inj hpair
    obtain ⟨hw, hdata, hpos⟩ := run_take_ok_iff.1 ht
    exact ⟨rfl, arg, hw, rfl, hdata, hpos⟩
  · rintro ⟨rfl, arg, hw, rfl, hdata, hpos⟩
    rw [run_take_ok_iff.2 ⟨hw, hdata, hpos⟩]
    rfl

theorem run_takeU8 (f : Nat → Reader α) : run .unbounded (Cursor.takeU8 >>= f) ⟨pos, data⟩ =
    run .unbounded (Cursor.take 1 >>= fun b => f (beVal b)) ⟨pos, data⟩ := by
  have hval : ∀ b : Bytes, b.length = 1 → (b.headD 0).toNat = beVal b := by
    intro b hb
    obtain ⟨x, rfl⟩ := List.length_eq_one_iff.1 hb
    exact (Nat.zero_add _).symm
  unfold Cursor.takeU8
  simp only [run_bind]
  cases ht : run .unbounded (Cursor.take 1) ⟨pos, data⟩ with
  | error e => rfl
  | ok p =>
    have hb := hval p.1 (run_take_ok_iff.1 ht).1
    show run .unbounded (f (p.1.headD 0).toNat) p.2 = run .unbounded (f (beVal p.1)) p.2
    rw [hb]

theorem run_readArg_ok_iff {major ai m : Nat} :
    run .unbounded (readArg major ai) ⟨pos, data⟩ = .ok ((m, v), c) ↔ m = major ∧
      ((ai < 24 ∧ ai = v ∧ c = ⟨pos, data⟩) ∨ ∃ arg, (ai, arg.length) ∈ [(24, 1), (25, 2), (26, 4), (27, 8)] ∧
        beVal arg = v ∧ data = arg ++ c.rest ∧ c.pos = pos + arg.length) := by
  have hlong : ∀ w, (∀ l, (ai, l) ∈ [(24, 1), (25, 2), (26, 4), (27, 8)] ↔ l = w) → ¬ai < 24 →
      (run .unbounded (do return (major, beVal (← Cursor.take w)) : Reader (Nat × Nat)) ⟨pos, data⟩ =
          .ok ((m, v), c) ↔ m = major ∧ ((ai < 24 ∧ ai = v ∧ c = ⟨pos, data⟩) ∨
        ∃ arg, (ai, arg.length) ∈ [(24, 1), (25, 2), (26, 4), (27, 8)] ∧ beVal arg = v ∧
          data = arg ++ c.rest ∧ c.pos = pos + arg.length)) := by
    intro w hw hai
    rw [run_argument_ok_iff]
    simp only [hw, hai, false_and, false_or]
    refine and_congr_right fun _ => exists_congr fun arg => and_congr_right fun hlen => ?_
    rw [hlen]
  unfold readArg
  split_ifs with h₀ h₁ h₂ h₃ h₄
  · constructor
    · intro h
      obtain ⟨hpair, rfl⟩ := Prod.mk.inj (Except.ok.inj h)
      obtain ⟨rfl, rfl⟩ := Prod.mk.inj hpair
      exact ⟨rfl, .inl ⟨h₀, rfl, rfl⟩⟩
    · rintro ⟨rfl, ⟨-, rfl, rfl⟩ | ⟨arg, hw, -⟩⟩
      · rfl
      · simp only [List.mem_cons, Prod.mk.injEq, List.not_mem_nil, or_false] at hw
        omega
  · rw [run_takeU8]
    exact hlong 1 (fun l => by simp [h₁]) h₀
  · exact hlong 2 (fun l => by simp [h₂]) h₀
  · exact hlong 4 (fun l => by simp [h₃]) h₀
  · exact hlong 8 (fun l => by simp [h₄]) h₀
  · constructor
    · intro h
      cases h
    · rintro ⟨-, ⟨h, -⟩ | ⟨arg, hw, -⟩⟩
      · exact absurd h h₀
      · simp [h₁, h₂, h₃, h₄] at hw

/-- **A head is read** in any of its widths, and nothing else is. -/
theorem run_expectMajorUint_ok_iff {want : Nat} (hwant : want < 8) :
    run .unbounded (Cursor.expectMajorUint want) ⟨pos, data⟩ = .ok (v, c) ↔
      ∃ h, IsHead want v h ∧ data = h ++ c.rest ∧ c.pos = pos + h.length := by
  -- an initial byte is its major type and its additional information
  have hbyte : ∀ x : UInt8, initialByte (x.toNat / 32) (x.toNat % 32) = x := by
    intro x
    have hx : 32 * (x.toNat / 32) + x.toNat % 32 = x.toNat := Nat.div_add_mod _ _
    rw [initialByte, hx]
    exact UInt8.ofNat_toNat
  -- the read is one byte, then an argument that the byte announces
  have hrun : run .unbounded (Cursor.expectMajorUint want) ⟨pos, data⟩ = .ok (v, c) ↔
      ∃ x rest, data = x :: rest ∧ x.toNat / 32 = want ∧
        run .unbounded (readArg want (x.toNat % 32)) ⟨pos + 1, rest⟩ = .ok ((want, v), c) := by
    unfold Cursor.expectMajorUint Cursor.readUint
    rw [run_bind, run_takeU8, run_bind]
    constructor
    · intro h
      obtain ⟨⟨⟨m, v'⟩, c'⟩, hfirst, hlast⟩ := bind_ok_iff.1 h
      obtain ⟨⟨b, c₁⟩, ht, hread⟩ := bind_ok_iff.1 hfirst
      obtain ⟨hlen, hdata, hpos⟩ := run_take_ok_iff.1 ht
      obtain ⟨x, rfl⟩ := List.length_eq_one_iff.1 hlen
      obtain ⟨c₁pos, rest⟩ := c₁
      obtain rfl : c₁pos = pos + 1 := hpos
      have hx : beVal [x] = x.toNat := Nat.zero_add _
      dsimp only at hread hlast
      rw [hx] at hread
      have hm : m = x.toNat / 32 := (run_readArg_ok_iff.1 hread).1
      split at hlast
      next => cases hlast
      next hmajor =>
        obtain ⟨rfl, rfl⟩ := Prod.mk.inj (Except.ok.inj hlast)
        obtain rfl : m = want := not_not.1 hmajor
        exact ⟨x, rest, hdata, hm.symm, hm ▸ hread⟩
    · rintro ⟨x, rest, rfl, rfl, hread⟩
      have ht : run .unbounded (Cursor.take 1) ⟨pos, x :: rest⟩ = .ok ([x], ⟨pos + 1, rest⟩) :=
        run_take_ok_iff.2 ⟨rfl, rfl, rfl⟩
      have hx : beVal [x] = x.toNat := Nat.zero_add _
      rw [ht, ok_bind]
      dsimp only
      rw [hx, hread, ok_bind]
      show run .unbounded (if x.toNat / 32 ≠ x.toNat / 32 then _ else _) c = _
      rw [if_neg (by simp)]
      rfl
  rw [hrun]
  constructor
  · rintro ⟨x, rest, rfl, rfl, hread⟩
    obtain ⟨-, hread⟩ := run_readArg_ok_iff.1 hread
    -- the argument is in the byte itself, or in the bytes that follow
    rcases hread with ⟨hv, rfl, rfl⟩ | ⟨arg, hw, rfl, rfl, hpos⟩
    · refine ⟨[x], ?_, rfl, rfl⟩
      have hhead : IsHead (x.toNat / 32) _ _ := .short hv
      rwa [hbyte] at hhead
    · refine ⟨x :: arg, ?_, rfl, by rw [hpos, List.length_cons]; omega⟩
      have hhead : IsHead (x.toNat / 32) _ _ := .long hw
      rwa [hbyte] at hhead
  · rintro ⟨h, hhead, rfl, hpos⟩
    obtain ⟨cpos, rest⟩ := c
    obtain rfl : cpos = pos + h.length := hpos
    cases hhead with
    | short hv =>
      have hbyte := Decodes.initialByte_toNat hwant (show v < 32 by omega)
      refine ⟨initialByte want v, rest, rfl, by omega, ?_⟩
      rw [run_readArg_ok_iff, hbyte]
      exact ⟨rfl, .inl ⟨by omega, by omega, rfl⟩⟩
    | @long info arg hw =>
      have hinfo : info < 32 := by
        simp only [List.mem_cons, Prod.mk.injEq, List.not_mem_nil, or_false] at hw
        omega
      have hbyte := Decodes.initialByte_toNat hwant hinfo
      refine ⟨initialByte want info, arg ++ rest, rfl, by omega, ?_⟩
      rw [run_readArg_ok_iff, hbyte, show (32 * want + info) % 32 = info by omega]
      refine ⟨rfl, .inr ⟨arg, hw, rfl, rfl, ?_⟩⟩
      show pos + (arg.length + 1) = pos + 1 + arg.length
      omega

end Heads

/-! ## §4. Readers that take rows of items. -/

/-- Its requests fit exactly when the heads that are due declare something within bounds. -/
def HeadsFit (r : Reader α) (next : List Datum → Due → Prop) : Prop :=
  ∀ n pos data, pos + data.length ≤ isizeMax → (AllFit n r ⟨pos, data⟩ ↔ HeadsBounded next n pos data)

theorem HeadsFit.congr {r : Reader α} {next next' : List Datum → Due → Prop} (h : HeadsFit r next)
    (hnext : ∀ ds d, next ds d ↔ next' ds d) : HeadsFit r next' := by
  obtain rfl : next = next' := funext fun ds => funext fun d => propext (hnext ds d)
  exact h

/-- What a reader takes: `shape` are the things it may read, each spelled as a row of items, `holds` says
which of them it accepts, and `gives` what it returns then.  `next` says after which items a head is due
on the way. -/
structure Takes {σ : Type} (r : Reader α) (shape : σ → List Datum) (holds : σ → Prop)
    (gives : σ → α → Prop) (next : List Datum → Due → Prop) : Prop where
  sound : ∀ {pos data a c}, run .unbounded r ⟨pos, data⟩ = .ok (a, c) →
    ∃ s p, holds s ∧ gives s a ∧ Spelled (shape s) p ∧ data = p ++ c.rest ∧ c.pos = pos + p.length
  complete : ∀ {s p} pos rest, holds s → Spelled (shape s) p →
    ∃ a, gives s a ∧ run .unbounded r ⟨pos, p ++ rest⟩ = .ok (a, ⟨pos + p.length, rest⟩)
  fits : HeadsFit r next

/-- Nothing is due. -/
def nothingDue (_ : List Datum) (_ : Due) : Prop := False

/-- Where a head is due while things are read one by one, behind `xs`, up to `n` more. -/
def LoopDue {τ : Type} (good : List τ → Prop) (items : τ → List Datum)
    (due : List τ → List Datum → Due → Prop) (xs : List τ) (n : Nat) (ds : List Datum) (d : Due) : Prop :=
  ∃ xs' ds', xs'.length < n ∧ good (xs ++ xs') ∧ due (xs ++ xs') ds' d ∧ ds = xs'.flatMap items ++ ds'

namespace Takes

variable {σ τ κ : Type} {r : Reader α} {f : α → Reader β} {shape : σ → List Datum} {holds : σ → Prop}
  {gives : σ → α → Prop} {next next' : List Datum → Due → Prop}

/-- The same, described by other shapes. -/
theorem describe {shape' : τ → List Datum} {holds' : τ → Prop} {gives' : τ → α → Prop}
    (h : Takes r shape holds gives next)
    (hto : ∀ s, holds s → ∃ s', holds' s' ∧ shape' s' = shape s ∧ ∀ a, gives s a → gives' s' a)
    (hfrom : ∀ s', holds' s' → ∃ s, holds s ∧ shape s = shape' s' ∧ ∀ a, gives s a → gives' s' a)
    (hnext : ∀ ds d, next ds d ↔ next' ds d) : Takes r shape' holds' gives' next' where
  sound hrun := by
    obtain ⟨s, p, hs, ha, hp, hdata, hpos⟩ := h.sound hrun
    obtain ⟨s', hs', hshape, hgives⟩ := hto s hs
    exact ⟨s', p, hs', hgives _ ha, hshape ▸ hp, hdata, hpos⟩
  complete pos rest hs' hp := by
    obtain ⟨s, hs, hshape, hgives⟩ := hfrom _ hs'
    obtain ⟨a, ha, hrun⟩ := h.complete pos rest hs (hshape ▸ hp)
    exact ⟨a, hgives _ ha, hrun⟩
  fits := h.fits.congr hnext

/-- Less is said of what is returned. -/
theorem imp {gives' : σ → α → Prop} (h : Takes r shape holds gives next)
    (hgives : ∀ s a, holds s → gives s a → gives' s a) : Takes r shape holds gives' next :=
  h.describe (fun s hs => ⟨s, hs, rfl, fun a => hgives s a hs⟩)
    (fun s hs => ⟨s, hs, rfl, fun a => hgives s a hs⟩) fun _ _ => Iff.rfl

/-- A reader whose requests always fit. -/
theorem light (hl : Light r)
    (hsound : ∀ {pos data a c}, run .unbounded r ⟨pos, data⟩ = .ok (a, c) → ∃ s p, holds s ∧ gives s a ∧
      Spelled (shape s) p ∧ data = p ++ c.rest ∧ c.pos = pos + p.length)
    (hcomplete : ∀ {s p} pos rest, holds s → Spelled (shape s) p →
      ∃ a, gives s a ∧ run .unbounded r ⟨pos, p ++ rest⟩ = .ok (a, ⟨pos + p.length, rest⟩)) :
    Takes r shape holds gives nothingDue where
  sound := hsound
  complete := hcomplete
  fits n pos data hlen := by
    refine ⟨fun _ d q v hdue => ?_, fun _ => hl n ⟨pos, data⟩ hlen⟩
    obtain ⟨ds, p, h, rest, hno, -⟩ := hdue
    exact hno.elim

/-- A reader that consumes nothing. -/
theorem silent {holds : Prop} {gives : α → Prop} (hl : Light r)
    (hsound : ∀ {a c c'}, run .unbounded r c = .ok (a, c') → holds ∧ gives a ∧ c' = c)
    (hcomplete : holds → ∀ c, ∃ a, gives a ∧ run .unbounded r c = .ok (a, c)) :
    Takes r (fun _ : Unit => []) (fun _ => holds) (fun _ => gives) nothingDue := by
  refine light hl (fun {pos data a c} hrun => ?_) (fun {_ p} pos rest hs hp => ?_)
  · obtain ⟨hh, hg, rfl⟩ := hsound hrun
    exact ⟨(), [], hh, hg, .nil, rfl, rfl⟩
  · rw [spelled_nil_iff.1 hp]
    exact hcomplete hs _

theorem pure (a : α) : Takes (Pure.pure a : Reader α) (fun _ : Unit => []) (fun _ => True)
    (fun _ b => b = a) nothingDue := by
  refine silent (Light.done _) (fun hrun => ?_) fun _ c => ⟨a, rfl, rfl⟩
  obtain ⟨rfl, rfl⟩ := Prod.mk.inj (Except.ok.inj hrun)
  exact ⟨trivial, rfl, rfl⟩

theorem ofRes (x : Res α) : Takes (Soal.ofRes x) (fun _ : Unit => []) (fun _ => ∃ a, x = .ok a)
    (fun _ a => x = .ok a) nothingDue := by
  refine silent (Light.done _) (fun {a c c'} hrun => ?_) fun hx c => ?_
  · cases x with
    | error e => cases hrun
    | ok a' =>
      obtain ⟨rfl, rfl⟩ := Prod.mk.inj (Except.ok.inj hrun)
      exact ⟨⟨_, rfl⟩, rfl, rfl⟩
  · obtain ⟨a, rfl⟩ := hx
    exact ⟨a, rfl, rfl⟩

theorem turn : Takes Cursor.turn (fun _ : Unit => []) (fun _ => True) (fun _ _ => True) nothingDue := by
  refine silent Light.turn (fun hrun => ?_) fun _ c => ⟨(), trivial, rfl⟩
  obtain ⟨-, rfl⟩ := Prod.mk.inj (Except.ok.inj hrun)
  exact ⟨trivial, trivial, rfl⟩

theorem checkAscending [LT α] [DecidableRel (α := α) (· < ·)] (last : Option α) (k : α)
    (complaint : String) : Takes (Soal.checkAscending last k complaint) (fun _ : Unit => [])
      (fun _ => ∀ prev ∈ last, prev < k) (fun _ _ => True) nothingDue := by
  have hrun : ∀ c, run .unbounded (Soal.checkAscending last k complaint) c =
      if ∀ prev ∈ last, prev < k then .ok ((), c) else fail (.verify complaint) := by
    intro c
    cases last with
    | none => exact (if_pos fun prev h => by cases h).symm
    | some prev =>
      show run .unbounded (if prev < k then _ else _) c = _
      simp only [Option.mem_def, Option.some.injEq, forall_eq']
      split <;> rfl
  refine silent (Light.checkAscending last k complaint) (fun {a c c'} h => ?_) fun h c => ?_
  · rw [hrun] at h
    split at h
    next hlast =>
      obtain ⟨-, rfl⟩ := Prod.mk.inj (Except.ok.inj h)
      exact ⟨hlast, trivial, rfl⟩
    next => cases h
  · exact ⟨(), trivial, by rw [hrun, if_pos h]⟩

/-- A reader that refuses takes nothing. -/
theorem refused (e : SoalError) {shape : σ → List Datum} {holds : σ → Prop} {gives : σ → α → Prop}
    (hholds : ∀ s, ¬holds s) (hnext : ∀ ds d, ¬next ds d) :
    Takes (Cursor.reject e : Reader α) shape holds gives next := by
  have hlight : Takes (Cursor.reject e : Reader α) shape holds gives nothingDue := by
    refine light (Light.done _) (fun hrun => ?_) fun pos rest hs _ => absurd hs (hholds _)
    cases hrun
  exact hlight.describe (fun s hs => ⟨s, hs, rfl, fun _ => id⟩) (fun s hs => ⟨s, hs, rfl, fun _ => id⟩)
    fun ds d => ⟨False.elim, hnext ds d⟩

/-- **One reader after another**: what the second takes may depend on what the first took. -/
theorem bind {shape' : τ → List Datum} {holds' : σ → τ → Prop} {gives' : σ → τ → β → Prop}
    {next' : σ → List Datum → Due → Prop} (hr : Takes r shape holds gives next)
    (hf : ∀ s a, holds s → gives s a → Takes (f a) shape' (holds' s) (gives' s) (next' s)) :
    Takes (r >>= f) (fun st : σ × τ => shape st.1 ++ shape' st.2)
      (fun st => holds st.1 ∧ holds' st.1 st.2) (fun st => gives' st.1 st.2)
      (fun ds d => next ds d ∨ ∃ s ds', holds s ∧ next' s ds' d ∧ ds = shape s ++ ds') where
  sound {pos data b c} hrun := by
    rw [run_bind] at hrun
    obtain ⟨⟨a, c₁⟩, h₁, h₂⟩ := bind_ok_iff.1 hrun
    obtain ⟨s, p, hs, ha, hp, rfl, hpos⟩ := hr.sound h₁
    obtain ⟨pos₁, rest₁⟩ := c₁
    obtain rfl : pos₁ = pos + p.length := hpos
    obtain ⟨t, p', ht, hb, hp', hrest, hpos'⟩ := (hf s a hs ha).sound h₂
    refine ⟨(s, t), p ++ p', ⟨hs, ht⟩, hb, spelled_append_iff.2 ⟨p, p', rfl, hp, hp'⟩, ?_, ?_⟩
    · rw [List.append_assoc, ← hrest]
    · rw [hpos', List.length_append]
      omega
  complete {st p} pos rest hst hp := by
    obtain ⟨p₁, p₂, rfl, hp₁, hp₂⟩ := spelled_append_iff.1 hp
    obtain ⟨a, ha, h₁⟩ := hr.complete pos (p₂ ++ rest) hst.1 hp₁
    obtain ⟨b, hb, h₂⟩ := (hf st.1 a hst.1 ha).complete (pos + p₁.length) rest hst.2 hp₂
    refine ⟨b, hb, ?_⟩
    rw [run_bind, List.append_assoc, h₁, ok_bind, h₂, List.length_append, Nat.add_assoc]
  fits n pos data hlen := by
    rw [allFit_bind_iff, hr.fits n pos data hlen]
    constructor
    · rintro ⟨hfirst, hsecond⟩ d q v ⟨ds, p, h, rest, hdue, hp, hh, rfl, rfl⟩
      rcases hdue with hdue | ⟨s, ds', hs, hdue, rfl⟩
      · exact hfirst d _ v ⟨ds, p, h, rest, hdue, hp, hh, rfl, rfl⟩
      · obtain ⟨p₁, p₂, rfl, hp₁, hp₂⟩ := spelled_append_iff.1 hp
        simp only [List.append_assoc, List.length_append] at hlen hsecond ⊢
        obtain ⟨a, ha, h₁⟩ := hr.complete pos (p₂ ++ (h ++ rest)) hs hp₁
        have hfit := ((hf s a hs ha).fits n (pos + p₁.length) (p₂ ++ (h ++ rest))
          (by simp only [List.length_append]; omega)).1 (hsecond a _ h₁)
        exact hfit d _ v ⟨ds', p₂, h, rest, hdue, hp₂, hh, rfl, by omega⟩
    · intro hall
      refine ⟨fun d q v ⟨ds, p, h, rest, hdue, hrest⟩ =>
        hall d q v ⟨ds, p, h, rest, .inl hdue, hrest⟩, fun a c h₁ => ?_⟩
      obtain ⟨s, p₁, hs, ha, hp₁, rfl, hpos⟩ := hr.sound h₁
      obtain ⟨pos₁, rest₁⟩ := c
      obtain rfl : pos₁ = pos + p₁.length := hpos
      rw [List.length_append] at hlen
      refine ((hf s a hs ha).fits n _ rest₁ (by dsimp only at hlen; omega)).2 ?_
      rintro d q v ⟨ds', p₂, h, rest, hdue, hp₂, hh, rfl, rfl⟩
      refine hall d _ v ⟨shape s ++ ds', p₁ ++ p₂, h, rest, .inr ⟨s, ds', hs, hdue, rfl⟩,
        spelled_append_iff.2 ⟨p₁, p₂, rfl, hp₁, hp₂⟩, hh, (List.append_assoc _ _ _).symm, ?_⟩
      rw [List.length_append]
      omega

/-- After a reader that consumes nothing, but may refuse. -/
theorem after {check : Reader κ} {g : κ → Reader α} {ok : Prop} {found : κ → Prop}
    (hc : Takes check (fun _ : Unit => []) (fun _ => ok) (fun _ => found) nothingDue)
    (hg : ok → ∀ k, found k → Takes (g k) shape holds gives next) :
    Takes (check >>= g) shape (fun s => ok ∧ holds s) gives (fun ds d => ok ∧ next ds d) := by
  refine (hc.bind fun _ k hok hk => hg hok k hk).describe ?_ ?_ fun ds d => ?_
  · rintro ⟨_, s⟩ hs
    exact ⟨s, hs, rfl, fun _ => id⟩
  · intro s hs
    exact ⟨((), s), hs, rfl, fun _ => id⟩
  · constructor
    · rintro (h | ⟨-, ds', hok, hdue, rfl⟩)
      · exact h.elim
      · exact ⟨hok, hdue⟩
    · rintro ⟨hok, hdue⟩
      exact .inr ⟨(), ds, hok, hdue, rfl⟩

/-- After a turn of a loop. -/
theorem afterTurn {g : Unit → Reader α} (hg : Takes (g ()) shape holds gives next) :
    Takes (Cursor.turn >>= g) shape holds gives next :=
  (turn.after fun _ _ _ => hg).describe (fun s hs => ⟨s, hs.2, rfl, fun _ => id⟩)
    (fun s hs => ⟨s, ⟨trivial, hs⟩, rfl, fun _ => id⟩) fun _ _ => and_iff_right trivial

/-- The value is stored. -/
theorem store {g : α → β} {gives' : σ → β → Prop} (hr : Takes r shape holds gives next)
    (hg : ∀ s a, holds s → gives s a → gives' s (g a)) :
    Takes (r >>= fun a => Pure.pure (g a)) shape holds gives' next := by
  have hstored : ∀ s a, holds s → gives s a → Takes (Pure.pure (g a) : Reader β)
      (fun _ : Unit => []) (fun _ => True) (fun _ => gives' s) nothingDue := by
    intro s a hs ha
    refine (pure (g a)).imp ?_
    rintro _ b - rfl
    exact hg s a hs ha
  refine (hr.bind hstored).describe ?_ ?_ fun ds d => ?_
  · rintro ⟨s, _⟩ hs
    exact ⟨s, hs.1, (List.append_nil _).symm, fun _ => id⟩
  · intro s hs
    exact ⟨(s, ()), ⟨hs, trivial⟩, List.append_nil _, fun _ => id⟩
  · constructor
    · rintro (h | ⟨s, ds', -, hdue, -⟩)
      · exact h
      · exact hdue.elim
    · exact .inl

/-- Behind one item, read as its value. -/
theorem cons {mk : κ → Datum} {val : κ → α} {shape' : τ → List Datum} {holds' : κ → τ → Prop}
    {gives' : κ → τ → β → Prop} {next' : κ → List Datum → Due → Prop}
    (hr : Takes r (fun u => [mk u]) (fun _ => True) (fun u a => a = val u) next)
    (hf : ∀ u, Takes (f (val u)) shape' (holds' u) (gives' u) (next' u)) :
    Takes (r >>= f) (fun st : κ × τ => mk st.1 :: shape' st.2) (fun st => holds' st.1 st.2)
      (fun st => gives' st.1 st.2) (fun ds d => next ds d ∨ ∃ u ds', next' u ds' d ∧ ds = mk u :: ds') := by
  have hvalue : ∀ u a, True → a = val u → Takes (f a) shape' (holds' u) (gives' u) (next' u) := by
    rintro u _ - rfl
    exact hf u
  refine (hr.bind hvalue).describe (fun st hs => ⟨st, hs.2, rfl, fun _ => id⟩)
    (fun st hs => ⟨st, ⟨trivial, hs⟩, rfl, fun _ => id⟩) fun ds d => ?_
  exact or_congr_right (exists_congr fun u => exists_congr fun ds' => and_iff_right trivial)

/-- **A loop**: every turn reads one more thing, behind those before it. -/
theorem loop (rounds : Nat → α → Reader β) (out : α → β) {item : α → Reader α} {good : List τ → Prop}
    {J : List τ → α → Prop} {items : τ → List Datum} {due : List τ → List Datum → Due → Prop}
    (hsnoc : ∀ {xs x}, good (xs ++ [x]) → good xs) (hzero : ∀ acc, rounds 0 acc = Pure.pure (out acc))
    (hsucc : ∀ n acc, rounds (n + 1) acc = Cursor.turn >>= fun _ => item acc >>= rounds n)
    (hitem : ∀ xs acc, good xs → J xs acc → Takes (item acc) items (fun x => good (xs ++ [x]))
      (fun x => J (xs ++ [x])) (due xs)) (n : Nat) :
    ∀ xs acc, good xs → J xs acc → Takes (rounds n acc) (fun xs' => xs'.flatMap items)
      (fun xs' => xs'.length = n ∧ good (xs ++ xs'))
      (fun xs' b => ∃ acc', J (xs ++ xs') acc' ∧ b = out acc') (LoopDue good items due xs n) := by
  -- what holds of a row holds of every front part of it
  have hfront : ∀ xs xs' : List τ, good (xs ++ xs') → good xs := by
    intro xs xs'
    induction xs' using List.reverseRecOn with
    | nil =>
      intro h
      rwa [List.append_nil] at h
    | append_singleton xs' x ih =>
      intro h
      rw [← List.append_assoc] at h
      exact ih (hsnoc h)
  induction n with
  | zero =>
    intro xs acc hgood hacc
    rw [hzero]
    refine (pure (out acc)).describe (fun _ _ => ?_) (fun xs' hxs' => ?_) fun ds d => ?_
    · refine ⟨[], ⟨rfl, by rwa [List.append_nil]⟩, rfl, fun b hb => ⟨acc, ?_, hb⟩⟩
      rwa [List.append_nil]
    · obtain rfl := List.length_eq_zero_iff.1 hxs'.1
      refine ⟨(), trivial, rfl, fun b hb => ⟨acc, ?_, hb⟩⟩
      rwa [List.append_nil]
    · constructor
      · exact False.elim
      · rintro ⟨xs', ds', hlt, -⟩
        exact absurd hlt (Nat.not_lt_zero _)
  | succ n ih =>
    intro xs acc hgood hacc
    rw [hsucc]
    -- one item, then the rest behind it
    refine afterTurn (((hitem xs acc hgood hacc).bind fun x a hx ha => ih (xs ++ [x]) a hx ha).describe
      ?_ ?_ fun ds d => ?_)
    · rintro ⟨x, xs'⟩ ⟨-, hlen, hall⟩
      simp only [List.append_assoc, List.singleton_append] at hall ⊢
      exact ⟨x :: xs', ⟨congrArg (· + 1) hlen, hall⟩, List.flatMap_cons, fun _ => id⟩
    · rintro xs' ⟨hlen, hall⟩
      obtain ⟨x, xs', rfl⟩ := List.exists_cons_of_length_eq_add_one hlen
      have hassoc : xs ++ x :: xs' = xs ++ [x] ++ xs' := by simp
      refine ⟨(x, xs'), ⟨hfront (xs ++ [x]) xs' (hassoc ▸ hall), Nat.succ.inj hlen, hassoc ▸ hall⟩,
        List.flatMap_cons.symm, ?_⟩
      rw [hassoc]
      exact fun _ => id
    · constructor
      · -- a head is due in the first item, or behind it in one of the others
        rintro (hdue | ⟨x, ds', -, ⟨xs', ds'', hlt, hall, hdue, rfl⟩, rfl⟩)
        · exact ⟨[], ds, Nat.succ_pos n, by rwa [List.append_nil], by rwa [List.append_nil], rfl⟩
        · have hassoc : xs ++ [x] ++ xs' = xs ++ x :: xs' := by simp
          refine ⟨x :: xs', ds'', Nat.succ_lt_succ hlt, hassoc ▸ hall, hassoc ▸ hdue, ?_⟩
          rw [List.flatMap_cons, List.append_assoc]
      · rintro ⟨xs', ds', hlt, hall, hdue, rfl⟩
        cases xs' with
        | nil =>
          rw [List.append_nil] at hdue
          exact .inl hdue
        | cons x xs' =>
          have hassoc : xs ++ x :: xs' = xs ++ [x] ++ xs' := by simp
          rw [hassoc] at hall hdue
          refine .inr ⟨x, _, hfront (xs ++ [x]) xs' hall,
            ⟨xs', ds', Nat.lt_of_succ_lt_succ hlt, hall, hdue, rfl⟩, ?_⟩
          rw [List.flatMap_cons, List.append_assoc]

/-- The reader refuses under a condition. -/
theorem guarded {p : Prop} [Decidable p] {e : SoalError} (hr : ¬p → Takes r shape holds gives next) :
    Takes (if p then Cursor.reject e else r) shape (fun s => ¬p ∧ holds s) gives
      (fun ds d => ¬p ∧ next ds d) := by
  split
  next hp => exact refused e (fun s hs => hs.1 hp) fun ds d hdue => hdue.1 hp
  next hp =>
    exact (hr hp).describe (fun s hs => ⟨s, ⟨hp, hs⟩, rfl, fun _ => id⟩)
      (fun s hs => ⟨s, hs.2, rfl, fun _ => id⟩) fun ds d => (and_iff_right hp).symm

end Takes

/-! ## §5. Single items. -/

namespace Takes

/-- An item without a payload. -/
theorem head {want : Nat} {mk : UInt64 → Datum} (hwant : want < 8)
    (hmk : ∀ u, (mk u).major = want ∧ (mk u).argument = u.toNat ∧ (mk u).payload = []) :
    Takes (Cursor.expectMajorUint want) (fun u => [mk u]) (fun _ => True)
      (fun u v => v = u.toNat) nothingDue := by
  -- no head spells a number of more than 64 bits: at most eight bytes follow
  have hlt : ∀ {v h}, IsHead want v h → v < usizeBound := by
    intro v h hh
    cases hh with
    | short hv => exact lt_trans hv (by decide)
    | @long info arg hw =>
      have hlen : arg.length ≤ 8 := by
        simp only [List.mem_cons, Prod.mk.injEq, List.not_mem_nil, or_false] at hw
        omega
      have hval : ∀ b : Bytes, ∀ acc, b.foldl (fun acc x => 256 * acc + x.toNat) acc <
          (acc + 1) * 256 ^ b.length := by
        intro b
        induction b with
        | nil => intro acc; simp
        | cons x b ih =>
          intro acc
          have hx : 256 * acc + x.toNat + 1 ≤ (acc + 1) * 256 := by
            have := x.toNat_lt
            omega
          refine lt_of_lt_of_le (ih _) ?_
          rw [List.length_cons, pow_succ, Nat.mul_comm _ 256, ← Nat.mul_assoc]
          exact Nat.mul_le_mul_right _ hx
      have hb := hval arg 0
      refine lt_of_lt_of_le hb ?_
      rw [Nat.zero_add, Nat.one_mul]
      exact le_trans (Nat.pow_le_pow_right (by decide) hlen) (by decide)
  refine light (Light.expectMajorUint want) (fun {pos data v c} hrun => ?_) fun {u p} pos rest _ hp => ?_
  · obtain ⟨h, hh, rfl, hpos⟩ := (run_expectMajorUint_ok_iff hwant).1 hrun
    have hv : (UInt64.ofNat v).toNat = v := by
      rw [UInt64.toNat_ofNat']
      exact Nat.mod_eq_of_lt (hlt hh)
    obtain ⟨hmajor, harg, hpay⟩ := hmk (.ofNat v)
    refine ⟨.ofNat v, h, trivial, hv.symm, ?_, rfl, hpos⟩
    have hs : Spelled [mk (.ofNat v)] (h ++ ((mk (.ofNat v)).payload ++ [])) :=
      .cons (by rw [hmajor, harg, hv]; exact hh) .nil
    rwa [hpay, List.append_nil, List.append_nil] at hs
  · obtain ⟨hmajor, harg, hpay⟩ := hmk u
    cases hp with
    | cons hh hb =>
      rw [spelled_nil_iff.1 hb, hpay, List.append_nil, List.append_nil]
      rw [hmajor, harg] at hh
      exact ⟨u.toNat, rfl, (run_expectMajorUint_ok_iff hwant).2 ⟨_, hh, rfl, rfl⟩⟩

theorem readU64Value : Takes Cursor.readU64Value (fun u => [.uint u]) (fun _ => True)
    (fun u v => v = u.toNat) nothingDue := head (by decide) fun _ => ⟨rfl, rfl, rfl⟩

theorem readMapHeader : Takes Cursor.readMapHeader (fun u => [.map u]) (fun _ => True)
    (fun u v => v = u.toNat) nothingDue := head (by decide) fun _ => ⟨rfl, rfl, rfl⟩

theorem readArrayHeader : Takes Cursor.readArrayHeader (fun u => [.array u]) (fun _ => True)
    (fun u v => v = u.toNat) nothingDue := head (by decide) fun _ => ⟨rfl, rfl, rfl⟩

/-- A string: its head is due, and declares how much is taken. -/
theorem string {κ : Type} (due : Due) (mk : κ → Datum) (val : κ → α) (g : Bytes → Reader α)
    (hmk : ∀ u, (mk u).major = due.major ∧ (mk u).argument = (mk u).payload.length)
    (hbound : ∀ n q v, due.Bounded n q v ↔ q + v < usizeBound) (hlight : ∀ b, Light (g b))
    (hok : ∀ u, g (mk u).payload = Pure.pure (val u))
    (hno : ∀ b c p, run .unbounded (g b) c = .ok p → ∃ u, (mk u).payload = b) :
    Takes (Cursor.expectMajorUint due.major >>= fun len => Cursor.take len >>= g) (fun u => [mk u])
      (fun _ => True) (fun u a => a = val u) (fun ds d => ds = [] ∧ d = due) where
  sound {pos data a c} hrun := by
    rw [run_bind] at hrun
    obtain ⟨⟨len, pos₁, rest₁⟩, h₁, htail⟩ := bind_ok_iff.1 hrun
    obtain ⟨h, hh, hdata, hpos₁⟩ := (run_expectMajorUint_ok_iff due.major_lt).1 h₁
    dsimp only at htail hdata hpos₁
    rw [run_bind] at htail
    obtain ⟨⟨b, c₂⟩, h₂, hlast⟩ := bind_ok_iff.1 htail
    obtain ⟨hlen, hrest, hpos₂⟩ := run_take_ok_iff.1 h₂
    -- what the reader accepts is a payload, and it returns that payload's value
    obtain ⟨u, rfl⟩ := hno b c₂ _ hlast
    obtain ⟨hmajor, harg⟩ := hmk u
    dsimp only at hlast
    rw [hok] at hlast
    obtain ⟨rfl, rfl⟩ := Prod.mk.inj (Except.ok.inj hlast)
    refine ⟨u, h ++ ((mk u).payload ++ []), trivial, rfl, .cons ?_ .nil, ?_, ?_⟩
    · rwa [hmajor, harg, hlen]
    · rw [List.append_nil, List.append_assoc, hdata, hrest]
    · rw [hpos₂, hpos₁, List.append_nil, List.length_append]
      omega
  complete {u p} pos rest _ hp := by
    obtain ⟨hmajor, harg⟩ := hmk u
    cases hp with
    | @cons _ _ h b hh hb =>
      rw [hmajor, harg] at hh
      -- the head announces the payload, which is then there to be taken
      have h₁ : run .unbounded (Cursor.expectMajorUint due.major)
          ⟨pos, h ++ ((mk u).payload ++ rest)⟩ =
            .ok ((mk u).payload.length, ⟨pos + h.length, (mk u).payload ++ rest⟩) :=
        (run_expectMajorUint_ok_iff due.major_lt).2 ⟨h, hh, rfl, rfl⟩
      have h₂ : run .unbounded (Cursor.take (mk u).payload.length)
          ⟨pos + h.length, (mk u).payload ++ rest⟩ =
            .ok ((mk u).payload, ⟨pos + h.length + (mk u).payload.length, rest⟩) :=
        run_take_ok_iff.2 ⟨rfl, rfl, rfl⟩
      refine ⟨val u, rfl, ?_⟩
      rw [spelled_nil_iff.1 hb, List.append_nil, List.append_assoc, run_bind, h₁, ok_bind, run_bind, h₂,
        ok_bind]
      dsimp only
      rw [hok, List.length_append, ← Nat.add_assoc]
      rfl
  fits n pos data hlen := by
    -- the one head that is due stands at the start
    have hdue : HeadsBounded (fun ds d => ds = [] ∧ d = due) n pos data ↔
        ∀ h rest v, data = h ++ rest → IsHead due.major v h → pos + h.length + v < usizeBound := by
      constructor
      · intro hall h rest v hdata hh
        exact (hbound _ _ _).1
          (hall due _ v ⟨[], [], h, rest, ⟨rfl, rfl⟩, .nil, hh, hdata, rfl⟩)
      · rintro hall d q v ⟨ds, p, h, rest, ⟨rfl, rfl⟩, hp, hh, rfl, rfl⟩
        rw [spelled_nil_iff.1 hp]
        exact (hbound _ _ _).2 (hall h rest v (by rw [spelled_nil_iff.1 hp]; rfl) hh)
    -- only `take` can be out of bounds, and it asks for what the head declares
    rw [hdue, allFit_bind_iff,
      and_iff_right (Light.expectMajorUint due.major n ⟨pos, data⟩ hlen)]
    constructor
    · intro hall h rest v hdata hh
      have hrun : run .unbounded (Cursor.expectMajorUint due.major) ⟨pos, data⟩ =
          .ok (v, ⟨pos + h.length, rest⟩) :=
        (run_expectMajorUint_ok_iff due.major_lt).2 ⟨h, hh, hdata, rfl⟩
      exact (allFit_bind_iff.1 (hall v _ hrun)).1 (_, .take v) List.mem_cons_self
    · intro hall v c hrun
      obtain ⟨h, hh, rfl, hpos⟩ := (run_expectMajorUint_ok_iff due.major_lt).1 hrun
      refine allFit_bind_iff.2 ⟨fun e he => ?_, fun b c' htake => ?_⟩
      · rcases List.mem_cons.1 he with rfl | he
        · show c.pos + v < usizeBound
          rw [hpos]
          exact hall h c.rest v rfl hh
        · cases hs : Cursor.step .unbounded c (.take v) <;> rw [hs] at he <;> cases he
      · have hsame := run_moves htake
        refine hlight b n c' ?_
        rw [List.length_append] at hlen
        dsimp only at hsame
        omega

theorem readBstr : Takes Cursor.readBstr (fun b => [.bstr b]) (fun _ => True) (fun b a => a = b)
    (fun ds d => ds = [] ∧ d = .bstr) :=
  string .bstr .bstr id (fun b => Pure.pure b) (fun _ => ⟨rfl, rfl⟩) (fun _ _ _ => Iff.rfl)
    (fun _ => Light.done _) (fun _ => rfl) fun b _ _ _ => ⟨b, rfl⟩

theorem readTstr : Takes Cursor.readTstr (fun s => [.tstr s]) (fun _ => True) (fun s a => a = s)
    (fun ds d => ds = [] ∧ d = .tstr) := by
  refine string .tstr .tstr id _ (fun _ => ⟨rfl, rfl⟩) (fun _ _ _ => Iff.rfl) (fun b => ?_) (fun s => ?_)
    fun b c p hrun => ?_
  · split
    next => exact Light.done _
    next => exact Light.done _
  · have hutf8 : Text.fromUtf8 (Datum.tstr s).payload = some s := Text.fromUtf8_toUtf8 s
    simp only [hutf8]
    rfl
  · split at hrun
    next s hs => exact ⟨s, Text.toUtf8_of_fromUtf8 hs⟩
    next => cases hrun

end Takes

end Cursor

end Soal

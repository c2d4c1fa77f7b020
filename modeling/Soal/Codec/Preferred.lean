/-
  Soal.Codec.Preferred — which inputs of the decoders are the ones the encoders write.

  An input in preferred encoding is a row of data items, each written the shortest way.  A reader
  that succeeds on such a row takes some items off its front (`Follows`); what it returns then says
  which items these were.
-/
import Soal.Codec.Announcement
import Soal.Codec.RoundTrip

namespace Soal

open FileProg

/-! ## §1. Rows of data items. -/

/-- A data item, without what is inside an array or a map: that follows it. -/
inductive Datum where
  | uint (v : UInt64)
  | bstr (b : Bytes)
  | tstr (s : String)
  | array (n : UInt64)
  | map (n : UInt64)
  deriving DecidableEq

namespace Datum

/-- Preferred encoding of an item. -/
def bytes : Datum → Bytes
  | uint v => writeU64 v.toNat
  | bstr b => writeBstr b
  | tstr s => writeTstr s
  | array n => writeArrayHeader n.toNat
  | map n => writeMapHeader n.toNat

def major : Datum → Nat
  | uint _ => 0
  | bstr _ => 2
  | tstr _ => 3
  | array _ => 4
  | map _ => 5

def argument : Datum → Nat
  | uint v => v.toNat
  | bstr b => b.length
  | tstr s => (Text.toUtf8 s).length
  | array n => n.toNat
  | map n => n.toNat

def payload : Datum → Bytes
  | uint _ => []
  | bstr b => b
  | tstr s => Text.toUtf8 s
  | array _ => []
  | map _ => []

theorem bytes_eq (d : Datum) : d.bytes = pushUint d.major d.argument ++ d.payload := by
  cases d
  case bstr b => rfl
  case tstr s => rfl
  all_goals exact (List.append_nil _).symm

theorem major_lt (d : Datum) : d.major < 8 := by
  cases d <;> simp [major]

theorem argument_lt {d : Datum} (h : d.bytes.length ≤ isizeMax) : d.argument < usizeBound := by
  rw [bytes_eq, List.length_append] at h
  cases d with
  | uint v => exact Decodes.uint64_lt v
  | bstr b =>
    have hb : (bstr b).payload.length = (bstr b).argument := rfl
    exact Decodes.lt_usizeBound (by omega)
  | tstr s =>
    have hs : (tstr s).payload.length = (tstr s).argument := rfl
    exact Decodes.lt_usizeBound (by omega)
  | array n => exact Decodes.uint64_lt n
  | map n => exact Decodes.uint64_lt n

end Datum

/-- Preferred encoding of a row of items. -/
def written (ds : List Datum) : Bytes := ds.flatMap Datum.bytes

@[simp] theorem written_nil : written [] = [] := rfl

@[simp] theorem written_cons (d : Datum) (ds : List Datum) :
    written (d :: ds) = d.bytes ++ written ds := List.flatMap_cons

@[simp] theorem written_append (ds ds' : List Datum) :
    written (ds ++ ds') = written ds ++ written ds' := List.flatMap_append

/-! ## §2. Readers follow rows. -/

open Cursor

/-- A reader that succeeds on a row of items takes items off its front, and returns what `P` says of
these. -/
def Follows {α : Type} (r : Reader α) (P : List Datum → α → Prop) : Prop :=
  ∀ pos ds a c, pos + (written ds).length ≤ isizeMax →
    run .bits64 r ⟨pos, written ds⟩ = .ok (a, c) →
      ∃ front rest, ds = front ++ rest ∧ c = ⟨pos + (written front).length, written rest⟩ ∧ P front a

namespace Follows

variable {α β : Type} {r : Reader α} {f : α → Reader β} {P P' : List Datum → α → Prop}
  {Q : List Datum → β → Prop}

theorem imp (h : Follows r P) (hP : ∀ ds a, P ds a → P' ds a) : Follows r P' := by
  intro pos ds a c hlen hrun
  obtain ⟨front, rest, hds, hc, ha⟩ := h pos ds a c hlen hrun
  exact ⟨front, rest, hds, hc, hP _ _ ha⟩

theorem pure {a : α} (h : P [] a) : Follows (Pure.pure a) P := by
  intro pos ds a' c hlen hrun
  cases hrun
  exact ⟨[], ds, rfl, rfl, h⟩

theorem reject (e : SoalError) : Follows (Cursor.reject e) P := by
  intro pos ds a c hlen hrun
  cases hrun

theorem ofRes {x : Res α} (h : ∀ a, x = .ok a → P [] a) : Follows (Soal.ofRes x) P := by
  intro pos ds a c hlen hrun
  cases x with
  | error e => cases hrun
  | ok a' =>
    cases hrun
    exact ⟨[], ds, rfl, rfl, h a rfl⟩

/-- One reader after another takes one front after another. -/
theorem bind (hr : Follows r P) (hf : ∀ front a, P front a → Follows (f a) fun ds => Q (front ++ ds)) :
    Follows (r >>= f) Q := by
  intro pos ds b c hlen hrun
  rw [run_bind] at hrun
  obtain ⟨⟨a, c₁⟩, h₁, h₂⟩ := bind_ok_iff.1 hrun
  obtain ⟨front, rest, rfl, rfl, ha⟩ := hr pos ds a c₁ hlen h₁
  rw [written_append, List.length_append] at hlen
  obtain ⟨front', rest', rfl, rfl, hb⟩ := hf front a ha _ rest b c (by omega) h₂
  refine ⟨front ++ front', rest', (List.append_assoc _ _ _).symm, ?_, hb⟩
  rw [written_append, List.length_append, Nat.add_assoc]

/-- A reader whose value is stored. -/
theorem store {g : α → β} (hr : Follows r P) (hg : ∀ ds a, P ds a → Q ds (g a)) :
    Follows (r >>= fun a => Pure.pure (g a)) Q := by
  refine hr.bind fun front a ha => pure ?_
  rw [List.append_nil]
  exact hg front a ha

/-- A request that reads nothing. -/
theorem silent {r : Reader Unit} (h : ∀ c c', run .bits64 r c = .ok ((), c') → c' = c) :
    Follows r fun ds _ => ds = [] := by
  intro pos ds a c hlen hrun
  obtain rfl := h _ _ hrun
  exact ⟨[], ds, rfl, rfl, rfl⟩

theorem turn : Follows Cursor.turn fun ds _ => ds = [] := by
  refine silent fun c c' h => ?_
  cases h
  rfl

theorem withCapacity (n : Nat) : Follows (Soal.withCapacity n) fun ds _ => ds = [] := by
  refine silent fun c c' h => ?_
  obtain ⟨p, hp, h⟩ := bind_ok_iff.1 h
  cases h
  rw [step] at hp
  split at hp <;> cases hp
  rfl

/-- A silent reader in front. -/
theorem after {r : Reader Unit} {f : Unit → Reader β} (hr : Follows r fun ds _ => ds = [])
    (hf : Follows (f ()) Q) : Follows (r >>= f) Q := by
  refine hr.bind ?_
  rintro _ ⟨⟩ rfl
  exact hf

/-- The head of an item, wherever the payload goes. -/
theorem run_expectMajorUint {want pos v : Nat} {ds : List Datum} {c : Cursor}
    (hlen : pos + (written ds).length ≤ isizeMax)
    (hrun : run .bits64 (Cursor.expectMajorUint want) ⟨pos, written ds⟩ = .ok (v, c)) :
    ∃ d rest, ds = d :: rest ∧ d.major = want ∧ d.argument = v ∧
      c = ⟨pos + (pushUint want v).length, d.payload ++ written rest⟩ := by
  cases ds with
  | nil =>
    have hpos : ¬(Machine.bits64 = .bits64 ∧ usizeBound ≤ pos + 1) := by
      unfold usizeBound
      unfold isizeMax at hlen
      omega
    have hstep : step .bits64 ⟨pos, []⟩ (.take 1) = fail (.verify "CBOR truncated") := by
      rw [step, if_neg hpos]
      rfl
    obtain ⟨p, hp, -⟩ := bind_ok_iff.1 (show (step .bits64 ⟨pos, []⟩ (.take 1)).bind _ = .ok _ from hrun)
    rw [hstep] at hp
    cases hp
  | cons d rest =>
    rw [written_cons, List.length_append] at hlen
    have harg := Datum.argument_lt (d := d) (by omega)
    have hbytes := congrArg List.length d.bytes_eq
    rw [List.length_append] at hbytes
    have hhead := Decodes.readUint d.major_lt harg pos (d.payload ++ written rest)
      (by rw [List.length_append]; omega)
    rw [written_cons, d.bytes_eq, List.append_assoc, Cursor.expectMajorUint, run_bind, hhead,
      ok_bind] at hrun
    dsimp only at hrun
    split at hrun
    next => cases hrun
    next hmajor =>
      cases hrun
      exact ⟨d, rest, rfl, not_not.1 hmajor, rfl, by rw [not_not.1 hmajor]⟩

/-- The head of an item without a payload. -/
theorem expectMajorUint {want : Nat} (hwant : want ≠ 2 ∧ want ≠ 3) :
    Follows (Cursor.expectMajorUint want) fun ds v =>
      ∃ d : Datum, ds = [d] ∧ d.major = want ∧ d.argument = v := by
  intro pos ds v c hlen hrun
  obtain ⟨d, rest, rfl, hmajor, rfl, rfl⟩ := run_expectMajorUint hlen hrun
  have hpayload : d.payload = [] := by
    cases d with
    | bstr b => exact absurd hmajor.symm hwant.1
    | tstr s => exact absurd hmajor.symm hwant.2
    | uint u => rfl
    | array u => rfl
    | map u => rfl
  refine ⟨[d], rest, rfl, ?_, d, rfl, hmajor, rfl⟩
  rw [written_cons, written_nil, List.append_nil, d.bytes_eq, hpayload, List.append_nil, hmajor]
  rfl

theorem readU64Value :
    Follows Cursor.readU64Value fun ds v => ∃ u, ds = [.uint u] ∧ u.toNat = v := by
  refine (expectMajorUint (by decide)).imp ?_
  rintro _ _ ⟨d, rfl, hmajor, rfl⟩
  cases d <;> cases hmajor
  case uint u => exact ⟨u, rfl, rfl⟩

theorem readArrayHeader :
    Follows Cursor.readArrayHeader fun ds v => ∃ u, ds = [.array u] ∧ u.toNat = v := by
  refine (expectMajorUint (by decide)).imp ?_
  rintro _ _ ⟨d, rfl, hmajor, rfl⟩
  cases d <;> cases hmajor
  case array u => exact ⟨u, rfl, rfl⟩

theorem readMapHeader :
    Follows Cursor.readMapHeader fun ds v => ∃ u, ds = [.map u] ∧ u.toNat = v := by
  refine (expectMajorUint (by decide)).imp ?_
  rintro _ _ ⟨d, rfl, hmajor, rfl⟩
  cases d <;> cases hmajor
  case map u => exact ⟨u, rfl, rfl⟩

/-- An item with a payload: the head declares it, the reader takes it. -/
theorem run_payload {want pos : Nat} {f : Bytes → Reader α} {ds : List Datum} {p : α × Cursor}
    (hlen : pos + (written ds).length ≤ isizeMax)
    (hrun : run .bits64 (Cursor.expectMajorUint want >>= fun n => Cursor.take n >>= f)
      ⟨pos, written ds⟩ = .ok p) :
    ∃ d rest, ds = d :: rest ∧ d.major = want ∧ (d.payload.length = d.argument →
      run .bits64 (f d.payload) ⟨pos + d.bytes.length, written rest⟩ = .ok p) := by
  rw [run_bind] at hrun
  obtain ⟨⟨v, c⟩, hhead, hrun⟩ := bind_ok_iff.1 hrun
  obtain ⟨d, rest, rfl, hmajor, rfl, rfl⟩ := run_expectMajorUint hlen hhead
  refine ⟨d, rest, rfl, hmajor, fun hpayload => ?_⟩
  have hbytes := congrArg List.length d.bytes_eq
  rw [written_cons, List.length_append] at hlen
  rw [List.length_append, hmajor] at hbytes
  have htake := Decodes.take d.payload (pos + (pushUint want d.argument).length) (written rest)
    (by omega)
  rw [hpayload] at htake hbytes
  rw [run_bind] at hrun
  dsimp only at hrun
  rw [htake, ok_bind] at hrun
  rw [hbytes, ← Nat.add_assoc]
  exact hrun

theorem readBstr : Follows Cursor.readBstr fun ds b => ds = [.bstr b] := by
  intro pos ds b c hlen hrun
  obtain ⟨d, rest, rfl, hmajor, htail⟩ := run_payload (f := fun b => Pure.pure b) hlen hrun
  cases d <;> cases hmajor
  case bstr b' =>
    cases htail rfl
    exact ⟨[.bstr b'], rest, rfl, by simp, rfl⟩

theorem readTstr : Follows Cursor.readTstr fun ds s => ds = [.tstr s] := by
  intro pos ds s c hlen hrun
  obtain ⟨d, rest, rfl, hmajor, htail⟩ := run_payload hlen hrun
  cases d <;> cases hmajor
  case tstr s' =>
    have htail := htail rfl
    rw [Datum.payload, Text.fromUtf8_toUtf8] at htail
    cases htail
    exact ⟨[.tstr s], rest, rfl, by simp, rfl⟩

/-- A byte string of a fixed length. -/
theorem fixed {n : Nat} {complaint : String} {g : (b : Bytes) → b.length = n → α}
    (hP : ∀ b h, P [.bstr b] (g b h)) :
    Follows (Cursor.readBstr >>= fun b =>
      if h : b.length = n then Pure.pure (g b h) else Cursor.reject (.verify complaint)) P := by
  refine readBstr.bind ?_
  rintro _ b rfl
  split
  next h => exact pure (hP b h)
  next => exact reject _

theorem readHash (complaint : String) :
    Follows (Cursor.readHash complaint) fun ds h => ds = [.bstr h.bytes] :=
  fixed fun _ _ => rfl

theorem readFixed (n : Nat) (complaint : String) :
    Follows (Soal.readFixed n complaint) fun ds b => ds = [.bstr b.val] :=
  fixed fun _ _ => rfl

theorem checkAscending [LT α] [DecidableRel (α := α) (· < ·)] (last : Option α) (k : α)
    (complaint : String) : Follows (Soal.checkAscending last k complaint) fun ds _ =>
      ds = [] ∧ ∀ prev ∈ last, prev < k := by
  cases last with
  | none => exact pure ⟨rfl, fun prev h => by cases h⟩
  | some prev =>
    show Follows (if prev < k then _ else _) _
    split
    next h =>
      refine pure ⟨rfl, fun prev' hprev => ?_⟩
      obtain rfl := Option.some.inj hprev
      exact h
    next => exact reject _

/-- As many byte strings as are asked for. -/
theorem readHashes (complaint : String) (n : Nat) : Follows (Soal.readHashes complaint n)
    fun ds hs => ds = hs.map (fun h => Datum.bstr h.bytes) ∧ hs.length = n := by
  induction n with
  | zero => exact pure ⟨rfl, rfl⟩
  | succ n ih =>
    refine after turn ((readHash complaint).bind ?_)
    rintro _ h rfl
    refine ih.store ?_
    rintro _ hs ⟨rfl, rfl⟩
    exact ⟨rfl, rfl⟩

theorem written_eq_nil {ds : List Datum} (h : written ds = []) : ds = [] := by
  cases ds with
  | nil => rfl
  | cons d ds =>
    have hd : d.bytes = [] := (List.append_eq_nil_iff.1 h).1
    rw [d.bytes_eq, List.append_eq_nil_iff] at hd
    have hhead := hd.1
    unfold pushUint at hhead
    split_ifs at hhead

/-- Read to the end, a row is all front. -/
theorem decodeAll {ds : List Datum} {a : α} (hr : Follows r P) (hlen : (written ds).length ≤ isizeMax)
    (h : Cursor.decodeAll (r >>= fun x => finish >>= fun _ => Pure.pure x) (written ds) = .ok a) :
    P ds a := by
  unfold Cursor.decodeAll at h
  rw [run_bind] at h
  cases hrun : run .bits64 r ⟨0, written ds⟩ with
  | error e =>
    rw [hrun] at h
    cases h
  | ok p =>
    obtain ⟨a', c⟩ := p
    obtain ⟨front, rest, rfl, rfl, ha⟩ := hr 0 ds a' c (by omega) hrun
    rw [hrun, ok_bind] at h
    cases hrest : written rest with
    | cons x xs =>
      dsimp only at h
      rw [hrest] at h
      cases h
    | nil =>
      dsimp only at h
      rw [hrest] at h
      cases h
      rwa [written_eq_nil hrest, List.append_nil]

end Follows

/-! ## §3. Maps whose keys ascend. -/

/-- What the fields read so far say about the items they came from. -/
structure Slots (σ : Type) where
  /-- the last key -/
  last : σ → Option Nat
  /-- key and value of the field with this key, when it was read -/
  slot : σ → Nat → List Datum

namespace Slots

variable {σ : Type} (t : Slots σ)

/-- Nothing is there under a key still to come. -/
def Tidy (acc : σ) : Prop := ∀ k, (∀ prev ∈ t.last acc, prev < k) → t.slot acc k = []

/-- The items of the keys 1 … `n`, in order. -/
def row (acc : σ) : Nat → List Datum
  | 0 => []
  | n + 1 => row acc n ++ t.slot acc (n + 1)

/-- How many of the keys 1 … `n` were read. -/
def held (acc : σ) : Nat → Nat
  | 0 => 0
  | n + 1 => held acc n + if (t.slot acc (n + 1)).isEmpty then 0 else 1

/-- One more field was read, from these items. -/
structure Grows (top : Nat) (acc : σ) (ds : List Datum) (acc' : σ) (k : Nat) : Prop where
  above : ∀ prev ∈ t.last acc, prev < k
  key : 1 ≤ k ∧ k ≤ top
  last : t.last acc' = some k
  slot : t.slot acc' k = ds
  read : ds ≠ []
  others : ∀ j ≠ k, t.slot acc' j = t.slot acc j

variable {t} {top : Nat} {acc acc' : σ} {ds : List Datum} {k : Nat}

theorem Grows.tidy (h : t.Grows top acc ds acc' k) (ht : t.Tidy acc) : t.Tidy acc' := by
  intro j hj
  have hkj : k < j := hj k h.last
  rw [h.others j (by omega)]
  exact ht j fun prev hprev => lt_trans (h.above prev hprev) hkj

theorem Grows.row (h : t.Grows top acc ds acc' k) (ht : t.Tidy acc) (n : Nat) :
    t.row acc' n = t.row acc n ++ if k ≤ n then ds else [] := by
  induction n with
  | zero => rw [if_neg (by have := h.key; omega)]; rfl
  | succ n ih =>
    rw [Slots.row, Slots.row, ih]
    by_cases hn : k = n + 1
    · subst hn
      rw [h.slot, ht _ h.above, if_neg (by omega), if_pos le_rfl, List.append_nil]
    · rw [h.others (n + 1) (Ne.symm hn)]
      by_cases hk : k ≤ n
      · have hnext : t.slot acc (n + 1) = [] :=
          ht _ fun prev hprev => lt_trans (h.above prev hprev) (by omega)
        rw [if_pos hk, if_pos (by omega), hnext, List.append_nil, List.append_nil]
      · rw [if_neg hk, if_neg (by omega), List.append_nil, List.append_nil]

theorem Grows.held (h : t.Grows top acc ds acc' k) (ht : t.Tidy acc) (n : Nat) :
    t.held acc' n = t.held acc n + if k ≤ n then 1 else 0 := by
  induction n with
  | zero => rw [if_neg (by have := h.key; omega)]; rfl
  | succ n ih =>
    rw [Slots.held, Slots.held, ih]
    by_cases hn : k = n + 1
    · subst hn
      have hread : ds.isEmpty = false := by simpa using h.read
      rw [h.slot, ht _ h.above, hread, if_neg (by omega), if_pos le_rfl]
      rfl
    · rw [h.others (n + 1) (Ne.symm hn)]
      split_ifs <;> omega

theorem held_le (acc : σ) (n : Nat) : t.held acc n ≤ n := by
  induction n with
  | zero => exact le_rfl
  | succ n ih =>
    rw [Slots.held]
    split_ifs <;> omega

/-- As many fields as keys: every key was read. -/
theorem slot_ne_nil {n : Nat} (h : t.held acc n = n) : ∀ k, 1 ≤ k → k ≤ n → t.slot acc k ≠ [] := by
  induction n with
  | zero =>
    intro k h₁ h₂
    omega
  | succ n ih =>
    intro k h₁ h₂
    have hle := t.held_le acc n
    rw [Slots.held] at h
    split_ifs at h with hempty
    · omega
    · by_cases hk : k = n + 1
      · subst hk
        simpa using hempty
      · exact ih (by omega) k h₁ (by omega)

end Slots

/-- The value under key `k` is read and stored; `front` was read of it before. -/
theorem Follows.field {σ β : Type} {t : Slots σ} {top k : Nat} {I : σ → Prop} {acc : σ} {u : UInt64}
    {r : Reader β} {P : List Datum → β → Prop} {g : β → σ} (front : List Datum) (hr : Follows r P)
    (habove : ∀ prev ∈ t.last acc, prev < k) (hkey : 1 ≤ k ∧ k ≤ top)
    (hlast : ∀ v, t.last (g v) = some k)
    (hslot : ∀ ds v, P ds v → t.slot (g v) k = .uint u :: (front ++ ds))
    (hothers : ∀ v, ∀ j ≠ k, t.slot (g v) j = t.slot acc j) (hI : ∀ ds v, P ds v → I (g v)) :
    Follows (r >>= fun v => Pure.pure (g v)) fun ds acc' =>
      (∃ k, t.Grows top acc (.uint u :: (front ++ ds)) acc' k) ∧ I acc' :=
  hr.store fun ds v hv =>
    ⟨⟨k, habove, hkey, hlast v, hslot ds v hv, by simp, hothers v⟩, hI ds v hv⟩

/-- A loop that reads field after field: what its fields say is what it read. -/
theorem Follows.fields {σ : Type} {t : Slots σ} {top : Nat} {I : σ → Prop} {field : σ → Reader σ}
    {loop : Nat → σ → Reader σ} (hzero : ∀ acc, loop 0 acc = Pure.pure acc)
    (hsucc : ∀ n acc, loop (n + 1) acc = Cursor.turn >>= fun _ => field acc >>= loop n)
    (hfield : ∀ acc, t.Tidy acc → I acc →
      Follows (field acc) fun ds acc' => (∃ k, t.Grows top acc ds acc' k) ∧ I acc') (n : Nat) :
    ∀ acc, t.Tidy acc → I acc → Follows (loop n acc) fun ds acc' =>
      t.row acc' top = t.row acc top ++ ds ∧ t.held acc' top = t.held acc top + n ∧ I acc' := by
  induction n with
  | zero =>
    intro acc ht hI
    rw [hzero]
    exact pure ⟨(List.append_nil _).symm, rfl, hI⟩
  | succ n ih =>
    intro acc ht hI
    rw [hsucc]
    refine after turn ((hfield acc ht hI).bind ?_)
    rintro front acc₁ ⟨⟨k, hk⟩, hI₁⟩
    refine (ih acc₁ (hk.tidy ht) hI₁).imp ?_
    rintro ds acc' ⟨hrow, hheld, hI'⟩
    rw [hk.row ht, if_pos hk.key.2, List.append_assoc] at hrow
    rw [hk.held ht, if_pos hk.key.2] at hheld
    exact ⟨hrow, by omega, hI'⟩

end Soal

/-
  Soal.Codec.Hostile — the decoders on hostile bytes.

  The format of an object alone says after which items a decoder comes to the head of a string or of a
  list of hashes (`TreeNext`, `CommitNext`, `AnnouncementNext`).  A decoder is safe on exactly the inputs
  whose heads, where they are due, declare a length that ends below `2^64`, or a count within the length
  of the input.
-/
import Soal.Codec.Heads

namespace Soal

open FileProg Cursor

/-! ## §1. Maps of fields. -/

/-- What a field of a map holds. -/
inductive ValueKind where
  | uint (cap : Option Nat)
  | bytes (n : Nat)
  | text
  | hashes (cap : Option Nat)

namespace ValueKind

/-- The items of a whole value. -/
inductive Whole : ValueKind → List Datum → Prop where
  | uint {cap : Option Nat} {v : UInt64} (hv : UpTo cap v.toNat) : Whole (uint cap) [.uint v]
  | bytes (b : Bytes) : Whole (bytes b.length) [.bstr b]
  | text (s : String) : Whole text [.tstr s]
  | hashes {cap : Option Nat} {n : UInt64} {hs : List ContentHash} (hn : UpTo cap n.toNat)
      (hlen : hs.length = n.toNat) : Whole (hashes cap) (.array n :: hashData hs)

theorem Whole.of_bytes {n : Nat} {ds : List Datum} (h : (ValueKind.bytes n).Whole ds) :
    ∃ b, ds = [.bstr b] := by
  cases h
  exact ⟨_, rfl⟩

/-- After these items of a value a head is due. -/
inductive Next : ValueKind → List Datum → Due → Prop where
  | bytes (n : Nat) : Next (bytes n) [] .bstr
  | text : Next text [] .tstr
  | count (cap : Option Nat) : Next (hashes cap) [] (.hashes cap)
  | hash {cap : Option Nat} {n : UInt64} {hs : List ContentHash} (hn : UpTo cap n.toNat)
      (hlen : hs.length < n.toNat) : Next (hashes cap) (.array n :: hashData hs) .bstr

end ValueKind

/-- Key and value of a field. -/
abbrev MapField := UInt64 × List Datum

namespace MapField

def items (f : MapField) : List Datum := .uint f.1 :: f.2

end MapField

/-- Fields with ascending keys.  What a key holds may depend on the fields before it. -/
inductive Fields (kind : List MapField → Nat → Option ValueKind) : List MapField → Prop where
  | nil : Fields kind []
  | snoc {fs : List MapField} {f : MapField} {K : ValueKind} (hfs : Fields kind fs)
      (hk : ∀ g ∈ fs, g.1 < f.1) (hK : kind fs f.1.toNat = some K) (hf : K.Whole f.2) :
      Fields kind (fs ++ [f])

/-- After these items of the next field a head is due. -/
inductive FieldDue (kind : List MapField → Nat → Option ValueKind) (fs : List MapField) :
    List Datum → Due → Prop where
  | intro {k : UInt64} {K : ValueKind} {ds : List Datum} {d : Due} (hk : ∀ g ∈ fs, g.1 < k)
      (hK : kind fs k.toNat = some K) (hds : K.Next ds d) : FieldDue kind fs (.uint k :: ds) d

/-- After these items of `n` fields a head is due. -/
def FieldsDue (kind : List MapField → Nat → Option ValueKind) : Nat → List Datum → Due → Prop :=
  LoopDue (Fields kind) MapField.items (FieldDue kind) []

section Fields

variable {kind : List MapField → Nat → Option ValueKind} {fs : List MapField} {f : MapField}

theorem fields_snoc_iff : Fields kind (fs ++ [f]) ↔ Fields kind fs ∧ (∀ g ∈ fs, g.1 < f.1) ∧
    ∃ K, kind fs f.1.toNat = some K ∧ K.Whole f.2 := by
  constructor
  · intro h
    generalize hall : fs ++ [f] = all at h
    cases h with
    | nil => exact absurd hall (by simp)
    | snoc hfs hk hK hf =>
      obtain ⟨rfl, hlast⟩ := List.append_inj' hall rfl
      obtain rfl := List.singleton_inj.1 hlast
      exact ⟨hfs, hk, _, hK, hf⟩
  · rintro ⟨hfs, hk, K, hK, hf⟩
    exact .snoc hfs hk hK hf

/-- The last key read, against which the next one is compared. -/
def LastKey (fs : List MapField) (last : Option Nat) : Prop :=
  ∀ k : UInt64, (∀ prev ∈ last, prev < k.toNat) ↔ ∀ g ∈ fs, g.1 < k

theorem LastKey.nil : LastKey [] none := by
  intro k
  constructor
  · intro _ g hg
    cases hg
  · intro _ g hg
    cases hg

theorem LastKey.snoc (hk : ∀ g ∈ fs, g.1 < f.1) : LastKey (fs ++ [f]) (some f.1.toNat) := by
  intro k
  constructor
  · intro h g hg
    have hf : f.1 < k := UInt64.lt_iff_toNat_lt.2 (h _ rfl)
    rcases List.mem_append.1 hg with hg | hg
    · exact UInt64.lt_trans (hk g hg) hf
    · obtain rfl := List.mem_singleton.1 hg
      exact hf
  · rintro h prev hprev
    obtain rfl := Option.some.inj hprev
    exact UInt64.lt_iff_toNat_lt.1 (h f (List.mem_append_right _ (List.mem_singleton_self f)))

end Fields

/-! ## §2. The formats. -/

/-- The fields of a commit. -/
def commitField (_ : List MapField) : Nat → Option ValueKind
  | 1 => some (.bytes 32)
  | 2 => some (.hashes (some maxCommitParents))
  | 3 => some (.bytes 32)
  | 4 => some (.uint none)
  | 5 => some .text
  | 6 => some (.uint (some 0xffff))
  | 7 => some (.bytes 64)
  | _ => none

/-- The fields of an announcement. -/
def announcementField (_ : List MapField) : Nat → Option ValueKind
  | 1 => some (.uint none)
  | 2 => some (.bytes vaultIdLen)
  | 3 => some .text
  | 4 => some (.bytes 32)
  | 5 => some (.uint none)
  | 6 => some (.bytes 32)
  | 7 => some (.uint none)
  | 8 => some (.uint none)
  | 9 => some (.bytes 64)
  | _ => none

/-- The fields of a tree entry: key 2 is a hash behind the type of a directory, a size otherwise. -/
def entryField (fs : List MapField) : Nat → Option ValueKind
  | 1 => some (.uint none)
  | 2 => if (1, [.uint 1]) ∈ fs then some (.bytes 32) else some (.uint none)
  | 3 => some (.hashes none)
  | _ => none

/-- The fields make an entry: a file with size and chunks, or a directory with its hash. -/
def MakesEntry (fs : List MapField) : Prop :=
  ((1, [.uint 0]) ∈ fs ∧ (∃ v, (2, [.uint v]) ∈ fs) ∧ ∃ ds, (3, ds) ∈ fs) ∨
    ((1, [.uint 1]) ∈ fs ∧ ∃ b, (2, [.bstr b]) ∈ fs)

/-- A path of a tree, with the map of its entry. -/
structure Row where
  path : String
  count : UInt64
  fields : List MapField

def Row.items (r : Row) : List Datum :=
  .tstr r.path :: .map r.count :: r.fields.flatMap MapField.items

/-- Entries of a tree, with ascending paths that are valid. -/
inductive Rows : List Row → Prop where
  | nil : Rows []
  | snoc {rs : List Row} {r : Row} (hrs : Rows rs) (hpath : ∀ q ∈ rs, q.path < r.path)
      (hvalid : validatePath r.path = .ok ()) (hcount : r.fields.length = r.count.toNat)
      (hfields : Fields entryField r.fields) (hentry : MakesEntry r.fields) : Rows (rs ++ [r])

/-- After these items of the next entry a head is due. -/
inductive RowDue (rs : List Row) : List Datum → Due → Prop where
  | path : RowDue rs [] .tstr
  | field {path : String} {m : UInt64} {ds : List Datum} {d : Due} (hpath : ∀ q ∈ rs, q.path < path)
      (hvalid : validatePath path = .ok ()) (hds : FieldsDue entryField m.toNat ds d) :
      RowDue rs (.tstr path :: .map m :: ds) d

/-- After these items of a tree body a head is due. -/
inductive TreeNext : List Datum → Due → Prop where
  | intro {n : UInt64} {ds : List Datum} {d : Due} (hn : n.toNat ≤ maxTreeEntries)
      (hds : LoopDue Rows Row.items RowDue [] n.toNat ds d) : TreeNext (.map 1 :: .uint 1 :: .map n :: ds) d

/-- After these items of a map of `count` fields a head is due. -/
def MapNext (kind : List MapField → Nat → Option ValueKind) (count : UInt64) (ds : List Datum) (d : Due) :
    Prop :=
  ∃ ds', FieldsDue kind count.toNat ds' d ∧ ds = .map count :: ds'

/-- Where a head is due in a commit body. -/
def CommitNext : List Datum → Due → Prop := MapNext commitField 7

/-- Where a head is due in an announcement. -/
def AnnouncementNext : List Datum → Due → Prop := MapNext announcementField 9

section Rows

variable {rs : List Row} {r : Row}

theorem rows_snoc_iff : Rows (rs ++ [r]) ↔ Rows rs ∧ (∀ q ∈ rs, q.path < r.path) ∧
    validatePath r.path = .ok () ∧ r.fields.length = r.count.toNat ∧ Fields entryField r.fields ∧
    MakesEntry r.fields := by
  constructor
  · intro h
    generalize hall : rs ++ [r] = all at h
    cases h with
    | nil => exact absurd hall (by simp)
    | snoc hrs hpath hvalid hcount hfields hentry =>
      obtain ⟨rfl, hlast⟩ := List.append_inj' hall rfl
      obtain rfl := List.singleton_inj.1 hlast
      exact ⟨hrs, hpath, hvalid, hcount, hfields, hentry⟩
  · rintro ⟨hrs, hpath, hvalid, hcount, hfields, hentry⟩
    exact .snoc hrs hpath hvalid hcount hfields hentry

/-- The last path read. -/
def LastPath (rs : List Row) (last : Option String) : Prop :=
  ∀ path, (∀ prev ∈ last, prev < path) ↔ ∀ q ∈ rs, q.path < path

theorem LastPath.nil : LastPath [] none := by
  intro path
  constructor
  · intro _ q hq
    cases hq
  · intro _ q hq
    cases hq

theorem LastPath.snoc (hpath : ∀ q ∈ rs, q.path < r.path) : LastPath (rs ++ [r]) (some r.path) := by
  intro path
  constructor
  · intro h q hq
    have hr : r.path < path := h _ rfl
    rcases List.mem_append.1 hq with hq | hq
    · exact lt_trans (hpath q hq) hr
    · obtain rfl := List.mem_singleton.1 hq
      exact hr
  · rintro h prev hprev
    obtain rfl := Option.some.inj hprev
    exact h r (List.mem_append_right _ (List.mem_singleton_self r))

end Rows

/-! ## §3. Values. -/

namespace Cursor.Takes

variable {α : Type}

/-- A byte string of a length that the reader checks. -/
theorem sized {n : Nat} {g : Bytes → Reader α} {J : Bytes → α → Prop} (hlight : ∀ b, Light (g b))
    (hok : ∀ b c a c', run .unbounded (g b) c = .ok (a, c') → b.length = n ∧ J b a ∧ c' = c)
    (hread : ∀ b : Bytes, b.length = n → ∀ c, ∃ a, J b a ∧ run .unbounded (g b) c = .ok (a, c)) :
    Takes (Cursor.readBstr >>= g) (fun b => [.bstr b]) (fun b => b.length = n) J
      (fun ds d => ds = [] ∧ d = .bstr) := by
  have hg : ∀ (b b' : Bytes), True → b' = b → Takes (g b') (fun _ : Unit => []) (fun _ => b.length = n)
      (fun _ => J b) nothingDue := by
    intro b b' _ hb
    subst hb
    exact silent (hlight b') (fun hrun => hok b' _ _ _ hrun) fun hlen c => hread b' hlen c
  refine (readBstr.bind hg).describe ?_ ?_ fun ds d => ?_
  · rintro ⟨b, _⟩ hb
    exact ⟨b, hb.2, rfl, fun _ => id⟩
  · intro b hb
    exact ⟨(b, ()), ⟨trivial, hb⟩, rfl, fun _ => id⟩
  · constructor
    · rintro (h | ⟨_, _, _, hdue, _⟩)
      · exact h
      · exact hdue.elim
    · exact .inl

theorem readFixed (n : Nat) (complaint : String) : Takes (Soal.readFixed n complaint)
    (fun b => [.bstr b]) (fun b => b.length = n) (fun b a => a.val = b)
    (fun ds d => ds = [] ∧ d = .bstr) := by
  refine sized (fun b => ?_) (fun b c a c' hrun => ?_) fun b hb c => ?_
  · split
    next => exact Light.done _
    next => exact Light.done _
  · split at hrun
    next hb =>
      obtain ⟨rfl, rfl⟩ := Prod.mk.inj (Except.ok.inj hrun)
      exact ⟨hb, rfl, rfl⟩
    next => cases hrun
  · rw [dif_pos hb]
    exact ⟨⟨b, hb⟩, rfl, rfl⟩

theorem readHash (complaint : String) : Takes (Cursor.readHash complaint) (fun b => [.bstr b])
    (fun b => b.length = 32) (fun b a => a.bytes = b) (fun ds d => ds = [] ∧ d = .bstr) := by
  refine sized (fun b => ?_) (fun b c a c' hrun => ?_) fun b hb c => ?_
  · split
    next => exact Light.done _
    next => exact Light.done _
  · split at hrun
    next hb =>
      obtain ⟨rfl, rfl⟩ := Prod.mk.inj (Except.ok.inj hrun)
      exact ⟨hb, rfl, rfl⟩
    next => cases hrun
  · rw [dif_pos hb]
    exact ⟨⟨b, hb⟩, rfl, rfl⟩

/-- `n` hashes. -/
theorem readHashes (complaint : String) (n : Nat) : Takes (Soal.readHashes complaint n) hashData
    (fun hs => hs.length = n) (fun hs a => a = hs)
    (fun ds d => d = .bstr ∧ ∃ hs, hs.length < n ∧ ds = hashData hs) := by
  induction n with
  | zero =>
    refine (pure []).describe (fun _ _ => ⟨[], rfl, rfl, fun _ => id⟩) (fun hs hlen => ?_) fun ds d => ?_
    · obtain rfl := List.length_eq_zero_iff.1 hlen
      exact ⟨(), trivial, rfl, fun _ => id⟩
    · constructor
      · exact False.elim
      · rintro ⟨-, hs, hlt, -⟩
        exact absurd hlt (Nat.not_lt_zero _)
  | succ n ih =>
    have hcons : ∀ (b : Bytes) (h : ContentHash), b.length = 32 → h.bytes = b →
        Takes (Soal.readHashes complaint n >>= fun hs => Pure.pure (h :: hs)) hashData
          (fun hs => hs.length = n) (fun hs a => ∀ h' : ContentHash, h'.bytes = b → a = h' :: hs)
          (fun ds d => d = .bstr ∧ ∃ hs, hs.length < n ∧ ds = hashData hs) := by
      rintro b h - rfl
      refine ih.store ?_
      rintro hs _ - rfl h' hh'
      rw [ContentHash.ext hh']
    refine afterTurn (((readHash complaint).bind hcons).describe ?_ ?_ fun ds d => ?_)
    · rintro ⟨b, hs⟩ ⟨hb, hlen⟩
      exact ⟨⟨b, hb⟩ :: hs, congrArg (· + 1) hlen, rfl, fun a ha => ha ⟨b, hb⟩ rfl⟩
    · rintro hs hlen
      obtain ⟨h, hs, rfl⟩ := List.exists_cons_of_length_eq_add_one hlen
      exact ⟨(h.bytes, hs), ⟨h.length_eq, Nat.succ.inj hlen⟩, rfl, fun a ha => ha h rfl⟩
    · constructor
      · rintro (⟨rfl, rfl⟩ | ⟨b, _, hb, ⟨rfl, hs, hlt, rfl⟩, rfl⟩)
        · exact ⟨rfl, [], Nat.succ_pos n, rfl⟩
        · exact ⟨rfl, ⟨b, hb⟩ :: hs, Nat.succ_lt_succ hlt, rfl⟩
      · rintro ⟨rfl, hs, hlt, rfl⟩
        cases hs with
        | nil => exact .inl ⟨rfl, rfl⟩
        | cons h hs =>
          exact .inr ⟨h.bytes, _, h.length_eq, ⟨rfl, hs, Nat.lt_of_succ_lt_succ hlt, rfl⟩, rfl⟩

/-- The value of a field, as a row of items. -/
theorem value {σ : Type} {r : Reader α} {shape : σ → List Datum} {holds : σ → Prop}
    {gives : σ → α → Prop} {gives' : List Datum → α → Prop} {next : List Datum → Due → Prop}
    {K : ValueKind} (h : Takes r shape holds gives next)
    (hwhole : ∀ ds, K.Whole ds ↔ ∃ s, holds s ∧ shape s = ds)
    (hgives : ∀ s a, holds s → gives s a → gives' (shape s) a) (hnext : ∀ ds d, next ds d ↔ K.Next ds d) :
    Takes r id K.Whole gives' K.Next := by
  refine h.describe (fun s hs => ⟨shape s, (hwhole _).2 ⟨s, hs, rfl⟩, rfl, fun a => hgives s a hs⟩)
    (fun ds hds => ?_) hnext
  obtain ⟨s, hs, rfl⟩ := (hwhole ds).1 hds
  exact ⟨s, hs, rfl, fun a => hgives s a hs⟩

theorem uintValue : Takes Cursor.readU64Value id (ValueKind.uint none).Whole
    (fun ds v => ∀ u, ds = [.uint u] → v = u.toNat) (ValueKind.uint none).Next := by
  refine readU64Value.value (fun ds => ?_) (fun u v _ hv u' hu' => ?_) fun ds d => ?_
  · constructor
    · rintro ⟨-⟩
      exact ⟨_, trivial, rfl⟩
    · rintro ⟨u, -, rfl⟩
      exact .uint fun c hc => by cases hc
  · obtain rfl := Datum.uint.inj (List.singleton_inj.1 hu')
    exact hv
  · constructor
    · exact False.elim
    · rintro ⟨⟩

/-- A number, refused above a cap. -/
theorem cappedValue (cap : Nat) (e : SoalError) {g : Nat → α} {J : α → Prop} (hg : ∀ v, J (g v)) :
    Takes (Cursor.readU64Value >>= fun v => if v > cap then Cursor.reject e else Pure.pure (g v)) id
      (ValueKind.uint (some cap)).Whole (fun _ => J) (ValueKind.uint (some cap)).Next := by
  have hrest : ∀ u : UInt64, Takes (if u.toNat > cap then Cursor.reject e else Pure.pure (g u.toNat))
      (fun _ : Unit => []) (fun _ => ¬u.toNat > cap ∧ True) (fun _ => J)
      (fun ds d => ¬u.toNat > cap ∧ nothingDue ds d) := by
    intro u
    refine guarded fun _ => (pure _).imp ?_
    rintro _ a - rfl
    exact hg _
  refine (readU64Value.cons hrest).value (fun ds => ?_) (fun _ _ _ h => h) fun ds d => ?_
  · constructor
    · intro h
      cases h with
      | @uint _ u hu => exact ⟨(u, ()), ⟨Nat.not_lt.2 (hu _ rfl), trivial⟩, rfl⟩
    · rintro ⟨⟨u, _⟩, ⟨hu, -⟩, rfl⟩
      refine .uint fun c hc => ?_
      obtain rfl := Option.some.inj hc
      exact Nat.not_lt.1 hu
  · constructor
    · rintro (h | ⟨_, _, ⟨-, h⟩, -⟩)
      · exact h.elim
      · exact h.elim
    · rintro ⟨⟩

/-- A byte string of a fixed length. -/
theorem bytesValue {n : Nat} {r : Reader α} {gives : Bytes → α → Prop}
    (h : Takes r (fun b => [.bstr b]) (fun b => b.length = n) gives fun ds d => ds = [] ∧ d = .bstr) :
    Takes r id (ValueKind.bytes n).Whole (fun _ a => ∃ b, gives b a) (ValueKind.bytes n).Next := by
  refine h.value (fun ds => ?_) (fun b _ _ hb => ⟨b, hb⟩) fun ds d => ?_
  · constructor
    · rintro ⟨-⟩
      exact ⟨_, rfl, rfl⟩
    · rintro ⟨b, rfl, rfl⟩
      exact .bytes b
  · constructor
    · rintro ⟨rfl, rfl⟩
      exact .bytes n
    · rintro ⟨-⟩
      exact ⟨rfl, rfl⟩

theorem textValue : Takes Cursor.readTstr id ValueKind.text.Whole (fun _ _ => True)
    ValueKind.text.Next := by
  refine readTstr.value (fun ds => ?_) (fun _ _ _ _ => trivial) fun ds d => ?_
  · constructor
    · rintro ⟨-⟩
      exact ⟨_, trivial, rfl⟩
    · rintro ⟨s, -, rfl⟩
      exact .text s
  · constructor
    · rintro ⟨rfl, rfl⟩
      exact .text
    · rintro ⟨-⟩
      exact ⟨rfl, rfl⟩

/-- Room is made behind the head of a list: the head is due as well. -/
theorem reserved {σ : Type} {f f' : Nat → Reader α} {shape : σ → List Datum} {holds : σ → Prop}
    {gives : σ → α → Prop} {next : List Datum → Due → Prop} {cap : Option Nat}
    (h : Takes (Cursor.readArrayHeader >>= f') shape holds gives next)
    (hrun : ∀ v c, run .unbounded (f v) c = run .unbounded (f' v) c)
    (hfit : ∀ n v c, AllFit n (f v) c ↔
      (UpTo cap v → v ≤ n ∧ v * 32 ≤ isizeMax) ∧ AllFit n (f' v) c) :
    Takes (Cursor.readArrayHeader >>= f) shape holds gives
      (fun ds d => next ds d ∨ (ds = [] ∧ d = .hashes cap)) := by
  -- room is made only on a bounded machine, so both readers read the same
  have hsame : ∀ c, run .unbounded (Cursor.readArrayHeader >>= f) c =
      run .unbounded (Cursor.readArrayHeader >>= f') c := by
    intro c
    rw [run_bind, run_bind]
    exact congrArg _ (funext fun p => hrun p.1 p.2)
  constructor
  case sound =>
    intro pos data a c hok
    rw [hsame] at hok
    exact h.sound hok
  case complete =>
    intro s p pos rest hs hp
    rw [hsame]
    exact h.complete pos rest hs hp
  case fits =>
    intro n pos data hlen
    -- the head of the list is due besides the heads that were
    have hheads : HeadsBounded (fun ds d => next ds d ∨ (ds = [] ∧ d = .hashes cap)) n pos data ↔
        (∀ v c, run .unbounded Cursor.readArrayHeader ⟨pos, data⟩ = .ok (v, c) →
          UpTo cap v → v ≤ n ∧ v * 32 ≤ isizeMax) ∧ HeadsBounded next n pos data := by
      constructor
      · intro hall
        refine ⟨fun v c hok => ?_, fun d q v ⟨ds, p, hd, rest, hdue, hrest⟩ =>
          hall d q v ⟨ds, p, hd, rest, .inl hdue, hrest⟩⟩
        obtain ⟨hd, hh, rfl, -⟩ := (run_expectMajorUint_ok_iff (by decide)).1 hok
        exact hall (.hashes cap) _ v ⟨[], [], hd, c.rest, .inr ⟨rfl, rfl⟩, .nil, hh, rfl, rfl⟩
      · rintro ⟨hroom, hall⟩ d q v ⟨ds, p, hd, rest, hdue | ⟨rfl, rfl⟩, hp, hh, hdata, hq⟩
        · exact hall d q v ⟨ds, p, hd, rest, hdue, hp, hh, hdata, hq⟩
        · obtain rfl := spelled_nil_iff.1 hp
          exact hroom v ⟨pos + hd.length, rest⟩
            ((run_expectMajorUint_ok_iff (by decide)).2 ⟨hd, hh, hdata, rfl⟩)
    rw [hheads, ← h.fits n pos data hlen, allFit_bind_iff, allFit_bind_iff]
    simp only [hfit]
    constructor
    · rintro ⟨hhead, hall⟩
      exact ⟨fun v c hok => (hall v c hok).1, hhead, fun v c hok => (hall v c hok).2⟩
    · rintro ⟨hroom, hhead, hall⟩
      exact ⟨hhead, fun v c hok => ⟨hroom v c hok, hall v c hok⟩⟩

/-- A list of hashes, refused beyond a cap. -/
theorem hashesValue {cap : Option Nat} {f : Nat → Reader α} {J : α → Prop} (complaint : String)
    (g : List ContentHash → α) (hJ : ∀ hs, J (g hs))
    (hin : ∀ v, UpTo cap v → f v = Soal.withCapacity v >>= fun _ =>
      Soal.readHashes complaint v >>= fun hs => Pure.pure (g hs))
    (hout : ∀ v, ¬UpTo cap v → ∃ e, f v = Cursor.reject e) :
    Takes (Cursor.readArrayHeader >>= f) id (ValueKind.hashes cap).Whole (fun _ => J)
      (ValueKind.hashes cap).Next := by
  classical
  -- the same reader, but for the room it makes
  let f' : Nat → Reader α := fun v =>
    if UpTo cap v then Soal.readHashes complaint v >>= fun hs => Pure.pure (g hs) else f v
  have hrest : ∀ u : UInt64, Takes (f' u.toNat) hashData
      (fun hs => UpTo cap u.toNat ∧ hs.length = u.toNat) (fun _ => J) (fun ds d => UpTo cap u.toNat ∧
        d = .bstr ∧ ∃ hs, hs.length < u.toNat ∧ ds = hashData hs) := by
    intro u
    have hlist : Takes (Soal.readHashes complaint u.toNat >>= fun hs => Pure.pure (g hs)) hashData
        (fun hs => hs.length = u.toNat) (fun _ => J)
        (fun ds d => d = .bstr ∧ ∃ hs, hs.length < u.toNat ∧ ds = hashData hs) :=
      (readHashes complaint u.toNat).store fun _ hs _ _ => hJ hs
    by_cases hu : UpTo cap u.toNat
    · simp only [f', if_pos hu]
      exact hlist.describe (fun hs hlen => ⟨hs, ⟨hu, hlen⟩, rfl, fun _ => id⟩)
        (fun hs hhs => ⟨hs, hhs.2, rfl, fun _ => id⟩) fun _ _ => (and_iff_right hu).symm
    · obtain ⟨e, he⟩ := hout _ hu
      simp only [f', if_neg hu, he]
      exact refused e (fun hs hhs => hu hhs.1) fun ds d hdue => hu hdue.1
  have hroom : ∀ n v c, AllFit n (f v) c ↔
      (UpTo cap v → v ≤ n ∧ v * 32 ≤ isizeMax) ∧ AllFit n (f' v) c := by
    intro n v c
    by_cases hv : UpTo cap v
    · simp only [f', if_pos hv, hin v hv]
      rw [forall_prop_of_true hv]
      exact List.forall_mem_cons
    · simp only [f', if_neg hv]
      exact (and_iff_right fun h => absurd h hv).symm
  refine ((readArrayHeader.cons hrest).reserved (fun v c => ?_) hroom).value (fun ds => ?_)
    (fun _ _ _ h => h) fun ds d => ?_
  · by_cases hv : UpTo cap v
    · simp only [f', if_pos hv, hin v hv]
      rfl
    · simp only [f', if_neg hv]
  · constructor
    · intro h
      cases h with
      | @hashes _ n hs hn hlen => exact ⟨(n, hs), ⟨hn, hlen⟩, rfl⟩
    · rintro ⟨⟨n, hs⟩, ⟨hn, hlen⟩, rfl⟩
      exact .hashes hn hlen
  · constructor
    · rintro ((h | ⟨n, _, ⟨hn, rfl, hs, hlt, rfl⟩, rfl⟩) | ⟨rfl, rfl⟩)
      · exact h.elim
      · exact .hash hn hlt
      · exact .count cap
    · intro h
      cases h with
      | count => exact .inr ⟨rfl, rfl⟩
      | @hash _ n hs hn hlt => exact .inl (.inr ⟨n, _, ⟨hn, rfl, hs, hlt, rfl⟩, rfl⟩)

/-! ## §4. Maps. -/

section Maps

variable {kind : List MapField → Nat → Option ValueKind} {fs : List MapField} {r : Reader α}
  {o : Option ValueKind} {K : ValueKind} {gives : List Datum → α → Prop}

/-- The value under a key that is known. -/
theorem known (ho : o = some K) (h : Takes r id K.Whole gives K.Next) :
    Takes r id (fun ds => ∃ K, o = some K ∧ K.Whole ds) gives
      (fun ds d => ∃ K, o = some K ∧ K.Next ds d) := by
  subst ho
  refine h.describe (fun ds hds => ⟨ds, ⟨K, rfl, hds⟩, rfl, fun _ => id⟩) ?_ fun ds d => ?_
  · rintro ds ⟨K', hK, hds⟩
    obtain rfl := Option.some.inj hK
    exact ⟨ds, hds, rfl, fun _ => id⟩
  · constructor
    · exact fun h => ⟨K, rfl, h⟩
    · rintro ⟨K', hK, h⟩
      obtain rfl := Option.some.inj hK
      exact h

/-- A key that is not known is refused. -/
theorem unknown (ho : o = none) (e : SoalError) :
    Takes (Cursor.reject e : Reader α) id (fun ds => ∃ K, o = some K ∧ K.Whole ds) gives
      (fun ds d => ∃ K, o = some K ∧ K.Next ds d) := by
  subst ho
  refine refused e ?_ ?_
  · rintro ds ⟨K, hK, -⟩
    cases hK
  · rintro ds d ⟨K, hK, -⟩
    cases hK

/-- A field: its key, above the keys before it, and its value. -/
theorem field {last : Option Nat} {complaint : String} {val : Nat → Reader α}
    {J : MapField → α → Prop} (hfs : Fields kind fs) (hlast : LastKey fs last)
    (hval : ∀ k : UInt64, (∀ g ∈ fs, g.1 < k) →
      Takes (val k.toNat) id (fun ds => ∃ K, kind fs k.toNat = some K ∧ K.Whole ds)
        (fun ds => J (k, ds)) (fun ds d => ∃ K, kind fs k.toNat = some K ∧ K.Next ds d)) :
    Takes (Cursor.readU64Value >>= fun k => Soal.checkAscending last k complaint >>= fun _ => val k)
      MapField.items (fun f => Fields kind (fs ++ [f])) J (FieldDue kind fs) := by
  have hrest : ∀ k : UInt64, Takes (Soal.checkAscending last k.toNat complaint >>= fun _ => val k.toNat)
      id (fun ds => (∀ prev ∈ last, prev < k.toNat) ∧ ∃ K, kind fs k.toNat = some K ∧ K.Whole ds)
      (fun ds => J (k, ds)) (fun ds d => (∀ prev ∈ last, prev < k.toNat) ∧
        ∃ K, kind fs k.toNat = some K ∧ K.Next ds d) := by
    intro k
    exact (checkAscending last k.toNat complaint).after fun hk _ _ => hval k ((hlast k).1 hk)
  refine (readU64Value.cons hrest).describe ?_ ?_ fun ds d => ?_
  · rintro f ⟨hk, hf⟩
    exact ⟨f, fields_snoc_iff.2 ⟨hfs, (hlast f.1).1 hk, hf⟩, rfl, fun _ => id⟩
  · intro f hf
    obtain ⟨-, hk, hf⟩ := fields_snoc_iff.1 hf
    exact ⟨f, ⟨(hlast f.1).2 hk, hf⟩, rfl, fun _ => id⟩
  · constructor
    · rintro (h | ⟨k, ds', ⟨hk, K, hK, hds⟩, rfl⟩)
      · exact h.elim
      · exact .intro ((hlast k).1 hk) hK hds
    · rintro ⟨hk, hK, hds⟩
      exact .inr ⟨_, _, ⟨(hlast _).2 hk, _, hK, hds⟩, rfl⟩

/-- All the fields of a map. -/
theorem fields {item : α → Reader α} {rounds : Nat → α → Reader α} {J : List MapField → α → Prop}
    {acc : α} (hzero : ∀ acc, rounds 0 acc = Pure.pure acc)
    (hsucc : ∀ n acc, rounds (n + 1) acc = Cursor.turn >>= fun _ => item acc >>= rounds n)
    (hitem : ∀ fs acc, Fields kind fs → J fs acc → Takes (item acc) MapField.items
      (fun f => Fields kind (fs ++ [f])) (fun f => J (fs ++ [f])) (FieldDue kind fs))
    (hacc : J [] acc) (n : Nat) : Takes (rounds n acc) (fun fs => fs.flatMap MapField.items)
      (fun fs => fs.length = n ∧ Fields kind fs) J (FieldsDue kind n) := by
  have hloop := loop rounds id (fun h => (fields_snoc_iff.1 h).1) hzero hsucc hitem n [] acc .nil hacc
  refine hloop.imp ?_
  rintro fs acc' - ⟨_, hJ, rfl⟩
  exact hJ

end Maps

/-! ### Commits. -/

theorem readCommitValue (fs : List MapField) (acc : CommitFields) (k : Nat) :
    Takes (Soal.readCommitValue acc k) id (fun ds => ∃ K, commitField fs k = some K ∧ K.Whole ds)
      (fun _ acc' => acc'.lastK = acc.lastK)
      (fun ds d => ∃ K, commitField fs k = some K ∧ K.Next ds d) := by
  unfold Soal.readCommitValue
  split_ifs with h₁ h₂ h₃ h₄ h₅ h₆ h₇
  · subst h₁
    exact known rfl ((bytesValue (readHash _)).store fun _ _ _ _ => rfl)
  · subst h₂
    refine known rfl (hashesValue "parent CID len" (fun hs => { acc with parents := some hs })
      (fun _ => rfl) (fun v hv => ?_) fun v hv => ?_)
    · exact if_neg (Nat.not_lt.2 (hv _ rfl))
    · refine ⟨_, if_pos (Nat.lt_of_not_le fun hle => hv fun c hc => ?_)⟩
      exact Option.some.inj hc ▸ hle
  · subst h₃
    exact known rfl ((bytesValue (readHash _)).store fun _ _ _ _ => rfl)
  · subst h₄
    exact known rfl (uintValue.store fun _ _ _ _ => rfl)
  · subst h₅
    exact known rfl (textValue.store fun _ _ _ _ => rfl)
  · subst h₆
    exact known rfl (cappedValue _ _ fun _ => rfl)
  · subst h₇
    refine known rfl ((bytesValue (sized (J := fun _ acc' => acc'.lastK = acc.lastK) (fun b => ?_)
      (fun b c a c' hrun => ?_) fun b hb c => ?_)).imp fun _ _ _ h => h.choose_spec)
    · split
      next => exact Light.done _
      next => exact Light.done _
    · split at hrun
      next => cases hrun
      next hb =>
        obtain ⟨rfl, rfl⟩ := Prod.mk.inj (Except.ok.inj hrun)
        exact ⟨not_not.1 hb, rfl, rfl⟩
    · rw [if_neg (not_not.2 hb)]
      exact ⟨{ acc with signature := some b }, rfl, rfl⟩
  · refine unknown ?_ _
    unfold commitField
    split
    all_goals first | rfl | omega

theorem readCommitField {fs : List MapField} {acc : CommitFields} (hfs : Fields commitField fs)
    (hacc : LastKey fs acc.lastK) : Takes (Soal.readCommitField acc) MapField.items
      (fun f => Fields commitField (fs ++ [f])) (fun f acc' => LastKey (fs ++ [f]) acc'.lastK)
      (FieldDue commitField fs) := by
  refine field hfs hacc fun k hk => (readCommitValue fs _ _).imp fun ds acc' _ hsame => ?_
  rw [hsame]
  exact LastKey.snoc (f := (k, ds)) hk

/-- A body of a fixed number of fields. -/
theorem body {kind : List MapField → Nat → Option ValueKind} (count : UInt64) {item : α → Reader α}
    {rounds : Nat → α → Reader α} {J : List MapField → α → Prop} {acc : α} {e : Nat → SoalError}
    (hzero : ∀ acc, rounds 0 acc = Pure.pure acc)
    (hsucc : ∀ n acc, rounds (n + 1) acc = Cursor.turn >>= fun _ => item acc >>= rounds n)
    (hitem : ∀ fs acc, Fields kind fs → J fs acc → Takes (item acc) MapField.items
      (fun f => Fields kind (fs ++ [f])) (fun f => J (fs ++ [f])) (FieldDue kind fs))
    (hacc : J [] acc) : HeadsFit (Cursor.readMapHeader >>= fun n =>
        if n ≠ count.toNat then Cursor.reject (e n) else rounds n acc)
      (MapNext kind count) := by
  have hr := fields hzero hsucc hitem hacc
  refine (readMapHeader.cons fun n => guarded fun _ => hr n.toNat).fits.congr fun ds d => ?_
  constructor
  · rintro (h | ⟨n, ds', ⟨hn, hdue⟩, rfl⟩)
    · exact h.elim
    · obtain rfl : n = count := UInt64.toNat_inj.1 (not_not.1 hn)
      exact ⟨ds', hdue, rfl⟩
  · rintro ⟨ds', hdue, rfl⟩
    exact .inr ⟨count, ds', ⟨not_not.2 rfl, hdue⟩, rfl⟩

theorem readCommitBody : HeadsFit Soal.readCommitBody CommitNext :=
  body 7 (fun _ => rfl) (fun _ _ => rfl) (fun _ _ => readCommitField) LastKey.nil

/-! ### Announcements. -/

theorem readHeadValue (fs : List MapField) (acc : HeadFields) (k : Nat) :
    Takes (Soal.readHeadValue acc k) id
      (fun ds => ∃ K, announcementField fs k = some K ∧ K.Whole ds) (fun _ acc' => acc'.lastK = acc.lastK)
      (fun ds d => ∃ K, announcementField fs k = some K ∧ K.Next ds d) := by
  unfold Soal.readHeadValue
  split_ifs with h₁ h₂ h₃ h₄ h₅ h₆ h₇ h₈ h₉
  · subst h₁
    exact known rfl (uintValue.store fun _ _ _ _ => rfl)
  · subst h₂
    exact known rfl ((bytesValue (readFixed _ _)).store fun _ _ _ _ => rfl)
  · subst h₃
    exact known rfl (textValue.store fun _ _ _ _ => rfl)
  · subst h₄
    exact known rfl ((bytesValue (readHash _)).store fun _ _ _ _ => rfl)
  · subst h₅
    exact known rfl (uintValue.store fun _ _ _ _ => rfl)
  · subst h₆
    exact known rfl ((bytesValue (readFixed _ _)).store fun _ _ _ _ => rfl)
  · subst h₇
    exact known rfl (uintValue.store fun _ _ _ _ => rfl)
  · subst h₈
    exact known rfl (uintValue.store fun _ _ _ _ => rfl)
  · subst h₉
    exact known rfl ((bytesValue (readFixed _ _)).store fun _ _ _ _ => rfl)
  · refine unknown ?_ _
    unfold announcementField
    split
    all_goals first | rfl | omega

theorem readHeadField {fs : List MapField} {acc : HeadFields} (hfs : Fields announcementField fs)
    (hacc : LastKey fs acc.lastK) : Takes (Soal.readHeadField acc) MapField.items
      (fun f => Fields announcementField (fs ++ [f]))
      (fun f acc' => LastKey (fs ++ [f]) acc'.lastK) (FieldDue announcementField fs) := by
  refine field hfs hacc fun k hk => (readHeadValue fs _ _).imp fun ds acc' _ hsame => ?_
  rw [hsame]
  exact LastKey.snoc (f := (k, ds)) hk

theorem readHeadBody : HeadsFit Soal.readHeadBody AnnouncementNext :=
  body 9 (fun _ => rfl) (fun _ _ => rfl) (fun _ _ => readHeadField) LastKey.nil

end Cursor.Takes

/-! ### Tree entries. -/

/-- What has been stored of the fields of an entry. -/
structure EntryRead (fs : List MapField) (acc : EntryFields) : Prop where
  last : LastKey fs acc.lastK
  entryType : ∀ u : UInt64, acc.entryType = some u.toNat ↔ (1, [.uint u]) ∈ fs
  size : acc.size.isSome ↔ ∃ v, (2, [.uint v]) ∈ fs
  dirHash : acc.dirHash.isSome ↔ ∃ b, (2, [.bstr b]) ∈ fs
  chunks : acc.chunks.isSome ↔ ∃ ds, (3, ds) ∈ fs

namespace EntryRead

variable {fs : List MapField} {acc : EntryFields}

theorem none : EntryRead [] .none where
  last := LastKey.nil
  entryType u := by simp [EntryFields.none]
  size := by simp [EntryFields.none]
  dirHash := by simp [EntryFields.none]
  chunks := by simp [EntryFields.none]

/-- The fields make an entry exactly when the source makes one of what it stored. -/
theorem makesEntry_iff (h : EntryRead fs acc) :
    (∃ entry, entryOfFields acc = .ok entry) ↔ MakesEntry fs := by
  have hfile : acc.entryType = some 0 ↔ (1, [.uint 0]) ∈ fs := h.entryType 0
  have hdir : acc.entryType = some 1 ↔ (1, [.uint 1]) ∈ fs := h.entryType 1
  rw [MakesEntry, ← hfile, ← h.size, ← h.chunks, ← hdir, ← h.dirHash]
  unfold entryOfFields
  split
  next ht =>
    rw [ht]
    cases acc.size <;> cases acc.chunks <;> simp [fail]
  next ht =>
    rw [ht]
    cases acc.dirHash <;> simp [fail]
  next ht₀ ht₁ =>
    constructor
    · rintro ⟨entry, hentry⟩
      cases hentry
    · rintro (⟨ht, -⟩ | ⟨ht, -⟩)
      · exact (ht₀ ht).elim
      · exact (ht₁ ht).elim

variable {k : UInt64} {ds : List Datum}

/-- The next field, stored under key 1. -/
theorem typed (h : EntryRead fs acc) (hk : ∀ g ∈ fs, g.1 < 1) (u : UInt64) :
    EntryRead (fs ++ [(1, [.uint u])]) { acc with lastK := some 1, entryType := some u.toNat } where
  last := LastKey.snoc (f := (1, [.uint u])) hk
  entryType v := by
    have hno : (1, [.uint v]) ∉ fs := fun hmem => UInt64.lt_irrefl _ (hk _ hmem)
    simp [hno, UInt64.toNat_inj, eq_comm]
  size := by simpa using h.size
  dirHash := by simpa using h.dirHash
  chunks := by simpa using h.chunks

theorem ofSize (h : EntryRead fs acc) (hk : ∀ g ∈ fs, g.1 < 2) (v : UInt64) (n : Nat) :
    EntryRead (fs ++ [(2, [.uint v])]) { acc with lastK := some 2, size := some n } where
  last := LastKey.snoc (f := (2, [.uint v])) hk
  entryType u := by simpa using h.entryType u
  size := by simp
  dirHash := by simpa using h.dirHash
  chunks := by simpa using h.chunks

theorem ofDir (h : EntryRead fs acc) (hk : ∀ g ∈ fs, g.1 < 2) (b : Bytes) (hash : ContentHash) :
    EntryRead (fs ++ [(2, [.bstr b])]) { acc with lastK := some 2, dirHash := some hash } where
  last := LastKey.snoc (f := (2, [.bstr b])) hk
  entryType u := by simpa using h.entryType u
  size := by simpa using h.size
  dirHash := by simp
  chunks := by simpa using h.chunks

theorem ofChunks (h : EntryRead fs acc) (hk : ∀ g ∈ fs, g.1 < 3) (ds : List Datum)
    (hs : List ContentHash) :
    EntryRead (fs ++ [(3, ds)]) { acc with lastK := some 3, chunks := some hs } where
  last := LastKey.snoc (f := (3, ds)) hk
  entryType u := by simpa using h.entryType u
  size := by simpa using h.size
  dirHash := by simpa using h.dirHash
  chunks := by simp

end EntryRead

namespace Cursor.Takes

theorem readEntryValue {fs : List MapField} {acc : EntryFields} (hacc : EntryRead fs acc) {k : UInt64}
    (hk : ∀ g ∈ fs, g.1 < k) : Takes (Soal.readEntryValue { acc with lastK := some k.toNat } k.toNat) id
      (fun ds => ∃ K, entryField fs k.toNat = some K ∧ K.Whole ds)
      (fun ds => EntryRead (fs ++ [(k, ds)]))
      (fun ds d => ∃ K, entryField fs k.toNat = some K ∧ K.Next ds d) := by
  have hdir : acc.entryType = some 1 ↔ (1, [.uint 1]) ∈ fs := hacc.entryType 1
  unfold Soal.readEntryValue
  split_ifs with h₁ h₂ ht h₃
  · obtain rfl : k = 1 := UInt64.toNat_inj.1 h₁
    refine known rfl (uintValue.store fun ds v hds hv => ?_)
    cases hds with
    | @uint _ u => exact hv u rfl ▸ hacc.typed hk u
  · obtain rfl : k = 2 := UInt64.toNat_inj.1 h₂
    refine known (if_pos (hdir.1 ht)) ((bytesValue (readHash _)).store fun ds hash hds _ => ?_)
    obtain ⟨b, rfl⟩ := hds.of_bytes
    exact hacc.ofDir hk b hash
  · obtain rfl : k = 2 := UInt64.toNat_inj.1 h₂
    refine known (if_neg fun hmem => ht (hdir.2 hmem)) (uintValue.store fun ds v hds _ => ?_)
    cases hds with
    | @uint _ u => exact hacc.ofSize hk u v
  · obtain rfl : k = 3 := UInt64.toNat_inj.1 h₃
    let stored : List ContentHash → EntryFields :=
      fun hs => { acc with lastK := some 3, chunks := some hs }
    refine known rfl ((hashesValue (J := fun acc' => ∃ hs, acc' = stored hs)
      "chunk CID must be 32 bytes" stored (fun hs => ⟨hs, rfl⟩) (fun v hv => rfl) fun v hv => ?_).imp ?_)
    · exact absurd (fun c hc => by cases hc) hv
    · rintro ds _ - ⟨hs, rfl⟩
      exact hacc.ofChunks hk ds hs
  · refine unknown ?_ _
    unfold entryField
    split
    all_goals first | rfl | omega

theorem readEntryField {fs : List MapField} {acc : EntryFields} (hfs : Fields entryField fs)
    (hacc : EntryRead fs acc) : Takes (Soal.readEntryField acc) MapField.items
      (fun f => Fields entryField (fs ++ [f])) (fun f => EntryRead (fs ++ [f])) (FieldDue entryField fs) :=
  field hfs hacc.last fun _ => readEntryValue hacc

theorem readEntryFields (n : Nat) : Takes (Soal.readEntryFields n .none)
    (fun fs => fs.flatMap MapField.items) (fun fs => fs.length = n ∧ Fields entryField fs) EntryRead
    (FieldsDue entryField n) :=
  fields (fun _ => rfl) (fun _ _ => rfl) (fun _ _ => readEntryField) .none n

end Cursor.Takes

/-- One turn of `readTreeEntries`. -/
def readTreeEntry (p : Option String × Tree) : Reader (Option String × Tree) :=
  readTstr >>= fun path => checkAscending p.1 path "tree entry keys not strictly sorted" >>= fun _ =>
    ofRes (validatePath path) >>= fun _ => readMapHeader >>= fun em => readEntryFields em .none >>=
      fun acc => ofRes (entryOfFields acc) >>= fun entry =>
        pure (some path, ⟨p.2.entries.insert path entry⟩)

theorem readTreeEntries_succ (n : Nat) (p : Option String × Tree) : readTreeEntries (n + 1) p.1 p.2 =
    turn >>= fun _ => readTreeEntry p >>= fun q => readTreeEntries n q.1 q.2 := by
  unfold readTreeEntry
  simp only [Prog.bind_bind]
  rfl

namespace Cursor.Takes

variable {α : Type}

/-- The map of an entry. -/
theorem entry (g : TreeEntry → α) : Takes (Cursor.readMapHeader >>= fun em =>
      Soal.readEntryFields em .none >>= fun acc => Soal.ofRes (entryOfFields acc) >>= fun entry =>
        Pure.pure (g entry))
    (fun st : UInt64 × List MapField => .map st.1 :: st.2.flatMap MapField.items)
    (fun st => (st.2.length = st.1.toNat ∧ Fields entryField st.2) ∧ MakesEntry st.2)
    (fun _ a => ∃ entry, a = g entry)
    (fun ds d => ∃ m ds', FieldsDue entryField (UInt64.toNat m) ds' d ∧ ds = .map m :: ds') := by
  have hmake : ∀ (m : UInt64) (fs : List MapField) (acc : EntryFields),
      (fs.length = m.toNat ∧ Fields entryField fs) → EntryRead fs acc →
        Takes (Soal.ofRes (entryOfFields acc) >>= fun entry => Pure.pure (g entry)) (fun _ : Unit => [])
          (fun _ => MakesEntry fs) (fun _ a => ∃ entry, a = g entry) nothingDue := by
    intro m fs acc _ hacc
    have hmade : Takes (Soal.ofRes (entryOfFields acc) >>= fun entry => Pure.pure (g entry))
        (fun _ : Unit => []) (fun _ => ∃ entry, entryOfFields acc = .ok entry)
        (fun _ a => ∃ entry, a = g entry) nothingDue :=
      (ofRes (entryOfFields acc)).store fun _ entry _ _ => ⟨entry, rfl⟩
    refine hmade.describe (fun s hs => ?_) (fun s hs => ?_) fun _ _ => Iff.rfl
    · exact ⟨s, hacc.makesEntry_iff.1 hs, rfl, fun _ => id⟩
    · exact ⟨s, hacc.makesEntry_iff.2 hs, rfl, fun _ => id⟩
  refine (readMapHeader.cons fun m => (readEntryFields m.toNat).bind (hmake m)).describe ?_ ?_
    fun ds d => ?_
  · rintro ⟨m, fs, _⟩ ⟨hfs, hmakes⟩
    exact ⟨(m, fs), ⟨hfs, hmakes⟩, by simp, fun _ => id⟩
  · rintro ⟨m, fs⟩ ⟨hfs, hmakes⟩
    exact ⟨(m, fs, ()), ⟨hfs, hmakes⟩, by simp, fun _ => id⟩
  · constructor
    · rintro (h | ⟨m, ds', hdue | ⟨_, _, _, hdue, _⟩, rfl⟩)
      · exact h.elim
      · exact ⟨m, ds', hdue, rfl⟩
      · exact hdue.elim
    · rintro ⟨m, ds', hdue, rfl⟩
      exact .inr ⟨m, ds', .inl hdue, rfl⟩

theorem readTreeEntry {rs : List Row} {p : Option String × Tree} (hrs : Rows rs)
    (hlast : LastPath rs p.1) : Takes (Soal.readTreeEntry p) Row.items (fun r => Rows (rs ++ [r]))
      (fun r q => LastPath (rs ++ [r]) q.1) (RowDue rs) := by
  have hrest := fun path =>
    (checkAscending p.1 path "tree entry keys not strictly sorted").after fun _ _ _ =>
      (ofRes (validatePath path)).after fun _ _ _ =>
        entry fun entry => (some path, (⟨p.2.entries.insert path entry⟩ : Tree))
  refine (readTstr.cons hrest).describe ?_ ?_ fun ds d => ?_
  · rintro ⟨path, m, fs⟩ ⟨hpath, ⟨_, hvalid⟩, ⟨hlen, hfs⟩, hmakes⟩
    have hsorted : ∀ q ∈ rs, q.path < path := (hlast path).1 hpath
    refine ⟨⟨path, m, fs⟩, rows_snoc_iff.2 ⟨hrs, hsorted, hvalid, hlen, hfs, hmakes⟩, rfl, ?_⟩
    rintro _ ⟨entry, rfl⟩
    exact LastPath.snoc (r := ⟨path, m, fs⟩) hsorted
  · rintro ⟨path, m, fs⟩ hr
    obtain ⟨-, hsorted, hvalid, hlen, hfs, hmakes⟩ := rows_snoc_iff.1 hr
    refine ⟨(path, m, fs), ⟨(hlast path).2 hsorted, ⟨(), hvalid⟩, ⟨hlen, hfs⟩, hmakes⟩, rfl, ?_⟩
    rintro _ ⟨entry, rfl⟩
    exact LastPath.snoc (r := ⟨path, m, fs⟩) hsorted
  · constructor
    · rintro (⟨rfl, rfl⟩ | ⟨path, _, ⟨hpath, ⟨_, hvalid⟩, m, ds', hdue, rfl⟩, rfl⟩)
      · exact .path
      · exact .field ((hlast path).1 hpath) hvalid hdue
    · rintro (_ | ⟨hpath, hvalid, hdue⟩)
      · exact .inl ⟨rfl, rfl⟩
      · exact .inr ⟨_, _, ⟨(hlast _).2 hpath, ⟨(), hvalid⟩, _, _, hdue, rfl⟩, rfl⟩

theorem readTreeEntries (n : Nat) (tree : Tree) : Takes (Soal.readTreeEntries n none tree)
    (fun rs => rs.flatMap Row.items) (fun rs => rs.length = n ∧ Rows rs) (fun _ _ => True)
    (LoopDue Rows Row.items RowDue [] n) := by
  have hloop := loop (J := fun rs p => LastPath rs p.1) (fun n p => Soal.readTreeEntries n p.1 p.2)
    Prod.snd (fun h => (rows_snoc_iff.1 h).1) (fun _ => rfl) readTreeEntries_succ (fun _ _ => readTreeEntry)
    n [] (none, tree) .nil LastPath.nil
  exact hloop.imp fun _ _ _ _ => trivial

theorem readTreeBody : HeadsFit Soal.readTreeBody TreeNext := by
  have hbody : Takes Soal.readTreeBody _ _ _ _ :=
    readMapHeader.cons fun n => guarded fun _ => readU64Value.cons fun key => guarded fun _ =>
      readMapHeader.cons fun nEntries => guarded fun _ => readTreeEntries nEntries.toNat Tree.new
  refine hbody.fits.congr fun ds d => ?_
  constructor
  · rintro (h | ⟨n, _, ⟨hn, h | ⟨key, _, ⟨hkey, h | ⟨m, ds', ⟨hm, hdue⟩, rfl⟩⟩, rfl⟩⟩, rfl⟩)
    · exact h.elim
    · exact h.elim
    · exact h.elim
    · obtain rfl : n = 1 := UInt64.toNat_inj.1 (not_not.1 hn)
      obtain rfl : key = 1 := UInt64.toNat_inj.1 (not_not.1 hkey)
      exact .intro (Nat.not_lt.1 hm) hdue
  · rintro ⟨hn, hdue⟩
    refine .inr ⟨1, _, ⟨not_not.2 rfl, .inr ⟨1, _, ⟨not_not.2 rfl, ?_⟩, rfl⟩⟩, rfl⟩
    exact .inr ⟨_, _, ⟨Nat.not_lt.2 hn, hdue⟩, rfl⟩

end Cursor.Takes

/-! ## §5. The decoders. -/

/-- A body read to the end of the data makes the same requests, but for the last one. -/
theorem Cursor.HeadsFit.whole {α : Type} {r : Reader α} {next : List Datum → Due → Prop}
    (h : HeadsFit r next) : HeadsFit (wholeBody r) next := by
  intro n pos data hlen
  rw [← h n pos data hlen]
  refine allFit_bind_iff.trans (and_iff_left fun a c hrun => ?_)
  have hfinish : Light (finish >>= fun _ => (Pure.pure a : Reader α)) :=
    Light.finish.bind fun _ => Light.done _
  exact hfinish n c ((run_moves hrun).trans_le hlen)

namespace Decoder

variable {α β : Type} (d : Decoder α β) {next : List Datum → Due → Prop} {b : Bytes}

/-- An input is modest by what its heads declare. -/
theorem modest_iff (hr : HeadsFit d.reader next)
    (hpart : ∀ data, d.body b = .ok data → data.length ≤ b.length) (hb : b.length ≤ isizeMax) :
    d.Modest b ↔ ∀ data, d.body b = .ok data → HeadsBounded next b.length 0 data := by
  have hheads : ∀ data, d.body b = .ok data →
      (AllFit b.length d.reader ⟨0, data⟩ ↔ HeadsBounded next b.length 0 data) := by
    intro data hdata
    have hlen := hpart data hdata
    exact hr b.length 0 data (by omega)
  constructor
  · intro h data hdata
    exact (hheads data hdata).1 fun e he => h e ⟨data, hdata, he⟩
  · rintro h e ⟨data, hdata, he⟩
    exact (hheads data hdata).2 (h data hdata) e he

end Decoder

theorem unframe_ok_iff {domain wire data : Bytes} (hdomain : domain.length = 16) :
    unframe domain wire = .ok data ↔ wire = domain ++ data := by
  constructor
  · intro h
    unfold unframe at h
    split at h
    next => cases h
    next =>
      split at h
      next => cases h
      next htake =>
        cases h
        rw [← not_not.1 htake, List.take_append_drop]
  · rintro rfl
    exact unframe_append hdomain

/-- **Hostile bytes**: each decoder returns within bounds on exactly the inputs in which every head that
is due declares something within bounds. -/
theorem decoders_safe_iff (b : Bytes) (hb : b.length ≤ isizeMax) :
    (treeBodyDecoder.Safe b (decodeTreeBody b) ↔ HeadsBounded TreeNext b.length 0 b) ∧
    (treeWireDecoder.Safe b (decodeTreeWire b) ↔
      ∀ body, b = domainTree ++ body → HeadsBounded TreeNext b.length 0 body) ∧
    (commitBodyDecoder.Safe b (decodeCommitBody b) ↔ HeadsBounded CommitNext b.length 0 b) ∧
    (commitWireDecoder.Safe b (decodeCommitWire b) ↔
      ∀ body, b = domainCommit ++ body → HeadsBounded CommitNext b.length 0 body) ∧
    (headDecoder.Safe b (decodeHeadAnnouncement b) ↔
      (b.length ≤ maxMessageBytes → HeadsBounded AnnouncementNext b.length 0 b)) := by
  obtain ⟨h₁, h₂, h₃, h₄, h₅⟩ := decoders_safe_iff_modest b
  -- a body decoder reads its input, a wire decoder what is behind the domain
  have hself : ∀ data : Bytes, (.ok b : Res Bytes) = .ok data → data.length ≤ b.length := by
    intro data h
    cases h
    exact le_rfl
  refine ⟨h₁.trans ?_, h₂.trans ?_, h₃.trans ?_, h₄.trans ?_, h₅.trans ?_⟩
  · rw [Decoder.modest_iff _ Takes.readTreeBody.whole hself hb]
    exact ⟨fun h => h b rfl, fun h data hdata => Except.ok.inj hdata ▸ h⟩
  · rw [Decoder.modest_iff _ Takes.readTreeBody.whole (fun _ => unframe_length) hb]
    exact forall_congr' fun body => imp_congr_left (unframe_ok_iff rfl)
  · rw [Decoder.modest_iff _ Takes.readCommitBody.whole hself hb]
    exact ⟨fun h => h b rfl, fun h data hdata => Except.ok.inj hdata ▸ h⟩
  · rw [Decoder.modest_iff _ Takes.readCommitBody.whole (fun _ => unframe_length) hb]
    exact forall_congr' fun body => imp_congr_left (unframe_ok_iff rfl)
  · -- an announcement is read only up to the size of a message
    have hbody : ∀ data, headDecoder.body b = .ok data ↔ b.length ≤ maxMessageBytes ∧ data = b := by
      intro data
      show (if b.length > maxMessageBytes then fail _ else .ok b) = .ok data ↔ _
      split
      next hlarge =>
        constructor
        · intro h
          cases h
        · rintro ⟨hsmall, -⟩
          omega
      next hsmall =>
        constructor
        · intro h
          cases h
          exact ⟨Nat.not_lt.1 hsmall, rfl⟩
        · rintro ⟨-, rfl⟩
          rfl
    rw [Decoder.modest_iff _ Takes.readHeadBody.whole (fun data h => by rw [((hbody data).1 h).2]) hb]
    constructor
    · intro h hsmall
      exact h b ((hbody b).2 ⟨hsmall, rfl⟩)
    · rintro h data hdata
      obtain ⟨hsmall, rfl⟩ := (hbody data).1 hdata
      exact h hsmall

/-- A tree body whose one path declares 2^64 - 1 bytes. -/
def hostileTree : Bytes := [0xa1, 0x01, 0xa1, 0x7b, 0xff, 0xff, 0xff, 0xff, 0xff, 0xff, 0xff, 0xff]

theorem decode_hostileTree : decodeTreeBody hostileTree = .error .panic := by rfl

/-- The addition of that length to the position leaves `usize`. -/
theorem hostileTree_not_safe : ¬∀ b, treeBodyDecoder.Safe b (decodeTreeBody b) := by
  intro hall
  exact (hall hostileTree).returns decode_hostileTree

/-- Its first byte is no map of seven fields, so in a commit no head is due. -/
theorem hostileTree_commitHeads : HeadsBounded CommitNext hostileTree.length 0 hostileTree := by
  have hfirst : ∀ {v h}, IsHead 5 v h → v = 7 → h ≠ [] ∧ h.head? ≠ some 0xa1 := by
    intro v h hh hv
    cases hh with
    | short _ =>
      subst hv
      exact ⟨List.cons_ne_nil _ _, by decide⟩
    | @long info arg hw =>
      have hbyte : ∀ w ∈ [(24, 1), (25, 2), (26, 4), (27, 8)], some (initialByte 5 w.1) ≠ some 0xa1 := by
        decide
      exact ⟨List.cons_ne_nil _ _, hbyte _ hw⟩
  rintro d q v ⟨ds, p, h, rest, ⟨ds', -, rfl⟩, hp, -, hdata, -⟩
  cases hp with
  | @cons _ _ h₁ b hh hb =>
    obtain ⟨hne, hhead⟩ := hfirst hh rfl
    have hall := congrArg List.head? hdata
    rw [List.append_assoc, List.head?_append_of_ne_nil _ hne] at hall
    exact absurd hall.symm hhead

/-- The first decoder is not safe there, for its path declares too much, and the third one is. -/
theorem hostileTree_safe_iff : ¬HeadsBounded TreeNext hostileTree.length 0 hostileTree ∧
    commitBodyDecoder.Safe hostileTree (decodeCommitBody hostileTree) := by
  have hiff := decoders_safe_iff hostileTree (by decide)
  refine ⟨fun h => ?_, hiff.2.2.1.2 hostileTree_commitHeads⟩
  exact (hiff.1.2 h).returns decode_hostileTree

end Soal

/-
  Soal.Vault.Pinned — what a hash says about the object that loads under it.

  One hash, two directories with any files in them.  A wire file is pinned as a whole, and so is a
  legacy tree.  The legacy digest of a commit covers five fields: the wire version and the signature of
  a legacy text are read, and returned, without being covered.
-/
import Soal.SampleVault

namespace Soal

open FileProg

section Model

variable [Crates]

/-! ## §1. What loading compares. -/

namespace ObjectKind

variable {α : Type} (K : ObjectKind α)

/-- The byte strings that loading `h` compares by hash: the two files, the wire form of what the first
holds and the legacy form of what the second holds. -/
inductive Compared (fs : VaultFs) (h : ContentHash) (b : Bytes) : Prop
  | bin (hl : fs.lookup (K.pathBin h) = some b)
  | wire {data : Bytes} {x : α} (hl : fs.lookup (K.pathBin h) = some data)
      (hx : K.fromWireOrJson data = .ok x) (hb : K.wireBytes x = .ok b)
  | json (hl : fs.lookup (K.pathJson h) = some b)
  | legacy {data : Bytes} {x : α} (hl : fs.lookup (K.pathJson h) = some data)
      (hx : K.fromBytes data = .ok x) (hb : b = K.legacyBytes x)

/-- The object of the legacy file, when no wire file hides it. -/
def LegacyText (fs : VaultFs) (h : ContentHash) (x : α) : Prop :=
  K.pathBin h ∉ fs ∧ ∃ data, fs.lookup (K.pathJson h) = some data ∧ K.fromBytes data = .ok x

variable {K} {fs fs' : VaultFs} {h : ContentHash} {x y : α}

omit [Crates] in
theorem LegacyText.unique (hx : K.LegacyText fs h x) (hy : K.LegacyText fs h y) : x = y := by
  obtain ⟨-, data, hl, hp⟩ := hx
  obtain ⟨-, data', hl', hp'⟩ := hy
  obtain rfl := Option.some.inj (hl.symm.trans hl')
  exact Except.ok.inj (hp.symm.trans hp')

/-- What loads is what the legacy file holds, when that is what is looked at. -/
theorem LegacyText.eq_of_load (hx : ReadM.eval fs (K.load h) = .ok x) (hy : K.LegacyText fs h y) :
    x = y := by
  rcases K.load_ok_cases hx with ⟨data, hl, -⟩ | ⟨hb, data, hl, hp⟩
  · exact absurd (Fs.mem_iff_lookup.2 ⟨data, hl⟩) hy.1
  · exact LegacyText.unique ⟨hb, data, hl, (K.parseJson_ok_iff.1 hp).1⟩ hy

/-- A wire file that loads starts with the domain frame. -/
theorem framed_of_parseBin {S : Bytes → Prop} (hS : CollisionFree S)
    (hC : ∀ b, K.Compared fs h b → S b)
    (hwire : ∀ x b, K.wireBytes x = .ok b → isFramed K.domain b = true) {data : Bytes}
    (hl : fs.lookup (K.pathBin h) = some data) (hp : K.parseBin h data = .ok x) :
    isFramed K.domain data = true := by
  obtain ⟨hdata, hparse, hhash⟩ := K.parseBin_ok_iff.1 hp
  obtain ⟨wire, hb, hh⟩ : ∃ wire, K.wireBytes x = .ok wire ∧ ContentHash.of wire = h := by
    unfold hash at hhash
    cases hw : K.wireBytes x with
    | error e =>
      rw [hw] at hhash
      cases hhash
    | ok wire =>
      rw [hw] at hhash
      exact ⟨wire, rfl, Except.ok.inj hhash⟩
  have heq : data = wire :=
    hS _ _ (hC _ (.bin hl)) (hC _ (.wire hl hparse hb)) (hdata.trans hh.symm)
  rw [heq]
  exact hwire x wire hb

/-- A framed wire file and a legacy text do not share a hash. -/
theorem not_bin_and_json {S : Bytes → Prop} (hS : CollisionFree S)
    (hC : ∀ b, K.Compared fs h b → S b) (hC' : ∀ b, K.Compared fs' h b → S b)
    (hjson : K.JsonUnframed) {data data' : Bytes} (hf : isFramed K.domain data = true)
    (hl : fs.lookup (K.pathBin h) = some data) (hdata : ContentHash.of data = h)
    (hl' : fs'.lookup (K.pathJson h) = some data') (hp' : K.parseJson h data' = .ok y) : False := by
  obtain ⟨hparse, hhash | hhash⟩ := K.parseJson_ok_iff.1 hp'
  · have hh : ContentHash.of (K.legacyBytes y) = h := hhash
    have heq := hS _ _ (hC _ (.bin hl)) (hC' _ (.legacy hl' hparse rfl)) (hdata.trans hh.symm)
    rw [heq, hjson.printed y] at hf
    cases hf
  · have heq := hS _ _ (hC _ (.bin hl)) (hC' _ (.json hl')) (hdata.trans hhash.symm)
    rw [heq, hjson.parsed data' y hparse] at hf
    cases hf

/-- **What loads under one hash in two directories is one object, or both are legacy texts**, and these
have one legacy form or one is the legacy form of the other. -/
theorem pinned {S : Bytes → Prop} (hS : CollisionFree S) (hC : ∀ b, K.Compared fs h b → S b)
    (hC' : ∀ b, K.Compared fs' h b → S b) (hjson : K.JsonUnframed)
    (hwire : ∀ x b, K.wireBytes x = .ok b → isFramed K.domain b = true)
    (hx : ReadM.eval fs (K.load h) = .ok x) (hy : ReadM.eval fs' (K.load h) = .ok y) :
    x = y ∨ (K.LegacyText fs h x ∧ K.LegacyText fs' h y) ∧ (K.legacyBytes x = K.legacyBytes y ∨
      K.fromBytes (K.legacyBytes x) = .ok y ∨ K.fromBytes (K.legacyBytes y) = .ok x) := by
  rcases K.load_ok_cases hx with ⟨data, hl, hp⟩ | ⟨hb, data, hl, hp⟩ <;>
    rcases K.load_ok_cases hy with ⟨data', hl', hp'⟩ | ⟨hb', data', hl', hp'⟩
  · -- two wire files
    obtain ⟨hdata, hparse, -⟩ := K.parseBin_ok_iff.1 hp
    obtain ⟨hdata', hparse', -⟩ := K.parseBin_ok_iff.1 hp'
    obtain rfl := hS _ _ (hC _ (.bin hl)) (hC' _ (.bin hl')) (hdata.trans hdata'.symm)
    exact .inl (Except.ok.inj (hparse.symm.trans hparse'))
  · have hf := framed_of_parseBin hS hC hwire hl hp
    exact (not_bin_and_json hS hC hC' hjson hf hl (K.parseBin_ok_iff.1 hp).1 hl' hp').elim
  · have hf := framed_of_parseBin hS hC' hwire hl' hp'
    exact (not_bin_and_json hS hC' hC hjson hf hl' (K.parseBin_ok_iff.1 hp').1 hl hp).elim
  · -- two legacy files, each accepted by its own bytes or by its legacy form
    obtain ⟨hparse, hhash⟩ := K.parseJson_ok_iff.1 hp
    obtain ⟨hparse', hhash'⟩ := K.parseJson_ok_iff.1 hp'
    have hboth : K.LegacyText fs h x ∧ K.LegacyText fs' h y :=
      ⟨⟨hb, data, hl, hparse⟩, ⟨hb', data', hl', hparse'⟩⟩
    have hlegacy := hC _ (.legacy hl hparse rfl)
    have hlegacy' := hC' _ (.legacy hl' hparse' rfl)
    rcases hhash with hhash | hhash <;> rcases hhash' with hhash' | hhash'
    · exact .inr ⟨hboth, .inl (hS _ _ hlegacy hlegacy' (hhash.trans hhash'.symm))⟩
    · have heq := hS _ _ hlegacy (hC' _ (.json hl')) (Eq.trans hhash hhash'.symm)
      exact .inr ⟨hboth, .inr (.inl (heq ▸ hparse'))⟩
    · have heq := hS _ _ (hC _ (.json hl)) hlegacy' (Eq.trans hhash (Eq.symm hhash'))
      exact .inr ⟨hboth, .inr (.inr (heq ▸ hparse))⟩
    · obtain rfl := hS _ _ (hC _ (.json hl)) (hC' _ (.json hl')) (hhash.trans hhash'.symm)
      exact .inl (Except.ok.inj (hparse.symm.trans hparse'))

end ObjectKind

/-! ## §2. Commits and trees. -/

/-- The fields a legacy digest covers; the others as a text without them is read. -/
def Commit.stripped (c : Commit) : Commit := { c with protocolVersion := 0, signature := none }

/-- The laws of the legacy texts: they carry no frame, and a legacy form that is read again gives what
it was written from. -/
structure LegacyLaws : Prop where
  commit : commitKind.JsonUnframed
  tree : treeKind.JsonUnframed
  commitAgain : ∀ data c, commitKind.fromBytes data = .ok c →
    commitKind.fromBytes (commitKind.legacyBytes c) = .ok c.stripped
  treeAgain : ∀ data t, treeKind.fromBytes data = .ok t →
    treeKind.fromBytes (treeKind.legacyBytes t) = .ok t

/-- Where both directories have no wire file of this name, the two legacy texts agree on the wire version
and on the signature. -/
def UncoveredAgree (fs fs' : VaultFs) (h : ContentHash) : Prop :=
  ∀ c c', commitKind.LegacyText fs h c → commitKind.LegacyText fs' h c' →
    c.protocolVersion = c'.protocolVersion ∧ c.signature = c'.signature

section Pinned

variable {fs fs' : VaultFs} {h : ContentHash}

omit [Crates] in
/-- Two commits that agree on the covered fields are equal when they agree on the others. -/
theorem Commit.eq_of_stripped {c c' : Commit} (hs : c.stripped = c'.stripped)
    (hv : c.protocolVersion = c'.protocolVersion) (hsig : c.signature = c'.signature) : c = c' := by
  cases c
  cases c'
  simp only [Commit.stripped, Commit.mk.injEq] at hs hv hsig ⊢
  exact ⟨hs.1, hs.2.1, hs.2.2.1, hs.2.2.2.1, hs.2.2.2.2.1, hv, hsig⟩

/-- **A hash pins the covered fields of a commit**, and the others unless both files are legacy
texts. -/
theorem commit_pinned (laws : LegacyLaws) (hfree : CollisionFree fun b =>
      commitKind.Compared fs h b ∨ commitKind.Compared fs' h b) {c c' : Commit}
    (hc : ReadM.eval fs (loadCommit h) = .ok c) (hc' : ReadM.eval fs' (loadCommit h) = .ok c') :
    c = c' ∨ (commitKind.LegacyText fs h c ∧ commitKind.LegacyText fs' h c') ∧
      c.stripped = c'.stripped := by
  rcases ObjectKind.pinned hfree (fun _ => .inl) (fun _ => .inr) laws.commit
    (fun _ _ hb => (decodeCommitWire_encodeCommitWire hb).1) hc hc' with heq | ⟨⟨ht, ht'⟩, hform⟩
  · exact .inl heq
  · obtain ⟨-, data, -, hp⟩ := id ht
    obtain ⟨-, data', -, hp'⟩ := id ht'
    have hagain := laws.commitAgain data c hp
    have hagain' := laws.commitAgain data' c' hp'
    refine .inr ⟨⟨ht, ht'⟩, ?_⟩
    rcases hform with hsame | hread | hread
    · rw [hsame, hagain'] at hagain
      exact (Except.ok.inj hagain).symm
    · rw [hagain] at hread
      rw [← Except.ok.inj hread]
      rfl
    · rw [hagain'] at hread
      rw [← Except.ok.inj hread]
      rfl

/-- **A hash pins a tree.** -/
theorem tree_pinned (laws : LegacyLaws) (hfree : CollisionFree fun b =>
      treeKind.Compared fs h b ∨ treeKind.Compared fs' h b) {t t' : Tree}
    (ht : ReadM.eval fs (loadTree h) = .ok t) (ht' : ReadM.eval fs' (loadTree h) = .ok t') :
    t = t' := by
  rcases ObjectKind.pinned hfree (fun _ => .inl) (fun _ => .inr) laws.tree
    (fun _ _ hb => encodeTreeWire_framed hb) ht ht' with heq | ⟨⟨hx, hy⟩, hform⟩
  · exact heq
  · obtain ⟨-, data, -, hp⟩ := hx
    obtain ⟨-, data', -, hp'⟩ := hy
    have hagain := laws.treeAgain data t hp
    have hagain' := laws.treeAgain data' t' hp'
    rcases hform with hsame | hread | hread
    · rw [hsame, hagain'] at hagain
      exact (Except.ok.inj hagain).symm
    · exact Except.ok.inj (hagain.symm.trans hread)
    · exact (Except.ok.inj (hagain'.symm.trans hread)).symm

end Pinned

/-- **When a hash pins its objects.**  Trees that load under one hash in two directories are equal;
commits are equal if and only if the members their legacy digest leaves out agree, where both were read
from legacy texts. -/
theorem hash_pins_iff (laws : LegacyLaws) (fs fs' : VaultFs) (h : ContentHash)
    (hfree : CollisionFree fun b => commitKind.Compared fs h b ∨ commitKind.Compared fs' h b)
    (hfreeTree : CollisionFree fun b => treeKind.Compared fs h b ∨ treeKind.Compared fs' h b) :
    (∀ c c', ReadM.eval fs (loadCommit h) = .ok c → ReadM.eval fs' (loadCommit h) = .ok c' →
      (c = c' ↔ UncoveredAgree fs fs' h)) ∧
    ∀ t t', ReadM.eval fs (loadTree h) = .ok t → ReadM.eval fs' (loadTree h) = .ok t' → t = t' := by
  refine ⟨fun c c' hc hc' => ⟨?_, fun hagree => ?_⟩, fun t t' => tree_pinned laws hfreeTree⟩
  · rintro rfl d d' hd hd'
    obtain rfl := ObjectKind.LegacyText.eq_of_load hc hd
    obtain rfl := ObjectKind.LegacyText.eq_of_load hc' hd'
    exact ⟨rfl, rfl⟩
  · rcases commit_pinned laws hfree hc hc' with heq | ⟨⟨ht, ht'⟩, hs⟩
    · exact heq
    · obtain ⟨hv, hsig⟩ := hagree c c' ht ht'
      exact Commit.eq_of_stripped hs hv hsig

end Model

/-! ## §3. A signature that was put into a legacy text. -/

section Sample

/-- `commitA` as its legacy text is read. -/
def legacyCommitA : Commit := commitA.stripped

/-- The legacy text of `commitA` parses, with the made-up signature and without it. -/
def editedFromSlice (b : Bytes) : Except String Commit :=
  if b = Text.toUtf8 forgedText then .ok forgedCommit
  else if b = Text.toUtf8 legacyTextA then .ok legacyCommitA
  else .error "expected value at line 1 column 1"

/-- The third-party functions on the two texts. -/
@[reducible] noncomputable def editedSample : Crates :=
  { standIn forgedDigest with
    commitFromSlice := editedFromSlice
    legacyCommitToVec := fun _ _ _ _ _ => Text.toUtf8 legacyTextA }

attribute [local instance] editedSample

/-- `commitA` in a legacy file. -/
def legacyDisk : VaultFs := diskOf [(commitPathJson hashLegacyA, Text.toUtf8 legacyTextA)]

/-- The same file after an edit. -/
def editedDisk : VaultFs := diskOf [(commitPathJson hashLegacyA, Text.toUtf8 forgedText)]

theorem legacyTextA_facts : Text.toUtf8 legacyTextA ≠ Text.toUtf8 forgedText ∧
    isFramed domainCommit (Text.toUtf8 legacyTextA) = false := by decide +kernel

theorem edited_fromBytes : commitKind.fromBytes (Text.toUtf8 legacyTextA) = .ok legacyCommitA ∧
    commitKind.fromBytes (Text.toUtf8 forgedText) = .ok forgedCommit := by
  have hslice : commitKind.fromBytes = fun b => serde (editedFromSlice b) := rfl
  have hlegacy : editedFromSlice (Text.toUtf8 legacyTextA) = .ok legacyCommitA := by
    rw [editedFromSlice, if_neg legacyTextA_facts.1, if_pos rfl]
  have hforged : editedFromSlice (Text.toUtf8 forgedText) = .ok forgedCommit := if_pos rfl
  rw [hslice]
  exact ⟨congrArg serde hlegacy, congrArg serde hforged⟩

/-- Both commits have the legacy form `legacyTextA`. -/
theorem edited_legacyBytes (c : Commit) : commitKind.legacyBytes c = Text.toUtf8 legacyTextA := rfl

/-- Nothing else parses. -/
theorem edited_parsed {b : Bytes} {c : Commit} (h : commitKind.fromBytes b = .ok c) :
    b = Text.toUtf8 forgedText ∧ c = forgedCommit ∨
      b = Text.toUtf8 legacyTextA ∧ c = legacyCommitA := by
  by_cases hf : b = Text.toUtf8 forgedText
  · subst hf
    exact .inl ⟨rfl, Except.ok.inj (h.symm.trans edited_fromBytes.2)⟩
  · by_cases hl : b = Text.toUtf8 legacyTextA
    · subst hl
      exact .inr ⟨rfl, Except.ok.inj (h.symm.trans edited_fromBytes.1)⟩
    · have hno : commitKind.fromBytes b = serde (editedFromSlice b) := rfl
      rw [editedFromSlice, if_neg hf, if_neg hl] at hno
      cases h.symm.trans hno

theorem edited_laws : LegacyLaws where
  commit := {
    parsed := by
      intro b c h
      rcases edited_parsed h with ⟨rfl, -⟩ | ⟨rfl, -⟩
      · exact forgedText_unframed
      · exact legacyTextA_facts.2
    printed := fun c => by
      rw [edited_legacyBytes]
      exact legacyTextA_facts.2 }
  tree := {
    parsed := fun b t h => by cases h
    printed := fun _ => by
      show isFramed domainTree (Text.toUtf8 "\x7b\x7d") = false
      decide }
  commitAgain := by
    intro b c h
    rw [edited_legacyBytes]
    rcases edited_parsed h with ⟨-, rfl⟩ | ⟨-, rfl⟩
    · exact edited_fromBytes.1
    · exact edited_fromBytes.1
  treeAgain b t h := by cases h

/-- What loading `hashLegacyA` compares on the two disks. -/
theorem edited_compared {fs : VaultFs} {text : String} {b : Bytes}
    (hfs : fs = diskOf [(commitPathJson hashLegacyA, Text.toUtf8 text)])
    (h : commitKind.Compared fs hashLegacyA b) :
    b = Text.toUtf8 text ∨ b = Text.toUtf8 legacyTextA := by
  have hbin : fs.lookup (commitKind.pathBin hashLegacyA) = none := by
    rw [hfs]
    simp [commitKind, ObjectKind.pathBin, commitPathJson]
  have hjson : fs.lookup (commitKind.pathJson hashLegacyA) = some (Text.toUtf8 text) := by
    rw [hfs]
    simp [commitKind, ObjectKind.pathJson, commitPathJson]
  cases h with
  | bin hl => cases hbin.symm.trans hl
  | wire hl _ _ => cases hbin.symm.trans hl
  | json hl => exact .inl (Option.some.inj (hl.symm.trans hjson))
  | legacy _ _ hb => exact .inr hb

theorem edited_collisionFree : CollisionFree fun b =>
    commitKind.Compared legacyDisk hashLegacyA b ∨ commitKind.Compared editedDisk hashLegacyA b := by
  have htexts : ∀ b, commitKind.Compared legacyDisk hashLegacyA b ∨
      commitKind.Compared editedDisk hashLegacyA b →
      b = Text.toUtf8 forgedText ∨ b = Text.toUtf8 legacyTextA := by
    rintro b (hb | hb)
    · exact .inr ((edited_compared rfl hb).elim id id)
    · exact edited_compared rfl hb
  have hof : ∀ b, ContentHash.of b = forgedDigest b := fun _ => rfl
  obtain ⟨hforged, hlegacy, -⟩ := forgedDigest_texts
  intro a b ha hb hab
  rw [hof, hof] at hab
  rcases htexts a ha with rfl | rfl <;> rcases htexts b hb with rfl | rfl
  · rfl
  · rw [hforged, hlegacy] at hab
    exact absurd hab (by decide)
  · rw [hforged, hlegacy] at hab
    exact absurd hab (by decide)
  · rfl

/-- Both files load under the one hash. -/
theorem edited_loads : ReadM.eval legacyDisk (loadCommit hashLegacyA) = .ok legacyCommitA ∧
    ReadM.eval editedDisk (loadCommit hashLegacyA) = .ok forgedCommit := by
  have hload : ∀ (text : String) (c : Commit),
      commitKind.fromBytes (Text.toUtf8 text) = .ok c →
      ReadM.eval (diskOf [(commitPathJson hashLegacyA, Text.toUtf8 text)])
        (loadCommit hashLegacyA) = .ok c := by
    intro text c hc
    have hno : commitKind.pathBin hashLegacyA ∉
        diskOf [(commitPathJson hashLegacyA, Text.toUtf8 text)] := by
      rw [← AList.lookup_eq_none]
      simp [commitKind, ObjectKind.pathBin, commitPathJson]
    have hl : (diskOf [(commitPathJson hashLegacyA, Text.toUtf8 text)]).lookup
        (commitKind.pathJson hashLegacyA) = some (Text.toUtf8 text) := by
      simp [commitKind, ObjectKind.pathJson, commitPathJson]
    have hof : ∀ b, ContentHash.of b = forgedDigest b := fun _ => rfl
    have hlegacy : commitKind.legacyJsonHash c = ContentHash.of (Text.toUtf8 legacyTextA) := rfl
    have hhash : commitKind.legacyJsonHash c = hashLegacyA := by
      rw [hlegacy, hof, forgedDigest_texts.2.1]
    exact (commitKind.eval_load_json hno hl).trans
      (commitKind.parseJson_ok_iff.2 ⟨hc, .inl hhash⟩)
  exact ⟨hload _ _ edited_fromBytes.1, hload _ _ edited_fromBytes.2⟩

/-- An edited file loads as another commit. -/
theorem edited_not_pinned : ¬∀ (fs fs' : VaultFs) (h : ContentHash) (c c' : Commit),
    (CollisionFree fun b => commitKind.Compared fs h b ∨ commitKind.Compared fs' h b) →
    ReadM.eval fs (loadCommit h) = .ok c → ReadM.eval fs' (loadCommit h) = .ok c' → c = c' := by
  intro hall
  have heq := hall _ _ _ _ _ edited_collisionFree edited_loads.1 edited_loads.2
  have hsig : legacyCommitA.signature = forgedCommit.signature := congrArg Commit.signature heq
  cases hsig

/-- The rule at the edited file. -/
theorem edited_pins_iff :
    legacyCommitA = forgedCommit ↔ UncoveredAgree legacyDisk editedDisk hashLegacyA := by
  have htree : ∀ b, ¬(treeKind.Compared legacyDisk hashLegacyA b ∨
      treeKind.Compared editedDisk hashLegacyA b) := by
    have hno : ∀ (text : String) (p : FilePath VaultDir), p.dir = .trees →
        (diskOf [(commitPathJson hashLegacyA, Text.toUtf8 text)]).lookup p = none := by
      rintro text ⟨d, n⟩ rfl
      simp [commitPathJson]
    rintro b ((hl | hl | hl | hl) | (hl | hl | hl | hl)) <;>
      cases (hno _ _ rfl).symm.trans hl
  exact (hash_pins_iff edited_laws legacyDisk editedDisk hashLegacyA edited_collisionFree
    fun a _ ha => absurd ha (htree a)).1 _ _ edited_loads.1 edited_loads.2

end Sample

end Soal

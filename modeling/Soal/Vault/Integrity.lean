/-
  Soal.Vault.Integrity — what a stored object file has been checked for.

  An object that loads was parsed from bytes that hash to its name, or whose legacy form does.  An
  object that was imported loads as what was imported.  Two laws of the outside world carry the
  rest: the bytes at hand do not collide under BLAKE3, and no JSON text starts with a domain frame.
-/
import Soal.Lib.Confined
import Soal.Vault.Objects

namespace Soal

open FileProg

variable [Crates]

/-- BLAKE3 separates the byte strings of a set. -/
def CollisionFree (S : Bytes → Prop) : Prop :=
  ∀ a b, S a → S b → ContentHash.of a = ContentHash.of b → a = b

theorem CollisionFree.mono {S T : Bytes → Prop} (h : CollisionFree T) (hST : ∀ b, S b → T b) :
    CollisionFree S := fun a b ha hb => h a b (hST a ha) (hST b hb)

namespace ObjectKind

variable {α : Type} (K : ObjectKind α) {fs : VaultFs} {h : ContentHash} {data : Bytes} {x : α}

/-! ## §1. Loading, inverted. -/

theorem parseBin_ok_iff : K.parseBin h data = .ok x ↔
    ContentHash.of data = h ∧ K.fromWireOrJson data = .ok x ∧ K.hash x = .ok h := by
  unfold parseBin
  constructor
  · intro hx
    split at hx
    next => cases hx
    next hdata =>
      obtain ⟨y, hy, hx⟩ := bind_ok_iff.1 hx
      obtain ⟨actual, hactual, hx⟩ := bind_ok_iff.1 hx
      split at hx
      next => cases hx
      next heq =>
        cases hx
        exact ⟨not_not.1 hdata, hy, by rw [hactual, not_not.1 heq]⟩
  · rintro ⟨hdata, hy, hhash⟩
    rw [if_neg (not_not.2 hdata)]
    refine bind_ok_iff.2 ⟨x, hy, bind_ok_iff.2 ⟨h, hhash, ?_⟩⟩
    rw [if_neg (by simp)]
    rfl

theorem parseJson_ok_iff : K.parseJson h data = .ok x ↔
    K.fromBytes data = .ok x ∧ (K.legacyJsonHash x = h ∨ ContentHash.of data = h) := by
  unfold parseJson
  constructor
  · intro hx
    obtain ⟨y, hy, hx⟩ := bind_ok_iff.1 hx
    dsimp only at hx
    split at hx
    next => cases hx
    next hne =>
      cases hx
      rw [not_and_or, not_not, not_not] at hne
      exact ⟨hy, hne⟩
  · rintro ⟨hy, hhash⟩
    refine bind_ok_iff.2 ⟨x, hy, ?_⟩
    show (if _ then _ else _) = _
    rw [if_neg (by rw [not_and_or, not_not, not_not]; exact hhash)]
    rfl

/-- What loads was parsed from one of the two files. -/
theorem load_ok_cases (hx : ReadM.eval fs (K.load h) = .ok x) :
    (∃ data, fs.lookup (K.pathBin h) = some data ∧ K.parseBin h data = .ok x) ∨
      K.pathBin h ∉ fs ∧ ∃ data, fs.lookup (K.pathJson h) = some data ∧
        K.parseJson h data = .ok x := by
  cases hbin : fs.lookup (K.pathBin h) with
  | some data => exact .inl ⟨data, rfl, by rw [← hx, K.eval_load_bin hbin]⟩
  | none =>
    have hb : K.pathBin h ∉ fs := AList.lookup_eq_none.1 hbin
    cases hjson : fs.lookup (K.pathJson h) with
    | some data => exact .inr ⟨hb, data, rfl, by rw [← hx, K.eval_load_json hb hjson]⟩
    | none =>
      rw [K.eval_load_absent (not_or.2 ⟨hb, AList.lookup_eq_none.1 hjson⟩)] at hx
      cases hx

/-! ## §2. Frames and JSON. -/

/-- A JSON object starts with a brace, never with a domain frame. -/
structure JsonUnframed : Prop where
  parsed : ∀ data x, K.fromBytes data = .ok x → isFramed K.domain data = false
  printed : ∀ x, isFramed K.domain (K.legacyBytes x) = false

/-- The byte strings that loading an object of this kind compares by hash: the files, and the
legacy forms of what the JSON files hold. -/
inductive Hashed (fs : VaultFs) (b : Bytes) : Prop
  | bin {h : ContentHash} (hl : fs.lookup (K.pathBin h) = some b)
  | json {h : ContentHash} (hl : fs.lookup (K.pathJson h) = some b)
  | legacy {h : ContentHash} {data : Bytes} {x : α} (hl : fs.lookup (K.pathJson h) = some data)
      (hx : K.fromBytes data = .ok x) (hb : b = K.legacyBytes x)

/-- An object that loads under the hash of framed bytes is stored as those bytes. -/
theorem stored_of_load {wire : Bytes} (hjson : K.JsonUnframed)
    (hfree : ∀ b, K.Hashed fs b → ContentHash.of b = ContentHash.of wire → b = wire)
    (hframed : isFramed K.domain wire = true)
    (hx : ReadM.eval fs (K.load (.of wire)) = .ok x) :
    fs.lookup (K.pathBin (.of wire)) = some wire := by
  rcases K.load_ok_cases hx with ⟨data, hl, hp⟩ | ⟨-, data, hl, hp⟩
  · obtain ⟨hdata, -⟩ := K.parseBin_ok_iff.1 hp
    rw [hl, hfree data (.bin hl) hdata]
  · exfalso
    obtain ⟨hparse, hhash | hhash⟩ := K.parseJson_ok_iff.1 hp
    · have heq := hfree _ (.legacy hl hparse rfl) hhash
      have hno := hjson.printed x
      rw [heq, hframed] at hno
      cases hno
    · have heq := hfree data (.json hl) hhash
      have hno := hjson.parsed data x hparse
      rw [heq, hframed] at hno
      cases hno

/-! ## §3. Imports. -/

/-- Importing these bytes under this hash stores the object `x`. -/
structure Imports (h : ContentHash) (data : Bytes) (x : α) : Prop where
  hash_eq : ContentHash.of data = h
  framed : isFramed K.domain data = true →
    K.fromWireOrJson data = .ok x ∧ K.hash x = .ok h ∧ K.verify x = .ok ()
  json : isFramed K.domain data = false → K.fromBytes data = .ok x

/-- The file an import writes. -/
def importPath (h : ContentHash) (data : Bytes) : FilePath VaultDir :=
  if isFramed K.domain data then K.pathBin h else K.pathJson h

theorem Imports.unique {y : α} (hx : K.Imports h data x) (hy : K.Imports h data y) : x = y := by
  cases hf : isFramed K.domain data with
  | true => exact Except.ok.inj ((hx.framed hf).1.symm.trans (hy.framed hf).1)
  | false => exact Except.ok.inj ((hx.json hf).symm.trans (hy.json hf))

/-- **An imported object loads as what was imported.** -/
theorem Imports.load (hx : K.Imports h data x) (hl : fs.lookup (K.importPath h data) = some data)
    (hbin : isFramed K.domain data = false → K.pathBin h ∉ fs) :
    ReadM.eval fs (K.load h) = .ok x := by
  unfold importPath at hl
  cases hf : isFramed K.domain data with
  | true =>
    obtain ⟨hparse, hhash, -⟩ := hx.framed hf
    rw [if_pos hf] at hl
    rw [K.eval_load_bin hl]
    exact K.parseBin_ok_iff.2 ⟨hx.hash_eq, hparse, hhash⟩
  | false =>
    rw [if_neg (by simp [hf])] at hl
    rw [K.eval_load_json (hbin hf) hl]
    exact K.parseJson_ok_iff.2 ⟨hx.json hf, .inr hx.hash_eq⟩

section Rule

variable {env : Outside} {I : VaultWorld → Prop} {w : VaultWorld}

/-- An import checks everything before it writes. -/
theorem wp_importBytes (hI : I w) (hw : ∀ x, K.Imports h data x →
      I (w.change (.truncate (K.importPath h data))) ∧
        I (w.written (K.importPath h data) data)) :
    wp env I (K.importBytes h data) (fun r w' =>
      (∃ e, r = .error e ∧ w' = w ∧ ∀ x, ¬K.Imports h data x) ∨
      ∃ x, K.Imports h data x ∧ r = .ok () ∧ w' = w.written (K.importPath h data) data) w := by
  -- the two ends: refused with nothing written, or written once
  have hfail : ∀ e : Fault, (∀ x, ¬K.Imports h data x) → wp env I (.done (.error e) : Action Unit)
      (fun r w' => (∃ e, r = .error e ∧ w' = w ∧ ∀ x, ¬K.Imports h data x) ∨
        ∃ x, K.Imports h data x ∧ r = .ok () ∧ w' = w.written (K.importPath h data) data) w :=
    fun e hno => ⟨hI, .inl ⟨e, rfl, rfl, hno⟩⟩
  have hwrite : ∀ x, K.Imports h data x →
      wp env I (writeFile (K.importPath h data) data : Action Unit)
      (fun r w' => (∃ e, r = .error e ∧ w' = w ∧ ∀ x, ¬K.Imports h data x) ∨
        ∃ x, K.Imports h data x ∧ r = .ok () ∧ w' = w.written (K.importPath h data) data) w :=
    fun x hx => wp_writeFile.2 ⟨hI, (hw x hx).1, (hw x hx).2, .inr ⟨x, hx, rfl, rfl⟩⟩
  unfold importBytes
  split
  next hne => exact hfail _ fun x hx => hne hx.hash_eq
  next hdata =>
    have hdata := not_not.1 hdata
    split
    -- wire bytes: parsed, hashed again, verified
    next hf =>
      have hpath : K.importPath h data = K.pathBin h := if_pos hf
      refine wp_compute hI (fun x hx => ?_) (fun e he => ?_)
      · refine wp_compute hI (fun actual hactual => ?_) (fun e he => ?_)
        · split
          next hne =>
            refine hfail _ fun y hy => hne ?_
            obtain ⟨hy₁, hy₂, -⟩ := hy.framed hf
            obtain rfl := Except.ok.inj (hx.symm.trans hy₁)
            exact Except.ok.inj (hactual.symm.trans hy₂)
          next heq =>
            have hhash : K.hash x = .ok h := not_not.1 heq ▸ hactual
            refine wp_compute hI (fun _ hv => ?_) (fun e he => ?_)
            · rw [← hpath]
              exact hwrite x ⟨hdata, fun _ => ⟨hx, hhash, hv⟩, fun hj => by simp [hf] at hj⟩
            · refine (hfail e fun y hy => ?_).2
              obtain ⟨hy₁, -, hy₃⟩ := hy.framed hf
              obtain rfl := Except.ok.inj (hx.symm.trans hy₁)
              cases he.symm.trans hy₃
        · refine (hfail e fun y hy => ?_).2
          obtain ⟨hy₁, hy₂, -⟩ := hy.framed hf
          obtain rfl := Except.ok.inj (hx.symm.trans hy₁)
          cases he.symm.trans hy₂
      · exact (hfail e fun y hy => by cases he.symm.trans (hy.framed hf).1).2
    next hf =>
      -- anything else must parse as JSON; no signature is looked at
      have hf : isFramed K.domain data = false := by simpa using hf
      have hpath : K.importPath h data = K.pathJson h := if_neg (by simp [hf])
      refine wp_compute hI (fun x hx => ?_) (fun e he => ?_)
      · rw [if_neg (by simp [hdata]), ← hpath]
        exact hwrite x ⟨hdata, fun hj => by simp [hf] at hj, fun _ => hx⟩
      · exact (hfail e fun y hy => by cases he.symm.trans (hy.json hf)).2

/-- How a successful import ends. -/
theorem importBytes_outcome {fs : VaultFs} {w' : VaultWorld}
    (hrun : run env (K.importBytes h data) (World.boot fs) = (.ok (), w')) :
    ∃ x, K.Imports h data x ∧ w' = (World.boot fs).written (K.importPath h data) data := by
  have hrule : wp env (fun _ => True) (K.importBytes h data) _ (World.boot fs) :=
    K.wp_importBytes trivial fun _ _ => ⟨trivial, trivial⟩
  replace hrule := hrule.post
  rw [hrun] at hrule
  rcases hrule with ⟨e, he, -, -⟩ | ⟨x, hx, -, hw⟩
  · cases he
  · exact ⟨x, hx, hw⟩

/-- What can be imported is. -/
theorem run_importBytes (env : Outside) (fs : VaultFs) (hx : K.Imports h data x) :
    run env (K.importBytes h data) (World.boot fs) =
      (.ok (), (World.boot fs).written (K.importPath h data) data) := by
  have hrule : wp env (fun _ => True) (K.importBytes h data) _ (World.boot fs) :=
    K.wp_importBytes trivial fun _ _ => ⟨trivial, trivial⟩
  replace hrule := hrule.post
  rcases hrule with ⟨e, -, -, hno⟩ | ⟨y, -, hr, hw⟩
  · exact absurd hx (hno x)
  · exact Prod.ext hr hw

end Rule

/-! ## §4. After an import. -/

variable {fs : VaultFs}

/-- Framed bytes load as what they are. -/
theorem Imports.load_framed (fs : VaultFs) (hx : K.Imports h data x) (hf : isFramed K.domain data = true) :
    ReadM.eval ((World.boot fs).written (K.importPath h data) data).fs (K.load h) = .ok x := by
  refine hx.load _ ?_ fun hf' => by simp [hf] at hf'
  rw [World.lookup_written, if_pos rfl]

/-- JSON loads as what it is, unless a wire file hides it. -/
theorem Imports.load_json (hx : K.Imports h data x) (hf : isFramed K.domain data = false)
    (hb : K.pathBin h ∉ fs) :
    ReadM.eval ((World.boot fs).written (K.importPath h data) data).fs (K.load h) = .ok x := by
  refine hx.load _ ?_ fun _ hm => hb ((mem_congr ?_).1 hm)
  · rw [World.lookup_written, if_pos rfl]
  · rw [World.lookup_written, importPath, if_neg (by simp [hf])]
    rfl

/-- Behind a wire file, a JSON import changes nothing. -/
theorem load_behind_bin (hf : isFramed K.domain data = false) (hb : K.pathBin h ∈ fs) :
    ReadM.eval ((World.boot fs).written (K.importPath h data) data).fs (K.load h) =
      ReadM.eval fs (K.load h) := by
  obtain ⟨old, hold⟩ := Fs.mem_iff_lookup.1 hb
  rw [K.eval_load_bin hold]
  refine K.eval_load_bin ?_
  rw [World.lookup_written, importPath, if_neg (by simp [hf])]
  exact hold

end ObjectKind

omit [Crates] in
/-- A tree's wire form carries the tree frame. -/
theorem encodeTreeWire_framed {tree : Tree} {bytes : Bytes} (h : encodeTreeWire tree = .ok bytes) :
    isFramed domainTree bytes = true := by
  obtain ⟨body, -, hw⟩ := bind_ok_iff.1 h
  obtain ⟨rfl, -⟩ := frame_ok_iff.1 hw
  exact isFramed_append domainTree_length

/-- The wire form of a commit whose signature verifies is accepted under its own hash. -/
theorem imports_commitWire {c : Commit} {bytes : Bytes} (hb : encodeCommitWire c = .ok bytes)
    (hv : verifyCommitSignature c.normal = .ok ()) :
    commitKind.Imports (.of bytes) bytes c.normal := by
  obtain ⟨hframed, hdec⟩ := decodeCommitWire_encodeCommitWire hb
  refine ⟨rfl, fun _ => ⟨?_, ?_, hv⟩, fun hf => by cases hf.symm.trans hframed⟩
  · show Commit.fromWireOrJson bytes = .ok c.normal
    rw [Commit.fromWireOrJson, if_pos hframed, hdec]
  · show (encodeCommitWire c.normal).map ContentHash.of = _
    rw [encodeCommitWire_normal, hb]
    rfl

/-- So is the wire form of a tree of valid paths. -/
theorem imports_treeWire {tree : Tree} {bytes : Bytes} (hb : encodeTreeWire tree = .ok bytes)
    (hvalid : ∀ p ∈ tree.entries.entries, validatePath p.1 = .ok ()) :
    treeKind.Imports (.of bytes) bytes tree := by
  obtain ⟨hframed, hdec⟩ := decodeTreeWire_encodeTreeWire hb hvalid
  refine ⟨rfl, fun _ => ⟨?_, ?_, rfl⟩, fun hf => by cases hf.symm.trans hframed⟩
  · show Tree.fromWireOrJson bytes = .ok tree
    rw [Tree.fromWireOrJson, if_pos hframed, hdec]
  · show (encodeTreeWire tree).map ContentHash.of = _
    rw [hb]
    rfl

end Soal

/-
  Soal.Runs.Retain — what goes on loading while operations write.

  A wire file is written under its own hash, so an object that loaded before loads after it as the
  same; a JSON text is written under its own hash too, and describes the same object as the text it
  replaces.  `Retains` collects what completeness of a commit rests on.
-/
import Soal.Sync.Success
import Soal.Vault.Collect
import Soal.Vault.Committing

namespace Soal

open FileProg

variable [Crates]

/-! ## §1. One object written. -/

namespace ObjectKind

variable {α : Type} (K : ObjectKind α) {fs fs' fs'' : VaultFs} {h : ContentHash} {data : Bytes}

/-- Every object that loads goes on loading, as the same. -/
def Persists (fs fs' : VaultFs) : Prop := ∀ h x, ReadM.eval fs (K.load h) = .ok x →
  ReadM.eval fs' (K.load h) = .ok x

variable {K}

theorem Persists.refl : K.Persists fs fs := fun _ _ h => h

theorem Persists.trans (h : K.Persists fs fs') (h' : K.Persists fs' fs'') : K.Persists fs fs'' :=
  fun c x hx => h' c x (h c x hx)

theorem Keeps.persists (h : K.Keeps fs fs') : K.Persists fs fs' := fun _ _ hx => h.load_ok hx

/-- Changes outside the kind's directory do not matter. -/
theorem persists_of_eq (hl : ∀ p : FilePath VaultDir, p.dir = K.dir → fs'.lookup p = fs.lookup p) :
    K.Persists fs fs' :=
  (keeps_of_eq (fun _ => hl _ rfl) fun _ => hl _ rfl).persists

/-- The data that loading hashes on either disk. -/
def Separate (K : ObjectKind α) (fs fs' : VaultFs) : Prop :=
  CollisionFree fun b => K.Hashed fs b ∨ K.Hashed fs' b

/-- **A wire file written under its own hash** hides no other object. -/
theorem persists_wire (hjson : K.JsonUnframed) (hfree : K.Separate fs fs')
    (hframed : isFramed K.domain data = true)
    (hl : ∀ p : FilePath VaultDir, p.dir = K.dir → fs'.lookup p =
      if p = K.pathBin (.of data) then some data else fs.lookup p) : K.Persists fs fs' := by
  intro h x hx
  have hnew : fs'.lookup (K.pathBin (.of data)) = some data := by
    rw [hl _ rfl, if_pos rfl]
  have hjsonSame : fs'.lookup (K.pathJson h) = fs.lookup (K.pathJson h) := by
    rw [hl _ rfl, if_neg (by simp)]
  by_cases hh : h = .of data
  · -- what loaded under this hash was stored as these bytes
    subst hh
    have hstored := K.stored_of_load hjson
      (fun b hb heq => hfree b data (.inl hb) (.inr (.bin hnew)) heq) hframed hx
    rw [← hx]
    exact K.eval_load_congr (hnew.trans hstored.symm) hjsonSame
  · rw [← hx]
    refine K.eval_load_congr ?_ hjsonSame
    rw [hl _ rfl, if_neg (by simpa using hh)]

/-- A JSON text written under its own hash: what loaded before loads again, perhaps from its legacy
text. -/
theorem load_json_written (hfree : K.Separate fs fs') {y : α} (hy : K.fromBytes data = .ok y)
    (hl : ∀ p : FilePath VaultDir, p.dir = K.dir → fs'.lookup p =
      if p = K.pathJson (.of data) then some data else fs.lookup p) {x : α}
    (hx : ReadM.eval fs (K.load h) = .ok x) :
    ReadM.eval fs' (K.load h) = .ok x ∨ ReadM.eval fs' (K.load h) = .ok y ∧
      (∃ old, K.fromBytes old = .ok x) ∧ K.fromBytes (K.legacyBytes x) = .ok y := by
  have hbinSame : fs'.lookup (K.pathBin h) = fs.lookup (K.pathBin h) := by
    rw [hl _ rfl, if_neg (by simp)]
  have hnew : fs'.lookup (K.pathJson (.of data)) = some data := by
    rw [hl _ rfl, if_pos rfl]
  by_cases hh : h = .of data
  · subst hh
    rcases K.load_ok_cases hx with ⟨old, hold, hp⟩ | ⟨hb, old, hold, hp⟩
    · -- a wire file comes first
      exact .inl (by rw [K.eval_load_bin (hbinSame.trans hold), hp])
    · have hb' : K.pathBin (.of data) ∉ fs' := fun hm => hb ((mem_congr hbinSame).1 hm)
      have hload : ReadM.eval fs' (K.load (.of data)) = .ok y :=
        (K.eval_load_json hb' hnew).trans (K.parseJson_ok_iff.2 ⟨hy, .inr rfl⟩)
      obtain ⟨hparse, hhash⟩ := K.parseJson_ok_iff.1 hp
      rcases hhash with hlegacy | hsame
      · have heq : K.legacyBytes x = data :=
          hfree _ _ (.inl (.legacy hold hparse rfl)) (.inr (.json hnew)) hlegacy
        exact .inr ⟨hload, ⟨old, hparse⟩, heq ▸ hy⟩
      · obtain rfl := hfree _ _ (.inl (.json hold)) (.inr (.json hnew)) hsame
        obtain rfl := Except.ok.inj (hparse.symm.trans hy)
        exact .inl hload
  · refine .inl ((K.eval_load_congr hbinSame ?_).trans hx)
    rw [hl _ rfl, if_neg (by simpa using hh)]

end ObjectKind

/-! ## §2. What completeness rests on. -/

/-- The laws of the JSON forms: they carry no frame, and the legacy text of an object describes
it. -/
structure JsonLaws : Prop where
  commit : commitKind.JsonUnframed
  tree : treeKind.JsonUnframed
  commitAgain : ∀ data x y, commitKind.fromBytes data = .ok x →
    commitKind.fromBytes (commitKind.legacyBytes x) = .ok y → y.tree = x.tree
  treeAgain : ∀ data x y, treeKind.fromBytes data = .ok x →
    treeKind.fromBytes (treeKind.legacyBytes x) = .ok y → y = x

/-- Commits go on loading with the same tree, trees as the same, and no chunk is lost. -/
structure Retains (fs fs' : VaultFs) : Prop where
  commits : ∀ c k, ReadM.eval fs (loadCommit c) = .ok k →
    ∃ k', ReadM.eval fs' (loadCommit c) = .ok k' ∧ k'.tree = k.tree
  trees : treeKind.Persists fs fs'
  chunks : ∀ ch, chunkPath ch ∈ fs → chunkPath ch ∈ fs'

section Retains

variable {fs fs' fs'' : VaultFs} {c : ContentHash}

theorem Retains.mk' (hc : commitKind.Persists fs fs') (ht : treeKind.Persists fs fs')
    (hch : ∀ ch, chunkPath ch ∈ fs → chunkPath ch ∈ fs') : Retains fs fs' :=
  ⟨fun c k hk => ⟨k, hc c k hk, rfl⟩, ht, hch⟩

/-- **What is complete stays complete.** -/
theorem Retains.complete (h : Retains fs fs') (hc : Complete fs c) : Complete fs' c := by
  obtain ⟨k, tr, hk, htr, hch⟩ := hc
  obtain ⟨k', hk', htree⟩ := h.commits c k hk
  exact ⟨k', tr, hk', htree ▸ h.trees _ _ htr, fun ch hc => h.chunks ch (hch ch hc)⟩

/-- Changes of root files and job files do not matter. -/
theorem retains_of_eq (hl : ∀ p : FilePath VaultDir, p.dir = .commits ∨ p.dir = .trees ∨
    p.dir = .chunks → fs'.lookup p = fs.lookup p) : Retains fs fs' :=
  .mk' (ObjectKind.persists_of_eq fun p hp => hl p (.inl hp))
    (ObjectKind.persists_of_eq fun p hp => hl p (.inr (.inl hp)))
    fun _ hch => (mem_congr (hl _ (.inr (.inr rfl)))).2 hch

end Retains

/-! ## §3. Imports. -/

section Imports

variable {fs : VaultFs} {h : ContentHash} {data : Bytes} {w : VaultWorld}

omit [Crates] in
theorem ObjectKind.lookup_imported {α : Type} (K : ObjectKind α) {p : FilePath VaultDir}
    (hp : p.dir ≠ K.dir) : (w.written (K.importPath h data) data).fs.lookup p = w.fs.lookup p := by
  rw [World.lookup_written, if_neg]
  rintro rfl
  exact hp (K.importPath_dir h data)

/-- **An import hides no other object**: what loaded loads again, perhaps from its legacy text. -/
theorem ObjectKind.Imports.load_after {α : Type} {K : ObjectKind α} {c : ContentHash} {x y : α}
    (hy : K.Imports h data y) (hjson : K.JsonUnframed)
    (hfree : K.Separate w.fs (w.written (K.importPath h data) data).fs)
    (hx : ReadM.eval w.fs (K.load c) = .ok x) :
    ReadM.eval (w.written (K.importPath h data) data).fs (K.load c) = .ok x ∨
      ReadM.eval (w.written (K.importPath h data) data).fs (K.load c) = .ok y ∧
        (∃ old, K.fromBytes old = .ok x) ∧ K.fromBytes (K.legacyBytes x) = .ok y := by
  obtain rfl := hy.hash_eq
  have hl : ∀ p, (w.written (K.importPath (.of data) data) data).fs.lookup p =
      if p = K.importPath (.of data) data then some data else w.fs.lookup p :=
    fun p => World.lookup_written w _ p data
  cases hf : isFramed K.domain data with
  | true =>
    have hpath : K.importPath (.of data) data = K.pathBin (.of data) := if_pos hf
    refine .inl (ObjectKind.persists_wire hjson hfree hf (fun p _ => ?_) c x hx)
    rw [hl p, hpath]
  | false =>
    have hpath : K.importPath (.of data) data = K.pathJson (.of data) := if_neg (by simp [hf])
    refine ObjectKind.load_json_written hfree (hy.json hf) (fun p _ => ?_) hx
    rw [hl p, hpath]

theorem retains_importCommit (laws : JsonLaws) {x : Commit} (hx : commitKind.Imports h data x)
    (hfree : commitKind.Separate w.fs (w.written (commitKind.importPath h data) data).fs) :
    Retains w.fs (w.written (commitKind.importPath h data) data).fs := by
  refine ⟨fun c k hk => ?_, ObjectKind.persists_of_eq fun p hp => commitKind.lookup_imported ?_,
    fun ch hch => (mem_congr (commitKind.lookup_imported (by simp [chunkPath, commitKind]))).2 hch⟩
  · rcases hx.load_after laws.commit hfree hk with hsame | ⟨hy, ⟨old, hold⟩, hagain⟩
    · exact ⟨k, hsame, rfl⟩
    · exact ⟨x, hy, laws.commitAgain old k x hold hagain⟩
  · simp [hp, commitKind, treeKind]

theorem retains_importTree (laws : JsonLaws) {x : Tree} (hx : treeKind.Imports h data x)
    (hfree : treeKind.Separate w.fs (w.written (treeKind.importPath h data) data).fs) :
    Retains w.fs (w.written (treeKind.importPath h data) data).fs := by
  refine .mk' (ObjectKind.persists_of_eq fun p hp => treeKind.lookup_imported ?_)
    (fun t tr htr => ?_) fun ch hch => (mem_congr (treeKind.lookup_imported (by simp [chunkPath, treeKind]))).2 hch
  · simp [hp, commitKind, treeKind]
  · rcases hx.load_after laws.tree hfree htr with hsame | ⟨hy, ⟨old, hold⟩, hagain⟩
    · exact hsame
    · rw [hy, laws.treeAgain old tr x hold hagain]

end Imports

/-! ## §4. Commits. -/

namespace ObjectKind

variable {α : Type} {K : ObjectKind α} {fs fs' : VaultFs}

/-- Apart from one wire file, written under its own hash, the kind's directory is as it was. -/
inductive OneSaved (K : ObjectKind α) (fs fs' : VaultFs) : Prop
  | none (hl : ∀ p : FilePath VaultDir, p.dir = K.dir → fs'.lookup p = fs.lookup p)
  | one {x : α} {bytes : Bytes} (hb : K.wireBytes x = .ok bytes)
      (hl : ∀ p : FilePath VaultDir, p.dir = K.dir → fs'.lookup p =
        if p = K.pathBin (.of bytes) then some bytes else fs.lookup p)

theorem OneSaved.persists (h : K.OneSaved fs fs') (hjson : K.JsonUnframed)
    (hfree : K.Separate fs fs')
    (hframed : ∀ x bytes, K.wireBytes x = .ok bytes → isFramed K.domain bytes = true) :
    K.Persists fs fs' := by
  cases h with
  | none hl => exact persists_of_eq hl
  | one hb hl => exact persists_wire hjson hfree (hframed _ _ hb) hl

end ObjectKind

/-- What an operation that makes a commit did to the stored objects, however it ended. -/
structure SavedObjects (fs fs' : VaultFs) : Prop where
  commits : commitKind.OneSaved fs fs'
  trees : treeKind.OneSaved fs fs'
  chunks : ∀ ch, chunkPath ch ∈ fs → fs'.lookup (chunkPath ch) = fs.lookup (chunkPath ch)
  jobs : ∀ p : FilePath VaultDir, p.dir = .jobs → fs'.lookup p = fs.lookup p

theorem SavedObjects.persists {fs fs' : VaultFs} (h : SavedObjects fs fs') (laws : JsonLaws)
    (hc : commitKind.Separate fs fs') (ht : treeKind.Separate fs fs') :
    commitKind.Persists fs fs' ∧ treeKind.Persists fs fs' :=
  ⟨h.commits.persists laws.commit hc fun _ _ hb => (decodeCommitWire_encodeCommitWire hb).1,
    h.trees.persists laws.tree ht fun _ _ hb => encodeTreeWire_framed hb⟩

theorem SavedObjects.retains {fs fs' : VaultFs} (h : SavedObjects fs fs') (laws : JsonLaws)
    (hc : commitKind.Separate fs fs') (ht : treeKind.Separate fs fs') : Retains fs fs' :=
  .mk' (h.persists laws hc ht).1 (h.persists laws hc ht).2
    fun ch hch => (mem_congr (h.chunks ch hch)).2 hch

/-- The files rewritten after the commit are root files, HEAD not among them. -/
def Plan.Tidy (P : Plan) : Prop := ∀ p, P.tidies p → p.dir = .root ∧ p ≠ headFile

section Ends

variable {P : Plan} {w w' w₀ w₂ : VaultWorld} {t c : ContentHash} {k : Commit} {bytes : Bytes}

theorem addPlan_tidy (v : Vault) (source : Source) (baseName : String) (fs : VaultFs) :
    (addPlan v source baseName fs).Tidy := fun _ hp => hp.elim

theorem snapshotPlan_tidy (fs : VaultFs) : (snapshotPlan fs).Tidy := by
  rintro p (rfl | rfl | rfl | rfl) <;> exact ⟨rfl, by decide⟩

theorem mergePlan_tidy (remoteHead : ContentHash) (label : String) (fs : VaultFs) :
    (mergePlan remoteHead label fs).Tidy := by
  rintro p rfl
  exact ⟨rfl, by decide⟩

omit [Crates] in
theorem lookup_committed {p : FilePath VaultDir} (hp : p ≠ headFile) :
    (committed w c bytes).fs.lookup p =
      if p = commitPathBin c then some bytes else w.fs.lookup p := by
  rw [committed, World.lookup_written, if_neg hp, World.lookup_written]

omit [Crates] in
theorem eval_head_committed : ReadM.eval (committed w c bytes).fs head = .ok (some c) :=
  eval_head_written (by rw [committed, World.lookup_written, if_pos rfl])

/-- Putting the tree in place leaves everything but trees and new chunks. -/
theorem Prepared.other (h : Prepared P w w₂ t) {p : FilePath VaultDir} (ht : p.dir ≠ .trees)
    (hc : p.dir ≠ .chunks) : w₂.fs.lookup p = w.fs.lookup p := by
  cases h with
  | saved ha hs hb _ hw =>
    rw [hw, World.lookup_written, if_neg (by rintro rfl; exact ht rfl), ha.other hc]
  | reused hr hw => rw [hw]

theorem Prepared.chunk (h : Prepared P w w₂ t) {ch : ContentHash} (hch : chunkPath ch ∈ w.fs) :
    w₂.fs.lookup (chunkPath ch) = w.fs.lookup (chunkPath ch) := by
  cases h with
  | saved ha hs hb _ hw =>
    rw [hw, World.lookup_written, if_neg (by simp [chunkPath, treePathBin]), ha.kept ch hch]
  | reused hr hw => rw [hw]

theorem Prepared.trees (h : Prepared P w w₂ t) : treeKind.OneSaved w.fs w₂.fs := by
  cases h with
  | saved ha hs hb _ hw =>
    refine .one hb fun p hp => ?_
    rw [hw, World.lookup_written]
    refine ite_congr rfl (fun _ => rfl) fun _ => ha.other ?_
    rw [hp]
    simp [treeKind]
  | reused hr hw => exact .none fun p _ => by rw [hw]

/-- The disk after a success, outside the root directory: the tree in place, and the commit. -/
theorem Extended.lookup (h : Extended P w c w') (hP : P.Tidy) : ∃ w₂ k bytes,
    Prepared P w w₂ k.tree ∧ P.parents k.parents ∧ encodeCommitWire k = .ok bytes ∧
      c = .of bytes ∧ ReadM.eval w'.fs head = .ok (some c) ∧
      ∀ p : FilePath VaultDir, p.dir ≠ .root → w'.fs.lookup p =
        if p = commitPathBin (.of bytes) then some bytes else w₂.fs.lookup p := by
  obtain ⟨w₀, k, bytes, ⟨⟨w₂, hprep, hfs⟩, hparents, hb⟩, rfl, hw⟩ := h
  refine ⟨w₂, k, bytes, hprep, hparents, hb, rfl, ?_, fun p hp => ?_⟩
  · exact (eval_head_congr (hw.frame headFile fun h => (hP _ h).2 rfl)).trans eval_head_committed
  · rw [hw.frame p fun h => hp (hP p h).1, lookup_committed (by rintro rfl; exact hp rfl), hfs]

/-- A commit operation adds at most one tree and one commit, and loses nothing. -/
theorem ExtendEnds.saved {r : Res ContentHash} (h : ExtendEnds P w r w') (hP : P.Tidy) :
    SavedObjects w.fs w'.fs := by
  rcases h.2 with ha | ⟨w₂, t, hp, hfs⟩ | ⟨c, he⟩
  · have hl : ∀ p : FilePath VaultDir, p.dir ≠ .chunks → w'.fs.lookup p = w.fs.lookup p :=
      fun p hp => ha.other hp
    exact ⟨.none fun p hp => hl p (by simp [hp, commitKind]),
      .none fun p hp => hl p (by simp [hp, treeKind]), ha.kept, fun p hp => hl p (by simp [hp])⟩
  · rw [hfs]
    exact ⟨.none fun p hd => hp.other (by simp [hd, commitKind]) (by simp [hd, commitKind]),
      hp.trees, fun ch hch => hp.chunk hch, fun p hd => hp.other (by simp [hd]) (by simp [hd])⟩
  · obtain ⟨w₂, k, bytes, hp, -, hb, -, -, hl⟩ := he.lookup hP
    have hother : ∀ p : FilePath VaultDir, p.dir ≠ .root → p.dir ≠ .commits →
        w'.fs.lookup p = w₂.fs.lookup p := by
      intro p hr hd
      rw [hl p hr, if_neg]
      rintro rfl
      exact hd rfl
    refine ⟨.one hb fun p hd => ?_, ?_, fun ch hch => ?_, fun p hd => ?_⟩
    · rw [hl p (by simp [hd, commitKind])]
      refine ite_congr rfl (fun _ => rfl) fun _ => ?_
      exact hp.other (by simp [hd, commitKind]) (by simp [hd, commitKind])
    · cases hp.trees with
      | none hl' =>
        refine .none fun p hd => (hother p ?_ ?_).trans (hl' p hd) <;> simp [hd, treeKind]
      | one hb' hl' =>
        refine .one hb' fun p hd => (hother p ?_ ?_).trans (hl' p hd) <;> simp [hd, treeKind]
    · exact (hother _ (by simp [chunkPath]) (by simp [chunkPath])).trans (hp.chunk hch)
    · exact (hother p (by simp [hd]) (by simp [hd])).trans (hp.other (by simp [hd]) (by simp [hd]))

/-- HEAD is where it was, or at the new commit. -/
theorem ExtendEnds.head {r : Res ContentHash} (h : ExtendEnds P w r w') :
    ReadM.eval w'.fs head = ReadM.eval w.fs head ∨ ∃ c, Extended P w c w' := by
  rcases h.2 with ha | ⟨w₂, t, hp, hfs⟩ | he
  · exact .inl (eval_head_congr (ha.other (by decide)))
  · refine .inl (eval_head_congr ?_)
    rw [hfs]
    exact hp.other (by decide) (by decide)
  · exact .inr he

/-- An entry that can be loaded from a disk: its path is valid and its chunks are stored. -/
def EntryStored (fs : VaultFs) (path : String) (entry : TreeEntry) : Prop :=
  validatePath path = .ok () ∧ ∀ ch ∈ entry.chunkHashes, chunkPath ch ∈ fs

/-- **The new commit is complete** when the tree that was saved has valid paths and stored chunks,
or the tree used again loads and its chunks are stored. -/
theorem Extended.complete (h : Extended P w c w') (hP : P.Tidy)
    (hsave : ∀ w₁ tree, ChunksAdded w w₁ → P.saves w₁.fs tree → tree.All (EntryStored w₁.fs))
    (hreuse : ∀ t, P.reuses t → ∃ tr, ReadM.eval w.fs (loadTree t) = .ok tr ∧
      ∀ ch ∈ tr.allChunkHashes, chunkPath ch ∈ w.fs) : Complete w'.fs c := by
  obtain ⟨w₂, k, bytes, hp, -, hb, rfl, -, hl⟩ := h.lookup hP
  have hk : ReadM.eval w'.fs (loadCommit (.of bytes)) = .ok k.normal := by
    refine eval_loadCommit_saved hb ?_
    rw [hl _ (by simp [commitPathBin]), if_pos rfl]
  have hother : ∀ p : FilePath VaultDir, p.dir ≠ .root → p.dir ≠ .commits →
      w'.fs.lookup p = w₂.fs.lookup p := by
    intro p hr hd
    rw [hl p hr, if_neg]
    rintro rfl
    exact hd rfl
  have htree : ∀ t, ReadM.eval w'.fs (loadTree t) = ReadM.eval w₂.fs (loadTree t) :=
    eval_loadTree_congr fun p hd => hother p (by simp [hd]) (by simp [hd])
  have hchunk : ∀ ch, chunkPath ch ∈ w'.fs ↔ chunkPath ch ∈ w₂.fs := fun ch =>
    mem_congr (hother _ (by simp [chunkPath]) (by simp [chunkPath]))
  have hnormal : k.normal.tree = k.tree := rfl
  cases hp with
  | saved ha hs htb ht hw =>
    rename_i w₁ tree tbytes
    have hall := hsave w₁ tree ha hs
    have hload : ReadM.eval w₂.fs (loadTree (.of tbytes)) = .ok tree := by
      refine eval_loadTree_saved htb (hall.mono fun _ _ hx => hx.1).mem ?_
      rw [hw, World.lookup_written, if_pos rfl]
    have hstored := Tree.all_chunks_iff.1 (hall.mono fun _ _ hx => hx.2)
    refine ⟨k.normal, tree, hk, ?_, fun ch hch => (hchunk ch).2 ?_⟩
    · rw [hnormal, ht, htree, hload]
    · refine (mem_congr ?_).2 (hstored ch hch)
      rw [hw, World.lookup_written, if_neg (by simp [chunkPath, treePathBin])]
  | reused hr hw =>
    obtain ⟨tr, htr, hch⟩ := hreuse _ hr
    refine ⟨k.normal, tr, hk, ?_, fun ch hc => (hchunk ch).2 ?_⟩
    · rw [hnormal, htree, hw, htr]
    · rw [hw]
      exact hch ch hc

end Ends

end Soal

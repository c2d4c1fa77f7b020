/-
  Soal.Vault.Rules — one rule for each operation that writes: what it touches, what it leaves.

  Chunk storage is confined to the chunk directory.  Saving an object writes one file, which reads
  back as what was saved.  A commit is made without touching the disk.
-/
import Soal.Lib.Confined
import Soal.Vault.History

namespace Soal

open FileProg

/-! ## §1. What the operations touch. -/

/-- The paths of one directory. -/
abbrev InDir (d : VaultDir) (p : FilePath VaultDir) : Prop := p.dir = d

section Confinement

variable {D : FilePath VaultDir → Prop}

theorem confined_removeFile {p : FilePath VaultDir} (h : D p) : Confined D (Soal.removeFile p) := by
  refine Confined.bind (.change fun q hq => List.mem_singleton.1 hq ▸ h) fun found => ?_
  split <;> exact .done

theorem confined_writeRename {tmp p : FilePath VaultDir} {b : Bytes} (ht : D tmp) (hp : D p) :
    Confined D (Soal.writeRename tmp p b) := by
  refine Confined.bind (.writeFile ht) fun _ => ?_
  refine Confined.bind (.change fun q hq => ?_) fun found => ?_
  · rcases List.mem_cons.1 hq with rfl | hq
    · exact ht
    · exact List.mem_singleton.1 hq ▸ hp
  · split <;> exact .done

variable [Crates]

/-- Storing a chunk touches its own file and its temporary file. -/
theorem confined_putVerified {hash : ContentHash} {data : Bytes} (hp : D (chunkPath hash))
    (ht : D (chunkTmp hash)) : Confined D (ChunkStore.putVerified hash data) := by
  unfold ChunkStore.putVerified
  split
  next => exact .done
  next =>
    refine Confined.bind (.ofRead _) fun there => ?_
    split
    next =>
      refine Confined.bind (.ofRead _) fun existing => ?_
      split <;> exact .done
    next => exact Confined.bind (confined_writeRename ht hp) fun _ => .done

namespace Vault

theorem storeChunks_confined (v : Vault) (chunks : List Bytes) :
    Confined (InDir .chunks) (v.storeChunks chunks) := by
  induction chunks with
  | nil => exact .done
  | cons c cs ih =>
    refine Confined.bind ?_ fun h => Confined.bind ih fun hs => .done
    exact Confined.bind .done fun _ => Confined.bind (confined_putVerified rfl rfl) fun _ => .done

theorem addData_confined (v : Vault) (path : String) (data : Bytes) :
    Confined (InDir .chunks) (v.addData path data) :=
  Confined.bind (v.storeChunks_confined _) fun _ => .done

theorem addFiles_confined (v : Vault) (baseName : String) (files : List (List Bytes × Bytes)) :
    Confined (InDir .chunks) (v.addFiles baseName files) := by
  induction files with
  | nil => exact .done
  | cons f files ih =>
    refine Confined.bind .done fun relStr => ?_
    split
    next => exact ih
    next =>
      refine Confined.bind (v.addData_confined _ _) fun entry => ?_
      exact Confined.bind .done fun _ => Confined.bind ih fun _ => .done

theorem addSource_confined (v : Vault) (baseName : String) (source : Source) :
    Confined (InDir .chunks) (v.addSource baseName source) := by
  cases source with
  | file data =>
    rw [addSource]
    split
    next => exact .done
    next => exact Confined.bind (v.addData_confined _ _) fun _ => .done
  | dir files => exact v.addFiles_confined baseName _
  | neither => exact .done

end Vault

end Confinement

/-! ## §2. Saving an object. -/

section Rules

variable [Crates] {env : Outside} {I : VaultWorld → Prop} {w : VaultWorld}

/-- Saving writes the wire form under its hash, or fails before it touches the disk. -/
theorem ObjectKind.wp_save {α : Type} {K : ObjectKind α} {x : α} (hI : I w)
    (hw : ∀ bytes, K.wireBytes x = .ok bytes →
      I (w.change (.truncate (K.pathBin (.of bytes)))) ∧
        I (w.written (K.pathBin (.of bytes)) bytes)) :
    wp env I (K.save x) (fun r w' => (∃ e, r = .error e ∧ w' = w) ∨ ∃ bytes,
      K.wireBytes x = .ok bytes ∧ r = .ok (.of bytes) ∧
      w' = w.written (K.pathBin (.of bytes)) bytes) w := by
  unfold ObjectKind.save ObjectKind.hash
  cases hx : K.wireBytes x with
  | error e => exact ⟨hI, .inl ⟨e, rfl, rfl⟩⟩
  | ok bytes =>
    obtain ⟨ht, hwr⟩ := hw bytes hx
    exact wp_compute_ok hI rfl (wp_compute_ok hI rfl (wp_write hI ht ⟨hwr, .inr ⟨bytes, rfl, rfl, rfl⟩⟩))

/-- Nothing on disk changes while a commit is made. -/
theorem Vault.wp_makeCommit (v : Vault) (tree : ContentHash) (parents : List ContentHash)
    (message : String) (hI : ∀ w', w'.fs = w.fs → w'.log = w.log → I w') :
    wp env I (v.makeCommit tree parents message) (fun r w' => w'.fs = w.fs ∧ w'.log = w.log ∧
      ∀ c, r = .ok c → c.tree = tree ∧ c.parents = parents) w := by
  have hauthor : wp env I v.localAuthor (fun _ w' => w'.fs = w.fs ∧ w'.log = w.log) w := by
    unfold Vault.localAuthor
    split
    next home _ =>
      unfold localAuthorSync
      rw [wp_bind]
      exact wp_answer (hI w rfl rfl) ⟨hI _ rfl rfl, hI _ rfl rfl, rfl, rfl⟩
    next => exact ⟨hI w rfl rfl, rfl, rfl⟩
  unfold Vault.makeCommit
  refine wp_seq hauthor (fun author w₁ hI₁ h₁ => ?_) (fun e w₁ _ h₁ => ⟨h₁.1, h₁.2, by simp⟩)
  obtain ⟨hfs, hlog⟩ := h₁
  have hI' : ∀ w', w'.fs = w₁.fs → w'.log = w₁.log → I w' := fun w' hf hl =>
    hI w' (hf.trans hfs) (hl.trans hlog)
  refine wp_answer hI₁ ?_
  unfold Vault.signLocally
  split
  next home _ =>
    refine wp_answer (hI' _ rfl rfl) ?_
    split
    next sk _ =>
      refine ⟨hI' _ rfl rfl, hfs, hlog, fun c hc => ?_⟩
      exact signCommit_ok hc
    next => exact ⟨hI' _ rfl rfl, hfs, hlog, fun c hc => by cases hc; exact ⟨rfl, rfl⟩⟩
  next => exact ⟨hI' _ rfl rfl, hfs, hlog, fun c hc => by cases hc; exact ⟨rfl, rfl⟩⟩

/-- A saved commit, and HEAD pointing at it. -/
def committed (w : VaultWorld) (c : ContentHash) (bytes : Bytes) : VaultWorld :=
  (w.written (commitPathBin c) bytes).written headFile (Text.toUtf8 c.toHex)

/-- The end of every operation that makes a commit. -/
theorem Vault.wp_commitTree (v : Vault) (tree : ContentHash) (parents : List ContentHash)
    (message : String) (hI : ∀ w', w'.fs = w.fs → w'.log = w.log → I w')
    (hw : ∀ w' c bytes, w'.fs = w.fs → c.tree = tree → c.parents = parents →
      encodeCommitWire c = .ok bytes →
      I (w'.change (.truncate (commitPathBin (.of bytes)))) ∧
        I (w'.written (commitPathBin (.of bytes)) bytes) ∧
        I ((w'.written (commitPathBin (.of bytes)) bytes).change (.truncate headFile)) ∧
        I (committed w' (.of bytes) bytes)) :
    wp env I (v.commitTree tree parents message) (fun r w' => (∃ e, r = .error e ∧ w'.fs = w.fs) ∨
      ∃ w₀ c bytes, w₀.fs = w.fs ∧ c.tree = tree ∧ c.parents = parents ∧
        encodeCommitWire c = .ok bytes ∧ r = .ok (.of bytes) ∧
        w' = committed w₀ (.of bytes) bytes) w := by
  unfold Vault.commitTree
  refine wp_seq (v.wp_makeCommit tree parents message hI) (fun c w₁ hI₁ h₁ => ?_)
    (fun e w₁ _ h₁ => .inl ⟨e, rfl, h₁.1⟩)
  obtain ⟨hfs, -, hc⟩ := h₁
  obtain ⟨hct, hcp⟩ := hc c rfl
  refine wp_seq (commitKind.wp_save hI₁ fun bytes hb => ?_) (fun h w₂ hI₂ h₂ => ?_)
    (fun e w₂ _ h₂ => ?_)
  · obtain ⟨h₁, h₂, -, -⟩ := hw w₁ c bytes hfs hct hcp hb
    exact ⟨h₁, h₂⟩
  · rcases h₂ with ⟨_, he, _⟩ | ⟨bytes, hb, hr, rfl⟩
    · cases he
    obtain rfl := Except.ok.inj hr
    obtain ⟨-, -, h₃, h₄⟩ := hw w₁ c bytes hfs hct hcp hb
    exact wp_write hI₂ h₃ ⟨h₄, .inr ⟨w₁, c, bytes, hfs, hct, hcp, hb, rfl, rfl⟩⟩
  · rcases h₂ with ⟨e', he, rfl⟩ | ⟨_, _, hr, _⟩
    · exact .inl ⟨e, rfl, hfs⟩
    · cases hr

/-! ## §3. Heads. -/

omit [Crates] in
/-- Recording a head rewrites HEADS, when HEADS and HEAD can be read. -/
theorem wp_recordHead {c : ContentHash} (hI : I w)
    (hw : ∀ heads, ReadM.eval w.fs listHeads = .ok heads → I (w.change (.truncate headsFile)) ∧
      I (w.written headsFile (Text.toUtf8 (String.ofList (headsBody (insert c heads)))))) :
    wp env I (recordHead c) (fun r w' =>
      (∃ e, ReadM.eval w.fs listHeads = .error e ∧ r = .error e ∧ w' = w) ∨
      ∃ heads, ReadM.eval w.fs listHeads = .ok heads ∧ r = .ok () ∧
        w' = w.written headsFile (Text.toUtf8 (String.ofList (headsBody (insert c heads))))) w := by
  unfold recordHead
  refine wp_read hI (fun heads hh => ?_) (fun e he => .inl ⟨e, he, rfl, rfl⟩)
  obtain ⟨ht, hwr⟩ := hw heads hh
  exact wp_writeFile.2 ⟨hI, ht, hwr, .inr ⟨heads, hh, rfl, rfl⟩⟩

end Rules

/-! ## §4. What was saved loads. -/

section Loads

variable [Crates] {fs : VaultFs}

/-- A saved commit loads as its normal form. -/
theorem eval_loadCommit_saved {c : Commit} {bytes : Bytes} (hb : encodeCommitWire c = .ok bytes)
    (hl : fs.lookup (commitPathBin (.of bytes)) = some bytes) :
    ReadM.eval fs (loadCommit (.of bytes)) = .ok c.normal := by
  obtain ⟨hframed, hdec⟩ := decodeCommitWire_encodeCommitWire hb
  have hparse : Commit.fromWireOrJson bytes = .ok c.normal := by
    rw [Commit.fromWireOrJson, if_pos hframed, hdec]
  have hhash : commitKind.hash c.normal = .ok (.of bytes) := by
    show (encodeCommitWire c.normal).map ContentHash.of = _
    rw [encodeCommitWire_normal, hb]
    rfl
  refine (commitKind.eval_load_bin hl).trans ?_
  unfold ObjectKind.parseBin
  rw [if_neg (by simp)]
  show (Commit.fromWireOrJson bytes).bind _ = _
  rw [hparse, ok_bind]
  show (commitKind.hash c.normal).bind _ = _
  rw [hhash, ok_bind, if_neg (by simp)]
  rfl

theorem eval_loadCommit_of {c : Commit} {bytes : Bytes} {h : ContentHash}
    (hb : encodeCommitWire c = .ok bytes) (hh : ContentHash.of bytes = h)
    (hl : fs.lookup (commitPathBin h) = some bytes) :
    ReadM.eval fs (loadCommit h) = .ok c.normal := by
  subst hh
  exact eval_loadCommit_saved hb hl

/-- A saved tree of valid paths loads. -/
theorem eval_loadTree_saved {tree : Tree} {bytes : Bytes} (hb : encodeTreeWire tree = .ok bytes)
    (hvalid : ∀ p ∈ tree.entries.entries, validatePath p.1 = .ok ())
    (hl : fs.lookup (treePathBin (.of bytes)) = some bytes) :
    ReadM.eval fs (loadTree (.of bytes)) = .ok tree := by
  obtain ⟨hframed, hdec⟩ := decodeTreeWire_encodeTreeWire hb hvalid
  have hparse : Tree.fromWireOrJson bytes = .ok tree := by
    rw [Tree.fromWireOrJson, if_pos hframed, hdec]
  have hhash : treeKind.hash tree = .ok (.of bytes) := by
    show (encodeTreeWire tree).map ContentHash.of = _
    rw [hb]
    rfl
  refine (treeKind.eval_load_bin hl).trans ?_
  unfold ObjectKind.parseBin
  rw [if_neg (by simp)]
  show (Tree.fromWireOrJson bytes).bind _ = _
  rw [hparse, ok_bind]
  show (treeKind.hash tree).bind _ = _
  rw [hhash, ok_bind, if_neg (by simp)]
  rfl

theorem eval_loadTree_of {tree : Tree} {bytes : Bytes} {h : ContentHash}
    (hb : encodeTreeWire tree = .ok bytes) (hvalid : ∀ p ∈ tree.entries.entries, validatePath p.1 = .ok ())
    (hh : ContentHash.of bytes = h) (hl : fs.lookup (treePathBin h) = some bytes) :
    ReadM.eval fs (loadTree h) = .ok tree := by
  subst hh
  exact eval_loadTree_saved hb hvalid hl

end Loads

end Soal

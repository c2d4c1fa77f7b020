/-
  Soal.Runs.StoreIntegrity — every object file holds bytes that hash to its name, over whole runs.

  Seven writers put files into `chunks/`, `commits/` and `trees/`, under two spellings for commits and
  trees; each hashes what it writes.  Bytes that were offered under another hash, or that do not
  parse, leave the directory as it was.
-/
import Soal.Lib.Leads
import Soal.Runs.Commands

namespace Soal

open FileProg Worklist

/-! ## §1. Object files. -/

/-- The file names of the object `h`: one for a chunk, two spellings for a commit or a tree. -/
def NamedBy (p : FilePath VaultDir) (h : ContentHash) : Prop :=
  p.dir = .chunks ∧ p.name = hexName h ".chunk" ∨
    (p.dir = .commits ∨ p.dir = .trees) ∧ (p.name = hexName h ".bin" ∨ p.name = hexName h ".json")

section Names

variable {p : FilePath VaultDir} {h h' : ContentHash}

theorem namedBy_chunkPath (h : ContentHash) : NamedBy (chunkPath h) h := .inl ⟨rfl, rfl⟩

theorem ObjectKind.namedBy_importPath [Crates] {α : Type} {K : ObjectKind α}
    (hK : K.dir = .commits ∨ K.dir = .trees) (h : ContentHash) (data : Bytes) :
    NamedBy (K.importPath h data) h := by
  unfold ObjectKind.importPath
  split
  next => exact .inr ⟨hK, .inl rfl⟩
  next => exact .inr ⟨hK, .inr rfl⟩

theorem NamedBy.objectDir (hp : NamedBy p h) : ObjectDir p.dir := by
  rcases hp with ⟨hd, -⟩ | ⟨hd, -⟩
  · exact .inl hd
  · exact .inr hd

/-- A file name stands for one hash. -/
theorem NamedBy.unique (hp : NamedBy p h) (hp' : NamedBy p h') : h = h' := by
  have hname : ∃ e, p.name = hexName h e := by
    rcases hp with ⟨-, hn⟩ | ⟨-, hn | hn⟩ <;> exact ⟨_, hn⟩
  have hname' : ∃ e, p.name = hexName h' e := by
    rcases hp' with ⟨-, hn⟩ | ⟨-, hn | hn⟩ <;> exact ⟨_, hn⟩
  obtain ⟨e, he⟩ := hname
  obtain ⟨e', he'⟩ := hname'
  exact (hexName_inj.1 (he.symm.trans he')).1

/-- The temporary file of a chunk is no object file. -/
theorem not_namedBy_chunkTmp : ¬NamedBy (chunkTmp h) h' := by
  rintro (⟨-, hn⟩ | ⟨hd, -⟩)
  · exact absurd (hexName_inj.1 hn).2 (by decide)
  · rcases hd with hd | hd <;> cases hd

end Names

section Model

variable [Crates]

/-- Every file of the object directories is named by the hash of its bytes. -/
def Intact (fs : VaultFs) : Prop :=
  ∀ p b, ObjectDir p.dir → fs.lookup p = some b → NamedBy p (.of b)

/-- An intact store stays intact, and no object file goes away. -/
def Grows (fs fs' : VaultFs) : Prop :=
  Intact fs → Intact fs' ∧ ∀ p : FilePath VaultDir, ObjectDir p.dir → p ∈ fs → p ∈ fs'

instance : IsPreorder VaultFs Grows where
  refl _ h := ⟨h, fun _ _ hp => hp⟩
  trans _ _ _ h h' hi :=
    ⟨(h' (h hi).1).1, fun p hd hp => (h' (h hi).1).2 p hd ((h hi).2 p hd hp)⟩

section Writes

variable {fs fs' : VaultFs} {w : VaultWorld}

theorem grows_of_eq (hl : ∀ p : FilePath VaultDir, ObjectDir p.dir → fs'.lookup p = fs.lookup p) :
    Grows fs fs' := fun h =>
  ⟨fun p b hd hb => h p b hd ((hl p hd).symm.trans hb), fun p hd hp => (mem_congr (hl p hd)).2 hp⟩

/-- One more file, named by the hash of its bytes. -/
theorem grows_insert {p : FilePath VaultDir} {b : Bytes} (hp : NamedBy p (.of b))
    (hl : ∀ q : FilePath VaultDir, ObjectDir q.dir → fs'.lookup q =
      if q = p then some b else fs.lookup q) : Grows fs fs' := by
  intro h
  constructor
  · intro q b' hd hb'
    rw [hl q hd] at hb'
    split at hb'
    next heq =>
      cases hb'
      rw [heq]
      exact hp
    next => exact h q b' hd hb'
  · intro q hd hq
    rw [Fs.mem_iff_lookup, hl q hd]
    by_cases heq : q = p
    · exact ⟨b, if_pos heq⟩
    · rw [if_neg heq]
      exact Fs.mem_iff_lookup.1 hq

theorem grows_written {p : FilePath VaultDir} {b : Bytes} (hp : NamedBy p (.of b)) :
    Grows w.fs (w.written p b).fs := grows_insert hp fun q _ => World.lookup_written w p q b

/-- An intact store holds no temporary file, so that storing a chunk adds a file and removes none. -/
theorem Intact.lookup_stored {ch : ContentHash} {b : Bytes} (h : Intact w.fs)
    (q : FilePath VaultDir) : (renamed w (chunkTmp ch) (chunkPath ch) b).fs.lookup q =
      if q = chunkPath ch then some b else w.fs.lookup q := by
  have htmp : w.fs.lookup (chunkTmp ch) = none := by
    cases hl : w.fs.lookup (chunkTmp ch) with
    | none => rfl
    | some old => exact absurd (h _ old (.inl rfl) hl) not_namedBy_chunkTmp
  rw [lookup_renamed]
  split
  next => rfl
  next =>
    split
    next heq => rw [heq, htmp]
    next => rfl

theorem grows_stored {ch : ContentHash} {b : Bytes} (hb : ContentHash.of b = ch) :
    Grows w.fs (renamed w (chunkTmp ch) (chunkPath ch) b).fs := fun h =>
  grows_insert (hb ▸ namedBy_chunkPath _) (fun q _ => h.lookup_stored q) h

end Writes

/-! ## §2. The writers. -/

section Writers

variable {w : VaultWorld}

/-- **Storing a chunk**: a new chunk is written, and otherwise nothing is. -/
theorem wp_putVerified_cases (env : Outside) (ch : ContentHash) (data : Bytes) (w : VaultWorld) :
    wp env (fun _ => True) (ChunkStore.putVerified ch data) (fun r w' => w' = w ∨
      ContentHash.of data = ch ∧ r = .ok true ∧
        w' = renamed w (chunkTmp ch) (chunkPath ch) data) w := by
  unfold ChunkStore.putVerified
  split
  next => exact ⟨trivial, .inl rfl⟩
  next hdata =>
    refine wp_exists trivial ?_
    split
    next =>
      refine wp_read trivial (fun old _ => ?_) (fun e _ => .inl rfl)
      split
      next => exact ⟨trivial, .inl rfl⟩
      next => exact ⟨trivial, .inl rfl⟩
    next =>
      refine wp_seq (R := fun r w' => r = .ok () ∧
        w' = renamed w (chunkTmp ch) (chunkPath ch) data)
        (wp_writeRename.2 ⟨trivial, trivial, trivial, trivial, rfl, rfl⟩)
        (fun _ w' _ h => ?_) (fun e w' _ h => by cases h.1)
      exact ⟨trivial, .inr ⟨not_not.1 hdata, rfl, h.2⟩⟩

theorem leads_putVerified (ch : ContentHash) (data : Bytes) :
    Leads Grows (ChunkStore.putVerified ch data) := by
  refine Leads.iff_wp.2 fun env w => (wp_putVerified_cases env ch data w).mono (fun _ h => h) ?_
  rintro r w' - (rfl | ⟨hdata, -, rfl⟩)
  · exact Std.Refl.refl _
  · exact grows_stored hdata

/-- **Saving an object** writes its bytes under their hash. -/
theorem leads_save {α : Type} {K : ObjectKind α} (hK : K.dir = .commits ∨ K.dir = .trees) (x : α) :
    Leads Grows (K.save x) := by
  refine Leads.iff_wp.2 fun env w =>
    (K.wp_save trivial fun _ _ => ⟨trivial, trivial⟩).mono (fun _ h => h) ?_
  rintro r w' - (⟨e, -, rfl⟩ | ⟨bytes, -, -, rfl⟩)
  · exact Std.Refl.refl _
  · exact grows_written (.inr ⟨hK, .inl rfl⟩)

/-- **Importing an object** writes the bytes that were hashed. -/
theorem leads_importBytes {α : Type} {K : ObjectKind α} (hK : K.dir = .commits ∨ K.dir = .trees)
    (h : ContentHash) (data : Bytes) : Leads Grows (K.importBytes h data) := by
  refine Leads.iff_wp.2 fun env w =>
    (K.wp_importBytes trivial fun _ _ => ⟨trivial, trivial⟩).mono (fun _ h => h) ?_
  rintro r w' - (⟨e, -, rfl, -⟩ | ⟨x, hx, -, rfl⟩)
  · exact Std.Refl.refl _
  · obtain rfl := hx.hash_eq
    exact grows_written (ObjectKind.namedBy_importPath hK _ data)

/-- Root files are no object files. -/
theorem leads_root {α : Type} {D : FilePath VaultDir → Prop} {x : Action α} (hx : Confined D x)
    (hD : ∀ p, D p → p.dir = .root) : Leads Grows x := by
  refine .ofConfined hx fun fs fs' hl => grows_of_eq fun p hd => hl p fun hp => ?_
  rw [hD p hp] at hd
  rcases hd with hd | hd | hd <;> cases hd

namespace Vault

variable (v : Vault)

theorem leads_storeChunks (chunks : List Bytes) : Leads Grows (v.storeChunks chunks) := by
  induction chunks with
  | nil => exact .done
  | cons c cs ih =>
    refine Leads.bind ?_ fun _ => Leads.bind ih fun _ => .done
    exact Leads.bind .done fun _ => Leads.bind (leads_putVerified _ _) fun _ => .done

theorem leads_addData (path : String) (data : Bytes) : Leads Grows (v.addData path data) :=
  Leads.bind (v.leads_storeChunks _) fun _ => .done

theorem leads_addFiles (baseName : String) (files : List (List Bytes × Bytes)) :
    Leads Grows (v.addFiles baseName files) := by
  induction files with
  | nil => exact .done
  | cons f files ih =>
    refine Leads.bind .done fun relStr => ?_
    split
    next => exact ih
    next =>
      refine Leads.bind (v.leads_addData _ _) fun entry => ?_
      exact Leads.bind .done fun _ => Leads.bind ih fun _ => .done

theorem leads_addSource (baseName : String) (source : Source) :
    Leads Grows (v.addSource baseName source) := by
  cases source with
  | file data =>
    rw [addSource]
    split
    next => exact .done
    next => exact Leads.bind (v.leads_addData _ _) fun _ => .done
  | dir files => exact v.leads_addFiles baseName _
  | neither => exact .done

/-- Making a commit saves it, and points HEAD at it. -/
theorem leads_commitTree (tree : ContentHash) (parents : List ContentHash) (message : String) :
    Leads Grows (v.commitTree tree parents message) := by
  have hmake : Leads Grows (v.makeCommit tree parents message) := by
    refine Leads.iff_wp.2 fun env w => ?_
    refine (v.wp_makeCommit tree parents message fun _ _ _ => trivial).mono (fun _ h => h) ?_
    intro r w' _ h
    rw [h.1]
    exact Std.Refl.refl _
  refine Leads.bind hmake fun commit => ?_
  refine Leads.bind (leads_save (K := commitKind) (.inl rfl) commit) fun hash => ?_
  refine Leads.bind ?_ fun _ => .done
  exact leads_root (D := (· = headFile)) (.writeFile rfl) fun p hp => by rw [hp]; rfl

theorem leads_saveTree (tree : Tree) : Leads Grows (saveTree tree) :=
  leads_save (K := treeKind) (.inr rfl) tree

theorem leads_addPath (source : Source) (baseName : String) :
    Leads Grows (v.addPath source baseName) := by
  refine Leads.bind .done fun base => Leads.bind (v.leads_addSource base source) fun entries => ?_
  split
  next => exact .done
  next =>
    refine Leads.bind (.ofRead _) fun old => Leads.bind .done fun tree => ?_
    refine Leads.bind (leads_saveTree tree) fun t => Leads.bind (.ofRead _) fun l => ?_
    exact v.leads_commitTree _ _ _

theorem leads_snapshot (message : String) : Leads Grows (v.snapshot message) := by
  have hroot : ∀ p, Registry p → p.dir = .root := by
    rintro p (rfl | rfl | rfl | rfl) <;> rfl
  have hcommit : Leads Grows (v.snapshotCommit message) := by
    refine Leads.bind (.ofRead _) fun l => ?_
    cases l with
    | some h => exact Leads.bind (.ofRead _) fun k => v.leads_commitTree _ _ _
    | none => exact Leads.bind (leads_saveTree _) fun t => v.leads_commitTree _ _ _
  refine Leads.bind hcommit fun c => ?_
  refine Leads.bind (leads_root (confined_okOrNone (confined_registerSnapshot c message false))
    hroot) fun _ => ?_
  refine Leads.bind (leads_root (confined_okOrNone (confined_loadPolicy v.config)) hroot)
    fun pol => ?_
  cases pol with
  | none => exact .done
  | some pol =>
    exact Leads.bind (leads_root (confined_okOrNone (confined_applyRetention pol)) hroot)
      fun _ => .done

theorem leads_mergeHead (remoteHead : ContentHash) (label : String) :
    Leads Grows (v.mergeHead remoteHead label) := by
  refine Leads.bind (.ofRead _) fun _ => Leads.bind (.ofRead _) fun k => ?_
  refine Leads.bind (.ofRead _) fun theirs => Leads.bind (.ofRead _) fun l => ?_
  refine Leads.bind (.ofRead _) fun ours => Leads.bind (leads_saveTree _) fun t => ?_
  refine Leads.bind (v.leads_commitTree _ _ _) fun c => Leads.bind ?_ fun _ => .done
  exact leads_root (D := (· = headsFile)) (.writeFile rfl) fun p hp => by rw [hp]; rfl

end Vault

end Writers

/-! ## §3. Commands. -/

/-- The bytes of every object file are in `S`. -/
def FilesIn (S : Bytes → Prop) (fs : VaultFs) : Prop :=
  ∀ p b, ObjectDir p.dir → fs.lookup p = some b → S b

/-- The commands that need no peer. -/
def Command.Local : Command → Prop
  | .fetchDag .. => False
  | _ => True

/-- A local command that leaves bytes of `S`. -/
inductive StoreStep (S : Bytes → Prop) (fs : VaultFs) : Command → VaultFs → Prop
  | mk (v : Vault) (env : Outside) (cmd : Command) (hcmd : cmd.Local)
      (hdata : FilesIn S (cmd.after v env fs)) : StoreStep S fs cmd (cmd.after v env fs)

/-- From `fs` a run of commands that satisfy `P` leads to `fs'`. -/
abbrev StoreRun (S : Bytes → Prop) (P : Command → Prop) : VaultFs → VaultFs → Prop :=
  Relation.ReflTransGen fun fs fs' => ∃ cmd, P cmd ∧ StoreStep S fs cmd fs'

/-- The directories that local commands lead to, from a fresh one. -/
def StoreReached (S : Bytes → Prop) (fs : VaultFs) : Prop :=
  ∃ fs₀, Fresh fs₀ ∧ StoreRun S (fun _ => True) fs₀ fs

section Commands

variable {S : Bytes → Prop} {P : Command → Prop} {fs fs' : VaultFs} {cmd : Command}

omit [Crates] in
theorem Fresh.noObject (h : Fresh fs) {p : FilePath VaultDir} (hd : ObjectDir p.dir) :
    fs.lookup p = none := by
  refine AList.lookup_eq_none.2 fun hp => ?_
  rw [(h p hp).1] at hd
  rcases hd with hd | hd | hd <;> cases hd

theorem Fresh.intact (h : Fresh fs) : Intact fs := fun p b hd hb => by
  rw [h.noObject hd] at hb
  cases hb

omit [Crates] in
theorem Fresh.filesIn (h : Fresh fs) : FilesIn S fs := fun p b hd hb => by
  rw [h.noObject hd] at hb
  cases hb

/-- A collection only removes files. -/
theorem Intact.swept {D : FilePath VaultDir → Prop} {n : Nat} (h : Intact fs)
    (hsw : Swept D fs fs' n) : Intact fs' := by
  intro p b hd hb
  by_cases hp : D p
  · exact absurd (Fs.mem_iff_lookup.2 ⟨b, hb⟩) (hsw.gone p hp)
  · rw [hsw.kept p hp] at hb
    exact h p b hd hb

theorem intact_gcAll (env : Outside) (h : Intact fs) :
    Intact (run env gcAll (World.boot fs)).2.fs := by
  rcases (wp_gcAll env (World.boot fs)).post with ⟨e, -, hw, -⟩ | ⟨n, -, -, hsw⟩
  · rw [hw]
    exact h
  · exact h.swept hsw

omit [Crates] in
theorem confined_recordHead (c : ContentHash) : Confined (InDir .root) (recordHead c) :=
  Confined.bind (.ofRead _) fun _ => .writeFile rfl

/-- Every local command but a collection grows the store. -/
theorem Command.grows (v : Vault) (env : Outside) (fs : VaultFs) (hcmd : cmd.Local)
    (hgc : cmd ≠ .gcAll) : Grows fs (cmd.after v env fs) := by
  cases cmd with
  | addPath source baseName => exact v.leads_addPath source baseName env (World.boot fs)
  | snapshot message => exact v.leads_snapshot message env (World.boot fs)
  | importCommit hash data =>
    exact leads_importBytes (K := commitKind) (.inl rfl) hash data env (World.boot fs)
  | importTree hash data =>
    exact leads_importBytes (K := treeKind) (.inr rfl) hash data env (World.boot fs)
  | importChunk hash data =>
    exact Leads.bind (leads_putVerified hash data) (fun _ => .done) env (World.boot fs)
  | fetchDag peers target adopt => exact hcmd.elim
  | mergeHead remoteHead label => exact v.leads_mergeHead remoteHead label env (World.boot fs)
  | setHeadPublic c =>
    have hx : Confined (InDir .root) (Soal.setHeadPublic c) :=
      Confined.bind (.ofRead _) fun _ => Confined.bind (.writeFile rfl) fun _ =>
        confined_recordHead c
    exact leads_root hx (fun _ hp => hp) env (World.boot fs)
  | setDivergentHead c =>
    have hx : Confined (InDir .root) (Soal.setDivergentHead c) := by
      refine Confined.bind (.ofRead _) fun _ => Confined.bind (confined_recordHead c) fun _ => ?_
      refine Confined.bind (.ofRead _) fun l => ?_
      cases l with
      | none => exact .writeFile rfl
      | some h => exact .done
    exact leads_root hx (fun _ hp => hp) env (World.boot fs)
  | gcAll => exact absurd rfl hgc

theorem StoreStep.intact (h : StoreStep S fs cmd fs') (hi : Intact fs) : Intact fs' := by
  cases h with
  | mk v env cmd hcmd hdata =>
    by_cases hgc : cmd = .gcAll
    · subst hgc
      exact intact_gcAll env hi
    · exact (Command.grows v env fs hcmd hgc hi).1

theorem StoreStep.filesIn (h : StoreStep S fs cmd fs') : FilesIn S fs' := by
  cases h with
  | mk v env cmd hcmd hdata => exact hdata

theorem StoreRun.intact (h : StoreRun S P fs fs') (hi : Intact fs) : Intact fs' := by
  induction h with
  | refl => exact hi
  | tail _ hs ih =>
    obtain ⟨cmd, -, hs⟩ := hs
    exact hs.intact ih

theorem StoreRun.filesIn (h : StoreRun S P fs fs') (hfs : FilesIn S fs) : FilesIn S fs' := by
  induction h with
  | refl => exact hfs
  | tail _ hs _ =>
    obtain ⟨cmd, -, hs⟩ := hs
    exact hs.filesIn

/-- **Two files of one directory that are named by one hash hold the same bytes**, whenever they are
looked at. -/
theorem Intact.same_bytes (hS : CollisionFree S) (hi : Intact fs) (hi' : Intact fs')
    (hfs : FilesIn S fs) (hfs' : FilesIn S fs') {p p' : FilePath VaultDir} {h : ContentHash}
    {b b' : Bytes} (hp : NamedBy p h) (hp' : NamedBy p' h) (hb : fs.lookup p = some b)
    (hb' : fs'.lookup p' = some b') : b' = b := by
  have hd := hp.objectDir
  have hd' := hp'.objectDir
  refine hS b' b (hfs' p' b' hd' hb') (hfs p b hd hb) ?_
  rw [(hi' p' b' hd' hb').unique hp', (hi p b hd hb).unique hp]

/-- Without a collection every object file keeps its bytes. -/
theorem StoreRun.kept (hS : CollisionFree S) (h : StoreRun S (· ≠ .gcAll) fs fs') (hi : Intact fs)
    (hfs : FilesIn S fs) {p : FilePath VaultDir} {b : Bytes} (hd : ObjectDir p.dir)
    (hb : fs.lookup p = some b) : fs'.lookup p = some b := by
  induction h with
  | refl => exact hb
  | @tail fs₁ fs₂ hrun hs ih =>
    have hi₁ := StoreRun.intact hrun hi
    have hfs₁ := StoreRun.filesIn hrun hfs
    obtain ⟨cmd, hgc, hs⟩ := hs
    have hp := hi₁ p b hd ih
    -- the file is still there, and what it holds has the same hash
    obtain ⟨b', hb'⟩ : ∃ b', fs₂.lookup p = some b' := by
      cases hs with
      | mk v env cmd hcmd hdata =>
        refine Fs.mem_iff_lookup.1 ((Command.grows v env fs₁ hcmd hgc hi₁).2 p hd ?_)
        exact Fs.mem_iff_lookup.2 ⟨b, ih⟩
    have hfs₂ : FilesIn S fs₂ := hs.filesIn
    obtain rfl := Intact.same_bytes hS hi₁ (hs.intact hi₁) hfs₁ hfs₂ hp hp ih hb'
    exact hb'

end Commands

/-! ## §4. Imports. -/

/-- The operations that take bytes from outside. -/
inductive Import where
  | chunk
  | commit
  | tree

namespace Import

def dir : Import → VaultDir
  | .chunk => .chunks
  | .commit => .commits
  | .tree => .trees

def action : Import → ContentHash → Bytes → Action Unit
  | .chunk => importStoredChunk
  | .commit => importCommitBytes
  | .tree => importTreeBytes

variable {env : Outside} {fs : VaultFs} {h : ContentHash} {data : Bytes}

/-- **An import writes the offered bytes under their own hash, or nothing.** -/
theorem run_cases (i : Import) (env : Outside) (h : ContentHash) (data : Bytes) (fs : VaultFs) :
    (run env (i.action h data) (World.boot fs)).2 = World.boot fs ∨
      (run env (i.action h data) (World.boot fs)).1 = .ok () ∧ ContentHash.of data = h ∧
        (i = .chunk ∧ (run env (i.action h data) (World.boot fs)).2 =
            renamed (World.boot fs) (chunkTmp h) (chunkPath h) data ∨
          ∃ p, NamedBy p h ∧ p.dir = i.dir ∧
            (run env (i.action h data) (World.boot fs)).2 = (World.boot fs).written p data) := by
  have hobject : ∀ {α : Type} (K : ObjectKind α) (_ : K.dir = .commits ∨ K.dir = .trees),
      (run env (K.importBytes h data) (World.boot fs)).2 = World.boot fs ∨
      (run env (K.importBytes h data) (World.boot fs)).1 = .ok () ∧ ContentHash.of data = h ∧
        ∃ p, NamedBy p h ∧ p.dir = K.dir ∧
          (run env (K.importBytes h data) (World.boot fs)).2 = (World.boot fs).written p data := by
    intro α K hK
    have hrule : wp env (fun _ => True) (K.importBytes h data) _ (World.boot fs) :=
      K.wp_importBytes trivial fun _ _ => ⟨trivial, trivial⟩
    rcases hrule.post with ⟨e, -, hw, -⟩ | ⟨x, hx, hr, hw⟩
    · exact .inl hw
    · exact .inr ⟨hr, hx.hash_eq, _, ObjectKind.namedBy_importPath hK h data,
        K.importPath_dir h data, hw⟩
  cases i with
  | chunk =>
    have hrule : wp env (fun _ => True) (importStoredChunk h data) (fun r w' =>
        w' = World.boot fs ∨ ContentHash.of data = h ∧ r = .ok () ∧
          w' = renamed (World.boot fs) (chunkTmp h) (chunkPath h) data) (World.boot fs) := by
      refine wp_seq (wp_putVerified_cases env h data (World.boot fs)) (fun _ w' _ hw => ?_)
        (fun e w' _ hw => hw.imp_right fun hw => by cases hw.2.1)
      exact ⟨trivial, hw.imp_right fun hw => ⟨hw.1, rfl, hw.2.2⟩⟩
    rcases hrule.post with hw | ⟨hh, hr, hw⟩
    · exact .inl hw
    · exact .inr ⟨hr, hh, .inl ⟨rfl, hw⟩⟩
  | commit =>
    exact (hobject commitKind (.inl rfl)).imp_right fun ⟨hr, hh, hp⟩ => ⟨hr, hh, .inr hp⟩
  | tree => exact (hobject treeKind (.inr rfl)).imp_right fun ⟨hr, hh, hp⟩ => ⟨hr, hh, .inr hp⟩

/-- Outside the file of its own hash an import changes nothing. -/
theorem lookup_other (i : Import) (env : Outside) (hi : Intact fs) {p : FilePath VaultDir}
    (hp : (run env (i.action h data) (World.boot fs)).2.fs.lookup p ≠ fs.lookup p) :
    p.dir = i.dir ∧ NamedBy p h := by
  rcases i.run_cases env h data fs with hw | ⟨-, -, ⟨rfl, hw⟩ | ⟨q, hq, hd, hw⟩⟩
  · rw [hw] at hp
    exact absurd rfl hp
  · rw [hw, Intact.lookup_stored (w := World.boot fs) hi] at hp
    split at hp
    next heq =>
      rw [heq]
      exact ⟨rfl, namedBy_chunkPath h⟩
    next => exact absurd rfl hp
  · rw [hw, World.lookup_written] at hp
    split at hp
    next heq =>
      rw [heq]
      exact ⟨hd, hq⟩
    next => exact absurd rfl hp

end Import

/-! ## §5. Whole runs. -/

/-- **Store integrity.**  In every state of a run of local commands every object file is named by the
hash of its bytes; a failed import changes nothing, a successful one at most the files of its own hash;
no object file changes before a collection removes it, and if the object ever comes back it comes
back with the same bytes. -/
theorem store_integrity {S : Bytes → Prop} (hS : CollisionFree S) {fs : VaultFs}
    (hreach : StoreReached S fs) :
    (∀ p b, ObjectDir p.dir → fs.lookup p = some b → NamedBy p (.of b)) ∧
    (∀ (i : Import) (env : Outside) (h : ContentHash) (data : Bytes) (e : Fault) (w' : VaultWorld),
      run env (i.action h data) (World.boot fs) = (.error e, w') → w'.fs = fs) ∧
    (∀ (i : Import) (env : Outside) (h : ContentHash) (data : Bytes) (w' : VaultWorld),
      run env (i.action h data) (World.boot fs) = (.ok (), w') →
      ∀ p, w'.fs.lookup p ≠ fs.lookup p → p.dir = i.dir ∧ NamedBy p h) ∧
    (∀ fs', StoreRun S (· ≠ .gcAll) fs fs' → ∀ p b, ObjectDir p.dir → fs.lookup p = some b →
      fs'.lookup p = some b) ∧
    ∀ fs', StoreRun S (fun _ => True) fs fs' → ∀ (h : ContentHash) (p p' : FilePath VaultDir)
      (b b' : Bytes), NamedBy p h → NamedBy p' h → fs.lookup p = some b →
      fs'.lookup p' = some b' → b' = b := by
  obtain ⟨fs₀, hfresh, hrun⟩ := hreach
  have hi : Intact fs := hrun.intact hfresh.intact
  have hfs : FilesIn S fs := hrun.filesIn hfresh.filesIn
  refine ⟨hi, fun i env h data e w' hend => ?_, fun i env h data w' hend p hp => ?_,
    fun fs' hrun' p b hd hb => hrun'.kept hS hi hfs hd hb,
    fun fs' hrun' h p p' b b' hp hp' hb hb' => ?_⟩
  · rcases i.run_cases env h data fs with hw | ⟨hr, -⟩
    · rw [hend] at hw
      exact congrArg World.fs hw
    · rw [hend] at hr
      cases hr
  · have hother : (run env (i.action h data) (World.boot fs)).2.fs.lookup p ≠ fs.lookup p →
        p.dir = i.dir ∧ NamedBy p h := i.lookup_other env hi
    rw [hend] at hother
    exact hother hp
  · exact Intact.same_bytes hS hi (hrun'.intact hi) hfs (hrun'.filesIn hfs) hp hp' hb hb'

end Model

/-! ## §6. A tree that was imported. -/

section Sample

attribute [local instance] sample

/-- After the import of the empty tree alone. -/
def treeOnlyDisk : VaultFs := ((World.boot freshDisk).written (treePathBin treeE) wireE).fs

theorem treeOnly_reached : StoreReached SampleData treeOnlyDisk := by
  have hafter : (Command.importTree treeE wireE).after plainVault (quiet 0) freshDisk =
      treeOnlyDisk := after_importTreeE freshDisk
  have hfiles : FilesIn SampleData treeOnlyDisk := by
    intro p b hd hb
    rw [treeOnlyDisk, World.lookup_written] at hb
    split at hb
    next =>
      cases hb
      simp [SampleData]
    next =>
      rw [World.boot_fs, freshDisk_fresh.noObject hd] at hb
      cases hb
  refine ⟨freshDisk, freshDisk_fresh, .single ⟨.importTree treeE wireE, trivial, ?_⟩⟩
  rw [← hafter] at hfiles ⊢
  exact .mk plainVault (quiet 0) _ trivial hfiles

/-- The import leaves an intact store, and the imported tree keeps its bytes through every run
without a collection. -/
theorem store_integrity_imported :
    Intact treeOnlyDisk ∧
    ∀ fs', StoreRun SampleData (· ≠ .gcAll) treeOnlyDisk fs' →
      fs'.lookup (treePathBin treeE) = some wireE := by
  obtain ⟨hintact, -, -, hkept, -⟩ := store_integrity sample_collisionFree treeOnly_reached
  refine ⟨hintact, fun fs' hrun => hkept fs' hrun _ _ (.inr (.inr rfl)) ?_⟩
  rw [treeOnlyDisk, World.lookup_written, if_pos rfl]

end Sample

end Soal

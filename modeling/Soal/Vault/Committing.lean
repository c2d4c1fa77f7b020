/-
  Soal.Vault.Committing — what an operation that makes a commit passes through.

  `add_path`, `snapshot` and `merge_head` have one shape: store chunks, write a tree (or reuse one),
  write a commit, point HEAD at it, tidy up.  `Plan` says what one of them puts into its commit;
  `Extending` lists the states on the way, `Extended` is the state after a success.
-/
import Soal.Vault.Adopt

namespace Soal

open FileProg

variable [Crates]

/-! ## §1. Storing chunks. -/

/-- Only the chunk directory was touched, and the chunks that were there are as they were. -/
structure ChunksAdded (w w' : VaultWorld) : Prop where
  within : Within (InDir .chunks) w w'
  kept : ∀ ch, chunkPath ch ∈ w.fs → w'.fs.lookup (chunkPath ch) = w.fs.lookup (chunkPath ch)

/-- The plaintext is stored under this hash. -/
def Vault.Holds (v : Vault) (fs : VaultFs) (plain : Bytes) (h : ContentHash) : Prop :=
  ∃ stored, v.storedForm plain = .ok stored ∧ h = .of stored ∧
    fs.lookup (chunkPath h) = some stored

/-- The data of a file is stored: its size, and a chunk list that holds its chunks. -/
structure Vault.HoldsFile (v : Vault) (fs : VaultFs) (data : Bytes) (entry : FileEntry) : Prop where
  size : entry.2.1 = .ofNat data.length
  chunks : List.Forall₂ (v.Holds fs) (chunkBytes data) entry.2.2

section Storing

variable {w w' w₀ w₁ : VaultWorld} {v : Vault} {env : Outside}

omit [Crates] in
theorem ChunksAdded.refl (w : VaultWorld) : ChunksAdded w w := ⟨.refl w, fun _ _ => rfl⟩

omit [Crates] in
theorem ChunksAdded.mem {ch : ContentHash} (h : ChunksAdded w w') (hc : chunkPath ch ∈ w.fs) :
    chunkPath ch ∈ w'.fs := (mem_congr (h.kept ch hc)).2 hc

omit [Crates] in
theorem ChunksAdded.trans (h : ChunksAdded w w₁) (h' : ChunksAdded w₁ w') : ChunksAdded w w' where
  within := h.within.trans h'.within
  kept ch hc := (h'.kept ch (h.mem hc)).trans (h.kept ch hc)

omit [Crates] in
/-- Outside the chunk directory nothing changed. -/
theorem ChunksAdded.other {p : FilePath VaultDir} (h : ChunksAdded w w') (hp : p.dir ≠ .chunks) :
    w'.fs.lookup p = w.fs.lookup p := h.within.frame p hp

theorem Vault.Holds.kept {fs fs' : VaultFs} {plain : Bytes} {ch : ContentHash}
    (h : v.Holds fs plain ch)
    (hc : ∀ x, chunkPath x ∈ fs → fs'.lookup (chunkPath x) = fs.lookup (chunkPath x)) :
    v.Holds fs' plain ch := by
  obtain ⟨stored, hs, hh, hl⟩ := h
  exact ⟨stored, hs, hh, (hc ch (Fs.mem_iff_lookup.2 ⟨stored, hl⟩)).trans hl⟩

theorem Vault.Holds.mono {plain : Bytes} {ch : ContentHash} (h : v.Holds w.fs plain ch)
    (ha : ChunksAdded w w') : v.Holds w'.fs plain ch := h.kept ha.kept

theorem Vault.Holds.mem {fs : VaultFs} {plain : Bytes} {ch : ContentHash}
    (h : v.Holds fs plain ch) : chunkPath ch ∈ fs := by
  obtain ⟨stored, -, -, hl⟩ := h
  exact Fs.mem_iff_lookup.2 ⟨stored, hl⟩

theorem Vault.HoldsFile.kept {fs fs' : VaultFs} {data : Bytes} {entry : FileEntry}
    (h : v.HoldsFile fs data entry)
    (hc : ∀ x, chunkPath x ∈ fs → fs'.lookup (chunkPath x) = fs.lookup (chunkPath x)) :
    v.HoldsFile fs' data entry :=
  ⟨h.size, h.chunks.imp fun _ _ hheld => hheld.kept hc⟩

theorem Vault.HoldsFile.mono {data : Bytes} {entry : FileEntry} (h : v.HoldsFile w.fs data entry)
    (ha : ChunksAdded w w') : v.HoldsFile w'.fs data entry := h.kept ha.kept

/-- Chunks that are held are there. -/
theorem mem_of_holds {fs : VaultFs} {cs : List Bytes} {hs : List ContentHash}
    (h : List.Forall₂ (v.Holds fs) cs hs) : ∀ ch ∈ hs, chunkPath ch ∈ fs := by
  induction h with
  | nil => exact fun ch hch => absurd hch List.not_mem_nil
  | cons hd _ ih =>
    intro ch hch
    rcases List.mem_cons.1 hch with rfl | hch
    · exact hd.mem
    · exact ih ch hch

theorem Vault.HoldsFile.mem {fs : VaultFs} {data : Bytes} {entry : FileEntry}
    (h : v.HoldsFile fs data entry) : ∀ ch ∈ entry.2.2, chunkPath ch ∈ fs := mem_of_holds h.chunks

omit [Crates] in
/-- A change of a temporary file, or the arrival of a new chunk. -/
theorem ChunksAdded.step {op : WriteOp VaultDir} (h : ChunksAdded w w')
    (hd : ∀ p ∈ op.targets, p.dir = .chunks)
    (hk : ∀ ch, chunkPath ch ∈ w'.fs →
      (w'.change op).fs.lookup (chunkPath ch) = w'.fs.lookup (chunkPath ch)) :
    ChunksAdded w (w'.change op) :=
  h.trans ⟨.change hd w', hk⟩

omit [Crates] in
theorem chunkPath_ne_chunkTmp (h h' : ContentHash) : chunkPath h ≠ chunkTmp h' := by
  simp [chunkPath, chunkTmp]

/-- **Storing a chunk**: it is there afterwards, and no other chunk was touched. -/
theorem wp_putVerified {ch : ContentHash} {data : Bytes} (h : ChunksAdded w₀ w) :
    wp env (ChunksAdded w₀) (ChunkStore.putVerified ch data) (fun r w' => ∀ b, r = .ok b →
      ContentHash.of data = ch ∧ w'.fs.lookup (chunkPath ch) = some data) w := by
  unfold ChunkStore.putVerified
  split
  next => exact ⟨h, fun b hb => by cases hb⟩
  next hdata =>
    have hdata := not_not.1 hdata
    refine wp_exists h ?_
    split
    next hmem =>
      obtain ⟨old, hold⟩ := Fs.mem_iff_lookup.1 (of_decide_eq_true hmem)
      refine wp_read_ok h (eval_readFile_some hold) ?_
      split
      next => exact ⟨h, fun b hb => by cases hb⟩
      next hsame =>
        refine ⟨h, fun b _ => ⟨hdata, ?_⟩⟩
        rw [hold, not_not.1 hsame]
    next hmem =>
      have hnew : chunkPath ch ∉ w.fs := fun hm => hmem (decide_eq_true hm)
      have hnot : ∀ x, chunkPath x ∈ w.fs → chunkPath x ≠ chunkPath ch := by
        intro x hx heq
        exact hnew (heq ▸ hx)
      -- the temporary file is no chunk, the renamed file is a new one
      have htrunc : ChunksAdded w (w.change (.truncate (chunkTmp ch))) := by
        refine (ChunksAdded.refl w).step (by simp [WriteOp.targets, chunkTmp]) fun x _ => ?_
        rw [World.lookup_truncated, if_neg (chunkPath_ne_chunkTmp x ch)]
      have hwritten : ChunksAdded w (w.written (chunkTmp ch) data) := by
        refine htrunc.trans ⟨.change (by simp [WriteOp.targets, chunkTmp]) _, fun x _ => ?_⟩
        show (w.written (chunkTmp ch) data).fs.lookup _ = _
        rw [World.lookup_written, World.lookup_truncated, if_neg (chunkPath_ne_chunkTmp x ch),
          if_neg (chunkPath_ne_chunkTmp x ch)]
      have hrenamed : ChunksAdded w (renamed w (chunkTmp ch) (chunkPath ch) data) := by
        refine ⟨hwritten.within.trans (.change ?_ _), fun x hx => ?_⟩
        · simp [WriteOp.targets, chunkTmp, chunkPath]
        · rw [lookup_renamed, if_neg (hnot x hx), if_neg (chunkPath_ne_chunkTmp x ch)]
      refine wp_seq (R := fun _ w' => w' = renamed w (chunkTmp ch) (chunkPath ch) data)
        (wp_writeRename.2 ⟨h, h.trans htrunc, h.trans hwritten, h.trans hrenamed, rfl⟩) ?_ ?_
      · rintro _ w' hI rfl
        refine ⟨hI, fun b _ => ⟨hdata, ?_⟩⟩
        rw [lookup_renamed, if_pos rfl]
      · exact fun e w' _ _ b hb => by cases hb

/-- Storing plaintext chunks: the hashes returned hold them. -/
theorem Vault.wp_storeChunk {plain : Bytes} (h : ChunksAdded w₀ w) :
    wp env (ChunksAdded w₀) (v.storeChunk plain) (fun r w' => ChunksAdded w w' ∧
      ∀ ch, r = .ok ch → v.Holds w'.fs plain ch) w := by
  have hadd : wp env (ChunksAdded w) (v.storeChunk plain) (fun r w' => ∀ ch, r = .ok ch →
      v.Holds w'.fs plain ch) w := by
    unfold Vault.storeChunk
    refine wp_compute (.refl w) (fun stored hs => ?_) (fun e _ ch hr => by cases hr)
    refine wp_seq (wp_putVerified (.refl w)) (fun b w' hI hb => ?_) (fun e w' _ _ ch hr => by cases hr)
    refine ⟨hI, fun ch hr => ?_⟩
    obtain rfl := Except.ok.inj hr
    exact ⟨stored, hs, rfl, (hb b rfl).2⟩
  exact hadd.mono (fun w' hw' => h.trans hw') fun r w' hw' hr => ⟨hw', hr⟩

theorem Vault.wp_storeChunks {cs : List Bytes} (h : ChunksAdded w₀ w) :
    wp env (ChunksAdded w₀) (v.storeChunks cs) (fun r w' => ChunksAdded w w' ∧
      ∀ hs, r = .ok hs → List.Forall₂ (v.Holds w'.fs) cs hs) w := by
  induction cs generalizing w with
  | nil =>
    refine ⟨h, .refl w, fun hs hr => ?_⟩
    obtain rfl := Except.ok.inj hr
    exact .nil
  | cons c cs ih =>
    unfold Vault.storeChunks
    refine wp_seq (v.wp_storeChunk h) (fun ch w₁ hI₁ h₁ => ?_)
      (fun e w₁ _ h₁ => ⟨h₁.1, fun hs hr => by cases hr⟩)
    obtain ⟨ha₁, hc⟩ := h₁
    refine wp_seq (ih hI₁) (fun rest w₂ hI₂ h₂ => ?_)
      (fun e w₂ _ h₂ => ⟨ha₁.trans h₂.1, fun hs hr => by cases hr⟩)
    obtain ⟨ha₂, hrest⟩ := h₂
    refine ⟨hI₂, ha₁.trans ha₂, fun hs hr => ?_⟩
    obtain rfl := Except.ok.inj hr
    exact .cons ((hc ch rfl).mono ha₂) (hrest rest rfl)

theorem Vault.wp_addData {path : String} {data : Bytes} (h : ChunksAdded w₀ w) :
    wp env (ChunksAdded w₀) (v.addData path data) (fun r w' => ChunksAdded w w' ∧
      ∀ e, r = .ok e → e.1 = path ∧ v.HoldsFile w'.fs data e) w := by
  unfold Vault.addData
  refine wp_seq (v.wp_storeChunks h) (fun hs w₁ hI₁ h₁ => ?_)
    (fun e w₁ _ h₁ => ⟨h₁.1, fun hs hr => by cases hr⟩)
  refine ⟨hI₁, h₁.1, fun e hr => ?_⟩
  obtain rfl := Except.ok.inj hr
  exact ⟨rfl, rfl, h₁.2 hs rfl⟩

omit [Crates] in
/-- A normalized path is not empty. -/
theorem not_isEmpty_of_normalize {path path' : String} (h : normalizeAndValidate path = .ok path') :
    ¬path'.isEmpty = true := by
  intro hempty
  have hvalid := validatePath_of_normalize h
  rw [String.isEmpty_iff.1 hempty] at hvalid
  cases hvalid

/-- The files of a directory: each one, in order, is stored for an entry of its own. -/
theorem Vault.wp_addFiles {baseName : String} {files : List (List Bytes × Bytes)}
    (h : ChunksAdded w₀ w) : wp env (ChunksAdded w₀) (v.addFiles baseName files) (fun r w' =>
      ChunksAdded w w' ∧ ∀ entries, r = .ok entries → List.Forall₂ (fun f e =>
        logicalName baseName f.1 = .ok e.1 ∧ v.HoldsFile w'.fs f.2 e) files entries) w := by
  induction files generalizing w with
  | nil =>
    refine ⟨h, .refl w, fun entries hr => ?_⟩
    obtain rfl := Except.ok.inj hr
    exact .nil
  | cons f files ih =>
    obtain ⟨components, data⟩ := f
    unfold Vault.addFiles
    refine wp_compute h (fun relStr hrel => ?_)
      (fun e _ => ⟨.refl w, fun entries hr => by cases hr⟩)
    have hrel : normalizeAndValidate (relativeName components) = .ok relStr := hrel
    rw [if_neg (not_isEmpty_of_normalize hrel)]
    refine wp_seq (v.wp_addData h) (fun entry w₁ hI₁ h₁ => ?_)
      (fun e w₁ _ h₁ => ⟨h₁.1, fun entries hr => by cases hr⟩)
    obtain ⟨ha₁, hentry⟩ := h₁
    obtain ⟨-, hfile⟩ := hentry entry rfl
    refine wp_compute hI₁ (fun logical hlogical => ?_)
      (fun e _ => ⟨ha₁, fun entries hr => by cases hr⟩)
    have hname : logicalName baseName components = .ok logical := by
      unfold logicalName
      rw [hrel]
      exact hlogical
    refine wp_seq (ih hI₁) (fun rest w₂ hI₂ h₂ => ?_)
      (fun e w₂ _ h₂ => ⟨ha₁.trans h₂.1, fun entries hr => by cases hr⟩)
    obtain ⟨ha₂, hrest⟩ := h₂
    refine ⟨hI₂, ha₁.trans ha₂, fun entries hr => ?_⟩
    obtain rfl := Except.ok.inj hr
    exact .cons ⟨hname, hfile.size, (hfile.mono ha₂).chunks⟩ (hrest rest rfl)

/-- What a source contributes is stored, each entry for some data. -/
def Source.Gathered (source : Source) (v : Vault) (baseName : String) (fs : VaultFs)
    (entries : List FileEntry) : Prop :=
  match source with
  | .file data => ∃ e, entries = [e] ∧ e.1 = baseName ∧ v.HoldsFile fs data e
  | .dir _ => ∀ e ∈ entries, ∃ data, v.HoldsFile fs data e
  | .neither => False

theorem Source.Gathered.mem {source : Source} {baseName : String} {fs : VaultFs}
    {entries : List FileEntry} (h : source.Gathered v baseName fs entries) :
    ∀ e ∈ entries, ∀ ch ∈ e.2.2, chunkPath ch ∈ fs := by
  intro e he
  cases source with
  | file data =>
    obtain ⟨e', rfl, -, hfile⟩ := h
    obtain rfl := List.mem_singleton.1 he
    exact hfile.mem
  | dir files =>
    obtain ⟨data, hfile⟩ := h e he
    exact hfile.mem
  | neither => exact h.elim

omit [Crates] in
/-- Whatever the second list holds, something of the first stands for. -/
theorem exists_of_forall₂ {α β : Type} {R : α → β → Prop} {l : List α} {l' : List β} {b : β}
    (h : List.Forall₂ R l l') (hb : b ∈ l') : ∃ a ∈ l, R a b := by
  induction h with
  | nil => exact absurd hb List.not_mem_nil
  | @cons x y l l' hxy _ ih =>
    rcases List.mem_cons.1 hb with rfl | hb
    · exact ⟨x, List.mem_cons_self, hxy⟩
    · obtain ⟨a, ha, hR⟩ := ih hb
      exact ⟨a, List.mem_cons_of_mem x ha, hR⟩

/-- **Gathering a source** touches the chunk directory only, and stores every entry. -/
theorem Vault.wp_addSource {baseName : String} {source : Source} (h : ChunksAdded w₀ w) :
    wp env (ChunksAdded w₀) (v.addSource baseName source) (fun r w' => ChunksAdded w w' ∧
      ∀ entries, r = .ok entries → source.Gathered v baseName w'.fs entries) w := by
  cases source with
  | file data =>
    rw [Vault.addSource]
    split
    next => exact ⟨h, .refl w, fun entries hr => by cases hr⟩
    next =>
      refine wp_seq (v.wp_addData h) (fun e w₁ hI₁ h₁ => ?_)
        (fun e w₁ _ h₁ => ⟨h₁.1, fun entries hr => by cases hr⟩)
      obtain ⟨ha₁, he⟩ := h₁
      obtain ⟨hpath, hfile⟩ := he e rfl
      refine ⟨hI₁, ha₁, fun entries hr => ?_⟩
      obtain rfl := Except.ok.inj hr
      exact ⟨e, rfl, hpath, hfile⟩
  | dir files =>
    refine (v.wp_addFiles h).mono (fun _ hI => hI) fun r w' _ hr => ⟨hr.1, fun entries hok e he => ?_⟩
    obtain ⟨f, -, -, hfile⟩ := exists_of_forall₂ (hr.2 entries hok) he
    exact ⟨f.2, hfile⟩
  | neither => exact ⟨h, .refl w, fun entries hr => by cases hr⟩

end Storing

/-! ## §2. The states on the way. -/

/-- What an operation puts into the commit it makes, and which files it rewrites afterwards. -/
structure Plan where
  /-- a tree that is saved for it, on the disk as it is then -/
  saves : VaultFs → Tree → Prop
  /-- a stored tree that is used again -/
  reuses : ContentHash → Prop
  parents : List ContentHash → Prop
  tidies : FilePath VaultDir → Prop

/-- From `w` to `w'` the tree of the new commit was put in place. -/
inductive Prepared (P : Plan) (w w' : VaultWorld) (t : ContentHash) : Prop
  | saved {w₁ : VaultWorld} {tree : Tree} {bytes : Bytes} (ha : ChunksAdded w w₁)
      (hs : P.saves w₁.fs tree) (hb : encodeTreeWire tree = .ok bytes) (ht : t = .of bytes)
      (hw : w' = w₁.written (treePathBin (.of bytes)) bytes)
  | reused (hr : P.reuses t) (hw : w' = w)

/-- The commit is made and can be written. -/
structure AtCommit (P : Plan) (w w₀ : VaultWorld) (k : Commit) (bytes : Bytes) : Prop where
  prepared : ∃ w₂, Prepared P w w₂ k.tree ∧ w₀.fs = w₂.fs
  parents : P.parents k.parents
  encoded : encodeCommitWire k = .ok bytes

/-- From `w` to `w'` the commit was written and HEAD was pointed at it. -/
def Extended (P : Plan) (w : VaultWorld) (c : ContentHash) (w' : VaultWorld) : Prop :=
  ∃ w₀ k bytes, AtCommit P w w₀ k bytes ∧ c = .of bytes ∧
    Within P.tidies (committed w₀ (.of bytes) bytes) w'

/-- A state on the way. -/
inductive Extending (P : Plan) (w w' : VaultWorld) : Prop
  | storing (ha : ChunksAdded w w')
  | treeCut {w₁ : VaultWorld} {tree : Tree} {bytes : Bytes} (ha : ChunksAdded w w₁)
      (hs : P.saves w₁.fs tree) (hb : encodeTreeWire tree = .ok bytes)
      (hw : w' = w₁.change (.truncate (treePathBin (.of bytes))))
  | prepared {w₂ : VaultWorld} {t : ContentHash} (hp : Prepared P w w₂ t) (hfs : w'.fs = w₂.fs)
      (hlog : w'.log = w₂.log)
  | commitCut {w₀ : VaultWorld} {k : Commit} {bytes : Bytes} (hk : AtCommit P w w₀ k bytes)
      (hw : w' = w₀.change (.truncate (commitPathBin (.of bytes))))
  | commitSaved {w₀ : VaultWorld} {k : Commit} {bytes : Bytes} (hk : AtCommit P w w₀ k bytes)
      (hw : w' = w₀.written (commitPathBin (.of bytes)) bytes)
  | headCut {w₀ : VaultWorld} {k : Commit} {bytes : Bytes} (hk : AtCommit P w w₀ k bytes)
      (hw : w' = (w₀.written (commitPathBin (.of bytes)) bytes).change (.truncate headFile))
  | moved {c : ContentHash} (he : Extended P w c w')

/-- How it ends: with the commit, or with an error before or after HEAD moved. -/
def ExtendEnds (P : Plan) (w : VaultWorld) (r : Res ContentHash) (w' : VaultWorld) : Prop :=
  (∀ c, r = .ok c → Extended P w c w') ∧
    (ChunksAdded w w' ∨ (∃ w₂ t, Prepared P w w₂ t ∧ w'.fs = w₂.fs) ∨ ∃ c, Extended P w c w')

section Rules

variable {P : Plan} {w w₁ w₂ : VaultWorld} {env : Outside} {v : Vault}

theorem ExtendEnds.failed (e : Fault) {w' : VaultWorld} (h : ChunksAdded w w') :
    ExtendEnds P w (.error e) w' := ⟨by simp, .inl h⟩

theorem ExtendEnds.made {c : ContentHash} {w' : VaultWorld} (h : Extended P w c w') :
    ExtendEnds P w (.ok c) w' :=
  ⟨fun c' hc => by cases hc; exact h, .inr (.inr ⟨c, h⟩)⟩

/-- Making the commit, once its tree is in place. -/
theorem wp_commitPrepared {t : ContentHash} {parents : List ContentHash} {message : String}
    (hp : Prepared P w w₂ t) (hparents : P.parents parents) :
    wp env (Extending P w) (v.commitTree t parents message) (ExtendEnds P w) w₂ := by
  have hat : ∀ (w₀ : VaultWorld) (k : Commit) (bytes : Bytes), w₀.fs = w₂.fs → k.tree = t →
      k.parents = parents → encodeCommitWire k = .ok bytes → AtCommit P w w₀ k bytes := by
    rintro w₀ k bytes hfs rfl rfl hb
    exact ⟨⟨w₂, hp, hfs⟩, hparents, hb⟩
  refine (v.wp_commitTree t parents message (fun w' hfs hlog => .prepared hp hfs hlog)
    fun w₀ k bytes hfs ht hps hb => ?_).mono (fun _ h => h) fun r w' _ hr => ?_
  · have hk := hat w₀ k bytes hfs ht hps hb
    exact ⟨.commitCut hk rfl, .commitSaved hk rfl, .headCut hk rfl,
      .moved ⟨w₀, k, bytes, hk, rfl, .refl _⟩⟩
  · rcases hr with ⟨e, rfl, hfs⟩ | ⟨w₀, k, bytes, hfs, ht, hps, hb, rfl, rfl⟩
    · exact ⟨by simp, .inr (.inl ⟨w₂, t, hp, hfs⟩)⟩
    · exact .made ⟨w₀, k, bytes, hat w₀ k bytes hfs ht hps hb, rfl, .refl _⟩

/-- Saving the tree, then going on. -/
theorem wp_saveTree {tree : Tree} {α : Type} {f : ContentHash → Action α}
    {Q : Res α → VaultWorld → Prop} (ha : ChunksAdded w w₁) (hs : P.saves w₁.fs tree)
    (hok : ∀ t w₂, Prepared P w w₂ t → (∀ p : FilePath VaultDir, p.dir ≠ .trees →
      w₂.fs.lookup p = w₁.fs.lookup p) → wp env (Extending P w) (f t) Q w₂)
    (herr : ∀ e, Q (.error e) w₁) : wp env (Extending P w) (saveTree tree >>= f) Q w₁ := by
  refine wp_seq (treeKind.wp_save (.storing ha) fun bytes hb => ?_) (fun t w₂ _ h₂ => ?_)
    (fun e w₂ _ h₂ => ?_)
  · have hsaved : Prepared P w (w₁.written (treePathBin (.of bytes)) bytes) (.of bytes) :=
      .saved ha hs hb rfl rfl
    exact ⟨.treeCut ha hs hb rfl, .prepared hsaved rfl rfl⟩
  · rcases h₂ with ⟨_, he, -⟩ | ⟨bytes, hb, hr, rfl⟩
    · cases he
    obtain rfl := Except.ok.inj hr
    refine hok _ _ (.saved ha hs hb rfl rfl) fun p hp => ?_
    refine (World.lookup_written w₁ (treePathBin (.of bytes)) p bytes).trans (if_neg ?_)
    rintro rfl
    exact hp rfl
  · rcases h₂ with ⟨e', he, rfl⟩ | ⟨_, _, hr, _⟩
    · exact herr e
    · cases hr

/-- Tidying up after the commit. -/
theorem wp_tidy {α : Type} {x : Action α} {c : ContentHash} {w' : VaultWorld}
    (he : Extended P w c w') (hx : Confined P.tidies x) :
    wp env (Extending P w) x (fun _ w'' => Extended P w c w'') w' := by
  obtain ⟨w₀, k, bytes, hk, hc, hw⟩ := he
  have hstep : ∀ w'', Within P.tidies w' w'' → Extended P w c w'' := fun w'' hw' =>
    ⟨w₀, k, bytes, hk, hc, hw.trans hw'⟩
  exact (hx.wp w').mono (fun _ h => .moved (hstep _ h)) fun _ w'' h _ => hstep w'' h

end Rules

/-! ## §3. The operations. -/

/-- The parents of an ordinary commit: HEAD, when there is one. -/
def HeadParents (fs : VaultFs) (parents : List ContentHash) : Prop :=
  ∃ h, ReadM.eval fs head = .ok h ∧ parents = h.toList

/-- HEAD's tree with entries that were gathered as `G` says. -/
def gatherPlan (G : String → VaultFs → List FileEntry → Prop) (baseName : String) (fs : VaultFs) :
    Plan where
  saves fs' tree := ∃ base entries old, validBaseName baseName = .ok base ∧ G base fs' entries ∧
    ReadM.eval fs headTree = .ok old ∧ old.addEntries entries = .ok tree
  reuses _ := False
  parents := HeadParents fs
  tidies _ := False

/-- `add_path`: HEAD's tree with the entries of the source. -/
def addPlan (v : Vault) (source : Source) (baseName : String) (fs : VaultFs) : Plan :=
  gatherPlan (source.Gathered v) baseName fs

/-- The files a snapshot keeps its books in. -/
def Registry (p : FilePath VaultDir) : Prop :=
  p = snapshotsTmp ∨ p = snapshotsPath ∨ p = policyTmp ∨ p = policyPath

omit [Crates] in
/-- The books are root files. -/
theorem Registry.root {p : FilePath VaultDir} (h : Registry p) : p.dir = .root := by
  rcases h with rfl | rfl | rfl | rfl <;> rfl

/-- `snapshot`: the tree of HEAD's commit, or an empty one. -/
def snapshotPlan (fs : VaultFs) : Plan where
  saves _ tree := ReadM.eval fs head = .ok none ∧ tree = Tree.new
  reuses t := ∃ h k, ReadM.eval fs head = .ok (some h) ∧ ReadM.eval fs (loadCommit h) = .ok k ∧
    t = k.tree
  parents := HeadParents fs
  tidies := Registry

/-- `merge_head`: HEAD's tree merged with the remote one. -/
def mergePlan (remoteHead : ContentHash) (label : String) (fs : VaultFs) : Plan where
  saves _ tree := ∃ k theirs l ours, ReadM.eval fs (loadCommit remoteHead) = .ok k ∧
    ReadM.eval fs (loadTree k.tree) = .ok theirs ∧ ReadM.eval fs head = .ok l ∧
    ReadM.eval fs (treeOfHead l) = .ok ours ∧ tree = (ours.mergeWithConflicts theirs label).1
  reuses _ := False
  parents ps := ∃ l, ReadM.eval fs head = .ok l ∧ ps = mergeParents l remoteHead
  tidies p := p = headsFile

section Operations

variable {w w' : VaultWorld} {env : Outside}

theorem eval_headTree_congr {fs fs' : VaultFs}
    (h : ∀ p : FilePath VaultDir, p.dir ≠ .chunks → fs'.lookup p = fs.lookup p) :
    ReadM.eval fs' headTree = ReadM.eval fs headTree := by
  have hhead : ReadM.eval fs' head = ReadM.eval fs head := eval_head_congr (h headFile (by decide))
  have hcommit : ∀ c, ReadM.eval fs' (loadCommit c) = ReadM.eval fs (loadCommit c) :=
    eval_loadCommit_congr fun p hp => h p (by rw [hp]; decide)
  have htree : ∀ t, ReadM.eval fs' (loadTree t) = ReadM.eval fs (loadTree t) :=
    eval_loadTree_congr fun p hp => h p (by rw [hp]; decide)
  unfold headTree
  rw [ReadM.eval_bind, ReadM.eval_bind, hhead]
  refine congrArg _ (funext fun l => ?_)
  cases l with
  | none => rfl
  | some c => simp only [ReadM.eval_bind, hcommit, htree]

/-- **Adding a path**, by a rule for gathering its source. -/
theorem Vault.wp_addPath_of (v : Vault) {source : Source} {baseName : String}
    {G : String → VaultFs → List FileEntry → Prop}
    (hsource : ∀ base, validBaseName baseName = .ok base →
      wp env (ChunksAdded w) (v.addSource base source) (fun r w' => ChunksAdded w w' ∧
        ∀ entries, r = .ok entries → G base w'.fs entries) w) :
    wp env (Extending (gatherPlan G baseName w.fs) w) (v.addPath source baseName)
      (ExtendEnds (gatherPlan G baseName w.fs) w) w := by
  have h₀ : Extending (gatherPlan G baseName w.fs) w w := .storing (.refl w)
  unfold Vault.addPath
  refine wp_compute h₀ (fun base hbase => ?_) (fun e _ => .failed e (.refl w))
  refine wp_seq ((hsource base hbase).mono (fun _ h => Extending.storing h) fun _ _ _ h => h)
    (fun entries w₁ _ h₁ => ?_) (fun e w₁ _ h₁ => .failed e h₁.1)
  obtain ⟨ha, hgot⟩ := h₁
  have hother : ∀ p : FilePath VaultDir, p.dir ≠ .chunks → w₁.fs.lookup p = w.fs.lookup p :=
    fun p hp => ha.other hp
  split
  next => exact ⟨.storing ha, .failed _ ha⟩
  next =>
    refine wp_read (x := headTree) (.storing ha) (fun old hold => ?_) (fun e _ => .failed e ha)
    rw [eval_headTree_congr hother] at hold
    refine wp_compute (.storing ha) (fun tree htree => ?_) (fun e _ => .failed e ha)
    refine wp_saveTree ha ⟨base, entries, old, hbase, hgot entries rfl, hold, htree⟩
      (fun t w₂ hp hw₂ => ?_) fun e => .failed e ha
    -- HEAD is read once more for the parents
    have hhead : ReadM.eval w₂.fs head = ReadM.eval w.fs head := by
      refine eval_head_congr ((hw₂ headFile (by decide)).trans (hother headFile (by decide)))
    have hI : Extending (gatherPlan G baseName w.fs) w w₂ := .prepared hp rfl rfl
    refine wp_read (x := head) hI (fun l hl => ?_) (fun e he => ?_)
    · rw [hhead] at hl
      exact wp_commitPrepared hp ⟨l, hl, rfl⟩
    · exact ⟨by simp, .inr (.inl ⟨w₂, t, hp, rfl⟩)⟩

/-- **Adding a path.** -/
theorem Vault.wp_addPath (v : Vault) (source : Source) (baseName : String) :
    wp env (Extending (addPlan v source baseName w.fs) w) (v.addPath source baseName)
      (ExtendEnds (addPlan v source baseName w.fs) w) w :=
  v.wp_addPath_of fun _ _ => v.wp_addSource (.refl w)

omit [Crates] in
theorem confined_okOrNone {D : FilePath VaultDir → Prop} {α : Type} {x : Action α}
    (h : Confined D x) : Confined D (okOrNone x) := by
  refine h.handle fun r => ?_
  rcases r with (e | _) | a <;> exact .done

theorem confined_registerSnapshot (hash : ContentHash) (message : String) (auto : Bool) :
    Confined Registry (registerSnapshot hash message auto) := by
  refine Confined.bind (.ofRead _) fun log => Confined.bind (.ask _) fun now => ?_
  exact confined_writeRename (.inl rfl) (.inr (.inl rfl))

theorem confined_loadPolicy_files (config : VaultConfig) :
    Confined (fun p => p = policyTmp ∨ p = policyPath) (loadPolicy config) := by
  refine Confined.bind (.ofRead _) fun there => ?_
  split
  next =>
    refine Confined.bind (.ofRead _) fun s => Confined.bind .done fun p => ?_
    exact Confined.bind .done fun _ => .done
  next =>
    refine Confined.bind (Confined.bind .done fun _ => ?_) fun _ => .done
    exact confined_writeRename (.inl rfl) (.inr rfl)

theorem confined_loadPolicy (config : VaultConfig) : Confined Registry (loadPolicy config) :=
  (confined_loadPolicy_files config).mono fun _ hp => .inr (.inr hp)

theorem confined_applyRetention (policy : VaultPolicy) :
    Confined Registry (applyRetention policy) := by
  unfold applyRetention pruneSnapshotRegistry
  split
  next => exact .done
  next =>
    refine Confined.bind (.ofRead _) fun log => ?_
    dsimp only
    split
    next => exact .done
    next =>
      exact Confined.bind (confined_writeRename (.inl rfl) (.inr (.inl rfl))) fun _ => .done

/-- The commit of a snapshot. -/
theorem Vault.wp_snapshotCommit (v : Vault) (message : String) :
    wp env (Extending (snapshotPlan w.fs) w) (v.snapshotCommit message)
      (ExtendEnds (snapshotPlan w.fs) w) w := by
  have h₀ : Extending (snapshotPlan w.fs) w w := .storing (.refl w)
  unfold Vault.snapshotCommit
  refine wp_read h₀ (fun l hl => ?_) (fun e _ => .failed e (.refl w))
  cases l with
  | some h =>
    refine wp_read h₀ (fun k hk => ?_) (fun e _ => .failed e (.refl w))
    exact wp_commitPrepared (.reused ⟨h, k, hl, hk, rfl⟩ rfl) ⟨some h, hl, rfl⟩
  | none =>
    refine wp_saveTree (.refl w) ⟨hl, rfl⟩ (fun t w₂ hp _ => ?_) fun e => .failed e (.refl w)
    exact wp_commitPrepared hp ⟨none, hl, rfl⟩

/-- **A snapshot**; its bookkeeping does not decide its result. -/
theorem Vault.wp_snapshot (v : Vault) (message : String) :
    wp env (Extending (snapshotPlan w.fs) w) (v.snapshot message)
      (ExtendEnds (snapshotPlan w.fs) w) w := by
  unfold Vault.snapshot
  refine wp_seq (v.wp_snapshotCommit message) (fun c w₁ _ h₁ => ?_)
    (fun e w₁ _ h₁ => ⟨by simp, h₁.2⟩)
  have hlate : ∀ (e : Fault) (w' : VaultWorld), Extended (snapshotPlan w.fs) w c w' →
      ExtendEnds (snapshotPlan w.fs) w (.error e) w' := fun e w' he =>
    ⟨by simp, .inr (.inr ⟨c, he⟩)⟩
  refine wp_seq (wp_tidy (h₁.1 c rfl) (confined_okOrNone (confined_registerSnapshot c message false)))
    (fun _ w₂ _ h₂ => ?_) (fun e w₂ _ h₂ => hlate e w₂ h₂)
  refine wp_seq (wp_tidy h₂ (confined_okOrNone (confined_loadPolicy v.config)))
    (fun pol w₃ hI₃ h₃ => ?_) (fun e w₃ _ h₃ => hlate e w₃ h₃)
  cases pol with
  | none => exact ⟨hI₃, .made h₃⟩
  | some pol =>
    refine wp_seq (wp_tidy h₃ (confined_okOrNone (confined_applyRetention pol)))
      (fun _ w₄ hI₄ h₄ => ⟨hI₄, .made h₄⟩) (fun e w₄ _ h₄ => hlate e w₄ h₄)

/-- **Merging a head.** -/
theorem Vault.wp_mergeHead_extending (v : Vault) (remoteHead : ContentHash) (label : String) :
    wp env (Extending (mergePlan remoteHead label w.fs) w) (v.mergeHead remoteHead label)
      (fun r w' => ExtendEnds (mergePlan remoteHead label w.fs) w (r.map Prod.fst) w') w := by
  have h₀ : Extending (mergePlan remoteHead label w.fs) w w := .storing (.refl w)
  have hfail : ∀ e : Fault, ExtendEnds (mergePlan remoteHead label w.fs) w
      (Except.map Prod.fst (.error e : Res (ContentHash × Nat))) w := fun e => .failed e (.refl w)
  unfold Vault.mergeHead
  refine wp_read h₀ (fun _ _ => ?_) (fun e _ => hfail e)
  refine wp_read h₀ (fun k hk => ?_) (fun e _ => hfail e)
  refine wp_read h₀ (fun theirs htheirs => ?_) (fun e _ => hfail e)
  refine wp_read h₀ (fun l hl => ?_) (fun e _ => hfail e)
  refine wp_read h₀ (fun ours hours => ?_) (fun e _ => hfail e)
  refine wp_saveTree (.refl w) ⟨k, theirs, l, ours, hk, htheirs, hl, hours, rfl⟩
    (fun t w₂ hp _ => ?_) hfail
  refine wp_seq (wp_commitPrepared hp ⟨l, hl, rfl⟩) (fun c w₃ _ h₃ => ?_)
    (fun e w₃ _ h₃ => ⟨fun c hc => (by cases hc), h₃.2⟩)
  refine wp_seq (wp_tidy (h₃.1 c rfl) (.writeFile rfl)) (fun _ w₄ hI₄ h₄ => ⟨hI₄, .made h₄⟩)
    (fun e w₄ _ h₄ => ⟨fun c hc => (by cases hc), .inr (.inr ⟨c, h₄⟩)⟩)

end Operations

end Soal

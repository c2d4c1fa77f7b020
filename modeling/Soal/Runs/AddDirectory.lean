/-
  Soal.Runs.AddDirectory — adding a directory, and adding changed files below a watch root, with names
  as the operating system has them.

  Components of a name that are not UTF-8 are dropped on the way to a logical path.  Where all are
  UTF-8 the logical path determines the name, and every file gets an entry of its own; otherwise a file
  is added under a name that it does not have.
-/
import Soal.Runs.AddHistory
import Soal.Runs.HeadTips
import Soal.Vault.ProvideAll
import Soal.Watch

namespace Soal

open FileProg

/-! ## §1. Names of files. -/

/-- A name that a file can have. -/
structure OsName (name : Bytes) : Prop where
  ne : name ≠ []
  slash : 0x2f ∉ name
  nul : 0x00 ∉ name
  dot : name ≠ [0x2e]
  dots : name ≠ [0x2e, 0x2e]

/-- Regular files below a directory: distinct, each named by the components of its path. -/
structure DirFiles (files : List (List Bytes × Bytes)) : Prop where
  ne : ∀ f ∈ files, f.1 ≠ []
  names : ∀ f ∈ files, ∀ c ∈ f.1, OsName c
  distinct : (files.map Prod.fst).Nodup

/-- Every component is UTF-8. -/
def Utf8Names (components : List Bytes) : Prop := ∀ c ∈ components, (Text.fromUtf8 c).isSome

/-- There is a text that names the file. -/
def Representable (components : List Bytes) : Prop :=
  ∃ name : String, Text.toUtf8 name = [0x2f].intercalate components

section Names

variable {components components' : List Bytes} {names names' : List String} {base s : String}

theorem utf8Names_iff : Utf8Names components ↔ ∃ names : List String,
    components = names.map Text.toUtf8 := by
  constructor
  · intro h
    induction components with
    | nil => exact ⟨[], rfl⟩
    | cons c components ih =>
      obtain ⟨names, hnames⟩ := ih fun c' hc' => h c' (List.mem_cons_of_mem c hc')
      obtain ⟨name, hname⟩ := Option.isSome_iff_exists.1 (h c List.mem_cons_self)
      refine ⟨name :: names, ?_⟩
      rw [List.map_cons, Text.toUtf8_of_fromUtf8 hname, hnames]
  · intro h c hc
    obtain ⟨names, rfl⟩ := h
    obtain ⟨name, -, rfl⟩ := List.mem_map.1 hc
    rw [Text.fromUtf8_toUtf8]
    rfl

/-- A text names a file exactly when its components are texts. -/
theorem representable_iff (hne : components ≠ []) (hos : ∀ c ∈ components, OsName c) :
    Representable components ↔ Utf8Names components := by
  rw [utf8Names_iff]
  constructor
  · intro h
    obtain ⟨name, hname⟩ := h
    exact Text.joined_of_toUtf8 hne (fun c hc => (hos c hc).slash) hname
  · intro h
    obtain ⟨names, rfl⟩ := h
    exact ⟨String.intercalate "/" names, Text.toUtf8_joined names⟩

/-- No component of texts is dropped. -/
theorem relativeName_texts (names : List String) :
    relativeName (names.map Text.toUtf8) = String.intercalate "/" names := by
  have hid : Text.fromUtf8 ∘ Text.toUtf8 = some := funext Text.fromUtf8_toUtf8
  unfold relativeName
  rw [List.filterMap_map, hid, List.filterMap_some]

/-- A file name that is a text, as characters. -/
theorem OsName.text {name : String} (h : OsName (Text.toUtf8 name)) :
    '/' ∉ name.toList ∧ name.toList ≠ [] ∧ name.toList ≠ ['.'] := by
  refine ⟨fun hmem => h.slash (Text.slash_mem_toUtf8.2 hmem), fun hnil => h.ne ?_, fun hdot => h.dot ?_⟩
  · rw [Text.toUtf8_toList, hnil]
    rfl
  · rw [Text.toUtf8_toList, hdot]
    decide

/-- The segments of joined names are the names. -/
theorem splitOn_joined (hne : names ≠ []) (hos : ∀ n ∈ names, OsName (Text.toUtf8 n)) :
    (String.intercalate "/" names).toList.splitOn '/' = names.map String.toList := by
  rw [String.toList_intercalate]
  refine List.splitOn_intercalate _ (fun l hl => ?_) fun hnil => hne (List.map_eq_nil_iff.1 hnil)
  obtain ⟨name, hname, rfl⟩ := List.mem_map.1 hl
  exact (hos name hname).text.1

theorem segs_joined (hne : names ≠ []) (hos : ∀ n ∈ names, OsName (Text.toUtf8 n)) :
    ∀ seg ∈ (String.intercalate "/" names).toList.splitOn '/', seg ≠ [] ∧ seg ≠ ['.'] := by
  intro seg hseg
  rw [splitOn_joined hne hos] at hseg
  obtain ⟨name, hname, rfl⟩ := List.mem_map.1 hseg
  exact (hos name hname).text.2

/-- Names joined by separators determine the names. -/
theorem joined_inj (hne : names ≠ []) (hne' : names' ≠ [])
    (hos : ∀ n ∈ names, OsName (Text.toUtf8 n)) (hos' : ∀ n ∈ names', OsName (Text.toUtf8 n))
    (h : String.intercalate "/" names = String.intercalate "/" names') : names = names' := by
  have hsplit : names.map String.toList = names'.map String.toList := by
    rw [← splitOn_joined hne hos, h, splitOn_joined hne' hos']
  exact List.map_injective_iff.2 (fun _ _ hab => String.toList_injective hab) hsplit

/-- The logical path of a file whose name is a text: nothing is changed, the base name goes before. -/
theorem logicalName_texts (hbase : base = "" ∨ validatePath base = .ok ()) (hne : names ≠ [])
    (hos : ∀ n ∈ names, OsName (Text.toUtf8 n))
    (h : logicalName base (names.map Text.toUtf8) = .ok s) :
    s = if base.isEmpty then String.intercalate "/" names
      else base ++ "/" ++ String.intercalate "/" names := by
  unfold logicalName at h
  rw [relativeName_texts] at h
  obtain ⟨rel, hrel, h⟩ := bind_ok_iff.1 h
  obtain rfl := normalizeAndValidate_names (segs_joined hne hos) hrel
  refine normalizeAndValidate_names (fun seg hseg => ?_) h
  split at hseg
  next => exact segs_joined hne hos seg hseg
  next hempty =>
    -- the segments of the base name, then those of the names
    have hvalid : validatePath base = .ok () := by
      rcases hbase with rfl | hvalid
      · exact absurd rfl hempty
      · exact hvalid
    have hparts : (base ++ "/" ++ String.intercalate "/" names).toList =
        base.toList ++ '/' :: (String.intercalate "/" names).toList := by
      rw [String.toList_append, String.toList_append, List.append_assoc]
      rfl
    rw [hparts, List.splitOn_append_cons_self] at hseg
    rcases List.mem_append.1 hseg with hseg | hseg
    · obtain ⟨-, -, -, -, -, hsegs⟩ := validatePathChars_ok_iff.1 hvalid
      exact ⟨(hsegs seg hseg).1, (hsegs seg hseg).2.1⟩
    · exact segs_joined hne hos seg hseg

/-- **Distinct names, distinct paths**: under one base name, names that are texts are told apart by
their logical paths. -/
theorem logicalName_inj (hbase : base = "" ∨ validatePath base = .ok ())
    (hne : components ≠ []) (hne' : components' ≠ []) (hos : ∀ c ∈ components, OsName c)
    (hos' : ∀ c ∈ components', OsName c) (hutf : Utf8Names components)
    (hutf' : Utf8Names components') (h : logicalName base components = .ok s)
    (h' : logicalName base components' = .ok s) : components = components' := by
  obtain ⟨names, rfl⟩ := utf8Names_iff.1 hutf
  obtain ⟨names', rfl⟩ := utf8Names_iff.1 hutf'
  have hne : names ≠ [] := fun hnil => hne (by rw [hnil]; rfl)
  have hne' : names' ≠ [] := fun hnil => hne' (by rw [hnil]; rfl)
  have hos : ∀ n ∈ names, OsName (Text.toUtf8 n) := fun n hn => hos _ (List.mem_map_of_mem hn)
  have hos' : ∀ n ∈ names', OsName (Text.toUtf8 n) := fun n hn => hos' _ (List.mem_map_of_mem hn)
  have heq := (logicalName_texts hbase hne hos h).symm.trans (logicalName_texts hbase hne' hos' h')
  have hjoined : String.intercalate "/" names = String.intercalate "/" names' := by
    by_cases hempty : base.isEmpty
    · rwa [if_pos hempty, if_pos hempty] at heq
    · rw [if_neg hempty, if_neg hempty] at heq
      have hlist := congrArg String.toList heq
      simp only [String.toList_append] at hlist
      exact String.toList_inj.1 (List.append_cancel_left hlist)
  rw [joined_inj hne hne' hos hos' hjoined]

/-- An accepted base name is empty or a valid path. -/
theorem validBaseName_valid {baseName : String} (h : validBaseName baseName = .ok base) :
    base = "" ∨ validatePath base = .ok () := by
  unfold validBaseName at h
  split at h
  next => exact .inl (Except.ok.inj h).symm
  next => exact .inr (validatePath_of_normalize h)

/-- A logical path is left as it is from there on. -/
theorem logicalName_normal (h : logicalName base components = .ok s) :
    normalizeAndValidate s = .ok s := by
  obtain ⟨rel, -, h⟩ := bind_ok_iff.1 h
  exact normalizeAndValidate_valid (validatePath_of_normalize h)

end Names

/-! ## §2. Entries of a tree. -/

/-- **Entries under distinct paths**: each one is in the new tree, and other paths are as they were. -/
theorem Tree.get?_addEntries {tree tree' : Tree} {entries : List FileEntry}
    (hadd : tree.addEntries entries = .ok tree')
    (hnormal : ∀ e ∈ entries, normalizeAndValidate e.1 = .ok e.1)
    (hdistinct : (entries.map Prod.fst).Nodup) :
    (∀ e ∈ entries, tree'.entries.get? e.1 = some (.file e.2.1 e.2.2)) ∧
      ∀ path ∉ entries.map Prod.fst, tree'.entries.get? path = tree.entries.get? path := by
  induction entries generalizing tree with
  | nil =>
    obtain rfl := Except.ok.inj hadd
    exact ⟨fun e he => absurd he List.not_mem_nil, fun _ _ => rfl⟩
  | cons e entries ih =>
    obtain ⟨path, size, chunks⟩ := e
    obtain ⟨tree₁, h₁, h₂⟩ := bind_ok_iff.1 hadd
    obtain ⟨path', hpath', rfl⟩ := Tree.tryAddFile_ok_iff.1 h₁
    have hsame : path' = path := by
      have hpath : normalizeAndValidate path = .ok path := hnormal _ List.mem_cons_self
      exact Except.ok.inj (hpath'.symm.trans hpath)
    subst hsame
    rw [List.map_cons, List.nodup_cons] at hdistinct
    obtain ⟨hfirst, hrest⟩ := hdistinct
    obtain ⟨hget, hother⟩ := ih h₂ (fun e he => hnormal e (List.mem_cons_of_mem _ he)) hrest
    constructor
    · intro e he
      rcases List.mem_cons.1 he with rfl | he
      · rw [hother _ hfirst]
        exact (SortedMap.get?_insert ..).trans (if_pos rfl)
      · exact hget e he
    · intro p hp
      rw [List.map_cons, List.mem_cons, not_or] at hp
      rw [hother p hp.2]
      exact (SortedMap.get?_insert ..).trans (if_neg fun heq => hp.1 heq.symm)

/-- What tells the left-hand sides of related rows apart tells the right-hand sides apart. -/
theorem nodup_of_forall₂ {α β γ δ : Type} {R : α → β → Prop} {key : α → γ} {path : β → δ}
    {l : List α} {l' : List β} (h : List.Forall₂ R l l') (hkey : (l.map key).Nodup)
    (hinj : ∀ a ∈ l, ∀ a' ∈ l, ∀ b b', R a b → R a' b' → path b = path b' → key a = key a') :
    (l'.map path).Nodup := by
  induction h with
  | nil => exact List.nodup_nil
  | @cons a b l l' hab hrest ih =>
    rw [List.map_cons, List.nodup_cons] at hkey ⊢
    constructor
    · intro hmem
      obtain ⟨b', hb', hpath⟩ := List.mem_map.1 hmem
      obtain ⟨a', ha', hab'⟩ := exists_of_forall₂ hrest hb'
      have heq := hinj a List.mem_cons_self a' (List.mem_cons_of_mem a ha') b b' hab hab' hpath.symm
      exact hkey.1 (heq ▸ List.mem_map_of_mem ha')
    · exact ih hkey.2 fun x hx y hy => hinj x (List.mem_cons_of_mem a hx) y (List.mem_cons_of_mem a hy)

section Model

variable [Crates]

/-! ## §3. What is stored for a directory. -/

/-- The tree of HEAD's commit, as it was written. -/
def HeadTreeIs (fs : VaultFs) (c : ContentHash) (tree : Tree) : Prop :=
  ReadM.eval fs head = .ok (some c) ∧
    ∃ k, commitKind.Written fs c k ∧ treeKind.Written fs k.tree tree

/-- Every file has an entry of its own in HEAD's tree, with its size and its data. -/
def StoresEach (v : Vault) (fs : VaultFs) (c : ContentHash) (files : List (List Bytes × Bytes)) :
    Prop :=
  ∃ tree, HeadTreeIs fs c tree ∧ ∃ path : List Bytes → String,
    (∀ f ∈ files, ∀ g ∈ files, path f.1 = path g.1 → f.1 = g.1) ∧
    ∀ f ∈ files, ∃ chunks, tree.entries.get? (path f.1) = some (.file (.ofNat f.2.length) chunks) ∧
      v.LoadsTo fs chunks f.2

/-- Each file has the entry of its logical path, and its chunks are held. -/
def HoldsEach (v : Vault) (fs : VaultFs) (base : String) (tree : Tree)
    (files : List (List Bytes × Bytes)) : Prop :=
  ∀ f ∈ files, ∃ e : FileEntry, logicalName base f.1 = .ok e.1 ∧
    tree.entries.get? e.1 = some (.file e.2.1 e.2.2) ∧ v.HoldsFile fs f.2 e

/-- What gathering a directory yields: an entry for each file, in path order. -/
def DirEntries (v : Vault) (files : List (List Bytes × Bytes)) (base : String) (fs : VaultFs)
    (entries : List FileEntry) : Prop :=
  List.Forall₂ (fun f e => logicalName base f.1 = .ok e.1 ∧ v.HoldsFile fs f.2 e)
    (walkdirSimple files) entries

/-- The run of `ingest_path` over files below a watch root, newest first, and where it leads.  Every
call has a world of its own. -/
inductive FilesIngested (v : Vault) (watchRoot : OsPath) :
    List (List Bytes × Bytes) → ContentHash → VaultFs → Prop
  | first {components : List Bytes} {data : Bytes} {fs : VaultFs} {env : Outside} {c : ContentHash}
      {w' : VaultWorld} (hrun : run env (ingestPath v watchRoot
        (watchRoot ++ components.map .normal) (.file data)) (World.boot fs) = (.ok c, w')) :
      FilesIngested v watchRoot [(components, data)] c w'.fs
  | next {files : List (List Bytes × Bytes)} {c₀ : ContentHash} {fs : VaultFs}
      (hr : FilesIngested v watchRoot files c₀ fs) {components : List Bytes} {data : Bytes}
      {env : Outside} {c : ContentHash} {w' : VaultWorld} (hrun : run env (ingestPath v watchRoot
        (watchRoot ++ components.map .normal) (.file data)) (World.boot fs) = (.ok c, w')) :
      FilesIngested v watchRoot ((components, data) :: files) c w'.fs

section Stored

variable {v : Vault} {fs fs' : VaultFs} {base baseName : String} {tree old : Tree} {c : ContentHash}
  {files : List (List Bytes × Bytes)} {env : Outside} {w' : VaultWorld}

/-- **Entries of logical paths are entries of their own**, when the names are texts. -/
theorem HoldsEach.storesEach (hcdc : FastcdcTiles) (haead : AeadCorrect)
    (h : HoldsEach v fs base tree files) (hhead : HeadTreeIs fs c tree)
    (hbase : base = "" ∨ validatePath base = .ok ()) (hfiles : DirFiles files)
    (hutf : ∀ f ∈ files, Utf8Names f.1) : StoresEach v fs c files := by
  refine ⟨tree, hhead, fun components => (logicalName base components).toOption.getD "", ?_, ?_⟩
  · intro f hf g hg heq
    obtain ⟨e, hname, -⟩ := h f hf
    obtain ⟨e', hname', -⟩ := h g hg
    dsimp only at heq
    rw [hname, hname'] at heq
    have hpath : e.1 = e'.1 := heq
    exact logicalName_inj hbase (hfiles.ne f hf) (hfiles.ne g hg) (hfiles.names f hf)
      (hfiles.names g hg) (hutf f hf) (hutf g hg) hname (hpath ▸ hname')
  · intro f hf
    obtain ⟨⟨path, size, chunks⟩, hname, hget, hfile⟩ := h f hf
    have hsize : size = .ofNat f.2.length := hfile.size
    dsimp only
    rw [hname]
    exact ⟨chunks, by rw [← hsize]; exact hget, hfile.loadsTo hcdc haead⟩

/-- What is read back of HEAD's tree is the tree that was written. -/
theorem HeadTreeIs.headTree (h : HeadTreeIs fs c tree) (hold : ReadM.eval fs headTree = .ok old) :
    old = tree := by
  obtain ⟨hhead, k, ⟨bytes, hb, hhash, hl⟩, tbytes, htb, hthash, htl⟩ := h
  unfold Soal.headTree at hold
  rw [ReadM.eval_bind, hhead] at hold
  have hold : ReadM.eval fs (loadCommit c >>= fun k => loadTree k.tree) = .ok old := hold
  rw [hhash] at hl hold
  rw [ReadM.eval_bind, eval_loadCommit_saved hb hl] at hold
  have hold : ReadM.eval fs (loadTree k.tree) = .ok old := hold
  exact (loadTree_written htb htl hold).2

/-- The tree that a gathering led to is HEAD's, and its chunks are in place. -/
theorem Extended.gathered {G : String → VaultFs → List FileEntry → Prop}
    (he : Extended (gatherPlan G baseName fs) (World.boot fs) c w') :
    ∃ w₁ base entries old tree, ChunksAdded (World.boot fs) w₁ ∧ validBaseName baseName = .ok base ∧
      G base w₁.fs entries ∧ ReadM.eval fs Soal.headTree = .ok old ∧
      old.addEntries entries = .ok tree ∧ HeadTreeIs w'.fs c tree ∧
      ∀ ch, w'.fs.lookup (chunkPath ch) = w₁.fs.lookup (chunkPath ch) := by
  have htidy : (gatherPlan G baseName fs).Tidy := fun _ hp => hp.elim
  obtain ⟨k, -, hk, hhead, hsaved | hreused⟩ := he.written htidy
  · obtain ⟨w₁, tree, ha, ⟨base, entries, old, hbase, hgot, hold, hadd⟩, htree, hchunks⟩ := hsaved
    exact ⟨w₁, base, entries, old, tree, ha, hbase, hgot, hold, hadd, ⟨hhead, k, hk, htree⟩, hchunks⟩
  · exact hreused.1.elim

/-- **Adding a directory** of files with names that are texts: each has the entry of its path. -/
theorem addDirectory_holds (hfiles : DirFiles files) (hutf : ∀ f ∈ files, Utf8Names f.1)
    (hrun : run env (v.addPath (.dir files) baseName) (World.boot fs) = (.ok c, w')) :
    ∃ base tree, (base = "" ∨ validatePath base = .ok ()) ∧ HeadTreeIs w'.fs c tree ∧
      HoldsEach v w'.fs base tree files := by
  have hends : ExtendEnds (gatherPlan (DirEntries v files) baseName fs) (World.boot fs)
      (run env (v.addPath (.dir files) baseName) (World.boot fs)).1
      (run env (v.addPath (.dir files) baseName) (World.boot fs)).2 :=
    (v.wp_addPath_of fun base _ => v.wp_addFiles (.refl _)).post
  rw [hrun] at hends
  obtain ⟨w₁, base, entries, old, tree, -, hbase, hgot, -, hadd, hhead, hchunks⟩ :=
    (hends.1 c rfl).gathered
  have hvalid := validBaseName_valid hbase
  have hperm : (walkdirSimple files).Perm files := List.mergeSort_perm ..
  have hnormal : ∀ e ∈ entries, normalizeAndValidate e.1 = .ok e.1 := by
    intro e he
    obtain ⟨f, -, hname, -⟩ := exists_of_forall₂ hgot he
    exact logicalName_normal hname
  -- equal paths come from equal names
  have hdistinct : (entries.map Prod.fst).Nodup := by
    refine nodup_of_forall₂ hgot ((hperm.map Prod.fst).nodup_iff.2 hfiles.distinct) ?_
    intro f hf g hg e e' hfe hge hpath
    have hf : f ∈ files := hperm.mem_iff.1 hf
    have hg : g ∈ files := hperm.mem_iff.1 hg
    exact logicalName_inj hvalid (hfiles.ne f hf) (hfiles.ne g hg) (hfiles.names f hf)
      (hfiles.names g hg) (hutf f hf) (hutf g hg) hfe.1 (hpath ▸ hge.1)
  obtain ⟨hget, -⟩ := Tree.get?_addEntries hadd hnormal hdistinct
  refine ⟨base, tree, hvalid, hhead, fun f hf => ?_⟩
  obtain ⟨e, he, hname, hfile⟩ := exists_of_forall₂ hgot.flip (hperm.mem_iff.2 hf)
  exact ⟨e, hname, hget e he, hfile.kept fun ch _ => hchunks ch⟩

/-- **Adding one file below the watch root** puts its entry into HEAD's tree; other paths are as they
were. -/
theorem ingestPath_adds {watchRoot : OsPath} {components : List Bytes} {data : Bytes}
    (hrun : run env (ingestPath v watchRoot (watchRoot ++ components.map .normal) (.file data))
      (World.boot fs) = (.ok c, w')) :
    ∃ (e : FileEntry) (old tree : Tree), logicalName "" components = .ok e.1 ∧
      v.HoldsFile w'.fs data e ∧ ReadM.eval fs Soal.headTree = .ok old ∧ HeadTreeIs w'.fs c tree ∧
      (∀ path, tree.entries.get? path =
        if path = e.1 then some (.file e.2.1 e.2.2) else old.entries.get? path) ∧
      ∀ ch, chunkPath ch ∈ fs → w'.fs.lookup (chunkPath ch) = fs.lookup (chunkPath ch) := by
  unfold ingestPath addRelative at hrun
  rw [watchLogical_below] at hrun
  dsimp only at hrun
  split at hrun
  next => cases hrun
  next hempty =>
    have hends : ExtendEnds (gatherPlan ((Source.file data).Gathered v) (relativeName components) fs)
        (World.boot fs) (run env (v.addPath (.file data) (relativeName components)) (World.boot fs)).1
        (run env (v.addPath (.file data) (relativeName components)) (World.boot fs)).2 :=
      (v.wp_addPath_of fun base _ => v.wp_addSource (.refl _)).post
    rw [hrun] at hends
    obtain ⟨w₁, base, entries, old, tree, ha, hbase, hgot, hold, hadd, hhead, hchunks⟩ :=
      (hends.1 c rfl).gathered
    obtain ⟨e, rfl, rfl, hfile⟩ := hgot
    unfold validBaseName at hbase
    rw [if_neg hempty] at hbase
    -- the relative name is normalized twice, the second time to itself
    have hagain : normalizeAndValidate e.1 = .ok e.1 :=
      normalizeAndValidate_valid (validatePath_of_normalize hbase)
    have hname : logicalName "" components = .ok e.1 := by
      unfold logicalName
      rw [hbase]
      exact hagain
    have hnormal : ∀ e' ∈ [e], normalizeAndValidate e'.1 = .ok e'.1 := by
      intro e' he'
      rw [List.mem_singleton.1 he']
      exact hagain
    obtain ⟨hget, hother⟩ := Tree.get?_addEntries hadd hnormal (List.nodup_singleton _)
    refine ⟨e, old, tree, hname, hfile.kept fun ch _ => hchunks ch, hold, hhead, fun path => ?_,
      fun ch hch => (hchunks ch).trans (ha.kept ch hch)⟩
    by_cases hpath : path = e.1
    · rw [if_pos hpath, hpath]
      exact hget e List.mem_cons_self
    · rw [if_neg hpath]
      exact hother path fun hmem => hpath (List.mem_singleton.1 hmem)

/-- **A run over distinct files** with names that are texts: each has the entry of its path. -/
theorem FilesIngested.holds {watchRoot : OsPath} (h : FilesIngested v watchRoot files c fs)
    (hfiles : DirFiles files) (hutf : ∀ f ∈ files, Utf8Names f.1) :
    ∃ tree, HeadTreeIs fs c tree ∧ HoldsEach v fs "" tree files := by
  induction h with
  | first hrun =>
    obtain ⟨e, old, tree, hname, hfile, -, hhead, hget, -⟩ := ingestPath_adds hrun
    refine ⟨tree, hhead, fun f hf => ?_⟩
    rw [List.mem_singleton.1 hf]
    exact ⟨e, hname, by rw [hget, if_pos rfl], hfile⟩
  | @next files c₀ fs hr components data env c w' hrun ih =>
    have holder : DirFiles files :=
      ⟨fun f hf => hfiles.ne f (List.mem_cons_of_mem _ hf),
        fun f hf => hfiles.names f (List.mem_cons_of_mem _ hf),
        (List.nodup_cons.1 hfiles.distinct).2⟩
    obtain ⟨tree₀, hhead₀, hholds⟩ := ih holder fun f hf => hutf f (List.mem_cons_of_mem _ hf)
    obtain ⟨e, old, tree, hname, hfile, hold, hhead, hget, hkept⟩ := ingestPath_adds hrun
    obtain rfl := hhead₀.headTree hold
    refine ⟨tree, hhead, fun f hf => ?_⟩
    rcases List.mem_cons.1 hf with rfl | hf'
    · exact ⟨e, hname, by rw [hget, if_pos rfl], hfile⟩
    · -- an older file keeps its entry, its path being another one
      obtain ⟨e', hname', hget', hfile'⟩ := hholds f hf'
      refine ⟨e', hname', ?_, hfile'.kept hkept⟩
      rw [hget, if_neg, hget']
      intro heq
      have hsame := logicalName_inj (.inl rfl) (hfiles.ne f hf) (hfiles.ne _ List.mem_cons_self)
        (hfiles.names f hf) (hfiles.names _ List.mem_cons_self) (hutf f hf)
        (hutf _ List.mem_cons_self) hname' (heq ▸ hname)
      exact (List.nodup_cons.1 hfiles.distinct).1 (hsame ▸ List.mem_map_of_mem hf')

end Stored

/-! ## §4. Exactly the names that are texts. -/

section Exactly

variable {v : Vault} {fs : VaultFs} {c : ContentHash} {files : List (List Bytes × Bytes)}

omit [Crates] in
theorem representable_all_iff (hfiles : DirFiles files) :
    (∀ f ∈ files, Representable f.1) ↔ ∀ f ∈ files, Utf8Names f.1 :=
  forall₂_congr fun f hf => representable_iff (hfiles.ne f hf) (hfiles.names f hf)

/-- **Each file has an entry of its own**, and a name that is a text, if all components are UTF-8, and
only then. -/
theorem storesEach_iff (hcdc : FastcdcTiles) (haead : AeadCorrect) (hfiles : DirFiles files)
    (hholds : (∀ f ∈ files, Utf8Names f.1) → ∃ base tree, (base = "" ∨ validatePath base = .ok ()) ∧
      HeadTreeIs fs c tree ∧ HoldsEach v fs base tree files) :
    (StoresEach v fs c files ∧ ∀ f ∈ files, Representable f.1) ↔ ∀ f ∈ files, Utf8Names f.1 := by
  constructor
  · intro h
    exact (representable_all_iff hfiles).1 h.2
  · intro hutf
    obtain ⟨base, tree, hbase, hhead, heach⟩ := hholds hutf
    exact ⟨heach.storesEach hcdc haead hhead hbase hfiles hutf, (representable_all_iff hfiles).2 hutf⟩

/-- An ingested path that fails leaves HEAD alone. -/
theorem wp_ingestPath_stop {env : Outside} {w : VaultWorld} (v : Vault) (watchRoot file : OsPath)
    (source : Source) : wp env (fun _ => True) (ingestPath v watchRoot file source)
      (fun r w' => ∀ e, r = .error e → RootSame w w') w := by
  unfold ingestPath addRelative
  dsimp only
  split
  next => exact ⟨trivial, fun _ _ => .refl w⟩
  next => exact wp_addPath_stop v source _

/-- **No file is lost exactly when every name is UTF-8.**  A directory, or a run over distinct files
below a watch root, that was added: every file has an entry of its own in HEAD's tree with its data,
and a name that can be represented, if and only if every component of every name is UTF-8.  What fails
leaves HEAD where it was. -/
theorem addDirectory_iff (hcdc : FastcdcTiles) (haead : AeadCorrect) (v : Vault) :
    (∀ (env : Outside) (fs : VaultFs) (files : List (List Bytes × Bytes)) (baseName : String)
      (c : ContentHash) (w' : VaultWorld), DirFiles files →
      run env (v.addPath (.dir files) baseName) (World.boot fs) = (.ok c, w') →
      ((StoresEach v w'.fs c files ∧ ∀ f ∈ files, Representable f.1) ↔
        ∀ f ∈ files, Utf8Names f.1)) ∧
    (∀ (watchRoot : OsPath) (files : List (List Bytes × Bytes)) (c : ContentHash) (fs : VaultFs),
      DirFiles files → FilesIngested v watchRoot files c fs →
      ((StoresEach v fs c files ∧ ∀ f ∈ files, Representable f.1) ↔
        ∀ f ∈ files, Utf8Names f.1)) ∧
    (∀ (env : Outside) (fs : VaultFs) (files : List (List Bytes × Bytes)) (baseName : String)
      (e : Fault) (w' : VaultWorld),
      run env (v.addPath (.dir files) baseName) (World.boot fs) = (.error e, w') →
      ReadM.eval w'.fs head = ReadM.eval fs head) ∧
    ∀ (env : Outside) (fs : VaultFs) (watchRoot file : OsPath) (source : Source) (e : Fault)
      (w' : VaultWorld),
      run env (ingestPath v watchRoot file source) (World.boot fs) = (.error e, w') →
      ReadM.eval w'.fs head = ReadM.eval fs head := by
  refine ⟨?_, ?_, ?_, ?_⟩
  · intro env fs files baseName c w' hfiles hrun
    exact storesEach_iff hcdc haead hfiles fun hutf => addDirectory_holds hfiles hutf hrun
  · intro watchRoot files c fs hfiles hrun
    refine storesEach_iff hcdc haead hfiles fun hutf => ?_
    obtain ⟨tree, hhead, heach⟩ := hrun.holds hfiles hutf
    exact ⟨"", tree, .inl rfl, hhead, heach⟩
  · intro env fs files baseName e w' hrun
    have hstop : wp env (fun _ => True) (v.addPath (.dir files) baseName)
        (fun r w' => ∀ e, r = .error e → RootSame (World.boot fs) w') (World.boot fs) :=
      wp_addPath_stop v (.dir files) baseName
    have hstop := hstop.post
    rw [hrun] at hstop
    exact eval_head_congr (hstop e rfl headFile rfl)
  · intro env fs watchRoot file source e w' hrun
    have hstop : wp env (fun _ => True) (ingestPath v watchRoot file source)
        (fun r w' => ∀ e, r = .error e → RootSame (World.boot fs) w') (World.boot fs) :=
      wp_ingestPath_stop v watchRoot file source
    have hstop := hstop.post
    rw [hrun] at hstop
    exact eval_head_congr (hstop e rfl headFile rfl)

end Exactly

end Model

/-! ## §5. Two files, one path. -/

/-- The commit that adding the directory makes. -/
def commitAddDir : Commit :=
  { sampleCommit [] 1700000005 "Add dir " with tree := treeNote, author := "soal-local" }

def wireAddDir : Bytes := plainWire localAuthorHash commitAddDir

/-- Digest of `commitAddDir`. -/
def hashAddDir : ContentHash where
  bytes := [
    0x9d, 0x42, 0x29, 0x30, 0xd6, 0x14, 0x22, 0xca, 0xf2, 0x99, 0x0c, 0x32, 0xd5, 0xe4, 0xce,
    0x0d, 0xa8, 0x4d, 0xd3, 0x60, 0x08, 0x1b, 0x87, 0x04, 0xb1, 0x3f, 0x6e, 0xd2, 0x29, 0xb4,
    0xab, 0x3f]
  length_eq := rfl

/-- Wire form of the tree of two notes, one of them in a subdirectory. -/
def wireNotes : Bytes :=
  domainTree ++ (writeMapHeader 1 ++ (writeU64 1 ++ (writeMapHeader 2 ++
    (encodeTreeEntry ("d/m.txt", .file 5 [chunkWorld]) ++
      encodeTreeEntry ("n.txt", .file 5 [chunkHello])))))

/-- Its digest. -/
def treeNotes : ContentHash where
  bytes := [
    0x47, 0xef, 0xe5, 0x91, 0xd3, 0x40, 0x3b, 0x66, 0x21, 0x79, 0x9c, 0xa3, 0xac, 0xaa, 0x48,
    0xac, 0xac, 0xf3, 0x30, 0x59, 0xb3, 0xa0, 0xaf, 0x15, 0x8c, 0x6e, 0xc9, 0xd5, 0x2a, 0x57,
    0x25, 0x9e]
  length_eq := rfl

def commitAddNotes : Commit := { commitAddDir with tree := treeNotes }

/-- Digest of `commitAddNotes`. -/
def hashAddNotes : ContentHash where
  bytes := [
    0x79, 0xcd, 0x05, 0x3c, 0x0d, 0xc0, 0xc8, 0xec, 0x26, 0x52, 0x90, 0x37, 0xc1, 0xa8, 0x6c,
    0x5b, 0x74, 0xb6, 0xb3, 0xa9, 0x44, 0x1b, 0xda, 0x6c, 0x87, 0x73, 0x70, 0x31, 0xac, 0x0d,
    0x89, 0x65]
  length_eq := rfl

/-- BLAKE3 on the directories. -/
def dirDigest : Bytes → ContentHash :=
  tableDigest [(noteData, chunkHello), (worldData, chunkWorld), (Text.toUtf8 "x", hashX),
    (wireNote, treeNote), (wireAddDir, hashAddDir), (wireNotes, treeNotes),
    (plainWire localAuthorHash commitAddNotes, hashAddNotes),
    (Text.toUtf8 "soal-author:soal-local", localAuthorHash)]

@[reducible] noncomputable def dirSample : Crates := standIn dirDigest

/-- A directory with a note, and another one in a subdirectory. -/
def notesDir : List (List Bytes × Bytes) :=
  [([Text.toUtf8 "d", Text.toUtf8 "m.txt"], worldData), ([Text.toUtf8 "n.txt"], noteData)]

/-- A file, and the note in a subdirectory whose name is not UTF-8. -/
def clashDir : List (List Bytes × Bytes) :=
  [([Text.toUtf8 "n.txt"], Text.toUtf8 "x"), ([[0xff], Text.toUtf8 "n.txt"], noteData)]

theorem walkdirSimple_clashDir : walkdirSimple clashDir = clashDir :=
  List.mergeSort_of_pairwise (by decide)

theorem walkdirSimple_notesDir : walkdirSimple notesDir = notesDir :=
  List.mergeSort_of_pairwise (by decide)

theorem osNames_sample : OsName [0xff] ∧ OsName (Text.toUtf8 "n.txt") :=
  ⟨⟨by decide, by decide, by decide, by decide, by decide⟩,
    ⟨by decide, by decide, by decide, by decide, by decide⟩⟩

theorem notesDir_files : DirFiles notesDir where
  ne := by decide
  names f hf c hc := by
    have hname : c ∈ [Text.toUtf8 "d", Text.toUtf8 "m.txt", Text.toUtf8 "n.txt"] := by
      rcases List.mem_cons.1 hf with rfl | hf
      · exact List.mem_append_left [Text.toUtf8 "n.txt"] hc
      · rw [List.mem_singleton.1 hf] at hc
        exact List.mem_append_right [Text.toUtf8 "d", Text.toUtf8 "m.txt"] hc
    have hnames : ∀ c ∈ [Text.toUtf8 "d", Text.toUtf8 "m.txt", Text.toUtf8 "n.txt"], OsName c :=
      fun c hc => ⟨by revert c; decide, by revert c; decide, by revert c; decide,
        by revert c; decide, by revert c; decide⟩
    exact hnames c hname
  distinct := by decide

theorem clashDir_files : DirFiles clashDir where
  ne := by decide
  names f hf c hc := by
    have hname : c = [0xff] ∨ c = Text.toUtf8 "n.txt" := by
      rcases List.mem_cons.1 hf with rfl | hf
      · exact .inr (List.mem_singleton.1 hc)
      · rw [List.mem_singleton.1 hf] at hc
        rcases List.mem_cons.1 hc with rfl | hc
        · exact .inl rfl
        · exact .inr (List.mem_singleton.1 hc)
    rcases hname with rfl | rfl
    · exact osNames_sample.1
    · exact osNames_sample.2
  distinct := by decide

section Sample

attribute [local instance] dirSample

theorem run_notesDir : (run (quiet 1700000005) (plainVault.addPath (.dir notesDir) "")
    (World.boot freshDisk)).1 = .ok hashAddNotes := by
  simp only [Vault.addPath, Vault.addSource, walkdirSimple_notesDir]
  decide +kernel

theorem run_clashDir : (run (quiet 1700000005) (plainVault.addPath (.dir clashDir) "")
    (World.boot freshDisk)).1 = .ok hashAddDir := by
  simp only [Vault.addPath, Vault.addSource, walkdirSimple_clashDir]
  decide +kernel

/-- After the directory with the two files was added. -/
noncomputable def clashedFs : VaultFs :=
  (run (quiet 1700000005) (plainVault.addPath (.dir clashDir) "") (World.boot freshDisk)).2.fs

/-- Both files are stored as `n.txt`: what HEAD shows has one file, the note. -/
theorem clashed_headTree : ReadM.eval clashedFs headTree = .ok noteTree := by
  unfold clashedFs
  simp only [Vault.addPath, Vault.addSource, walkdirSimple_clashDir]
  decide +kernel

theorem dirSample_laws : AeadCorrect :=
  ⟨@AeadCorrect.opens sample sample_aeadCorrect, @AeadCorrect.tag sample sample_aeadCorrect⟩

theorem dirSample_tiles : FastcdcTiles := @note_tiles

/-- Both notes are stored. -/
theorem notesDir_stored :
    StoresEach plainVault (run (quiet 1700000005) (plainVault.addPath (.dir notesDir) "")
        (World.boot freshDisk)).2.fs hashAddNotes notesDir ∧ ∀ f ∈ notesDir, Representable f.1 := by
  have hutf : ∀ f ∈ notesDir, ∀ c ∈ f.1, (Text.fromUtf8 c).isSome := by decide
  refine ((addDirectory_iff dirSample_tiles dirSample_laws plainVault).1 (quiet 1700000005) freshDisk
    notesDir "" hashAddNotes _ notesDir_files ?_).2 hutf
  rw [← run_notesDir]

/-- Of the two files one is lost, and adding them succeeds. -/
theorem clashDir_not_stored : DirFiles clashDir ∧
    (run (quiet 1700000005) (plainVault.addPath (.dir clashDir) "") (World.boot freshDisk)).1 =
      .ok hashAddDir ∧ ¬StoresEach plainVault clashedFs hashAddDir clashDir := by
  refine ⟨clashDir_files, run_clashDir, ?_⟩
  rintro ⟨tree, hhead, path, hinj, hstored⟩
  obtain rfl := hhead.headTree clashed_headTree
  -- the tree has one path
  have hpath : ∀ f ∈ clashDir, path f.1 = "n.txt" := by
    intro f hf
    obtain ⟨chunks, hget, -⟩ := hstored f hf
    rw [noteTree, SortedMap.get?_insert] at hget
    by_cases heq : "n.txt" = path f.1
    · exact heq.symm
    · rw [if_neg heq] at hget
      cases hget
  have hfirst : ([Text.toUtf8 "n.txt"], Text.toUtf8 "x") ∈ clashDir := List.mem_cons_self
  have hsecond : ([[0xff], Text.toUtf8 "n.txt"], noteData) ∈ clashDir :=
    List.mem_cons_of_mem _ List.mem_cons_self
  have hsame := hinj _ hfirst _ hsecond ((hpath _ hfirst).trans (hpath _ hsecond).symm)
  exact absurd (congrArg List.length hsame) (by decide)

end Sample

end Soal

/-
  Soal.Runs.Restored — what a restore leaves in its target.

  The target shows a layout, empty or not.  A restore puts the files of the tree over it, one by one;
  it succeeds exactly when each of them has room and none of them lies above another, and then the
  target shows the old layout with the files put over it, and nothing outside it has changed.
-/
import Soal.Lib.Layout
import Soal.Logical
import Soal.Restore

namespace Soal

open Posix FileProg

section Model

variable [Crates]

/-! ## §1. What is compared. -/

/-- A tree restores to a content: its paths are valid, its entries are files, and their chunks restore
to the data, of the size that the entry says. -/
def Tree.RestoresTo (tree : Tree) (v : Vault) (fs : VaultFs) (content : String → Option Bytes) :
    Prop :=
  ∀ path, match content path with
    | none => tree.entries.get? path = none
    | some data => validatePath path = .ok () ∧ ∃ chunks,
        tree.entries.get? path = some (.file (.ofNat data.length) chunks) ∧
        ReadM.eval fs (v.restoreChunks chunks) = .ok data

/-- No path of a content lies below another. -/
def NoneBelow (content : String → Option Bytes) : Prop :=
  ∀ p q, content p ≠ none → content q ≠ none → logicalNames p <+: logicalNames q → p = q

/-- The files of a content, over the files that were there. -/
def Overlaid (old new : Layout) (content : String → Option Bytes) : Prop :=
  ∀ ns b, new ns = some b ↔ (∃ path, logicalNames path = ns ∧ content path = some b) ∨
    ((∀ path, logicalNames path = ns → content path = none) ∧ old ns = some b)

/-! ## §2. One file. -/

section OneFile

omit [Crates]

variable {d : Disk} {cwd base : Place} {target name : String} {files : Layout}

theorem Way.lookup_eq {t : FileTree} {q : Path} {s₁ s₂ : List Seg} {ns : List String}
    {last : String} (hw : Way t cwd base q s₁ s₂ ns last) (t' : FileTree) :
    Posix.lookup t' cwd q = walk t' maxLinks (start cwd q) (s₁ ++ (ns.map .name ++ [.name last])) := by
  rw [hw.lookup, hw.path]

theorem createParent_joined {q : String} {s₁ s₂ : List Seg} {ns : List String} {last : String}
    {t : FileTree} (hw : Way t cwd base (.ofString q) s₁ s₂ ns last) (d : Disk) :
    (diskTarget cwd target).createParent d q =
      settled (createAbove cwd (Path.ofString q).absolute (s₂ ++ ns.map Seg.name).reverse d) := by
  unfold diskTarget
  dsimp only
  rw [hw.parent]
  dsimp only
  rw [createDirAll_eq hw.comps hw.nonempty]

theorem settled_ok {r : Except Errno Unit × Disk} : settled r = (.ok (), d) ↔ r = (.ok (), d) := by
  obtain ⟨res, d'⟩ := r
  cases res with
  | ok _ => simp [settled, ioRes, Except.mapError]
  | error e => exact iff_of_false nofun nofun

/-- **One file of a restore** is put where there is room for it, and only there. -/
theorem putFile_shown (hvalid : validatePath name = .ok ())
    (hbase : stat d.tree cwd (.ofString target) = .ok base) (hshown : Shown d.tree base files)
    (data : Bytes) :
    (files.Room (logicalNames name) → ∃ d₁ d₂,
      (diskTarget cwd target).createParent d (Path.joinText target name) = (.ok (), d₁) ∧
      (diskTarget cwd target).write d₁ (Path.joinText target name) data = (.ok (), d₂) ∧
      Laid d d₂ base (files.insert (logicalNames name) data)) ∧
    (¬files.Room (logicalNames name) → ∀ d₁,
      (diskTarget cwd target).createParent d (Path.joinText target name) = (.ok (), d₁) →
      ∃ e d₂, (diskTarget cwd target).write d₁ (Path.joinText target name) data = (.error e, d₂)) := by
  obtain ⟨ns, last, hnames⟩ : ∃ ns last, logicalNames name = ns ++ [last] :=
    ⟨_, _, (List.dropLast_append_getLast (logicalNames_ne_nil name)).symm⟩
  have hw := way_joined hvalid hbase hnames
  obtain ⟨k, h₁, h₂⟩ := hw.base
  rw [createParent_joined hw, hnames]
  constructor
  · intro hroom
    obtain ⟨d₁, d₂, hmade, hwrite, hlaid⟩ :=
      hshown.put_ok hw.lookup_eq h₁ h₂ hw.plain hroom (b := data)
    refine ⟨d₁, d₂, settled_ok.2 hmade, ?_, hlaid⟩
    unfold diskTarget
    dsimp only
    rw [hwrite]
  · intro hroom d₁ hmade
    obtain ⟨e, hwrite⟩ :=
      hshown.put_fails hw.lookup_eq h₁ h₂ hw.plain hroom (settled_ok.1 hmade) (b := data)
    refine ⟨.err (ioError e), d₁, ?_⟩
    unfold diskTarget
    dsimp only
    rw [hwrite]

/-- A target that was made is a directory. -/
theorem createTarget_dir {d₀ : Disk} (hcreate : (diskTarget cwd target).createTarget d = (.ok (), d₀))
    (hbase : stat d₀.tree cwd (.ofString target) = .ok base) : d₀.tree.node base = some .dir := by
  obtain ⟨-, hempty, -⟩ := stat_ok_iff.1 hbase
  have hisDir := createDirAll_isDir (settled_ok.1 hcreate) hempty
  unfold isDir at hisDir
  rw [hbase] at hisDir
  exact of_decide_eq_true hisDir

/-- A target that is there is left as it is. -/
theorem createTarget_there (hbase : stat d.tree cwd (.ofString target) = .ok base)
    (hdir : d.tree.node base = some .dir) :
    (diskTarget cwd target).createTarget d = (.ok (), d) := by
  obtain ⟨hnul, hempty, k, hwalk⟩ := stat_ok_iff.1 hbase
  refine settled_ok.2 (createDirAll_there (k := k) ?_ hdir)
  unfold Posix.lookup
  rw [if_neg (by rw [hnul]; simp), if_neg (by rw [hempty]; simp), hwalk]

end OneFile

/-! ## §3. The entries. -/

section Entries

variable {v : Vault} {fs : VaultFs} {d : Disk} {cwd base : Place} {target : String} {files : Layout}
  {entries : List (String × TreeEntry)} {dataOf : String → Bytes}

/-- The entry is a file with this data, under a valid path. -/
def Vault.Restores (v : Vault) (fs : VaultFs) (data : Bytes) (entry : String × TreeEntry) : Prop :=
  validatePath entry.1 = .ok () ∧ ∃ chunks, entry.2 = .file (.ofNat data.length) chunks ∧
    ReadM.eval fs (v.restoreChunks chunks) = .ok data

/-- The files of the entries. -/
def filesOf (dataOf : String → Bytes) (entries : List (String × TreeEntry)) :
    List (List String × List UInt8) :=
  entries.map (fun e => (logicalNames e.1, dataOf e.1))

/-- **The entries are put one after the other**, as long as they fit. -/
theorem restoreEntries_shown (hup : Seg.up ∉ (Path.ofString target).segs)
    (hbase : stat d.tree cwd (.ofString target) = .ok base) (hshown : Shown d.tree base files)
    (hall : ∀ e ∈ entries, v.Restores fs (dataOf e.1) e) : ∃ r d',
      ReadM.eval fs (v.restoreEntries (diskTarget cwd target) entries d) = .ok (r, d') ∧
      (r = .ok () ↔ files.Fits (filesOf dataOf entries)) ∧
      (r = .ok () → Laid d d' base (files.insertAll (filesOf dataOf entries))) := by
  have hfail : ∀ e : Fault, (.error e : Res Unit) ≠ .ok () := by
    intro e he
    cases he
  -- entry by entry: the files shown so far are what the next one must have room among
  induction entries generalizing d files with
  | nil => exact ⟨.ok (), d, rfl, iff_of_true rfl trivial, fun _ => .refl hshown⟩
  | cons e entries ih =>
    obtain ⟨name, entry⟩ := e
    obtain ⟨hvalid, chunks, hentry, hdata⟩ := hall _ List.mem_cons_self
    obtain rfl : entry = .file (.ofNat (dataOf name).length) chunks := hentry
    -- what is shown has no links, so a valid path is accepted
    have hno : ∀ base', stat d.tree cwd (.ofString target) = .ok base' → NoLinksBelow d.tree base' := by
      intro base' hbase' q hq _ l
      obtain rfl := Except.ok.inj (hbase.symm.trans hbase')
      exact hshown.no_links hq l
    have hjoin : (diskTarget cwd target).safeJoin d name = .ok (Path.joinText target name) :=
      (safeJoin_iff hvalid hno).2 hup
    have hput := putFile_shown hvalid hbase hshown (dataOf name)
    unfold Vault.restoreEntries
    dsimp only
    rw [hjoin]
    dsimp only
    rw [ReadM.eval_handle, hdata]
    dsimp only
    rw [if_neg (not_not.2 rfl)]
    by_cases hroom : files.Room (logicalNames name)
    · obtain ⟨d₁, d₂, hmade, hwrite, hlaid⟩ := hput.1 hroom
      rw [hmade]
      dsimp only
      rw [hwrite]
      dsimp only
      obtain ⟨r, d', hrun, hok, hdone⟩ := ih (stat_grows hlaid.grows hbase) hlaid.shown
        fun e he => hall e (List.mem_cons_of_mem _ he)
      refine ⟨r, d', hrun, hok.trans (and_iff_right hroom).symm, fun hr => hlaid.trans (hdone hr)⟩
    · -- without room, making the parent fails or writing the file does
      have hnever : ¬files.Fits (filesOf dataOf ((name, .file (.ofNat (dataOf name).length) chunks) ::
        entries)) := fun hfits => hroom hfits.1
      cases hmade : (diskTarget cwd target).createParent d (Path.joinText target name) with
      | mk res d₁ =>
        cases res with
        | error e => exact ⟨.error e, d₁, rfl, iff_of_false (hfail e) hnever, fun hr => absurd hr (hfail e)⟩
        | ok _ =>
          obtain ⟨e, d₂, hwrite⟩ := hput.2 hroom d₁ hmade
          dsimp only
          rw [hwrite]
          exact ⟨.error e, d₂, rfl, iff_of_false (hfail e) hnever, fun hr => absurd hr (hfail e)⟩

end Entries

/-! ## §4. A whole restore. -/

section Whole

variable {v : Vault} {fs : VaultFs} {d d₀ d' : Disk} {cwd base : Place} {target : String}
  {old files : Layout} {tree : Tree} {content : String → Option Bytes}

/-- The data of the entries. -/
def dataOf (content : String → Option Bytes) (path : String) : Bytes := (content path).getD []

theorem Tree.RestoresTo.mem_iff (h : tree.RestoresTo v fs content) {path : String} :
    (∃ entry, (path, entry) ∈ tree.entries.entries) ↔ content path ≠ none := by
  have hpath := h path
  constructor
  · rintro ⟨entry, hmem⟩ hnone
    rw [hnone] at hpath
    cases (SortedMap.mem_entries.1 hmem).symm.trans hpath
  · intro hsome
    cases hcontent : content path with
    | none => exact absurd hcontent hsome
    | some data =>
      rw [hcontent] at hpath
      obtain ⟨-, chunks, hget, -⟩ := hpath
      exact ⟨_, SortedMap.mem_entries.2 hget⟩

theorem Tree.RestoresTo.entry (h : tree.RestoresTo v fs content) {e : String × TreeEntry}
    (he : e ∈ tree.entries.entries) : v.Restores fs (dataOf content e.1) e := by
  have hpath := h e.1
  have hget : tree.entries.get? e.1 = some e.2 := SortedMap.mem_entries.1 he
  cases hcontent : content e.1 with
  | none =>
    rw [hcontent] at hpath
    cases hget.symm.trans hpath
  | some data =>
    rw [hcontent] at hpath
    obtain ⟨hvalid, chunks, hfile, hdata⟩ := hpath
    rw [dataOf, hcontent]
    exact ⟨hvalid, chunks, Option.some.inj (hget.symm.trans hfile), hdata⟩

/-- **The files of a content fit** exactly when each has room, and none lies below another. -/
theorem Tree.RestoresTo.fits (h : tree.RestoresTo v fs content) :
    old.Fits (filesOf (dataOf content) tree.entries.entries) ↔
      (∀ path, content path ≠ none → old.Room (logicalNames path)) ∧ NoneBelow content := by
  rw [Layout.fits_iff]
  have hmem : ∀ {path}, content path ≠ none →
      (logicalNames path, dataOf content path) ∈ filesOf (dataOf content) tree.entries.entries := by
    intro path hsome
    obtain ⟨entry, he⟩ := h.mem_iff.2 hsome
    exact List.mem_map.2 ⟨_, he, rfl⟩
  constructor
  · rintro ⟨hroom, hpair⟩
    refine ⟨fun path hsome => hroom _ (hmem hsome), fun p q hp hq hpre => ?_⟩
    exact logicalNames_injective ((hpair _ (hmem hp) _ (hmem hq)).1 hpre)
  · rintro ⟨hroom, hnone⟩
    constructor
    · intro f hf
      obtain ⟨e, he, rfl⟩ := List.mem_map.1 hf
      exact hroom _ (h.mem_iff.1 ⟨_, he⟩)
    · intro f hf f' hf'
      obtain ⟨e, he, rfl⟩ := List.mem_map.1 hf
      obtain ⟨e', he', rfl⟩ := List.mem_map.1 hf'
      have hp := h.mem_iff.1 ⟨_, he⟩
      have hq := h.mem_iff.1 ⟨_, he'⟩
      exact ⟨fun hpre => congrArg logicalNames (hnone _ _ hp hq hpre),
        fun hpre => congrArg logicalNames (hnone _ _ hq hp hpre).symm⟩

/-- What is there after the files of a content were put. -/
theorem Tree.RestoresTo.overlaid (h : tree.RestoresTo v fs content) :
    Overlaid old (old.insertAll (filesOf (dataOf content) tree.entries.entries)) content := by
  intro ns b
  have hnodup : ((filesOf (dataOf content) tree.entries.entries).map Prod.fst).Nodup := by
    have hnames : (filesOf (dataOf content) tree.entries.entries).map Prod.fst =
        (tree.entries.entries.map Prod.fst).map logicalNames := by
      unfold filesOf
      rw [List.map_map, List.map_map]
      rfl
    rw [hnames, List.nodup_map_iff logicalNames_injective, List.Nodup, List.pairwise_map]
    exact tree.entries.sorted.imp fun hlt => ne_of_lt hlt
  rw [Layout.insertAll_eq_some hnodup]
  have hhere : (ns, b) ∈ filesOf (dataOf content) tree.entries.entries ↔
      ∃ path, logicalNames path = ns ∧ content path = some b := by
    constructor
    · intro hf
      obtain ⟨e, he, heq⟩ := List.mem_map.1 hf
      obtain ⟨rfl, rfl⟩ := Prod.mk.inj heq
      refine ⟨e.1, rfl, ?_⟩
      obtain ⟨data, hdata⟩ := Option.ne_none_iff_exists'.1 (h.mem_iff.1 ⟨_, he⟩)
      rw [dataOf, hdata]
      rfl
    · rintro ⟨path, rfl, hdata⟩
      obtain ⟨entry, he⟩ := h.mem_iff.2 (by rw [hdata]; nofun : content path ≠ none)
      refine List.mem_map.2 ⟨_, he, ?_⟩
      rw [dataOf, hdata]
      rfl
  have hthere : ns ∉ (filesOf (dataOf content) tree.entries.entries).map Prod.fst ↔
      ∀ path, logicalNames path = ns → content path = none := by
    constructor
    · rintro hnot path rfl
      by_contra hsome
      obtain ⟨entry, he⟩ := h.mem_iff.2 hsome
      exact hnot (List.mem_map.2 ⟨_, List.mem_map.2 ⟨_, he, rfl⟩, rfl⟩)
    · intro hnone hmem
      obtain ⟨f, hf, rfl⟩ := List.mem_map.1 hmem
      obtain ⟨e, he, rfl⟩ := List.mem_map.1 hf
      exact h.mem_iff.1 ⟨_, he⟩ (hnone e.1 rfl)
  rw [hhere, hthere]

/-- When a content restores: no `..` is in the target, unless there is nothing to put there; each file
has room, and none lies below another. -/
def CanRestore (target : String) (old : Layout) (content : String → Option Bytes) : Prop :=
  (Seg.up ∈ (Path.ofString target).segs → ∀ path, content path = none) ∧
    (∀ path, content path ≠ none → old.Room (logicalNames path)) ∧ NoneBelow content

omit [Crates] in
/-- A file that is shown is read under its joined path. -/
theorem readAt_shown {t : FileTree} {path : String} {data : Bytes}
    (hvalid : validatePath path = .ok ()) (hbase : stat t cwd (.ofString target) = .ok base)
    (hshown : Shown t base files) (hfile : files (logicalNames path) = some data) :
    readAt t cwd (.ofString (Path.joinText target path)) = .ok data := by
  obtain ⟨ns, last, hnames⟩ : ∃ ns last, logicalNames path = ns ++ [last] :=
    ⟨_, _, (List.dropLast_append_getLast (logicalNames_ne_nil path)).symm⟩
  have hw := way_joined hvalid hbase hnames
  obtain ⟨k, h₁, -⟩ := hw.base
  rw [hnames] at hfile
  have hstat : stat t cwd (.ofString (Path.joinText target path)) =
      .ok ((ns ++ [last]).reverse ++ base) := by
    unfold stat
    rw [hw.lookup_eq, walk_append_found h₁, hshown.walk_file hfile]
  unfold readAt
  rw [hstat]
  dsimp only
  rw [hshown.file _ data hfile]

/-- **What a restore leaves**: it succeeds exactly when the content can be restored, and then its
files are over the files that were in the target, and are read there. -/
theorem restore_shown {c : ContentHash} {k : Commit} (hk : ReadM.eval fs (loadCommit c) = .ok k)
    (htree : ReadM.eval fs (loadTree k.tree) = .ok tree) (hto : tree.RestoresTo v fs content)
    (hcreate : (diskTarget cwd target).createTarget d = (.ok (), d₀))
    (hbase : stat d₀.tree cwd (.ofString target) = .ok base) (hold : Shown d₀.tree base old) :
    ∃ r d', ReadM.eval fs (v.restore (diskTarget cwd target) c d) = .ok (r, d') ∧
      (r = .ok () ↔ CanRestore target old content) ∧
      (r = .ok () → ∃ new, Overlaid old new content ∧ Laid d₀ d' base new ∧
        ∀ path data, content path = some data →
          readAt d'.tree cwd (.ofString (Path.joinText target path)) = .ok data) := by
  have hrun : ReadM.eval fs (v.restore (diskTarget cwd target) c d) =
      ReadM.eval fs (v.restoreEntries (diskTarget cwd target) tree.entries.entries d₀) := by
    unfold Vault.restore
    rw [ReadM.eval_bind, hk, ok_bind, ReadM.eval_bind, htree, ok_bind, hcreate]
  rw [hrun]
  by_cases hup : Seg.up ∈ (Path.ofString target).segs
  · -- every file is refused
    cases hentries : tree.entries.entries with
    | nil =>
      -- without entries nothing is asked of the target
      have hnone : ∀ path, content path = none := by
        intro path
        by_contra hsome
        obtain ⟨entry, he⟩ := hto.mem_iff.2 hsome
        rw [hentries] at he
        cases he
      refine ⟨.ok (), d₀, rfl, iff_of_true rfl ⟨fun _ => hnone, fun path hsome => ?_, ?_⟩, fun _ =>
        ⟨old, fun ns b => ?_, .refl hold, fun path data hdata => ?_⟩⟩
      · exact absurd (hnone path) hsome
      · exact fun p q hp => absurd (hnone p) hp
      · constructor
        · exact fun hb => .inr ⟨fun path _ => hnone path, hb⟩
        · rintro (⟨path, -, hdata⟩ | ⟨-, hb⟩)
          · cases (hnone path).symm.trans hdata
          · exact hb
      · cases (hnone path).symm.trans hdata
    | cons e entries =>
      obtain ⟨name, entry⟩ := e
      have hmem : (name, entry) ∈ tree.entries.entries := by
        rw [hentries]
        exact List.mem_cons_self
      obtain ⟨hvalid, chunks, hentry, -⟩ := hto.entry hmem
      obtain rfl : entry = .file (.ofNat (dataOf content name).length) chunks := hentry
      -- with an entry, the first join is refused
      have hrefused : (diskTarget cwd target).safeJoin d₀ name = fail escapes := by
        show safeJoin d₀.tree cwd target name = _
        rw [safeJoin_valid hvalid, if_pos ((up_mem_joined hvalid).2 hup)]
      refine ⟨fail escapes, d₀, ?_, iff_of_false nofun ?_, nofun⟩
      · unfold Vault.restoreEntries
        dsimp only
        rw [hrefused]
        rfl
      · exact fun hcan => hto.mem_iff.1 ⟨_, hmem⟩ (hcan.1 hup name)
  · -- a target without `..`: only the files themselves can be in each other's way
    obtain ⟨r, d', heval, hok, hlaid⟩ := restoreEntries_shown hup hbase hold
      fun e he => hto.entry he
    refine ⟨r, d', heval, ?_, fun hr => ⟨_, hto.overlaid, hlaid hr, fun path data hdata => ?_⟩⟩
    · rw [hok, hto.fits]
      exact (and_iff_right fun h => absurd h hup).symm
    · have hpath := hto path
      rw [hdata] at hpath
      refine readAt_shown hpath.1 (stat_grows (hlaid hr).grows hbase) (hlaid hr).shown ?_
      exact (hto.overlaid _ _).2 (.inl ⟨path, rfl, hdata⟩)

end Whole

/-! ## §5. Runs of restores. -/

section Again

/-- Successful restores into one target, newest first: the contents that were put there, and the disk
they lead to.  Every restore has a handle and a vault directory of its own. -/
inductive RestoredInto (cwd : Place) (target : String) (d₀ : Disk) :
    List (String → Option Bytes) → Disk → Prop
  | start : RestoredInto cwd target d₀ [] d₀
  | restore {contents : List (String → Option Bytes)} {d d' : Disk}
      (h : RestoredInto cwd target d₀ contents d) {v : Vault} {fs : VaultFs} {c : ContentHash}
      {k : Commit} {tree : Tree} {content : String → Option Bytes}
      (hk : ReadM.eval fs (loadCommit c) = .ok k) (htree : ReadM.eval fs (loadTree k.tree) = .ok tree)
      (hto : tree.RestoresTo v fs content)
      (hrun : ReadM.eval fs (v.restore (diskTarget cwd target) c d) = .ok (.ok (), d')) :
      RestoredInto cwd target d₀ (content :: contents) d'

/-- What a path holds after these restores, newest first. -/
def restoredContent (contents : List (String → Option Bytes)) (path : String) : Option Bytes :=
  contents.findSome? (fun content => content path)

variable {d d₀ : Disk} {cwd base : Place} {target : String} {old files new : Layout}
  {contents : List (String → Option Bytes)} {content : String → Option Bytes}

omit [Crates] in
/-- One content over what the others left. -/
theorem Overlaid.cons (h : Overlaid old files (restoredContent contents))
    (hnew : Overlaid files new content) : Overlaid old new (restoredContent (content :: contents)) := by
  have hcons : ∀ path, restoredContent (content :: contents) path =
      (content path).or (restoredContent contents path) := by
    intro path
    unfold restoredContent
    rw [List.findSome?_cons]
    cases content path <;> rfl
  intro ns b
  rw [hnew, h]
  by_cases hns : ∃ p, logicalNames p = ns
  · obtain ⟨p, rfl⟩ := hns
    -- one path has these names
    simp only [logicalNames_injective.eq_iff, exists_eq_left, forall_eq, hcons]
    cases content p with
    | none => simp
    | some data => simp
  · have hno : ∀ path, logicalNames path ≠ ns := fun path heq => hns ⟨path, heq⟩
    simp [hno]

theorem RestoredInto.valid (h : RestoredInto cwd target d₀ contents d) {path : String}
    (hsome : restoredContent contents path ≠ none) : validatePath path = .ok () := by
  induction h with
  | start => exact absurd rfl hsome
  | @restore contents d d' _ v fs c k tree content _ _ hto _ ih =>
    have hpath := hto path
    cases hcontent : content path with
    | some data =>
      rw [hcontent] at hpath
      exact hpath.1
    | none =>
      refine ih fun hnone => hsome ?_
      unfold restoredContent at hnone ⊢
      rw [List.findSome?_cons, hcontent]
      exact hnone

theorem RestoredInto.laid (hbase : stat d₀.tree cwd (.ofString target) = .ok base)
    (hold : Shown d₀.tree base old) (h : RestoredInto cwd target d₀ contents d) : ∃ files,
    Overlaid old files (restoredContent contents) ∧ Laid d₀ d base files := by
  induction h with
  | start =>
    refine ⟨old, fun ns b => ?_, .refl hold⟩
    constructor
    · exact fun hb => .inr ⟨fun _ _ => rfl, hb⟩
    · rintro (⟨path, -, hdata⟩ | ⟨-, hb⟩)
      · cases hdata
      · exact hb
  | restore _ hk htree hto hrun ih =>
    obtain ⟨files, hover, hlaid⟩ := ih
    have hthere := stat_grows hlaid.grows hbase
    obtain ⟨r, d₁, hrun', -, hdone⟩ := restore_shown hk htree hto
      (createTarget_there hthere hlaid.shown.isDir) hthere hlaid.shown
    obtain ⟨rfl, rfl⟩ := Prod.mk.inj (Except.ok.inj (hrun'.symm.trans hrun))
    obtain ⟨new, hnew, hlaid', -⟩ := hdone rfl
    exact ⟨new, hover.cons hnew, hlaid.trans hlaid'⟩

/-- **Restoring again and again**: the target shows, for each path, the data of the newest restore that
has it; what older restores put under other paths is still there, and so is what was there at first. -/
theorem restores_overlay (hbase : stat d₀.tree cwd (.ofString target) = .ok base)
    (hold : Shown d₀.tree base old) (h : RestoredInto cwd target d₀ contents d) : ∃ files,
    Overlaid old files (restoredContent contents) ∧ Laid d₀ d base files ∧
      ∀ path data, restoredContent contents path = some data →
        readAt d.tree cwd (.ofString (Path.joinText target path)) = .ok data := by
  obtain ⟨files, hover, hlaid⟩ := h.laid hbase hold
  refine ⟨files, hover, hlaid, fun path data hdata => ?_⟩
  have hvalid := h.valid (by rw [hdata]; nofun : restoredContent contents path ≠ none)
  exact readAt_shown hvalid (stat_grows hlaid.grows hbase) hlaid.shown
    ((hover _ _).2 (.inl ⟨path, rfl, hdata⟩))

end Again

/-! ## §6. What was added is what is restored. -/

section Added

variable {S : Bytes → Prop} {key : Option Key} {calls : List Made} {v : Vault} {fs : VaultFs}
  {data : Bytes}

/-- The chunks of a file that is held restore to its data. -/
theorem Vault.HoldsFile.restoreChunks (hcdc : FastcdcTiles) (haead : AeadCorrect) {entry : FileEntry}
    (h : v.HoldsFile fs data entry) : ReadM.eval fs (v.restoreChunks entry.2.2) = .ok data := by
  have hchunks : ∀ {plains : List Bytes} {hs : List ContentHash},
      List.Forall₂ (v.Holds fs) plains hs →
      ReadM.eval fs (v.restoreChunks hs) = .ok plains.flatten := by
    intro plains hs hheld
    induction hheld with
    | nil => rfl
    | @cons plain ch plains hs hc _ ih =>
      have hload := Vault.Holds.load haead hc
      obtain ⟨stored, hstored, hch, -⟩ := hc
      have hsame : ReadM.eval fs (v.restoreChunks (ch :: hs)) =
          ReadM.eval fs (if ContentHash.of stored ≠ ch then abort (.mismatch ch (.of stored))
            else do return plain ++ (← v.restoreChunks hs)) := by
        show ReadM.eval fs (v.loadChunk ch >>= _) = _
        rw [ReadM.eval_bind, hload, ok_bind, ReadM.eval_bind]
        show Except.bind (v.storedForm plain) _ = _
        rw [hstored]
        rfl
      rw [hsame, if_neg (not_not.2 hch.symm), ReadM.eval_bind, ih]
      rfl
  rw [hchunks h.chunks, chunkBytes_flatten hcdc data]

/-- A tree that lists a content restores to it. -/
theorem Tree.Lists.restoresTo (hcdc : FastcdcTiles) (haead : AeadCorrect) {tree : Tree}
    {content : String → Option Bytes} (h : tree.Lists v fs content) (hvalid : tree.PathsValid) :
    tree.RestoresTo v fs content := by
  intro path
  have hpath := h path
  cases hcontent : content path with
  | none =>
    rw [hcontent] at hpath
    exact hpath
  | some data =>
    rw [hcontent] at hpath
    obtain ⟨size, chunks, hget, hfile⟩ := hpath
    refine ⟨hvalid path _ hget, chunks, ?_, hfile.restoreChunks hcdc haead⟩
    rw [hget, show size = _ from hfile.size]

variable {d d₀ : Disk} {cwd base : Place} {target : String}

/-- **What was added is what is restored**: after any run of adds and snapshots, every commit of the
run restores into an empty directory exactly when no path that it holds lies below another one; then
there are the files it holds, each with the data last added to it, the directories on the way, and
nothing else, and outside the directory nothing has changed. -/
theorem recorded_restores (hcdc : FastcdcTiles) (haead : AeadCorrect) (hS : CollisionFree S)
    (h : Recorded S key calls fs) (hv : v.key = key) {made : Made} {older : List Made}
    (hmade : made :: older <:+ calls)
    (hcreate : (diskTarget cwd target).createTarget d = (.ok (), d₀))
    (hbase : stat d₀.tree cwd (.ofString target) = .ok base)
    (hempty : ∀ n, d₀.tree.node (n :: base) = none) :
    ∃ r d', ReadM.eval fs (v.restore (diskTarget cwd target) made.commit d) = .ok (r, d') ∧
      (r = .ok () ↔ CanRestore target .empty (contentOf ((made :: older).map Made.call))) ∧
      (r = .ok () → ∃ files : Layout,
        (∀ ns b, files ns = some b ↔ ∃ path, logicalNames path = ns ∧
          contentOf ((made :: older).map Made.call) path = some b) ∧
        Laid d₀ d' base files ∧ ∀ path data, contentOf ((made :: older).map Made.call) path = some data →
          readAt d'.tree cwd (.ofString (Path.joinText target path)) = .ok data) := by
  obtain ⟨-, hall⟩ := h.stands hS hv
  obtain ⟨k, tree, hk, htree, hvalid, hlists⟩ := hall.lists hmade
  obtain ⟨r, d', hrun, hok, hdone⟩ :=
    restore_shown hk htree (hlists.restoresTo hcdc haead hvalid) hcreate hbase (shown_empty (createTarget_dir hcreate hbase) hempty)
  refine ⟨r, d', hrun, hok, fun hr => ?_⟩
  obtain ⟨files, hover, hlaid, hread⟩ := hdone hr
  refine ⟨files, fun ns b => (hover ns b).trans ?_, hlaid, hread⟩
  constructor
  · rintro (hhere | ⟨-, hold⟩)
    · exact hhere
    · cases hold
  · exact .inl

end Added

end Model

/-! ## §7. The note, restored. -/

section Sample

attribute [local instance] noteSample

theorem plainDisk_empty (n : String) : plainDisk.tree.node [n, "out"] = none := by
  have hne : FileTree.bare.node ["out"] ≠ some .dir := by decide
  show (FileTree.bare.put ["out"] .dir).node [n, "out"] = none
  rw [FileTree.node_put _ (FileTree.root_dir _) hne, if_neg (by simp)]
  rfl

theorem plainDisk_base : stat plainDisk.tree [] (.ofString "/out") = .ok ["out"] := by decide

/-- The note is restored into `/out`. -/
theorem note_restores : ∃ r d',
    ReadM.eval notedWorld.fs (plainVault.restore (diskTarget [] "/out") hashN plainDisk) = .ok (r, d') ∧
      (r = .ok () ↔ CanRestore "/out" .empty (contentOf [addNote])) ∧
      (r = .ok () → ∃ files : Layout, (∀ ns b, files ns = some b ↔ ∃ path, logicalNames path = ns ∧
          contentOf [addNote] path = some b) ∧
        Laid plainDisk d' ["out"] files ∧ ∀ path data, contentOf [addNote] path = some data →
          readAt d'.tree [] (.ofString (Path.joinText "/out" path)) = .ok data) := by
  have hlast : [⟨addNote, hashN⟩] <:+ [(⟨addNote, hashN⟩ : Made)] := List.suffix_rfl
  have h := recorded_restores (v := plainVault) (d := plainDisk) note_tiles note_aead
    note_collisionFree noted_recorded rfl hlast rfl plainDisk_base plainDisk_empty
  dsimp only [List.map] at h
  exact h

/-- The new note is restored, then the old one over it. -/
theorem restored_twice : (ReadM.eval rewrittenWorld.fs
    (plainVault.restore (diskTarget [] "/out") hashW plainDisk)).bind (fun r₁ =>
      (ReadM.eval rewrittenWorld.fs (plainVault.restore (diskTarget [] "/out") hashN r₁.2)).bind
        fun r₂ => .ok (r₁.1, r₂.1)) = .ok (.ok (), .ok ()) := by decide +kernel

/-- The rule at these two restores. -/
theorem note_restored : ∃ d',
    RestoredInto [] "/out" plainDisk [contentOf [addNote], contentOf [addWorld, addNote]] d' ∧
    ∃ files, Overlaid .empty files
        (restoredContent [contentOf [addNote], contentOf [addWorld, addNote]]) ∧
      Laid plainDisk d' ["out"] files ∧
      ∀ path data,
        restoredContent [contentOf [addNote], contentOf [addWorld, addNote]] path = some data →
        readAt d'.tree [] (.ofString (Path.joinText "/out" path)) = .ok data := by
  obtain ⟨-, hall⟩ := rewritten_recorded.stands (v := plainVault) note_collisionFree rfl
  have hnew : [⟨addWorld, hashW⟩, ⟨addNote, hashN⟩] <:+
      [(⟨addWorld, hashW⟩ : Made), ⟨addNote, hashN⟩] := List.suffix_rfl
  have hold : [⟨addNote, hashN⟩] <:+ [(⟨addWorld, hashW⟩ : Made), ⟨addNote, hashN⟩] :=
    List.suffix_cons _ _
  obtain ⟨k₁, tree₁, hk₁, htree₁, hvalid₁, hlists₁⟩ := hall.lists hnew
  obtain ⟨k₂, tree₂, hk₂, htree₂, hvalid₂, hlists₂⟩ := hall.lists hold
  obtain ⟨⟨r₁, d₁⟩, hrun₁, hrest⟩ := bind_ok_iff.1 restored_twice
  obtain ⟨⟨r₂, d₂⟩, hrun₂, hok⟩ := bind_ok_iff.1 hrest
  obtain ⟨rfl, rfl⟩ := Prod.mk.inj (Except.ok.inj hok)
  have hone := RestoredInto.restore .start hk₁ htree₁
    (hlists₁.restoresTo note_tiles note_aead hvalid₁) hrun₁
  have htwo := RestoredInto.restore hone hk₂ htree₂
    (hlists₂.restoresTo note_tiles note_aead hvalid₂) hrun₂
  exact ⟨d₂, htwo, restores_overlay plainDisk_base
    (shown_empty (createTarget_dir (d := plainDisk) rfl plainDisk_base) plainDisk_empty) htwo⟩

end Sample

end Soal

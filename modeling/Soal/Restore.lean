/-
  Soal.Restore — where a restore writes.

  A file is written once its path was accepted and its data loaded.  The first thing that is new on
  its way is a directory or the file itself, at the place where the links lead; a restore stays below
  its target exactly when each of these places is there.
-/
import Soal.Runs.AddHistory
import Soal.Target

namespace Soal

open Posix FileProg

section Model

variable [Crates]

/-! ## §1. What a file puts there first. -/

/-- What restoring a file to the path `q` puts there first: a directory that is missing on the way, or
the file, at the place where the links lead. -/
def FirstNew (t : FileTree) (cwd : Place) (q : Path) (g : Place) : Prop :=
  gap t maxLinks (start cwd q) q.segs = some g ∨
    ∃ n p k, lookup t cwd q = .ok (.missing n p, k) ∧ g = n :: p

/-- A file may be put at `q`: what is new first lies below `base`. -/
def MayPut (t : FileTree) (cwd base : Place) (q : Path) : Prop :=
  ∀ g, FirstNew t cwd q g → base <:+ g

/-- Restoring these entries on `d` comes to a file that is put at `out` on `d'`: its path was accepted,
its data loaded and of the right size. -/
inductive Puts (v : Vault) (fs : VaultFs) (cwd : Place) (target : String) :
    List (String × TreeEntry) → Disk → Disk → String → Prop
  | here {name out : String} {size : UInt64} {chunks : List ContentHash} {data : Bytes}
      {entries : List (String × TreeEntry)} {d : Disk}
      (hjoin : safeJoin d.tree cwd target name = .ok out)
      (hdata : ReadM.eval fs (v.restoreChunks chunks) = .ok data)
      (hsize : UInt64.ofNat data.length = size) :
      Puts v fs cwd target ((name, .file size chunks) :: entries) d d out
  | dir {name out : String} {hash : ContentHash} {entries : List (String × TreeEntry)} {d d' : Disk}
      (h : Puts v fs cwd target entries d d' out) :
      Puts v fs cwd target ((name, .dir hash) :: entries) d d' out
  | next {name out out' : String} {size : UInt64} {chunks : List ContentHash} {data : Bytes}
      {entries : List (String × TreeEntry)} {d d₁ d₂ d' : Disk}
      (hjoin : safeJoin d.tree cwd target name = .ok out)
      (hdata : ReadM.eval fs (v.restoreChunks chunks) = .ok data)
      (hsize : UInt64.ofNat data.length = size)
      (hparent : (diskTarget cwd target).createParent d out = (.ok (), d₁))
      (hwrite : (diskTarget cwd target).write d₁ out data = (.ok (), d₂))
      (h : Puts v fs cwd target entries d₂ d' out') :
      Puts v fs cwd target ((name, .file size chunks) :: entries) d d' out'

/-! ## §2. One file. -/

section OneFile

omit [Crates]

variable {t : FileTree} {d d₁ d₂ : Disk} {cwd base g : Place} {target name logical out : String}
  {data : Bytes}

/-- What an accepted path is, when the target is there. -/
theorem safeJoin_ok (h : safeJoin t cwd target name = .ok out)
    (hbase : stat t cwd (.ofString target) = .ok base) : ∃ logical, validatePath logical = .ok () ∧
      out = Path.joinText target logical ∧
      ∀ full, stat t cwd (.ofString out) = .ok full → base <:+ full := by
  unfold safeJoin at h
  obtain ⟨logical, hlogical, h⟩ := bind_ok_iff.1 h
  have hvalid := validatePath_of_normalize hlogical
  dsimp only at h
  split at h
  next => cases h
  next =>
    rw [if_pos (pathExists_iff.2 ⟨base, hbase⟩), hbase] at h
    have h : staysIn t cwd base (Path.joinText target logical) = .ok out := h
    -- the target is there, so the place joined, or the one above it, is looked at
    unfold staysIn at h
    dsimp only at h
    split at h
    next hexists =>
      obtain ⟨full, hfull⟩ := pathExists_iff.1 hexists
      rw [hfull] at h
      have h : (if base <:+ full then Except.ok (Path.joinText target logical) else fail escapes) =
          .ok out := h
      split at h
      next hbelow =>
        obtain rfl := Except.ok.inj h
        refine ⟨logical, hvalid, rfl, fun full' hfull' => ?_⟩
        rw [← Except.ok.inj (hfull.symm.trans hfull')]
        exact hbelow
      next => cases h
    -- nothing is found there, so there is no place to check
    next hexists =>
      have hout : out = Path.joinText target logical := by
        split at h
        next parent _ =>
          split at h
          next hparent =>
            obtain ⟨parentC, hparentC⟩ := pathExists_iff.1 hparent
            rw [hparentC] at h
            have h : (if base <:+ parentC then Except.ok (Path.joinText target logical)
              else fail escapes) = .ok out := h
            split at h
            next => exact (Except.ok.inj h).symm
            next => cases h
          next => exact (Except.ok.inj h).symm
        next => exact (Except.ok.inj h).symm
      refine ⟨logical, hvalid, hout, fun full hfull => ?_⟩
      rw [hout] at hfull
      exact absurd (pathExists_iff.2 ⟨full, hfull⟩) hexists

theorem plain_names (h : validatePath logical = .ok ()) :
    Plain ((logicalNames logical).map .name) := by
  obtain ⟨-, hzero, -⟩ := validatePathChars_ok_iff.1 h
  intro n hn hmem
  obtain ⟨m, hm, hname⟩ := List.mem_map.1 hn
  obtain rfl := Seg.name.inj hname
  obtain ⟨seg, hseg, rfl⟩ := List.mem_map.1 hm
  rw [String.toList_ofList] at hmem
  exact hzero (Text.mem_of_mem_splitOn hseg hmem)

/-- What putting a file did to the disk: what it touched lies below `base` exactly when the file may be
put there. -/
structure FilePut (d d' : Disk) (cwd base : Place) (q : Path) : Prop where
  grows : d.tree.Grows d'.tree
  links : ∀ p l, d'.tree.node p = some (.link l) → d.tree.node p = some (.link l)
  touched : ∃ new, d'.touched = new ++ d.touched ∧
    ((∀ p ∈ new, base <:+ p) ↔ MayPut d.tree cwd base q)

/-- The way to an accepted path: down to the target, then the names; the last one is the file's. -/
structure Way (t : FileTree) (cwd base : Place) (q : Path) (s₁ s₂ : List Seg) (ns : List String)
    (last : String) : Prop where
  path : q.segs = s₁ ++ (ns.map .name ++ [.name last])
  parent : q.parent = some ⟨q.absolute, s₂ ++ ns.map .name, false⟩
  lookup : ∀ t, lookup t cwd q = walk t maxLinks (start cwd q) q.segs
  base : ∃ k, walk t maxLinks (start cwd q) s₁ = .ok (.found base, k) ∧
    walk t maxLinks (start cwd q) s₂ = .ok (.found base, k)
  plain : Plain (s₂ ++ ns.map .name)
  comps : (⟨q.absolute, s₂ ++ ns.map .name, false⟩ : Path).components = s₂ ++ ns.map .name
  nonempty : (⟨q.absolute, s₂ ++ ns.map .name, false⟩ : Path).isEmpty = false

/-- The way to a joined path, by the names of the logical path. -/
theorem way_joined (h : validatePath logical = .ok ())
    (hbase : stat t cwd (.ofString target) = .ok base) {ns : List String} {last : String}
    (hnames : logicalNames logical = ns ++ [last]) :
    Way t cwd base (.ofString (Path.joinText target logical)) (Path.ofString target).segs
      (Path.ofString target).components ns last := by
  obtain ⟨hnul, hempty, k, hwalk⟩ := stat_ok_iff.1 hbase
  have hplain := plain_names h
  rw [hnames, List.map_append] at hplain
  have htarget : Plain (Path.ofString target).segs := hasNul_eq_false.1 hnul
  -- the text joined parses to the target and the names, and so does the one above
  have hjoined : Path.ofString (Path.joinText target logical) = ⟨(Path.ofString target).absolute,
      (Path.ofString target).segs ++ (logicalNames logical).map .name, false⟩ := ofString_joined h
  have hparent : (Path.ofString (Path.joinText target logical)).parent =
      some ⟨(Path.ofString target).absolute,
        (Path.ofString target).components ++ (logicalNames logical).dropLast.map .name, false⟩ :=
    parent_joined h
  -- all but the last name is what is made
  rw [hnames, List.dropLast_concat] at hparent
  rw [hnames, List.map_append] at hjoined
  rw [hjoined] at hparent ⊢
  refine ⟨rfl, hparent, ?_, ⟨k, walk_segs hwalk, walk_components (walk_segs hwalk)⟩, ?_, ?_, ?_⟩
  · have hjoinedNul : (⟨(Path.ofString target).absolute, (Path.ofString target).segs ++
        (ns.map .name ++ [last].map .name), false⟩ : Path).hasNul = false := by
      refine hasNul_eq_false.2 fun n hn => ?_
      rcases List.mem_append.1 hn with hn | hn
      · exact htarget n hn
      · exact hplain n hn
    have hjoinedEmpty : (⟨(Path.ofString target).absolute, (Path.ofString target).segs ++
        (ns.map .name ++ [last].map .name), false⟩ : Path).isEmpty = false := by
      simp [Path.isEmpty]
    intro t
    unfold Posix.lookup
    rw [if_neg (by rw [hjoinedNul]; simp), if_neg (by rw [hjoinedEmpty]; simp)]
    rfl
  · intro n hn
    rcases List.mem_append.1 hn with hn | hn
    · exact htarget n (Path.mem_of_mem_components hn)
    · exact hplain n (List.mem_append_left _ hn)
  · have happend : (⟨(Path.ofString target).absolute, (Path.ofString target).components ++ ns.map .name,
        false⟩ : Path).components = (⟨(Path.ofString target).absolute, (Path.ofString target).components,
          false⟩ : Path).components ++ ns.map .name :=
      Path.components_append (q := ⟨(Path.ofString target).absolute, (Path.ofString target).components,
        false⟩) false
    rw [Path.components_components] at happend
    exact happend
  · exact Path.isEmpty_components hempty _

theorem way_of_joined (h : validatePath logical = .ok ())
    (hbase : stat t cwd (.ofString target) = .ok base) : ∃ s₁ s₂ ns last,
      Way t cwd base (.ofString (Path.joinText target logical)) s₁ s₂ ns last :=
  ⟨_, _, _, _, way_joined h hbase
    (List.dropLast_append_getLast (logicalNames_ne_nil logical)).symm⟩

section Steps

variable {q : Path} {s₁ s₂ : List Seg} {ns : List String} {last : String}

theorem FilePut.nothing (h : MayPut d.tree cwd base q) : FilePut d d cwd base q where
  grows := .refl
  links _ _ hl := hl
  touched := ⟨[], rfl, iff_of_true (fun _ hp => absurd hp List.not_mem_nil) h⟩

/-- One place was written. -/
theorem FilePut.one {p : Place} {b : List UInt8}
    (hgrows : d.tree.Grows (d.put p (.file b)).tree)
    (hlinks : ∀ r l, (d.put p (.file b)).tree.node r = some (.link l) → d.tree.node r = some (.link l))
    (h : base <:+ p ↔ MayPut d.tree cwd base q) : FilePut d (d.put p (.file b)) cwd base q where
  grows := hgrows
  links := hlinks
  touched := ⟨[p], rfl, by simpa using h⟩

/-- Where the parent is not to be made, what is new is the file, at the place where its path leads. -/
theorem Way.firstNew (hw : Way t cwd base q s₁ s₂ ns last)
    (hgap : gap t maxLinks (start cwd q) (s₂ ++ ns.map .name) = none) (hnew : FirstNew t cwd q g) :
    (∃ p k, walk t maxLinks (start cwd q) (s₂ ++ ns.map .name) = .ok (.found p, k) ∧
      t.node p = some .dir) ∧ ∃ n p k, Posix.lookup t cwd q = .ok (.missing n p, k) ∧ g = n :: p := by
  obtain ⟨k, h₁, h₂⟩ := hw.base
  have hpath : q.segs = (s₁ ++ ns.map .name) ++ [.name last] := by
    rw [hw.path, List.append_assoc]
  have hgap : gap t maxLinks (start cwd q) (s₁ ++ ns.map .name) = none := by
    rw [gap_found h₂] at hgap
    rw [gap_found h₁]
    exact hgap
  unfold FirstNew at hnew
  rw [hw.lookup, hpath] at hnew
  rw [hw.lookup, hpath, walk_append_found h₂, ← walk_append_found h₁]
  exact last_new hgap hnew

/-- Where something is to be made on the way, that is what is new. -/
theorem Way.firstNew_of_gap (hw : Way t cwd base q s₁ s₂ ns last)
    (hgap : gap t maxLinks (start cwd q) (s₂ ++ ns.map .name) = some g) {g' : Place} :
    FirstNew t cwd q g' ↔ g' = g := by
  obtain ⟨k, h₁, h₂⟩ := hw.base
  have hgap : gap t maxLinks (start cwd q) q.segs = some g := by
    rw [gap_found h₂] at hgap
    rw [hw.path, ← List.append_assoc]
    refine gap_append_some ?_
    rw [gap_found h₁]
    exact hgap
  constructor
  · rintro (hg | ⟨n, p, k', hlookup, hg⟩)
    · exact Option.some.inj (hg.symm.trans hgap)
    · rw [hw.lookup] at hlookup
      rcases walk_of_gap hgap with ⟨m, r, k₁, hwalk, hm⟩ | hwalk
      · cases hwalk.symm.trans hlookup
        rw [hg, hm]
      · cases hwalk.symm.trans hlookup
  · rintro rfl
    exact .inl hgap

/-- **Writing where nothing is to be made on the way.** -/
theorem FilePut.write (hw : Way d.tree cwd base (.ofString out) s₁ s₂ ns last)
    (hgap : gap d.tree maxLinks (start cwd (.ofString out)) (s₂ ++ ns.map .name) = none)
    (hfull : ∀ full, stat d.tree cwd (.ofString out) = .ok full → base <:+ full) {r : Res Unit}
    (h : (diskTarget cwd target).write d out data = (r, d₂)) :
    FilePut d d₂ cwd base (.ofString out) := by
  -- where no file is missing at the end of the path, nothing new is made
  have hvacuous : (∀ n p k, lookup d.tree cwd (.ofString out) ≠ .ok (.missing n p, k)) →
      MayPut d.tree cwd base (.ofString out) := by
    intro hno g hg
    obtain ⟨-, n, p, k, hlookup, -⟩ := hw.firstNew hgap hg
    exact absurd hlookup (hno n p k)
  unfold diskTarget Posix.write at h
  dsimp only at h
  cases hlookup : lookup d.tree cwd (.ofString out) with
  | error e =>
    rw [hlookup] at h
    obtain ⟨-, rfl⟩ := Prod.mk.inj h
    exact .nothing (hvacuous fun n p k hl => by rw [hlookup] at hl; cases hl)
  | ok res =>
    obtain ⟨hit, k⟩ := res
    rw [hlookup] at h
    cases hit with
    | missing n p =>
      obtain ⟨-, rfl⟩ := Prod.mk.inj h
      have hmissing := hlookup
      rw [hw.lookup] at hmissing
      obtain ⟨hp, hn⟩ := walk_missing hmissing
      have hne : d.tree.node (n :: p) ≠ some .dir := by
        rw [hn]
        nofun
      -- a new file: it may be there exactly when it is below the base
      refine .one (FileTree.grows_put hp hn) (fun r l hl => FileTree.links_put hp hne (by simp) hl) ?_
      constructor
      · intro hbelow g hg
        obtain ⟨-, n', p', k', hl', rfl⟩ := hw.firstNew hgap hg
        have hhit : Hit.missing n p = .missing n' p' :=
          congrArg Prod.fst (Except.ok.inj (hlookup.symm.trans hl'))
        obtain ⟨rfl, rfl⟩ := Hit.missing.inj hhit
        exact hbelow
      · exact fun hmay => hmay _ (.inr ⟨n, p, k, hlookup, rfl⟩)
    | found p =>
      have hmay := hvacuous fun n p' k' hl => by rw [hlookup] at hl; cases hl
      -- what is found was resolved, and was checked to be below the base
      have hbelow : base <:+ p := by
        refine hfull p ?_
        unfold stat
        rw [hlookup]
      dsimp only at h
      cases hnode : d.tree.node p with
      | none =>
        rw [hnode] at h
        obtain ⟨-, rfl⟩ := Prod.mk.inj h
        exact .nothing hmay
      | some x =>
        rw [hnode] at h
        cases x with
        | dir =>
          obtain ⟨-, rfl⟩ := Prod.mk.inj h
          exact .nothing hmay
        | link l =>
          obtain ⟨-, rfl⟩ := Prod.mk.inj h
          exact .nothing hmay
        | file b =>
          obtain ⟨-, rfl⟩ := Prod.mk.inj h
          exact .one (FileTree.grows_rewrite hnode) (fun r l hl => FileTree.links_rewrite hnode hl)
            (iff_of_true hbelow hmay)

/-- **Writing below directories that were made on the way.** -/
theorem FilePut.opened {q : Place} (hw : Way d.tree cwd base (.ofString out) s₁ s₂ ns last)
    (hgap : gap d.tree maxLinks (start cwd (.ofString out)) (s₂ ++ ns.map .name) = some g)
    (hopen : Opened d d₁ g q) {k : Nat} (hq : walk d₁.tree maxLinks (start cwd (.ofString out))
      (s₂ ++ ns.map .name) = .ok (.found q, k)) {r : Res Unit}
    (h : (diskTarget cwd target).write d₁ out data = (r, d₂)) :
    FilePut d d₂ cwd base (.ofString out) := by
  obtain ⟨k₀, h₁, h₂⟩ := hw.base
  -- the directories lead to `q`, and nothing is in it
  have hlookup : lookup d₁.tree cwd (.ofString out) = .ok (.missing last q, k) := by
    rw [walk_append_found (walk_grows hopen.grows h₂)] at hq
    rw [hw.lookup, hw.path, walk_append_found (walk_grows hopen.grows h₁), walk_append_found hq,
      walk_none hopen.dir (hopen.bare last), if_pos rfl]
  have hne : d₁.tree.node (last :: q) ≠ some .dir := by
    rw [hopen.bare last]
    nofun
  unfold diskTarget Posix.write at h
  dsimp only at h
  rw [hlookup] at h
  obtain ⟨-, rfl⟩ := Prod.mk.inj h
  -- touched: the file, and the directories made for it from the gap on
  obtain ⟨new, htouched, hg, hnew⟩ := hopen.touched
  refine ⟨hopen.grows.trans (FileTree.grows_put hopen.dir (hopen.bare last)), fun r l hl => ?_,
    (last :: q) :: new, ?_, ?_⟩
  · exact hopen.links r l (FileTree.links_put hopen.dir hne (by simp) hl)
  · show (last :: q) :: d₁.touched = _
    rw [htouched]
    rfl
  · constructor
    · intro hall g' hg'
      rw [(hw.firstNew_of_gap hgap).1 hg']
      exact hall g (List.mem_cons_of_mem _ hg)
    · intro hmay p hp
      have hbase : base <:+ g := hmay g ((hw.firstNew_of_gap hgap).2 rfl)
      rcases List.mem_cons.1 hp with rfl | hp
      · exact (hbase.trans hopen.below).trans (List.suffix_cons last q)
      · exact hbase.trans (hnew p hp)

/-- **Putting one file**: whether it fails or not, what it touched lies below the target exactly when
the file may be put there. -/
theorem putFile (hjoin : safeJoin d.tree cwd target name = .ok out)
    (hbase : stat d.tree cwd (.ofString target) = .ok base) (hdir : d.tree.node base = some .dir)
    {r : Res Unit} (hparent : (diskTarget cwd target).createParent d out = (r, d₁)) :
    (∀ e, r = .error e → FilePut d d₁ cwd base (.ofString out)) ∧
      (r = .ok () → ∀ (data : Bytes) (r₂ : Res Unit) (d₂ : Disk),
        (diskTarget cwd target).write d₁ out data = (r₂, d₂) →
        FilePut d d₂ cwd base (.ofString out)) := by
  obtain ⟨logical, hvalid, rfl, hfull⟩ := safeJoin_ok hjoin hbase
  obtain ⟨s₁, s₂, ns, last, hw⟩ := way_of_joined hvalid hbase
  generalize Path.joinText target logical = out at *
  obtain ⟨k, h₁, h₂⟩ := hw.base
  have hcreate : (diskTarget cwd target).createParent d out =
      settled (createAbove cwd (Path.ofString out).absolute (s₂ ++ ns.map Seg.name).reverse d) := by
    unfold diskTarget
    dsimp only
    rw [hw.parent]
    dsimp only
    rw [createDirAll_eq hw.comps hw.nonempty]
  rw [hcreate] at hparent
  obtain ⟨hr, rfl⟩ := Prod.mk.inj hparent
  cases hgap : gap d.tree maxLinks (start cwd (.ofString out)) (s₂ ++ ns.map .name) with
  | none =>
    rw [createAbove_of_gap_none h₂ hdir hw.plain hgap]
    constructor
    · intro e he
      refine .nothing fun g hg => ?_
      -- a directory that the file is put into needs no making
      obtain ⟨⟨p, k', hp, hpdir⟩, -⟩ := hw.firstNew hgap hg
      rw [createAbove_found hw.plain hp hpdir] at hr
      rw [he] at hr
      cases hr
    · intro _ data r₂ d₂ hwrite
      exact .write hw hgap hfull hwrite
  | some g =>
    obtain ⟨d', q, k', hmade, hopen, hq⟩ := createAbove_of_gap_some h₂ hw.plain hgap
    rw [hmade] at hr ⊢
    constructor
    · intro e he
      rw [he] at hr
      cases hr
    · intro _ data r₂ d₂ hwrite
      exact .opened hw hgap hopen hq hwrite

/-- Without links below the target every accepted file may be put. -/
theorem mayPut_of_noLinks (hjoin : safeJoin t cwd target name = .ok out)
    (hbase : stat t cwd (.ofString target) = .ok base) (hno : NoLinksBelow t base) :
    MayPut t cwd base (.ofString out) := by
  obtain ⟨logical, hvalid, rfl, -⟩ := safeJoin_ok hjoin hbase
  obtain ⟨s₁, s₂, ns, last, hw⟩ := way_of_joined hvalid hbase
  generalize Path.joinText target logical = out at *
  obtain ⟨k, h₁, -⟩ := hw.base
  have hnames : ns.map Seg.name ++ [.name last] = (ns ++ [last]).map .name := by
    rw [List.map_append]
    rfl
  rintro g (hg | ⟨n, p, k', hlookup, rfl⟩)
  · rw [hw.path, gap_found h₁, hnames] at hg
    exact gap_names hno hg
  · rw [hw.lookup, hw.path, walk_append_found h₁, hnames] at hlookup
    exact (walk_names_missing hno hlookup).trans (List.suffix_cons n p)

end Steps

end OneFile

/-! ## §3. A whole restore. -/

section Whole

variable {v : Vault} {fs : VaultFs} {d d' d₁ : Disk} {cwd base : Place} {target out : String}
  {entries : List (String × TreeEntry)} {r : Res Unit}

omit [Crates] in
/-- The target stays where it is while the tree grows. -/
theorem stat_grows {t t' : FileTree} {q : Path} (hg : t.Grows t') (h : stat t cwd q = .ok base) :
    stat t' cwd q = .ok base := by
  obtain ⟨hnul, hempty, k, hwalk⟩ := stat_ok_iff.1 h
  exact stat_ok_iff.2 ⟨hnul, hempty, k, walk_grows hg hwalk⟩

/-- **What the entries touch** lies below the target exactly when every file that is put may be put. -/
theorem restoreEntries_touched (hbase : stat d.tree cwd (.ofString target) = .ok base)
    (hdir : d.tree.node base = some .dir)
    (h : ReadM.eval fs (v.restoreEntries (diskTarget cwd target) entries d) = .ok (r, d')) :
    ∃ new, d'.touched = new ++ d.touched ∧ ((∀ p ∈ new, base <:+ p) ↔ ∀ d₁ out,
      Puts v fs cwd target entries d d₁ out → MayPut d₁.tree cwd base (.ofString out)) := by
  induction entries generalizing d with
  | nil =>
    have h : (.ok (.ok (), d) : Res (Res Unit × Disk)) = .ok (r, d') := h
    obtain ⟨-, rfl⟩ := Prod.mk.inj (Except.ok.inj h)
    refine ⟨[], rfl, iff_of_true (fun _ hp => absurd hp List.not_mem_nil) fun d₁ out hputs => ?_⟩
    cases hputs
  | cons e entries ih =>
    obtain ⟨name, entry⟩ := e
    cases entry with
    | dir hash =>
      obtain ⟨new, htouched, hnew⟩ := ih hbase hdir h
      refine ⟨new, htouched, hnew.trans ⟨fun hall d₁ out hputs => ?_, fun hall d₁ out hputs => ?_⟩⟩
      · cases hputs with
        | dir hrest => exact hall d₁ out hrest
      · exact hall d₁ out (.dir hputs)
    | file size chunks =>
      have hnothing : (∀ d₁ out, ¬Puts v fs cwd target ((name, .file size chunks) :: entries) d d₁ out) →
          d' = d → ∃ new, d'.touched = new ++ d.touched ∧ ((∀ p ∈ new, base <:+ p) ↔ ∀ d₁ out,
            Puts v fs cwd target ((name, .file size chunks) :: entries) d d₁ out →
            MayPut d₁.tree cwd base (.ofString out)) := by
        rintro hno rfl
        exact ⟨[], rfl, iff_of_true (fun _ hp => absurd hp List.not_mem_nil) fun d₁ out hputs =>
          absurd hputs (hno d₁ out)⟩
      have hleft : ∀ (e : Fault), (.ok (.error e, d) : Res (Res Unit × Disk)) = .ok (r, d') → d' = d :=
        fun e heq => (Prod.mk.inj (Except.ok.inj heq)).2.symm
      unfold Vault.restoreEntries at h
      dsimp only at h
      split at h
      next e hjoin =>
        have hjoin : safeJoin d.tree cwd target name = .error e := hjoin
        refine hnothing (fun d₁ out hputs => ?_) (hleft e h)
        cases hputs with
        | here hok => cases hjoin.symm.trans hok
        | next hok => cases hjoin.symm.trans hok
      next out hjoin =>
        have hjoin : safeJoin d.tree cwd target name = .ok out := hjoin
        rw [ReadM.eval_handle] at h
        split at h
        next e hdata =>
          refine hnothing (fun d₁ out hputs => ?_) (hleft e h)
          cases hputs with
          | here _ hok => cases hdata.symm.trans hok
          | next _ hok => cases hdata.symm.trans hok
        next data hdata =>
          split at h
          next hsize =>
            refine hnothing (fun d₁ out hputs => ?_) (hleft _ h)
            cases hputs with
            | here _ hok hsame =>
              obtain rfl := Except.ok.inj (hdata.symm.trans hok)
              exact hsize hsame
            | next _ hok hsame =>
              obtain rfl := Except.ok.inj (hdata.symm.trans hok)
              exact hsize hsame
          next hsize =>
            have hsize : UInt64.ofNat data.length = size := not_not.1 hsize
            have hhere : Puts v fs cwd target ((name, .file size chunks) :: entries) d d out :=
              .here hjoin hdata hsize
            -- the file is put, and with an error that is all
            have hlast : ∀ d₂, FilePut d d₂ cwd base (.ofString out) → d' = d₂ →
                (∀ d₃ out', ¬(∃ d₁ d₄, (diskTarget cwd target).createParent d out = (.ok (), d₁) ∧
                  (diskTarget cwd target).write d₁ out data = (.ok (), d₄) ∧
                  Puts v fs cwd target entries d₄ d₃ out')) →
                ∃ new, d'.touched = new ++ d.touched ∧ ((∀ p ∈ new, base <:+ p) ↔ ∀ d₁ out,
                  Puts v fs cwd target ((name, .file size chunks) :: entries) d d₁ out →
                  MayPut d₁.tree cwd base (.ofString out)) := by
              rintro d₂ hput rfl hno
              obtain ⟨new, htouched, hnew⟩ := hput.touched
              refine ⟨new, htouched, hnew.trans ⟨fun hmay d₁ out' hputs => ?_, fun hall => hall _ _ hhere⟩⟩
              cases hputs with
              | here hok =>
                obtain rfl := Except.ok.inj (hjoin.symm.trans hok)
                exact hmay
              | next hok hok' _ hp hw hrest =>
                obtain rfl := Except.ok.inj (hjoin.symm.trans hok)
                obtain rfl := Except.ok.inj (hdata.symm.trans hok')
                exact absurd ⟨_, _, hp, hw, hrest⟩ (hno _ _)
            split at h
            next e d₁ hparent =>
              obtain ⟨-, rfl⟩ := Prod.mk.inj (Except.ok.inj h)
              refine hlast d₁ ((putFile hjoin hbase hdir hparent).1 e rfl) rfl ?_
              rintro d₃ out' ⟨d₄, d₅, hp, -⟩
              cases hparent.symm.trans hp
            next d₁ hparent =>
              have hput := (putFile hjoin hbase hdir hparent).2 rfl data
              split at h
              next e d₂ hwrite =>
                obtain ⟨-, rfl⟩ := Prod.mk.inj (Except.ok.inj h)
                refine hlast d₂ (hput _ d₂ hwrite) rfl ?_
                rintro d₃ out' ⟨d₄, d₅, hp, hw, -⟩
                cases hparent.symm.trans hp
                cases hwrite.symm.trans hw
              next d₂ hwrite =>
                have hput := hput _ d₂ hwrite
                obtain ⟨new₁, htouched₁, hnew₁⟩ := hput.touched
                obtain ⟨new₂, htouched₂, hnew₂⟩ := ih (stat_grows hput.grows hbase)
                  (hput.grows.dir hdir) h
                refine ⟨new₂ ++ new₁, by rw [htouched₂, htouched₁, List.append_assoc], ?_⟩
                rw [List.forall_mem_append, hnew₁, hnew₂]
                constructor
                · rintro ⟨hall, hmay⟩ d₃ out' hputs
                  cases hputs with
                  | here hok =>
                    obtain rfl := Except.ok.inj (hjoin.symm.trans hok)
                    exact hmay
                  | next hok hok' _ hp hw hrest =>
                    obtain rfl := Except.ok.inj (hjoin.symm.trans hok)
                    obtain rfl := Except.ok.inj (hdata.symm.trans hok')
                    cases hparent.symm.trans hp
                    cases hwrite.symm.trans hw
                    exact hall _ _ hrest
                · intro hall
                  exact ⟨fun d₃ out' hputs => hall d₃ out' (.next hjoin hdata hsize hparent hwrite hputs),
                    hall d out hhere⟩

/-- The files of a restore come in states without links when it starts in one. -/
theorem Puts.noLinks (h : Puts v fs cwd target entries d d₁ out)
    (hbase : stat d.tree cwd (.ofString target) = .ok base) (hdir : d.tree.node base = some .dir)
    (hno : NoLinksBelow d.tree base) : MayPut d₁.tree cwd base (.ofString out) := by
  induction h with
  | here hjoin _ _ => exact mayPut_of_noLinks hjoin hbase hno
  | dir _ ih => exact ih hbase hdir hno
  | next hjoin _ _ hparent hwrite _ ih =>
    have hput := (putFile hjoin hbase hdir hparent).2 rfl _ _ _ hwrite
    refine ih (stat_grows hput.grows hbase) (hput.grows.dir hdir) fun q hq hne l hl => ?_
    exact hno q hq hne l (hput.links q l hl)

/-- **Where a restore writes.**  It fails on the way to its target, or it stays below the target, from
there on, exactly when every file that it puts may be put: what is new first on the file's way lies below
the target.  Without links below the target it always stays there. -/
theorem restore_stays_iff {c : ContentHash}
    (hrun : ReadM.eval fs (v.restore (diskTarget cwd target) c d) = .ok (r, d')) :
    (∃ e, (diskTarget cwd target).createTarget d = (.error e, d') ∧ r = .error e) ∨
    ∃ k tree d₀, ReadM.eval fs (loadCommit c) = .ok k ∧ ReadM.eval fs (loadTree k.tree) = .ok tree ∧
      (diskTarget cwd target).createTarget d = (.ok (), d₀) ∧
      ∀ base, stat d₀.tree cwd (.ofString target) = .ok base →
        ∃ new, d'.touched = new ++ d₀.touched ∧
          ((∀ p ∈ new, base <:+ p) ↔ ∀ d₁ out,
            Puts v fs cwd target tree.entries.entries d₀ d₁ out → MayPut d₁.tree cwd base (.ofString out)) ∧
          (NoLinksBelow d₀.tree base → ∀ p ∈ new, base <:+ p) := by
  unfold Vault.restore at hrun
  rw [ReadM.eval_bind] at hrun
  obtain ⟨k, hk, hrun⟩ := bind_ok_iff.1 hrun
  rw [ReadM.eval_bind] at hrun
  obtain ⟨tree, htree, hrun⟩ := bind_ok_iff.1 hrun
  split at hrun
  next e d₀ hcreate =>
    obtain ⟨rfl, rfl⟩ := Prod.mk.inj (Except.ok.inj hrun)
    exact .inl ⟨e, hcreate, rfl⟩
  next d₀ hcreate =>
    refine .inr ⟨k, tree, d₀, hk, htree, hcreate, fun base hbase => ?_⟩
    have hmade : createDirAll cwd d (.ofString target) = (.ok (), d₀) := by
      obtain ⟨hok, hd₀⟩ := Prod.mk.inj hcreate
      refine Prod.ext ?_ hd₀
      cases hres : (createDirAll cwd d (.ofString target)).1 with
      | ok _ => rfl
      | error e =>
        rw [hres] at hok
        cases hok
    -- a target that could be made is a directory
    have hdir : d₀.tree.node base = some .dir := by
      obtain ⟨-, hempty, -⟩ := stat_ok_iff.1 hbase
      have hisDir := createDirAll_isDir hmade hempty
      unfold isDir at hisDir
      rw [hbase] at hisDir
      exact of_decide_eq_true hisDir
    obtain ⟨new, htouched, hnew⟩ := restoreEntries_touched hbase hdir hrun
    exact ⟨new, htouched, hnew, fun hno => hnew.2 fun d₁ out hputs => hputs.noLinks hbase hdir hno⟩

end Whole

end Model

/-! ## §4. A link that leads nowhere. -/

/-- `/out` is an empty directory. -/
def plainDisk : Disk := ⟨FileTree.bare.put ["out"] .dir, []⟩

/-- `/etc` and `/out` are directories; `/out/n.txt` is a link to `/etc/n.txt`, which is not there. -/
def linkedDisk : Disk :=
  ⟨((FileTree.bare.put ["etc"] .dir).put ["out"] .dir).put ["n.txt", "out"]
    (.link (.ofString "/etc/n.txt")), []⟩

section Sample

attribute [local instance] noteSample

theorem restore_plain : (ReadM.eval notedWorld.fs (plainVault.restore (diskTarget [] "/out") hashN
    plainDisk)).map (fun res => (res.1, res.2.touched)) = .ok (.ok (), [["n.txt", "out"]]) := by
  decide +kernel

theorem plainDisk_noLinks (base : Place) : NoLinksBelow plainDisk.tree base := by
  intro q _ _ l hl
  have hne : FileTree.bare.node ["out"] ≠ some .dir := by decide
  have hl : (FileTree.bare.put ["out"] .dir).node q = some (.link l) := hl
  rw [FileTree.node_put _ (FileTree.root_dir _) hne] at hl
  split at hl
  next => cases hl
  next =>
    unfold FileTree.bare at hl
    dsimp only at hl
    split at hl <;> cases hl

/-- Restoring the note into `/out` stays there. -/
theorem restore_plain_stays : ∃ r d', ReadM.eval notedWorld.fs
      (plainVault.restore (diskTarget [] "/out") hashN plainDisk) = .ok (r, d') ∧
    ∀ p ∈ d'.touched, ["out"] <:+ p := by
  cases hrun : ReadM.eval notedWorld.fs
      (plainVault.restore (diskTarget [] "/out") hashN plainDisk) with
  | error e =>
    have hplain := restore_plain
    rw [hrun] at hplain
    cases hplain
  | ok res =>
    obtain ⟨r, d'⟩ := res
    refine ⟨r, d', rfl, ?_⟩
    have hcreate : (diskTarget [] "/out").createTarget plainDisk = (.ok (), plainDisk) := rfl
    rcases restore_stays_iff hrun with ⟨e, hfail, -⟩ | ⟨k, tree, d₀, -, -, hmade, hstays⟩
    · cases hcreate.symm.trans hfail
    · cases hcreate.symm.trans hmade
      obtain ⟨new, htouched, -, hno⟩ := hstays ["out"] (by decide)
      rw [htouched, show plainDisk.touched = [] from rfl, List.append_nil]
      exact hno (plainDisk_noLinks _)

/-- Restoring the note into `/out` writes `/etc/n.txt`. -/
theorem restore_linked : (ReadM.eval notedWorld.fs (plainVault.restore (diskTarget [] "/out") hashN
      linkedDisk)).map (fun res => (res.1, res.2.touched)) = .ok (.ok (), [["n.txt", "etc"]]) ∧
    (diskTarget [] "/out").createTarget linkedDisk = (.ok (), linkedDisk) ∧
    stat linkedDisk.tree [] (.ofString "/out") = .ok ["out"] ∧ ¬["out"] <:+ ["n.txt", "etc"] := by
  refine ⟨by decide +kernel, ?_, by decide, by decide⟩
  rfl

end Sample

end Soal

/-
  Soal.Lib.Layout — files laid out below a directory, and the calls that put one more file there.

  A `Layout` says which names lead to which data.  A tree shows it when below the directory there are
  these files, the directories on the way to them, and nothing else.  Making the directories above a
  file and writing it succeeds exactly when the layout has room for the file, and then the tree shows
  the layout with that file in it.  So a list of files can be put one by one exactly when no name list
  is a proper beginning of another.

  Nothing here names a particular program.
-/
import Soal.Lib.FileTree

namespace Posix

/-! ## §1. Names without links. -/

section Down

variable {t : FileTree} {k : Nat} {p : Place} {ns ms rest : List String} {n : String}

/-- Every name on the way leads into a directory. -/
def DirsTo (t : FileTree) (p : Place) (ns : List String) : Prop :=
  ∀ m, m <+: ns → t.node (m.reverse ++ p) = some .dir

theorem DirsTo.upTo (h : DirsTo t p ns) (hm : ms <+: ns) : DirsTo t p ms :=
  fun m hm' => h m (hm'.trans hm)

/-- A directory is inside directories. -/
theorem dirsTo_of_dir (h : t.node (ns.reverse ++ p) = some .dir) : DirsTo t p ns := by
  intro m hm
  obtain ⟨r, rfl⟩ := hm
  induction r using List.reverseRecOn with
  | nil => rwa [List.append_nil] at h
  | append_singleton r n ih =>
    refine ih (t.parent_dir n _ ?_)
    rw [← List.append_assoc, List.reverse_append] at h
    have h : t.node (n :: ((m ++ r).reverse ++ p)) = some .dir := h
    rw [h]
    nofun

theorem walk_dirs (h : DirsTo t p ns) :
    walk t k p (ns.map .name) = .ok (.found (ns.reverse ++ p), k) := by
  induction ns generalizing p with
  | nil => exact walk_nil
  | cons n ns ih =>
    have hp : t.node p = some .dir := h [] List.nil_prefix
    have hn : t.node (n :: p) = some .dir := h [n] ⟨ns, rfl⟩
    rw [List.map_cons, walk_some hp hn (by simp), ih fun m hm => ?_]
    · rw [List.reverse_cons, List.append_assoc]
      rfl
    · have hm' := h (n :: m) (List.cons_prefix_cons.2 ⟨rfl, hm⟩)
      rwa [List.reverse_cons, List.append_assoc] at hm'

/-- Names that pass something missing. -/
theorem walk_past_missing (h : DirsTo t p ms) (hn : t.node (n :: (ms.reverse ++ p)) = none) :
    walk t k p ((ms ++ n :: rest).map .name) =
      if rest = [] then .ok (.missing n (ms.reverse ++ p), k) else .error .noEnt := by
  rw [List.map_append, walk_append_found (walk_dirs h), List.map_cons, walk_none (h ms List.prefix_rfl) hn]
  simp

/-- Names that pass a file. -/
theorem walk_past_file {b : List UInt8} (h : DirsTo t p ms)
    (hn : t.node (n :: (ms.reverse ++ p)) = some (.file b)) :
    walk t k p ((ms ++ n :: rest).map .name) =
      if rest = [] then .ok (.found (n :: (ms.reverse ++ p)), k) else .error .notDir := by
  rw [List.map_append, walk_append_found (walk_dirs h), List.map_cons,
    walk_some (h ms List.prefix_rfl) hn (by simp)]
  cases rest with
  | nil => rw [List.map_nil, walk_nil, if_pos rfl]
  | cons m rest => rw [List.map_cons, walk_notDir (by rw [hn]; nofun), if_neg (by simp)]

/-- Where names do not lead into directories, they come to a first thing that is none. -/
theorem exists_stop (hp : t.node p = some .dir) (h : ¬DirsTo t p ns) : ∃ ms n rest,
    ns = ms ++ n :: rest ∧ DirsTo t p ms ∧ t.node (n :: (ms.reverse ++ p)) ≠ some .dir := by
  induction ns using List.reverseRecOn with
  | nil =>
    refine absurd (fun m hm => ?_) h
    rw [List.prefix_nil.1 hm]
    exact hp
  | append_singleton ns n ih =>
    by_cases hns : DirsTo t p ns
    · refine ⟨ns, n, [], rfl, hns, fun hn => h fun m hm => ?_⟩
      rcases List.prefix_concat_iff.1 hm with rfl | hm
      · rw [List.reverse_concat]
        exact hn
      · exact hns m hm
    · obtain ⟨ms, n', rest, rfl, hms, hn'⟩ := ih hns
      exact ⟨ms, n', rest ++ [n], by simp, hms, hn'⟩

end Down

/-! ## §2. Making directories. -/

section Making

variable {d d' : Disk} {cwd base : Place} {absolute : Bool} {s : List Seg} {k : Nat}
  {ns : List String} {n : String}

/-- On the way there are directories, then nothing. -/
def ClearTo (t : FileTree) (p : Place) (ns : List String) : Prop :=
  ∀ m, m <+: ns → t.node (m.reverse ++ p) = some .dir ∨ t.node (m.reverse ++ p) = none

/-- The directories on the way are there, and the rest is as it was. -/
def MadeTo (t t' : FileTree) (p : Place) (ns : List String) : Prop :=
  DirsTo t' p ns ∧ ∀ q, (∀ m, m <+: ns → q ≠ m.reverse ++ p) → t'.node q = t.node q

theorem MadeTo.grows {t t' : FileTree} {p : Place} (h : MadeTo t t' p ns) (hclear : ClearTo t p ns) :
    t.Grows t' := by
  intro q x hx
  by_cases hq : ∃ m, m <+: ns ∧ q = m.reverse ++ p
  · obtain ⟨m, hm, rfl⟩ := hq
    rcases hclear m hm with hdir | hnone
    · obtain rfl := Option.some.inj (hx.symm.trans hdir)
      exact .inl (h.1 m hm)
    · cases hx.symm.trans hnone
  · refine .inl ((h.2 q fun m hm heq => hq ⟨m, hm, heq⟩).trans hx)

variable (hs : walk d.tree maxLinks (start cwd ⟨absolute, [], false⟩) s = .ok (.found base, k))

include hs

/-- **Where the way is clear, the directories are made.** -/
theorem createAbove_clear (hnul : Plain (s ++ ns.map Seg.name)) (hbase : d.tree.node base = some .dir)
    (hclear : ClearTo d.tree base ns) : ∃ d',
      createAbove cwd absolute (s ++ ns.map Seg.name).reverse d = (.ok (), d') ∧
      MadeTo d.tree d'.tree base ns := by
  induction ns using List.reverseRecOn with
  | nil =>
    rw [List.map_nil, List.append_nil] at hnul ⊢
    refine ⟨d, createAbove_found hnul hs hbase, fun m hm => ?_, fun _ _ => rfl⟩
    rw [List.prefix_nil.1 hm]
    exact hbase
  | append_singleton ns n ih =>
    have hsplit : s ++ (ns ++ [n]).map Seg.name = (s ++ ns.map .name) ++ [.name n] := by
      rw [List.map_append, List.append_assoc]
      rfl
    have hplace : (ns ++ [n]).reverse ++ base = n :: (ns.reverse ++ base) := by
      rw [List.reverse_concat]
      rfl
    rw [hsplit] at hnul ⊢
    have hnul' : Plain (s ++ ns.map .name) := fun m hm => hnul m (List.mem_append_left _ hm)
    have hclear' : ClearTo d.tree base ns := fun m hm => hclear m (hm.trans (List.prefix_append ns [n]))
    have hlast := hclear (ns ++ [n]) List.prefix_rfl
    rw [hplace] at hlast
    -- a directory that is new, in one that is there
    have hput : ∀ d₁ : Disk, d₁.tree.node (ns.reverse ++ base) = some .dir →
        d₁.tree.node (n :: (ns.reverse ++ base)) = none →
        MadeTo d.tree d₁.tree base ns → MadeTo d.tree (d₁.put (n :: (ns.reverse ++ base)) .dir).tree
          base (ns ++ [n]) := by
      intro d₁ hdir hno hmade
      have hnode : ∀ q, (d₁.put (n :: (ns.reverse ++ base)) .dir).tree.node q =
          if q = n :: (ns.reverse ++ base) then some .dir else d₁.tree.node q := fun q =>
        FileTree.node_put .dir hdir (by rw [hno]; nofun) q
      refine ⟨fun m hm => ?_, fun q hq => ?_⟩
      · rw [hnode]
        split
        next => rfl
        next hne =>
          rcases List.prefix_concat_iff.1 hm with rfl | hm
          · exact absurd hplace hne
          · exact hmade.1 m hm
      · rw [hnode, if_neg (hplace ▸ hq (ns ++ [n]) List.prefix_rfl)]
        exact hmade.2 q fun m hm => hq m (hm.trans (List.prefix_append ns [n]))
    rcases hlast with hdir | hnone
    · -- everything is there
      have hdirs : DirsTo d.tree base (ns ++ [n]) := dirsTo_of_dir (hplace ▸ hdir)
      refine ⟨d, ?_, hdirs, fun _ _ => rfl⟩
      rw [← hsplit]
      refine createAbove_found (hsplit ▸ hnul) (k := k) ?_ (hplace ▸ hdir)
      rw [walk_append_found hs]
      exact walk_dirs hdirs
    · rw [createAbove_concat]
      by_cases hparent : d.tree.node (ns.reverse ++ base) = some .dir
      · have hdirs : DirsTo d.tree base ns := dirsTo_of_dir hparent
        have hmk : mkdir cwd d ⟨absolute, (s ++ ns.map .name) ++ [.name n], false⟩ =
            .ok (d.put (n :: (ns.reverse ++ base)) .dir) := by
          rw [mkdir_eq hnul, walk_append_found hs, walk_dirs hdirs]
          dsimp only
          rw [if_pos hparent, if_pos hnone]
        refine ⟨_, ?_, hput d hparent hnone ⟨hdirs, fun _ _ => rfl⟩⟩
        unfold ensureDir
        dsimp only
        rw [hmk]
      · obtain ⟨d₁, habove, hmade⟩ := ih hnul' hclear'
        have hmk : mkdir cwd d ⟨absolute, (s ++ ns.map .name) ++ [.name n], false⟩ =
            .error .noEnt := by
          obtain ⟨ms, m, rest, rfl, hms, hm⟩ := exists_stop hbase fun hdirs =>
            hparent (hdirs ns List.prefix_rfl)
          have hm : d.tree.node (m :: (ms.reverse ++ base)) = none := by
            have h := hclear' (ms ++ [m]) ⟨rest, by simp⟩
            rw [List.reverse_concat] at h
            exact h.resolve_left hm
          rw [mkdir_eq hnul, walk_append_found hs, walk_past_missing hms hm]
          by_cases hrest : rest = []
          · rw [if_pos hrest]
          · rw [if_neg hrest]
        have hno : d₁.tree.node (n :: (ns.reverse ++ base)) = none := by
          refine (hmade.2 _ fun m hm heq => ?_).trans hnone
          have hlen := congrArg List.length heq
          have hle := hm.length_le
          simp only [List.length_cons, List.length_append, List.length_reverse] at hlen
          omega
        have hdir := hmade.1 ns List.prefix_rfl
        have hwalk : walk d₁.tree maxLinks (start cwd ⟨absolute, [], false⟩) (s ++ ns.map .name) =
            .ok (.found (ns.reverse ++ base), k) := by
          rw [walk_append_found (walk_grows (hmade.grows hclear') hs), walk_dirs hmade.1]
        have hagain : mkdir cwd d₁ ⟨absolute, (s ++ ns.map .name) ++ [.name n], false⟩ =
            .ok (d₁.put (n :: (ns.reverse ++ base)) .dir) := by
          rw [mkdir_eq hnul, hwalk]
          dsimp only
          rw [if_pos hdir, if_pos hno]
        refine ⟨_, ?_, hput d₁ hdir hno hmade⟩
        unfold ensureDir
        dsimp only
        rw [hmk, habove]
        dsimp only
        rw [hagain]

/-- **Where a file is on the way, making directories fails.** -/
theorem createAbove_blocked (hnul : Plain (s ++ ns.map Seg.name))
    (hbase : d.tree.node base = some .dir) {ms : List String} {b : List UInt8} (hms : ms <+: ns)
    (hb : d.tree.node (ms.reverse ++ base) = some (.file b)) :
    (createAbove cwd absolute (s ++ ns.map Seg.name).reverse d).1 ≠ .ok () := by
  obtain ⟨r, n, rfl⟩ : ∃ r n, ms = r ++ [n] := by
    rcases List.eq_nil_or_concat' ms with rfl | ⟨r, n, rfl⟩
    · rw [List.reverse_nil, List.nil_append, hbase] at hb
      cases hb
    · exact ⟨r, n, rfl⟩
  obtain ⟨rest, rfl⟩ := hms
  rw [List.reverse_concat] at hb
  have hb : d.tree.node (n :: (r.reverse ++ base)) = some (.file b) := hb
  have hdirs : DirsTo d.tree base r := dirsTo_of_dir (d.tree.parent_dir n _ (by rw [hb]; nofun))
  -- the last directory that is asked for
  have hwalk : ∀ rest', walk d.tree maxLinks (start cwd ⟨absolute, [], false⟩)
      (s ++ (r ++ n :: rest').map .name) =
        if rest' = [] then .ok (.found (n :: (r.reverse ++ base)), k) else .error .notDir := by
    intro rest'
    rw [walk_append_found hs]
    exact walk_past_file hdirs hb
  obtain ⟨front, last, hfront⟩ : ∃ front last, r ++ [n] ++ rest = front ++ [last] :=
    ⟨_, _, (List.dropLast_append_getLast (by simp)).symm⟩
  have hsplit : s ++ (r ++ [n] ++ rest).map Seg.name = (s ++ front.map .name) ++ [.name last] := by
    rw [hfront, List.map_append, List.append_assoc]
    rfl
  have hnotDir : isDir d.tree cwd ⟨absolute, (s ++ front.map .name) ++ [.name last], false⟩ = false := by
    rw [Bool.eq_false_iff]
    intro his
    obtain ⟨q, k', hq, hqdir⟩ := (isDir_iff (hsplit ▸ hnul) (by simp)).1 his
    rw [← hsplit, List.append_assoc, List.singleton_append, hwalk rest] at hq
    split at hq
    next =>
      cases hq
      cases hqdir.symm.trans hb
    next => cases hq
  have hmk : ∃ e, e ≠ .noEnt ∧
      mkdir cwd d ⟨absolute, (s ++ front.map .name) ++ [.name last], false⟩ = .error e := by
    rw [mkdir_eq (hsplit ▸ hnul)]
    rcases List.eq_nil_or_concat' rest with rfl | ⟨rest', m, rfl⟩
    · -- the file itself
      rw [List.append_nil] at hfront
      obtain ⟨rfl, hlast⟩ := List.append_inj' hfront rfl
      obtain rfl := List.singleton_inj.1 hlast
      rw [walk_append_found hs, walk_dirs hdirs]
      dsimp only
      rw [if_pos (hdirs _ List.prefix_rfl), if_neg (by rw [hb]; nofun)]
      exact ⟨.exist, by decide, rfl⟩
    · rw [← List.append_assoc] at hfront
      obtain ⟨rfl, -⟩ := List.append_inj' hfront rfl
      rw [List.append_assoc, List.singleton_append, hwalk rest']
      refine ⟨.notDir, by decide, ?_⟩
      by_cases hrest : rest' = []
      · rw [if_pos hrest]
        dsimp only
        rw [if_neg (by rw [hb]; nofun)]
      · rw [if_neg hrest]
  obtain ⟨e, hne, hmk⟩ := hmk
  rw [hsplit, createAbove_concat]
  unfold ensureDir
  dsimp only
  rw [hmk]
  cases e with
  | noEnt => exact absurd rfl hne
  | notDir => dsimp only; rw [hnotDir]; nofun
  | loop => dsimp only; rw [hnotDir]; nofun
  | exist => dsimp only; rw [hnotDir]; nofun
  | isDir => dsimp only; rw [hnotDir]; nofun
  | inval => dsimp only; rw [hnotDir]; nofun

end Making

section There

variable {d : Disk} {cwd base : Place} {r : Path} {k : Nat}

/-- A path that leads to a directory already is no new name. -/
theorem mkdir_exist (hnul : r.hasNul = false) (hempty : r.isEmpty = false)
    (hwalk : walk d.tree maxLinks (start cwd r) r.segs = .ok (.found base, k)) :
    mkdir cwd d r = .error .exist := by
  unfold mkdir
  rw [if_neg (by rw [hnul]; simp)]
  rcases List.eq_nil_or_concat' r.segs with hsegs | ⟨s, x, hsegs⟩
  · rw [hsegs]
    have habs : r.absolute = true := by simpa [Path.isEmpty, hsegs] using hempty
    exact congrArg _ (if_pos habs)
  · rw [hsegs] at hwalk ⊢
    obtain ⟨q, k₁, hs, hq, hx⟩ := walk_prefix hwalk (by simp)
    rw [List.reverse_concat]
    dsimp only
    rw [List.reverse_reverse, hs]
    dsimp only
    rw [if_pos hq]
    cases x with
    | name n =>
      refine if_neg fun hn => ?_
      rw [walk_none hq hn, if_pos rfl] at hx
      cases hx
    | cur => rfl
    | up => rfl

/-- Nothing is made where the directory is there. -/
theorem createDirAll_there (hlookup : lookup d.tree cwd r = .ok (.found base, k))
    (hdir : d.tree.node base = some .dir) : createDirAll cwd d r = (.ok (), d) := by
  have hisDir : isDir d.tree cwd r = true := by
    unfold isDir stat
    rw [hlookup]
    exact decide_eq_true hdir
  unfold lookup at hlookup
  split at hlookup
  next => cases hlookup
  next hnul =>
    split at hlookup
    next => cases hlookup
    next hempty =>
      unfold createDirAll
      rw [if_neg hempty]
      unfold ensureDir
      rw [mkdir_exist (Bool.eq_false_iff.2 hnul) (Bool.eq_false_iff.2 hempty) (walk_segs hlookup)]
      dsimp only
      rw [if_pos hisDir]

end There

/-! ## §3. Layouts. -/

/-- Which names lead to which data. -/
abbrev Layout := List String → Option (List UInt8)

namespace Layout

variable (files : Layout) {ns ms : List String} {b : List UInt8}

/-- No files. -/
def empty : Layout := fun _ => none

/-- A file is at the names, or below them. -/
def Has (ns : List String) : Prop := ∃ m, files (ns ++ m) ≠ none

/-- A file fits at the names: nothing above is a file, and nothing is below. -/
structure Room (ns : List String) : Prop where
  named : ns ≠ []
  above : ∀ m, m <+: ns → m ≠ ns → files m = none
  below : ∀ m, m ≠ [] → files (ns ++ m) = none

/-- The layout with one more file, or other data for it. -/
def insert (ns : List String) (b : List UInt8) : Layout := Function.update files ns (some b)

/-- Neither is properly above the other. -/
def Apart (ns ms : List String) : Prop := (ns <+: ms → ns = ms) ∧ (ms <+: ns → ns = ms)

theorem Apart.rfl : Apart ns ns := ⟨fun _ => Eq.refl ns, fun _ => Eq.refl ns⟩

theorem Apart.symm (h : Apart ns ms) : Apart ms ns := ⟨fun hp => (h.2 hp).symm, fun hp => (h.1 hp).symm⟩

variable {files}

@[simp] theorem insert_self : files.insert ns b ns = some b := Function.update_self ..

theorem insert_of_ne (h : ms ≠ ns) : files.insert ns b ms = files ms := Function.update_of_ne h ..

theorem has_of_some (h : files ns = some b) : files.Has ns := by
  refine ⟨[], ?_⟩
  rw [List.append_nil, h]
  nofun

/-- What has room fits beside another file. -/
theorem room_insert : (files.insert ns b).Room ms ↔ files.Room ms ∧ Apart ns ms := by
  constructor
  · intro h
    -- what is free with the file is free without it
    have hold : ∀ m, files.insert ns b m = none → files m = none := by
      intro m hm
      by_cases heq : m = ns
      · rw [heq, insert_self] at hm
        cases hm
      · rwa [insert_of_ne heq] at hm
    refine ⟨⟨h.named, fun m hm hne => hold m (h.above m hm hne), fun m hne => hold _ (h.below m hne)⟩,
      fun hpre => ?_, fun hpre => ?_⟩
    · -- the file put in is itself a file above
      by_contra hne
      have hfile := h.above ns hpre hne
      rw [insert_self] at hfile
      cases hfile
    · obtain ⟨m, rfl⟩ := hpre
      by_contra hne
      have hfile := h.below m (by rintro rfl; exact hne (List.append_nil ms))
      rw [insert_self] at hfile
      cases hfile
  · rintro ⟨h, hto, hfrom⟩
    refine ⟨h.named, fun m hm hne => ?_, fun m hne => ?_⟩
    · rw [insert_of_ne (by rintro rfl; exact hne (hto hm))]
      exact h.above m hm hne
    · have hlen : ms ++ m ≠ ns := by
        intro heq
        have hself : ns = ms := hfrom ⟨m, heq⟩
        exact hne (List.append_right_eq_self.1 (heq.trans hself))
      rw [insert_of_ne hlen]
      exact h.below m hne

/-- The files fit one after the other. -/
def Fits : Layout → List (List String × List UInt8) → Prop
  | _, [] => True
  | files, (ns, b) :: rest => files.Room ns ∧ (files.insert ns b).Fits rest

/-- All of them put in. -/
def insertAll : Layout → List (List String × List UInt8) → Layout
  | files, [] => files
  | files, (ns, b) :: rest => (files.insert ns b).insertAll rest

/-- **Files fit one after the other** exactly when each has room at first, and no two are above one
another; the order does not matter. -/
theorem fits_iff {l : List (List String × List UInt8)} :
    files.Fits l ↔ (∀ e ∈ l, files.Room e.1) ∧ ∀ e ∈ l, ∀ e' ∈ l, Apart e.1 e'.1 := by
  induction l generalizing files with
  | nil => exact iff_of_true trivial ⟨fun e he => absurd he List.not_mem_nil, fun e he =>
      absurd he List.not_mem_nil⟩
  | cons e l ih =>
    obtain ⟨ns, b⟩ := e
    rw [Fits, ih]
    constructor
    · rintro ⟨hroom, hall, hpair⟩
      -- room after the first file is in is room before it, apart from the first
      have hapart : ∀ e ∈ l, Apart ns e.1 := fun e he => (room_insert.1 (hall e he)).2
      constructor
      · intro e he
        rcases List.mem_cons.1 he with rfl | he
        · exact hroom
        · exact (room_insert.1 (hall e he)).1
      · intro e he e' he'
        rcases List.mem_cons.1 he with rfl | he
        · rcases List.mem_cons.1 he' with rfl | he'
          · exact .rfl
          · exact hapart e' he'
        · rcases List.mem_cons.1 he' with rfl | he'
          · exact (hapart e he).symm
          · exact hpair e he e' he'
    · rintro ⟨hall, hpair⟩
      refine ⟨hall _ List.mem_cons_self, fun e he => room_insert.2 ⟨?_, ?_⟩, fun e he e' he' => ?_⟩
      · exact hall e (List.mem_cons_of_mem _ he)
      · exact hpair _ List.mem_cons_self e (List.mem_cons_of_mem _ he)
      · exact hpair e (List.mem_cons_of_mem _ he) e' (List.mem_cons_of_mem _ he')

/-- What was put in under distinct names is what is there. -/
theorem insertAll_eq_some {l : List (List String × List UInt8)} (hnodup : (l.map Prod.fst).Nodup) :
    files.insertAll l ns = some b ↔ (ns, b) ∈ l ∨ (ns ∉ l.map Prod.fst ∧ files ns = some b) := by
  induction l generalizing files with
  | nil => simp [insertAll]
  | cons e l ih =>
    obtain ⟨ms, c⟩ := e
    rw [List.map_cons, List.nodup_cons] at hnodup
    rw [insertAll, ih hnodup.2, List.map_cons, List.mem_cons, List.mem_cons]
    by_cases heq : ns = ms
    · subst heq
      have hnot : (ns, b) ∉ l := fun hmem => hnodup.1 (List.mem_map.2 ⟨(ns, b), hmem, rfl⟩)
      rw [insert_self]
      constructor
      · rintro (hmem | ⟨-, hsome⟩)
        · exact absurd hmem hnot
        · rw [Option.some.inj hsome]
          exact .inl (.inl rfl)
      · rintro ((hpair | hmem) | ⟨hne, -⟩)
        · rw [(Prod.mk.inj hpair).2]
          exact .inr ⟨hnodup.1, rfl⟩
        · exact absurd hmem hnot
        · exact absurd (.inl rfl) hne
    · rw [insert_of_ne heq]
      simp [heq]

end Layout

/-! ## §4. A tree that shows a layout. -/

/-- Below a directory there are the files of a layout, the directories on the way to them, and nothing
else. -/
structure Shown (t : FileTree) (base : Place) (files : Layout) : Prop where
  isDir : t.node base = some .dir
  file : ∀ ns b, files ns = some b → t.node (ns.reverse ++ base) = some (.file b)
  above : ∀ ns, files ns = none → files.Has ns → t.node (ns.reverse ++ base) = some .dir
  nothing : ∀ ns, ns ≠ [] → ¬files.Has ns → t.node (ns.reverse ++ base) = none

section Showing

variable {t : FileTree} {d d₁ : Disk} {cwd base : Place} {files : Layout} {ns : List String}
  {last : String} {b : List UInt8} {m : List String}

/-- An empty directory shows no files. -/
theorem shown_empty (hbase : t.node base = some .dir) (hnone : ∀ n, t.node (n :: base) = none) :
    Shown t base .empty where
  isDir := hbase
  file _ _ h := nomatch h
  above _ _ h := absurd rfl h.choose_spec
  nothing ns hne hno := by
    clear hno
    induction ns using List.reverseRecOn with
    | nil => exact absurd rfl hne
    | append_singleton ns n ih =>
      rw [List.reverse_concat]
      by_cases hns : ns = []
      · rw [hns]
        exact hnone n
      · exact FileTree.node_below (ih hns) n

theorem not_prefix_of_longer (hm : m <+: ns) : m ≠ ns ++ [last] := by
  intro heq
  have hlen := hm.length_le
  rw [heq, List.length_append, List.length_singleton] at hlen
  omega

/-- Where a file fits, the way to it is clear. -/
theorem Shown.clearTo (h : Shown t base files) (hroom : files.Room (ns ++ [last])) :
    ClearTo t base ns := by
  intro m hm
  have hfile : files m = none :=
    hroom.above m (hm.trans (List.prefix_append ns [last])) (not_prefix_of_longer hm)
  by_cases hhas : files.Has m
  · exact .inl (h.above m hfile hhas)
  · by_cases hnil : m = []
    · rw [hnil]
      exact .inl h.isDir
    · exact .inr (h.nothing m hnil hhas)

/-- Where a file fits, there is a file or nothing. -/
theorem Shown.node_room (h : Shown t base files) {ms : List String} (hroom : files.Room ms) :
    (∃ c, t.node (ms.reverse ++ base) = some (.file c)) ∨ t.node (ms.reverse ++ base) = none := by
  cases hfile : files ms with
  | some c => exact .inl ⟨c, h.file _ c hfile⟩
  | none =>
    refine .inr (h.nothing ms hroom.named ?_)
    rintro ⟨m, hm⟩
    by_cases hnil : m = []
    · rw [hnil, List.append_nil, hfile] at hm
      exact hm rfl
    · exact hm (hroom.below m hnil)

/-- No links are below. -/
theorem Shown.no_links (h : Shown t base files) {p : Place} (hp : base <:+ p) (l : Path) :
    t.node p ≠ some (.link l) := by
  obtain ⟨ns, rfl⟩ := hp
  intro hl
  rw [← List.reverse_reverse ns] at hl
  by_cases hhas : files.Has ns.reverse
  · cases hfile : files ns.reverse with
    | some b => cases hl.symm.trans (h.file _ b hfile)
    | none => cases hl.symm.trans (h.above _ hfile hhas)
  · by_cases hnil : ns.reverse = []
    · rw [hnil] at hl
      cases hl.symm.trans h.isDir
    · cases hl.symm.trans (h.nothing _ hnil hhas)

/-- The names of a file lead down to it. -/
theorem Shown.walk_file (h : Shown t base files) (hfile : files (ns ++ [last]) = some b) {k : Nat} :
    walk t k base (ns.map .name ++ [.name last]) =
      .ok (.found ((ns ++ [last]).reverse ++ base), k) := by
  have hnode := h.file _ b hfile
  rw [List.reverse_concat] at hnode
  have hnode : t.node (last :: (ns.reverse ++ base)) = some (.file b) := hnode
  have hdir : t.node (ns.reverse ++ base) = some .dir := by
    refine t.parent_dir last _ ?_
    rw [hnode]
    nofun
  rw [walk_append_found (walk_dirs (dirsTo_of_dir hdir)), walk_some hdir hnode (by simp), walk_nil,
    List.reverse_concat]
  rfl

theorem reverse_append_inj {ms : List String} :
    ns.reverse ++ base = ms.reverse ++ base ↔ ns = ms := by
  rw [List.append_left_inj, List.reverse_inj]

/-- Making the directories on the way leaves what is at the end of it. -/
theorem MadeTo.node_end (hmade : MadeTo d.tree d₁.tree base ns) (n : String) :
    d₁.tree.node (n :: (ns.reverse ++ base)) = d.tree.node ((ns ++ [n]).reverse ++ base) := by
  have hplace : n :: (ns.reverse ++ base) = (ns ++ [n]).reverse ++ base := by
    rw [List.reverse_concat]
    rfl
  rw [hplace]
  exact hmade.2 _ fun m hm heq => not_prefix_of_longer hm (reverse_append_inj.1 heq).symm

/-- What is where, after a file was put at the end of the way. -/
theorem Shown.node_put (h : Shown d.tree base files) (hroom : files.Room (ns ++ [last]))
    (hmade : MadeTo d.tree d₁.tree base ns) (p : Place) :
    (d₁.put (last :: (ns.reverse ++ base)) (.file b)).tree.node p =
      if p = (ns ++ [last]).reverse ++ base then some (.file b) else d₁.tree.node p := by
  have hnew : d₁.tree.node (last :: (ns.reverse ++ base)) ≠ some .dir := by
    rw [hmade.node_end]
    rcases h.node_room hroom with ⟨c, hc⟩ | hnone
    · rw [hc]
      nofun
    · rw [hnone]
      nofun
  rw [List.reverse_concat]
  exact FileTree.node_put _ (hmade.1 ns List.prefix_rfl) hnew p

/-- **One more file**: the directories on the way, then the file. -/
theorem Shown.put (h : Shown d.tree base files) (hroom : files.Room (ns ++ [last]))
    (hmade : MadeTo d.tree d₁.tree base ns) :
    Shown (d₁.put (last :: (ns.reverse ++ base)) (.file b)).tree base
      (files.insert (ns ++ [last]) b) := by
  -- what is not on the way to the file is as it was
  have hstill : ∀ m, ¬m <+: ns → d₁.tree.node (m.reverse ++ base) = d.tree.node (m.reverse ++ base) := by
    intro m hm
    refine hmade.2 _ fun m' hm' heq => hm ?_
    rwa [reverse_append_inj.1 heq]
  have hnode : ∀ m, (d₁.put (last :: (ns.reverse ++ base)) (.file b)).tree.node (m.reverse ++ base) =
      if m = ns ++ [last] then some (.file b) else d₁.tree.node (m.reverse ++ base) := by
    intro m
    rw [h.node_put hroom hmade]
    simp only [reverse_append_inj]
  -- the base, the files, what is above a file, and that there is nothing else
  refine ⟨?_, fun m c hm => ?_, fun m hm hhas => ?_, fun m hne hno => ?_⟩
  · have hbase := hnode []
    rw [if_neg (not_prefix_of_longer List.nil_prefix)] at hbase
    exact hbase.trans (hmade.1 [] List.nil_prefix)
  · rw [hnode]
    by_cases heq : m = ns ++ [last]
    · rw [heq, Layout.insert_self] at hm
      rw [if_pos heq, Option.some.inj hm]
    · rw [Layout.insert_of_ne heq] at hm
      -- an old file is not on the way: there is room for the new one
      have hnot : ¬m <+: ns := by
        intro hpre
        rw [hroom.above m (hpre.trans (List.prefix_append ns [last])) heq] at hm
        cases hm
      rw [if_neg heq, hstill m hnot]
      exact h.file m c hm
  · have heq : m ≠ ns ++ [last] := by
      rintro rfl
      rw [Layout.insert_self] at hm
      cases hm
    rw [Layout.insert_of_ne heq] at hm
    rw [hnode, if_neg heq]
    by_cases hpre : m <+: ns
    · exact hmade.1 m hpre
    · rw [hstill m hpre]
      refine h.above m hm ?_
      obtain ⟨m', hm'⟩ := hhas
      refine ⟨m', fun hold => ?_⟩
      by_cases hsame : m ++ m' = ns ++ [last]
      · -- what is above the new file is on the way to it
        rcases List.prefix_concat_iff.1 ⟨m', hsame⟩ with h | h
        · exact heq h
        · exact hpre h
      · rw [Layout.insert_of_ne hsame] at hm'
        exact hm' hold
  · have heq : m ≠ ns ++ [last] := by
      rintro rfl
      exact hno (Layout.has_of_some Layout.insert_self)
    have hpre : ¬m <+: ns := by
      rintro ⟨m', rfl⟩
      exact hno ⟨m' ++ [last], by rw [← List.append_assoc, Layout.insert_self]; nofun⟩
    rw [hnode, if_neg heq, hstill m hpre]
    refine h.nothing m hne ?_
    rintro ⟨m', hm'⟩
    refine hno ⟨m', ?_⟩
    by_cases hsame : m ++ m' = ns ++ [last]
    · rw [hsame, Layout.insert_self]
      nofun
    · rwa [Layout.insert_of_ne hsame]

end Showing

/-! ## §5. Files put there by calls. -/

/-- What one more file did to the disk. -/
structure Laid (d d' : Disk) (base : Place) (files : Layout) : Prop where
  shown : Shown d'.tree base files
  grows : d.tree.Grows d'.tree
  outside : ∀ p, ¬base <:+ p → d'.tree.node p = d.tree.node p

theorem Laid.refl {d : Disk} {base : Place} {files : Layout} (h : Shown d.tree base files) :
    Laid d d base files := ⟨h, .refl, fun _ _ => rfl⟩

theorem Laid.trans {d d₁ d' : Disk} {base : Place} {files files' : Layout}
    (h : Laid d d₁ base files) (h' : Laid d₁ d' base files') : Laid d d' base files' :=
  ⟨h'.shown, h.grows.trans h'.grows, fun p hp => (h'.outside p hp).trans (h.outside p hp)⟩

section Calls

variable {d d₁ : Disk} {cwd base : Place} {q : Path} {s₁ s₂ : List Seg} {k : Nat} {files : Layout}
  {ns : List String} {last : String} {b : List UInt8}

variable (hlookup : ∀ t, lookup t cwd q = walk t maxLinks (start cwd q)
    (s₁ ++ (ns.map .name ++ [.name last])))
  (h₁ : walk d.tree maxLinks (start cwd q) s₁ = .ok (.found base, k))
  (h₂ : walk d.tree maxLinks (start cwd q) s₂ = .ok (.found base, k))
  (hnul : Plain (s₂ ++ ns.map .name))

include hlookup h₁ h₂ hnul

/-- **Where there is room for it, a file is put there.** -/
theorem Shown.put_ok (h : Shown d.tree base files) (hroom : files.Room (ns ++ [last])) : ∃ d₁ d₂,
    createAbove cwd q.absolute (s₂ ++ ns.map Seg.name).reverse d = (.ok (), d₁) ∧
      write cwd d₁ q b = .ok d₂ ∧ Laid d d₂ base (files.insert (ns ++ [last]) b) := by
  -- no file lies above, so the directories above can be made, and the walk goes through them
  have hclear := h.clearTo hroom
  obtain ⟨d₁, habove, hmade⟩ := createAbove_clear h₂ hnul h.isDir hclear
  have hgrows := hmade.grows hclear
  have hdir : d₁.tree.node (ns.reverse ++ base) = some .dir := hmade.1 ns List.prefix_rfl
  have hwalk : ∀ rest, walk d₁.tree maxLinks (start cwd q) (s₁ ++ (ns.map .name ++ rest)) =
      walk d₁.tree k (ns.reverse ++ base) rest := by
    intro rest
    rw [walk_append_found (walk_grows hgrows h₁), walk_append_found (walk_dirs hmade.1)]
  have hsame := hmade.node_end last
  refine ⟨d₁, d₁.put (last :: (ns.reverse ++ base)) (.file b), habove, ?_, h.put hroom hmade, ?_, ?_⟩
  · unfold write
    rw [hlookup, hwalk]
    -- over a file of that name, or where nothing is
    rcases h.node_room hroom with ⟨c, hc⟩ | hnone
    · rw [walk_some hdir (hsame.trans hc) (by simp), walk_nil]
      dsimp only
      rw [hsame, hc]
    · rw [walk_none hdir (hsame.trans hnone), if_pos rfl]
  · refine hgrows.trans ?_
    rcases h.node_room hroom with ⟨c, hc⟩ | hnone
    · exact FileTree.grows_rewrite (hsame.trans hc)
    · exact FileTree.grows_put hdir (hsame.trans hnone)
  · intro p hp
    rw [h.node_put hroom hmade, if_neg (by rintro rfl; exact hp (List.suffix_append _ _))]
    refine hmade.2 p fun m hm heq => hp ?_
    rw [heq]
    exact List.suffix_append _ _

/-- **Where there is none, the calls fail.** -/
theorem Shown.put_fails (h : Shown d.tree base files) (hroom : ¬files.Room (ns ++ [last]))
    (hmade : createAbove cwd q.absolute (s₂ ++ ns.map Seg.name).reverse d = (.ok (), d₁)) :
    ∃ e, write cwd d₁ q b = .error e := by
  by_cases hblocked : ∃ m, m <+: ns ∧ files m ≠ none
  · obtain ⟨m, hm, hfile⟩ := hblocked
    obtain ⟨c, hc⟩ := Option.ne_none_iff_exists'.1 hfile
    have hfails := createAbove_blocked h₂ hnul h.isDir hm (h.file m c hc)
    rw [hmade] at hfails
    exact absurd rfl hfails
  · -- the name itself is a directory
    have habove : ∀ m, m <+: ns ++ [last] → m ≠ ns ++ [last] → files m = none := by
      intro m hm hne
      by_contra hfile
      exact hblocked ⟨m, (List.prefix_concat_iff.1 hm).resolve_left hne, hfile⟩
    obtain ⟨m, hne, hfile⟩ : ∃ m, m ≠ [] ∧ files (ns ++ [last] ++ m) ≠ none := by
      by_contra hnone
      exact hroom ⟨by simp, habove, fun m hne => not_not.1 fun hfile => hnone ⟨m, hne, hfile⟩⟩
    obtain ⟨c, hc⟩ := Option.ne_none_iff_exists'.1 hfile
    obtain ⟨m', x, rfl⟩ := (List.eq_nil_or_concat' m).resolve_left hne
    have hnode := h.file _ c hc
    rw [← List.append_assoc, List.reverse_concat] at hnode
    have hdir : d.tree.node ((ns ++ [last] ++ m').reverse ++ base) = some .dir :=
      d.tree.parent_dir x _ (by rw [show x :: ((ns ++ [last] ++ m').reverse ++ base) =
        x :: (ns ++ [last] ++ m').reverse ++ base from rfl, hnode]; nofun)
    have hdirs : DirsTo d.tree base (ns ++ [last]) :=
      (dirsTo_of_dir hdir).upTo (List.prefix_append _ _)
    have hns : DirsTo d.tree base ns := hdirs.upTo (List.prefix_append _ _)
    have hthere : createAbove cwd q.absolute (s₂ ++ ns.map Seg.name).reverse d = (.ok (), d) := by
      have hwalk : walk d.tree maxLinks (start cwd q) (s₂ ++ ns.map .name) =
          .ok (.found (ns.reverse ++ base), k) := by
        rw [walk_append_found h₂, walk_dirs hns]
      exact createAbove_found hnul hwalk (hns ns List.prefix_rfl)
    obtain rfl : d = d₁ := (Prod.mk.inj (hthere.symm.trans hmade)).2
    refine ⟨.isDir, ?_⟩
    unfold write
    rw [hlookup, walk_append_found h₁,
      show ns.map Seg.name ++ [.name last] = (ns ++ [last]).map .name by simp, walk_dirs hdirs]
    dsimp only
    rw [hdirs _ List.prefix_rfl]

end Calls

end Posix

/-
  Soal.Runs.RelatedMerge — merging a head that is related to HEAD by ancestry.

  A merge compares the trees of the two tips and nothing else.  A path that only one side changed since
  an ancestor diverges just like one that both changed, so a head that is behind HEAD, or ahead of it,
  is taken for a conflict as soon as an entry of the older tree was changed or removed.  The paths that
  get a conflict copy are told from the two trees alone.
-/
import Soal.Runs.SavedTree
import Soal.Vault.ProvideAll

namespace Soal

open FileProg

/-! ## §1. The paths that get a conflict copy. -/

/-- Both trees have the path, with different entries. -/
def Tree.Diverge (ours theirs : Tree) (path : String) : Prop :=
  ∃ e t, ours.entries.get? path = some e ∧ theirs.entries.get? path = some t ∧ e ≠ t

/-- Every entry of the tree is one of the other. -/
def Tree.EntriesIn (t t' : Tree) : Prop := t.All fun path entry => t'.entries.get? path = some entry

/-- The paths for which a merge of these entries writes a conflict copy, in its order. -/
def conflictPaths (label : String) : Tree × Nat → List (String × TreeEntry) → List String
  | _, [] => []
  | acc, x :: rest =>
    let later := conflictPaths label (Tree.mergeEntry label acc x) rest
    match acc.1.entries.get? x.1 with
    | none => later
    | some e => if e = x.2 then later else x.1 :: later

/-- A path of theirs gets a copy when another entry stands there: the copy of an earlier path of theirs
that got one and whose conflict name this path is, and else the entry of ours. -/
def Tree.GetsCopy (ours theirs : Tree) (fromLabel path : String) : Prop :=
  ConflictMerge.GetsCopy (conflictCopy fromLabel) ours.entries.get? theirs.entries.entries path

/-- No path of theirs is the name of a conflict copy. -/
def Tree.CopyNamesFree (ours theirs : Tree) (fromLabel : String) : Prop :=
  ∀ path, ours.Diverge theirs path → theirs.entries.get? (conflictCopy fromLabel path) = none

section Paths

variable {label : String} {acc : Tree × Nat} {x : String × TreeEntry}
  {l : List (String × TreeEntry)} {ours theirs : Tree}

/-- The three ways the merge of an entry goes. -/
theorem mergeEntry_cases (label : String) (acc : Tree × Nat) (x : String × TreeEntry)
    (l : List (String × TreeEntry)) :
    (acc.1.entries.get? x.1 = none ∧
      Tree.mergeEntry label acc x = (⟨acc.1.entries.insert x.1 x.2⟩, acc.2) ∧
      conflictPaths label acc (x :: l) = conflictPaths label (Tree.mergeEntry label acc x) l) ∨
    (acc.1.entries.get? x.1 = some x.2 ∧ Tree.mergeEntry label acc x = acc ∧
      conflictPaths label acc (x :: l) = conflictPaths label (Tree.mergeEntry label acc x) l) ∨
    ∃ e, acc.1.entries.get? x.1 = some e ∧ e ≠ x.2 ∧
      Tree.mergeEntry label acc x =
        (⟨acc.1.entries.insert (conflictPathName x.1 label) x.2⟩, acc.2 + 1) ∧
      conflictPaths label acc (x :: l) = x.1 :: conflictPaths label (Tree.mergeEntry label acc x) l := by
  cases hget : acc.1.entries.get? x.1 with
  | none =>
    refine .inl ⟨rfl, ?_, ?_⟩
    · simp only [Tree.mergeEntry, hget]
    · simp only [conflictPaths, hget]
  | some e =>
    by_cases he : e = x.2
    · subst he
      refine .inr (.inl ⟨rfl, ?_, ?_⟩)
      · simp only [Tree.mergeEntry, hget, if_true]
      · simp only [conflictPaths, hget, if_true]
    · refine .inr (.inr ⟨e, rfl, he, ?_, ?_⟩)
      · simp only [Tree.mergeEntry, hget, if_neg he]
      · simp only [conflictPaths, hget, if_neg he]

/-- The merge counts these paths. -/
theorem foldl_mergeEntry_count (label : String) (l : List (String × TreeEntry)) (acc : Tree × Nat) :
    (l.foldl (Tree.mergeEntry label) acc).2 = acc.2 + (conflictPaths label acc l).length := by
  induction l generalizing acc with
  | nil => rfl
  | cons x l ih =>
    rw [List.foldl_cons, ih]
    rcases mergeEntry_cases label acc x l with ⟨-, hm, hc⟩ | ⟨-, hm, hc⟩ | ⟨e, -, -, hm, hc⟩
    · rw [hc, hm]
    · rw [hc, hm]
    · rw [hc, hm, List.length_cons]
      omega

theorem mergeWithConflicts_count (ours theirs : Tree) (fromLabel : String) :
    (ours.mergeWithConflicts theirs fromLabel).2 =
      (conflictPaths (sanitizeConflictLabel fromLabel) (ours, 0) theirs.entries.entries).length := by
  unfold Tree.mergeWithConflicts
  rw [foldl_mergeEntry_count]
  exact Nat.zero_add _

/-- **The paths that get a copy,** for all trees: the induction is on the entries left, with the tree
merged so far. -/
theorem mem_conflictPaths_iff {fromLabel path : String} :
    path ∈ conflictPaths (sanitizeConflictLabel fromLabel) (ours, 0) theirs.entries.entries ↔
      ours.GetsCopy theirs fromLabel path := by
  have hlist : ∀ (l pre : List (String × TreeEntry)) (acc : Tree × Nat),
      theirs.entries.entries = pre ++ l →
      acc.1.entries.get? = ConflictMerge.merge (conflictCopy fromLabel) ours.entries.get? pre →
      (path ∈ conflictPaths (sanitizeConflictLabel fromLabel) acc l ↔
        (∃ y ∈ l, y.1 = path) ∧ ours.GetsCopy theirs fromLabel path) := by
    intro l
    induction l with
    | nil =>
      intro pre acc _ _
      simp [conflictPaths]
    | cons x l ih =>
      intro pre acc hsplit hacc
      have hrest := ih (pre ++ [x]) (Tree.mergeEntry (sanitizeConflictLabel fromLabel) acc x)
        (by rw [hsplit, List.append_assoc, List.singleton_append])
        (by rw [mergeEntry_get?, hacc, ConflictMerge.merge, ConflictMerge.merge, List.foldl_append,
              List.foldl_cons, List.foldl_nil])
      have hx : ours.GetsCopy theirs fromLabel x.1 ↔ ∃ e, acc.1.entries.get? x.1 = some e ∧ e ≠ x.2 := by
        rw [hacc]
        exact ConflictMerge.getsCopy_iff (conflictPathName_injective fromLabel) theirs.entries.sorted
          hsplit
      -- a path that gets no copy is one of the later ones
      have hskip : ¬ours.GetsCopy theirs fromLabel x.1 →
          ((∃ y ∈ l, y.1 = path) ∧ ours.GetsCopy theirs fromLabel path ↔
            (∃ y ∈ x :: l, y.1 = path) ∧ ours.GetsCopy theirs fromLabel path) := by
        intro hno
        constructor
        · rintro ⟨⟨y, hy, hpath⟩, hgets⟩
          exact ⟨⟨y, List.mem_cons_of_mem _ hy, hpath⟩, hgets⟩
        · rintro ⟨⟨y, hy, rfl⟩, hgets⟩
          rcases List.mem_cons.1 hy with rfl | hy
          · exact absurd hgets hno
          · exact ⟨⟨y, hy, rfl⟩, hgets⟩
      rcases mergeEntry_cases (sanitizeConflictLabel fromLabel) acc x l with
        ⟨hnone, -, hc⟩ | ⟨hsame, -, hc⟩ | ⟨e, he, hne, -, hc⟩
      · rw [hc, hrest]
        refine hskip fun hgets => ?_
        obtain ⟨e, he, -⟩ := hx.1 hgets
        cases hnone.symm.trans he
      · rw [hc, hrest]
        refine hskip fun hgets => ?_
        obtain ⟨e, he, hne⟩ := hx.1 hgets
        exact hne (Option.some.inj (he.symm.trans hsame))
      · have hgets : ours.GetsCopy theirs fromLabel x.1 := hx.2 ⟨e, he, hne⟩
        rw [hc, List.mem_cons, hrest]
        constructor
        · rintro (rfl | ⟨⟨y, hy, hpath⟩, hp⟩)
          · exact ⟨⟨x, List.mem_cons_self, rfl⟩, hgets⟩
          · exact ⟨⟨y, List.mem_cons_of_mem _ hy, hpath⟩, hp⟩
        · rintro ⟨⟨y, hy, rfl⟩, hp⟩
          rcases List.mem_cons.1 hy with rfl | hy
          · exact .inl rfl
          · exact .inr ⟨⟨y, hy, rfl⟩, hp⟩
  rw [hlist theirs.entries.entries [] (ours, 0) rfl rfl]
  constructor
  · exact fun h => h.2
  · intro hgets
    obtain ⟨e, t, -, ht, -⟩ := id hgets
    exact ⟨⟨(path, t), ht, rfl⟩, hgets⟩

theorem Tree.Diverge.getsCopy {fromLabel path : String} (hd : ours.Diverge theirs path)
    (hfirst : ∀ q, ours.GetsCopy theirs fromLabel q → conflictCopy fromLabel q ≠ path) :
    ours.GetsCopy theirs fromLabel path := by
  obtain ⟨e, t, he, ht, hne⟩ := hd
  have hmem : (path, t) ∈ theirs.entries.entries := SortedMap.mem_entries.2 ht
  obtain ⟨pre, rest, hsplit⟩ := List.append_of_mem hmem
  have hfound : ConflictMerge.Found (conflictCopy fromLabel) ours.entries.get? theirs.entries.entries path
      (ConflictMerge.merge (conflictCopy fromLabel) ours.entries.get? pre path) :=
    (ConflictMerge.found_iff (conflictPathName_injective fromLabel) theirs.entries.sorted hsplit).2 rfl
  refine ⟨e, t, ?_, hmem, hne⟩
  rw [← he, ← hfound.eq_ours hfirst]
  exact hfound

/-- **With free copy names** the paths that get a copy are those on which the trees diverge. -/
theorem getsCopy_iff_diverge {fromLabel : String} (hfree : ours.CopyNamesFree theirs fromLabel)
    (path : String) : ours.GetsCopy theirs fromLabel path ↔ ours.Diverge theirs path := by
  -- what is found at a path of theirs is ours: a copy there would stand on the name of one
  have hours : ∀ p v t, ConflictMerge.Found (conflictCopy fromLabel) ours.entries.get?
      theirs.entries.entries p v → theirs.entries.get? p = some t → v = ours.entries.get? p := by
    intro p v t hfound ht
    induction hfound generalizing t with
    | ours => rfl
    | passed => rfl
    | copied hq hs hlt hne ih =>
      have hq := SortedMap.mem_entries.1 hs
      have hnone := hfree _ ⟨_, _, (ih _ hq).symm, hq, hne⟩
      cases hnone.symm.trans ht
  constructor
  · rintro ⟨e, t, hfound, ht, hne⟩
    have ht := SortedMap.mem_entries.1 ht
    exact ⟨e, t, (hours _ _ _ hfound ht).symm, ht, hne⟩
  · intro hd
    obtain ⟨e, t, -, ht, -⟩ := id hd
    refine hd.getsCopy fun q hq heq => ?_
    obtain ⟨e', s, hfound, hs, hne⟩ := hq
    have hs := SortedMap.mem_entries.1 hs
    have hnone := hfree q ⟨e', s, (hours _ _ _ hfound hs).symm, hs, hne⟩
    rw [heq] at hnone
    cases hnone.symm.trans ht

/-- No copy is written exactly when the trees diverge nowhere. -/
theorem conflictPaths_eq_nil_iff {fromLabel : String} :
    conflictPaths (sanitizeConflictLabel fromLabel) (ours, 0) theirs.entries.entries = [] ↔
      ∀ path, ¬ours.Diverge theirs path := by
  rw [List.eq_nil_iff_forall_not_mem]
  simp only [mem_conflictPaths_iff]
  constructor
  · intro hno path hd
    exact hno path (hd.getsCopy fun q hq => absurd hq (hno q))
  · intro hno path hgets
    have hfree : ours.CopyNamesFree theirs fromLabel := fun path hd => absurd hd (hno path)
    exact hno path ((getsCopy_iff_diverge hfree path).1 hgets)

theorem merge_count_zero_iff {fromLabel : String} :
    (ours.mergeWithConflicts theirs fromLabel).2 = 0 ↔ ∀ path, ¬ours.Diverge theirs path := by
  rw [mergeWithConflicts_count, List.length_eq_zero_iff, conflictPaths_eq_nil_iff]

/-- Trees that diverge nowhere are laid over each other. -/
theorem merge_get?_of_agree (fromLabel : String) (hno : ∀ path, ¬ours.Diverge theirs path)
    (path : String) : (ours.mergeWithConflicts theirs fromLabel).1.entries.get? path =
      (ours.entries.get? path).or (theirs.entries.get? path) := by
  have hnc : ∀ p, ¬ConflictMerge.Conflicting (conflictCopy fromLabel) ours.entries.get?
      theirs.entries.entries p := by
    intro p hp
    induction hp with
    | ours ho ht hne => exact hno _ ⟨_, _, ho, SortedMap.mem_entries.1 ht, hne⟩
    | copy _ _ _ _ _ _ ih => exact ih
  have hm := ConflictMerge.merged_prefix (conflictPathName_injective fromLabel) theirs.entries.sorted
    theirs.entries.entries [] (List.append_nil _).symm fun p _ _ hp => absurd hp (hnc p)
  rw [mergeWithConflicts_get?]
  cases ho : ours.entries.get? path with
  | some e => exact hm.kept path e ho
  | none =>
    cases ht : theirs.entries.get? path with
    | some t => exact hm.added path t (SortedMap.mem_entries.2 ht) ho fun p _ _ hp => absurd hp (hnc p)
    | none =>
      refine hm.free path ho (fun t hmem => ?_) fun p _ _ hp => absurd hp (hnc p)
      cases ht.symm.trans (SortedMap.mem_entries.1 hmem)

theorem Tree.ext_get {t t' : Tree} (h : ∀ path, t.entries.get? path = t'.entries.get? path) :
    t = t' := by
  obtain ⟨m⟩ := t
  obtain ⟨m'⟩ := t'
  exact congrArg Tree.mk (SortedMap.ext_get h)

/-- **The merge is ours, without a conflict,** exactly when theirs has nothing else. -/
theorem merge_eq_ours_iff (fromLabel : String) :
    (ours.mergeWithConflicts theirs fromLabel).2 = 0 ∧
        (ours.mergeWithConflicts theirs fromLabel).1 = ours ↔ theirs.EntriesIn ours := by
  rw [merge_count_zero_iff]
  constructor
  · rintro ⟨hno, heq⟩ path t ht
    have hget := merge_get?_of_agree fromLabel hno path
    rw [heq] at hget
    cases ho : ours.entries.get? path with
    | none =>
      rw [ho, ht] at hget
      cases hget
    | some e =>
      by_contra hne
      exact hno path ⟨e, t, ho, ht, fun he => hne (congrArg some he)⟩
  · intro hin
    have hno : ∀ path, ¬ours.Diverge theirs path := by
      rintro path ⟨e, t, ho, ht, hne⟩
      exact hne (Option.some.inj (ho.symm.trans (hin path t ht)))
    refine ⟨hno, Tree.ext_get fun path => ?_⟩
    rw [merge_get?_of_agree fromLabel hno]
    cases ho : ours.entries.get? path with
    | some e => rfl
    | none =>
      cases ht : theirs.entries.get? path with
      | none => rfl
      | some t => cases ho.symm.trans (hin path t ht)

/-- **The merge is theirs, without a conflict,** exactly when ours has nothing else. -/
theorem merge_eq_theirs_iff (fromLabel : String) :
    (ours.mergeWithConflicts theirs fromLabel).2 = 0 ∧
        (ours.mergeWithConflicts theirs fromLabel).1 = theirs ↔ ours.EntriesIn theirs := by
  rw [merge_count_zero_iff]
  constructor
  · rintro ⟨hno, heq⟩ path e ho
    have hget := merge_get?_of_agree fromLabel hno path
    rw [heq, ho] at hget
    exact hget
  · intro hin
    have hno : ∀ path, ¬ours.Diverge theirs path := by
      rintro path ⟨e, t, ho, ht, hne⟩
      exact hne (Option.some.inj ((hin path e ho).symm.trans ht))
    refine ⟨hno, Tree.ext_get fun path => ?_⟩
    rw [merge_get?_of_agree fromLabel hno]
    cases ho : ours.entries.get? path with
    | none => rfl
    | some e => exact (hin path e ho).symm

end Paths

/-! ## §2. What a merge with a related head should leave. -/

section Laws

variable [Crates]

/-- The tree of a commit. -/
def TreeOf (fs : VaultFs) (c : ContentHash) (t : Tree) : Prop :=
  ∃ k, ReadM.eval fs (loadCommit c) = .ok k ∧ ReadM.eval fs (loadTree k.tree) = .ok t

/-- The histories of two commits part here: no later commit is an ancestor of both. -/
structure PartAt (fs : VaultFs) (h r b : ContentHash) : Prop where
  left : Reach fs h b
  right : Reach fs r b
  latest : ∀ b', Reach fs h b' → Reach fs r b' → Reach fs b' b → b' = b

/-- Both sides changed the path since. -/
def ChangedOnBoth (base ours theirs : Tree) (path : String) : Prop :=
  ours.entries.get? path ≠ base.entries.get? path ∧
    theirs.entries.get? path ≠ base.entries.get? path

/-- After a merge of `r` into the HEAD `h`, with `n` conflicts: a head behind HEAD changes nothing, a
head ahead of HEAD is taken over. -/
structure SettlesRelated (fs fs' : VaultFs) (h r : ContentHash) (n : Nat) : Prop where
  behind : Reach fs h r → n = 0 ∧ ∃ t, TreeOf fs h t ∧ ReadM.eval fs' headTree = .ok t
  ahead : Reach fs r h → n = 0 ∧ ∃ t, TreeOf fs r t ∧ ReadM.eval fs' headTree = .ok t

/-- The later of the two trees still has every entry of the earlier one as it was, and valid paths. -/
structure OnlyAdded (fs : VaultFs) (h r : ContentHash) : Prop where
  behind : Reach fs h r → ∀ t t', TreeOf fs r t → TreeOf fs h t' → t.EntriesIn t' ∧ t'.PathsValid
  ahead : Reach fs r h → ∀ t t', TreeOf fs h t → TreeOf fs r t' → t.EntriesIn t' ∧ t'.PathsValid

section Merge

variable {fs : VaultFs} {v : Vault} {env : Outside} {h r m : ContentHash} {label : String} {n : Nat}
  {w' : VaultWorld} {ours theirs : Tree}

theorem TreeOf.unique {c : ContentHash} {t t' : Tree} (ht : TreeOf fs c t) (ht' : TreeOf fs c t') :
    t = t' := by
  obtain ⟨k, hk, htr⟩ := ht
  obtain ⟨k', hk', htr'⟩ := ht'
  obtain rfl := Except.ok.inj (hk.symm.trans hk')
  exact Except.ok.inj (htr.symm.trans htr')

theorem eval_treeOfHead_iff : ReadM.eval fs (treeOfHead (some h)) = .ok ours ↔ TreeOf fs h ours := by
  unfold treeOfHead
  rw [ReadM.eval_bind]
  exact bind_ok_iff

/-- A merge that succeeds has loaded both trees, and returns the number of their conflicts. -/
theorem Vault.wp_mergeHead_trees (v : Vault) (env : Outside) (r : ContentHash) (label : String)
    (w : VaultWorld) : wp env (fun _ => True) (v.mergeHead r label) (fun res _ => ∀ m n,
      res = .ok (m, n) → ∃ theirs l ours, TreeOf w.fs r theirs ∧ ReadM.eval w.fs head = .ok l ∧
        ReadM.eval w.fs (treeOfHead l) = .ok ours ∧
        n = (ours.mergeWithConflicts theirs label).2) w := by
  unfold Vault.mergeHead
  refine wp_read trivial (fun _ _ => ?_) (fun e _ m n hr => by cases hr)
  refine wp_read trivial (fun k hk => ?_) (fun e _ m n hr => by cases hr)
  refine wp_read trivial (fun theirs htheirs => ?_) (fun e _ m n hr => by cases hr)
  refine wp_read trivial (fun l hl => ?_) (fun e _ m n hr => by cases hr)
  refine wp_read trivial (fun ours hours => ?_) (fun e _ m n hr => by cases hr)
  have hend : ∀ (m : ContentHash) (n : Nat), n = (ours.mergeWithConflicts theirs label).2 →
      ∃ theirs l ours, TreeOf w.fs r theirs ∧ ReadM.eval w.fs head = .ok l ∧
        ReadM.eval w.fs (treeOfHead l) = .ok ours ∧ n = (ours.mergeWithConflicts theirs label).2 :=
    fun m n hn => ⟨theirs, l, ours, ⟨k, hk, htheirs⟩, hl, hours, hn⟩
  refine wp_seq (treeKind.wp_save trivial fun _ _ => ⟨trivial, trivial⟩) (fun t w₁ _ _ => ?_)
    (fun e w₁ _ _ m n hr => by cases hr)
  refine wp_seq (v.wp_commitTree t _ _ (fun _ _ _ => trivial)
    fun _ _ _ _ _ _ _ => ⟨trivial, trivial, trivial, trivial⟩) (fun c w₂ _ _ => ?_)
    (fun e w₂ _ _ m n hr => by cases hr)
  refine wp_write trivial trivial ⟨trivial, fun m n hr => ?_⟩
  exact hend m n (Prod.mk.inj (Except.ok.inj hr)).2.symm

omit [Crates] in
/-- The paths of a merge are valid when those of both sides are. -/
theorem merge_pathsValid_iff (label : String) : (ours.mergeWithConflicts theirs label).1.PathsValid ↔
    ours.PathsValid ∧ theirs.PathsValid := by
  obtain ⟨hours, htheirs⟩ := Tree.covers_merge ours theirs label
  constructor
  · intro hvalid
    exact ⟨hours.pathsValid hvalid, htheirs.pathsValid hvalid⟩
  · rintro ⟨ho, ht⟩
    exact Tree.All.merge ho ht fun _ _ h => validatePath_conflict label h

/-- **HEAD's tree after a merge** is the merged tree, and can be read when both sides have valid
paths. -/
theorem mergeHead_headTree_iff
    (hrun : run env (v.mergeHead r label) (World.boot fs) = (.ok (m, n), w'))
    (hhead : ReadM.eval fs head = .ok (some h)) (hours : TreeOf fs h ours)
    (htheirs : TreeOf fs r theirs) (t : Tree) : ReadM.eval w'.fs headTree = .ok t ↔
      (ours.PathsValid ∧ theirs.PathsValid) ∧ t = (ours.mergeWithConflicts theirs label).1 := by
  have hends := mergeHead_ends v env fs r label
  rw [hrun] at hends
  obtain ⟨w₂, k, hp, hnew, hk, htrees⟩ := (hends.1 m rfl).loads (mergePlan_tidy r label fs)
  have heval : ReadM.eval w'.fs headTree = ReadM.eval w₂.fs (loadTree k.tree) := by
    rw [eval_headTree, hnew]
    show ReadM.eval w'.fs (treeOfHead (some m)) = _
    unfold treeOfHead
    rw [ReadM.eval_bind, hk]
    exact htrees k.tree
  rw [heval, ← merge_pathsValid_iff label]
  generalize k.tree = kt at hp
  cases hp with
  | saved ha hs hb hkt hw =>
    rename_i w₁ tree bytes
    -- what was saved is the merge of the two trees
    obtain ⟨k, tr, l, o, hkr, htr, hl, ho, rfl⟩ := hs
    obtain rfl := Except.ok.inj (hhead.symm.trans hl)
    obtain rfl := TreeOf.unique (eval_treeOfHead_iff.1 ho) hours
    obtain rfl := TreeOf.unique ⟨k, hkr, htr⟩ htheirs
    have hfile : w₂.fs.lookup (treeKind.pathBin kt) = some bytes := by
      rw [hw, hkt, World.lookup_written]
      exact if_pos rfl
    constructor
    · intro ht
      exact loadTree_written hb hfile ht
    · rintro ⟨hvalid, rfl⟩
      exact eval_loadTree_of hb hvalid.mem hkt.symm hfile
  | reused hr hw => exact hr.elim

omit [Crates] in
theorem Tree.EntriesIn.pathsValid {t t' : Tree} (h : t.EntriesIn t') (hvalid : t'.PathsValid) :
    t.PathsValid := fun path entry hget => hvalid path entry (h path entry hget)

/-- The merge leaves HEAD's tree as it was, when it has valid paths and everything of theirs. -/
theorem mergeHead_keeps_iff
    (hrun : run env (v.mergeHead r label) (World.boot fs) = (.ok (m, n), w'))
    (hhead : ReadM.eval fs head = .ok (some h)) (hours : TreeOf fs h ours)
    (htheirs : TreeOf fs r theirs) (hn : n = (ours.mergeWithConflicts theirs label).2) :
    (n = 0 ∧ ∃ t, TreeOf fs h t ∧ ReadM.eval w'.fs headTree = .ok t) ↔
      theirs.EntriesIn ours ∧ ours.PathsValid := by
  rw [← merge_eq_ours_iff label, hn]
  constructor
  · rintro ⟨hzero, t, ht, hread⟩
    obtain rfl := ht.unique hours
    obtain ⟨⟨hvalid, -⟩, heq⟩ := (mergeHead_headTree_iff hrun hhead hours htheirs t).1 hread
    exact ⟨⟨hzero, heq.symm⟩, hvalid⟩
  · rintro ⟨⟨hzero, heq⟩, hvalid⟩
    have hin : theirs.EntriesIn ours := (merge_eq_ours_iff label).1 ⟨hzero, heq⟩
    refine ⟨hzero, ours, hours, ?_⟩
    exact (mergeHead_headTree_iff hrun hhead hours htheirs ours).2
      ⟨⟨hvalid, hin.pathsValid hvalid⟩, heq.symm⟩

/-- The merge takes over the tree of `r`, when it has valid paths and everything of ours. -/
theorem mergeHead_follows_iff
    (hrun : run env (v.mergeHead r label) (World.boot fs) = (.ok (m, n), w'))
    (hhead : ReadM.eval fs head = .ok (some h)) (hours : TreeOf fs h ours)
    (htheirs : TreeOf fs r theirs) (hn : n = (ours.mergeWithConflicts theirs label).2) :
    (n = 0 ∧ ∃ t, TreeOf fs r t ∧ ReadM.eval w'.fs headTree = .ok t) ↔
      ours.EntriesIn theirs ∧ theirs.PathsValid := by
  rw [← merge_eq_theirs_iff label, hn]
  constructor
  · rintro ⟨hzero, t, ht, hread⟩
    obtain rfl := ht.unique htheirs
    obtain ⟨⟨-, hvalid⟩, heq⟩ := (mergeHead_headTree_iff hrun hhead hours htheirs t).1 hread
    exact ⟨⟨hzero, heq.symm⟩, hvalid⟩
  · rintro ⟨⟨hzero, heq⟩, hvalid⟩
    have hin : ours.EntriesIn theirs := (merge_eq_theirs_iff label).1 ⟨hzero, heq⟩
    refine ⟨hzero, theirs, htheirs, ?_⟩
    exact (mergeHead_headTree_iff hrun hhead hours htheirs theirs).2
      ⟨⟨hin.pathsValid hvalid, hvalid⟩, heq.symm⟩

/-- **Merging a related head** is no conflict, and leaves the later of the two trees, exactly when the
later one only added to the earlier one.  And copies are written only for paths that both sides changed,
exactly when the paths that get a copy are such; with free copy names these are the paths on which the
trees diverge. -/
theorem mergeHead_related_iff
    (hrun : run env (v.mergeHead r label) (World.boot fs) = (.ok (m, n), w'))
    (hhead : ReadM.eval fs head = .ok (some h)) :
    (SettlesRelated fs w'.fs h r n ↔ OnlyAdded fs h r) ∧
    ∀ ours theirs, TreeOf fs h ours → TreeOf fs r theirs →
      n = (conflictPaths (sanitizeConflictLabel label) (ours, 0) theirs.entries.entries).length ∧
      ((∀ b base, PartAt fs h r b → TreeOf fs b base →
          ∀ path ∈ conflictPaths (sanitizeConflictLabel label) (ours, 0) theirs.entries.entries,
            ChangedOnBoth base ours theirs path) ↔
        ∀ b base, PartAt fs h r b → TreeOf fs b base →
          ∀ path, ours.GetsCopy theirs label path → ChangedOnBoth base ours theirs path) ∧
      (ours.CopyNamesFree theirs label →
        ∀ path, ours.GetsCopy theirs label path ↔ ours.Diverge theirs path) := by
  have hpost := (v.wp_mergeHead_trees env r label (World.boot fs)).post
  rw [hrun] at hpost
  obtain ⟨theirs, l, ours, htheirs, hl, hours, hn⟩ := hpost m n rfl
  obtain rfl := Except.ok.inj (hhead.symm.trans hl)
  have hours : TreeOf fs h ours := eval_treeOfHead_iff.1 hours
  constructor
  · have hkeeps := mergeHead_keeps_iff hrun hhead hours htheirs hn
    have hfollows := mergeHead_follows_iff hrun hhead hours htheirs hn
    constructor
    · intro hsettles
      refine ⟨fun hreach t t' ht ht' => ?_, fun hreach t t' ht ht' => ?_⟩
      · obtain rfl := ht.unique htheirs
        obtain rfl := ht'.unique hours
        exact hkeeps.1 (hsettles.behind hreach)
      · obtain rfl := ht.unique hours
        obtain rfl := ht'.unique htheirs
        exact hfollows.1 (hsettles.ahead hreach)
    · intro hadded
      refine ⟨fun hreach => ?_, fun hreach => ?_⟩
      · exact hkeeps.2 (hadded.behind hreach theirs ours htheirs hours)
      · exact hfollows.2 (hadded.ahead hreach ours theirs hours htheirs)
  · intro ours' theirs' hours' htheirs'
    obtain rfl := hours'.unique hours
    obtain rfl := htheirs'.unique htheirs
    refine ⟨hn.trans (mergeWithConflicts_count _ _ _), ?_, getsCopy_iff_diverge⟩
    simp only [mem_conflictPaths_iff]

end Merge

end Laws

/-! ## §3. A file that was changed since. -/

section Sample

attribute [local instance] copySample

/-- HEAD is `secondCommit`, which changed the file of its parent `firstCommit`. -/
def reeditedDisk : VaultFs := copyDisk.insert headFile (Text.toUtf8 hashSecond.toHex)

theorem editedDisk_loads : ReadM.eval reeditedDisk head = .ok (some hashSecond) ∧
    ReadM.eval reeditedDisk (loadCommit hashSecond) = .ok secondCommit.normal ∧
    TreeOf reeditedDisk hashSecond copyTree ∧ TreeOf reeditedDisk hashFirst xTree := by
  have hl : ∀ p : FilePath VaultDir, p ≠ headFile → reeditedDisk.lookup p = copyDisk.lookup p :=
    fun p hp => AList.lookup_insert_ne hp
  have hcommit := eval_loadCommit_congr fun p (hp : p.dir = .commits) =>
    hl p (by rintro rfl; cases hp)
  have htree := eval_loadTree_congr fun p (hp : p.dir = .trees) => hl p (by rintro rfl; cases hp)
  obtain ⟨hsecond, hfirst, hcopy, hx⟩ := copy_loads
  refine ⟨eval_head_written (AList.lookup_insert _), (hcommit _).trans hsecond,
    ⟨_, (hcommit _).trans hsecond, (htree _).trans hcopy⟩,
    ⟨_, (hcommit _).trans hfirst, (htree _).trans hx⟩⟩

theorem run_editedMerge : ∃ m w', run (quiet 1700000002) (plainVault.mergeHead hashFirst "b")
    (World.boot reeditedDisk) = (.ok (m, 1), w') := by
  have hn : (run (quiet 1700000002) (plainVault.mergeHead hashFirst "b")
      (World.boot reeditedDisk)).1.map Prod.snd = .ok 1 := by decide +kernel
  generalize run _ _ (World.boot reeditedDisk) = out at hn ⊢
  obtain ⟨res, w'⟩ := out
  cases res with
  | error e => cases hn
  | ok p =>
    obtain ⟨m, n⟩ := p
    obtain rfl := Except.ok.inj hn
    exact ⟨m, w', rfl⟩

/-- Merging the parent of HEAD is a conflict. -/
theorem mergeHead_parent_conflicts : ¬∀ (fs : VaultFs) (v : Vault) (env : Outside)
    (h r m : ContentHash) (label : String) (n : Nat) (w' : VaultWorld),
    run env (v.mergeHead r label) (World.boot fs) = (.ok (m, n), w') →
    ReadM.eval fs head = .ok (some h) → SettlesRelated fs w'.fs h r n := by
  intro hall
  obtain ⟨hhead, hsecond, -, -⟩ := editedDisk_loads
  obtain ⟨m, w', hrun⟩ := run_editedMerge
  have hreach : Reach reeditedDisk hashSecond hashFirst :=
    .single ⟨_, hsecond, List.mem_singleton.2 rfl⟩
  cases ((hall _ _ _ _ _ _ _ _ _ hrun hhead).behind hreach).1

/-- The rule at this merge, with the trees of the two commits. -/
theorem editedMerge_related_iff : ∃ m w', run (quiet 1700000002) (plainVault.mergeHead hashFirst "b")
      (World.boot reeditedDisk) = (.ok (m, 1), w') ∧
    (SettlesRelated reeditedDisk w'.fs hashSecond hashFirst 1 ↔
      OnlyAdded reeditedDisk hashSecond hashFirst) ∧
    1 = (conflictPaths (sanitizeConflictLabel "b") (copyTree, 0) xTree.entries.entries).length ∧
    ((∀ b base, PartAt reeditedDisk hashSecond hashFirst b → TreeOf reeditedDisk b base →
        ∀ path ∈ conflictPaths (sanitizeConflictLabel "b") (copyTree, 0) xTree.entries.entries,
          ChangedOnBoth base copyTree xTree path) ↔
      ∀ b base, PartAt reeditedDisk hashSecond hashFirst b → TreeOf reeditedDisk b base →
        ∀ path, copyTree.GetsCopy xTree "b" path → ChangedOnBoth base copyTree xTree path) ∧
    (copyTree.CopyNamesFree xTree "b" →
      ∀ path, copyTree.GetsCopy xTree "b" path ↔ copyTree.Diverge xTree path) := by
  obtain ⟨m, w', hrun⟩ := run_editedMerge
  obtain ⟨hhead, -, hcopy, hx⟩ := editedDisk_loads
  obtain ⟨hsettles, hcopies⟩ := mergeHead_related_iff hrun hhead
  exact ⟨m, w', hrun, hsettles, hcopies copyTree xTree hcopy hx⟩

end Sample

end Soal

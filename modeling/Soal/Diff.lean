/-
  Soal.Diff — comparing two commits path by path.

  `diffCommits` sorts the paths of two trees into added, removed and changed.  Trees list their paths
  in ascending order, so the sorts at the end change nothing.
-/
import Mathlib.Data.List.Sort
import Soal.Vault.Heads

namespace Soal

open FileProg

/-! ## §1. The operation. -/

/-- Diff of two trees (path-level). -/
structure TreeDiff where
  fromHex : String
  toHex : String
  added : List String
  removed : List String
  changed : List String
  deriving DecidableEq

/-- The paths of the newer tree that the older one does not have, and those it has another entry
for. -/
def newPaths (ta : Tree) : List (String × TreeEntry) → List String × List String
  | [] => ([], [])
  | (path, entry) :: rest =>
    let (added, changed) := newPaths ta rest
    match ta.entries.get? path with
    | none => (path :: added, changed)
    | some old => if old ≠ entry then (added, path :: changed) else (added, changed)

/-- The keys of a tree. -/
def Tree.paths (tree : Tree) : List String := tree.entries.entries.map Prod.fst

/-- `Vec::sort` on paths. -/
def sortPaths (paths : List String) : List String := paths.mergeSort (fun a b => decide (a ≤ b))

/-- The diff of two trees that were loaded. -/
def TreeDiff.between (source target : ContentHash) (ta tb : Tree) : TreeDiff where
  fromHex := source.toHex
  toHex := target.toHex
  added := sortPaths (newPaths ta tb.entries.entries).1
  removed := sortPaths (ta.paths.filter fun path => (tb.entries.get? path).isNone)
  changed := sortPaths (newPaths ta tb.entries.entries).2

def diffCommits [Crates] (source target : ContentHash) : Reads TreeDiff := do
  let ca ← loadCommit source
  let cb ← loadCommit target
  let ta ← loadTree ca.tree
  let tb ← loadTree cb.tree
  return TreeDiff.between source target ta tb

/-! ## §2. What a diff names. -/

section Names

variable {ta tb : Tree} {source target : ContentHash} {path : String}

theorem mem_paths : path ∈ tb.paths ↔ tb.entries.get? path ≠ none := by
  unfold Tree.paths
  rw [List.mem_map]
  constructor
  · rintro ⟨e, he, rfl⟩
    rw [SortedMap.mem_entries.1 he]
    nofun
  · intro hsome
    obtain ⟨entry, hentry⟩ := Option.ne_none_iff_exists'.1 hsome
    exact ⟨(path, entry), SortedMap.mem_entries.2 hentry, rfl⟩

/-- The sort leaves ascending paths as they are. -/
theorem sortPaths_of_ascending {paths : List String} (h : paths.Pairwise (· < ·)) :
    sortPaths paths = paths :=
  List.mergeSort_of_pairwise (h.imp fun hlt => decide_eq_true (le_of_lt hlt))

theorem paths_ascending (tree : Tree) : tree.paths.Pairwise (· < ·) :=
  List.pairwise_map.2 tree.entries.sorted

/-- The loop over the newer tree keeps the order of its paths. -/
theorem newPaths_eq (ta : Tree) (l : List (String × TreeEntry)) : newPaths ta l =
    ((l.filter fun e => (ta.entries.get? e.1).isNone).map Prod.fst,
      (l.filter fun e => (ta.entries.get? e.1).any (fun old => decide (old ≠ e.2))).map Prod.fst) := by
  induction l with
  | nil => rfl
  | cons e l ih =>
    obtain ⟨path, entry⟩ := e
    unfold newPaths
    rw [ih]
    dsimp only
    cases hget : ta.entries.get? path with
    | none => simp [hget]
    | some old =>
      by_cases hne : old ≠ entry
      · simp [hget, hne]
      · simp [hget, not_not.1 hne]

theorem ascending_filter {f : String × TreeEntry → Bool} (tree : Tree) :
    ((tree.entries.entries.filter f).map Prod.fst).Pairwise (· < ·) :=
  List.pairwise_map.2 (tree.entries.sorted.filter f)

theorem added_eq : (TreeDiff.between source target ta tb).added =
    (tb.entries.entries.filter fun e => (ta.entries.get? e.1).isNone).map Prod.fst :=
  (congrArg sortPaths (congrArg Prod.fst (newPaths_eq ta tb.entries.entries))).trans
    (sortPaths_of_ascending (ascending_filter tb))

theorem changed_eq : (TreeDiff.between source target ta tb).changed =
    (tb.entries.entries.filter fun e =>
      (ta.entries.get? e.1).any (fun old => decide (old ≠ e.2))).map Prod.fst :=
  (congrArg sortPaths (congrArg Prod.snd (newPaths_eq ta tb.entries.entries))).trans
    (sortPaths_of_ascending (ascending_filter tb))

theorem removed_eq : (TreeDiff.between source target ta tb).removed =
    ta.paths.filter fun path => (tb.entries.get? path).isNone :=
  sortPaths_of_ascending ((paths_ascending ta).filter _)

variable (source target ta tb) in
/-- A diff names paths in ascending order, each once. -/
theorem between_ascending : (TreeDiff.between source target ta tb).added.Pairwise (· < ·) ∧
    (TreeDiff.between source target ta tb).removed.Pairwise (· < ·) ∧
    (TreeDiff.between source target ta tb).changed.Pairwise (· < ·) := by
  rw [added_eq, removed_eq, changed_eq]
  exact ⟨ascending_filter tb, (paths_ascending ta).filter _, ascending_filter tb⟩

theorem mem_added : path ∈ (TreeDiff.between source target ta tb).added ↔
    ta.entries.get? path = none ∧ tb.entries.get? path ≠ none := by
  rw [added_eq, ← mem_paths, Tree.paths]
  simp only [List.mem_map, List.mem_filter, Option.isNone_iff_eq_none]
  constructor
  · rintro ⟨e, ⟨he, hnone⟩, rfl⟩
    exact ⟨hnone, e, he, rfl⟩
  · rintro ⟨hnone, e, he, rfl⟩
    exact ⟨e, ⟨he, hnone⟩, rfl⟩

theorem mem_removed : path ∈ (TreeDiff.between source target ta tb).removed ↔
    ta.entries.get? path ≠ none ∧ tb.entries.get? path = none := by
  rw [removed_eq, List.mem_filter, mem_paths, Option.isNone_iff_eq_none]

theorem mem_changed : path ∈ (TreeDiff.between source target ta tb).changed ↔ ∃ old new,
    ta.entries.get? path = some old ∧ tb.entries.get? path = some new ∧ old ≠ new := by
  rw [changed_eq]
  simp only [List.mem_map, List.mem_filter, Option.any_eq_true, decide_eq_true_eq]
  constructor
  · rintro ⟨e, ⟨he, old, hold, hne⟩, rfl⟩
    exact ⟨old, e.2, hold, SortedMap.mem_entries.1 he, hne⟩
  · rintro ⟨old, new, hold, hnew, hne⟩
    exact ⟨(path, new), ⟨SortedMap.mem_entries.2 hnew, old, hold, hne⟩, rfl⟩

/-- Commits that load can be compared. -/
theorem eval_diffCommits [Crates] {fs : VaultFs} {ca cb : Commit}
    (hca : ReadM.eval fs (loadCommit source) = .ok ca) (hcb : ReadM.eval fs (loadCommit target) = .ok cb)
    (hta : ReadM.eval fs (loadTree ca.tree) = .ok ta) (htb : ReadM.eval fs (loadTree cb.tree) = .ok tb) :
    ReadM.eval fs (diffCommits source target) = .ok (TreeDiff.between source target ta tb) := by
  unfold diffCommits
  rw [ReadM.eval_bind, hca, ok_bind, ReadM.eval_bind, hcb, ok_bind, ReadM.eval_bind, hta, ok_bind,
    ReadM.eval_bind, htb]
  rfl

end Names

end Soal

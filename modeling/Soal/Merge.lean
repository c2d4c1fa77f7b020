/-
  Soal.Merge — adding files to a tree, and merging two trees with conflict copies.
-/
import Soal.Codec.Objects
import Soal.Lib.ConflictMerge

namespace Soal

/-! ## §1. The operations. -/

/-- Fallible file add with strict path validation. -/
def Tree.tryAddFile (tree : Tree) (path : String) (size : UInt64) (chunks : List ContentHash) :
    Res Tree := do
  let path ← normalizeAndValidate path
  return ⟨tree.entries.insert path (.file size chunks)⟩

/-- Merge one entry of theirs: a new path is added, an equal one kept, a divergent one copied under
its conflict name. -/
def Tree.mergeEntry (label : String) (acc : Tree × Nat) (theirs : String × TreeEntry) : Tree × Nat :=
  match acc.1.entries.get? theirs.1 with
  | none => (⟨acc.1.entries.insert theirs.1 theirs.2⟩, acc.2)
  | some ourEntry =>
    if ourEntry = theirs.2 then acc
    else (⟨acc.1.entries.insert (conflictPathName theirs.1 label) theirs.2⟩, acc.2 + 1)

/-- Merge `theirs` into `ours`, writing conflict copies on divergent paths.  Returns the merged tree
and the number of conflict copies. -/
def Tree.mergeWithConflicts (ours theirs : Tree) (fromLabel : String) : Tree × Nat :=
  theirs.entries.entries.foldl (Tree.mergeEntry (sanitizeConflictLabel fromLabel)) (ours, 0)

/-! ## §2. What a conflict merge keeps. -/

/-- Where the copy of a divergent path goes. -/
def conflictCopy (fromLabel path : String) : String :=
  conflictPathName path (sanitizeConflictLabel fromLabel)

/-- Merging an entry is a step of the general merge. -/
theorem mergeEntry_get? (fromLabel : String) (acc : Tree × Nat) (x : String × TreeEntry) :
    (Tree.mergeEntry (sanitizeConflictLabel fromLabel) acc x).1.entries.get? =
      ConflictMerge.step (conflictCopy fromLabel) acc.1.entries.get? x := by
  obtain ⟨p, t⟩ := x
  have hins : ∀ (m : SortedMap String TreeEntry) (k : String) (v : TreeEntry),
      (m.insert k v).get? = Function.update m.get? k (some v) := fun m k v => by
    funext q
    rw [SortedMap.get?_insert, Function.update_apply]
    simp only [eq_comm]
  unfold Tree.mergeEntry
  cases h : acc.1.entries.get? p with
  | none => rw [ConflictMerge.step_free h, ← hins]
  | some e =>
      by_cases he : e = t
      · subst he
        rw [ConflictMerge.step_same h]
        simp only [if_true]
      · rw [ConflictMerge.step_diverges h he, ← hins]
        simp only [if_neg he]
        rfl

/-- The tree merge is the general merge of its entries. -/
theorem mergeWithConflicts_get? (ours theirs : Tree) (fromLabel : String) :
    (ours.mergeWithConflicts theirs fromLabel).1.entries.get? =
      ConflictMerge.merge (conflictCopy fromLabel) ours.entries.get? theirs.entries.entries := by
  suffices h : ∀ (l : List (String × TreeEntry)) (acc : Tree × Nat),
      (l.foldl (Tree.mergeEntry (sanitizeConflictLabel fromLabel)) acc).1.entries.get? =
        l.foldl (ConflictMerge.step (conflictCopy fromLabel)) acc.1.entries.get? from
    h theirs.entries.entries (ours, 0)
  intro l
  induction l with
  | nil => exact fun _ => rfl
  | cons x l ih =>
      intro acc
      rw [List.foldl_cons, List.foldl_cons, ih, mergeEntry_get?]

/-- Guarantee 9: every entry of ours is where it was, every entry of theirs is there under its path
or its copy's, and nothing else is. -/
def Tree.KeepsBothSides (ours theirs merged : Tree) (fromLabel : String) : Prop :=
  ConflictMerge.KeepsBoth (conflictCopy fromLabel) ours.entries.get? theirs.entries.entries
    merged.entries.get?

/-- No conflict copy of this merge displaces an entry. -/
def Tree.CopiesFit (ours theirs : Tree) (fromLabel : String) : Prop :=
  ConflictMerge.CopiesFit (conflictCopy fromLabel) ours.entries.get? theirs.entries.entries

/-- **A conflict merge keeps both sides exactly when its copies fit.** -/
theorem mergeWithConflicts_keepsBoth_iff (ours theirs : Tree) (fromLabel : String) :
    ours.KeepsBothSides theirs (ours.mergeWithConflicts theirs fromLabel).1 fromLabel ↔
      ours.CopiesFit theirs fromLabel := by
  unfold Tree.KeepsBothSides Tree.CopiesFit
  rw [mergeWithConflicts_get?]
  exact ConflictMerge.keepsBoth_iff (conflictPathName_injective fromLabel) theirs.entries.sorted

/-- An earlier merge with the same label left a conflict copy; the next one replaces it. -/
theorem mergeWithConflicts_displaces_copy :
    ¬∀ (ours theirs : Tree) (fromLabel : String),
      ours.KeepsBothSides theirs (ours.mergeWithConflicts theirs fromLabel).1 fromLabel := by
  intro h
  let ours : Tree := ⟨(SortedMap.empty.insert "n.txt" (.file 1 [])).insert
    "n (conflict from b).txt" (.file 2 [])⟩
  let theirs : Tree := ⟨SortedMap.empty.insert "n.txt" (.file 3 [])⟩
  have hkeep := (h ours theirs "b").keepsOurs "n (conflict from b).txt" (.file 2 []) (by decide)
  exact absurd hkeep (by decide)

/-! ## §3. What holds of every entry. -/

/-- Every entry of the tree, with its path. -/
def Tree.All (P : String → TreeEntry → Prop) (tree : Tree) : Prop :=
  ∀ path entry, tree.entries.get? path = some entry → P path entry

/-- Every path of the tree is valid. -/
def Tree.PathsValid (tree : Tree) : Prop := tree.All fun path _ => validatePath path = .ok ()

section All

variable {P : String → TreeEntry → Prop} {tree tree' : Tree}

theorem Tree.all_new : Tree.new.All P := fun path entry h => by cases h

theorem Tree.All.mem (h : tree.All P) : ∀ x ∈ tree.entries.entries, P x.1 x.2 := fun x hx =>
  h x.1 x.2 (SortedMap.mem_entries.1 hx)

theorem Tree.All.insert {path : String} {entry : TreeEntry} (h : tree.All P) (hp : P path entry) :
    Tree.All P ⟨tree.entries.insert path entry⟩ := by
  intro path' entry' hget
  rw [SortedMap.get?_insert] at hget
  split at hget
  next heq =>
    obtain rfl := Option.some.inj hget
    exact heq ▸ hp
  next => exact h path' entry' hget

theorem Tree.All.mono {Q : String → TreeEntry → Prop} (h : tree.All P)
    (hPQ : ∀ path entry, P path entry → Q path entry) : tree.All Q := fun path entry hget =>
  hPQ path entry (h path entry hget)

/-- Adding a file normalizes its path. -/
theorem Tree.tryAddFile_ok_iff {path : String} {size : UInt64} {chunks : List ContentHash} :
    tree.tryAddFile path size chunks = .ok tree' ↔ ∃ path', normalizeAndValidate path = .ok path' ∧
      tree' = ⟨tree.entries.insert path' (.file size chunks)⟩ := by
  unfold Tree.tryAddFile
  constructor
  · intro h
    obtain ⟨path', hp, h⟩ := bind_ok_iff.1 h
    exact ⟨path', hp, (Except.ok.inj h).symm⟩
  · rintro ⟨path', hp, rfl⟩
    exact bind_ok_iff.2 ⟨path', hp, rfl⟩

/-- A merge makes entries out of the entries of both sides. -/
theorem Tree.All.merge {ours theirs : Tree} {label : String} (ho : ours.All P) (ht : theirs.All P)
    (hcopy : ∀ path entry, P path entry → P (conflictCopy label path) entry) :
    (ours.mergeWithConflicts theirs label).1.All P := by
  suffices h : ∀ (l : List (String × TreeEntry)) (acc : Tree × Nat), (∀ x ∈ l, P x.1 x.2) →
      acc.1.All P → (l.foldl (Tree.mergeEntry (sanitizeConflictLabel label)) acc).1.All P from
    h theirs.entries.entries (ours, 0) ht.mem ho
  intro l
  induction l with
  | nil => exact fun _ _ h => h
  | cons x l ih =>
    intro acc hl hacc
    have hx : P x.1 x.2 := hl x List.mem_cons_self
    refine ih _ (fun y hy => hl y (List.mem_cons_of_mem _ hy)) ?_
    unfold Tree.mergeEntry
    split
    next => exact hacc.insert hx
    next =>
      split
      next => exact hacc
      next => exact hacc.insert (hcopy _ _ hx)

/-- The chunks an entry lists itself. -/
def TreeEntry.chunkHashes : TreeEntry → List ContentHash
  | .file _ chunks => chunks
  | .dir _ => []

/-- The chunks of a tree are those of its entries. -/
theorem Tree.all_chunks_iff {Q : ContentHash → Prop} :
    (tree.All fun _ entry => ∀ ch ∈ entry.chunkHashes, Q ch) ↔ ∀ ch ∈ tree.allChunkHashes, Q ch := by
  unfold Tree.allChunkHashes
  constructor
  · intro h ch hch
    obtain ⟨⟨path, entry⟩, hx, hmem⟩ := List.mem_flatMap.1 hch
    have hall := h.mem _ hx ch
    cases entry with
    | file size chunks => exact hall hmem
    | dir hash => cases hmem
  · intro h path entry hget ch hch
    refine h ch (List.mem_flatMap.2 ⟨(path, entry), SortedMap.mem_entries.2 hget, ?_⟩)
    cases entry with
    | file size chunks => exact hch
    | dir hash => cases hch

end All

end Soal

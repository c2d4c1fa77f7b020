/-
  Soal.Vault.Gc — mark and sweep.

  Both marks walk commit parents from the protected roots with a stack; one collects the chunks the
  commits' trees list, the other the commits and trees themselves.  When the roots cannot be read,
  the walk starts from HEAD alone, or from nothing.
-/
import Mathlib.SetTheory.Cardinal.Finite
import Soal.Vault.Heads

namespace Soal

open FileProg

variable [Crates]

/-! ## §1. Mark. -/

/-- `protected_commit_roots(self).unwrap_or_else(|_| self.head().ok().flatten()…)` -/
def gcRoots : Reads (List ContentHash) :=
  protectedCommitRoots.handle (fun r => match r with
    | .ok roots => .done (.ok roots)
    | .error (.err _) => do return (← okOrNone head).join.toList
    | .error .panic => .done (.error .panic))

/-- The walk: pop a hash, skip it when seen or absent, otherwise load the commit, collect what
`visit` finds there, and push its parents.  Each pop shortens the stack or marks a new hash, of
which there are finitely many. -/
def mark (visit : ContentHash → Commit → Reads (List ContentHash)) (seen : Finset ContentHash) :
    List ContentHash → Finset ContentHash → Reads (Finset ContentHash)
  | [], live => return live
  | h :: queue, live =>
    if _ : h ∈ seen then mark visit seen queue live
    else do
      if ← hasCommitObject h then
        let c ← loadCommit h
        let found ← visit h c
        mark visit (insert h seen) (c.parents.reverse ++ queue) (live ∪ found.toFinset)
      else mark visit (insert h seen) queue live
termination_by queue => (Nat.card ContentHash - seen.card, queue.length)
decreasing_by
  · exact Prod.Lex.right _ (by simp)
  all_goals
    refine Prod.Lex.left _ _ ?_
    have hcard : (insert h seen).card = seen.card + 1 := Finset.card_insert_of_notMem ‹_›
    have hle : (insert h seen).card ≤ Nat.card ContentHash := by
      have := Fintype.ofFinite ContentHash
      rw [Nat.card_eq_fintype_card]
      exact Finset.card_le_univ _
    omega

/-- The chunks a commit's tree lists, when the tree is there. -/
def chunksOfCommit (_ : ContentHash) (c : Commit) : Reads (List ContentHash) := do
  if ← hasTreeObject c.tree then
    let tree ← loadTree c.tree
    return tree.allChunkHashes
  else return []

/-- A commit and its tree. -/
def objectsOfCommit (h : ContentHash) (c : Commit) : Reads (List ContentHash) := return [h, c.tree]

/-- Mark-phase: all chunks reachable from the given commit roots (and parents). -/
def liveChunkHashesFromRoots (roots : List ContentHash) : Reads (Finset ContentHash) :=
  mark chunksOfCommit ∅ roots.reverse ∅

/-- Collect all chunk hashes reachable from the protected roots. -/
def liveChunkHashes : Reads (Finset ContentHash) := do
  liveChunkHashesFromRoots (← gcRoots)

/-- Commit + tree CIDs reachable from protected roots (for object GC). -/
def liveObjectHashes : Reads (Finset ContentHash) := do
  mark objectsOfCommit ∅ (← gcRoots).reverse ∅

/-! ## §2. Sweep. -/

/-- Delete the chunks of the list that are not live; `removed` counts. -/
def sweepChunks (live : Finset ContentHash) : List ContentHash → Nat → Action Nat
  | [], removed => return removed
  | h :: hs, removed => do
    if h ∈ live then sweepChunks live hs removed
    else if ← (ReadM.pathExists (chunkPath h) : Reads Bool) then
      removeFile (chunkPath h)
      sweepChunks live hs (removed + 1)
    else sweepChunks live hs removed

/-- Delete unreferenced chunk files.  Returns the number of chunks removed. -/
def gcUnreachableChunks : Action Nat := do
  let live ← liveChunkHashes
  let hashes ← ChunkStore.list
  sweepChunks live hashes 0

/-- The hash a file name stands for: its stem, 64 hex digits of either case. -/
def hashOfStem (name : String) : Option ContentHash :=
  let stem := (splitExt name.toList).1
  if stem.length = 64 then (ContentHash.fromHexChars stem).toOption else none

/-- Delete the files of the list whose stem is a hash that is not live. -/
def sweepObjects (live : Finset ContentHash) (dir : VaultDir) : List String → Nat → Action Nat
  | [], removed => return removed
  | name :: names, removed =>
    match hashOfStem name with
    | none => sweepObjects live dir names removed
    | some h =>
      if h ∈ live then sweepObjects live dir names removed
      else do
        removeFile ⟨dir, name⟩
        sweepObjects live dir names (removed + 1)

/-- Delete unreferenced commit/tree objects.  Returns (commits removed, trees removed). -/
def gcUnreachableObjects : Action (Nat × Nat) := do
  let live ← liveObjectHashes
  let commits ← (ReadM.readDir .commits : Reads (List String))
  let commitsRemoved ← sweepObjects live .commits commits 0
  let trees ← (ReadM.readDir .trees : Reads (List String))
  let treesRemoved ← sweepObjects live .trees trees 0
  return (commitsRemoved, treesRemoved)

/-- Full GC: chunks + orphaned commits/trees.  Returns total objects removed. -/
def gcAll : Action Nat := do
  let chunks ← gcUnreachableChunks
  let (c, t) ← gcUnreachableObjects
  return chunks + c + t

end Soal

/-
  Soal.Logical — logical paths as keys of a tree and as names of output files.

  A path is normalized once: what normalization returns is valid, and valid paths stay as they are.
  Below a target, valid paths lead to places of their own.  Conflict copies are valid paths next to
  the path they are copies of.
-/
import Soal.Codec.RoundTrip
import Soal.Target

namespace Soal

open Posix

/-! ## §1. Below a target. -/

section Below

variable {cwd : Place} {target p q : String}

/-- Below a target a valid path names a place by its own names, one below the other. -/
theorem lexical_joined (h : validatePath p = .ok ()) :
    (Path.ofString (Path.joinText target p)).lexical cwd =
      (logicalNames p).reverse ++ (Path.ofString target).lexical cwd := by
  rw [ofString_joined h]
  exact Path.lexical_append _ _ _

/-- A path is its names. -/
theorem logicalNames_injective : Function.Injective logicalNames := by
  intro p q h
  have hsplit : p.toList.splitOn '/' = q.toList.splitOn '/' :=
    List.map_injective_iff.2 (fun _ _ => String.ofList_inj.1) h
  have hjoin := congrArg (List.intercalate ['/']) hsplit
  rw [List.intercalate_splitOn, List.intercalate_splitOn] at hjoin
  exact String.toList_inj.1 hjoin

/-- The places of two valid paths below one target differ when the paths do. -/
theorem lexical_joined_inj (hp : validatePath p = .ok ()) (hq : validatePath q = .ok ())
    (h : (Path.ofString (Path.joinText target p)).lexical cwd =
      (Path.ofString (Path.joinText target q)).lexical cwd) : p = q := by
  rw [lexical_joined hp, lexical_joined hq] at h
  exact logicalNames_injective (List.reverse_injective (List.append_cancel_right h))

/-- Strictly below a directory. -/
def StrictlyBelow (base p : Place) : Prop := base <:+ p ∧ p ≠ base

theorem strictlyBelow_joined (h : validatePath p = .ok ()) :
    StrictlyBelow ((Path.ofString target).lexical cwd)
      ((Path.ofString (Path.joinText target p)).lexical cwd) := by
  rw [lexical_joined h]
  refine ⟨List.suffix_append _ _, fun heq => logicalNames_ne_nil p ?_⟩
  have hnil := List.append_left_eq_self.1 heq
  exact List.reverse_eq_nil_iff.1 hnil

end Below

/-- **Path normalization is a sound projection.**  What it returns is valid and stays as it is; a
valid path is returned unchanged; and valid paths name places strictly below the target, one place
for each path. -/
theorem normalization_projects :
    (∀ p n, normalizeAndValidate p = .ok n →
      validatePath n = .ok () ∧ normalizeAndValidate n = .ok n) ∧
    (∀ p, validatePath p = .ok () → normalizeAndValidate p = .ok p) ∧
    ∀ (cwd : Place) (target : String),
      (∀ n, validatePath n = .ok () → StrictlyBelow ((Path.ofString target).lexical cwd)
        ((Path.ofString (Path.joinText target n)).lexical cwd)) ∧
      ∀ p q, validatePath p = .ok () → validatePath q = .ok () →
        (Path.ofString (Path.joinText target p)).lexical cwd =
          (Path.ofString (Path.joinText target q)).lexical cwd → p = q := by
  refine ⟨fun p n h => ?_, fun p h => normalizeAndValidate_valid h, fun cwd target => ⟨?_, ?_⟩⟩
  · have hn := validatePath_of_normalize h
    exact ⟨hn, normalizeAndValidate_valid hn⟩
  · exact fun n hn => strictlyBelow_joined hn
  · exact fun p q hp hq h => lexical_joined_inj hp hq h

/-- `.//a` is stored as `a`; below `out`, `a` and `b` are two files. -/
theorem dotted_projects : validatePath "a" = .ok () ∧ normalizeAndValidate "a" = .ok "a" ∧
    (Path.ofString (Path.joinText "out" "a")).lexical [] ≠
      (Path.ofString (Path.joinText "out" "b")).lexical [] := by
  obtain ⟨hnorm, hvalid, hbelow⟩ := normalization_projects
  obtain ⟨ha, ha'⟩ := hnorm ".//a" "a" rfl
  refine ⟨ha, ha', fun heq => ?_⟩
  have hab := (hbelow [] "out").2 "a" "b" ha rfl heq
  exact absurd hab (by decide)

/-! ## §2. Conflict copies. -/

theorem conflictMark_pos (label : List Char) : 0 < (conflictMark label).length := by
  have hclose : 0 < ")".toList.length := Nat.zero_lt_one
  unfold conflictMark
  rw [List.length_append]
  exact Nat.lt_of_lt_of_le hclose (Nat.le_add_left _ _)

/-- A copy's name is longer than the path. -/
theorem conflictPathName_ne (p label : String) : conflictPathName p label ≠ p := by
  intro h
  have hlen := congrArg (fun s : String => s.toList.length) h
  unfold conflictPathName conflictPathNameChars at hlen
  rw [String.toList_ofList] at hlen
  have hfile := congrArg List.length (splitExt_append (splitDir p.toList).2)
  have hdir := congrArg List.length (rsplit_spec '/' p.toList).1
  have hpos := conflictMark_pos label.toList
  generalize conflictMark label.toList = mark at hlen hpos
  simp only [splitDir, List.length_append] at hlen hfile hdir
  omega

/-- A copy stays in the directory of its path. -/
theorem splitDir_conflict (p label : String) :
    (splitDir (conflictPathName p (sanitizeConflictLabel label)).toList).1 =
      (splitDir p.toList).1 := by
  obtain ⟨dir, file, hsplit, -, -, -, hcopy, -⟩ := conflictPathNameChars_parts p.toList
    (sanitizeConflictLabel_plain label (c := '/') (.inl rfl))
    (sanitizeConflictLabel_plain label (c := '.') (.inr (.inl rfl)))
  unfold conflictPathName
  rw [String.toList_ofList, hcopy, hsplit]

/-- Merging trees of valid paths leaves a tree of valid paths. -/
theorem Tree.PathsValid.merge {ours theirs : Tree} (ho : ours.PathsValid) (ht : theirs.PathsValid)
    (label : String) : (ours.mergeWithConflicts theirs label).1.PathsValid :=
  Tree.All.merge ho ht fun _ _ hp => validatePath_conflict label hp

/-- A tree of valid paths, few enough, reads back from its wire form, unless that fits no buffer. -/
theorem Tree.PathsValid.decodes {tree : Tree} (h : tree.PathsValid)
    (hsize : tree.entries.size ≤ maxTreeEntries) :
    encodeTreeWire tree = .error .panic ∨
      ∃ w, encodeTreeWire tree = .ok w ∧ decodeTreeWire w = .ok tree := by
  cases hw : encodeTreeWire tree with
  | ok w => exact .inr ⟨w, rfl, (decodeTreeWire_encodeTreeWire hw h.mem).2⟩
  | error e =>
    left
    unfold encodeTreeWire encodeTreeBody at hw
    rw [if_neg (by omega)] at hw
    unfold vec at hw
    split at hw
    next =>
      have hw : vec _ = .error e := hw
      unfold vec at hw
      split at hw
      · cases hw
      · exact hw.symm
    next => exact hw.symm

/-- **Conflict copies are valid, new and collision-free.**  The copy of a valid path is a valid path
of the same directory, and not the path itself; under one label different paths have different
copies; and merging trees of valid paths leaves a tree of valid paths, which reads back from its wire
form when it has no more entries than a tree may have. -/
theorem conflict_copies_sound (label : String) :
    (∀ p, validatePath p = .ok () →
      validatePath (conflictPathName p (sanitizeConflictLabel label)) = .ok () ∧
      conflictPathName p (sanitizeConflictLabel label) ≠ p ∧
      (splitDir (conflictPathName p (sanitizeConflictLabel label)).toList).1 =
        (splitDir p.toList).1) ∧
    Function.Injective (conflictPathName · (sanitizeConflictLabel label)) ∧
    ∀ ours theirs : Tree, ours.PathsValid → theirs.PathsValid →
      (ours.mergeWithConflicts theirs label).1.PathsValid ∧
      ((ours.mergeWithConflicts theirs label).1.entries.size ≤ maxTreeEntries →
        encodeTreeWire (ours.mergeWithConflicts theirs label).1 = .error .panic ∨
        ∃ w, encodeTreeWire (ours.mergeWithConflicts theirs label).1 = .ok w ∧
          decodeTreeWire w = .ok (ours.mergeWithConflicts theirs label).1) := by
  refine ⟨fun p hp => ⟨validatePath_conflict label hp, conflictPathName_ne p _, ?_⟩,
    conflictPathName_injective label, fun ours theirs ho ht => ?_⟩
  · exact splitDir_conflict p label
  · have hmerged := ho.merge ht label
    exact ⟨hmerged, hmerged.decodes⟩

/-- A hidden file with two dots keeps its last extension in the copy. -/
theorem hidden_copy_sound :
    validatePath (conflictPathName "d/.a.b" (sanitizeConflictLabel "x/..")) = .ok () ∧
      conflictPathName "d/.a.b" (sanitizeConflictLabel "x/..") ≠ "d/.a.b" := by
  have hcopy := (conflict_copies_sound "x/..").1 "d/.a.b" (by decide)
  exact ⟨hcopy.1, hcopy.2.1⟩

end Soal

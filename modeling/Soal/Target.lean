/-
  Soal.Target — the target directory of a restore: joining logical paths to it, making directories
  and writing files there.
-/
import Soal.Lib.FileTree
import Soal.Paths
import Soal.Vault.History

namespace Soal

open Posix FileProg

/-! ## §1. The file system as the restore uses it. -/

/-- `std::io::Error` of a failed call. -/
def ioError : Errno → SoalError
  | .noEnt => .notFound
  | .notDir => .io "Not a directory (os error 20)"
  | .loop => .io "Too many levels of symbolic links (os error 40)"
  | .exist => .io "File exists (os error 17)"
  | .isDir => .io "Is a directory (os error 21)"
  | .inval => .io "file name contained an unexpected NUL byte"

def ioRes {α : Type} (r : Except Errno α) : Res α := r.mapError (fun e => .err (ioError e))

def escapes : SoalError := .invalidPath "path escapes target directory"

section SafeJoin

variable (t : FileTree) (cwd : Place)

/-- Once the target exists: the joined path, or else its parent, must lie in it if it exists. -/
def staysIn (base : Place) (joined : String) : Res String := do
  let path := Path.ofString joined
  if pathExists t cwd path then
    let full ← ioRes (stat t cwd path)
    if base <:+ full then return joined else fail escapes
  else
    match path.parent with
    | some parent =>
      if pathExists t cwd parent then
        let parentC ← ioRes (stat t cwd parent)
        if base <:+ parentC then return joined else fail escapes
      else return joined
    | none => return joined

/-- Ensure `target_dir.join(logical)` stays under `target_dir` after canonicalize-ish checks. -/
def safeJoin (targetDir logical : String) : Res String := do
  let logical ← normalizeAndValidate logical
  let joined := Path.joinText targetDir logical
  if Seg.up ∈ (Path.ofString joined).components then fail escapes
  else if pathExists t cwd (.ofString targetDir) then
    let base ← ioRes (stat t cwd (.ofString targetDir))
    staysIn t cwd base joined
  else return joined

end SafeJoin

/-- The result of a call that leaves its disk behind. -/
def settled (r : Except Errno Unit × Disk) : Res Unit × Disk := (ioRes r.1, r.2)

/-- The target of a restore on a disk, seen from the directory `cwd`. -/
def diskTarget (cwd : Place) (target : String) : Destination Disk where
  createTarget d := settled (createDirAll cwd d (.ofString target))
  safeJoin d name := Soal.safeJoin d.tree cwd target name
  createParent d outPath :=
    match (Path.ofString outPath).parent with
    | none => (.ok (), d)
    | some parent => settled (createDirAll cwd d parent)
  write d outPath b :=
    match Posix.write cwd d (.ofString outPath) b with
    | .ok d => (.ok (), d)
    | .error e => (fail (ioError e), d)

/-! ## §2. Joined paths. -/

/-- The names in a logical path. -/
def logicalNames (logical : String) : List String :=
  (logical.toList.splitOn '/').map String.ofList

theorem logicalNames_ne_nil (logical : String) : logicalNames logical ≠ [] := by
  simp [logicalNames, List.splitOn_ne_nil]

/-- A valid logical path is a relative path of names. -/
theorem ofString_valid {logical : String} (h : validatePath logical = .ok ()) :
    Path.ofString logical = ⟨false, (logicalNames logical).map .name, false⟩ := by
  obtain ⟨hne, -, -, habs, -, hsegs⟩ := validatePathChars_ok_iff.1 h
  -- a valid path has no empty segment
  have hfilter : (logical.toList.splitOn '/').filter (fun seg => !seg.isEmpty) =
      logical.toList.splitOn '/' := by
    rw [List.filter_eq_self]
    intro seg hseg
    simpa using (hsegs seg hseg).1
  -- so it does not end in a separator
  have hlast : logical.toList.getLast? ≠ some '/' := by
    intro hlast
    obtain ⟨d, hd⟩ := List.getLast?_eq_some_iff.1 hlast
    have hempty : [] ∈ logical.toList.splitOn '/' := by
      rw [hd, List.splitOn_append_cons_self, List.splitOn_nil]
      exact List.mem_append_right _ (List.mem_singleton.2 rfl)
    exact (hsegs _ hempty).1 rfl
  unfold Path.ofString Path.ofChars Path.segsOf
  rw [hfilter]
  simp only [Posix.Path.mk.injEq]
  refine ⟨?_, ?_, ?_⟩
  · simpa using habs
  · rw [logicalNames, List.map_map]
    refine List.map_congr_left fun seg hseg => ?_
    show Seg.ofChars seg = _
    rw [Seg.ofChars, if_neg (hsegs seg hseg).2.1, if_neg (hsegs seg hseg).2.2]
    rfl
  · simpa using hlast

section Joined

variable {target logical : String}

theorem ofString_joined (h : validatePath logical = .ok ()) :
    Path.ofString (Path.joinText target logical) = ⟨(Path.ofString target).absolute,
      (Path.ofString target).segs ++ (logicalNames logical).map .name, false⟩ := by
  refine Path.ofString_joinText (ofString_valid h) rfl ?_
  rintro rfl
  cases h

/-- The target apart, no `..` is in a joined path. -/
theorem up_mem_joined (h : validatePath logical = .ok ()) :
    Seg.up ∈ (Path.ofString (Path.joinText target logical)).components ↔
      Seg.up ∈ (Path.ofString target).segs := by
  rw [Path.up_mem_components, ofString_joined h, List.mem_append]
  simp

/-- The parent of a joined path: the last name goes. -/
theorem parent_joined (h : validatePath logical = .ok ()) :
    (Path.ofString (Path.joinText target logical)).parent = some ⟨(Path.ofString target).absolute,
      (Path.ofString target).components ++ (logicalNames logical).dropLast.map .name, false⟩ := by
  rw [ofString_joined h]
  unfold Path.parent
  rw [Path.components_append]
  obtain ⟨n, hn⟩ : ∃ n, logicalNames logical = (logicalNames logical).dropLast ++ [n] :=
    ⟨_, (List.dropLast_append_getLast (logicalNames_ne_nil logical)).symm⟩
  rw [hn, List.map_append, ← List.append_assoc, List.reverse_append]
  simp

end Joined

/-! ## §3. What is joined. -/

/-- No link lies below a place. -/
def NoLinksBelow (t : FileTree) (base : Place) : Prop :=
  ∀ q, base <:+ q → q ≠ base → ∀ l, t.node q ≠ some (.link l)

section Accepted

variable {t : FileTree} {cwd base : Place} {target logical : String} {q : Path}

/-- Where a path that leads somewhere leads. -/
theorem stat_ok_iff {p : Place} : stat t cwd q = .ok p ↔ q.hasNul = false ∧ q.isEmpty = false ∧
    ∃ k, walk t maxLinks (start cwd q) q.steps = .ok (.found p, k) := by
  unfold stat lookup
  by_cases hnul : q.hasNul = true
  · simp [hnul]
  · by_cases hempty : q.isEmpty = true
    · simp [hnul, hempty]
    · rw [if_neg hnul, if_neg hempty]
      cases hwalk : walk t maxLinks (start cwd q) q.steps with
      | error e => simp
      | ok r =>
        obtain ⟨hit, k⟩ := r
        cases hit with
        | found p' => simp [hnul, hempty]
        | missing n p' => simp

theorem pathExists_iff : pathExists t cwd q = true ↔ ∃ p, stat t cwd q = .ok p := by
  unfold pathExists
  cases stat t cwd q with
  | error e => simp [Except.isOk, Except.toBool]
  | ok p => simp [Except.isOk, Except.toBool]

/-- **Without links below the target, names below it lead down from it.** -/
theorem below_target (hbase : stat t cwd (.ofString target) = .ok base) (hno : NoLinksBelow t base)
    {segs : List Seg} (hsegs : segs = (Path.ofString target).segs ∨
      segs = (Path.ofString target).components) {ns : List String} {b : Bool} {p : Place}
    (h : stat t cwd ⟨(Path.ofString target).absolute, segs ++ ns.map .name, b⟩ = .ok p) :
    base <:+ p := by
  obtain ⟨-, -, k, hwalk⟩ := stat_ok_iff.1 hbase
  obtain ⟨-, -, k', hp⟩ := stat_ok_iff.1 h
  have htarget : walk t maxLinks (start cwd (Path.ofString target)) segs = .ok (.found base, k) := by
    rcases hsegs with rfl | rfl
    · exact walk_segs hwalk
    · exact walk_components (walk_segs hwalk)
  have hp : walk t maxLinks (start cwd (Path.ofString target)) (segs ++ ns.map .name) =
      .ok (.found p, k') := walk_segs hp
  rw [walk_append_found htarget] at hp
  rw [(walk_names hno hp).1]
  exact List.suffix_append _ _

/-- A target that exists takes every valid path. -/
theorem staysIn_ok (h : validatePath logical = .ok ())
    (hbase : stat t cwd (.ofString target) = .ok base) (hno : NoLinksBelow t base) :
    staysIn t cwd base (Path.joinText target logical) = .ok (Path.joinText target logical) := by
  unfold staysIn
  dsimp only
  by_cases hexists : pathExists t cwd (.ofString (Path.joinText target logical)) = true
  · obtain ⟨full, hfull⟩ := pathExists_iff.1 hexists
    have hbelow : base <:+ full := by
      rw [ofString_joined h] at hfull
      exact below_target hbase hno (.inl rfl) hfull
    rw [if_pos hexists, hfull]
    exact if_pos hbelow
  · rw [if_neg hexists, parent_joined h]
    dsimp only
    by_cases hparent : pathExists t cwd ⟨(Path.ofString target).absolute,
        (Path.ofString target).components ++ (logicalNames logical).dropLast.map .name, false⟩ = true
    · obtain ⟨parentC, hparentC⟩ := pathExists_iff.1 hparent
      rw [if_pos hparent, hparentC]
      exact if_pos (below_target hbase hno (.inr rfl) hparentC)
    · rw [if_neg hparent]
      rfl

theorem safeJoin_valid (h : validatePath logical = .ok ()) :
    safeJoin t cwd target logical =
      if Seg.up ∈ (Path.ofString (Path.joinText target logical)).components then fail escapes
      else if pathExists t cwd (.ofString target) then
        (ioRes (stat t cwd (.ofString target))).bind (fun base =>
          staysIn t cwd base (Path.joinText target logical))
      else .ok (Path.joinText target logical) := by
  unfold safeJoin
  rw [normalizeAndValidate_valid h]
  rfl

/-- **A valid path is joined to the target exactly when the target has no `..` in it**, whether the
target exists or not, as long as no link lies below it. -/
theorem safeJoin_iff (h : validatePath logical = .ok ())
    (hno : ∀ base, stat t cwd (.ofString target) = .ok base → NoLinksBelow t base) :
    safeJoin t cwd target logical = .ok (Path.joinText target logical) ↔
      Seg.up ∉ (Path.ofString target).segs := by
  rw [safeJoin_valid h]
  by_cases hup : Seg.up ∈ (Path.ofString target).segs
  · rw [if_pos ((up_mem_joined h).2 hup)]
    constructor
    · intro hok
      cases hok
    · exact fun hnot => absurd hup hnot
  · rw [if_neg fun hmem => hup ((up_mem_joined h).1 hmem)]
    refine iff_of_true ?_ hup
    by_cases hexists : pathExists t cwd (.ofString target) = true
    · obtain ⟨base, hbase⟩ := pathExists_iff.1 hexists
      rw [if_pos hexists, hbase]
      exact staysIn_ok h hbase (hno base hbase)
    · rw [if_neg hexists]

end Accepted

/-! ## §4. A target beside the working directory. -/

/-- A file below a target that does not exist yet, seen from the root. -/
theorem safeJoin_restored : safeJoin .bare [] "restored" "a/b.txt" = .ok "restored/a/b.txt" := by
  refine (safeJoin_iff (by decide) fun base hbase => ?_).2 (by decide)
  intro q _ _ l hl
  unfold FileTree.bare at hl
  dsimp only at hl
  split at hl <;> cases hl

/-- `out` is the directory `/out`, seen from `/work`. -/
def siblingTree : FileTree := ((FileTree.bare.put ["work"] .dir).put ["out"] .dir)

/-- `../out` is refused, although it leads to `/out` and the file would lie in it. -/
theorem safeJoin_sibling : safeJoin siblingTree ["work"] "../out" "a.txt" = .error (.err escapes) ∧
    stat siblingTree ["work"] (.ofString "../out") = .ok ["out"] ∧
    (∀ q l, siblingTree.node q ≠ some (.link l)) ∧ validatePath "a.txt" = .ok () := by
  refine ⟨by decide, by decide, fun q l => ?_, by decide⟩
  have hwork : FileTree.bare.node ["work"] ≠ some .dir := by decide
  have hout : (FileTree.bare.put ["work"] .dir).node ["out"] ≠ some .dir := by decide
  unfold siblingTree
  rw [FileTree.node_put _ (FileTree.root_dir _) hout, FileTree.node_put _ rfl hwork]
  split
  next => nofun
  next =>
    split
    next => nofun
    next =>
      unfold FileTree.bare
      dsimp only
      split <;> nofun

end Soal

/-
  Soal.Lib.FileTree — path text, a tree of directories, files and symbolic links, and the system
  calls that look names up in it.

  A lookup follows the segments of a path from a directory, through links, and spends one unit of a
  budget for each link.  It ends at something that is there, at a name missing from a directory, or
  with an error.

  Nothing here names a particular program.
-/
import Mathlib.Data.List.DropRight
import Mathlib.Logic.Function.Basic

namespace Posix

/-! ## §1. Paths as text. -/

/-- A segment of a path. -/
inductive Seg where
  | cur
  | up
  | name (n : String)
  deriving DecidableEq

def Seg.ofChars (s : List Char) : Seg :=
  if s = ['.'] then .cur else if s = ['.', '.'] then .up else .name (String.ofList s)

/-- A path: its text cut at the separators, empty segments left out. -/
structure Path where
  absolute : Bool
  segs : List Seg
  /-- the text ends with a separator -/
  slash : Bool
  deriving DecidableEq

namespace Path

def segsOf (s : List Char) : List Seg :=
  ((s.splitOn '/').filter (fun seg => !seg.isEmpty)).map Seg.ofChars

def ofChars (s : List Char) : Path := ⟨s.head? == some '/', segsOf s, s.getLast? == some '/'⟩

def ofString (s : String) : Path := ofChars s.toList

/-- `Path::join` on texts: an absolute path replaces the other. -/
def joinChars (p q : List Char) : List Char :=
  if q.head? = some '/' then q
  else if p = [] ∨ p.getLast? = some '/' then p ++ q
  else p ++ '/' :: q

def joinText (p q : String) : String := String.ofList (joinChars p.toList q.toList)

/-- The empty path names nothing. -/
def isEmpty (q : Path) : Bool := !q.absolute && q.segs.isEmpty

/-- No system call takes a path with a NUL. -/
def hasNul (q : Path) : Bool :=
  q.segs.any (fun s => match s with
    | .name n => n.toList.contains '\x00'
    | _ => false)

/-- What a lookup goes through; a separator at the end asks for a directory. -/
def steps (q : Path) : List Seg := if q.slash then q.segs ++ [.cur] else q.segs

/-- `Path::components`: a `.` counts only at the start of a relative path. -/
def components (q : Path) : List Seg :=
  match q.absolute, q.segs with
  | false, .cur :: segs => .cur :: segs.filter (· ≠ .cur)
  | _, segs => segs.filter (· ≠ .cur)

/-- `Path::parent` -/
def parent (q : Path) : Option Path :=
  match q.components.reverse with
  | [] => none
  | _ :: r => some ⟨q.absolute, r.reverse, false⟩

end Path

/-! ## §2. The tree. -/

/-- Where something is: its names, innermost first; the root is `[]`. -/
abbrev Place := List String

inductive Node where
  | dir
  | file (b : List UInt8)
  | link (target : Path)
  deriving DecidableEq

/-- Every entry is in a directory. -/
structure FileTree where
  node : Place → Option Node
  root_dir : node [] = some .dir
  parent_dir : ∀ n p, node (n :: p) ≠ none → node p = some .dir

namespace FileTree

/-- Nothing but the root. -/
def bare : FileTree where
  node p := if p = [] then some .dir else none
  root_dir := rfl
  parent_dir n p h := absurd (if_neg (List.cons_ne_nil n p)) h

/-- Put an entry into a directory; a directory is not replaced. -/
def put (t : FileTree) : Place → Node → FileTree
  | [], _ => t
  | n :: p, x =>
    if h : t.node p = some .dir ∧ t.node (n :: p) ≠ some .dir then {
      node := Function.update t.node (n :: p) (some x)
      root_dir := by rw [Function.update_of_ne (by simp)]; exact t.root_dir
      parent_dir := by
        intro m r hm
        have hdir : t.node r = some .dir := by
          by_cases heq : m :: r = n :: p
          · rw [(List.cons.inj heq).2]
            exact h.1
          · rw [Function.update_of_ne heq] at hm
            exact t.parent_dir m r hm
        have hne : r ≠ n :: p := by
          intro heq
          rw [heq] at hdir
          exact h.2 hdir
        rw [Function.update_of_ne hne]
        exact hdir }
    else t

theorem node_put {t : FileTree} {n : String} {p : Place} (x : Node) (hp : t.node p = some .dir)
    (hn : t.node (n :: p) ≠ some .dir) (q : Place) :
    (t.put (n :: p) x).node q = if q = n :: p then some x else t.node q := by
  simp only [put]
  rw [dif_pos ⟨hp, hn⟩]
  exact Function.update_apply _ _ _ _

end FileTree

/-! ## §3. Lookups. -/

inductive Errno where
  | noEnt
  | notDir
  | loop
  | exist
  | isDir
  | inval
  deriving DecidableEq

/-- Where a lookup ends: at something that is there, or at a name missing from a directory. -/
inductive Hit where
  | found (p : Place)
  | missing (n : String) (p : Place)
  deriving DecidableEq

/-- Links a lookup follows before it gives up. -/
def maxLinks : Nat := 40

section Lookup

variable (t : FileTree)

/-- Follow segments from `p`; `behind` goes on behind a link. -/
def follow (k : Nat) (behind : Place → List Seg → Except Errno (Hit × Nat)) :
    Place → List Seg → Except Errno (Hit × Nat)
  | p, [] => .ok (.found p, k)
  | p, s :: rest =>
    if t.node p = some .dir then
      match s with
      | .cur => follow k behind p rest
      | .up => follow k behind p.tail rest
      | .name n =>
        match t.node (n :: p) with
        | none => if rest = [] then .ok (.missing n p, k) else .error .noEnt
        | some (.link q) => behind (if q.absolute then [] else p) (q.steps ++ rest)
        | some _ => follow k behind (n :: p) rest
    else .error .notDir

/-- Follow segments through at most `k` links; what is left of `k` comes back. -/
def walk : Nat → Place → List Seg → Except Errno (Hit × Nat)
  | 0 => follow t 0 (fun _ _ => .error .loop)
  | k + 1 => follow t (k + 1) (walk k)

variable (cwd : Place)

/-- The directory a path starts from. -/
def start (q : Path) : Place := if q.absolute then [] else cwd

def lookup (q : Path) : Except Errno (Hit × Nat) :=
  if q.hasNul then .error .inval
  else if q.isEmpty then .error .noEnt
  else walk t maxLinks (start cwd q) q.steps

/-- Where a path leads; also `fs::canonicalize`. -/
def stat (q : Path) : Except Errno Place :=
  match lookup t cwd q with
  | .ok (.found p, _) => .ok p
  | .ok (.missing _ _, _) => .error .noEnt
  | .error e => .error e

/-- `path.exists()` -/
def pathExists (q : Path) : Bool := (stat t cwd q).isOk

/-- `path.is_dir()` -/
def isDir (q : Path) : Bool :=
  match stat t cwd q with
  | .ok p => t.node p = some .dir
  | .error _ => false

/-- `fs::read` -/
def readAt (q : Path) : Except Errno (List UInt8) :=
  match stat t cwd q with
  | .error e => .error e
  | .ok p =>
    match t.node p with
    | some (.file b) => .ok b
    | _ => .error .isDir

end Lookup

/-! ## §4. Calls that change the tree. -/

/-- A tree, and the places created or written so far, newest first.  No call can read the list. -/
structure Disk where
  tree : FileTree
  touched : List Place

/-- Put an entry, and note its place. -/
def Disk.put (d : Disk) (p : Place) (x : Node) : Disk := ⟨d.tree.put p x, p :: d.touched⟩

section Calls

variable (cwd : Place)

/-- `fs::create_dir`: the last segment is not followed, and must be a new name. -/
def mkdir (d : Disk) (q : Path) : Except Errno Disk :=
  if q.hasNul then .error .inval
  else
    match q.segs.reverse with
    | [] => .error (if q.absolute then .exist else .noEnt)
    | s :: r =>
      match walk d.tree maxLinks (start cwd q) r.reverse with
      | .error e => .error e
      | .ok (.missing _ _, _) => .error .noEnt
      | .ok (.found p, _) =>
        if d.tree.node p = some .dir then
          match s with
          | .name n =>
            if d.tree.node (n :: p) = none then .ok (d.put (n :: p) .dir) else .error .exist
          | _ => .error .exist
        else .error .notDir

/-- One directory of `fs::create_dir_all`: when something above it is missing, that is made first. -/
def ensureDir (d : Disk) (q : Path) (above : Disk → Except Errno Unit × Disk) :
    Except Errno Unit × Disk :=
  let settle (d : Disk) (e : Errno) : Except Errno Unit × Disk :=
    (if isDir d.tree cwd q then .ok () else .error e, d)
  match mkdir cwd d q with
  | .ok d => (.ok (), d)
  | .error .noEnt =>
    match above d with
    | (.error e, d) => (.error e, d)
    | (.ok (), d) =>
      match mkdir cwd d q with
      | .ok d => (.ok (), d)
      | .error e => settle d e
  | .error e => settle d e

/-- The directories above, by their components, innermost first. -/
def createAbove (absolute : Bool) : List Seg → Disk → Except Errno Unit × Disk
  | [], d => (.ok (), d)
  | s :: r, d => ensureDir cwd d ⟨absolute, (s :: r).reverse, false⟩ (createAbove absolute r)

/-- `fs::create_dir_all` -/
def createDirAll (d : Disk) (q : Path) : Except Errno Unit × Disk :=
  if q.isEmpty then (.ok (), d)
  else ensureDir cwd d q (createAbove cwd q.absolute q.components.reverse.tail)

/-- `fs::write`: links are followed, also one that leads to a missing name. -/
def write (d : Disk) (q : Path) (b : List UInt8) : Except Errno Disk :=
  match lookup d.tree cwd q with
  | .error e => .error e
  | .ok (.missing n p, _) => .ok (d.put (n :: p) (.file b))
  | .ok (.found p, _) =>
    match d.tree.node p with
    | some (.file _) => .ok (d.put p (.file b))
    | _ => .error .isDir

end Calls

/-- Where a path leads by its text alone: `..` takes one name off. -/
def Path.lexical (cwd : Place) (q : Path) : Place :=
  q.segs.foldl (fun p s => match s with
    | .cur => p
    | .up => p.tail
    | .name n => n :: p) (start cwd q)

theorem Path.lexical_append (cwd : Place) (q : Path) (ns : List String) :
    (⟨q.absolute, q.segs ++ ns.map .name, false⟩ : Path).lexical cwd =
      ns.reverse ++ q.lexical cwd := by
  have hdown : ∀ (ns : List String) (p : Place), (ns.map Seg.name).foldl (fun p s => match s with
      | .cur => p
      | .up => p.tail
      | .name n => n :: p) p = ns.reverse ++ p := by
    intro ns
    induction ns with
    | nil => exact fun _ => rfl
    | cons n ns ih =>
      intro p
      rw [List.map_cons, List.foldl_cons, ih, List.reverse_cons, List.append_assoc]
      rfl
  unfold Path.lexical
  rw [List.foldl_append, hdown]
  rfl

/-! ## §5. Rules of lookups. -/

section LookupRules

variable {t t' : FileTree} {k k' : Nat} {p q base : Place} {s s₁ s₂ rest : List Seg} {n : String}

@[simp] theorem walk_nil : walk t k p [] = .ok (.found p, k) := by
  cases k <;> rfl

theorem walk_notDir {x : Seg} (hp : t.node p ≠ some .dir) :
    walk t k p (x :: rest) = .error .notDir := by
  cases k <;> exact if_neg hp

theorem walk_cur (hp : t.node p = some .dir) : walk t k p (.cur :: rest) = walk t k p rest := by
  cases k <;> exact if_pos hp

theorem walk_up (hp : t.node p = some .dir) : walk t k p (.up :: rest) = walk t k p.tail rest := by
  cases k <;> exact if_pos hp

theorem walk_none (hp : t.node p = some .dir) (hn : t.node (n :: p) = none) :
    walk t k p (.name n :: rest) =
      if rest = [] then .ok (.missing n p, k) else .error .noEnt := by
  cases k <;> simp only [walk, follow, hp, hn, if_true]

theorem walk_some {x : Node} (hp : t.node p = some .dir) (hn : t.node (n :: p) = some x)
    (hx : ∀ l, x ≠ .link l) : walk t k p (.name n :: rest) = walk t k (n :: p) rest := by
  cases x with
  | dir => cases k <;> simp only [walk, follow, hp, hn, if_true]
  | file b => cases k <;> simp only [walk, follow, hp, hn, if_true]
  | link l => exact absurd rfl (hx l)

theorem walk_link_zero {l : Path} (hp : t.node p = some .dir)
    (hn : t.node (n :: p) = some (.link l)) :
    walk t 0 p (.name n :: rest) = .error .loop := by
  simp only [walk, follow, hp, hn, if_true]

theorem walk_link_succ {l : Path} (hp : t.node p = some .dir)
    (hn : t.node (n :: p) = some (.link l)) :
    walk t (k + 1) p (.name n :: rest) =
      walk t k (if l.absolute then [] else p) (l.steps ++ rest) := by
  simp only [walk, follow, hp, hn, if_true]

/-- Induction along a lookup: a case for each way its first segment can go. -/
theorem walk_induction (t : FileTree) {motive : Nat → Place → List Seg → Prop}
    (nil : ∀ k p, motive k p [])
    (notDir : ∀ k p x rest, t.node p ≠ some .dir → motive k p (x :: rest))
    (cur : ∀ k p rest, t.node p = some .dir → motive k p rest → motive k p (.cur :: rest))
    (up : ∀ k p rest, t.node p = some .dir → motive k p.tail rest → motive k p (.up :: rest))
    (missing : ∀ k p n rest, t.node p = some .dir → t.node (n :: p) = none →
      motive k p (.name n :: rest))
    (entry : ∀ k p n x rest, t.node p = some .dir → t.node (n :: p) = some x →
      (∀ l, x ≠ .link l) → motive k (n :: p) rest → motive k p (.name n :: rest))
    (loop : ∀ p n l rest, t.node p = some .dir → t.node (n :: p) = some (.link l) →
      motive 0 p (.name n :: rest))
    (link : ∀ k p n l rest, t.node p = some .dir → t.node (n :: p) = some (.link l) →
      motive k (if l.absolute then [] else p) (l.steps ++ rest) →
      motive (k + 1) p (.name n :: rest))
    (k : Nat) (p : Place) (s : List Seg) : motive k p s := by
  -- links left first: a link followed may make the path longer
  induction k using Nat.strong_induction_on generalizing p s with
  | _ k ihk =>
    induction s generalizing p with
    | nil => exact nil k p
    | cons x rest ih =>
      by_cases hp : t.node p = some .dir
      · cases x with
        | cur => exact cur k p rest hp (ih p)
        | up => exact up k p rest hp (ih p.tail)
        | name n =>
          cases hn : t.node (n :: p) with
          | none => exact missing k p n rest hp hn
          | some y =>
            cases y with
            | dir => exact entry k p n _ rest hp hn (by simp) (ih _)
            | file b => exact entry k p n _ rest hp hn (by simp) (ih _)
            | link l =>
              cases k with
              | zero => exact loop p n l rest hp hn
              | succ k => exact link k p n l rest hp hn (ihk k (Nat.lt_succ_self k) _ _)
      · exact notDir k p x rest hp

/-- Go on after a lookup. -/
def resume (t : FileTree) (s : List Seg) : Hit × Nat → Except Errno (Hit × Nat)
  | (.found p, k) => walk t k p s
  | (.missing n p, k) => if s = [] then .ok (.missing n p, k) else .error .noEnt

/-- **A lookup goes segment by segment**: what is left of the budget after the first segments is
there for the rest. -/
theorem walk_append : walk t k p (s₁ ++ s₂) = (walk t k p s₁).bind (resume t s₂) := by
  induction k, p, s₁ using walk_induction t with
  | nil k p => rw [walk_nil]; rfl
  | notDir k p x rest hp => rw [List.cons_append, walk_notDir hp, walk_notDir hp]; rfl
  | cur k p rest hp ih => rw [List.cons_append, walk_cur hp, walk_cur hp, ih]
  | up k p rest hp ih => rw [List.cons_append, walk_up hp, walk_up hp, ih]
  | missing k p n rest hp hn =>
    rw [List.cons_append, walk_none hp hn, walk_none hp hn]
    cases rest with
    | nil => rfl
    | cons y rest => rw [if_neg (by simp), if_neg (by simp)]; rfl
  | entry k p n x rest hp hn hx ih =>
    rw [List.cons_append, walk_some hp hn hx, walk_some hp hn hx, ih]
  | loop p n l rest hp hn => rw [List.cons_append, walk_link_zero hp hn, walk_link_zero hp hn]; rfl
  | link k p n l rest hp hn ih =>
    rw [List.cons_append, walk_link_succ hp hn, walk_link_succ hp hn, ← List.append_assoc, ih]

theorem walk_append_found (h : walk t k p s₁ = .ok (.found q, k')) :
    walk t k p (s₁ ++ s₂) = walk t k' q s₂ := by
  rw [walk_append, h]
  rfl

/-- Whatever lies on the way of a lookup is there. -/
theorem walk_prefix {hit : Hit} (h : walk t k p (s₁ ++ s₂) = .ok (hit, k')) (hs : s₂ ≠ []) :
    ∃ q k₁, walk t k p s₁ = .ok (.found q, k₁) ∧ t.node q = some .dir ∧
      walk t k₁ q s₂ = .ok (hit, k') := by
  rw [walk_append] at h
  cases h₁ : walk t k p s₁ with
  | error e => rw [h₁] at h; cases h
  | ok r =>
    obtain ⟨hit₁, k₁⟩ := r
    rw [h₁] at h
    cases hit₁ with
    | missing n q =>
      have h : (if s₂ = [] then _ else _) = _ := h
      rw [if_neg hs] at h
      cases h
    | found q =>
      have h : walk t k₁ q s₂ = _ := h
      refine ⟨q, k₁, rfl, ?_, h⟩
      by_contra hq
      obtain ⟨x, rest, rfl⟩ := List.exists_cons_of_ne_nil hs
      rw [walk_notDir hq] at h
      cases h

/-- A name is missing from a directory. -/
theorem walk_missing (h : walk t k p s = .ok (.missing n q, k')) :
    t.node q = some .dir ∧ t.node (n :: q) = none := by
  induction k, p, s using walk_induction t with
  | nil k p => rw [walk_nil] at h; cases h
  | notDir k p x rest hp => rw [walk_notDir hp] at h; cases h
  | cur k p rest hp ih => rw [walk_cur hp] at h; exact ih h
  | up k p rest hp ih => rw [walk_up hp] at h; exact ih h
  | missing k p m rest hp hm =>
    rw [walk_none hp hm] at h
    split at h
    · cases h
      exact ⟨hp, hm⟩
    · cases h
  | entry k p m x rest hp hm hx ih => rw [walk_some hp hm hx] at h; exact ih h
  | loop p m l rest hp hm => rw [walk_link_zero hp hm] at h; cases h
  | link k p m l rest hp hm ih => rw [walk_link_succ hp hm] at h; exact ih h

/-- A `.` on the way makes no difference to where a path leads. -/
theorem walk_filter (h : walk t k p s = .ok (.found q, k')) :
    walk t k p (s.filter (· ≠ .cur)) = .ok (.found q, k') := by
  induction s generalizing k p with
  | nil => exact h
  | cons x s ih =>
    rw [show x :: s = [x] ++ s from rfl] at h
    by_cases hx : x = .cur
    · rw [hx] at h ⊢
      rw [List.filter_cons_of_neg (by simp)]
      by_cases hp : t.node p = some .dir
      · rw [List.singleton_append, walk_cur hp] at h
        exact ih h
      · rw [List.singleton_append, walk_notDir hp] at h
        cases h
    · rw [List.filter_cons_of_pos (by simpa using hx), show ∀ l : List Seg, x :: l = [x] ++ l from
        fun _ => rfl]
      by_cases hs : s = []
      · rw [hs] at h ⊢
        exact h
      · obtain ⟨q₁, k₁, h₁, -, h₂⟩ := walk_prefix h hs
        rw [walk_append_found h₁]
        exact ih h₂

/-- A separator at the end changes nothing where there is a directory. -/
theorem walk_segs {l : Path} (h : walk t k p l.steps = .ok (.found q, k')) :
    walk t k p l.segs = .ok (.found q, k') := by
  unfold Path.steps at h
  split at h
  · obtain ⟨r, k₁, h₁, hr, h₂⟩ := walk_prefix h (by simp)
    rw [walk_cur hr, walk_nil] at h₂
    cases h₂
    exact h₁
  · exact h

/-- The components of a path lead where the path leads. -/
theorem walk_components {l : Path} (h : walk t k p l.segs = .ok (.found q, k')) :
    walk t k p l.components = .ok (.found q, k') := by
  unfold Path.components
  split
  next segs habs hsegs =>
    rw [hsegs] at h
    by_cases hp : t.node p = some .dir
    · rw [walk_cur hp] at h ⊢
      exact walk_filter h
    · rw [walk_notDir hp] at h
      cases h
  next => exact walk_filter h

/-! ## §6. Trees that grow. -/

/-- Whatever is there stays: entries come in, and files may be rewritten. -/
def FileTree.Grows (t t' : FileTree) : Prop := ∀ p x, t.node p = some x →
  t'.node p = some x ∨ ∃ b b', x = .file b ∧ t'.node p = some (.file b')

theorem FileTree.Grows.refl : t.Grows t := fun _ _ h => .inl h

theorem FileTree.Grows.trans {t'' : FileTree} (h : t.Grows t') (h' : t'.Grows t'') : t.Grows t'' := by
  intro p x hp
  rcases h p x hp with h₁ | ⟨b, b', rfl, h₁⟩
  · exact h' p x h₁
  · rcases h' p _ h₁ with h₂ | ⟨_, b'', -, h₂⟩
    · exact .inr ⟨b, b', rfl, h₂⟩
    · exact .inr ⟨b, b'', rfl, h₂⟩

theorem FileTree.Grows.dir (h : t.Grows t') (hp : t.node p = some .dir) : t'.node p = some .dir := by
  rcases h p _ hp with h₁ | ⟨_, _, hb, -⟩
  · exact h₁
  · cases hb

/-- **What a path leads to stays where it is while the tree grows.** -/
theorem walk_grows (hg : t.Grows t') (h : walk t k p s = .ok (.found q, k')) :
    walk t' k p s = .ok (.found q, k') := by
  induction k, p, s using walk_induction t with
  | nil k p => rw [walk_nil] at h ⊢; exact h
  | notDir k p x rest hp => rw [walk_notDir hp] at h; cases h
  | cur k p rest hp ih => rw [walk_cur hp] at h; rw [walk_cur (hg.dir hp)]; exact ih h
  | up k p rest hp ih => rw [walk_up hp] at h; rw [walk_up (hg.dir hp)]; exact ih h
  | missing k p m rest hp hm =>
    rw [walk_none hp hm] at h
    split at h <;> cases h
  | entry k p m x rest hp hm hx ih =>
    rw [walk_some hp hm hx] at h
    rcases hg _ _ hm with hm' | ⟨b, b', -, hm'⟩
    · rw [walk_some (hg.dir hp) hm' hx]
      exact ih h
    · rw [walk_some (hg.dir hp) hm' (by simp)]
      exact ih h
  | loop p m l rest hp hm => rw [walk_link_zero hp hm] at h; cases h
  | link k p m l rest hp hm ih =>
    rw [walk_link_succ hp hm] at h
    rcases hg _ _ hm with hm' | ⟨b, b', hb, -⟩
    · rw [walk_link_succ (hg.dir hp) hm']
      exact ih h
    · cases hb

/-- Without links, names lead straight down. -/
theorem walk_names {ns : List String} (hno : ∀ q, p <:+ q → q ≠ p → ∀ l, t.node q ≠ some (.link l))
    (h : walk t k p (ns.map .name) = .ok (.found q, k')) : q = ns.reverse ++ p ∧ k' = k := by
  induction ns generalizing p with
  | nil =>
    rw [List.map_nil, walk_nil] at h
    cases h
    exact ⟨rfl, rfl⟩
  | cons n ns ih =>
    rw [List.map_cons] at h
    by_cases hp : t.node p = some .dir
    · cases hn : t.node (n :: p) with
      | none =>
        rw [walk_none hp hn] at h
        split at h <;> cases h
      | some x =>
        have hx : ∀ l, x ≠ .link l := by
          intro l hl
          exact hno (n :: p) (List.suffix_cons n p) (by simp) l (hl ▸ hn)
        rw [walk_some hp hn hx] at h
        have hrest := ih (p := n :: p) (fun r hr hne => hno r ((List.suffix_cons n p).trans hr) ?_) h
        · rw [List.reverse_cons, List.append_assoc]
          exact hrest
        · rintro rfl
          have hlen := hr.length_le
          rw [List.length_cons] at hlen
          omega
    · rw [walk_notDir hp] at h
      cases h

end LookupRules

/-! ## §7. Joined paths. -/

namespace Path

theorem segsOf_append (s₁ s₂ : List Char) :
    segsOf (s₁ ++ '/' :: s₂) = segsOf s₁ ++ segsOf s₂ := by
  unfold segsOf
  rw [List.splitOn_append_cons_self, List.filter_append, List.map_append]

theorem segsOf_joinChars {s₁ s₂ : List Char} (h : s₂.head? ≠ some '/') :
    segsOf (joinChars s₁ s₂) = segsOf s₁ ++ segsOf s₂ := by
  unfold joinChars
  rw [if_neg h]
  split
  next hs =>
    by_cases hnil : s₁ = []
    · rw [hnil]
      rfl
    · obtain ⟨d, rfl⟩ : ∃ d, s₁ = d ++ ['/'] := by
        have hlast := List.getLast?_eq_some_iff.1 (hs.resolve_left hnil)
        exact hlast
      have hend : segsOf (d ++ ['/']) = segsOf d := by
        rw [segsOf_append]
        exact List.append_nil _
      rw [List.append_assoc, List.singleton_append, segsOf_append, hend]
  next => exact segsOf_append _ _

theorem absolute_joinChars {s₁ s₂ : List Char} (h : s₂.head? ≠ some '/') :
    (joinChars s₁ s₂).head? = some '/' ↔ s₁.head? = some '/' := by
  unfold joinChars
  rw [if_neg h]
  cases s₁ with
  | nil => simpa using h
  | cons c s₁ => split <;> simp

/-- **A relative path joined to another goes on behind its segments.** -/
theorem ofString_joinText {s₁ s₂ : String} {q : Path} (hq : ofString s₂ = q)
    (habs : q.absolute = false) (hne : s₂ ≠ "") :
    ofString (joinText s₁ s₂) =
      ⟨(ofString s₁).absolute, (ofString s₁).segs ++ q.segs, q.slash⟩ := by
  have hrel : s₂.toList.head? ≠ some '/' := by
    intro h
    rw [← hq] at habs
    simp [ofString, ofChars, h] at habs
  have hlast : ∀ s₁ : List Char, (joinChars s₁ s₂.toList).getLast? = s₂.toList.getLast? := by
    intro s₁
    obtain ⟨d, c, hd⟩ : ∃ d c, s₂.toList = d ++ [c] := by
      have hne' : s₂.toList ≠ [] := by simpa using hne
      exact ⟨_, _, (List.dropLast_append_getLast hne').symm⟩
    unfold joinChars
    rw [if_neg hrel, hd]
    split
    · rw [← List.append_assoc, List.getLast?_concat, List.getLast?_concat]
    · rw [← List.cons_append, ← List.append_assoc, List.getLast?_concat, List.getLast?_concat]
  subst hq
  unfold ofString joinText ofChars
  rw [String.toList_ofList]
  simp only [Path.mk.injEq]
  refine ⟨?_, segsOf_joinChars hrel, by rw [hlast]⟩
  rw [Bool.eq_iff_iff, beq_iff_eq, beq_iff_eq]
  exact absolute_joinChars hrel

theorem components_append {q : Path} {ns : List String} (b : Bool) :
    (⟨q.absolute, q.segs ++ ns.map .name, b⟩ : Path).components =
      q.components ++ ns.map .name := by
  have hns : (ns.map Seg.name).filter (· ≠ .cur) = ns.map .name := by
    rw [List.filter_eq_self]
    intro x hx
    obtain ⟨n, -, rfl⟩ := List.mem_map.1 hx
    rfl
  obtain ⟨absolute, segs, slash⟩ := q
  cases absolute with
  | true =>
    show (segs ++ ns.map Seg.name).filter (· ≠ .cur) = segs.filter (· ≠ .cur) ++ _
    rw [List.filter_append, hns]
  | false =>
    cases segs with
    | nil =>
      cases ns with
      | nil => rfl
      | cons n ns => exact hns
    | cons x segs =>
      cases x with
      -- a leading `.` is kept, any other is not
      | cur =>
        show Seg.cur :: (segs ++ ns.map Seg.name).filter (· ≠ .cur) = Seg.cur :: segs.filter (· ≠ .cur) ++ _
        rw [List.filter_append, hns]
        rfl
      | up =>
        show ((Seg.up :: segs) ++ ns.map Seg.name).filter (· ≠ .cur) = (Seg.up :: segs).filter (· ≠ .cur) ++ _
        rw [List.filter_append, hns]
      | name n =>
        show ((Seg.name n :: segs) ++ ns.map Seg.name).filter (· ≠ .cur) = (Seg.name n :: segs).filter (· ≠ .cur) ++ _
        rw [List.filter_append, hns]

theorem mem_of_mem_components {q : Path} {x : Seg} (h : x ∈ q.components) : x ∈ q.segs := by
  obtain ⟨absolute, segs, slash⟩ := q
  unfold components at h
  split at h
  next hsegs =>
    have hsegs : segs = _ := hsegs
    subst hsegs
    rcases List.mem_cons.1 h with rfl | h
    · exact List.mem_cons_self
    · exact List.mem_cons_of_mem _ (List.mem_filter.1 h).1
  next => exact (List.mem_filter.1 h).1

/-- A path that is not empty has a component, or is the root. -/
theorem isEmpty_components {q : Path} (h : q.isEmpty = false) (rest : List Seg) :
    (⟨q.absolute, q.components ++ rest, false⟩ : Path).isEmpty = false := by
  obtain ⟨absolute, segs, slash⟩ := q
  cases absolute with
  | true => rfl
  | false =>
    cases segs with
    | nil => cases h
    | cons x segs => cases x <;> rfl

theorem up_mem_components {q : Path} : Seg.up ∈ q.components ↔ Seg.up ∈ q.segs := by
  obtain ⟨absolute, segs, slash⟩ := q
  unfold components
  split
  next hsegs =>
    have hsegs : segs = _ := hsegs
    subst hsegs
    simp
  next => simp

end Path

/-! ## §8. Rules of the calls. -/

section CallRules

variable {t : FileTree} {d d' : Disk} {cwd p base : Place} {k k' : Nat} {n : String} {x : Node}
  {q : Path} {b : List UInt8}

theorem FileTree.grows_put (hp : t.node p = some .dir) (hn : t.node (n :: p) = none) :
    t.Grows (t.put (n :: p) x) := by
  intro r y hr
  left
  rw [FileTree.node_put x hp (by rw [hn]; nofun), if_neg]
  · exact hr
  · rintro rfl
    rw [hn] at hr
    cases hr

theorem FileTree.grows_rewrite {b b' : List UInt8} (hb : t.node p = some (.file b)) :
    t.Grows (t.put p (.file b')) := by
  cases p with
  | nil =>
    rw [t.root_dir] at hb
    cases hb
  | cons n p =>
    have hp : t.node p = some .dir := t.parent_dir n p (by rw [hb]; nofun)
    intro r y hr
    rw [FileTree.node_put _ hp (by rw [hb]; nofun)]
    by_cases heq : r = n :: p
    · rw [heq, hb] at hr
      exact .inr ⟨b, b', (Option.some.inj hr).symm, if_pos heq⟩
    · exact .inl ((if_neg heq).trans hr)

/-- What `fs::create_dir` does when it succeeds. -/
theorem mkdir_ok (h : mkdir cwd d q = .ok d') : ∃ s n p k', q.segs = s ++ [.name n] ∧
    walk d.tree maxLinks (start cwd q) s = .ok (.found p, k') ∧ d.tree.node p = some .dir ∧
    d.tree.node (n :: p) = none ∧ d' = d.put (n :: p) .dir := by
  unfold mkdir at h
  split at h
  · cases h
  · split at h
    · cases h
    next s r hsegs =>
      split at h
      · cases h
      · cases h
      next p k' hwalk =>
        split at h
        next hp =>
          split at h
          next n =>
            split at h
            next hn =>
              refine ⟨r.reverse, n, p, k', ?_, hwalk, hp, hn, (Except.ok.inj h).symm⟩
              rw [← List.reverse_reverse q.segs, hsegs, List.reverse_cons]
            next => cases h
          next => cases h
        next => cases h

end CallRules

/-! ## §9. What making directories makes. -/

/-- The name that `p` does not have, if that is what is asked for. -/
def missingAt (t : FileTree) (p : Place) : Seg → Option Place
  | .name n => if t.node p = some .dir ∧ t.node (n :: p) = none then some (n :: p) else none
  | _ => none

/-- The first name on the way that its directory does not have.  Links are followed; a link that leads
nowhere is no such name. -/
def gap (t : FileTree) : Nat → Place → List Seg → Option Place
  | _, _, [] => none
  | k, p, s :: rest =>
    match walk t k p [s] with
    | .ok (.found q, k') => gap t k' q rest
    | .ok (.missing _ _, _) => missingAt t p s
    | .error _ => missingAt t p s

section Gaps

variable {t : FileTree} {k k' : Nat} {p q g : Place} {s s₁ s₂ rest : List Seg} {n : String}

theorem gap_found (h : walk t k p s₁ = .ok (.found q, k')) :
    gap t k p (s₁ ++ s₂) = gap t k' q s₂ := by
  induction s₁ generalizing k p with
  | nil =>
    rw [walk_nil] at h
    cases h
    rfl
  | cons x s₁ ih =>
    rw [show x :: s₁ = [x] ++ s₁ from rfl] at h
    by_cases hs : s₁ = []
    · rw [hs, List.append_nil] at h
      rw [hs, List.singleton_append, gap, h]
    · obtain ⟨r, k₁, h₁, -, h₂⟩ := walk_prefix h hs
      rw [List.cons_append, gap, h₁]
      exact ih h₂

theorem missingAt_some {x : Seg} (h : missingAt t p x = some g) :
    ∃ n, x = .name n ∧ t.node p = some .dir ∧ t.node (n :: p) = none ∧ g = n :: p := by
  cases x with
  | name n =>
    have h : (if t.node p = some .dir ∧ t.node (n :: p) = none then some (n :: p) else none) =
        some g := h
    split at h
    next hn => exact ⟨n, rfl, hn.1, hn.2, (Option.some.inj h).symm⟩
    next => cases h
  | cur => cases h
  | up => cases h

/-- What a gap is: everything before it is there, its directory does not have it. -/
theorem gap_some (h : gap t k p s = some g) : ∃ s₁ n s₂ q k₁, s = s₁ ++ .name n :: s₂ ∧
    walk t k p s₁ = .ok (.found q, k₁) ∧ t.node q = some .dir ∧ t.node (n :: q) = none ∧
    g = n :: q := by
  induction s generalizing k p with
  | nil => cases h
  | cons x s ih =>
    have hhere : missingAt t p x = some g → ∃ s₁ n s₂ q k₁, x :: s = s₁ ++ .name n :: s₂ ∧
        walk t k p s₁ = .ok (.found q, k₁) ∧ t.node q = some .dir ∧ t.node (n :: q) = none ∧
        g = n :: q := by
      intro hx
      obtain ⟨n, rfl, hp, hn, hg⟩ := missingAt_some hx
      exact ⟨[], n, s, p, k, rfl, walk_nil, hp, hn, hg⟩
    rw [gap] at h
    split at h
    next q k' hq =>
      obtain ⟨s₁, n, s₂, r, k₁, rfl, h₁, hr, hn, hg⟩ := ih h
      refine ⟨x :: s₁, n, s₂, r, k₁, rfl, ?_, hr, hn, hg⟩
      rw [show x :: s₁ = [x] ++ s₁ from rfl, walk_append_found hq]
      exact h₁
    next => exact hhere h
    next => exact hhere h

theorem gap_single (h : gap t k p [.name n] = some g) :
    t.node p = some .dir ∧ t.node (n :: p) = none ∧ g = n :: p := by
  obtain ⟨s₁, m, s₂, q, k₁, hs, h₁, hq, hm, hg⟩ := gap_some h
  cases s₁ with
  | nil =>
    obtain ⟨hname, -⟩ := List.cons.inj hs
    obtain rfl := Seg.name.inj hname
    rw [walk_nil] at h₁
    cases h₁
    exact ⟨hq, hm, hg⟩
  | cons x s₁ =>
    have hlen := congrArg List.length hs
    simp at hlen

/-- Where a name is missing, nothing is found behind it. -/
theorem walk_of_gap (h : gap t k p s = some g) :
    (∃ n q k₁, walk t k p s = .ok (.missing n q, k₁) ∧ g = n :: q) ∨ walk t k p s = .error .noEnt := by
  obtain ⟨s₁, n, s₂, q, k₁, rfl, h₁, hq, hn, rfl⟩ := gap_some h
  rw [walk_append_found h₁, walk_none hq hn]
  by_cases hs : s₂ = []
  · exact .inl ⟨n, q, k₁, if_pos hs, rfl⟩
  · exact .inr (if_neg hs)

theorem gap_of_missing (h : walk t k p s₁ = .ok (.found q, k')) (hq : t.node q = some .dir)
    (hn : t.node (n :: q) = none) : gap t k p (s₁ ++ .name n :: s₂) = some (n :: q) := by
  rw [gap_found h, gap, walk_none hq hn, if_pos rfl]
  exact if_pos ⟨hq, hn⟩

/-- A gap is the gap of every longer way. -/
theorem gap_append_some (h : gap t k p s₁ = some g) : gap t k p (s₁ ++ s₂) = some g := by
  obtain ⟨s, n, s', q, k₁, rfl, h₁, hq, hn, rfl⟩ := gap_some h
  rw [List.append_assoc, List.cons_append]
  exact gap_of_missing h₁ hq hn

/-- A longer way has a gap only where the shorter one has it or leads somewhere. -/
theorem gap_append_none (h : gap t k p s₁ = none) (hno : ∀ q k', walk t k p s₁ ≠ .ok (.found q, k')) :
    gap t k p (s₁ ++ s₂) = none := by
  induction s₁ generalizing k p with
  | nil => exact absurd walk_nil (hno p k)
  | cons x s₁ ih =>
    rw [gap] at h
    rw [List.cons_append, gap]
    cases hx : walk t k p [x] with
    | error e =>
      rw [hx] at h
      exact h
    | ok r =>
      obtain ⟨hit, k₁⟩ := r
      rw [hx] at h
      cases hit with
      | missing n q => exact h
      | found q =>
        refine ih h fun r k₂ hr => hno r k₂ ?_
        rw [show x :: s₁ = [x] ++ s₁ from rfl, walk_append_found hx]
        exact hr

/-- Where the last name is what is new, its directory is there. -/
theorem last_new (hgap : gap t k p s = none)
    (h : gap t k p (s ++ [.name n]) = some g ∨
      ∃ m r k₁, walk t k p (s ++ [.name n]) = .ok (.missing m r, k₁) ∧ g = m :: r) :
    (∃ q k₁, walk t k p s = .ok (.found q, k₁) ∧ t.node q = some .dir) ∧
      ∃ m r k₁, walk t k p (s ++ [.name n]) = .ok (.missing m r, k₁) ∧ g = m :: r := by
  rcases h with h | ⟨m, r, k₁, hwalk, hg⟩
  · by_cases hfound : ∃ q k₁, walk t k p s = .ok (.found q, k₁)
    · obtain ⟨q, k₁, hq⟩ := hfound
      rw [gap_found hq] at h
      obtain ⟨hdir, hn, hg⟩ := gap_single h
      refine ⟨⟨q, k₁, hq, hdir⟩, n, q, k₁, ?_, hg⟩
      rw [walk_append_found hq, walk_none hdir hn, if_pos rfl]
    · rw [gap_append_none hgap fun q k₁ hq => hfound ⟨q, k₁, hq⟩] at h
      cases h
  · obtain ⟨q, k₂, hq, hdir, -⟩ := walk_prefix hwalk (by simp)
    exact ⟨⟨q, k₂, hq, hdir⟩, m, r, k₁, hwalk, hg⟩

/-- Without links, what names come to first that is missing lies below where they start. -/
theorem gap_names {ns : List String} (hno : ∀ q, p <:+ q → q ≠ p → ∀ l, t.node q ≠ some (.link l))
    (h : gap t k p (ns.map .name) = some g) : p <:+ g := by
  obtain ⟨s₁, m, s₂, q, k₁, hs, h₁, -, -, rfl⟩ := gap_some h
  obtain ⟨ns₁, ns₂, rfl, rfl, -⟩ := List.map_eq_append_iff.1 hs
  rw [(walk_names hno h₁).1]
  exact (List.suffix_append _ _).trans (List.suffix_cons m _)

/-- Without links, a name is missing where names lead. -/
theorem walk_names_missing {ns : List String}
    (hno : ∀ q, p <:+ q → q ≠ p → ∀ l, t.node q ≠ some (.link l))
    (h : walk t k p (ns.map .name) = .ok (.missing n q, k')) : p <:+ q := by
  induction ns generalizing p with
  | nil =>
    rw [List.map_nil, walk_nil] at h
    cases h
  | cons m ns ih =>
    rw [List.map_cons] at h
    by_cases hp : t.node p = some .dir
    · cases hm : t.node (m :: p) with
      | none =>
        rw [walk_none hp hm] at h
        split at h
        · cases h
          exact List.suffix_refl _
        · cases h
      | some x =>
        have hx : ∀ l, x ≠ .link l := by
          intro l hl
          exact hno (m :: p) (List.suffix_cons m p) (by simp) l (hl ▸ hm)
        rw [walk_some hp hm hx] at h
        refine (List.suffix_cons m p).trans (ih (fun r hr _ => ?_) h)
        refine hno r ((List.suffix_cons m p).trans hr) ?_
        rintro rfl
        have hlen := hr.length_le
        rw [List.length_cons] at hlen
        omega
    · rw [walk_notDir hp] at h
      cases h

end Gaps

section Making

variable {d d' : Disk} {cwd base p q g : Place} {k k' : Nat} {s : List Seg} {n : String}
  {absolute : Bool}

theorem FileTree.node_below {t : FileTree} (hp : t.node p = none) (n : String) :
    t.node (n :: p) = none := by
  by_contra hn
  rw [t.parent_dir n p hn] at hp
  cases hp

/-- A name without NUL. -/
def Plain (s : List Seg) : Prop := ∀ n, .name n ∈ s → '\x00' ∉ n.toList

theorem hasNul_eq_false {q : Path} : q.hasNul = false ↔ Plain q.segs := by
  unfold Path.hasNul
  rw [List.any_eq_false]
  constructor
  · intro h n hn
    simpa using h _ hn
  · intro h x hx
    cases x with
    | name n => simpa using h n hx
    | cur => simp
    | up => simp

/-- `fs::create_dir` by what its parent's path leads to. -/
theorem mkdir_eq (hnul : Plain (s ++ [.name n])) :
    mkdir cwd d ⟨absolute, s ++ [.name n], false⟩ =
      match walk d.tree maxLinks (start cwd ⟨absolute, [], false⟩) s with
      | .error e => .error e
      | .ok (.missing _ _, _) => .error .noEnt
      | .ok (.found p, _) =>
        if d.tree.node p = some .dir then
          if d.tree.node (n :: p) = none then .ok (d.put (n :: p) .dir) else .error .exist
        else .error .notDir := by
  have hrev : (s ++ [Seg.name n]).reverse = .name n :: s.reverse := by
    rw [List.reverse_append]
    rfl
  unfold mkdir
  rw [if_neg (by rw [hasNul_eq_false.2 hnul]; simp)]
  dsimp only
  rw [hrev]
  dsimp only
  rw [List.reverse_reverse]
  rfl

/-- What a path leads to, as text without a separator at the end. -/
theorem isDir_iff (hnul : Plain s) (hs : s ≠ []) : isDir d.tree cwd ⟨absolute, s, false⟩ = true ↔
    ∃ q k, walk d.tree maxLinks (start cwd ⟨absolute, [], false⟩) s = .ok (.found q, k) ∧
      d.tree.node q = some .dir := by
  have hempty : (⟨absolute, s, false⟩ : Path).isEmpty = false := by
    unfold Path.isEmpty
    cases s with
    | nil => exact absurd rfl hs
    | cons x s => exact Bool.and_false _
  unfold isDir stat lookup
  rw [if_neg (by rw [hasNul_eq_false.2 hnul]; simp), if_neg (by rw [hempty]; simp)]
  show (match (match walk d.tree maxLinks (start cwd ⟨absolute, [], false⟩) s with
    | .ok (.found p, _) => Except.ok p
    | .ok (.missing _ _, _) => .error Errno.noEnt
    | .error e => .error e) with
    | .ok p => decide (d.tree.node p = some .dir)
    | .error _ => false) = true ↔ _
  cases walk d.tree maxLinks (start cwd ⟨absolute, [], false⟩) s with
  | error e => simp
  | ok r =>
    obtain ⟨hit, k⟩ := r
    cases hit with
    | missing n q => simp
    | found q => simp

theorem createAbove_concat (s : List Seg) (x : Seg) (d : Disk) :
    createAbove cwd absolute (s ++ [x]).reverse d =
      ensureDir cwd d ⟨absolute, s ++ [x], false⟩ (createAbove cwd absolute s.reverse) := by
  rw [List.reverse_append, List.reverse_singleton, List.singleton_append, createAbove,
    List.reverse_cons, List.reverse_reverse]

/-- Nothing is made where a directory is. -/
theorem createAbove_found (hnul : Plain s)
    (hs : walk d.tree maxLinks (start cwd ⟨absolute, [], false⟩) s = .ok (.found base, k))
    (hbase : d.tree.node base = some .dir) : createAbove cwd absolute s.reverse d = (.ok (), d) := by
  by_cases hnil : s = []
  · rw [hnil]
    rfl
  · obtain ⟨r, x, rfl⟩ : ∃ r x, s = r ++ [x] :=
      ⟨_, _, (List.dropLast_append_getLast hnil).symm⟩
    have hisDir : isDir d.tree cwd ⟨absolute, r ++ [x], false⟩ = true :=
      (isDir_iff hnul hnil).2 ⟨base, k, hs, hbase⟩
    -- all but the last segment leads to a directory, where the last one is found
    obtain ⟨q, k₁, hr, hq, hx⟩ := walk_prefix hs (by simp)
    have hexist : mkdir cwd d ⟨absolute, r ++ [x], false⟩ = .error .exist := by
      have hr : walk d.tree maxLinks (start cwd ⟨absolute, r ++ [x], false⟩) r = .ok (.found q, k₁) := hr
      have hrev : (r ++ [x]).reverse = x :: r.reverse := by
        rw [List.reverse_append]
        rfl
      unfold mkdir
      rw [if_neg (by rw [hasNul_eq_false.2 hnul]; simp)]
      dsimp only
      rw [hrev]
      dsimp only
      rw [List.reverse_reverse, hr]
      dsimp only
      rw [if_pos hq]
      cases x with
      | name n =>
        have hn : d.tree.node (n :: q) ≠ none := by
          intro hn
          rw [walk_none hq hn, if_pos rfl] at hx
          cases hx
        exact if_neg hn
      | cur => rfl
      | up => rfl
    -- `mkdir` finds it there, and it is a directory, so nothing is made
    rw [createAbove_concat]
    unfold ensureDir
    rw [hexist]
    dsimp only
    rw [if_pos hisDir]

/-- Making directories made `g` and directories below it; `q` is the last one, with nothing in it. -/
structure Opened (d d' : Disk) (g q : Place) : Prop where
  grows : d.tree.Grows d'.tree
  links : ∀ p l, d'.tree.node p = some (.link l) → d.tree.node p = some (.link l)
  touched : ∃ new, d'.touched = new ++ d.touched ∧ g ∈ new ∧ ∀ p ∈ new, g <:+ p
  dir : d'.tree.node q = some .dir
  bare : ∀ n, d'.tree.node (n :: q) = none
  below : g <:+ q

theorem FileTree.links_put {t : FileTree} {x : Node} {l : Path} (hp : t.node p = some .dir)
    (hn : t.node (n :: p) ≠ some .dir) (hx : ∀ l, x ≠ .link l)
    (h : (t.put (n :: p) x).node q = some (.link l)) : t.node q = some (.link l) := by
  rw [FileTree.node_put x hp hn] at h
  split at h
  · exact absurd (Option.some.inj h) (hx l)
  · exact h

/-- A file that is written again is no link. -/
theorem FileTree.links_rewrite {t : FileTree} {b b' : List UInt8} {l : Path}
    (hb : t.node p = some (.file b)) (h : (t.put p (.file b')).node q = some (.link l)) :
    t.node q = some (.link l) := by
  cases p with
  | nil =>
    rw [t.root_dir] at hb
    cases hb
  | cons n p =>
    have hp : t.node p = some .dir := t.parent_dir n p (by rw [hb]; nofun)
    exact FileTree.links_put hp (by rw [hb]; nofun) (by simp) h

theorem Opened.first (hp : d.tree.node p = some .dir) (hn : d.tree.node (n :: p) = none) :
    Opened d (d.put (n :: p) .dir) (n :: p) (n :: p) := by
  have hne : d.tree.node (n :: p) ≠ some .dir := by
    rw [hn]
    nofun
  have hnode : ∀ r, (d.put (n :: p) .dir).tree.node r =
      if r = n :: p then some .dir else d.tree.node r := fun r => FileTree.node_put .dir hp hne r
  refine ⟨FileTree.grows_put hp hn, fun r l h => FileTree.links_put hp hne (by simp) h,
    ⟨[n :: p], rfl, by simp, by simp⟩, ?_, fun m => ?_, List.suffix_refl _⟩
  · rw [hnode, if_pos rfl]
  · rw [hnode, if_neg (List.cons_ne_self m (n :: p))]
    exact FileTree.node_below hn m

theorem Opened.next (h : Opened d d' g q) (n : String) :
    Opened d (d'.put (n :: q) .dir) g (n :: q) := by
  have hstep := Opened.first h.dir (h.bare n)
  obtain ⟨new, htouched, hg, hnew⟩ := h.touched
  have hbelow : g <:+ n :: q := h.below.trans (List.suffix_cons n q)
  refine ⟨h.grows.trans hstep.grows, fun r l hl => h.links r l (hstep.links r l hl),
    ⟨(n :: q) :: new, ?_, List.mem_cons_of_mem _ hg, ?_⟩, hstep.dir, hstep.bare, hbelow⟩
  · show (n :: q) :: d'.touched = _
    rw [htouched]
    rfl
  · intro p hp
    rcases List.mem_cons.1 hp with rfl | hp
    · exact hbelow
    · exact hnew p hp

/-- A directory that cannot be made leaves the disk as making the directories above leaves it. -/
theorem ensureDir_snd {q : Path} {above : Disk → Except Errno Unit × Disk} (habove : (above d).2 = d)
    (hmk : ∀ d', mkdir cwd d q ≠ .ok d') : (ensureDir cwd d q above).2 = d := by
  unfold ensureDir
  dsimp only
  cases hm : mkdir cwd d q with
  | ok d' => exact absurd hm (hmk d')
  | error e =>
    cases e with
    | noEnt =>
      have hr : above d = ((above d).1, d) := Prod.ext rfl habove
      dsimp only
      rw [hr]
      cases (above d).1 with
      | error e => rfl
      | ok _ =>
        dsimp only
        rw [hm]
    | notDir => rfl
    | loop => rfl
    | exist => rfl
    | isDir => rfl
    | inval => rfl

section Names

variable {ns : List String}
  (hs : walk d.tree maxLinks (start cwd ⟨absolute, [], false⟩) s = .ok (.found base, k))
  (hbase : d.tree.node base = some .dir)

include hs hbase

/-- **Where there is no gap nothing is made**, whether that fails or not. -/
theorem createAbove_of_gap_none (hnul : Plain (s ++ ns.map Seg.name))
    (hgap : gap d.tree maxLinks (start cwd ⟨absolute, [], false⟩) (s ++ ns.map Seg.name) = none) :
    (createAbove cwd absolute (s ++ ns.map Seg.name).reverse d).2 = d := by
  induction ns using List.reverseRecOn with
  | nil =>
    rw [List.map_nil, List.append_nil] at hnul ⊢
    rw [createAbove_found hnul hs hbase]
  | append_singleton ns n ih =>
    have hsplit : s ++ (ns ++ [n]).map Seg.name = (s ++ ns.map .name) ++ [.name n] := by
      rw [List.map_append, List.append_assoc]
      rfl
    rw [hsplit] at hnul hgap ⊢
    have hgap' : gap d.tree maxLinks (start cwd ⟨absolute, [], false⟩) (s ++ ns.map .name) = none := by
      cases hg : gap d.tree maxLinks (start cwd ⟨absolute, [], false⟩) (s ++ ns.map .name) with
      | none => rfl
      | some g => rw [gap_append_some hg] at hgap; cases hgap
    have hup := ih (fun m hm => hnul m (List.mem_append_left _ hm)) hgap'
    rw [createAbove_concat]
    -- a directory made here would have been a gap
    refine ensureDir_snd hup fun d' hmk => ?_
    rw [mkdir_eq hnul] at hmk
    split at hmk
    next => cases hmk
    next => cases hmk
    next p k' hp =>
      split at hmk
      next hdir =>
        split at hmk
        next hn =>
          cases hgap.symm.trans (gap_of_missing hp hdir hn)
        next => cases hmk
      next => cases hmk

omit hbase in
/-- **Where there is a gap it is filled**: the directory that is missing, and those below it. -/
theorem createAbove_of_gap_some (hnul : Plain (s ++ ns.map Seg.name))
    (hgap : gap d.tree maxLinks (start cwd ⟨absolute, [], false⟩) (s ++ ns.map Seg.name) = some g) :
    ∃ d' q k', createAbove cwd absolute (s ++ ns.map Seg.name).reverse d = (.ok (), d') ∧
      Opened d d' g q ∧ walk d'.tree maxLinks (start cwd ⟨absolute, [], false⟩)
        (s ++ ns.map Seg.name) = .ok (.found q, k') := by
  induction ns using List.reverseRecOn with
  | nil =>
    rw [List.map_nil, gap_found hs] at hgap
    cases hgap
  | append_singleton ns n ih =>
    have hsplit : s ++ (ns ++ [n]).map Seg.name = (s ++ ns.map .name) ++ [.name n] := by
      rw [List.map_append, List.append_assoc]
      rfl
    rw [hsplit] at hnul hgap ⊢
    rw [createAbove_concat]
    cases hg : gap d.tree maxLinks (start cwd ⟨absolute, [], false⟩) (s ++ ns.map .name) with
    | some g' =>
      -- the gap is further up: everything down to here is made first
      rw [gap_append_some hg] at hgap
      obtain rfl := Option.some.inj hgap
      obtain ⟨d₁, q, k₁, habove, hopen, hq⟩ := ih (fun m hm => hnul m (List.mem_append_left _ hm)) hg
      have hfirst : mkdir cwd d ⟨absolute, (s ++ ns.map .name) ++ [.name n], false⟩ =
          .error .noEnt := by
        rw [mkdir_eq hnul]
        rcases walk_of_gap hg with ⟨m, r, k₂, hwalk, -⟩ | hwalk
        · rw [hwalk]
        · rw [hwalk]
      have hagain : mkdir cwd d₁ ⟨absolute, (s ++ ns.map .name) ++ [.name n], false⟩ =
          .ok (d₁.put (n :: q) .dir) := by
        rw [mkdir_eq hnul, hq]
        dsimp only
        rw [if_pos hopen.dir, if_pos (hopen.bare n)]
      refine ⟨_, n :: q, k₁, ?_, hopen.next n, ?_⟩
      · unfold ensureDir
        dsimp only
        rw [hfirst, habove]
        dsimp only
        rw [hagain]
      · have hgrows := (Opened.first hopen.dir (hopen.bare n)).grows
        rw [walk_append_found (walk_grows hgrows hq),
          walk_some (hgrows.dir hopen.dir) (hopen.next n).dir (by simp), walk_nil]
    | none =>
      -- the gap is the last name
      cases hwalk : walk d.tree maxLinks (start cwd ⟨absolute, [], false⟩) (s ++ ns.map .name) with
      | error e =>
        rw [gap_append_none hg fun q k' hq => by rw [hwalk] at hq; cases hq] at hgap
        cases hgap
      | ok r =>
        obtain ⟨hit, k₁⟩ := r
        cases hit with
        | missing m q =>
          rw [gap_append_none hg fun q k' hq => by rw [hwalk] at hq; cases hq] at hgap
          cases hgap
        | found p =>
          rw [gap_found hwalk] at hgap
          obtain ⟨hp, hn, rfl⟩ := gap_single hgap
          have hmk : mkdir cwd d ⟨absolute, (s ++ ns.map .name) ++ [.name n], false⟩ =
              .ok (d.put (n :: p) .dir) := by
            rw [mkdir_eq hnul, hwalk]
            dsimp only
            rw [if_pos hp, if_pos hn]
          have hopen := Opened.first hp hn
          refine ⟨_, n :: p, k₁, ?_, hopen, ?_⟩
          · unfold ensureDir
            dsimp only
            rw [hmk]
          · rw [walk_append_found (walk_grows hopen.grows hwalk),
              walk_some (hopen.grows.dir hp) hopen.dir (by simp), walk_nil]

end Names

theorem Path.components_of_not_mem {l : List Seg} (h : Seg.cur ∉ l) (b : Bool) :
    (⟨absolute, l, b⟩ : Path).components = l := by
  have hfilter : l.filter (· ≠ .cur) = l := by
    rw [List.filter_eq_self]
    intro x hx
    rw [decide_eq_true_eq]
    rintro rfl
    exact h hx
  cases l with
  | nil => cases absolute <;> rfl
  | cons x l =>
    cases x with
    | cur => exact absurd List.mem_cons_self h
    | up => cases absolute <;> exact hfilter
    | name n => cases absolute <;> exact hfilter

/-- The components of a path are the components of the path they make. -/
theorem Path.components_components (q : Path) (b : Bool) :
    (⟨q.absolute, q.components, b⟩ : Path).components = q.components := by
  obtain ⟨absolute, segs, slash⟩ := q
  have hplain : ∀ (a : Bool) (l : List Seg),
      (⟨a, l.filter (· ≠ .cur), b⟩ : Path).components = l.filter (· ≠ .cur) := by
    intro a l
    refine Path.components_of_not_mem (fun hmem => ?_) b
    have hne := (List.mem_filter.1 hmem).2
    simp at hne
  cases absolute with
  | true => exact hplain true segs
  | false =>
    cases segs with
    | nil => rfl
    | cons x segs =>
      cases x with
      | cur =>
        show Seg.cur :: (segs.filter (· ≠ .cur)).filter (· ≠ .cur) = Seg.cur :: segs.filter (· ≠ .cur)
        rw [List.filter_filter]
        simp
      | up => exact hplain false (.up :: segs)
      | name n => exact hplain false (.name n :: segs)

/-- `fs::create_dir_all` on a path that is given by its components. -/
theorem createDirAll_eq (hcomp : (⟨absolute, s, false⟩ : Path).components = s)
    (hempty : (⟨absolute, s, false⟩ : Path).isEmpty = false) :
    createDirAll cwd d ⟨absolute, s, false⟩ = createAbove cwd absolute s.reverse d := by
  unfold createDirAll
  rw [if_neg (by rw [hempty]; simp), hcomp]
  by_cases hs : s = []
  · subst hs
    have habs : absolute = true := by simpa [Path.isEmpty] using hempty
    subst habs
    have hroot : isDir d.tree cwd ⟨true, [], false⟩ = true := by
      show decide (d.tree.node [] = some .dir) = true
      exact decide_eq_true d.tree.root_dir
    show ensureDir cwd d ⟨true, [], false⟩ _ = _
    unfold ensureDir
    rw [show mkdir cwd d ⟨true, [], false⟩ = .error .exist from rfl]
    dsimp only
    rw [if_pos hroot]
    rfl
  · obtain ⟨r, x, rfl⟩ : ∃ r x, s = r ++ [x] :=
      ⟨_, _, (List.dropLast_append_getLast hs).symm⟩
    rw [createAbove_concat, List.reverse_append]
    rfl

/-- Where making a directory and those above it succeeds, there is a directory. -/
theorem createDirAll_isDir {r : Path} (h : createDirAll cwd d r = (.ok (), d'))
    (hempty : r.isEmpty = false) : isDir d'.tree cwd r = true := by
  -- the call that makes the last directory makes it where the path leads
  have hmade : ∀ {d₁ d₂ : Disk}, mkdir cwd d₁ r = .ok d₂ → isDir d₂.tree cwd r = true := by
    intro d₁ d₂ hmk
    have hnul : r.hasNul = false := by
      unfold mkdir at hmk
      split at hmk
      next => cases hmk
      next hnul => simpa using hnul
    obtain ⟨s, n, p, k', hsegs, hp, hdir, hn, rfl⟩ := mkdir_ok hmk
    have hopen := Opened.first hdir hn
    have hwalk : walk (d₁.put (n :: p) .dir).tree maxLinks (start cwd r) r.segs =
        .ok (.found (n :: p), k') := by
      rw [hsegs, walk_append_found (walk_grows hopen.grows hp),
        walk_some (hopen.grows.dir hdir) hopen.dir (by simp), walk_nil]
    have hsteps : walk (d₁.put (n :: p) .dir).tree maxLinks (start cwd r) r.steps =
        .ok (.found (n :: p), k') := by
      unfold Path.steps
      split
      next => rw [walk_append_found hwalk, walk_cur hopen.dir, walk_nil]
      next => exact hwalk
    unfold isDir stat lookup
    rw [if_neg (by rw [hnul]; simp), if_neg (by rw [hempty]; simp), hsteps]
    exact decide_eq_true hopen.dir
  -- an error is passed over only when a directory is there already
  have hsettle : ∀ (d₁ : Disk) (e : Errno), ((if isDir d₁.tree cwd r then .ok () else .error e, d₁) :
      Except Errno Unit × Disk) = (.ok (), d') → isDir d'.tree cwd r = true := by
    intro d₁ e heq
    obtain ⟨hres, rfl⟩ := Prod.mk.inj heq
    split at hres
    next his => exact his
    next => cases hres
  unfold createDirAll at h
  rw [if_neg (by rw [hempty]; simp)] at h
  unfold ensureDir at h
  dsimp only at h
  split at h
  next d₁ hmk =>
    obtain ⟨-, rfl⟩ := Prod.mk.inj h
    exact hmade hmk
  next hmk =>
    split at h
    next => cases (Prod.mk.inj h).1
    next d₁ _ =>
      split at h
      next d₂ hmk₂ =>
        obtain ⟨-, rfl⟩ := Prod.mk.inj h
        exact hmade hmk₂
      next e _ => exact hsettle d₁ e h
  next e _ _ => exact hsettle d e h

end Making

end Posix

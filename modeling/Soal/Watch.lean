/-
  Soal.Watch — live working-tree watch: a changed file is added under its path below the watch root.

  Paths of the operating system are the components that `Path::components` yields; names are bytes.
-/
import Soal.Vault.History

namespace Soal

open FileProg

/-! ## §1. Paths of the operating system. -/

/-- `std::path::Component` on Unix. -/
inductive OsComponent where
  | rootDir
  | curDir
  | parentDir
  | normal (name : Bytes)
  deriving DecidableEq

abbrev OsPath := List OsComponent

/-- `c.as_os_str().to_str()` -/
def OsComponent.toStr : OsComponent → Option String
  | rootDir => some "/"
  | curDir => some "."
  | parentDir => some ".."
  | normal name => Text.fromUtf8 name

/-- `file.strip_prefix(base)`: component by component. -/
def stripPrefix : OsPath → OsPath → Option OsPath
  | [], file => some file
  | _ :: _, [] => none
  | b :: base, c :: file => if b = c then stripPrefix base file else none

/-- The logical path of a file: its components below the root, as far as they are UTF-8. -/
def watchLogical (watchRoot file : OsPath) : String :=
  let rel := (stripPrefix watchRoot file).getD file
  String.intercalate "/" (rel.filterMap OsComponent.toStr)

/-! ## §2. Adding a changed file. -/

variable [Crates]

/-- `add_relative`; `source` is what is found at the path of the file. -/
def addRelative (v : Vault) (watchRoot file : OsPath) (source : Source) : Action ContentHash :=
  let logical := watchLogical watchRoot file
  if logical.isEmpty then abort (.invalidPath "empty watch logical path")
  else v.addPath source logical

/-- One-shot: process a single path as if a watch event fired. -/
def ingestPath (v : Vault) (watchRoot file : OsPath) (source : Source) : Action ContentHash :=
  addRelative v watchRoot file source

/-! ## §3. Files below the root. -/

section Below

omit [Crates]

theorem stripPrefix_append (root rest : OsPath) : stripPrefix root (root ++ rest) = some rest := by
  induction root with
  | nil => rfl
  | cons c root ih =>
    show (if c = c then stripPrefix root (root ++ rest) else none) = some rest
    rw [if_pos rfl, ih]

/-- Below the root a file is named as a file of a directory is. -/
theorem watchLogical_below (root : OsPath) (components : List Bytes) :
    watchLogical root (root ++ components.map .normal) = relativeName components := by
  unfold watchLogical relativeName
  rw [stripPrefix_append, Option.getD_some]
  dsimp only
  rw [List.filterMap_map]
  rfl

end Below

end Soal

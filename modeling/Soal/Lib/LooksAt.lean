/-
  Soal.Lib.LooksAt — which files a reading program can depend on.

  `LooksAt D x` reads off the text of a program that it asks only for files inside a set `D` of
  paths, whatever replies it gets.  Two disks that agree on `D` give such a program the same result.
  It is the counterpart of `Confined`, which bounds what a program can change.

  Nothing here names a particular program.
-/
import Soal.Lib.Program

namespace FileProg

variable {δ : Type} {ε α β : Type}

/-- Every file the program can ask for is inside `D`; no directory is listed. -/
def LooksAt (D : FilePath δ → Prop) : ReadM δ ε α → Prop
  | .done _ => True
  | .step (.pathExists p) k => D p ∧ ∀ r, LooksAt D (k r)
  | .step (.read p) k => D p ∧ ∀ r, LooksAt D (k r)
  | .step (.readDir _) _ => False

namespace LooksAt

variable {D D' : FilePath δ → Prop}

@[simp] theorem done {r : Except ε α} : LooksAt D (.done r : ReadM δ ε α) := trivial

theorem pathExists {p : FilePath δ} (h : D p) :
    LooksAt D (ReadM.pathExists p : ReadM δ ε Bool) := ⟨h, fun _ => trivial⟩

theorem read {p : FilePath δ} (h : D p) :
    LooksAt D (ReadM.read p : ReadM δ ε (Option Bytes)) := ⟨h, fun _ => trivial⟩

theorem bind {x : ReadM δ ε α} {f : α → ReadM δ ε β} (hx : LooksAt D x)
    (hf : ∀ a, LooksAt D (f a)) : LooksAt D (x >>= f) := by
  induction x with
  | done r =>
    cases r with
    | ok a => exact hf a
    | error e => trivial
  | step op k ih =>
    cases op with
    | pathExists p => exact ⟨hx.1, fun r => ih r (hx.2 r)⟩
    | read p => exact ⟨hx.1, fun r => ih r (hx.2 r)⟩
    | readDir d => exact hx

theorem handle {x : ReadM δ ε α} {f : Except ε α → ReadM δ ε β} (hx : LooksAt D x)
    (hf : ∀ r, LooksAt D (f r)) : LooksAt D (x.handle f) := by
  induction x with
  | done r => exact hf r
  | step op k ih =>
    cases op with
    | pathExists p => exact ⟨hx.1, fun r => ih r (hx.2 r)⟩
    | read p => exact ⟨hx.1, fun r => ih r (hx.2 r)⟩
    | readDir d => exact hx

theorem ite {c : Prop} [Decidable c] {x y : ReadM δ ε α} (hx : LooksAt D x) (hy : LooksAt D y) :
    LooksAt D (if c then x else y) := by
  by_cases h : c
  · rw [if_pos h]
    exact hx
  · rw [if_neg h]
    exact hy

theorem mono {x : ReadM δ ε α} (h : LooksAt D x) (hD : ∀ p, D p → D' p) : LooksAt D' x := by
  induction x with
  | done r => trivial
  | step op k ih =>
    cases op with
    | pathExists p => exact ⟨hD p h.1, fun r => ih r (h.2 r)⟩
    | read p => exact ⟨hD p h.1, fun r => ih r (h.2 r)⟩
    | readDir d => exact h

variable [DecidableEq δ] {fs fs' : Fs δ}

/-- **The result depends only on the files looked at.** -/
theorem eval_eq {x : ReadM δ ε α} (h : LooksAt D x)
    (hl : ∀ p, D p → fs'.lookup p = fs.lookup p) : ReadM.eval fs' x = ReadM.eval fs x := by
  induction x with
  | done r => rfl
  | step op k ih =>
    cases op with
    | pathExists p =>
      have hmem : p ∈ fs' ↔ p ∈ fs := by
        rw [Fs.mem_iff_lookup, Fs.mem_iff_lookup, hl p h.1]
      show ReadM.eval fs' (k (decide (p ∈ fs'))) = ReadM.eval fs (k (decide (p ∈ fs)))
      rw [decide_eq_decide.2 hmem]
      exact ih _ (h.2 _)
    | read p =>
      show ReadM.eval fs' (k (fs'.lookup p)) = ReadM.eval fs (k (fs.lookup p))
      rw [hl p h.1]
      exact ih _ (h.2 _)
    | readDir d => exact absurd h id

end LooksAt

end FileProg

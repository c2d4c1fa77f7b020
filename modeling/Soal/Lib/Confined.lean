/-
  Soal.Lib.Confined — which files a program can touch.

  `Confined D x` reads off the text of a program that every change it can ever ask for stays inside
  a set `D` of paths, whatever replies it gets.  Such a program is framed: at each of its crash
  points the files outside `D` are as they were, and the changes it made are all inside `D`.

  Nothing here names a particular program.
-/
import Soal.Lib.Program

namespace FileProg

variable {δ : Type} {Q : Signature} {ε α β : Type}

/-! ## §1. Paths of a change. -/

/-- The paths a change touches. -/
def WriteOp.targets : WriteOp δ → List (FilePath δ)
  | .truncate p => [p]
  | .write p _ => [p]
  | .rename p q => [p, q]
  | .remove p => [p]

/-- A change leaves every other file alone. -/
theorem WriteOp.lookup_apply_of_not_mem [DecidableEq δ] {op : WriteOp δ} {p : FilePath δ}
    (hp : p ∉ op.targets) (fs : Fs δ) : (op.apply fs).2.lookup p = fs.lookup p := by
  cases op with
  | truncate q => exact AList.lookup_insert_ne (by simpa [targets] using hp)
  | write q b => exact AList.lookup_insert_ne (by simpa [targets] using hp)
  | remove q =>
    have hne : p ≠ q := by simpa [targets] using hp
    simp only [apply]
    split
    next => exact AList.lookup_erase_ne hne
    next => rfl
  | rename q r =>
    obtain ⟨hq, hr⟩ : p ≠ q ∧ p ≠ r := by simpa [targets] using hp
    simp only [apply]
    split
    next =>
      show AList.lookup p ((fs.erase q).insert r _) = _
      rw [AList.lookup_insert_ne hr, AList.lookup_erase_ne hq]
    next => rfl

/-! ## §2. Confinement. -/

/-- Every change the program can ask for is inside `D`. -/
def Confined (D : FilePath δ → Prop) : FileM δ Q ε α → Prop
  | .done _ => True
  | .step (.read _) k => ∀ r, Confined D (k r)
  | .step (.ask _) k => ∀ r, Confined D (k r)
  | .step (.change op) k => (∀ p ∈ op.targets, D p) ∧ ∀ r, Confined D (k r)

namespace Confined

variable {D D' : FilePath δ → Prop}

@[simp] theorem done {r : Except ε α} : Confined D (.done r : FileM δ Q ε α) := trivial

theorem mono {x : FileM δ Q ε α} (h : Confined D x) (hD : ∀ p, D p → D' p) : Confined D' x := by
  induction x with
  | done r => trivial
  | step op k ih =>
    cases op with
    | read op => exact fun r => ih r (h r)
    | ask q => exact fun r => ih r (h r)
    | change op => exact ⟨fun p hp => hD p (h.1 p hp), fun r => ih r (h.2 r)⟩

theorem bind {x : FileM δ Q ε α} {f : α → FileM δ Q ε β} (hx : Confined D x)
    (hf : ∀ a, Confined D (f a)) : Confined D (x >>= f) := by
  induction x with
  | done r =>
    cases r with
    | ok a => exact hf a
    | error e => trivial
  | step op k ih =>
    cases op with
    | read op => exact fun r => ih r (hx r)
    | ask q => exact fun r => ih r (hx r)
    | change op => exact ⟨hx.1, fun r => ih r (hx.2 r)⟩

theorem handle {x : FileM δ Q ε α} {f : Except ε α → FileM δ Q ε β} (hx : Confined D x)
    (hf : ∀ r, Confined D (f r)) : Confined D (x.handle f) := by
  induction x with
  | done r => exact hf r
  | step op k ih =>
    cases op with
    | read op => exact fun r => ih r (hx r)
    | ask q => exact fun r => ih r (hx r)
    | change op => exact ⟨hx.1, fun r => ih r (hx.2 r)⟩

/-- Reading touches nothing. -/
theorem ofRead (x : ReadM δ ε α) : Confined D (FileProg.ofRead x : FileM δ Q ε α) := by
  induction x with
  | done r => trivial
  | step op k ih => exact fun r => ih r

theorem ask (q : Q.Op) : Confined D (FileProg.ask q : FileM δ Q ε (Q.Reply q)) := fun _ => trivial

theorem change {op : WriteOp δ} (h : ∀ p ∈ op.targets, D p) :
    Confined D (FileProg.change op : FileM δ Q ε Bool) := ⟨h, fun _ => trivial⟩

theorem writeFile {p : FilePath δ} {b : Bytes} (h : D p) :
    Confined D (FileProg.writeFile p b : FileM δ Q ε Unit) := by
  refine bind (change ?_) fun _ => bind (change ?_) fun _ => done
  · exact fun q hq => List.mem_singleton.1 hq ▸ h
  · exact fun q hq => List.mem_singleton.1 hq ▸ h

end Confined

/-! ## §3. The frame of a confined program. -/

section Frame

variable [DecidableEq δ] {D D' : FilePath δ → Prop}

/-- From `w` to `w'` only files in `D` were touched. -/
structure Within (D : FilePath δ → Prop) (w w' : World δ) : Prop where
  frame : ∀ p, ¬D p → w'.fs.lookup p = w.fs.lookup p
  log : ∃ ops : List (WriteOp δ), w'.log = ops ++ w.log ∧ ∀ op ∈ ops, ∀ p ∈ op.targets, D p

namespace Within

theorem refl (w : World δ) : Within D w w := ⟨fun _ _ => rfl, [], rfl, by simp⟩

theorem trans {w w' w'' : World δ} (h : Within D w w') (h' : Within D w' w'') : Within D w w'' := by
  obtain ⟨ops, hlog, hops⟩ := h.log
  obtain ⟨ops', hlog', hops'⟩ := h'.log
  refine ⟨fun p hp => (h'.frame p hp).trans (h.frame p hp), ops' ++ ops, ?_, fun op hop => ?_⟩
  · rw [hlog', hlog, List.append_assoc]
  · rcases List.mem_append.1 hop with hop | hop
    · exact hops' op hop
    · exact hops op hop

theorem mono {w w' : World δ} (h : Within D w w') (hD : ∀ p, D p → D' p) : Within D' w w' := by
  obtain ⟨ops, hlog, hops⟩ := h.log
  exact ⟨fun p hp => h.frame p fun hd => hp (hD p hd), ops, hlog,
    fun op hop p hp => hD p (hops op hop p hp)⟩

theorem asked (w : World δ) : Within D w w.asked := ⟨fun _ _ => rfl, [], rfl, by simp⟩

theorem change {op : WriteOp δ} (h : ∀ p ∈ op.targets, D p) (w : World δ) :
    Within D w (w.change op) := by
  refine ⟨fun p hp => ?_, [op], rfl, fun op' hop' => List.mem_singleton.1 hop' ▸ h⟩
  exact WriteOp.lookup_apply_of_not_mem (fun hmem => hp (h p hmem)) w.fs

end Within

variable {env : Env Q}

/-- **A confined program is framed at every crash point.** -/
theorem Confined.wp {x : FileM δ Q ε α} (h : Confined D x) (w : World δ) :
    FileProg.wp env (Within D w) x (fun _ _ => True) w := by
  suffices hgen : ∀ w₀, Within D w₀ w → FileProg.wp env (Within D w₀) x (fun _ _ => True) w from
    hgen w (.refl w)
  intro w₀ hw
  induction x generalizing w with
  | done r => exact ⟨hw, trivial⟩
  | step op k ih =>
    cases op with
    | read op => exact ⟨hw, ih _ (h _) w hw⟩
    | ask q => exact ⟨hw, ih _ (h _) _ (hw.trans (.asked w))⟩
    | change op => exact ⟨hw, ih _ (h.2 _) _ (hw.trans (.change h.1 w))⟩

/-- The same for an invariant that such changes keep. -/
theorem Confined.wp_of {x : FileM δ Q ε α} {I : World δ → Prop} (h : Confined D x) {w : World δ}
    (hI : ∀ w', Within D w w' → I w') :
    FileProg.wp env I x (fun _ w' => Within D w w') w :=
  (h.wp w).mono hI (fun _ _ hw _ => hw)

end Frame

end FileProg

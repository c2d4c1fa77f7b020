/-
  Soal.Lib.Leads — relations between the disk before a program and the disk after it.

  `Leads R x` says that `x`, run to its end in any world, leads from a disk to one that `R` relates to
  it, whatever the result.  For a preorder `R` this is read off the text of the program, by one rule
  for each way programs are put together.

  Nothing here names a particular program.
-/
import Mathlib.Order.Defs.Unbundled
import Soal.Lib.Confined

namespace FileProg

variable {δ : Type} [DecidableEq δ] {Q : Signature} {ε α β : Type}

/-- From every disk the program leads to one that `R` relates to it. -/
def Leads (R : Fs δ → Fs δ → Prop) (x : FileM δ Q ε α) : Prop :=
  ∀ (env : Env Q) (w : World δ), R w.fs (run env x w).2.fs

namespace Leads

variable {R : Fs δ → Fs δ → Prop}

/-- It is what a rule says about the disk at the end. -/
theorem iff_wp {x : FileM δ Q ε α} : Leads R x ↔
    ∀ (env : Env Q) (w : World δ), wp env (fun _ => True) x (fun _ w' => R w.fs w'.fs) w :=
  forall_congr' fun _ => forall_congr' fun _ =>
    ⟨fun h => wp_iff.2 ⟨fun _ _ => trivial, h⟩, fun h => h.post⟩

variable [IsPreorder (Fs δ) R]

theorem done {r : Except ε α} : Leads R (.done r : FileM δ Q ε α) := fun _ w => Std.Refl.refl w.fs

/-- Reading changes nothing. -/
theorem ofRead (x : ReadM δ ε α) : Leads R (FileProg.ofRead x : FileM δ Q ε α) :=
  iff_wp.2 fun _ w => wp_ofRead.2 ⟨trivial, Std.Refl.refl w.fs⟩

theorem ask (q : Q.Op) : Leads R (FileProg.ask q : FileM δ Q ε (Q.Reply q)) :=
  iff_wp.2 fun _ w => wp_ask.2 ⟨trivial, trivial, Std.Refl.refl w.fs⟩

theorem bind {x : FileM δ Q ε α} {f : α → FileM δ Q ε β} (hx : Leads R x)
    (hf : ∀ a, Leads R (f a)) : Leads R (x >>= f) := by
  refine iff_wp.2 fun env w => wp_seq (iff_wp.1 hx env w) (fun a w' _ h => ?_) fun e w' _ h => h
  exact (iff_wp.1 (hf a) env w').mono (fun _ h => h) fun r w'' _ h' => IsTrans.trans _ _ _ h h'

theorem handle {x : FileM δ Q ε α} {f : Except ε α → FileM δ Q ε β} (hx : Leads R x)
    (hf : ∀ r, Leads R (f r)) : Leads R (x.handle f) := by
  refine iff_wp.2 fun env w => wp_handle.2 ((iff_wp.1 hx env w).mono (fun _ h => h) ?_)
  intro r w' _ h
  exact (iff_wp.1 (hf r) env w').mono (fun _ h => h) fun r w'' _ h' => IsTrans.trans _ _ _ h h'

omit [IsPreorder (Fs δ) R] in
/-- A program confined to files that `R` does not look at. -/
theorem ofConfined {D : FilePath δ → Prop} {x : FileM δ Q ε α} (hx : Confined D x)
    (hR : ∀ fs fs', (∀ p, ¬D p → AList.lookup p fs' = AList.lookup p fs) → R fs fs') :
    Leads R x :=
  iff_wp.2 fun _ w => (hx.wp w).mono (fun _ _ => trivial) fun _ _ hw _ => hR _ _ hw.frame

end Leads

end FileProg

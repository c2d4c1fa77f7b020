/-
  Soal.Lib.Trace — deterministic runs, and the condition under which a property holds all along one.

  A run is a list of events from a start state.  `Always` speaks about every state of a run, `Each`
  about every step of it.  `always_iff` is the exact form of an invariant argument: beside an
  invariant that every admitted step keeps, a property that a step can only lose, and loses exactly
  when the step fails its condition, holds in every state iff every step meets the condition.

  Nothing here names a particular program.
-/
import Mathlib.Logic.Basic

namespace Trace

variable {σ ε : Type} (next : σ → ε → σ)

/-- `P` holds in every state of the run, the first and the last among them. -/
def Always (P : σ → Prop) : σ → List ε → Prop
  | s, [] => P s
  | s, e :: es => P s ∧ Always P (next s e) es

/-- `C` holds at every step of the run. -/
def Each (C : σ → ε → Prop) : σ → List ε → Prop
  | _, [] => True
  | s, e :: es => C s e ∧ Each C (next s e) es

variable {next} {P Inv Clean : σ → Prop} {A C : σ → ε → Prop} {s : σ} {es : List ε}

theorem Always.head (h : Always next P s es) : P s := by
  cases es with
  | nil => exact h
  | cons e es => exact h.1

theorem Always.mono {P' : σ → Prop} (hP : ∀ s, P s → P' s) (h : Always next P s es) :
    Always next P' s es := by
  induction es generalizing s with
  | nil => exact hP s h
  | cons e es ih => exact ⟨hP s h.1, ih h.2⟩

/-- The run rule: what every admitted step keeps holds all along. -/
theorem always_of_each (hstep : ∀ s e, A s e → Inv s → Inv (next s e)) (hA : Each next A s es)
    (hs : Inv s) : Always next Inv s es := by
  induction es generalizing s with
  | nil => exact hs
  | cons e es ih => exact ⟨hs, ih hA.2 (hstep s e hA.1 hs)⟩

/-- **The exact condition of a run.** -/
theorem always_iff (hinv : ∀ s e, A s e → Inv s → Inv (next s e))
    (hP : ∀ s, Inv s → (P s ↔ Clean s))
    (hclean : ∀ s e, A s e → Inv s → Clean s → (Clean (next s e) ↔ C s e))
    (hA : Each next A s es) (hs : Inv s) (hc : Clean s) :
    Always next P s es ↔ Each next C s es := by
  induction es generalizing s with
  | nil => exact ⟨fun _ => trivial, fun _ => (hP s hs).2 hc⟩
  | cons e es ih =>
    have hnext : Inv (next s e) := hinv s e hA.1 hs
    have hstep := hclean s e hA.1 hs hc
    constructor
    · intro h
      have hc' : Clean (next s e) := (hP _ hnext).1 h.2.head
      exact ⟨hstep.1 hc', (ih hA.2 hnext hc').1 h.2⟩
    · intro h
      have hc' : Clean (next s e) := hstep.2 h.1
      exact ⟨(hP s hs).2 hc, (ih hA.2 hnext hc').2 h.2⟩

end Trace

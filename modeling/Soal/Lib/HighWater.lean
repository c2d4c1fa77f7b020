/-
  Soal.Lib.HighWater — a guard that keeps, for every key, the highest number it accepted.

  A message carries a key and a number; it is accepted when it is valid and its number exceeds the
  mark of its key, and then the mark moves up to it.  Over any run the accepted numbers of a key
  ascend, and the verdicts on one key's messages do not depend on the messages of other keys.

  Nothing here names a particular program.
-/
import Mathlib.Order.Lattice

namespace HighWater

/-- What a guard looks at in a message. -/
structure Guard (μ κ ω : Type) where
  key : μ → κ
  num : μ → ω
  valid : μ → Bool

variable {μ κ ω : Type} [DecidableEq κ] [LinearOrder ω] (g : Guard μ κ ω)

/-! ## §1. Runs. -/

/-- The verdict on a message, given the mark of its key. -/
def Guard.accepts (mark : κ → ω) (m : μ) : Bool := g.valid m && decide (mark (g.key m) < g.num m)

/-- The marks after a message. -/
def Guard.next (mark : κ → ω) (m : μ) : κ → ω :=
  if g.accepts mark m then Function.update mark (g.key m) (g.num m) else mark

/-- The messages of a run, each with its verdict. -/
def Guard.verdicts (mark : κ → ω) : List μ → List (μ × Bool)
  | [] => []
  | m :: ms => (m, g.accepts mark m) :: verdicts (g.next mark m) ms

/-- The accepted messages of a run. -/
def accepted (vs : List (μ × Bool)) : List μ := (vs.filter Prod.snd).map Prod.fst

variable {g} {mark : κ → ω} {m : μ} {ms : List μ}

/-! ## §2. One message. -/

omit [DecidableEq κ] in
theorem Guard.accepts_iff :
    g.accepts mark m = true ↔ g.valid m = true ∧ mark (g.key m) < g.num m := by
  unfold accepts
  rw [Bool.and_eq_true, decide_eq_true_iff]

/-- The mark of an accepted message is its number. -/
theorem Guard.next_key (h : g.accepts mark m = true) : g.next mark m (g.key m) = g.num m := by
  unfold next
  rw [if_pos h, Function.update_self]

/-- A rejected message leaves every mark. -/
theorem Guard.next_rejected (h : g.accepts mark m = false) : g.next mark m = mark := by
  unfold next
  rw [h]
  exact if_neg Bool.false_ne_true

/-- A message leaves the marks of other keys. -/
theorem Guard.next_other {k : κ} (h : g.key m ≠ k) : g.next mark m k = mark k := by
  unfold next
  split
  · exact Function.update_of_ne (Ne.symm h) _ _
  · rfl

/-- Marks never fall. -/
theorem Guard.le_next (m : μ) (k : κ) : mark k ≤ g.next mark m k := by
  by_cases hk : g.key m = k
  · subst hk
    by_cases h : g.accepts mark m = true
    · rw [g.next_key h]
      exact le_of_lt (accepts_iff.1 h).2
    · rw [g.next_rejected (by simpa using h)]
  · rw [g.next_other hk]

omit [DecidableEq κ] in
/-- The verdict depends on the mark of the message's key only. -/
theorem Guard.accepts_congr {mark' : κ → ω} (h : mark (g.key m) = mark' (g.key m)) :
    g.accepts mark m = g.accepts mark' m := by
  unfold accepts
  rw [h]

/-! ## §3. A run. -/

/-- Accepted messages of a key lie above the mark the run started with. -/
theorem Guard.lt_of_accepted : ∀ {ms : List μ} {mark : κ → ω} {m : μ},
    m ∈ accepted (g.verdicts mark ms) → mark (g.key m) < g.num m := by
  intro ms
  induction ms with
  | nil =>
    intro mark m h
    cases h
  | cons a ms ih =>
    intro mark m h
    by_cases ha : g.accepts mark a = true
    · rw [verdicts, accepted, List.filter_cons_of_pos (by exact ha), List.map_cons,
        List.mem_cons] at h
      rcases h with rfl | h
      · exact (accepts_iff.1 ha).2
      · exact lt_of_le_of_lt (g.le_next a (g.key m)) (ih h)
    · rw [verdicts, accepted, List.filter_cons_of_neg (by exact ha)] at h
      exact lt_of_le_of_lt (g.le_next a (g.key m)) (ih h)

/-- The accepted numbers of a key ascend strictly. -/
theorem Guard.accepted_ascend : ∀ (ms : List μ) (mark : κ → ω),
    (accepted (g.verdicts mark ms)).Pairwise fun a b => g.key a = g.key b → g.num a < g.num b := by
  intro ms
  induction ms with
  | nil =>
    intro mark
    exact List.Pairwise.nil
  | cons a ms ih =>
    intro mark
    by_cases ha : g.accepts mark a = true
    · rw [verdicts, accepted, List.filter_cons_of_pos (by exact ha), List.map_cons]
      refine List.pairwise_cons.2 ⟨fun b hb hkey => ?_, ih _⟩
      -- the mark of the key is the number of `a` from here on
      have hlt := lt_of_accepted hb
      rwa [← hkey, g.next_key ha] at hlt
    · rw [verdicts, accepted, List.filter_cons_of_neg (by exact ha)]
      exact ih _

/-- What happens to one key is what happens without the messages of the others. -/
theorem Guard.verdicts_filter (k : κ) : ∀ (ms : List μ) (mark mark' : κ → ω), mark k = mark' k →
    (g.verdicts mark ms).filter (fun v => decide (g.key v.1 = k)) =
      g.verdicts mark' (ms.filter fun m => decide (g.key m = k)) := by
  intro ms
  induction ms with
  | nil =>
    intro mark mark' _
    rfl
  | cons a ms ih =>
    intro mark mark' hk
    by_cases ha : g.key a = k
    · have hsame : g.accepts mark a = g.accepts mark' a := g.accepts_congr (by rw [ha, hk])
      rw [verdicts, List.filter_cons_of_pos (by simpa using ha),
        List.filter_cons_of_pos (by simpa using ha), verdicts, hsame]
      congr 1
      refine ih _ _ ?_
      cases h : g.accepts mark' a with
      | true => rw [← ha, g.next_key h, g.next_key (hsame.trans h)]
      | false => rw [g.next_rejected h, g.next_rejected (hsame.trans h), hk]
    · rw [verdicts, List.filter_cons_of_neg (by simpa using ha),
        List.filter_cons_of_neg (by simpa using ha)]
      exact ih _ _ ((g.next_other ha).trans hk)

end HighWater

/-
  Soal.Lib.Recency — a list of distinct things by the last time each was named.

  Naming a thing moves it to the end of the list; pruning drops from the front.  However namings and
  prunings follow one another, what is listed is an end of the list without prunings (`Newest`), and
  it is long enough to hold the newest `r` when every pruning keeps at least `r`.

  Nothing here names a particular program.
-/
import Mathlib.Data.List.Infix
import Mathlib.Data.List.Nodup

namespace Recency

variable {α : Type} [DecidableEq α]

/-- `x` is named: it is the newest now, and where it was listed before it is taken out. -/
def touch (l : List α) (x : α) : List α := l.filter (fun y => decide (y ≠ x)) ++ [x]

/-- Everything that was named, by the last time it was named. -/
def order (names : List α) : List α := names.foldl touch []

/-- The newest `n`. -/
def newest (n : Nat) (l : List α) : List α := l.drop (l.length - n)

theorem order_concat (names : List α) (x : α) : order (names ++ [x]) = touch (order names) x := by
  unfold order
  rw [List.foldl_append]
  rfl

theorem touch_nodup {l : List α} (h : l.Nodup) (x : α) : (touch l x).Nodup := by
  unfold touch
  refine List.nodup_append.2 ⟨h.filter _, List.nodup_singleton x, fun a ha b hb heq => ?_⟩
  have hne := of_decide_eq_true (List.mem_filter.1 ha).2
  exact hne (heq.trans (List.mem_singleton.1 hb))

theorem order_nodup (names : List α) : (order names).Nodup := by
  induction names using List.reverseRecOn with
  | nil => exact List.nodup_nil
  | append_singleton names x ih =>
    rw [order_concat]
    exact touch_nodup ih x

theorem mem_touch {l : List α} {x y : α} : y ∈ touch l x ↔ y ∈ l ∨ y = x := by
  unfold touch
  simp only [List.mem_append, List.mem_filter, List.mem_singleton, decide_eq_true_eq]
  by_cases h : y = x
  · simp [h]
  · simp [h]

/-- Naming something new makes the list longer by one, naming something again does not. -/
theorem touch_length {l : List α} (h : l.Nodup) (x : α) :
    (touch l x).length = if x ∈ l then l.length else l.length + 1 := by
  unfold touch
  rw [List.length_append, List.length_singleton]
  split
  next hx =>
    have hfilter : l.filter (fun y => decide (y ≠ x)) = l.erase x := by
      rw [h.erase_eq_filter]
      refine List.filter_congr fun y _ => ?_
      by_cases hy : y = x <;> simp [hy]
    have hpos := List.length_pos_of_mem hx
    rw [hfilter, List.length_erase_of_mem hx]
    omega
  next hx =>
    have hfilter : l.filter (fun y => decide (y ≠ x)) = l := by
      refine List.filter_eq_self.2 fun y hy => decide_eq_true ?_
      rintro rfl
      exact hx hy
    rw [hfilter]

/-- Naming `x` twice in a row is naming it once. -/
theorem touch_touch (l : List α) (x : α) : touch (touch l x) x = touch l x := by
  unfold touch
  rw [List.filter_append, List.filter_filter]
  simp

section Map

variable {β : Type} [DecidableEq β] {f : α → β}

theorem map_touch (hf : Function.Injective f) (l : List α) (x : α) :
    (touch l x).map f = touch (l.map f) (f x) := by
  unfold touch
  rw [List.map_append, List.filter_map]
  refine congrArg (· ++ [f x]) (congrArg (List.map f) (List.filter_congr fun y _ => ?_))
  show decide (y ≠ x) = decide (f y ≠ f x)
  exact decide_eq_decide.2 (not_congr hf.eq_iff.symm)

omit [DecidableEq α] [DecidableEq β] in
theorem map_newest (n : Nat) (l : List α) : (newest n l).map f = newest n (l.map f) := by
  unfold newest
  rw [List.map_drop, List.length_map]

end Map

/-- `l` is an end of `full` that holds its newest `r`. -/
structure Newest (r : Nat) (l full : List α) : Prop where
  suffix : l <:+ full
  enough : min r full.length ≤ l.length

namespace Newest

variable {r n : Nat} {l full : List α} {x : α}

/-- Naming `x` in both lists. -/
theorem touch (h : Newest r l full) (hnodup : full.Nodup) (x : α) :
    Newest r (Recency.touch l x) (Recency.touch full x) := by
  refine ⟨?_, ?_⟩
  · obtain ⟨older, rfl⟩ := h.suffix
    refine ⟨older.filter (fun y => decide (y ≠ x)), ?_⟩
    unfold Recency.touch
    rw [List.filter_append, List.append_assoc]
  · have hl := hnodup.sublist h.suffix.sublist
    have henough := h.enough
    have hle := h.suffix.length_le
    rw [touch_length hnodup, touch_length hl]
    -- what is listed in `l` is listed in `full`
    by_cases hx : x ∈ l
    · rw [if_pos hx, if_pos (h.suffix.subset hx)]
      omega
    · rw [if_neg hx]
      split <;> omega

omit [DecidableEq α] in
/-- A pruning that keeps at least `r`. -/
theorem prune (h : Newest r l full) (hn : r ≤ n) : Newest r (newest n l) full := by
  refine ⟨(List.drop_suffix _ l).trans h.suffix, ?_⟩
  have henough := h.enough
  unfold newest
  rw [List.length_drop]
  omega

omit [DecidableEq α] in
/-- The newest `r` are listed. -/
theorem mem (h : Newest r l full) (hx : x ∈ newest r full) : x ∈ l := by
  obtain ⟨older, rfl⟩ := h.suffix
  have henough := h.enough
  unfold newest at hx
  rw [List.length_append] at hx henough
  have hle : older.length ≤ older.length + l.length - r := by omega
  rw [List.drop_append, List.drop_eq_nil_of_le hle, List.nil_append] at hx
  exact List.mem_of_mem_drop hx

end Newest

end Recency

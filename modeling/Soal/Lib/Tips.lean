/-
  Soal.Lib.Tips — unrelated tips of a growing graph.

  `parent c p` says that `p` is a parent of `c`.  A set of nodes has unrelated members (an antichain)
  when none is a proper ancestor of another.  The lemmas say when a tip can be added, and when a new
  node can take the place of its parent.

  Nothing here names a particular program.
-/
import Mathlib.Logic.Relation
import Mathlib.Data.Finset.Insert
import Mathlib.Order.Antichain

namespace Tips

variable {α : Type} [DecidableEq α] {parent : α → α → Prop}

/-- `a` is a proper ancestor of `c`. -/
def Above (parent : α → α → Prop) (a c : α) : Prop := Relation.TransGen parent c a

/-- No member is a proper ancestor of another. -/
def Unrelated (parent : α → α → Prop) (s : Finset α) : Prop :=
  IsAntichain (Above parent) (s : Set α)

/-- Neither is a proper ancestor of the other, for every other member. -/
def Apart (parent : α → α → Prop) (s : Finset α) (c : α) : Prop :=
  ∀ x ∈ s, c ≠ x → ¬Above parent x c ∧ ¬Above parent c x

variable {s : Finset α} {a c h m x : α}

omit [DecidableEq α] in
theorem unrelated_empty : Unrelated parent ∅ := by
  show IsAntichain _ ((∅ : Finset α) : Set α)
  rw [Finset.coe_empty]
  exact IsAntichain.empty

omit [DecidableEq α] in
theorem unrelated_singleton (a : α) : Unrelated parent {a} := by
  show IsAntichain _ (({a} : Finset α) : Set α)
  rw [Finset.coe_singleton]
  exact IsAntichain.singleton

omit [DecidableEq α] in
theorem Unrelated.subset {t : Finset α} (h : Unrelated parent s) (hts : t ⊆ s) :
    Unrelated parent t := IsAntichain.subset h (Finset.coe_subset.2 hts)

omit [DecidableEq α] in
/-- Fewer parents relate fewer nodes. -/
theorem Unrelated.of_fewer {parent' : α → α → Prop} (h : Unrelated parent s)
    (hsub : ∀ c p, parent' c p → parent c p) : Unrelated parent' s :=
  IsAntichain.mono h fun a c hac => Relation.TransGen.mono (fun c p hp => hsub c p hp) c a hac

/-- **A tip is added** exactly when it is apart from the others. -/
theorem unrelated_insert : Unrelated parent (insert c s) ↔ Unrelated parent s ∧ Apart parent s c := by
  unfold Unrelated
  rw [Finset.coe_insert, isAntichain_insert]
  refine and_congr_right fun _ => ?_
  constructor
  · intro h x hx hne
    exact ⟨(h (Finset.mem_coe.2 hx) hne).2, (h (Finset.mem_coe.2 hx) hne).1⟩
  · intro h x hx hne
    exact ⟨(h x (Finset.mem_coe.1 hx) hne).2, (h x (Finset.mem_coe.1 hx) hne).1⟩

omit [DecidableEq α] in
/-- What is above a node with one parent is that parent, or above it. -/
theorem above_child (hnew : ∀ p, parent m p → p = h) (hx : Above parent x m) :
    x = h ∨ Above parent x h := by
  obtain ⟨p, hp, hpx⟩ := Relation.TransGen.head'_iff.1 hx
  obtain rfl := hnew p hp
  rcases Relation.reflTransGen_iff_eq_or_transGen.1 hpx with rfl | hpx
  · exact .inl rfl
  · exact .inr hpx

/-- **A new node takes the place of its parent**: the other tips stay apart from it, when the parent
is not among them. -/
theorem Unrelated.extend (hs : Unrelated parent (insert h s)) (hh : h ∉ s)
    (hm : parent m h) (hnew : ∀ p, parent m p → p = h) : Unrelated parent (insert m s) := by
  obtain ⟨hs, hapart⟩ := unrelated_insert.1 hs
  refine unrelated_insert.2 ⟨hs, fun x hx _ => ?_⟩
  have hne : h ≠ x := fun heq => hh (heq ▸ hx)
  obtain ⟨hup, hdown⟩ := hapart x hx hne
  constructor
  · intro hxm
    rcases above_child hnew hxm with rfl | hxh
    · exact hh hx
    · exact hup hxh
  · -- a path from `x` down to `m` goes on to the parent
    exact fun hmx => hdown (Relation.TransGen.tail hmx hm)

/-- A new root joins tips that do not descend from it. -/
theorem Unrelated.root (hs : Unrelated parent s) (hm : ∀ p, ¬parent m p)
    (hno : ∀ x ∈ s, ¬Above parent m x) : Unrelated parent (insert m s) := by
  refine unrelated_insert.2 ⟨hs, fun x hx _ => ⟨fun hxm => ?_, hno x hx⟩⟩
  obtain ⟨p, hp, -⟩ := Relation.TransGen.head'_iff.1 hxm
  exact hm p hp

end Tips

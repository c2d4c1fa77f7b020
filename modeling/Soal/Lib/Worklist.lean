/-
  Soal.Lib.Worklist — the invariant of a worklist search.

  A search keeps the nodes it has seen and a list of pending ones.  It pops a pending node, skips it
  if it was seen, and otherwise marks it and adds its successors.  `Frontier` is what every such
  step preserves; once nothing is pending, the seen nodes are the reachable ones.

  Nothing here names a particular search: the pending list may be a stack or a queue.  `Taken` lists
what a search with a queue pops, entry by entry, repeats included; a search that stops once it has
seen too many nodes is decided by that list alone.
-/
import Mathlib.Data.Finset.Card
import Mathlib.Data.Finset.Lattice.Basic
import Mathlib.Data.List.Basic
import Mathlib.Logic.Relation

namespace Worklist

variable {α : Type}

/-- Reachable from a set of roots. -/
def Reachable (next : α → α → Prop) (roots : α → Prop) (x : α) : Prop :=
  ∃ r, roots r ∧ Relation.ReflTransGen next r x

namespace Reachable

variable {next next' : α → α → Prop} {roots roots' : α → Prop} {x y : α}

theorem root (h : roots x) : Reachable next roots x := ⟨x, h, .refl⟩

theorem step (h : Reachable next roots x) (hxy : next x y) : Reachable next roots y := by
  obtain ⟨r, hr, hrx⟩ := h
  exact ⟨r, hr, hrx.tail hxy⟩

theorem trans (h : Reachable next roots x) (hxy : Relation.ReflTransGen next x y) :
    Reachable next roots y := by
  obtain ⟨r, hr, hrx⟩ := h
  exact ⟨r, hr, hrx.trans hxy⟩

/-- A set that holds the roots and is closed under `next` holds everything reachable. -/
theorem induct {P : α → Prop} (h : Reachable next roots x) (hr : ∀ r, roots r → P r)
    (hs : ∀ x y, P x → next x y → P y) : P x := by
  obtain ⟨r, hr', hrx⟩ := h
  induction hrx with
  | refl => exact hr r hr'
  | tail _ hyz ih => exact hs _ _ ih hyz

/-- More roots and more edges reach more, as long as the new roots lead to the old. -/
theorem mono (h : Reachable next roots x) (hr : ∀ r, roots r → Reachable next' roots' r)
    (hs : ∀ x y, Reachable next' roots' x → next x y → next' x y) : Reachable next' roots' x :=
  h.induct hr fun x y hx hxy => hx.step (hs x y hx hxy)

end Reachable

/-- **Changing the successors of one node**: from that node one reaches the node itself, and what its
new successors reached before. -/
theorem reach_patched {next next' : α → α → Prop} {m : α} (hother : ∀ x y, x ≠ m →
    (next' x y ↔ next x y)) (hm : ∀ y, next m y → next' m y) (x : α) :
    Relation.ReflTransGen next' m x ↔
      x = m ∨ ∃ p, next' m p ∧ Relation.ReflTransGen next p x := by
  constructor
  · intro h
    induction h with
    | refl => exact .inl rfl
    | @tail y z _ hyz ih =>
      -- the last visit of `m` splits the path
      by_cases hy : y = m
      · exact .inr ⟨z, hy ▸ hyz, .refl⟩
      · obtain ⟨p, hp, hpy⟩ := ih.resolve_left hy
        exact .inr ⟨p, hp, hpy.tail ((hother y z hy).1 hyz)⟩
  · rintro (rfl | ⟨p, hp, hpx⟩)
    · exact .refl
    · refine .head hp (Relation.ReflTransGen.mono (fun y z hyz => ?_) _ _ hpx)
      by_cases hy : y = m
      · exact hy ▸ hm z (hy ▸ hyz)
      · exact (hother y z hy).2 hyz

/-- The invariant of the search. -/
structure Frontier [DecidableEq α] (next : α → α → Prop) (roots : α → Prop) (seen : Finset α)
    (pending : List α) : Prop where
  /-- nothing is found that is not reachable -/
  sound : ∀ x, x ∈ seen ∨ x ∈ pending → Reachable next roots x
  /-- no root is forgotten -/
  rooted : ∀ x, roots x → x ∈ seen ∨ x ∈ pending
  /-- no successor of a seen node is forgotten -/
  closed : ∀ x ∈ seen, ∀ y, next x y → y ∈ seen ∨ y ∈ pending

namespace Frontier

variable [DecidableEq α] {next : α → α → Prop} {roots : α → Prop} {seen : Finset α}
  {pending rest : List α} {x : α}

/-- The search starts with its roots pending. -/
theorem init (h : ∀ x, roots x ↔ x ∈ pending) : Frontier next roots ∅ pending where
  sound x hx := .root ((h x).2 (hx.resolve_left (by simp)))
  rooted x hx := .inr ((h x).1 hx)
  closed x hx := absurd hx (by simp)

/-- A seen node is skipped. -/
theorem skip (h : Frontier next roots seen (x :: rest)) (hx : x ∈ seen) :
    Frontier next roots seen rest := by
  have hdrop : ∀ y, y ∈ seen ∨ y ∈ x :: rest → y ∈ seen ∨ y ∈ rest := by
    rintro y (hy | hy)
    · exact .inl hy
    · rcases List.mem_cons.1 hy with rfl | hy
      · exact .inl hx
      · exact .inr hy
  exact {
    sound := fun y hy => h.sound y (hy.imp_right (List.mem_cons_of_mem x))
    rooted := fun y hy => hdrop y (h.rooted y hy)
    closed := fun y hy z hyz => hdrop z (h.closed y hy z hyz) }

/-- A new node is marked, and its successors are pending. -/
theorem visit {pending' : List α} (h : Frontier next roots seen (x :: rest))
    (hp : ∀ y, y ∈ pending' ↔ next x y ∨ y ∈ rest) :
    Frontier next roots (insert x seen) pending' := by
  have hkeep : ∀ y, y ∈ seen ∨ y ∈ x :: rest → y ∈ insert x seen ∨ y ∈ pending' := by
    rintro y (hy | hy)
    · exact .inl (Finset.mem_insert_of_mem hy)
    · rcases List.mem_cons.1 hy with rfl | hy
      · exact .inl (Finset.mem_insert_self _ _)
      · exact .inr ((hp y).2 (.inr hy))
  have hx : Reachable next roots x := h.sound x (.inr List.mem_cons_self)
  refine ⟨?_, fun y hy => hkeep y (h.rooted y hy), ?_⟩
  · rintro y (hy | hy)
    · rcases Finset.mem_insert.1 hy with rfl | hy
      · exact hx
      · exact h.sound y (.inl hy)
    · rcases (hp y).1 hy with hxy | hy
      · exact hx.step hxy
      · exact h.sound y (.inr (List.mem_cons_of_mem x hy))
  · intro y hy z hyz
    rcases Finset.mem_insert.1 hy with rfl | hy
    · exact .inr ((hp z).2 (.inl hyz))
    · exact hkeep z (h.closed y hy z hyz)

/-- **At the end the seen nodes are exactly the reachable ones.** -/
theorem seen_iff (h : Frontier next roots seen []) : x ∈ seen ↔ Reachable next roots x := by
  constructor
  · exact fun hx => h.sound x (.inl hx)
  · intro hx
    refine hx.induct (fun r hr => (h.rooted r hr).resolve_right (by simp)) ?_
    exact fun y z hy hyz => (h.closed y hy z hyz).resolve_right (by simp)

end Frontier

/-! ## The entries a search pops. -/

section Taken

variable [DecidableEq α] {next : α → List α} {roots : α → Prop} {seen all : Finset α}
  {queue es : List α} {cap : Nat} {x : α}

/-- What is popped, first in first out: an entry that was seen is dropped, and the successors of a new
one are put at the end. -/
inductive Taken (next : α → List α) : Finset α → List α → List α → Prop
  | done {seen : Finset α} : Taken next seen [] []
  | again {seen : Finset α} {x : α} {queue es : List α} (hx : x ∈ seen)
      (h : Taken next seen queue es) : Taken next seen (x :: queue) (x :: es)
  | fresh {seen : Finset α} {x : α} {queue es : List α} (hx : x ∉ seen)
      (h : Taken next (insert x seen) (queue ++ next x) es) :
      Taken next seen (x :: queue) (x :: es)

/-- What is popped is what is reachable. -/
theorem Taken.mem_iff (h : Taken next seen queue es)
    (hf : Frontier (fun a b => b ∈ next a) roots seen queue) :
    x ∈ seen ∪ es.toFinset ↔ Reachable (fun a b => b ∈ next a) roots x := by
  induction h with
  | done => rw [List.toFinset_nil, Finset.union_empty, hf.seen_iff]
  | @again seen y queue es hy _ ih =>
    rw [← ih (hf.skip hy), List.toFinset_cons, Finset.union_insert, ← Finset.insert_union,
      Finset.insert_eq_of_mem hy]
  | @fresh seen y queue es _ _ ih =>
    have hnext : ∀ z, z ∈ queue ++ next y ↔ z ∈ next y ∨ z ∈ queue := by
      intro z
      rw [List.mem_append, or_comm]
    rw [← ih (hf.visit hnext), List.toFinset_cons, Finset.union_insert, ← Finset.insert_union]

/-- A search of a finite set ends.  Each pop shortens the queue or sees one more of its nodes. -/
theorem exists_taken (hclosed : ∀ a ∈ all, ∀ b ∈ next a, b ∈ all) (hseen : seen ⊆ all)
    (hqueue : ∀ a ∈ queue, a ∈ all) : ∃ es, Taken next seen queue es := by
  obtain ⟨n, hn⟩ : ∃ n, n = all.card - seen.card := ⟨_, rfl⟩
  induction n using Nat.strong_induction_on generalizing seen queue with
  | _ n ihn =>
    induction queue with
    | nil => exact ⟨[], .done⟩
    | cons a queue ih =>
      have ha : a ∈ all := hqueue a List.mem_cons_self
      have hrest : ∀ b ∈ queue, b ∈ all := fun b hb => hqueue b (List.mem_cons_of_mem a hb)
      by_cases hmem : a ∈ seen
      · obtain ⟨es, hes⟩ := ih hrest
        exact ⟨a :: es, .again hmem hes⟩
      · have hsub : insert a seen ⊆ all := Finset.insert_subset ha hseen
        have hcard : (insert a seen).card = seen.card + 1 := Finset.card_insert_of_notMem hmem
        have hle : (insert a seen).card ≤ all.card := Finset.card_le_card hsub
        have hpending : ∀ b ∈ queue ++ next a, b ∈ all := by
          intro b hb
          rcases List.mem_append.1 hb with hb | hb
          · exact hrest b hb
          · exact hclosed a ha b hb
        obtain ⟨es, hes⟩ := ihn (all.card - (insert a seen).card) (by omega) hsub hpending rfl
        exact ⟨a :: es, .fresh hmem hes⟩

/-- An entry is popped after more than `cap` nodes were seen. -/
def DeepAt (cap : Nat) (seen : Finset α) : List α → Prop
  | [] => False
  | x :: es => cap < seen.card ∨ DeepAt cap (insert x seen) es

/-- **Whether the search meets more than `cap` nodes before its last entry**: what counts is every
entry but the last. -/
theorem deepAt_iff : DeepAt cap seen es ↔ es ≠ [] ∧ cap < (seen ∪ es.dropLast.toFinset).card := by
  induction es generalizing seen with
  | nil => simp [DeepAt]
  | cons y es ih =>
    rw [DeepAt, ih]
    cases es with
    | nil => simp
    | cons z es =>
      have hunion : insert y seen ∪ (z :: es).dropLast.toFinset =
          seen ∪ (y :: z :: es).dropLast.toFinset := by
        rw [List.dropLast_cons_cons, List.toFinset_cons, Finset.union_insert, Finset.insert_union]
      have hle : seen.card ≤ (seen ∪ (y :: z :: es).dropLast.toFinset).card :=
        Finset.card_le_card Finset.subset_union_left
      rw [hunion]
      constructor
      · intro h
        refine ⟨List.cons_ne_nil _ _, ?_⟩
        rcases h with h | h
        · omega
        · exact h.2
      · intro h
        exact .inr ⟨List.cons_ne_nil _ _, h.2⟩

/-- All entries but the last are one node less, unless the last repeats an earlier one. -/
theorem card_dropLast (h : es ≠ []) : es.dropLast.toFinset.card =
    if es.getLast h ∈ es.dropLast then es.toFinset.card else es.toFinset.card - 1 := by
  have hsplit : es.toFinset = insert (es.getLast h) es.dropLast.toFinset := by
    conv_lhs => rw [← List.dropLast_append_getLast h]
    rw [List.toFinset_append, List.toFinset_cons, List.toFinset_nil, Finset.union_insert,
      Finset.union_empty]
  split
  next hmem => rw [hsplit, Finset.insert_eq_of_mem (List.mem_toFinset.2 hmem)]
  next hmem =>
    rw [hsplit, Finset.card_insert_of_notMem fun h' => hmem (List.mem_toFinset.1 h')]
    omega

end Taken

end Worklist

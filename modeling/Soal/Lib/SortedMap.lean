/-
  Soal.Lib.SortedMap — finite maps kept as strictly ascending association lists.

  The list order is the iteration order, and it is part of the type: a map that is out of order, or
  that lists a key twice, cannot be built.  So two maps with the same lookups are equal
  (`SortedMap.ext_get`).
-/
import Mathlib.Order.Lattice
import Mathlib.Order.Defs.LinearOrder
import Mathlib.Data.List.Pairwise

/-- A finite map, listed in ascending key order. -/
@[ext] structure SortedMap (κ ν : Type) [LT κ] where
  entries : List (κ × ν)
  sorted : entries.Pairwise (fun a b => a.1 < b.1)

namespace SortedMap

variable {κ ν : Type} [LinearOrder κ]

instance [DecidableEq ν] : DecidableEq (SortedMap κ ν) := fun a b =>
  decidable_of_iff (a.entries = b.entries) SortedMap.ext_iff.symm

/-! ## §1. Lookup in an ascending list. -/

/-- Value at a key. -/
def lookup (k : κ) : List (κ × ν) → Option ν
  | [] => none
  | (k', v) :: rest => if k' = k then some v else lookup k rest

theorem mem_of_lookup {k : κ} {v : ν} : ∀ {l : List (κ × ν)}, lookup k l = some v → (k, v) ∈ l
  | (k', v') :: rest, h => by
      simp only [lookup] at h
      split at h
      next hk =>
        injection h with h
        exact List.mem_cons.2 (.inl (by rw [hk, h]))
      next => exact List.mem_cons_of_mem _ (mem_of_lookup h)

theorem lookup_of_mem {k : κ} {v : ν} :
    ∀ {l : List (κ × ν)}, l.Pairwise (fun a b => a.1 < b.1) → (k, v) ∈ l → lookup k l = some v
  | (k', v') :: rest, hs, h => by
      rw [List.pairwise_cons] at hs
      simp only [lookup]
      rcases List.mem_cons.1 h with h | h
      · injection h with hk hv
        rw [if_pos hk.symm, hv]
      · rw [if_neg (ne_of_lt (hs.1 _ h)), lookup_of_mem hs.2 h]

/-- An ascending list is determined by its members. -/
theorem eq_of_mem_iff : ∀ {l₁ l₂ : List (κ × ν)},
    l₁.Pairwise (fun a b => a.1 < b.1) → l₂.Pairwise (fun a b => a.1 < b.1) →
    (∀ p, p ∈ l₁ ↔ p ∈ l₂) → l₁ = l₂
  | [], [], _, _, _ => rfl
  | [], b :: _, _, _, h => absurd ((h b).2 List.mem_cons_self) (by simp)
  | a :: _, [], _, _, h => absurd ((h a).1 List.mem_cons_self) (by simp)
  | a :: l₁, b :: l₂, h₁, h₂, h => by
      rw [List.pairwise_cons] at h₁ h₂
      -- each head is the least key of its list, and each list holds the other's head
      have hab : a = b := by
        rcases List.mem_cons.1 ((h a).1 List.mem_cons_self) with h' | h'
        · exact h'
        · rcases List.mem_cons.1 ((h b).2 List.mem_cons_self) with h'' | h''
          · exact h''.symm
          · exact absurd (h₁.1 _ h'') (lt_asymm (h₂.1 _ h'))
      subst hab
      congr 1
      refine eq_of_mem_iff h₁.2 h₂.2 (fun p => ?_)
      constructor
      · intro hp
        rcases List.mem_cons.1 ((h p).1 (List.mem_cons_of_mem _ hp)) with rfl | h'
        · exact absurd (h₁.1 _ hp) (lt_irrefl _)
        · exact h'
      · intro hp
        rcases List.mem_cons.1 ((h p).2 (List.mem_cons_of_mem _ hp)) with rfl | h'
        · exact absurd (h₂.1 _ hp) (lt_irrefl _)
        · exact h'

/-! ## §2. Insertion. -/

/-- Insert or replace, keeping the order. -/
def insertList (k : κ) (v : ν) : List (κ × ν) → List (κ × ν)
  | [] => [(k, v)]
  | (k', v') :: rest =>
      if k < k' then (k, v) :: (k', v') :: rest
      else if k' = k then (k, v) :: rest
      else (k', v') :: insertList k v rest

theorem mem_insertList {k : κ} {v : ν} {p : κ × ν} :
    ∀ {l : List (κ × ν)}, p ∈ insertList k v l → p = (k, v) ∨ p ∈ l
  | [], h => .inl (by simpa [insertList] using h)
  | (k', v') :: rest, h => by
      simp only [insertList] at h
      split at h
      · simpa using h
      · split at h
        · rcases List.mem_cons.1 h with h | h
          · exact .inl h
          · exact .inr (List.mem_cons_of_mem _ h)
        · rcases List.mem_cons.1 h with h | h
          · exact .inr (by simp [h])
          · exact (mem_insertList h).imp id (List.mem_cons_of_mem _)

theorem insertList_sorted (k : κ) (v : ν) :
    ∀ {l : List (κ × ν)}, l.Pairwise (fun a b => a.1 < b.1) →
      (insertList k v l).Pairwise (fun a b => a.1 < b.1)
  | [], _ => by simp [insertList]
  | (k', v') :: rest, h => by
      have h' := h
      rw [List.pairwise_cons] at h
      simp only [insertList]
      split
      next hlt =>
        refine List.pairwise_cons.2 ⟨fun p hp => ?_, h'⟩
        rcases List.mem_cons.1 hp with rfl | hp
        · exact hlt
        · exact lt_trans hlt (h.1 _ hp)
      next hge =>
        split
        next heq =>
          subst heq
          exact List.pairwise_cons.2 ⟨h.1, h.2⟩
        next hne =>
          refine List.pairwise_cons.2 ⟨fun p hp => ?_, insertList_sorted k v h.2⟩
          rcases mem_insertList hp with rfl | hp
          · exact lt_of_le_of_ne (not_lt.1 hge) hne
          · exact h.1 _ hp

theorem lookup_insertList (k k' : κ) (v : ν) :
    ∀ {l : List (κ × ν)}, l.Pairwise (fun a b => a.1 < b.1) →
      lookup k' (insertList k v l) = if k = k' then some v else lookup k' l
  | [], _ => by simp [insertList, lookup]
  | (a, b) :: rest, h => by
      rw [List.pairwise_cons] at h
      simp only [insertList]
      split
      · simp [lookup]
      · split
        next heq =>
          subst heq
          simp only [lookup]
          split <;> rfl
        next hne =>
          simp only [lookup, lookup_insertList k k' v h.2]
          split
          next hak => rw [if_neg (by rw [← hak]; exact Ne.symm hne)]
          next => rfl

/-- A key above all others goes to the end. -/
theorem insertList_append {k : κ} {v : ν} :
    ∀ {l : List (κ × ν)}, (∀ p ∈ l, p.1 < k) → insertList k v l = l ++ [(k, v)]
  | [], _ => rfl
  | (k', v') :: rest, h => by
      have hk : k' < k := h _ List.mem_cons_self
      simp only [insertList, if_neg (not_lt.2 hk.le), if_neg (ne_of_lt hk), List.cons_append,
        insertList_append (fun p hp => h p (List.mem_cons_of_mem _ hp))]

/-! ## §3. The map interface. -/

/-- The empty map. -/
def empty : SortedMap κ ν := ⟨[], .nil⟩

/-- Value at a key. -/
def get? (m : SortedMap κ ν) (k : κ) : Option ν := lookup k m.entries

/-- Insert or replace. -/
def insert (m : SortedMap κ ν) (k : κ) (v : ν) : SortedMap κ ν :=
  ⟨insertList k v m.entries, insertList_sorted k v m.sorted⟩

/-- Number of entries. -/
def size (m : SortedMap κ ν) : Nat := m.entries.length

@[simp] theorem get?_empty (k : κ) : (empty : SortedMap κ ν).get? k = none := rfl

@[simp] theorem entries_empty : (empty : SortedMap κ ν).entries = [] := rfl

theorem get?_insert (m : SortedMap κ ν) (k k' : κ) (v : ν) :
    (m.insert k v).get? k' = if k = k' then some v else m.get? k' :=
  lookup_insertList k k' v m.sorted

@[simp] theorem get?_insert_self (m : SortedMap κ ν) (k : κ) (v : ν) :
    (m.insert k v).get? k = some v := by
  rw [get?_insert, if_pos rfl]

theorem get?_insert_ne (m : SortedMap κ ν) {k k' : κ} (v : ν) (h : k ≠ k') :
    (m.insert k v).get? k' = m.get? k' := by
  rw [get?_insert, if_neg h]

theorem mem_entries {m : SortedMap κ ν} {k : κ} {v : ν} :
    (k, v) ∈ m.entries ↔ m.get? k = some v :=
  ⟨lookup_of_mem m.sorted, mem_of_lookup⟩

/-- **Extensionality**: a map is its lookups. -/
theorem ext_get {m₁ m₂ : SortedMap κ ν} (h : ∀ k, m₁.get? k = m₂.get? k) : m₁ = m₂ := by
  refine SortedMap.ext (eq_of_mem_iff m₁.sorted m₂.sorted ?_)
  rintro ⟨k, v⟩
  rw [mem_entries, mem_entries, h k]

theorem entries_insert_of_lt {m : SortedMap κ ν} {k : κ} {v : ν}
    (h : ∀ p ∈ m.entries, p.1 < k) : (m.insert k v).entries = m.entries ++ [(k, v)] :=
  insertList_append h

end SortedMap

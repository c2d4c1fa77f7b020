/-
  Soal.Lib.PrefixCode — encodings whose values can be split off the front of a longer string.

  An encoding is prefix-free when two strings that begin with encoded values and agree begin with the
  same value.  Prefix-free encodings compose: one after another, behind fixed symbols, counted.
  Strings are bounded, so that an encoding may write lengths in a fixed width.  Rows of values whose
  encodings stand one after another can be taken apart again; when each value says how many terms
  follow it (Polish notation), the length of a row tells how many terms it is.

  Nothing here names a particular encoding.
-/
import Mathlib.Data.List.Basic
import Mathlib.Algebra.Order.Ring.Nat

namespace PrefixCode

variable {σ α β : Type} {n : Nat}

/-! ## §1. The notion. -/

/-- Of two equal strings that begin with encoded values of at most `n` symbols, the values and the
rests are equal. -/
def PrefixFree (n : Nat) (enc : α → List σ) : Prop :=
  ∀ a a' r r', (enc a).length ≤ n → (enc a').length ≤ n → enc a ++ r = enc a' ++ r' →
    a = a' ∧ r = r'

/-- A prefix-free encoding loses nothing. -/
theorem PrefixFree.injective {enc : α → List σ} (h : PrefixFree n enc) {a a' : α}
    (ha : (enc a).length ≤ n) (ha' : (enc a').length ≤ n) (heq : enc a = enc a') : a = a' := by
  have happend : enc a ++ [] = enc a' ++ [] := by rw [heq]
  exact (h a a' [] [] ha ha' happend).1

/-- Enough: one encoded value is no proper prefix of another. -/
theorem prefixFree_of_prefix {enc : α → List σ} (h : ∀ a a' t, (enc a).length ≤ n →
    (enc a').length ≤ n → enc a' = enc a ++ t → a = a' ∧ t = []) : PrefixFree n enc := by
  intro a a' r r' ha ha' heq
  rcases List.append_eq_append_iff.1 heq with ⟨t, hl, hr⟩ | ⟨t, hl, hr⟩
  · obtain ⟨rfl, rfl⟩ := h a a' t ha ha' hl
    exact ⟨rfl, by simpa using hr⟩
  · obtain ⟨rfl, rfl⟩ := h a' a t ha' ha hl
    exact ⟨rfl, by simpa using hr.symm⟩

/-! ## §2. Composition. -/

/-- A value seen through an injective view. -/
theorem PrefixFree.comap {enc : α → List σ} (h : PrefixFree n enc) {f : β → α}
    (hf : Function.Injective f) : PrefixFree n (fun b => enc (f b)) := by
  intro b b' r r' hb hb' heq
  obtain ⟨hval, hrest⟩ := h (f b) (f b') r r' hb hb' heq
  exact ⟨hf hval, hrest⟩

/-- Behind fixed symbols. -/
theorem PrefixFree.behind {enc : α → List σ} (h : PrefixFree n enc) (c : List σ) :
    PrefixFree n (fun a => c ++ enc a) := by
  intro a a' r r' ha ha' heq
  rw [List.append_assoc, List.append_assoc] at heq
  rw [List.length_append] at ha ha'
  exact h a a' r r' (by omega) (by omega) (List.append_cancel_left heq)

/-- One value after another. -/
theorem PrefixFree.pair {enc : α → List σ} {enc' : β → List σ} (h : PrefixFree n enc)
    (h' : PrefixFree n enc') : PrefixFree n (fun p : α × β => enc p.1 ++ enc' p.2) := by
  rintro ⟨a, b⟩ ⟨a', b'⟩ r r' ha ha' heq
  dsimp only at ha ha' heq
  rw [List.length_append] at ha ha'
  rw [List.append_assoc, List.append_assoc] at heq
  obtain ⟨rfl, htail⟩ := h a a' _ _ (by omega) (by omega) heq
  obtain ⟨rfl, hrest⟩ := h' b b' r r' (by omega) (by omega) htail
  exact ⟨rfl, hrest⟩

/-- As many values as agreed on before. -/
theorem PrefixFree.sequence {enc : α → List σ} (h : PrefixFree n enc) : ∀ (as as' : List α) r r',
    as.length = as'.length → (as.flatMap enc).length ≤ n → (as'.flatMap enc).length ≤ n →
    as.flatMap enc ++ r = as'.flatMap enc ++ r' → as = as' ∧ r = r' := by
  intro as
  induction as with
  | nil =>
    intro as' r r' hlen _ _ heq
    obtain rfl := List.length_eq_zero_iff.1 hlen.symm
    exact ⟨rfl, heq⟩
  | cons a as ih =>
    intro as' r r' hlen hfit hfit' heq
    cases as' with
    | nil => cases hlen
    | cons a' as' =>
      rw [List.flatMap_cons, List.length_append] at hfit hfit'
      rw [List.flatMap_cons, List.flatMap_cons, List.append_assoc, List.append_assoc] at heq
      obtain ⟨rfl, htail⟩ := h a a' _ _ (by omega) (by omega) heq
      obtain ⟨rfl, hrest⟩ := ih as' r r' (Nat.succ.inj hlen) (by omega) (by omega) htail
      exact ⟨rfl, hrest⟩

/-- A list whose values take room is no longer than its encoding. -/
theorem length_le_flatMap {enc : α → List σ} (hpos : ∀ a, 0 < (enc a).length) (as : List α) :
    as.length ≤ (as.flatMap enc).length := by
  induction as with
  | nil => exact Nat.zero_le _
  | cons a as ih =>
    have ha := hpos a
    rw [List.flatMap_cons, List.length_append, List.length_cons]
    omega

/-- A list behind its length; the length is below the bound when every value takes room. -/
theorem PrefixFree.counted {header : Nat → List σ} {enc : α → List σ}
    (hh : PrefixFree n (fun k : Fin (n + 1) => header k)) (h : PrefixFree n enc)
    (hpos : ∀ a, 0 < (enc a).length) :
    PrefixFree n (fun as : List α => header as.length ++ as.flatMap enc) := by
  intro as as' r r' ha ha' heq
  rw [List.length_append] at ha ha'
  rw [List.append_assoc, List.append_assoc] at heq
  have hle := length_le_flatMap hpos as
  have hle' := length_le_flatMap hpos as'
  obtain ⟨hlen, htail⟩ := hh ⟨as.length, by omega⟩ ⟨as'.length, by omega⟩ _ _
    (by dsimp only; omega) (by dsimp only; omega) heq
  exact h.sequence as as' r r' (Fin.mk.inj hlen) (by omega) (by omega) htail

/-! ## §3. Rows. -/

/-- A row of values that take room can be taken apart. -/
theorem PrefixFree.row {enc : α → List σ} (h : PrefixFree n enc) (hpos : ∀ a, 0 < (enc a).length) :
    ∀ as as' : List α, (as.flatMap enc).length ≤ n → as.flatMap enc = as'.flatMap enc → as = as' := by
  intro as
  induction as with
  | nil =>
    intro as' _ heq
    have hlen := length_le_flatMap hpos as'
    rw [← heq] at hlen
    exact (List.length_eq_zero_iff.1 (Nat.le_zero.1 hlen)).symm
  | cons a as ih =>
    intro as' hfit heq
    cases as' with
    | nil =>
      have hlen := length_le_flatMap hpos (a :: as)
      rw [heq] at hlen
      cases hlen
    | cons a' as' =>
      have hfit' := hfit
      rw [heq] at hfit'
      rw [List.flatMap_cons, List.length_append] at hfit hfit'
      rw [List.flatMap_cons, List.flatMap_cons] at heq
      obtain ⟨rfl, htail⟩ := h a a' _ _ (by omega) (by omega) heq
      rw [ih as' (by omega) htail]

/-- Rows that are `k` terms: a term is a value with as many terms behind it as its arity. -/
inductive Terms (arity : α → Nat) : Nat → List α → Prop
  | nil : Terms arity 0 []
  | cons {a : α} {k : Nat} {inner rest : List α} : Terms arity (arity a) inner →
      Terms arity k rest → Terms arity (k + 1) (a :: (inner ++ rest))

/-- Every value of a row is a term or one of those counted by the arities. -/
theorem Terms.length_eq {arity : α → Nat} {k : Nat} {row : List α} (h : Terms arity k row) :
    row.length = k + (row.map arity).sum := by
  induction h with
  | nil => rfl
  | cons hinner hrest ihinner ihrest =>
    simp only [List.length_cons, List.length_append, List.map_cons, List.map_append, List.sum_cons,
      List.sum_append]
    omega

theorem Terms.append {arity : α → Nat} {k l : Nat} {row row' : List α} (h : Terms arity k row)
    (h' : Terms arity l row') : Terms arity (k + l) (row ++ row') := by
  induction h with
  | nil =>
    rw [Nat.zero_add]
    exact h'
  | @cons a k inner rest hinner hrest ihinner ihrest =>
    rw [Nat.succ_add, List.cons_append, List.append_assoc]
    exact .cons hinner ihrest

end PrefixCode

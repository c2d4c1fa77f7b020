/-
  Soal.Lib.ConflictMerge — merging one map into another, with copies for what diverges.

  `merge copy ours theirs` goes through `theirs` in ascending key order.  A key that is free takes
  the value; a key with the same value is left alone; a key with another value sends theirs to the
  key `copy` names.  Copies live in the same key space as everything else, so a copy may land on an
  entry, and an entry may find a copy in its place.

  The result is described without the loop (`Merged`) as long as no copy lands on an entry of ours
  with another value, and from that: exactly when both sides survive (`keepsBoth_iff`).  Which keys get
  a copy is described without the loop for all maps (`getsCopy_iff`).

  Nothing here names a particular map.
-/
import Mathlib.Data.List.Induction
import Mathlib.Logic.Function.Basic
import Soal.Lib.SortedMap

namespace ConflictMerge

variable {κ ν : Type} [LinearOrder κ] [DecidableEq ν] (copy : κ → κ)

/-! ## §1. The merge. -/

/-- Merge one entry. -/
def step (m : κ → Option ν) (p : κ × ν) : κ → Option ν :=
  match m p.1 with
  | none => Function.update m p.1 (some p.2)
  | some e => if e = p.2 then m else Function.update m (copy p.1) (some p.2)

/-- Merge the entries of a list in order. -/
def merge (ours : κ → Option ν) (theirs : List (κ × ν)) : κ → Option ν :=
  theirs.foldl (step copy) ours

variable (ours : κ → Option ν) (theirs : List (κ × ν))

/-- The keys of theirs that diverge: from ours, or from the copy of an earlier divergent key that
stands in their place. -/
inductive Conflicting : κ → Prop where
  | ours {p : κ} {e t : ν} (ho : ours p = some e) (ht : (p, t) ∈ theirs) (hne : e ≠ t) :
      Conflicting p
  | copy {p : κ} {t₀ t : ν} (hp : Conflicting p) (ht₀ : (p, t₀) ∈ theirs)
      (ht : (copy p, t) ∈ theirs) (hlt : p < copy p) (ho : ours (copy p) = none) (hne : t₀ ≠ t) :
      Conflicting (copy p)

/-- Both sides survive in `m`, and nothing else is in it. -/
structure KeepsBoth (m : κ → Option ν) : Prop where
  keepsOurs : ∀ p e, ours p = some e → m p = some e
  keepsTheirs : ∀ p t, (p, t) ∈ theirs → m p = some t ∨ m (copy p) = some t
  nothingElse : ∀ p e, m p = some e → ours p = some e ∨ (p, e) ∈ theirs ∨
    ∃ q, copy q = p ∧ (q, e) ∈ theirs

/-- No copy displaces anything: it lands on a free place of ours or on its own value, and when a
smaller key of theirs was put there before, that key's value is the copy's or is also where its own
copy would be. -/
def CopiesFit : Prop :=
  ∀ p t, (p, t) ∈ theirs → Conflicting copy ours theirs p →
    (ours (copy p) = none ∨ ours (copy p) = some t) ∧
    ∀ s, (copy p, s) ∈ theirs → copy p < p → ours (copy p) = none →
      s = t ∨ ours (copy (copy p)) = some s ∨
        (ours (copy (copy p)) = none ∧ (copy (copy p), s) ∈ theirs)

variable {copy ours theirs}

/-! ## §2. Single steps. -/

theorem step_free {m : κ → Option ν} {p : κ} {t : ν} (h : m p = none) :
    step copy m (p, t) = Function.update m p (some t) := by
  simp only [step, h]

theorem step_same {m : κ → Option ν} {p : κ} {t : ν} (h : m p = some t) :
    step copy m (p, t) = m := by
  simp only [step, h, if_true]

theorem step_diverges {m : κ → Option ν} {p : κ} {e t : ν} (h : m p = some e) (hne : e ≠ t) :
    step copy m (p, t) = Function.update m (copy p) (some t) := by
  simp only [step, h, if_neg hne]

variable (copy) in
/-- The three ways a step can go. -/
theorem step_cases (m : κ → Option ν) (p : κ) (t : ν) :
    (m p = none ∧ step copy m (p, t) = Function.update m p (some t)) ∨
      (m p = some t ∧ step copy m (p, t) = m) ∨
      ∃ e, m p = some e ∧ e ≠ t ∧ step copy m (p, t) = Function.update m (copy p) (some t) := by
  cases h : m p with
  | none => exact .inl ⟨rfl, step_free h⟩
  | some e =>
      by_cases hne : e = t
      · subst hne
        exact .inr (.inl ⟨rfl, step_same h⟩)
      · exact .inr (.inr ⟨e, rfl, hne, step_diverges h hne⟩)

/-- An entry stays unless a copy lands on it. -/
theorem step_keeps {m : κ → Option ν} {p q : κ} {t e : ν} (hm : m q = some e) (hq : copy p ≠ q) :
    step copy m (p, t) q = some e := by
  rcases step_cases copy m p t with ⟨h, hs⟩ | ⟨-, hs⟩ | ⟨e', -, -, hs⟩
  · have hne : q ≠ p := fun hqp => by rw [← hqp, hm] at h; cases h
    rw [hs, Function.update_of_ne hne, hm]
  · rw [hs, hm]
  · rw [hs, Function.update_of_ne hq.symm, hm]

theorem foldl_keeps {q : κ} {e : ν} (rest : List (κ × ν)) : ∀ {m : κ → Option ν},
    m q = some e → (∀ p t, (p, t) ∈ rest → copy p ≠ q) → rest.foldl (step copy) m q = some e := by
  induction rest with
  | nil => exact fun hm _ => hm
  | cons x rest ih =>
      intro m hm hrest
      obtain ⟨p, t⟩ := x
      exact ih (step_keeps hm (hrest p t (by simp))) (fun p t hx => hrest p t (by simp [hx]))

/-- What a step adds comes from its entry. -/
theorem step_only {m : κ → Option ν} {p q : κ} {t e : ν} (h : step copy m (p, t) q = some e) :
    m q = some e ∨ (q = p ∧ e = t) ∨ (q = copy p ∧ e = t) := by
  rcases step_cases copy m p t with ⟨-, hs⟩ | ⟨-, hs⟩ | ⟨e', -, -, hs⟩
  · rw [hs] at h
    by_cases hq : q = p
    · subst hq
      rw [Function.update_self] at h
      exact .inr (.inl ⟨rfl, (Option.some.inj h).symm⟩)
    · rw [Function.update_of_ne hq] at h
      exact .inl h
  · rw [hs] at h
    exact .inl h
  · rw [hs] at h
    by_cases hq : q = copy p
    · subst hq
      rw [Function.update_self] at h
      exact .inr (.inr ⟨rfl, (Option.some.inj h).symm⟩)
    · rw [Function.update_of_ne hq] at h
      exact .inl h

/-- Every entry of the result comes from one side. -/
theorem foldl_only {q : κ} {e : ν} (l : List (κ × ν)) : ∀ {m : κ → Option ν},
    l.foldl (step copy) m q = some e →
      m q = some e ∨ (q, e) ∈ l ∨ ∃ p, copy p = q ∧ (p, e) ∈ l := by
  induction l with
  | nil => exact fun h => .inl h
  | cons x l ih =>
      intro m h
      obtain ⟨p, t⟩ := x
      rcases ih h with h | h | ⟨p', hx, hmem⟩
      · rcases step_only h with h | ⟨rfl, rfl⟩ | ⟨rfl, rfl⟩
        · exact .inl h
        · exact .inr (.inl (by simp))
        · exact .inr (.inr ⟨p, rfl, by simp⟩)
      · exact .inr (.inl (by simp [h]))
      · exact .inr (.inr ⟨p', hx, by simp [hmem]⟩)

/-! ## §3. The merge without the loop. -/

/-- The map after the entries `pre`, the first of theirs, as long as no copy displaced an entry of
ours. -/
structure Merged (copy : κ → κ) (ours : κ → Option ν) (theirs pre : List (κ × ν))
    (m : κ → Option ν) : Prop where
  kept : ∀ q e, ours q = some e → m q = some e
  copied : ∀ p t, (p, t) ∈ pre → Conflicting copy ours theirs p → m (copy p) = some t
  added : ∀ q t, (q, t) ∈ pre → ours q = none →
    (∀ p t', (p, t') ∈ pre → Conflicting copy ours theirs p → copy p ≠ q) → m q = some t
  free : ∀ q, ours q = none → (∀ t, (q, t) ∉ pre) →
    (∀ p t', (p, t') ∈ pre → Conflicting copy ours theirs p → copy p ≠ q) → m q = none

section

variable (hinj : Function.Injective copy) (hsorted : theirs.Pairwise (fun p q => p.1 < q.1))

omit [DecidableEq ν] in
include hsorted in
/-- Theirs has one value per key. -/
theorem value_unique {p : κ} {s t : ν} (hs : (p, s) ∈ theirs) (ht : (p, t) ∈ theirs) : s = t := by
  have h := SortedMap.lookup_of_mem hsorted hs
  rw [SortedMap.lookup_of_mem hsorted ht] at h
  exact (Option.some.inj h).symm

variable {pre rest : List (κ × ν)} {p : κ} {t : ν} (hsplit : theirs = pre ++ (p, t) :: rest)

omit [DecidableEq ν] in
include hsorted hsplit in
/-- A smaller key of theirs came before. -/
theorem mem_pre_of_lt {q : κ} {s : ν} (hq : (q, s) ∈ theirs) (hlt : q < p) : (q, s) ∈ pre := by
  rw [hsplit] at hq hsorted
  rcases List.mem_append.1 hq with hq | hq
  · exact hq
  · rcases List.mem_cons.1 hq with heq | hq
    · exact absurd hlt (by rw [(Prod.mk.inj heq).1]; exact lt_irrefl p)
    · exact absurd hlt
        (not_lt_of_gt ((List.pairwise_cons.1 (List.pairwise_append.1 hsorted).2.1).1 _ hq))

omit [DecidableEq ν] in
include hsorted hsplit in
theorem lt_of_mem_pre {q : κ} {s : ν} (hq : (q, s) ∈ pre) : q < p := by
  rw [hsplit] at hsorted
  exact (List.pairwise_append.1 hsorted).2.2 _ hq (p, t) (by simp)

omit [DecidableEq ν] in
include hsorted hsplit in
/-- The loop sees a divergence exactly at the conflicting keys. -/
theorem conflicting_iff {m : κ → Option ν} (hm : Merged copy ours theirs pre m) :
    Conflicting copy ours theirs p ↔ ∃ e, m p = some e ∧ e ≠ t := by
  have hpt : (p, t) ∈ theirs := by rw [hsplit]; simp
  constructor
  · intro hc
    cases hc with
    | ours ho ht hne =>
        obtain rfl := value_unique hsorted ht hpt
        exact ⟨_, hm.kept _ _ ho, hne⟩
    | @copy p₀ t₀ t' hp₀ ht₀ ht hlt ho hne =>
        obtain rfl := value_unique hsorted ht hpt
        exact ⟨_, hm.copied _ _ (mem_pre_of_lt hsorted hsplit ht₀ hlt) hp₀, hne⟩
  · rintro ⟨e, he, hne⟩
    cases ho : ours p with
    | some o =>
        rw [hm.kept _ _ ho] at he
        obtain rfl := Option.some.inj he
        exact .ours ho hpt hne
    | none =>
        -- the entry in its place can only be the copy of an earlier key
        by_contra hc
        have hfree := hm.free p ho (fun s hs => lt_irrefl p (lt_of_mem_pre hsorted hsplit hs))
        by_cases hcopy : ∃ p₀ t₀, (p₀, t₀) ∈ pre ∧ Conflicting copy ours theirs p₀ ∧ copy p₀ = p
        · obtain ⟨p₀, t₀, hmem, hp₀, rfl⟩ := hcopy
          rw [hm.copied _ _ hmem hp₀] at he
          obtain rfl := Option.some.inj he
          exact hc (.copy hp₀ (by rw [hsplit]; simp [hmem]) hpt (lt_of_mem_pre hsorted hsplit hmem)
            ho hne)
        · have hnone := hfree fun p₀ t₀ hmem hp₀ heq => hcopy ⟨p₀, t₀, hmem, hp₀, heq⟩
          rw [hnone] at he
          cases he

include hinj hsorted hsplit in
/-- **One step of the loop.** -/
theorem Merged.step {m : κ → Option ν} (hm : Merged copy ours theirs pre m)
    (hfit : Conflicting copy ours theirs p → ours (copy p) = none ∨ ours (copy p) = some t) :
    Merged copy ours theirs (pre ++ [(p, t)]) (step copy m (p, t)) := by
  have hiff := conflicting_iff hsorted hsplit hm
  -- keys ascend, so `p` was not merged before
  have hnew : ∀ s, (p, s) ∉ pre := fun s hs => lt_irrefl p (lt_of_mem_pre hsorted hsplit hs)
  have hsnoc : ∀ {x : κ × ν}, x ∈ pre ++ [(p, t)] ↔ x ∈ pre ∨ x = (p, t) := by simp
  rcases step_cases copy m p t with ⟨hnone, hs⟩ | ⟨hsame, hs⟩ | ⟨e, he, hne, hs⟩
  · -- a free key: no conflict, the entry is added
    have hnc : ¬Conflicting copy ours theirs p := fun hc => by
      obtain ⟨e, he, -⟩ := hiff.1 hc
      rw [hnone] at he
      cases he
    have hcp : ∀ q s, (q, s) ∈ pre → Conflicting copy ours theirs q → copy q ≠ p := fun q s hq hc h => by
      have := hm.copied q s hq hc
      rw [h, hnone] at this
      cases this
    rw [hs]
    refine ⟨fun q e hq => ?_, fun q s hq hc => ?_, fun q s hq ho hcopy => ?_, fun q ho hq hcopy => ?_⟩
    · have hne : q ≠ p := fun h => by rw [h] at hq; rw [hm.kept _ _ hq] at hnone; cases hnone
      rw [Function.update_of_ne hne, hm.kept _ _ hq]
    · rcases hsnoc.1 hq with hq | hq
      · rw [Function.update_of_ne (hcp q s hq hc), hm.copied q s hq hc]
      · obtain ⟨rfl, -⟩ := Prod.mk.inj hq
        exact absurd hc hnc
    · rcases hsnoc.1 hq with hq | hq
      · have hne : q ≠ p := fun h => hnew s (h ▸ hq)
        rw [Function.update_of_ne hne]
        exact hm.added q s hq ho fun p' t' h => hcopy p' t' (hsnoc.2 (.inl h))
      · obtain ⟨rfl, rfl⟩ := Prod.mk.inj hq
        exact Function.update_self ..
    · have hne : q ≠ p := fun h => hq t (by simp [h])
      rw [Function.update_of_ne hne]
      exact hm.free q ho (fun s h => hq s (hsnoc.2 (.inl h)))
        (fun p' t' h => hcopy p' t' (hsnoc.2 (.inl h)))
  · -- the same value is there: nothing changes
    have hnc : ¬Conflicting copy ours theirs p := fun hc => by
      obtain ⟨e, he, hne⟩ := hiff.1 hc
      rw [hsame] at he
      exact hne (Option.some.inj he).symm
    rw [hs]
    refine ⟨hm.kept, fun q s hq hc => ?_, fun q s hq ho hcopy => ?_, fun q ho hq hcopy => ?_⟩
    · rcases hsnoc.1 hq with hq | hq
      · exact hm.copied q s hq hc
      · obtain ⟨rfl, -⟩ := Prod.mk.inj hq
        exact absurd hc hnc
    · rcases hsnoc.1 hq with hq | hq
      · exact hm.added q s hq ho fun p' t' h => hcopy p' t' (hsnoc.2 (.inl h))
      · obtain ⟨rfl, rfl⟩ := Prod.mk.inj hq
        exact hsame
    · exact hm.free q ho (fun s h => hq s (hsnoc.2 (.inl h)))
        (fun p' t' h => hcopy p' t' (hsnoc.2 (.inl h)))
  · -- another value is there: the copy is written
    have hc : Conflicting copy ours theirs p := hiff.2 ⟨e, he, hne⟩
    rw [hs]
    refine ⟨fun q o hq => ?_, fun q s hq hc' => ?_, fun q s hq ho hcopy => ?_, fun q ho hq hcopy => ?_⟩
    · by_cases hqp : q = copy p
      · subst hqp
        rw [Function.update_self]
        -- the copy's key is free, or holds this very copy
        rcases hfit hc with h | h <;> rw [hq] at h
        · cases h
        · exact h.symm
      · rw [Function.update_of_ne hqp, hm.kept _ _ hq]
    · rcases hsnoc.1 hq with hq | hq
      · have hqp : copy q ≠ copy p := fun h => hnew s (hinj h ▸ hq)
        rw [Function.update_of_ne hqp, hm.copied q s hq hc']
      · obtain ⟨rfl, rfl⟩ := Prod.mk.inj hq
        exact Function.update_self ..
    · have hqp : q ≠ copy p := fun h => hcopy p t (by simp) hc h.symm
      rw [Function.update_of_ne hqp]
      rcases hsnoc.1 hq with hq | hq
      · exact hm.added q s hq ho fun p' t' h => hcopy p' t' (hsnoc.2 (.inl h))
      · -- `p` itself is ours or holds an earlier copy
        obtain ⟨rfl, rfl⟩ := Prod.mk.inj hq
        have hnone := hm.free q ho hnew fun p' t' h => hcopy p' t' (hsnoc.2 (.inl h))
        rw [hnone] at he
        cases he
    · have hqp : q ≠ copy p := fun h => hcopy p t (by simp) hc h.symm
      rw [Function.update_of_ne hqp]
      exact hm.free q ho (fun s h => hq s (hsnoc.2 (.inl h)))
        (fun p' t' h => hcopy p' t' (hsnoc.2 (.inl h)))

end

omit [DecidableEq ν] in
theorem Merged.init : Merged copy ours theirs [] ours where
  kept _ _ h := h
  copied _ _ h := absurd h (by simp)
  added _ _ h := absurd h (by simp)
  free _ h _ _ := h

section

variable (hinj : Function.Injective copy) (hsorted : theirs.Pairwise (fun p q => p.1 < q.1))

include hinj hsorted in
/-- The loop up to any point, while the copies fit: the induction is on the entries done. -/
theorem merged_prefix (pre : List (κ × ν)) : ∀ rest, theirs = pre ++ rest →
    (∀ p t, (p, t) ∈ pre → Conflicting copy ours theirs p →
      ours (copy p) = none ∨ ours (copy p) = some t) →
    Merged copy ours theirs pre (merge copy ours pre) := by
  induction pre using List.reverseRecOn with
  | nil => exact fun _ _ _ => Merged.init
  | append_singleton pre x ih =>
      intro rest hsplit hfit
      obtain ⟨p, t⟩ := x
      rw [List.append_assoc, List.singleton_append] at hsplit
      have hm := ih _ hsplit fun p t h => hfit p t (by simp [h])
      rw [merge, List.foldl_append]
      exact hm.step hinj hsorted hsplit (hfit p t (by simp))

include hinj hsorted in
/-- Without a fit, the first copy that lands on another value of ours displaces it for good. -/
theorem copies_land_free (hkeep : ∀ q e, ours q = some e → merge copy ours theirs q = some e) :
    ∀ p t, (p, t) ∈ theirs → Conflicting copy ours theirs p →
      ours (copy p) = none ∨ ours (copy p) = some t := by
  -- the induction goes along theirs: up to an entry, the loop is described by `merged_prefix`
  suffices h : ∀ pre rest, theirs = pre ++ rest → ∀ p t, (p, t) ∈ pre →
      Conflicting copy ours theirs p → ours (copy p) = none ∨ ours (copy p) = some t from
    h theirs [] (by simp)
  intro pre
  induction pre using List.reverseRecOn with
  | nil => exact fun _ _ _ _ h => absurd h (by simp)
  | append_singleton pre x ih =>
      intro rest hsplit q s hq hc
      obtain ⟨p, t⟩ := x
      rw [List.append_assoc, List.singleton_append] at hsplit
      have hpre := ih _ hsplit
      rcases List.mem_append.1 hq with hq | hq
      · exact hpre q s hq hc
      obtain ⟨rfl, rfl⟩ := Prod.mk.inj (List.mem_singleton.1 hq)
      have hm := merged_prefix hinj hsorted pre _ hsplit hpre
      obtain ⟨e, he, hne⟩ := (conflicting_iff hsorted hsplit hm).1 hc
      have hput : step copy (merge copy ours pre) (q, s) (copy q) = some s := by
        rw [step_diverges he hne, Function.update_self]
      have hrest : ∀ p t, (p, t) ∈ rest → copy p ≠ copy q := fun p t h heq => by
        rw [hsplit] at hsorted
        have hlt := (List.pairwise_cons.1 (List.pairwise_append.1 hsorted).2.1).1 _ h
        exact absurd hlt (by rw [show p = q from hinj heq]; exact lt_irrefl q)
      have hend : merge copy ours theirs (copy q) = some s := by
        rw [merge, hsplit, List.foldl_append, List.foldl_cons]
        exact foldl_keeps rest hput hrest
      cases ho : ours (copy q) with
      | none => exact .inl rfl
      | some o =>
          rw [hkeep _ _ ho] at hend
          exact .inr hend

include hinj hsorted in
/-- **Both sides survive exactly when the copies fit.** -/
theorem keepsBoth_iff :
    KeepsBoth copy ours theirs (merge copy ours theirs) ↔ CopiesFit copy ours theirs := by
  have hfinal : (∀ p t, (p, t) ∈ theirs → Conflicting copy ours theirs p →
      ours (copy p) = none ∨ ours (copy p) = some t) →
      Merged copy ours theirs theirs (merge copy ours theirs) :=
    merged_prefix hinj hsorted theirs [] (by simp)
  -- a key that stands where a later copy goes is not itself in conflict
  have hcalm : ∀ p t s, (p, t) ∈ theirs → (copy p, s) ∈ theirs → copy p < p →
      ours (copy p) = none → ¬Conflicting copy ours theirs (copy p) := by
    intro p t s _ hs hlt ho hc
    generalize hq : copy p = q at hc
    cases hc with
    | ours ho' => rw [← hq, ho] at ho'; cases ho'
    | copy _ _ _ hlt' =>
        obtain rfl := hinj hq
        exact lt_asymm hlt hlt'
  -- where the copy of such a key would be, only ours or theirs can stand
  have hcopycopy : ∀ q s, ¬Conflicting copy ours theirs q → (q, s) ∈ theirs →
      Merged copy ours theirs theirs (merge copy ours theirs) →
      (merge copy ours theirs (copy q) = some s ↔
        ours (copy q) = some s ∨ (ours (copy q) = none ∧ (copy q, s) ∈ theirs)) := by
    intro q s hnc _ hm
    have hno : ∀ p t, (p, t) ∈ theirs → Conflicting copy ours theirs p → copy p ≠ copy q :=
      fun p _ _ hp heq => hnc (hinj heq ▸ hp)
    cases ho : ours (copy q) with
    | some o => rw [hm.kept _ _ ho]; simp
    | none =>
        by_cases hmem : ∃ s', (copy q, s') ∈ theirs
        · obtain ⟨s', hs'⟩ := hmem
          rw [hm.added _ _ hs' ho hno]
          constructor
          · rintro h
            obtain rfl := Option.some.inj h
            exact .inr ⟨rfl, hs'⟩
          · rintro (h | ⟨-, h⟩)
            · cases h
            · rw [value_unique hsorted h hs']
        · rw [hm.free _ ho (fun s' h => hmem ⟨s', h⟩) hno]
          constructor
          · exact fun h => by cases h
          · rintro (h | ⟨-, h⟩)
            · cases h
            · exact absurd ⟨s, h⟩ hmem
  constructor
  · intro hk p t hpt hc
    have hland := copies_land_free hinj hsorted hk.keepsOurs
    have hm := hfinal hland
    refine ⟨hland p t hpt hc, fun s hs hlt ho => ?_⟩
    rcases hk.keepsTheirs _ _ hs with h | h
    · rw [hm.copied p t hpt hc] at h
      exact .inl (Option.some.inj h).symm
    · exact .inr ((hcopycopy _ s (hcalm p t s hpt hs hlt ho) hs hm).1 h)
  · intro hfit
    have hm := hfinal fun p t hpt hc => (hfit p t hpt hc).1
    refine ⟨hm.kept, fun q s hs => ?_, fun q e h => foldl_only theirs h⟩
    by_cases hc : Conflicting copy ours theirs q
    · exact .inr (hm.copied q s hs hc)
    cases ho : ours q with
    | some o =>
        -- not in conflict with ours: the same value
        by_cases hos : o = s
        · exact .inl (by rw [hm.kept q o ho, hos])
        · exact absurd (.ours ho hs hos) hc
    | none =>
        by_cases hcopy : ∃ p t, (p, t) ∈ theirs ∧ Conflicting copy ours theirs p ∧ copy p = q
        · obtain ⟨p, t, hpt, hp, rfl⟩ := hcopy
          have hput := hm.copied p t hpt hp
          rcases lt_trichotomy p (copy p) with hlt | heq | hgt
          · -- the copy came first: it holds the same value
            by_cases hts : t = s
            · exact .inl (by rw [hput, hts])
            · exact absurd (.copy hp hpt hs hlt ho hts) hc
          · exact absurd (heq ▸ hp) hc
          · rcases (hfit p t hpt hp).2 s hs hgt ho with rfl | h
            · exact .inl hput
            · exact .inr ((hcopycopy _ s hc hs hm).2 h)
        · exact .inl (hm.added q s hs ho fun p t hpt hp heq => hcopy ⟨p, t, hpt, hp, heq⟩)

end

/-! ## §4. The keys that get a copy, wherever the copies land. -/

variable (copy ours theirs) in
/-- What the merge finds at a key of theirs when it comes there: the copy of an earlier key, when that
one got a copy and its copy goes here, and else what ours has. -/
inductive Found : κ → Option ν → Prop where
  | ours {p : κ} (hno : ∀ q s, (q, s) ∈ theirs → q < p → copy q ≠ p) : Found p (ours p)
  | passed {q : κ} {s : ν} {v : Option ν} (hq : Found q v) (hs : (q, s) ∈ theirs)
      (hlt : q < copy q) (hv : v = none ∨ v = some s) : Found (copy q) (ours (copy q))
  | copied {q : κ} {s e : ν} (hq : Found q (some e)) (hs : (q, s) ∈ theirs) (hlt : q < copy q)
      (hne : e ≠ s) : Found (copy q) (some s)

variable (copy ours theirs) in
/-- The key gets a copy: another value than theirs stands there. -/
def GetsCopy (p : κ) : Prop :=
  ∃ e t, Found copy ours theirs p (some e) ∧ (p, t) ∈ theirs ∧ e ≠ t

/-- Entries that neither have the key nor are copied to it leave it alone. -/
theorem foldl_untouched {q : κ} (l : List (κ × ν)) (m : κ → Option ν)
    (h : ∀ p t, (p, t) ∈ l → p ≠ q ∧ copy p ≠ q) : l.foldl (step copy) m q = m q := by
  induction l generalizing m with
  | nil => rfl
  | cons x l ih =>
      obtain ⟨p, t⟩ := x
      obtain ⟨hp, hc⟩ := h p t List.mem_cons_self
      rw [List.foldl_cons, ih _ fun p' t' h' => h p' t' (List.mem_cons_of_mem _ h')]
      rcases step_cases copy m p t with ⟨-, hs⟩ | ⟨-, hs⟩ | ⟨e, -, -, hs⟩
      · rw [hs, Function.update_of_ne hp.symm]
      · rw [hs]
      · rw [hs, Function.update_of_ne hc.symm]

section

variable (hinj : Function.Injective copy) (hsorted : theirs.Pairwise (fun p q => p.1 < q.1))
  {pre rest : List (κ × ν)} {p : κ} {t : ν} (hsplit : theirs = pre ++ (p, t) :: rest)

include hsorted hsplit in
/-- A key that no earlier copy goes to is found as ours has it. -/
theorem merge_at_ours (hno : ∀ q s, (q, s) ∈ theirs → q < p → copy q ≠ p) :
    merge copy ours pre p = ours p := by
  refine foldl_untouched pre ours fun q s hq => ?_
  have hlt : q < p := lt_of_mem_pre hsorted hsplit hq
  exact ⟨ne_of_lt hlt, hno q s (by rw [hsplit]; exact List.mem_append_left _ hq) hlt⟩

include hinj hsorted hsplit in
/-- A key that the copy of an earlier one goes to: the earlier one decides what is found there. -/
theorem merge_at_copy {q : κ} {s : ν} (hs : (q, s) ∈ theirs) (hlt : q < p) (hcopy : copy q = p) :
    ∃ pre₁ rest₁, theirs = pre₁ ++ (q, s) :: rest₁ ∧ pre₁.length < pre.length ∧
      merge copy ours pre p = if merge copy ours pre₁ q = none ∨ merge copy ours pre₁ q = some s
        then ours p else some s := by
  have hmem : (q, s) ∈ pre := mem_pre_of_lt hsorted hsplit hs hlt
  obtain ⟨pre₁, pre₂, rfl⟩ := List.append_of_mem hmem
  have hsplit₁ : theirs = pre₁ ++ (q, s) :: (pre₂ ++ (p, t) :: rest) := by
    rw [hsplit, List.append_assoc, List.cons_append]
  -- before `q` nothing touches `p`: keys come in order, and no other key copies there
  have hfirst : merge copy ours pre₁ p = ours p := by
    refine foldl_untouched pre₁ ours fun q' s' hq' => ?_
    have hlt' : q' < q := lt_of_mem_pre hsorted hsplit₁ hq'
    refine ⟨ne_of_lt (hlt'.trans hlt), fun heq => ?_⟩
    exact ne_of_lt hlt' (hinj (heq.trans hcopy.symm))
  -- nor does anything between `q` and `p`
  have hlast : ∀ m, pre₂.foldl (step copy) m p = m p := by
    intro m
    refine foldl_untouched pre₂ m fun q' s' hq' => ?_
    have hlt' : q' < p :=
      lt_of_mem_pre hsorted hsplit (List.mem_append_right _ (List.mem_cons_of_mem _ hq'))
    refine ⟨ne_of_lt hlt', fun heq => ?_⟩
    obtain rfl : q' = q := hinj (heq.trans hcopy.symm)
    rw [hsplit₁] at hsorted
    have hrest := (List.pairwise_append.1 hsorted).2.1
    exact lt_irrefl q' ((List.pairwise_cons.1 hrest).1 _ (List.mem_append_left _ hq'))
  refine ⟨pre₁, _, hsplit₁, by rw [List.length_append, List.length_cons]; omega, ?_⟩
  have hmerge : merge copy ours (pre₁ ++ (q, s) :: pre₂) p =
      step copy (merge copy ours pre₁) (q, s) p := by
    rw [merge, List.foldl_append, List.foldl_cons, hlast]
    rfl
  rw [hmerge]
  -- so the step at `q` decides
  rcases step_cases copy (merge copy ours pre₁) q s with ⟨h, hs⟩ | ⟨h, hs⟩ | ⟨e, h, hne, hs⟩
  · rw [if_pos (.inl h), hs, Function.update_of_ne (ne_of_gt hlt), hfirst]
  · rw [if_pos (.inr h), hs, hfirst]
  · rw [if_neg (by simp [h, hne]), hs, hcopy, Function.update_self]

include hinj hsorted hsplit in
/-- **The merge finds what `Found` says:** the induction goes along the earlier keys whose copies go
here, one after the other. -/
theorem found_iff {v : Option ν} : Found copy ours theirs p v ↔ v = merge copy ours pre p := by
  constructor
  · intro hfound
    induction hfound generalizing pre rest t with
    | ours hno => exact (merge_at_ours hsorted hsplit hno).symm
    | passed hq hs hlt hv ih =>
        obtain ⟨pre₁, rest₁, hsplit₁, -, hmerge⟩ := merge_at_copy hinj hsorted hsplit hs hlt rfl
        obtain rfl := ih hsplit₁
        rw [hmerge, if_pos hv]
    | copied hq hs hlt hne ih =>
        obtain ⟨pre₁, rest₁, hsplit₁, -, hmerge⟩ := merge_at_copy hinj hsorted hsplit hs hlt rfl
        rw [hmerge, ← ih hsplit₁, if_neg (by simp [hne])]
  · rintro rfl
    -- the entries before the key get fewer with each copy followed back
    induction hlen : pre.length using Nat.strong_induction_on generalizing pre rest p t with
    | _ n ih =>
        by_cases hex : ∃ q s, (q, s) ∈ theirs ∧ q < p ∧ copy q = p
        · obtain ⟨q, s, hs, hlt, rfl⟩ := hex
          obtain ⟨pre₁, rest₁, hsplit₁, hshort, hmerge⟩ :=
            merge_at_copy hinj hsorted hsplit hs hlt rfl
          have hq := ih pre₁.length (by omega) hsplit₁ rfl
          rw [hmerge]
          split
          next hv => exact .passed hq hs hlt hv
          next hv =>
            cases he : merge copy ours pre₁ q with
            | none => exact absurd (.inl he) hv
            | some e =>
                rw [he] at hq
                exact .copied hq hs hlt fun h => hv (.inr (by rw [he, h]))
        · have hno : ∀ q s, (q, s) ∈ theirs → q < p → copy q ≠ p :=
            fun q s hs hlt heq => hex ⟨q, s, hs, hlt, heq⟩
          rw [merge_at_ours hsorted hsplit hno]
          exact .ours hno

include hinj hsorted hsplit in
/-- **The step at a key writes a copy** exactly when the key gets one. -/
theorem getsCopy_iff : GetsCopy copy ours theirs p ↔ ∃ e, merge copy ours pre p = some e ∧ e ≠ t := by
  have ht : (p, t) ∈ theirs := by
    rw [hsplit]
    exact List.mem_append_right _ List.mem_cons_self
  constructor
  · rintro ⟨e, t', hfound, ht', hne⟩
    obtain rfl := value_unique hsorted ht' ht
    exact ⟨e, ((found_iff hinj hsorted hsplit).1 hfound).symm, hne⟩
  · rintro ⟨e, he, hne⟩
    exact ⟨e, t, (found_iff hinj hsorted hsplit).2 he.symm, ht, hne⟩

end

omit [DecidableEq ν] in
/-- Ours is what is found wherever no copy comes first. -/
theorem Found.eq_ours {p : κ} {v : Option ν} (h : Found copy ours theirs p v)
    (hno : ∀ q, GetsCopy copy ours theirs q → copy q ≠ p) : v = ours p := by
  cases h with
  | ours => rfl
  | passed => rfl
  | copied hq hs hlt hne => exact absurd rfl (hno _ ⟨_, _, hq, hs, hne⟩)

end ConflictMerge

/-
  Soal.Placement — the order in which peers are tried.

  A peer's score is a sum of five terms: preferred by policy, last seen, alive, and whether it has
  HEAD.  Preference outweighs all the others together, and being alive outweighs how long ago the peer
  was seen and what it has.
-/
import Mathlib.Data.List.Permutation
import Soal.Replication
import Soal.SampleVault
import Soal.Vault.Mark

namespace Soal

open FileProg

/-! ## §1. Scores. -/

/-- Ranked peer for pull/push placement. -/
structure PeerScore where
  peer : String
  score : Int
  preferred : Bool
  lastSeenSecsAgo : Option UInt64
  hasHead : Bool
  alive : Option Bool
  deriving DecidableEq

/-- `peer_id_key` -/
def peerIdKey (peer : String) : String := trimId peer

/-- `u as i64` -/
def asI64 (u : UInt64) : Int :=
  if u.toNat < 2 ^ 63 then (u.toNat : Int) else (u.toNat : Int) - 2 ^ 64

/-- `str::contains` -/
def containsText (s t : String) : Bool := decide (t.toList <:+: s.toList)

/-- A peer is preferred when some `prefer_nodes` entry is its text, its key, or a part of its
text. -/
def VaultPolicy.prefers (policy : VaultPolicy) (peer : String) : Bool :=
  policy.preferNodes.any (fun p => Text.eqIgnoreAsciiCase peer p ||
    Text.eqIgnoreAsciiCase (peerIdKey peer) p || containsText peer p)

/-- What is known of a peer: under its text, or else under its key. -/
def lookedUp {α : Type} (m : SortedMap String α) (peer : String) : Option α :=
  (m.get? peer).orElse (fun _ => m.get? (peerIdKey peer))

/-- Fresher is better: 0 s is +100, one hour is 0, 7200 s and older is -100; never seen is -20. -/
def seenScore : Option UInt64 → Int
  | some ago => 100 - min ((asI64 ago).tdiv 36) 200
  | none => -20

def aliveScore : Option Bool → Int
  | some true => 200
  | some false => -300
  | none => 0

/-- `u64::saturating_sub` -/
def saturatingSub (a b : UInt64) : UInt64 := if b ≤ a then a - b else 0

/-- What a ranking looks at, apart from the peer. -/
structure Outlook where
  policy : VaultPolicy
  peerLastSeen : SortedMap String UInt64
  peerAlive : SortedMap String Bool
  now : UInt64
  /-- the have-lists -/
  peerHave : PeerHave
  /-- HEAD in hex, empty when there is none -/
  headHex : String

/-- How long ago a peer was seen. -/
def Outlook.ago (o : Outlook) (peer : String) : Option UInt64 :=
  (lookedUp o.peerLastSeen peer).map (saturatingSub o.now)

/-- The peer announced HEAD: its key is looked up first here. -/
def Outlook.hasHead (o : Outlook) (peer : String) : Bool :=
  o.headHex != "" && match (o.peerHave.peers.get? (peerIdKey peer)).orElse
      (fun _ => o.peerHave.peers.get? peer) with
    | some s => decide (o.headHex ∈ s)
    | none => false

/-- The score of one peer. -/
def Outlook.score (o : Outlook) (peer : String) : PeerScore :=
  let preferred := o.policy.prefers peer
  let lastSeenSecsAgo := o.ago peer
  let alive := lookedUp o.peerAlive peer
  let hasHead := o.hasHead peer
  { peer, preferred, lastSeenSecsAgo, hasHead, alive
    score := (if preferred then 1000 else 0) + seenScore lastSeenSecsAgo + aliveScore alive +
      (if hasHead then 50 else 0) }

/-- Higher scores first, then by text. -/
def PeerScore.before (a b : PeerScore) : Bool :=
  decide (b.score < a.score) || (decide (a.score = b.score) && decide (a.peer ≤ b.peer))

section Model

variable [Crates]

/-- HEAD in hex, empty when it is missing or unreadable. -/
def headHexOrEmpty : Reads String := do
  let h ← okOrNone head
  return (h.join.map ContentHash.toHex).getD ""

/-- Score peers for a vault given policy, have-lists and health; best first. -/
def rankPeers (policy : VaultPolicy) (peers : List String) (peerLastSeen : SortedMap String UInt64)
    (peerAlive : SortedMap String Bool) (now : UInt64) : Reads (List PeerScore) := do
  let peerHave ← loadHave
  let headHex ← headHexOrEmpty
  let o : Outlook := ⟨policy, peerLastSeen, peerAlive, now, peerHave, headHex⟩
  return (peers.map o.score).mergeSort PeerScore.before

/-- Order a peer list for failover using placement scores. -/
def orderedPeersForSync (policy : VaultPolicy) (peers : List String)
    (peerLastSeen : SortedMap String UInt64) (peerAlive : SortedMap String Bool) :
    Action (List String) := do
  let now ← nowSecs
  let ranked ← rankPeers policy peers peerLastSeen peerAlive now
  return ranked.map (·.peer)

end Model

/-! ## §2. What the terms weigh. -/

section Weights

variable {o : Outlook} {p q : String}

theorem asI64_nonneg {u : UInt64} (h : u.toNat < 2 ^ 63) : asI64 u = u.toNat := if_pos h

theorem saturatingSub_toNat (a b : UInt64) : (saturatingSub a b).toNat = a.toNat - b.toNat := by
  unfold saturatingSub
  split
  next h => exact UInt64.toNat_sub_of_le _ _ h
  next h =>
    have hlt : a.toNat < b.toNat := UInt64.lt_iff_toNat_lt.1 (UInt64.not_le.1 h)
    rw [Nat.sub_eq_zero_of_le hlt.le]
    rfl

/-- Since `now` is below 2^63, ages are no negative numbers. -/
theorem Outlook.ago_lt (hnow : o.now.toNat < 2 ^ 63) {ago : UInt64} (h : o.ago p = some ago) :
    ago.toNat < 2 ^ 63 := by
  obtain ⟨t, -, rfl⟩ := Option.map_eq_some_iff.1 h
  rw [saturatingSub_toNat]
  omega

theorem seenScore_some {ago : UInt64} (h : ago.toNat < 2 ^ 63) :
    seenScore (some ago) = 100 - min (((ago.toNat / 36 : Nat)) : Int) 200 := by
  show 100 - min ((asI64 ago).tdiv 36) 200 = _
  rw [asI64_nonneg h]
  rfl

/-- Being seen counts for at most 100, either way. -/
theorem Outlook.seen_bounds (hnow : o.now.toNat < 2 ^ 63) (p : String) :
    -100 ≤ seenScore (o.ago p) ∧ seenScore (o.ago p) ≤ 100 := by
  cases h : o.ago p with
  | none => exact ⟨by decide, by decide⟩
  | some ago =>
    rw [seenScore_some (Outlook.ago_lt hnow h)]
    omega

theorem aliveScore_bounds (a : Option Bool) : -300 ≤ aliveScore a ∧ aliveScore a ≤ 200 := by
  rcases a with - | - | - <;> decide

/-- A peer seen later has no lower a score for it. -/
theorem seenScore_mono (hnow : o.now.toNat < 2 ^ 63) {t u : UInt64}
    (hp : lookedUp o.peerLastSeen p = some t) (hq : lookedUp o.peerLastSeen q = some u) (htu : u ≤ t) :
    seenScore (o.ago q) ≤ seenScore (o.ago p) := by
  have hp' : o.ago p = some (saturatingSub o.now t) := by rw [Outlook.ago, hp]; rfl
  have hq' : o.ago q = some (saturatingSub o.now u) := by rw [Outlook.ago, hq]; rfl
  have htu : u.toNat ≤ t.toNat := UInt64.le_iff_toNat_le.1 htu
  have hage : (o.now.toNat - t.toNat) / 36 ≤ (o.now.toNat - u.toNat) / 36 :=
    Nat.div_le_div_right (by omega)
  rw [hp', hq', seenScore_some (Outlook.ago_lt hnow hp'), seenScore_some (Outlook.ago_lt hnow hq'),
    saturatingSub_toNat, saturatingSub_toNat]
  omega

/-- **Preference outweighs everything else.** -/
theorem Outlook.score_preferred (hnow : o.now.toNat < 2 ^ 63) (hp : o.policy.prefers p = true)
    (hq : o.policy.prefers q = false) : (o.score q).score < (o.score p).score := by
  have hp₁ := Outlook.seen_bounds hnow p
  have hq₁ := Outlook.seen_bounds hnow q
  have hp₂ := aliveScore_bounds (lookedUp o.peerAlive p)
  have hq₂ := aliveScore_bounds (lookedUp o.peerAlive q)
  unfold Outlook.score
  rw [hp, hq]
  simp only [if_true, Bool.false_eq_true, if_false]
  split <;> split <;> omega

/-- **Among equals in preference, being alive outweighs the rest.** -/
theorem Outlook.score_alive (hnow : o.now.toNat < 2 ^ 63)
    (hpref : o.policy.prefers p = o.policy.prefers q) (hp : lookedUp o.peerAlive p = some true)
    (hq : lookedUp o.peerAlive q = some false) : (o.score q).score < (o.score p).score := by
  have hp₁ := Outlook.seen_bounds hnow p
  have hq₁ := Outlook.seen_bounds hnow q
  unfold Outlook.score
  rw [hp, hq, hpref]
  simp only [aliveScore]
  split <;> split <;> split <;> omega

end Weights

/-! ## §3. The order. -/

theorem PeerScore.before_iff {a b : PeerScore} :
    a.before b = true ↔ b.score < a.score ∨ (a.score = b.score ∧ a.peer ≤ b.peer) := by
  simp [PeerScore.before]

theorem PeerScore.before_trans (a b c : PeerScore) (hab : a.before b = true)
    (hbc : b.before c = true) : a.before c = true := by
  rw [PeerScore.before_iff] at hab hbc ⊢
  rcases hab with hab | ⟨hab, hab'⟩ <;> rcases hbc with hbc | ⟨hbc, hbc'⟩
  · exact .inl (by omega)
  · exact .inl (by omega)
  · exact .inl (by omega)
  · exact .inr ⟨by omega, le_trans hab' hbc'⟩

theorem PeerScore.before_total (a b : PeerScore) : (a.before b || b.before a) = true := by
  rw [Bool.or_eq_true, PeerScore.before_iff, PeerScore.before_iff]
  rcases lt_trichotomy a.score b.score with h | h | h
  · exact .inr (.inl h)
  · rcases le_total a.peer b.peer with h' | h'
    · exact .inl (.inr ⟨h, h'⟩)
    · exact .inr (.inr ⟨h.symm, h'⟩)
  · exact .inl (.inl h)

section Ranked

variable {o : Outlook} {peers peers' : List String}

/-- The ranking of a list of peers. -/
def Outlook.ranked (o : Outlook) (peers : List String) : List PeerScore :=
  (peers.map o.score).mergeSort PeerScore.before

theorem Outlook.ranked_perm : (o.ranked peers).Perm (peers.map o.score) := List.mergeSort_perm _ _

theorem Outlook.ranked_sorted : (o.ranked peers).Pairwise (fun a b => a.before b = true) :=
  List.pairwise_mergeSort PeerScore.before_trans PeerScore.before_total _

theorem Outlook.mem_ranked {a : PeerScore} (h : a ∈ o.ranked peers) : a = o.score a.peer := by
  obtain ⟨p, -, rfl⟩ := List.mem_map.1 (Outlook.ranked_perm.mem_iff.1 h)
  rfl

/-- The order does not depend on the order of the input: equal places mean equal peers. -/
theorem Outlook.ranked_congr (h : peers.Perm peers') : o.ranked peers = o.ranked peers' := by
  have hperm : (o.ranked peers).Perm (o.ranked peers') :=
    (Outlook.ranked_perm.trans (h.map _)).trans Outlook.ranked_perm.symm
  refine hperm.eq_of_pairwise ?_ Outlook.ranked_sorted Outlook.ranked_sorted
  · intro a b ha hb hab hba
    rw [PeerScore.before_iff] at hab hba
    have hpeer : a.peer = b.peer := by
      rcases hab with hab | ⟨heq, hab⟩ <;> rcases hba with hba | ⟨heq', hba⟩
      · omega
      · omega
      · omega
      · exact le_antisymm hab hba
    rw [Outlook.mem_ranked ha, Outlook.mem_ranked hb, hpeer]

/-- Whoever must score higher stands in front. -/
theorem Outlook.ranked_before {R : String → String → Prop}
    (h : ∀ p q, R p q → (o.score q).score < (o.score p).score) :
    (o.ranked peers).Pairwise (fun a b => ¬R b.peer a.peer) := by
  have hmem : ∀ {a}, a ∈ o.ranked peers → a = o.score a.peer := Outlook.mem_ranked
  refine (List.Pairwise.and_mem.1 Outlook.ranked_sorted).imp ?_
  rintro a b ⟨ha, hb, hab⟩ hR
  have hlt := h _ _ hR
  rw [← hmem ha, ← hmem hb] at hlt
  rcases PeerScore.before_iff.1 hab with hab | ⟨hab, -⟩ <;> omega

end Ranked

section Reading

variable [Crates] {fs : VaultFs}

omit [Crates] in
theorem eval_okOrNone {α : Type} {x : Reads α} (h : Orderly (ReadM.eval fs x)) :
    ReadM.eval fs (okOrNone x) = .ok (ReadM.eval fs x).toOption := by
  rw [okOrNone, ReadM.eval_handle]
  rcases hx : ReadM.eval fs x with (e | _) | a
  · rfl
  · exact absurd hx h
  · rfl

/-- A ranking always comes about, from what the vault's files say. -/
theorem eval_rankPeers (fs : VaultFs) : ∃ (peerHave : PeerHave) (headHex : String),
    ∀ policy peers peerLastSeen peerAlive now,
      ReadM.eval fs (rankPeers policy peers peerLastSeen peerAlive now) =
        .ok (Outlook.ranked ⟨policy, peerLastSeen, peerAlive, now, peerHave, headHex⟩ peers) := by
  obtain ⟨peerHave, hhave⟩ : ∃ peerHave, ReadM.eval fs loadHave = .ok peerHave := by
    unfold loadHave
    rw [ReadM.eval_bind, eval_okOrNone (orderly_readToString _), ok_bind]
    cases (ReadM.eval fs (readToString havePath)).toOption <;> exact ⟨_, rfl⟩
  have hhead : ∃ headHex, ReadM.eval fs headHexOrEmpty = .ok headHex := by
    unfold headHexOrEmpty
    rw [ReadM.eval_bind, eval_okOrNone orderly_head, ok_bind]
    exact ⟨_, rfl⟩
  obtain ⟨headHex, hhead⟩ := hhead
  refine ⟨peerHave, headHex, fun policy peers peerLastSeen peerAlive now => ?_⟩
  unfold rankPeers
  rw [ReadM.eval_bind, hhave, ok_bind, ReadM.eval_bind, hhead, ok_bind]
  rfl

/-- **Placement respects policy.**  The ranking is a permutation of the peers; preferred peers stand
in front of the others, and among equals in preference the peers last probed alive in front of those
last probed dead; all else equal a peer seen later scores no lower; and the order of the input makes
no difference. -/
theorem rankPeers_respects (fs : VaultFs) (policy : VaultPolicy) (peers : List String)
    (peerLastSeen : SortedMap String UInt64) (peerAlive : SortedMap String Bool) (now : UInt64)
    (hnow : now.toNat < 2 ^ 63) : ∃ ranked : List PeerScore,
    ReadM.eval fs (rankPeers policy peers peerLastSeen peerAlive now) = .ok ranked ∧
    (ranked.map (·.peer)).Perm peers ∧
    ranked.Pairwise (fun a b =>
      ¬(policy.prefers a.peer = false ∧ policy.prefers b.peer = true)) ∧
    ranked.Pairwise (fun a b => policy.prefers a.peer = policy.prefers b.peer →
      ¬(lookedUp peerAlive a.peer = some false ∧ lookedUp peerAlive b.peer = some true)) ∧
    (∀ a ∈ ranked, ∀ b ∈ ranked, a.preferred = b.preferred → a.alive = b.alive →
      a.hasHead = b.hasHead → ∀ t u, lookedUp peerLastSeen a.peer = some t →
        lookedUp peerLastSeen b.peer = some u → u ≤ t → b.score ≤ a.score) ∧
    ∀ peers', peers'.Perm peers →
      ReadM.eval fs (rankPeers policy peers' peerLastSeen peerAlive now) = .ok ranked := by
  obtain ⟨peerHave, headHex, heval⟩ := eval_rankPeers fs
  let o : Outlook := ⟨policy, peerLastSeen, peerAlive, now, peerHave, headHex⟩
  refine ⟨o.ranked peers, heval _ _ _ _ _, ?_, ?_, ?_, ?_, fun peers' h => ?_⟩
  · have hperm : ((o.ranked peers).map PeerScore.peer).Perm
        ((peers.map o.score).map PeerScore.peer) := Outlook.ranked_perm.map _
    rw [List.map_map] at hperm
    refine hperm.trans (List.Perm.of_eq ?_)
    exact List.map_id' peers
  · refine (o.ranked_before (R := fun p q => policy.prefers p = true ∧ policy.prefers q = false)
      fun p q hR => Outlook.score_preferred hnow hR.1 hR.2).imp ?_
    exact fun hn h => hn ⟨h.2, h.1⟩
  · refine (o.ranked_before (R := fun p q => policy.prefers p = policy.prefers q ∧
      lookedUp peerAlive p = some true ∧ lookedUp peerAlive q = some false)
      fun p q hR => Outlook.score_alive hnow hR.1 hR.2.1 hR.2.2).imp ?_
    exact fun hn hpref h => hn ⟨hpref.symm, h.2, h.1⟩
  · intro a ha b hb hpref halive hhead t u ht hu htu
    have hseen := seenScore_mono (o := o) hnow ht hu htu
    rw [Outlook.mem_ranked ha, Outlook.mem_ranked hb] at hpref halive hhead ⊢
    simp only [Outlook.score] at hpref halive hhead ⊢
    rw [hpref, halive, hhead]
    omega
  · rw [heval]
    exact congrArg Except.ok (Outlook.ranked_congr h)

end Reading

section TwoPeers

/-- Prefers `b`. -/
def policyB : VaultPolicy := { VaultPolicy.default with preferNodes := ["b"] }

attribute [local instance] sample

/-- Two unknown peers, the second one preferred: the ranking puts it in front. -/
theorem two_peers_ranked : ∃ ranked : List PeerScore,
    ReadM.eval (∅ : VaultFs) (rankPeers policyB ["a", "b"] .empty .empty 0) = .ok ranked ∧
    ranked.map (·.peer) = ["b", "a"] := by
  obtain ⟨ranked, heval, hperm, hpref, -⟩ :=
    rankPeers_respects (∅ : VaultFs) policyB ["a", "b"] .empty .empty 0 (by decide)
  refine ⟨ranked, heval, ?_⟩
  rcases List.perm_pair.1 hperm with h | h
  · exfalso
    obtain ⟨a, rest, rfl, ha, hrest⟩ := List.map_eq_cons_iff.1 h
    obtain ⟨b, rest, rfl, hb, -⟩ := List.map_eq_cons_iff.1 hrest
    have hab := List.rel_of_pairwise_cons hpref List.mem_cons_self
    rw [ha, hb] at hab
    exact hab ⟨by decide, by decide⟩
  · exact h

end TwoPeers

end Soal

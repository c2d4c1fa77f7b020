/-
  Soal.Network.Members — who is a member after a run of additions and removals.

  Ids stand for the same node when they agree up to letter case and surrounding white space.  The
  last call for a node decides, as long as each removal spells the id without white space and leaves
  another member: an empty list trusts everyone.
-/
import Soal.Network.Replay
import Soal.SampleVault

namespace Soal

open FileProg

/-! ## §1. Spellings of an id. -/

/-- An id in lower case. -/
def foldId (s : String) : List Char := s.toList.map Char.toLower

/-- The node an id stands for: trimmed, in lower case. -/
def idKey (s : String) : List Char := foldId (trimId s)

/-- Ids of the same node. -/
def SameId (s t : String) : Prop := idKey s = idKey t

instance decidableSameId (s t : String) : Decidable (SameId s t) :=
  inferInstanceAs (Decidable (idKey s = idKey t))

theorem eqIgnoreAsciiCase_fold {s t : String} :
    Text.eqIgnoreAsciiCase s t = true ↔ foldId s = foldId t := Text.eqIgnoreAsciiCase_iff

theorem foldId_trimId (s : String) : foldId (trimId s) = Text.trim (foldId s) := by
  unfold foldId trimId
  rw [String.toList_ofList, Text.trim_map_toLower]

/-- A spelling that folds to the key of a node is a spelling of that node. -/
theorem idKey_of_fold {s t : String} (h : foldId s = idKey t) : idKey s = idKey t := by
  unfold idKey at h ⊢
  rw [foldId_trimId, h, foldId_trimId, Text.trim_trim]

/-- An id without surrounding white space is its own key, up to case. -/
theorem foldId_eq_idKey_iff {s : String} : foldId s = idKey s ↔ trimId s = s := by
  constructor
  · intro h
    have hlen := congrArg List.length h
    unfold idKey foldId trimId at hlen
    rw [String.toList_ofList, List.length_map, List.length_map] at hlen
    have hsame := (Text.trim_sublist s.toList).eq_of_length hlen.symm
    rw [trimId, hsame, String.ofList_toList]
  · intro h
    rw [idKey, h]

/-! ## §2. Lists of members. -/

section

variable [Crates] {v v' : Vault} {env : Outside} {w : VaultWorld} {id : String}

/-- The members contain a node. -/
def Vault.Lists (v : Vault) (key : List Char) : Prop := ∃ m ∈ v.config.members, foldId m = key

omit [Crates] in
theorem Vault.isMember_iff {x : String} : v.isMember x = true ↔
    v.config.members = [] ∨ v.Lists (foldId x) := by
  unfold isMember
  rw [Bool.or_eq_true, List.isEmpty_iff, List.any_eq_true]
  refine or_congr Iff.rfl (exists_congr fun m => and_congr Iff.rfl ?_)
  rw [Text.eqIgnoreAsciiCase_lowercase]
  exact eqIgnoreAsciiCase_fold

/-- A successful addition: the id is trimmed and appended, unless it is there. -/
theorem addMember_members (h : (run env (v.addMember id) w).1 = .ok v') :
    (v'.config.members = v.config.members ∧ v.Lists (idKey id)) ∨
      v'.config.members = v.config.members ++ [trimId id] := by
  unfold Vault.addMember at h
  dsimp only at h
  split at h
  · cases h
  · split at h
    next =>
      obtain ⟨c, hc, rfl, -⟩ := (wp_bumpAndSignConfig _).post v' h
      exact .inr hc.members
    next hthere =>
      cases h
      have hany : v.config.members.any (fun m => Text.eqIgnoreAsciiCase m (trimId id)) = true := by
        simpa using hthere
      obtain ⟨m, hm, heq⟩ := List.any_eq_true.1 hany
      exact .inl ⟨rfl, m, hm, eqIgnoreAsciiCase_fold.1 heq⟩

/-- A successful removal drops the entries that differ in case only. -/
theorem removeMember_members {found : Bool}
    (h : (run env (v.removeMember id) w).1 = .ok (v', found)) :
    v'.config.members = v.config.members.filter fun m => !Text.eqIgnoreAsciiCase m id := by
  have hw : wp env (fun _ => True) (v.removeMember id) (fun r _ => ∀ p, r = .ok p →
      p.1.config.members = v.config.members.filter fun m => !Text.eqIgnoreAsciiCase m id) w := by
    unfold Vault.removeMember
    dsimp only
    split
    next =>
      refine wp_seq (wp_bumpAndSignConfig _) (fun v₁ w₁ _ h₁ => ⟨trivial, fun p hp => ?_⟩)
        (fun e w₁ _ _ p hp => by cases hp)
      obtain ⟨c, hc, rfl, -⟩ := h₁ v₁ rfl
      cases hp
      exact hc.members
    next hlen =>
      refine ⟨trivial, fun p hp => ?_⟩
      cases hp
      -- as many entries as before: none was dropped
      exact (List.filter_sublist.eq_of_length (not_not.1 hlen)).symm
  exact hw.post (v', found) h

/-! ## §3. Calls. -/

/-- An addition or a removal. -/
inductive MemberCall where
  | add (nodeId : String)
  | remove (nodeId : String)
  deriving DecidableEq

namespace MemberCall

/-- The id it is called with. -/
def nodeId : MemberCall → String
  | add id => id
  | remove id => id

/-- The call as a program. -/
def act (v : Vault) : MemberCall → Action Vault
  | add id => v.addMember id
  | remove id => do
      let r ← v.removeMember id
      return r.1

/-- What a removal needs in order to take effect: the id is spelled without surrounding white space
or is no member, and another member stays. -/
def Effective (v : Vault) : MemberCall → Prop
  | add _ => True
  | remove id => (trimId id = id ∨ ¬v.Lists (idKey id)) ∧
      ∃ m ∈ v.config.members, Text.eqIgnoreAsciiCase m id = false

end MemberCall

/-- The members after a removal. -/
theorem act_remove (h : (run env ((MemberCall.remove id).act v) w).1 = .ok v') :
    v'.config.members = v.config.members.filter fun m => !Text.eqIgnoreAsciiCase m id := by
  have hw : wp env (fun _ => True) ((MemberCall.remove id).act v)
      (fun r _ => ∀ u, r = .ok u →
        u.config.members = v.config.members.filter fun m => !Text.eqIgnoreAsciiCase m id) w := by
    unfold MemberCall.act
    refine wp_seq (R := fun r _ => r = (run env (v.removeMember id) w).1)
      (wp_iff.2 ⟨fun _ _ => trivial, rfl⟩) (fun p w₁ _ hp => ⟨trivial, fun u hu => ?_⟩)
      (fun e w₁ _ _ u hu => by cases hu)
    cases hu
    have hpair : (run env (v.removeMember id) w).1 = .ok (p.1, p.2) := hp.symm
    exact removeMember_members hpair
  exact hw.post v' h

omit [Crates] in
/-- After a removal a node is listed if it was and is not spelled like the removed id. -/
theorem lists_remove {key : List Char}
    (h : v'.config.members = v.config.members.filter fun m => !Text.eqIgnoreAsciiCase m id) :
    v'.Lists key ↔ v.Lists key ∧ key ≠ foldId id := by
  unfold Vault.Lists
  rw [h]
  constructor
  · intro hlists
    obtain ⟨m, hm, rfl⟩ := hlists
    rw [List.mem_filter, Bool.not_eq_true', Bool.eq_false_iff] at hm
    exact ⟨⟨m, hm.1, rfl⟩, fun heq => hm.2 (eqIgnoreAsciiCase_fold.2 heq)⟩
  · intro hlists
    obtain ⟨⟨m, hm, rfl⟩, hne⟩ := hlists
    refine ⟨m, List.mem_filter.2 ⟨hm, ?_⟩, rfl⟩
    rw [Bool.not_eq_true', Bool.eq_false_iff]
    exact fun heq => hne (eqIgnoreAsciiCase_fold.1 heq)

omit [Crates] in
/-- The list after a removal is empty when no other member was there. -/
theorem nonempty_remove
    (h : v'.config.members = v.config.members.filter fun m => !Text.eqIgnoreAsciiCase m id) :
    v'.config.members ≠ [] ↔ ∃ m ∈ v.config.members, Text.eqIgnoreAsciiCase m id = false := by
  rw [h, ne_eq, List.filter_eq_nil_iff, not_forall]
  refine exists_congr fun m => ?_
  rw [Classical.not_imp, Bool.not_eq_true', not_not]

/-- After an addition the node is listed, and so is who was. -/
theorem lists_add {key : List Char} (h : (run env ((MemberCall.add id).act v) w).1 = .ok v') :
    v'.Lists key ↔ v.Lists key ∨ key = idKey id := by
  obtain ⟨hsame, hthere⟩ | happend := addMember_members h
  · unfold Vault.Lists at hthere ⊢
    rw [hsame]
    constructor
    · exact Or.inl
    · rintro (hlists | rfl)
      · exact hlists
      · exact hthere
  · unfold Vault.Lists
    rw [happend]
    simp only [List.mem_append, List.mem_singleton]
    constructor
    · rintro ⟨m, hm | rfl, rfl⟩
      · exact .inl ⟨m, hm, rfl⟩
      · exact .inr rfl
    · rintro (⟨m, hm, hkey⟩ | rfl)
      · exact ⟨m, .inl hm, hkey⟩
      · exact ⟨trimId id, .inr rfl, rfl⟩

/-- A removal takes effect exactly under its condition. -/
theorem removal_takes_effect_iff (h : (run env ((MemberCall.remove id).act v) w).1 = .ok v') :
    v'.isMember (trimId id) = false ↔ (MemberCall.remove id).Effective v := by
  have hmembers := act_remove h
  rw [Bool.eq_false_iff, ne_eq, Vault.isMember_iff, not_or, ← ne_eq, nonempty_remove hmembers,
    lists_remove hmembers, and_comm]
  refine and_congr ?_ Iff.rfl
  rw [not_and_or, not_not, ← foldId_eq_idKey_iff, or_comm, eq_comm]
  rfl

/-! ## §4. Runs. -/

/-- Successful calls from `v₀`, newest first, whose removals all meet their condition. -/
inductive MemberRun (v₀ : Vault) : List MemberCall → Vault → Prop where
  | start : MemberRun v₀ [] v₀
  | call {cs : List MemberCall} {c : MemberCall} {v v' : Vault} {env : Outside} {w : VaultWorld}
      (h : MemberRun v₀ cs v) (hc : c.Effective v) (hr : (run env (c.act v) w).1 = .ok v') :
      MemberRun v₀ (c :: cs) v'

/-- The last call for the node `x` stands for. -/
def lastCall (cs : List MemberCall) (x : String) : Option MemberCall :=
  cs.find? fun c => decide (SameId c.nodeId x)

/-- What the last call for a node left. -/
def Decided (v : Vault) (x : String) : Option MemberCall → Prop
  | some (.add _) => v.Lists (idKey x)
  | some (.remove _) => v.config.members ≠ [] ∧ ¬v.Lists (idKey x)
  | none => True

omit [Crates] in
/-- A removal for another node leaves the entries of `x`. -/
theorem idKey_ne_fold {x : String} (h : ¬SameId id x) : idKey x ≠ foldId id :=
  fun heq => h (idKey_of_fold heq.symm)

/-- One call keeps what the last call of every node left. -/
theorem Decided.step {c : MemberCall} {x : String} {last : Option MemberCall}
    (h : Decided v x last) (hc : c.Effective v) (hother : ¬SameId c.nodeId x)
    (hr : (run env (c.act v) w).1 = .ok v') : Decided v' x last := by
  cases c with
  | add id =>
    cases last with
    | none => trivial
    | some d =>
      cases d with
      | add d => exact (lists_add hr).2 (.inl h)
      | remove d =>
        refine ⟨fun hnil => ?_, fun hlists => ?_⟩
        · -- the added node is listed
          have hadded : v'.Lists (idKey id) := (lists_add hr).2 (.inr rfl)
          obtain ⟨m, hm, -⟩ := hadded
          rw [hnil] at hm
          cases hm
        · rcases (lists_add hr).1 hlists with hlists | heq
          · exact h.2 hlists
          · exact hother heq.symm
  | remove id =>
    have hmembers := act_remove hr
    cases last with
    | none => trivial
    | some d =>
      cases d with
      | add d => exact (lists_remove hmembers).2 ⟨h, idKey_ne_fold hother⟩
      | remove d =>
        exact ⟨(nonempty_remove hmembers).2 hc.2, fun hl => h.2 ((lists_remove hmembers).1 hl).1⟩

/-- A call for `x` decides about `x`. -/
theorem Decided.own {c : MemberCall} {x : String} (hc : c.Effective v) (hown : SameId c.nodeId x)
    (hr : (run env (c.act v) w).1 = .ok v') : Decided v' x (some c) := by
  have hkey : idKey c.nodeId = idKey x := hown
  cases c with
  | add id => exact (lists_add hr).2 (.inr hkey.symm)
  | remove id =>
    have heffect := (removal_takes_effect_iff hr).2 hc
    rw [Bool.eq_false_iff, ne_eq, Vault.isMember_iff, not_or] at heffect
    exact ⟨heffect.1, hkey ▸ heffect.2⟩

/-- In a run every node has what its last call left. -/
theorem MemberRun.decided {v₀ : Vault} {cs : List MemberCall} (h : MemberRun v₀ cs v) (x : String) :
    Decided v x (lastCall cs x) := by
  induction h with
  | start => trivial
  | @call cs c v v' env w h hc hr ih =>
    unfold lastCall
    rw [List.find?_cons]
    by_cases hown : SameId c.nodeId x
    · rw [decide_eq_true hown]
      exact .own hc hown hr
    · rw [decide_eq_false hown]
      exact ih.step hc hown hr

/-- A removal under its condition admits nobody new. -/
theorem removal_never_widens (hc : (MemberCall.remove id).Effective v)
    (hr : (run env ((MemberCall.remove id).act v) w).1 = .ok v') {y : String}
    (hy : v'.isMember y = true) : v.isMember y = true := by
  have hmembers := act_remove hr
  rcases Vault.isMember_iff.1 hy with hnil | hlists
  · exact absurd hnil ((nonempty_remove hmembers).2 hc.2)
  · exact Vault.isMember_iff.2 (.inr ((lists_remove hmembers).1 hlists).1)

/-- An announcement from a node that is no member is rejected. -/
theorem rejected_of_not_member {d : Delivery} {fs : HomeFs} (hv : d.vault = some v)
    (hno : v.isMember d.ann.nodeIdHex = false) : (d.handle fs).1 ≠ .ok () := by
  intro hok
  have haccept := (d.handle_ok_iff fs).1 hok
  have htrusted := Delivery.trusted_of_checks ((replayGuard_accepts d fs).1 haccept).1
  rw [(htrusted.member v hv).2] at hno
  cases hno

omit [Crates] in
/-- The hex form of a node id is trimmed. -/
theorem foldId_nodeIdHex (ann : HeadAnnouncement) : foldId ann.nodeIdHex = idKey ann.nodeIdHex := by
  refine foldId_eq_idKey_iff.2 ?_
  unfold trimId HeadAnnouncement.nodeIdHex
  rw [String.toList_ofList, Text.trim_eq_self]
  intro c hc
  obtain ⟨n, hn, rfl⟩ := Text.mem_hexEncode hc
  exact (Text.hexDigit_plain n hn).1

/-- **Membership follows the last change.**  In every run whose removals meet their condition, the
node of the last addition is a member, the node of the last removal is none and its announcements are
rejected, and no removal admits anybody new.  A removal takes effect exactly under the condition. -/
theorem membership_follows {v₀ : Vault} {cs : List MemberCall} (h : MemberRun v₀ cs v) :
    (∀ x id, lastCall cs x = some (.add id) → v.isMember (trimId x) = true) ∧
    (∀ x id, lastCall cs x = some (.remove id) → v.isMember (trimId x) = false ∧
      ∀ (d : Delivery) (fs : HomeFs), d.vault = some v → SameId d.ann.nodeIdHex x →
        (d.handle fs).1 ≠ .ok ()) ∧
    ∀ (id : String) (env : Outside) (w : VaultWorld) (v' : Vault),
      (run env ((MemberCall.remove id).act v) w).1 = .ok v' →
        (v'.isMember (trimId id) = false ↔ (MemberCall.remove id).Effective v) ∧
        ((MemberCall.remove id).Effective v → ∀ y, v'.isMember y = true → v.isMember y = true) := by
  refine ⟨fun x id hlast => ?_, fun x id hlast => ?_, fun id env w v' hr => ?_⟩
  · have hdecided := h.decided x
    rw [hlast] at hdecided
    exact Vault.isMember_iff.2 (.inr hdecided)
  · have hdecided := h.decided x
    rw [hlast] at hdecided
    refine ⟨?_, fun d fs hv hsame => rejected_of_not_member hv ?_⟩
    · rw [Bool.eq_false_iff, ne_eq, Vault.isMember_iff, not_or]
      exact hdecided
    · have hkey : idKey d.ann.nodeIdHex = idKey x := hsame
      rw [Bool.eq_false_iff, ne_eq, Vault.isMember_iff, not_or, foldId_nodeIdHex, hkey]
      exact hdecided
  · exact ⟨removal_takes_effect_iff hr, fun hc y hy => removal_never_widens hc hr hy⟩

end

/-! ### The last member removed, and an id spelled with a blank. -/

section Sample

attribute [local instance] sample

/-- A vault with the given members, without a node identity. -/
def vaultWith (members : List String) : Vault :=
  ⟨{ sampleConfig with encryptionEnabled := false, members }, none, none⟩

/-- The vault a removal returns when it drops a member and there is no node key. -/
theorem run_remove_plain (members : List String) (id : String) (disk : VaultFs)
    (hdrop : (members.filter fun m => !Text.eqIgnoreAsciiCase m id).length ≠ members.length) :
    (run (quiet 0) ((MemberCall.remove id).act (vaultWith members)) (World.boot disk)).1 =
      .ok ⟨{ sampleConfig with
        encryptionEnabled := false
        members := members.filter fun m => !Text.eqIgnoreAsciiCase m id
        configSeq := 2 }, none, none⟩ := by
  unfold MemberCall.act Vault.removeMember
  have hmembers : (vaultWith members).config.members = members := rfl
  simp only [hmembers]
  rw [if_pos hdrop]
  rfl

/-- A removal that finds nothing. -/
theorem run_remove_absent {members : List String} {id : String} (disk : VaultFs)
    (hkeep : (members.filter fun m => !Text.eqIgnoreAsciiCase m id).length = members.length) :
    (run (quiet 0) ((MemberCall.remove id).act (vaultWith members)) (World.boot disk)).1 =
      .ok (vaultWith members) := by
  unfold MemberCall.act Vault.removeMember
  have hmembers : (vaultWith members).config.members = members := rfl
  simp only [hmembers]
  rw [if_neg (not_not.2 hkeep)]
  rfl

/-- Removing the only member succeeds and makes everyone a member; removing a member under an id with
a blank succeeds and removes nobody. -/
theorem removal_without_effect :
    (∃ v', (run (quiet 0) ((MemberCall.remove "aa").act (vaultWith ["aa"])) (World.boot ∅)).1 =
        .ok v' ∧ v'.isMember "aa" = true ∧
      (vaultWith ["aa"]).isMember "bb" = false ∧ v'.isMember "bb" = true) ∧
    ∃ v', (run (quiet 0) ((MemberCall.remove " aa").act (vaultWith ["aa", "bb"]))
        (World.boot ∅)).1 = .ok v' ∧ trimId " aa" = "aa" ∧ v'.isMember "aa" = true := by
  refine ⟨⟨_, run_remove_plain _ _ ∅ (by decide), ?_, by decide, ?_⟩,
    ⟨_, run_remove_absent ∅ (by decide), by decide, by decide⟩⟩
  · decide
  · decide

/-- Removing one of two members. -/
theorem membership_follows_removed : ∃ v', MemberRun (vaultWith ["aa", "bb"]) [.remove "AA"] v' ∧
    v'.isMember "AA" = false := by
  have hrun := run_remove_plain ["aa", "bb"] "AA" ∅ (by decide)
  have heffective : (MemberCall.remove "AA").Effective (vaultWith ["aa", "bb"]) :=
    ⟨.inl (by decide), "bb", by decide, by decide⟩
  have hmember : MemberRun (vaultWith ["aa", "bb"]) [.remove "AA"] _ := .call .start heffective hrun
  exact ⟨_, hmember, ((membership_follows hmember).2.1 "AA" "AA" (by decide)).1⟩

end Sample

end Soal

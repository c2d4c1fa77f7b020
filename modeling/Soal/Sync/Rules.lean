/-
  Soal.Sync.Rules — how a run of a sync goes on, and how it ends.

  A part of a run ends with a value, with an error that keeps the job, or with a panic.  `Ends S P`
  says that `P` holds of a value and `S` of the job at any other end; `wp_attempt` and `wp_andThen`
  are the rules for one step and for sequencing.

  The network rule: a blob that failover returns hashes to what was asked for, and it is found when
  some peer serves it.
-/
import Soal.Sync
import Soal.Vault.Integrity

namespace Soal

open FileProg

variable {env : Outside} {I : VaultWorld → Prop} {w : VaultWorld}

/-! ## §1. Ends of a run. -/

/-- `P` of a value; `S` of the job and the disk at an error (a panic forgets the job). -/
def Ends {α : Type} (S : SyncRun → VaultWorld → Prop) (P : α → SyncRun → VaultWorld → Prop) :
    Res (Except SoalError α × SyncRun) → VaultWorld → Prop
  | .ok (.ok a, r), w => P a r w
  | .ok (.error _, r), w => S r w
  | .error _, w => ∃ r, S r w

namespace SyncM

variable {α β : Type} {S : SyncRun → VaultWorld → Prop} {P : β → SyncRun → VaultWorld → Prop}
  {r : SyncRun}

/-- The sequencing rule. -/
theorem wp_bind {x : SyncM α} {f : α → SyncM β}
    (hx : wp env I (x r) (Ends S fun a r' w' => wp env I (f a r') (Ends S P) w') w) :
    wp env I ((x >>= f) r) (Ends S P) w := by
  show wp env I (x r >>= fun out => _) _ w
  refine wp_seq hx (fun out w' hI hout => ?_) (fun e w' _ he => he)
  obtain ⟨out, r'⟩ := out
  cases out with
  | ok a => exact hout
  | error e => exact ⟨hI, hout⟩

/-- Sequencing by a rule for the first part. -/
theorem wp_then {x : SyncM α} {f : α → SyncM β} {R : α → SyncRun → VaultWorld → Prop}
    (hx : wp env I (x r) (Ends S R) w)
    (hf : ∀ a r' w', R a r' w' → wp env I (f a r') (Ends S P) w') :
    wp env I ((x >>= f) r) (Ends S P) w := by
  refine wp_bind (hx.mono (fun _ h => h) fun out w' _ hout => ?_)
  rcases out with e | ⟨e | a, r'⟩
  · exact hout
  · exact hout
  · exact hf a r' w' hout

/-- A part that does not fail leaves the end open. -/
theorem wp_surely {x : SyncM α} {f : α → SyncM β} {R : α → SyncRun → VaultWorld → Prop}
    {Q : Res (Except SoalError β × SyncRun) → VaultWorld → Prop}
    (hx : wp env I (x r) (Ends (fun _ _ => False) R) w)
    (hf : ∀ a r' w', R a r' w' → wp env I (f a r') Q w') : wp env I ((x >>= f) r) Q w := by
  show wp env I (x r >>= fun out => _) _ w
  refine wp_seq hx (fun out w' _ hout => ?_) (fun e w' _ he => ?_)
  · obtain ⟨out, r'⟩ := out
    cases out with
    | ok a => exact hf a r' w' hout
    | error e => exact absurd hout id
  · obtain ⟨_, he⟩ := he
    exact absurd he id

/-- A part that fails ends the run. -/
theorem wp_stop {x : SyncM α} {f : α → SyncM β} {e : SoalError}
    (hx : wp env I (x r) (fun out w' => ∃ r', out = .ok (.error e, r') ∧ S r' w') w) :
    wp env I ((x >>= f) r) (fun out w' => ∃ r', out = .ok (.error e, r') ∧ S r' w') w := by
  show wp env I (x r >>= fun out => _) _ w
  refine wp_seq hx (fun out w' hI hout => ?_) (fun e' w' _ hout => ?_)
  · obtain ⟨r', hout, hS⟩ := hout
    obtain rfl := Except.ok.inj hout
    exact ⟨hI, r', rfl, hS⟩
  · obtain ⟨_, he, -⟩ := hout
    cases he

/-- A weaker rule. -/
theorem wp_weaken {x : SyncM β} {R : β → SyncRun → VaultWorld → Prop}
    (hx : wp env I (x r) (Ends S R) w) (hP : ∀ a r' w', R a r' w' → P a r' w') :
    wp env I (x r) (Ends S P) w := by
  refine hx.mono (fun _ h => h) fun out w' _ hout => ?_
  rcases out with e | ⟨e | a, r'⟩
  · exact hout
  · exact hout
  · exact hP a r' w' hout

/-- A weaker rule, at both ends. -/
theorem wp_relax {x : SyncM β} {R : β → SyncRun → VaultWorld → Prop}
    {T : SyncRun → VaultWorld → Prop} (hx : wp env I (x r) (Ends T R) w)
    (hS : ∀ r' w', T r' w' → S r' w') (hP : ∀ a r' w', R a r' w' → P a r' w') :
    wp env I (x r) (Ends S P) w := by
  refine hx.mono (fun _ h => h) fun out w' _ hout => ?_
  rcases out with e | ⟨e | a, r'⟩
  · obtain ⟨r', hr'⟩ := hout
    exact ⟨r', hS r' w' hr'⟩
  · exact hS r' w' hout
  · exact hP a r' w' hout

theorem wp_pure {a : β} (hI : I w) (h : P a r w) :
    wp env I ((pure a : SyncM β) r) (Ends S P) w := ⟨hI, h⟩

/-- Reading the job, then going on. -/
theorem wp_get {f : SyncRun → SyncM β} (h : wp env I (f r r) (Ends S P) w) :
    wp env I ((SyncM.get >>= f) r) (Ends S P) w := h

/-- Changing the job, then going on. -/
theorem wp_modify {g : SyncRun → SyncRun} {f : Unit → SyncM β}
    (h : wp env I (f () (g r)) (Ends S P) w) :
    wp env I ((SyncM.modify g >>= f) r) (Ends S P) w := h

theorem wp_reject {e : SoalError} (hI : I w) (h : S r w) :
    wp env I ((SyncM.reject e : SyncM β) r) (Ends S P) w := ⟨hI, h⟩

/-- A step of the vault keeps the job. -/
theorem wp_attempt {x : Action β} {R : Res β → VaultWorld → Prop} (hx : wp env I x R w)
    (hok : ∀ a w', I w' → R (.ok a) w' → P a r w')
    (herr : ∀ e w', I w' → R (.error e) w' → S r w') :
    wp env I (SyncM.attempt x r) (Ends S P) w := by
  refine wp_handle.2 (hx.mono (fun _ h => h) fun out w' hI hR => ?_)
  cases out with
  | ok a => exact ⟨hI, hok a w' hI hR⟩
  | error e =>
    cases e with
    | err e => exact ⟨hI, herr _ w' hI hR⟩
    | panic => exact ⟨hI, r, herr _ w' hI hR⟩

/-- A step of the vault, then going on. -/
theorem wp_attempt_bind {x : Action α} {f : α → SyncM β} {R : Res α → VaultWorld → Prop}
    (hx : wp env I x R w) (hok : ∀ a w', I w' → R (.ok a) w' → wp env I (f a r) (Ends S P) w')
    (herr : ∀ e w', I w' → R (.error e) w' → S r w') :
    wp env I ((SyncM.attempt x >>= f) r) (Ends S P) w :=
  wp_bind (wp_attempt hx hok herr)

/-- A step that only reads, then going on. -/
theorem wp_attempt_read {x : Reads α} {f : α → SyncM β} (hI : I w)
    (hok : ∀ a, ReadM.eval w.fs x = .ok a → wp env I (f a r) (Ends S P) w)
    (herr : ∀ e, ReadM.eval w.fs x = .error e → S r w) :
    wp env I ((SyncM.attempt (ofRead x) >>= f) r) (Ends S P) w := by
  refine wp_attempt_bind (R := fun out w' => w' = w ∧ out = ReadM.eval w.fs x)
    (wp_ofRead.2 ⟨hI, rfl, rfl⟩) (fun a w' _ h => ?_) (fun e w' _ h => ?_)
  · obtain ⟨rfl, h⟩ := h
    exact hok a h.symm
  · obtain ⟨rfl, h⟩ := h
    exact herr e h.symm

end SyncM

/-! ## §2. The network. -/

/-- Some peer answers some request with these bytes. -/
def Served (env : Outside) (data : Bytes) : Prop :=
  ∃ n peer hash, env n (.getBlob peer hash) = .ok data

/-- The peer answers every request for the hash with these bytes, which are of legal size. -/
structure Provides (env : Outside) (peer : String) (hash : ContentHash) (data : Bytes) : Prop where
  answer : ∀ n, env n (.getBlob peer hash) = .ok data
  size : data.length ≤ maxBlobBytes

theorem Provides.served {peer : String} {hash : ContentHash} {data : Bytes}
    (h : Provides env peer hash data) : Served env data := ⟨0, peer, hash, h.answer 0⟩

variable [Crates] {hash : ContentHash}

/-- What a peer is taken at: bytes of the right hash that it served. -/
theorem wp_getChunkFromPeer (peer : String) (hI : ∀ w', w'.fs = w.fs → w'.log = w.log → I w') :
    wp env I (getChunkFromPeer peer hash) (fun r w' => w'.fs = w.fs ∧ w'.log = w.log ∧
      (∀ data, r = .ok data → ContentHash.of data = hash ∧ Served env data) ∧
      r ≠ .error .panic ∧
      ∀ data, Provides env peer hash data → ContentHash.of data = hash → r = .ok data) w := by
  unfold getChunkFromPeer
  refine wp_answer (hI w rfl rfl) ?_
  split
  next e he =>
    have hne : ∀ data, ¬Provides env peer hash data := fun data hd => by
      rw [hd.answer] at he
      cases he
    exact ⟨hI _ rfl rfl, rfl, rfl, by simp, by simp, fun data hd _ => absurd hd (hne data)⟩
  next bytes hbytes =>
    have hother : ∀ data, Provides env peer hash data → data = bytes := fun data hd => by
      rw [hd.answer] at hbytes
      exact Except.ok.inj hbytes
    split
    next hbig =>
      refine ⟨hI _ rfl rfl, rfl, rfl, by simp, by simp, fun data hd _ => ?_⟩
      exact absurd (hother data hd ▸ hd.size) (by omega)
    next =>
      split
      next hne =>
        refine ⟨hI _ rfl rfl, rfl, rfl, by simp, by simp, fun data hd hh => ?_⟩
        exact absurd (hother data hd ▸ hh) hne
      next heq =>
        refine ⟨hI _ rfl rfl, rfl, rfl, fun data h => ?_, by simp, fun data hd _ => ?_⟩
        · obtain rfl := Except.ok.inj h
          exact ⟨not_not.1 heq, w.tick, peer, hash, hbytes⟩
        · rw [hother data hd]

theorem wp_tryPeers (peers : List String) (last : SoalError)
    (hI : ∀ w', w'.fs = w.fs → w'.log = w.log → I w') :
    wp env I (tryPeers hash peers last) (fun r w' => w'.fs = w.fs ∧ w'.log = w.log ∧
      (∀ found, r = .ok found → ContentHash.of found.2 = hash ∧ Served env found.2) ∧
      ∀ peer ∈ peers, ∀ data, Provides env peer hash data → ContentHash.of data = hash →
        ∃ found, r = .ok found) w := by
  induction peers generalizing w last with
  | nil =>
    refine ⟨hI w rfl rfl, rfl, rfl, nofun, fun peer hp => ?_⟩
    cases hp
  | cons peer peers ih =>
    unfold tryPeers
    refine wp_handle.2 ((wp_getChunkFromPeer peer hI).mono (fun _ h => h) fun r w₁ hI₁ h₁ => ?_)
    obtain ⟨hfs, hlog, hgot, hpanic, hprov⟩ := h₁
    cases r with
    | ok data =>
      refine ⟨hI₁, hfs, hlog, fun found h => ?_, fun _ _ _ _ _ => ⟨_, rfl⟩⟩
      obtain rfl := Except.ok.inj h
      exact hgot data rfl
    | error e =>
      cases e with
      | panic => exact absurd rfl hpanic
      | err e =>
        refine (ih e fun w' hf hl => hI w' (hf.trans hfs) (hl.trans hlog)).mono (fun _ h => h)
          fun r w₂ _ h₂ => ?_
        obtain ⟨hfs₂, hlog₂, hgot₂, hprov₂⟩ := h₂
        refine ⟨hfs₂.trans hfs, hlog₂.trans hlog, hgot₂, fun peer' hp data hd hh => ?_⟩
        rcases List.mem_cons.1 hp with rfl | hp
        · -- the first peer serves it, yet it failed
          cases hprov data hd hh
        · exact hprov₂ peer' hp data hd hh

/-- **Failover returns a blob of the hash asked for, and finds it when some peer serves it.** -/
theorem wp_getBlobWithFailover (peers : List String)
    (hI : ∀ w', w'.fs = w.fs → w'.log = w.log → I w') :
    wp env I (getBlobWithFailover peers hash) (fun r w' => w'.fs = w.fs ∧ w'.log = w.log ∧
      (∀ found, r = .ok found → ContentHash.of found.2 = hash ∧ Served env found.2) ∧
      ∀ peer ∈ peers, ∀ data, Provides env peer hash data → ContentHash.of data = hash →
        ∃ found, r = .ok found) w :=
  wp_tryPeers peers _ hI

end Soal

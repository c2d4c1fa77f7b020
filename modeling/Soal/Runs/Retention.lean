/-
  Soal.Runs.Retention — the newest snapshots survive retention and garbage collection.

  Taking a snapshot registers its commit as the newest; retention drops the oldest entries; a
  collection keeps what is registered.  So with policies that keep at least `r` snapshots, the newest
  `r` distinct ones are registered and complete in every state of a run: they can be restored.

  What is proved of every part of an operation is `Retained`: HEAD and all registered commits are
  complete, HEAD and HEADS can be read, and the registry is an end of everything ever registered.
-/
import Soal.Lib.Recency
import Soal.Runs.BlobSizes
import Soal.Runs.HeadComplete
import Soal.Runs.HeadTips
import Soal.Runs.Ticks

open Recency (Newest newest order)
open Trace (Each)

namespace Soal

open FileProg

section Model

variable [Crates]

/-! ## §1. What is retained. -/

/-- The hashes a registry lists, oldest first. -/
def SnapshotLog.hashes (log : SnapshotLog) : List String := log.entries.map SnapshotEntry.hash

/-- After the snapshots `names`: what can be read, what is complete, and what is registered. -/
structure Retained (r : Nat) (names : List ContentHash) (fs : VaultFs) : Prop where
  head : HeadComplete fs
  heads : ∃ l listed, HeadsAre fs l listed
  registry : ∃ log, ReadM.eval fs loadSnapshots = .ok log ∧
    Newest r log.hashes ((order names).map ContentHash.toHex) ∧
    ∀ c : ContentHash, c.toHex ∈ log.hashes → Complete fs c

section Frame

variable {r : Nat} {names : List ContentHash} {fs fs' : VaultFs} {c : ContentHash}

/-- HEAD and HEADS were written, nothing was lost, the registry is as it was. -/
theorem Retained.keeps (h : Retained r names fs) (hr : Retains fs fs') (hhead : HeadComplete fs')
    (hheads : ∃ l listed, HeadsAre fs' l listed)
    (hreg : fs'.lookup snapshotsPath = fs.lookup snapshotsPath) : Retained r names fs' := by
  obtain ⟨log, hlog, hnewest, hcomplete⟩ := h.registry
  exact ⟨hhead, hheads, log, (eval_loadSnapshots_congr hreg).trans hlog, hnewest,
    fun c hc => hr.complete (hcomplete c hc)⟩

/-- Other files do not matter. -/
theorem Retained.frame {D : FilePath VaultDir → Prop} {w w' : VaultWorld}
    (h : Retained r names w.fs) (hw : Within D w w')
    (hD : ∀ p, D p → p.dir = .root ∧ p ≠ headFile ∧ p ≠ headsFile ∧ p ≠ snapshotsPath) :
    Retained r names w'.fs := by
  have hhead : w'.fs.lookup headFile = w.fs.lookup headFile :=
    hw.frame _ fun hd => (hD _ hd).2.1 rfl
  have hheads : w'.fs.lookup headsFile = w.fs.lookup headsFile :=
    hw.frame _ fun hd => (hD _ hd).2.2.1 rfl
  have hr : Retains w.fs w'.fs := by
    refine retains_of_eq fun p hp => hw.frame p fun hd => ?_
    rw [(hD p hd).1] at hp
    rcases hp with hp | hp | hp <;> cases hp
  obtain ⟨l, listed, hlisted⟩ := h.heads
  exact h.keeps hr (h.head.same hr (eval_head_congr hhead)) ⟨l, listed, hlisted.congr hhead hheads⟩
    (hw.frame _ fun hd => (hD _ hd).2.2.2 rfl)

end Frame

/-! ## §2. The registry. -/

section Registry

variable {r : Nat} {names : List ContentHash} {env : Outside} {w : VaultWorld} {c : ContentHash}

/-- Saving a registry that is an end of everything registered, and complete. -/
theorem wp_saveSnapshots (hjson : Crates.snapshotsJson.RoundTrip) {names' : List ContentHash}
    (h : Retained r names w.fs) {log : SnapshotLog}
    (hnewest : Newest r log.hashes ((order names').map ContentHash.toHex))
    (hcomplete : ∀ c : ContentHash, c.toHex ∈ log.hashes → Complete w.fs c) :
    wp env (fun _ => True) (saveSnapshots log) (fun res w' => res = .ok () ∧
      Retained r names' w'.fs ∧ ReadM.eval w'.fs Soal.head = ReadM.eval w.fs Soal.head ∧
      w'.fs.lookup policyPath = w.fs.lookup policyPath) w := by
  have hfile : ∀ p, p ≠ snapshotsTmp → p ≠ snapshotsPath →
      (renamed w snapshotsTmp snapshotsPath
        (Text.toUtf8 (Crates.snapshotsJson.toStringPretty log))).fs.lookup p = w.fs.lookup p := by
    intro p htmp hpath
    rw [lookup_renamed, if_neg hpath, if_neg htmp]
  have hhead := hfile headFile (by decide) (by decide)
  have hheads := hfile headsFile (by decide) (by decide)
  have hobjects : ∀ p : FilePath VaultDir, p.dir = .commits ∨ p.dir = .trees ∨ p.dir = .chunks →
      (renamed w snapshotsTmp snapshotsPath
        (Text.toUtf8 (Crates.snapshotsJson.toStringPretty log))).fs.lookup p = w.fs.lookup p := by
    intro p hp
    refine hfile p ?_ ?_ <;> rintro rfl <;> rcases hp with hp | hp | hp <;> cases hp
  obtain ⟨l, listed, hlisted⟩ := h.heads
  refine wp_writeRename.2 ⟨trivial, trivial, trivial, trivial, rfl, ?_, eval_head_congr hhead,
    hfile policyPath (by decide) (by decide)⟩
  refine ⟨h.head.same (retains_of_eq hobjects) (eval_head_congr hhead),
    ⟨l, listed, hlisted.congr hhead hheads⟩, log, eval_loadSnapshots_saved hjson ?_, hnewest,
    fun c hc => (complete_congr hobjects c).2 (hcomplete c hc)⟩
  rw [lookup_renamed, if_pos rfl]

/-- **Registering a complete commit** makes it the newest. -/
theorem wp_registerSnapshot_retained (hjson : Crates.snapshotsJson.RoundTrip)
    (h : Retained r names w.fs) (hc : Complete w.fs c) (message : String) (auto : Bool) :
    wp env (fun _ => True) (registerSnapshot c message auto) (fun res w' => res = .ok () ∧
      Retained r (names ++ [c]) w'.fs ∧ ReadM.eval w'.fs Soal.head = ReadM.eval w.fs Soal.head ∧
      w'.fs.lookup policyPath = w.fs.lookup policyPath) w := by
  obtain ⟨log, hlog, hnewest, hcomplete⟩ := h.registry
  unfold registerSnapshot
  refine wp_read_ok trivial hlog (wp_answer trivial ?_)
  have hhashes : SnapshotLog.hashes ⟨log.entries.filter (fun e => e.hash ≠ c.toHex) ++
      [⟨c.toHex, env w.tick .now, message, auto⟩]⟩ = Recency.touch log.hashes c.toHex := by
    show List.map _ (_ ++ _) = (log.entries.map _).filter _ ++ _
    rw [List.map_append, List.filter_map]
    rfl
  refine wp_saveSnapshots (w := w.asked) hjson h ?_ fun x hx => ?_
  · rw [hhashes, Recency.order_concat, Recency.map_touch ContentHash.toHex_injective]
    exact hnewest.touch ((Recency.order_nodup names).map ContentHash.toHex_injective) c.toHex
  · rw [hhashes] at hx
    rcases Recency.mem_touch.1 hx with hx | hx
    · exact hcomplete x hx
    · exact ContentHash.toHex_injective hx ▸ hc

/-- A policy keeps every snapshot, or at least `r`. -/
def VaultPolicy.Keeps (r : Nat) (policy : VaultPolicy) : Prop :=
  policy.retainSnapshots = 0 ∨ r ≤ policy.retainSnapshots.toNat

/-- **Retention** drops none of the newest `r`. -/
theorem wp_applyRetention_retained (hjson : Crates.snapshotsJson.RoundTrip)
    (h : Retained r names w.fs) {policy : VaultPolicy} (hpolicy : policy.Keeps r) :
    wp env (fun _ => True) (applyRetention policy) (fun res w' => (∃ n, res = .ok n) ∧
      Retained r names w'.fs ∧ ReadM.eval w'.fs Soal.head = ReadM.eval w.fs Soal.head) w := by
  obtain ⟨log, hlog, hnewest, hcomplete⟩ := h.registry
  unfold applyRetention pruneSnapshotRegistry
  by_cases hzero : policy.retainSnapshots = 0
  · rw [if_pos hzero]
    exact ⟨trivial, ⟨0, rfl⟩, h, rfl⟩
  · rw [if_neg hzero]
    have hkeep := hpolicy.resolve_left hzero
    refine wp_read_ok trivial hlog ?_
    dsimp only
    split
    next => exact ⟨trivial, ⟨0, rfl⟩, h, rfl⟩
    next =>
      have hhashes : SnapshotLog.hashes
          ⟨log.entries.drop (log.entries.length - policy.retainSnapshots.toNat)⟩ =
            newest policy.retainSnapshots.toNat log.hashes := by
        show List.map _ (List.drop _ _) = List.drop _ (List.map _ _)
        rw [List.map_drop, SnapshotLog.hashes, List.length_map]
      have hpruned : Newest r (newest policy.retainSnapshots.toNat log.hashes)
          ((order names).map ContentHash.toHex) := hnewest.prune hkeep
      rw [← hhashes] at hpruned
      refine wp_seq (wp_saveSnapshots hjson h hpruned fun x hx => ?_)
        (fun _ w₁ _ h₁ => ?_) fun e w₁ _ h₁ => ?_
      · rw [hhashes] at hx
        exact hcomplete x (List.mem_of_mem_drop hx)
      · exact ⟨trivial, ⟨_, rfl⟩, h₁.2.1, h₁.2.2.1⟩
      · cases h₁.1

end Registry

/-! ## §3. Collections. -/

section Collections

variable {r n : Nat} {names : List ContentHash} {env : Outside} {w : VaultWorld}
  {fs fs' : VaultFs} {c : ContentHash}

/-- A collection deletes nothing from the root directory. -/
theorem not_garbage_root {p : FilePath VaultDir} (hp : p.dir = .root) : ¬Garbage fs p := by
  refine not_or.2 ⟨not_garbageChunk_of_dir ?_, ?_⟩
  · rw [hp]
    decide
  · rintro ⟨hd | hd, -⟩ <;> cases hp.symm.trans hd

/-- What a root leads to stays complete. -/
theorem Swept.complete (h : Swept (Garbage fs) fs fs' n) (hlive : LiveFrom (GcRoot fs) fs c)
    (hc : Complete fs c) : Complete fs' c := by
  obtain ⟨k, tr, hk, htr, hch⟩ := hc
  obtain ⟨hcb, hcj⟩ := h.kept_object (K := commitKind) (by simp [commitKind])
    ⟨c, k, hlive, hk, .inl rfl⟩
  obtain ⟨htb, htj⟩ := h.kept_object (K := treeKind) (by simp [treeKind])
    ⟨c, k, hlive, hk, .inr rfl⟩
  refine ⟨k, tr, (commitKind.eval_load_congr hcb hcj).trans hk,
    (treeKind.eval_load_congr htb htj).trans htr, fun ch hc' => ?_⟩
  exact (mem_congr (h.kept_chunk ⟨c, k, tr, hlive, hk, htr, hc'⟩)).2 (hch ch hc')

omit [Crates] in
/-- A registered hash is a root of the registry. -/
theorem SnapshotLog.mem_roots {log : SnapshotLog} (h : c.toHex ∈ log.hashes) : c ∈ log.roots := by
  obtain ⟨e, he, hhash⟩ := List.mem_map.1 h
  refine List.mem_toFinset.2 (List.mem_filterMap.2 ⟨e, he, ?_⟩)
  rw [hhash, ContentHash.fromHex_toHex]
  rfl

/-- **A collection** deletes nothing that is registered: the roots can be read. -/
theorem wp_gcAll_retained (h : Retained r names w.fs) :
    wp env (fun _ => True) gcAll (fun _ w' => Retained r names w'.fs) w := by
  refine (wp_gcAll env w).mono (fun _ h => h) fun res w' _ hr => ?_
  rcases hr with ⟨e, -, rfl, -⟩ | ⟨n, -, -, hsw⟩
  · exact h
  obtain ⟨l, listed, hlisted⟩ := h.heads
  obtain ⟨log, hlog, hnewest, hcomplete⟩ := h.registry
  have hreadable : RootsReadable w.fs := ⟨⟨l, hlisted.head⟩, ⟨listed, hlisted.listed⟩, ⟨log, hlog⟩⟩
  have hroot : ∀ p : FilePath VaultDir, p.dir = .root → w'.fs.lookup p = w.fs.lookup p :=
    fun p hp => hsw.kept p (not_garbage_root hp)
  have hlive : ∀ c, NamedRoot w.fs c → LiveFrom (GcRoot w.fs) w.fs c := fun c hc =>
    .root (.inl ⟨hreadable, hc⟩)
  refine ⟨fun c hc => ?_, ⟨l, listed, hlisted.congr (hroot _ rfl) (hroot _ rfl)⟩, log, ?_, hnewest,
    fun c hc => ?_⟩
  · rw [eval_head_congr (hroot headFile rfl)] at hc
    exact hsw.complete (hlive c (.head hc)) (h.head c hc)
  · exact (eval_loadSnapshots_congr (hroot _ rfl)).trans hlog
  · exact hsw.complete (hlive c (.registry hlog (SnapshotLog.mem_roots hc))) (hcomplete c hc)

end Collections

/-! ## §4. Snapshots. -/

section Snapshots

variable {r : Nat} {names : List ContentHash} {S : Bytes → Prop} {env : Outside}
  {w w' : VaultWorld} {fs fs' : VaultFs} {c : ContentHash}

/-- The policy file asks for no less than the newest `r`. -/
def PolicyKeeps (r : Nat) (fs : VaultFs) : Prop :=
  ∀ s policy, ReadM.eval fs (readToString policyPath) = .ok s →
    Crates.policyJson.fromStr s = .ok policy → policy.Keeps r

theorem PolicyKeeps.congr (h : PolicyKeeps r fs)
    (hl : fs'.lookup policyPath = fs.lookup policyPath) : PolicyKeeps r fs' := by
  intro s policy hs
  rw [eval_readToString_congr hl] at hs
  exact h s policy hs

/-- The policy that is loaded, or seeded, keeps the newest `r`; so does the file afterwards. -/
theorem wp_loadPolicy_keeps (hjson : Crates.policyJson.RoundTrip) (hpolicy : PolicyKeeps r w.fs)
    (config : VaultConfig) : wp env (fun _ => True) (loadPolicy config) (fun res w' =>
      PolicyKeeps r w'.fs ∧ ∀ policy, res = .ok policy → policy.Keeps r) w := by
  have hseed : (VaultPolicy.default.retainSnapshots = 0) := rfl
  unfold loadPolicy
  refine wp_exists trivial ?_
  split
  next =>
    refine wp_read trivial (fun s hs => ?_) fun e _ => ⟨hpolicy, fun _ h => by cases h⟩
    refine wp_compute trivial (fun p hp => ?_) fun e _ => ⟨hpolicy, fun _ h => by cases h⟩
    refine wp_compute trivial (fun _ _ => ⟨trivial, hpolicy, fun policy h => ?_⟩)
      fun e _ => ⟨hpolicy, fun _ h => by cases h⟩
    obtain rfl := Except.ok.inj h
    refine hpolicy s p hs ?_
    cases hparse : Crates.policyJson.fromStr s with
    | error e => rw [hparse] at hp; cases hp
    | ok p' => rw [hparse] at hp; cases hp; rfl
  next =>
    -- the seed keeps every snapshot
    refine wp_seq (R := fun _ w' => PolicyKeeps r w'.fs) (wp_compute trivial (fun _ _ => ?_)
      fun e _ => hpolicy) (fun _ w₁ _ h₁ => ⟨trivial, h₁, fun policy h => ?_⟩)
      fun e w₁ _ h₁ => ⟨h₁, fun _ h => by cases h⟩
    · refine wp_writeRename.2 ⟨trivial, trivial, trivial, trivial, fun s policy hs hp => ?_⟩
      rw [eval_readToString_text (by rw [lookup_renamed, if_pos rfl])] at hs
      obtain rfl := Except.ok.inj hs
      obtain rfl := Except.ok.inj ((hjson _).symm.trans hp)
      exact .inl hseed
    · obtain rfl := Except.ok.inj h
      exact .inl hseed

/-- The data that loading hashes is in the object directories. -/
theorem DataIn.congr (h : DataIn S fs) (hl : ∀ p : FilePath VaultDir, p.dir = .commits ∨ p.dir = .trees →
    fs'.lookup p = fs.lookup p) : DataIn S fs' := by
  rintro b (hb | hb)
  · refine h b (.inl ?_)
    cases hb with
    | bin hb => exact .bin ((hl _ (.inl rfl)).symm.trans hb)
    | json hb => exact .json ((hl _ (.inl rfl)).symm.trans hb)
    | legacy hb hx he => exact .legacy ((hl _ (.inl rfl)).symm.trans hb) hx he
  · refine h b (.inr ?_)
    cases hb with
    | bin hb => exact .bin ((hl _ (.inr rfl)).symm.trans hb)
    | json hb => exact .json ((hl _ (.inr rfl)).symm.trans hb)
    | legacy hb hx he => exact .legacy ((hl _ (.inr rfl)).symm.trans hb) hx he

/-- Whatever keeps to root files leaves that data alone. -/
theorem DataIn.before (hw : Within (fun p => p.dir = .root) w w') (h : DataIn S w'.fs) :
    DataIn S w.fs := by
  refine h.congr fun p hp => (hw.frame p fun hd => ?_).symm
  rcases hp with hp | hp <;> cases hd.symm.trans hp

/-- Making a commit leaves the list of heads alone. -/
theorem Extended.lookup_heads {P : Plan} (he : Extended P w c w')
    (hP : ¬P.tidies Soal.headsFile) :
    w'.fs.lookup Soal.headsFile = w.fs.lookup Soal.headsFile := by
  obtain ⟨w₀, k, bytes, ⟨⟨w₂, hprep, hfs⟩, -, -⟩, -, hw⟩ := he
  rw [hw.frame _ hP, lookup_committed (by decide), if_neg (by simp [Soal.headsFile, commitPathBin]),
    hfs]
  exact hprep.other (by decide) (by decide)

/-- **The commit of a snapshot** is complete, and nothing is lost. -/
theorem Vault.wp_snapshotCommit_retained (laws : JsonLaws) (hS : CollisionFree S)
    (h : Retained r names w.fs) (hdata : DataIn S w.fs) (v : Vault) (message : String) :
    wp env (fun _ => True) (v.snapshotCommit message) (fun res w' =>
      w'.fs.lookup policyPath = w.fs.lookup policyPath ∧ (DataIn S w'.fs →
        Retained r names w'.fs ∧ ∀ c, res = .ok c → ReadM.eval w'.fs head = .ok (some c))) w := by
  have hsnapHeads : ¬(snapshotPlan w.fs).tidies headsFile := by
    show ¬Registry headsFile
    unfold Registry
    decide
  have hcommit : wp env (Extending (snapshotPlan w.fs) w) (v.snapshotCommit message)
      (ExtendEnds (snapshotPlan w.fs) w) w := v.wp_snapshotCommit message
  have hrule := (hcommit.and (wp_snapshotCommit_stop v message)).and
    ((v.confined_snapshotCommit message).wp w)
  refine hrule.mono (fun _ _ => trivial) fun res w' hI hr => ?_
  obtain ⟨⟨hends, hstop⟩, -⟩ := hr
  have hwithin : Within HistoryFile w w' := hI.2
  -- the commit alone does not touch the books
  have hregistry : ∀ p, Registry p → w'.fs.lookup p = w.fs.lookup p :=
    fun p hp => hwithin.frame p hp.not_history
  refine ⟨hregistry _ (.inr (.inr (.inr rfl))), fun hdata' => ?_⟩
  obtain ⟨hcommits, htrees⟩ := separate_of_dataIn hS hdata hdata'
  have hretains := (hends.saved (snapshotPlan_tidy w.fs)).retains laws hcommits htrees
  obtain ⟨l, listed, hlisted⟩ := h.heads
  cases res with
  | error e =>
    have hroot := hstop e rfl
    exact ⟨h.keeps hretains (h.head.same hretains (eval_head_congr (hroot _ rfl)))
      ⟨l, listed, hlisted.same hroot⟩ (hroot _ rfl), fun c hc => by cases hc⟩
  | ok c =>
    have he := hends.1 c rfl
    obtain ⟨-, -, -, -, -, -, -, hhead, -⟩ := he.lookup (snapshotPlan_tidy w.fs)
    -- HEAD's tree again, or an empty one: the new HEAD is complete
    have hcomplete : Complete w'.fs c := by
      refine he.complete (snapshotPlan_tidy w.fs) ?_ ?_
      · rintro w₁ tree - ⟨-, rfl⟩
        exact Tree.all_new
      · rintro t ⟨c', k, hc', hk, rfl⟩
        obtain ⟨k', tr, hk', htr, hch⟩ := h.head c' hc'
        obtain rfl := Except.ok.inj (hk'.symm.trans hk)
        exact ⟨tr, htr, hch⟩
    refine ⟨h.keeps hretains (headComplete_of c hhead hcomplete) ⟨some c, listed, hhead, ?_⟩
      (hregistry _ (.inr (.inl rfl))), fun c' hc' => ?_⟩
    · exact (eval_listHeadsFileOnly_congr (he.lookup_heads hsnapHeads)).trans hlisted.listed
    · obtain rfl := Except.ok.inj hc'
      exact hhead

omit [Crates] in
/-- A step whose error is passed over: it may end with a value, or with an error that is no panic. -/
theorem wp_okOrNone {α : Type} {x : Action α} {I : VaultWorld → Prop}
    {P : Option α → VaultWorld → Prop} (horderly : wp env I x (fun res _ => Orderly res) w)
    (hsome : wp env I x (fun res w' => match res with
      | .ok a => P (some a) w'
      | .error _ => P none w') w) :
    wp env I (okOrNone x) (fun res w' => ∃ o, res = .ok o ∧ P o w') w := by
  refine wp_handle.2 ((horderly.and hsome).mono (fun _ h => h.1) fun res w' hI hr => ?_)
  rcases res with (e | _) | a
  · exact ⟨hI.1, none, rfl, hr.2⟩
  · exact absurd rfl hr.1
  · exact ⟨hI.1, some a, rfl, hr.2⟩

/-- The newest snapshot is at HEAD. -/
def Snapped (r : Nat) (names : List ContentHash) (c : ContentHash) (fs : VaultFs) : Prop :=
  Retained r names fs ∧ ReadM.eval fs head = .ok (some c)

/-- What is known after a snapshot was tried. -/
def SnappedIf (r : Nat) (names : List ContentHash) (res : Res ContentHash) (fs : VaultFs) : Prop :=
  match res with
  | .ok c => Snapped r (names ++ [c]) c fs
  | .error _ => Retained r names fs

theorem wp_loadPolicy_snapped (hjson : Crates.policyJson.RoundTrip) (h : Snapped r names c w.fs)
    (hpolicy : PolicyKeeps r w.fs) (config : VaultConfig) :
    wp env (fun _ => True) (loadPolicy config) (fun res w' => Snapped r names c w'.fs ∧
      PolicyKeeps r w'.fs ∧ ∀ policy, res = .ok policy → policy.Keeps r) w := by
  refine ((wp_loadPolicy_keeps hjson hpolicy config).and
    ((confined_loadPolicy_files config).wp w)).mono (fun _ _ => trivial)
    fun res w' hI h' => ⟨⟨h.1.frame hI.2 ?_, ?_⟩, h'.1⟩
  · rintro p (rfl | rfl) <;> decide
  · refine (eval_head_congr (hI.2.frame headFile ?_)).trans h.2
    decide

/-- What follows the commit of a snapshot. -/
def Vault.keepBooks (v : Vault) (commitHash : ContentHash) (message : String) :
    Action ContentHash := do
  let _ ← okOrNone (registerSnapshot commitHash message false)
  match ← okOrNone (loadPolicy v.config) with
  | some pol =>
      let _ ← okOrNone (applyRetention pol)
      return commitHash
  | none => return commitHash

theorem Vault.snapshot_eq (v : Vault) (message : String) :
    v.snapshot message = v.snapshotCommit message >>= fun c => v.keepBooks c message := rfl

theorem Vault.confined_keepBooks (v : Vault) (c : ContentHash) (message : String) :
    Confined Registry (v.keepBooks c message) := by
  refine Confined.bind (confined_okOrNone (confined_registerSnapshot c message false)) fun _ => ?_
  refine Confined.bind (confined_okOrNone (confined_loadPolicy v.config)) fun pol => ?_
  cases pol with
  | none => exact .done
  | some pol => exact Confined.bind (confined_okOrNone (confined_applyRetention pol)) fun _ => .done

/-- **The books of a snapshot**: HEAD is registered as the newest, and retention keeps the newest
`r`. -/
theorem Vault.wp_keepBooks_retained (hlog : Crates.snapshotsJson.RoundTrip)
    (hjson : Crates.policyJson.RoundTrip) (h : Retained r names w.fs)
    (hhead : ReadM.eval w.fs head = .ok (some c)) (hpolicy : PolicyKeeps r w.fs) (v : Vault)
    (message : String) : wp env (fun _ => True) (v.keepBooks c message)
      (fun res w' => res = .ok c ∧ Snapped r (names ++ [c]) c w'.fs) w := by
  unfold Vault.keepBooks
  -- registered
  refine wp_seq (wp_okOrNone (P := fun _ w₁ => Snapped r (names ++ [c]) c w₁.fs ∧ PolicyKeeps r w₁.fs)
    (wp_registerSnapshot_orderly c message false)
    ((wp_registerSnapshot_retained hlog h (h.head c hhead) message false).mono (fun _ h => h)
      fun res w₁ _ h₁ => ?_)) (fun _ w₁ _ h₁ => ?_) fun e w₁ _ h₁ => ?_
  · obtain ⟨rfl, h₁, hhead₁, hfile⟩ := h₁
    exact ⟨⟨h₁, hhead₁.trans hhead⟩, hpolicy.congr hfile⟩
  · obtain ⟨_, -, h₁, hpolicy₁⟩ := h₁
    -- the policy is read, or seeded
    refine wp_seq (wp_okOrNone (P := fun o w₂ => Snapped r (names ++ [c]) c w₂.fs ∧
        ∀ policy, o = some policy → policy.Keeps r) (wp_loadPolicy_orderly v.config)
      ((wp_loadPolicy_snapped hjson h₁ hpolicy₁ v.config).mono (fun _ h => h) fun res w₂ _ h₂ => ?_))
      (fun pol w₂ _ h₂ => ?_) fun e w₂ _ h₂ => ?_
    · cases res with
      | ok policy => exact ⟨h₂.1, fun p hp => h₂.2.2 p (congrArg Except.ok (Option.some.inj hp))⟩
      | error e => exact ⟨h₂.1, fun p hp => by cases hp⟩
    · obtain ⟨o, ho, h₂, hkeeps⟩ := h₂
      obtain rfl := Except.ok.inj ho
      cases pol with
      | none => exact ⟨trivial, rfl, h₂⟩
      | some pol =>
        -- retention
        refine wp_seq (wp_okOrNone (P := fun _ w₃ => Snapped r (names ++ [c]) c w₃.fs)
          (wp_applyRetention_orderly pol)
          ((wp_applyRetention_retained hlog h₂.1 (hkeeps pol rfl)).mono (fun _ h => h)
            fun res w₃ _ h₃ => ?_)) (fun _ w₃ _ h₃ => ?_) fun e w₃ _ h₃ => ?_
        · obtain ⟨⟨n, rfl⟩, h₃, hhead₃⟩ := h₃
          exact ⟨h₃, hhead₃.trans h₂.2⟩
        · obtain ⟨_, -, h₃⟩ := h₃
          exact ⟨trivial, rfl, h₃⟩
        · obtain ⟨_, he, -⟩ := h₃
          cases he
    · obtain ⟨_, he, -⟩ := h₂
      cases he
  · obtain ⟨_, he, -⟩ := h₁
    cases he

/-- **A snapshot** is registered as the newest, and its retention keeps the newest `r`. -/
theorem Vault.wp_snapshot_retained (laws : JsonLaws) (hlog : Crates.snapshotsJson.RoundTrip)
    (hjson : Crates.policyJson.RoundTrip) (hS : CollisionFree S) (h : Retained r names w.fs)
    (hpolicy : PolicyKeeps r w.fs) (hdata : DataIn S w.fs) (v : Vault) (message : String) :
    wp env (fun _ => True) (v.snapshot message) (fun res w' => DataIn S w'.fs →
      SnappedIf r names res w'.fs) w := by
  rw [v.snapshot_eq]
  refine wp_seq (v.wp_snapshotCommit_retained laws hS h hdata message) (fun c w₁ _ h₁ => ?_)
    fun e w₁ _ h₁ hd => (h₁.2 hd).1
  by_cases hd : DataIn S w₁.fs
  · obtain ⟨hretained, hhead⟩ := h₁.2 hd
    refine (v.wp_keepBooks_retained hlog hjson hretained (hhead c rfl) (hpolicy.congr h₁.1)
      message).mono (fun _ h => h) fun res w₂ _ h₂ _ => ?_
    obtain ⟨rfl, h₂⟩ := h₂
    exact h₂
  · -- the books are root files, so the data is still another
    refine ((v.confined_keepBooks c message).wp w₁).mono (fun _ _ => trivial)
      fun res w₂ hw _ hd' => absurd (hd'.before (hw.mono fun _ hp => hp.root)) hd

end Snapshots

/-! ## §5. The scheduler. -/

section Scheduler

variable [PolicyStateText] {r : Nat} {names : List ContentHash} {S : Bytes → Prop} {env : Outside}
  {w : VaultWorld} {policy : VaultPolicy} {c : ContentHash} {fs : VaultFs}

/-- The snapshot that was made, when one was. -/
def madeBy : Res (Option ContentHash) → List ContentHash
  | .ok (some c) => [c]
  | _ => []

omit [PolicyStateText] in
theorem Retained.unnamed (h : Retained r names fs) : Retained r (names ++ []) fs := by
  rwa [List.append_nil]

omit [PolicyStateText] in
/-- Registering the newest snapshot again changes nothing about the order. -/
theorem Retained.again (h : Retained r (names ++ [c] ++ [c]) fs) : Retained r (names ++ [c]) fs := by
  obtain ⟨hhead, hheads, log, hlog, hnewest, hcomplete⟩ := h
  refine ⟨hhead, hheads, log, hlog, ?_, hcomplete⟩
  rwa [Recency.order_concat (names ++ [c]), Recency.order_concat, Recency.touch_touch,
    ← Recency.order_concat] at hnewest

omit [Crates] in
theorem confined_saveState (state : PolicyState) :
    Confined (fun p => p = stateTmp ∨ p = statePath) (saveState state) :=
  confined_writeRename (.inl rfl) (.inr rfl)

theorem wp_saveState_retained (h : Retained r names w.fs) (state : PolicyState) :
    wp env (fun _ => True) (saveState state) (fun res w' => res = .ok () ∧ Retained r names w'.fs)
      w := by
  refine ((wp_saveState state).and ((confined_saveState state).wp w)).mono (fun _ _ => trivial)
    fun res w' hI h' => ⟨h'.1.1, h.frame hI.2 ?_⟩
  rintro p (rfl | rfl) <;> decide

/-- **An automatic snapshot** is the newest one; when none is due, nothing changes. -/
theorem Vault.wp_maybeAutoSnapshot_retained (laws : JsonLaws)
    (hlog : Crates.snapshotsJson.RoundTrip) (hjson : Crates.policyJson.RoundTrip)
    (hS : CollisionFree S) (h : Retained r names w.fs) (hpolicy : PolicyKeeps r w.fs)
    (hdata : DataIn S w.fs) (hkeeps : policy.Keeps r) (v : Vault) (messagePrefix : String) :
    wp env (fun _ => True) (v.maybeAutoSnapshot policy messagePrefix) (fun res w' =>
      DataIn S w'.fs → Retained r (names ++ madeBy res) w'.fs) w := by
  unfold Vault.maybeAutoSnapshot
  refine wp_read (x := loadState) trivial (fun s _ => ?_) fun e _ _ => h.unnamed
  refine wp_answer trivial ?_
  split
  next =>
    refine wp_read (x := head) trivial (fun l _ => ?_) fun e _ _ => h.unnamed
    cases l with
    | none => exact ⟨trivial, fun _ => h.unnamed⟩
    | some h₀ =>
      refine wp_seq (v.wp_snapshot_retained (w := w.asked) laws hlog hjson hS h hpolicy hdata _)
        (fun c w₁ _ h₁ => ?_) fun e w₁ _ h₁ hd => (h₁ hd).unnamed
      -- the data is known to be in `S` at the end only; the steps after the snapshot keep it
      by_cases hd : DataIn S w₁.fs
      · obtain ⟨hretained, hhead⟩ := h₁ hd
        refine wp_seq (wp_registerSnapshot_retained hlog hretained (hretained.head c hhead) _ true)
          (fun _ w₂ _ h₂ => ?_) fun e w₂ _ h₂ => ?_
        · refine wp_seq (wp_applyRetention_retained hlog h₂.2.1.again hkeeps) (fun _ w₃ _ h₃ => ?_)
            fun e w₃ _ h₃ => ?_
          · refine wp_seq (wp_saveState_retained h₃.2.1 _) (fun _ w₄ _ h₄ => ⟨trivial, fun _ => h₄.2⟩)
              fun e w₄ _ h₄ => ?_
            cases h₄.1
          · obtain ⟨⟨n, he⟩, -⟩ := h₃
            cases he
        · cases h₂.1
      · -- what follows the snapshot writes root files only
        have hrest : ∀ {α : Type} {x : Action α} (w₂ : VaultWorld),
            Confined (fun p => p.dir = .root) x → ¬DataIn S w₂.fs →
              wp env (fun _ => True) x (fun _ w₃ => ¬DataIn S w₃.fs) w₂ := fun w₂ hx hno =>
          (hx.wp w₂).mono (fun _ _ => trivial) fun _ w₃ hw _ hd' => hno (hd'.before hw)
        refine wp_seq (hrest w₁ ((confined_registerSnapshot c _ true).mono fun _ hp => hp.root) hd)
          (fun _ w₂ _ h₂ => ?_) fun e w₂ _ h₂ hd' => absurd hd' h₂
        refine wp_seq (hrest w₂ ((confined_applyRetention policy).mono fun _ hp => hp.root) h₂)
          (fun _ w₃ _ h₃ => ?_) fun e w₃ _ h₃ hd' => absurd hd' h₃
        refine wp_seq (hrest w₃ ((confined_saveState _).mono ?_) h₃)
          (fun _ w₄ _ h₄ => ⟨trivial, fun hd' => absurd hd' h₄⟩) fun e w₄ _ h₄ hd' => absurd hd' h₄
        rintro p (rfl | rfl) <;> rfl
  next => exact ⟨trivial, fun _ => h.unnamed⟩

omit [PolicyStateText] in
/-- Pins, retention and the collection of a tick. -/
theorem wp_tickUpkeep_retained (hlog : Crates.snapshotsJson.RoundTrip) (h : Retained r names w.fs)
    (hkeeps : policy.Keeps r) (name : String) (taken : Option ContentHash) :
    wp env (fun _ => True) (tickUpkeep name policy taken)
      (fun _ w' => Retained r names w'.fs) w := by
  have hgc : ∀ w₁ : VaultWorld, Retained r names w₁.fs → wp env (fun _ => True) (okOrNone gcAll)
      (fun _ w₂ => Retained r names w₂.fs) w₁ := by
    intro w₁ h₁
    refine wp_handle.2 ((wp_gcAll_retained h₁).mono (fun _ h => h) fun res w₂ _ h₂ => ?_)
    rcases res with (e | _) | n <;> exact ⟨trivial, h₂⟩
  unfold tickUpkeep
  refine wp_seq (R := fun _ w' => Retained r names w'.fs) ((confined_ensureLocalPins.wp w).mono
    (fun _ _ => trivial) fun _ w₁ hw _ => h.frame hw ?_) (fun pins w₁ _ h₁ => ?_) fun e w₁ _ h₁ => h₁
  · rintro p (rfl | rfl) <;> decide
  · refine wp_seq (wp_applyRetention_retained hlog h₁ hkeeps) (fun pruned w₂ _ h₂ => ?_)
      fun e w₂ _ h₂ => h₂.2.1
    split
    next => exact wp_seq (hgc w₂ h₂.2.1) (fun n w₃ _ h₃ => ⟨trivial, h₃⟩) fun e w₃ _ h₃ => h₃
    next => exact ⟨trivial, h₂.2.1⟩

/-- **A tick** makes what its snapshot part makes. -/
theorem Vault.runTick_retained (laws : JsonLaws) (hlog : Crates.snapshotsJson.RoundTrip)
    (hjson : Crates.policyJson.RoundTrip) (hS : CollisionFree S) (h : Retained r names w.fs)
    (hpolicy : PolicyKeeps r w.fs) (hdata : DataIn S w.fs) (hkeeps : policy.Keeps r) (v : Vault)
    (name : String)
    (hdata' : DataIn S (run env (v.maybeAutoSnapshot policy "scheduled") w).2.fs) :
    Retained r (names ++ madeBy (run env (v.maybeAutoSnapshot policy "scheduled") w).1)
      (run env (v.runTick name policy) w).2.fs := by
  have hauto : wp env (fun _ => True) (v.maybeAutoSnapshot policy "scheduled") _ w :=
    v.wp_maybeAutoSnapshot_retained laws hlog hjson hS h hpolicy hdata hkeeps "scheduled"
  have hrule := hauto.post hdata'
  have hends : wp env (fun _ => True) (v.maybeAutoSnapshot policy "scheduled") (fun _ w₁ =>
      w₁ = (run env (v.maybeAutoSnapshot policy "scheduled") w).2) w :=
    wp_iff.2 ⟨fun _ _ => trivial, rfl⟩
  have htick : wp env (fun _ => True) (v.runTick name policy) (fun _ w' =>
      Retained r (names ++ madeBy (run env (v.maybeAutoSnapshot policy "scheduled") w).1) w'.fs)
      w := by
    unfold Vault.runTick
    refine wp_seq hends (fun taken w₁ _ h₁ => ?_) fun e w₁ _ h₁ => h₁ ▸ hrule
    exact wp_tickUpkeep_retained hlog (h₁ ▸ hrule) hkeeps name taken
  exact htick.post

/-- **A forced snapshot** is the newest one, too. -/
theorem Vault.wp_forceAutoSnapshot_retained (laws : JsonLaws)
    (hlog : Crates.snapshotsJson.RoundTrip) (hjson : Crates.policyJson.RoundTrip)
    (hS : CollisionFree S) (h : Retained r names w.fs) (hpolicy : PolicyKeeps r w.fs)
    (hdata : DataIn S w.fs) (v : Vault) (message : String) :
    wp env (fun _ => True) (v.forceAutoSnapshot message) (fun res w' =>
      DataIn S w'.fs → Retained r (names ++ madeBy (res.map some)) w'.fs) w := by
  unfold Vault.forceAutoSnapshot
  have hload : wp env (fun _ => True) (loadPolicy v.config) (fun res w₁ =>
      Retained r names w₁.fs ∧ DataIn S w₁.fs ∧ PolicyKeeps r w₁.fs ∧
        ∀ policy, res = .ok policy → policy.Keeps r) w := by
    refine ((wp_loadPolicy_keeps hjson hpolicy v.config).and
      ((confined_loadPolicy_files v.config).wp w)).mono (fun _ _ => trivial)
      fun res w₁ hI h₁ => ⟨h.frame hI.2 ?_, hdata.congr fun p hp => hI.2.frame p ?_, h₁.1⟩
    · rintro p (rfl | rfl) <;> decide
    · rintro (rfl | rfl) <;> rcases hp with hp | hp <;> cases hp
  refine wp_seq hload (fun policy w₁ _ h₁ => ?_) fun e w₁ _ h₁ _ => h₁.1.unnamed
  obtain ⟨h₁, hdata₁, hpolicy₁, hkeeps⟩ := h₁
  have hkeeps := hkeeps policy rfl
  refine wp_read (x := loadState) trivial (fun s _ => ?_) fun e _ _ => h₁.unnamed
  refine wp_read (x := head) trivial (fun l _ => ?_) fun e _ _ => h₁.unnamed
  cases l with
  | none => exact ⟨trivial, fun _ => h₁.unnamed⟩
  | some h₀ =>
    refine wp_seq (v.wp_snapshot_retained laws hlog hjson hS h₁ hpolicy₁ hdata₁ message)
      (fun c w₂ _ h₂ => ?_) fun e w₂ _ h₂ hd => (h₂ hd).unnamed
    by_cases hd : DataIn S w₂.fs
    · refine wp_seq (wp_applyRetention_retained hlog (h₂ hd).1 hkeeps) (fun _ w₃ _ h₃ => ?_)
        fun e w₃ _ h₃ => ?_
      · refine wp_answer trivial ?_
        refine wp_seq (wp_saveState_retained (w := w₃.asked) h₃.2.1 _)
          (fun _ w₄ _ h₄ => ⟨trivial, fun _ => h₄.2⟩) fun e w₄ _ h₄ => ?_
        cases h₄.1
      · obtain ⟨⟨n, he⟩, -⟩ := h₃
        cases he
    · have hrest : ∀ {α : Type} {x : Action α} (w₃ : VaultWorld),
          Confined (fun p => p.dir = .root) x → ¬DataIn S w₃.fs →
            wp env (fun _ => True) x (fun _ w₄ => ¬DataIn S w₄.fs) w₃ := fun w₃ hx hno =>
        (hx.wp w₃).mono (fun _ _ => trivial) fun _ w₄ hw _ hd' => hno (hd'.before hw)
      refine wp_seq (hrest w₂ ((confined_applyRetention policy).mono fun _ hp => hp.root) hd)
        (fun _ w₃ _ h₃ => wp_answer trivial ?_) fun e w₃ _ h₃ hd' => absurd hd' h₃
      refine wp_seq (hrest w₃.asked ((confined_saveState _).mono ?_) h₃)
        (fun _ w₄ _ h₄ => ⟨trivial, fun hd' => absurd hd' h₄⟩) fun e w₄ _ h₄ hd' => absurd hd' h₄
      rintro p (rfl | rfl) <;> rfl

end Scheduler

/-! ## §6. Commands. -/

section Commands

variable {r : Nat} {names : List ContentHash} {S : Bytes → Prop} {fs : VaultFs}

/-- A command but a collection loses nothing. -/
theorem Command.retains (laws : JsonLaws) (hS : CollisionFree S) (v : Vault) (env : Outside)
    (cmd : Command) (hgc : cmd ≠ .gcAll) (hdata : DataIn S fs) (hdata' : DataIn S (cmd.after v env fs))
    (hserved : ∀ b, Served env b → S b) : Retains fs (cmd.after v env fs) := by
  obtain ⟨hc, ht⟩ := separate_of_dataIn hS hdata hdata'
  cases cmd with
  | addPath source baseName =>
    exact ((addPath_ends v env fs source baseName).saved
      (addPlan_tidy v source baseName fs)).retains laws hc ht
  | snapshot message =>
    exact ((snapshot_ends v env fs message).saved (snapshotPlan_tidy fs)).retains laws hc ht
  | mergeHead remoteHead label =>
    exact ((mergeHead_ends v env fs remoteHead label).saved
      (mergePlan_tidy remoteHead label fs)).retains laws hc ht
  -- each import is refused, or puts one file where its kind stores it
  | importCommit hash data =>
    show Retains fs (run env (commitKind.importBytes hash data) (World.boot fs)).2.fs
    have hc : commitKind.Separate fs
      (run env (commitKind.importBytes hash data) (World.boot fs)).2.fs := hc
    rcases importBytes_ends commitKind env fs hash data with hw | ⟨x, hx, hw⟩
    · rw [hw]
      exact retains_of_eq fun _ _ => rfl
    · rw [hw] at hc ⊢
      exact retains_importCommit (w := World.boot fs) laws hx hc
  | importTree hash data =>
    show Retains fs (run env (treeKind.importBytes hash data) (World.boot fs)).2.fs
    have ht : treeKind.Separate fs
      (run env (treeKind.importBytes hash data) (World.boot fs)).2.fs := ht
    rcases importBytes_ends treeKind env fs hash data with hw | ⟨x, hx, hw⟩
    · rw [hw]
      exact retains_of_eq fun _ _ => rfl
    · rw [hw] at ht ⊢
      exact retains_importTree (w := World.boot fs) laws hx ht
  | importChunk hash data =>
    -- a chunk file is neither a commit nor a tree
    have ha := importStoredChunk_ends env fs hash data
    refine .mk' (ObjectKind.persists_of_eq fun p hp => ?_)
      (ObjectKind.persists_of_eq fun p hp => ?_) fun ch hch => ha.mem hch
    · exact ha.other (by simp [hp, commitKind])
    · exact ha.other (by simp [hp, treeKind])
  | fetchDag peers target adopt =>
    exact fetchDag_retains env fs peers target adopt (hS.mono hserved)
  | setHeadPublic c =>
    show Retains fs (run env (Soal.setHeadPublic c) (World.boot fs)).2.fs
    -- only HEAD and HEADS are written
    rcases setHeadPublic_ends env fs c with hw | ⟨-, -, hl⟩
    · rw [hw]
      exact retains_of_eq fun _ _ => rfl
    · refine retains_of_eq fun p hp => hl p ?_
      rcases hp with hp | hp | hp <;> rw [hp] <;> decide
  | setDivergentHead c =>
    refine retains_of_eq fun p hp => (setDivergentHead_ends env fs c).1 p ?_
    rcases hp with hp | hp | hp <;> rw [hp] <;> decide
  | gcAll => exact absurd rfl hgc

/-- HEAD and HEADS stay readable. -/
theorem Command.readable (v : Vault) (env : Outside) (cmd : Command)
    (h : ∃ l listed, HeadsAre fs l listed) : ∃ l listed, HeadsAre (cmd.after v env fs) l listed := by
  obtain ⟨l, listed, hheads⟩ := h
  -- where nothing in the root directory changed the heads are as they were
  have hsame : ∀ w' : VaultWorld, RootSame (World.boot fs) w' → ∃ l listed, HeadsAre w'.fs l listed :=
    fun w' hw => ⟨l, listed, HeadsAre.same (w := World.boot fs) hheads hw⟩
  have hbelow : ∀ {α : Type} {x : Action α}, Confined BelowRoot x →
      RootSame (World.boot fs) (run env x (World.boot fs)).2 := fun hx =>
    .within ((hx.wp (World.boot fs)).crash (.final env _ _)) fun _ hp => hp
  cases cmd with
  | addPath source baseName =>
    have hrule : wp env (fun _ => True) (v.addPath source baseName) _ (World.boot fs) :=
      wp_addPath_stop v source baseName
    cases hr : (run env (v.addPath source baseName) (World.boot fs)).1 with
    | error e => exact hsame _ (hrule.post e hr)
    | ok m =>
      -- HEAD is the new commit, HEADS is not touched
      have he := (addPath_ends v env fs source baseName).1 m hr
      obtain ⟨-, -, -, -, -, -, -, hhead, -⟩ := he.lookup (addPlan_tidy v source baseName fs)
      exact ⟨some m, listed, hhead,
        (eval_listHeadsFileOnly_congr (he.lookup_heads id)).trans hheads.listed⟩
  | snapshot message =>
    have hrule : wp env (fun _ => True) (v.snapshot message) _ (World.boot fs) :=
      wp_snapshot_extended v message
    have hends := hrule.post
    cases hr : (run env (v.snapshotCommit message) (World.boot fs)).1 with
    | error e =>
      rw [hr] at hends
      exact hsame _ hends
    | ok m =>
      rw [hr] at hends
      obtain ⟨-, -, -, -, -, -, -, hhead, -⟩ := hends.lookup (snapshotPlan_tidy fs)
      refine ⟨some m, listed, hhead,
        (eval_listHeadsFileOnly_congr (hends.lookup_heads ?_)).trans hheads.listed⟩
      show ¬Registry headsFile
      unfold Registry
      decide
  | mergeHead remoteHead label =>
    have hrule : wp env (fun _ => True) (v.mergeHead remoteHead label) _ (World.boot fs) :=
      wp_mergeHead_stop v remoteHead label
    cases hr : (run env (v.mergeHead remoteHead label) (World.boot fs)).1 with
    | error e => exact hsame _ (hrule.post e hr)
    | ok out =>
      obtain ⟨m, n⟩ := out
      -- HEADS lists the merge alone
      obtain ⟨_, -, hcol⟩ := (v.wp_mergeHead env remoteHead label (World.boot fs)).post m n hr
      exact ⟨some m, {m}, hcol.head, hcol.heads⟩
  | importCommit hash data =>
    exact hsame _ (hbelow (confined_importBytes commitKind hash data
      (by simp [BelowRoot, commitKind]) (by simp [BelowRoot, commitKind])))
  | importTree hash data =>
    exact hsame _ (hbelow (confined_importBytes treeKind hash data
      (by simp [BelowRoot, treeKind]) (by simp [BelowRoot, treeKind])))
  | importChunk hash data =>
    exact hsame _ fun p hp => (importStoredChunk_ends env fs hash data).other (by rw [hp]; decide)
  | fetchDag peers target adopt =>
    have hrule : wp env (fun _ => True) (Soal.fetchDag peers target adopt) _ (World.boot fs) :=
      wp_fetchDag_landed (World.boot fs)
    -- a sync ends with the heads as they were, or with the target adopted
    have hland : ∃ b, Landed target (World.boot fs)
        (run env (Soal.fetchDag peers target adopt) (World.boot fs)).2 b := by
      cases hr : (run env (Soal.fetchDag peers target adopt) (World.boot fs)).1 with
      | error e => exact ⟨_, hrule.post.1 e hr⟩
      | ok a => exact ⟨_, hrule.post.2 a hr⟩
    obtain ⟨b, hland⟩ := hland
    rcases hland.heads hheads with hw | ⟨-, hnow⟩
    · exact hsame _ hw
    · exact ⟨_, _, hnow⟩
  | setHeadPublic c =>
    have hrule : wp env (fun _ => True) (Soal.setHeadPublic c) _ (World.boot fs) :=
      wp_setHeadPublic_heads hheads c
    rcases hrule.post with ⟨-, hw⟩ | ⟨-, hnow⟩
    · exact hsame _ hw
    · exact ⟨_, _, hnow⟩
  | setDivergentHead c =>
    have hrule : wp env (fun _ => True) (Soal.setDivergentHead c) _ (World.boot fs) :=
      wp_setDivergentHead_heads hheads c
    rcases hrule.post with ⟨-, hw⟩ | ⟨-, hnow⟩
    · exact hsame _ hw
    · exact ⟨_, _, hnow⟩
  | gcAll =>
    show ∃ l listed, HeadsAre (run env Soal.gcAll (World.boot fs)).2.fs l listed
    rcases (wp_gcAll env (World.boot fs)).post with ⟨e, -, hw, -⟩ | ⟨n, -, -, hsw⟩
    · rw [hw]
      exact ⟨l, listed, hheads⟩
    · -- a sweep deletes no file of the root directory
      exact ⟨l, listed, hheads.congr (hsw.kept headFile (not_garbage_root rfl))
        (hsw.kept headsFile (not_garbage_root rfl))⟩

/-- What a command adds to the snapshots. -/
def Command.snapshots (v : Vault) (env : Outside) (fs : VaultFs) : Command → List ContentHash
  | .snapshot message => madeBy ((run env (v.snapshot message) (World.boot fs)).1.map some)
  | _ => []

/-- **A command** that leaves a complete HEAD keeps what is retained. -/
theorem Retained.command (laws : JsonLaws) (hlog : Crates.snapshotsJson.RoundTrip)
    (hjson : Crates.policyJson.RoundTrip) (hS : CollisionFree S) (h : Retained r names fs)
    (v : Vault) (env : Outside) (cmd : Command)
    (hpolicy : ∀ message, cmd = .snapshot message → PolicyKeeps r fs) (hsafe : cmd.KeepsHead fs) (hdata : DataIn S fs) (hdata' : DataIn S (cmd.after v env fs))
    (hserved : ∀ b, Served env b → S b) :
    Retained r (names ++ cmd.snapshots v env fs) (cmd.after v env fs) := by
  by_cases hsnap : ∃ message, cmd = .snapshot message
  · obtain ⟨message, rfl⟩ := hsnap
    have hrule : wp env (fun _ => True) (v.snapshot message) _ (World.boot fs) :=
      v.wp_snapshot_retained laws hlog hjson hS h (hpolicy message rfl) hdata message
    have hafter := hrule.post hdata'
    show Retained r (names ++ madeBy ((run env (v.snapshot message) (World.boot fs)).1.map some))
      (run env (v.snapshot message) (World.boot fs)).2.fs
    cases hr : (run env (v.snapshot message) (World.boot fs)).1 with
    | error e =>
      rw [hr] at hafter
      exact Retained.unnamed hafter
    | ok c =>
      rw [hr] at hafter
      exact hafter.1
  · have hno : ∀ message, cmd ≠ .snapshot message := fun message hm => hsnap ⟨message, hm⟩
    have hnone : cmd.snapshots v env fs = [] := by
      cases cmd with
      | snapshot message => exact absurd rfl (hno message)
      | _ => rfl
    rw [hnone, List.append_nil]
    by_cases hgc : cmd = .gcAll
    · subst hgc
      have hrule : wp env (fun _ => True) gcAll _ (World.boot fs) := wp_gcAll_retained h
      exact hrule.post
    · refine h.keeps (cmd.retains laws hS v env hgc hdata hdata' hserved) ?_ (cmd.readable v env h.heads)
        (cmd.frame_history v env fs hno (Registry.not_history (.inr (.inl rfl))))
      exact h.head.step laws hS (.mk v env cmd hsafe hdata hdata' hserved)

end Commands

/-! ## §7. Runs. -/

section Run

variable [PolicyStateText] {r : Nat} {S : Bytes → Prop} {fs : VaultFs}

/-- A vault directory, and the snapshots that were made in it, oldest first. -/
structure Retaining where
  disk : VaultFs
  names : List ContentHash

/-- After one event. -/
def Retaining.after (s : Retaining) : TickEvent → Retaining
  | .tick v env name policy =>
    { disk := (run env (v.runTick name policy) (World.boot s.disk)).2.fs
      names := s.names ++
        madeBy (run env (v.maybeAutoSnapshot policy "scheduled") (World.boot s.disk)).1 }
  | .force v env message =>
    { disk := (run env (v.forceAutoSnapshot message) (World.boot s.disk)).2.fs
      names := s.names ++
        madeBy ((run env (v.forceAutoSnapshot message) (World.boot s.disk)).1.map some) }
  | .command v env cmd =>
    { disk := cmd.after v env s.disk
      names := s.names ++ cmd.snapshots v env s.disk }
  | .other disk => { s with disk }

theorem Retaining.after_disk (s : Retaining) (v : Vault) (env : Outside) (cmd : Command) :
    (s.after (.command v env cmd)).disk = cmd.after v env s.disk := rfl

/-- Policies keep at least `r` snapshots, commands leave a complete HEAD, and the data that is loaded
is in `S`.  Anything else leaves the objects, the heads and the registry alone. -/
def TickEvent.Retains (r : Nat) (S : Bytes → Prop) (s : Retaining) : TickEvent → Prop
  | .tick v env _ policy => policy.Keeps r ∧ PolicyKeeps r s.disk ∧ DataIn S s.disk ∧
      DataIn S (run env (v.maybeAutoSnapshot policy "scheduled") (World.boot s.disk)).2.fs
  | .force v env message => PolicyKeeps r s.disk ∧ DataIn S s.disk ∧
      DataIn S (run env (v.forceAutoSnapshot message) (World.boot s.disk)).2.fs
  | .command v env cmd => (∀ message, cmd = .snapshot message → PolicyKeeps r s.disk) ∧
      cmd.KeepsHead s.disk ∧ DataIn S s.disk ∧ DataIn S (cmd.after v env s.disk) ∧
      ∀ b, Served env b → S b
  | .other disk => ∀ p : FilePath VaultDir,
      p.dir ≠ .root ∨ p = headFile ∨ p = headsFile ∨ p = snapshotsPath →
        disk.lookup p = s.disk.lookup p

/-- The registry is an end of the snapshots, by the last time each was made; the newest `r` are in it;
and every commit in it is complete. -/
def NewestRestorable (r : Nat) (s : Retaining) : Prop :=
  ∃ log, ReadM.eval s.disk loadSnapshots = .ok log ∧
    log.hashes <:+ (order s.names).map ContentHash.toHex ∧
    (∀ c ∈ newest r (order s.names), c.toHex ∈ log.hashes) ∧
    ∀ c : ContentHash, c.toHex ∈ log.hashes → ReadM.eval s.disk (isComplete c) = .ok true

omit [PolicyStateText] in
theorem Fresh.retained (h : Fresh fs) : Retained r [] fs := by
  refine ⟨fun c hc => ?_, ⟨none, ∅, h.head, ?_⟩, ⟨[]⟩, ?_, ⟨List.suffix_refl [], min_le_right _ _⟩,
    fun c hc => absurd hc List.not_mem_nil⟩
  · cases h.head.symm.trans hc
  · exact eval_listHeadsFileOnly_absent fun hm => (h _ hm).2.2.1 rfl
  · exact eval_loadSnapshots_absent fun hm => (h _ hm).2.2.2 rfl

omit [PolicyStateText] in
theorem Retained.restorable {s : Retaining} (h : Retained r s.names s.disk) :
    NewestRestorable r s := by
  obtain ⟨log, hlog, hnewest, hcomplete⟩ := h.registry
  refine ⟨log, hlog, hnewest.suffix, fun c hc => hnewest.mem ?_,
    fun c hc => eval_isComplete_iff.2 (hcomplete c hc)⟩
  rw [← Recency.map_newest]
  exact List.mem_map_of_mem hc

/-- **One event.** -/
theorem Retained.step (laws : JsonLaws) (hlog : Crates.snapshotsJson.RoundTrip)
    (hjson : Crates.policyJson.RoundTrip) (hS : CollisionFree S) {s : Retaining} {e : TickEvent}
    (he : e.Retains r S s) (h : Retained r s.names s.disk) :
    Retained r (s.after e).names (s.after e).disk := by
  cases e with
  | tick v env name policy =>
    obtain ⟨hkeeps, hpolicy, hdata, hdata'⟩ := he
    exact v.runTick_retained (w := World.boot s.disk) laws hlog hjson hS h hpolicy hdata hkeeps name
      hdata'
  | force v env message =>
    obtain ⟨hpolicy, hdata, hdata'⟩ := he
    have hrule : wp env (fun _ => True) (v.forceAutoSnapshot message) _ (World.boot s.disk) :=
      v.wp_forceAutoSnapshot_retained laws hlog hjson hS h hpolicy hdata message
    exact hrule.post hdata'
  | command v env cmd =>
    obtain ⟨hpolicy, hsafe, hdata, hdata', hserved⟩ := he
    exact h.command laws hlog hjson hS v env cmd hpolicy hsafe hdata hdata' hserved
  | other disk =>
    have hobjects : ∀ p : FilePath VaultDir, p.dir = .commits ∨ p.dir = .trees ∨ p.dir = .chunks →
        disk.lookup p = s.disk.lookup p := by
      intro p hp
      refine he p (.inl ?_)
      rcases hp with hp | hp | hp <;> rw [hp] <;> decide
    have hhead := he headFile (.inr (.inl rfl))
    obtain ⟨l, listed, hlisted⟩ := h.heads
    exact h.keeps (retains_of_eq hobjects) (h.head.same (retains_of_eq hobjects) (eval_head_congr hhead))
      ⟨l, listed, hlisted.congr hhead (he headsFile (.inr (.inr (.inl rfl))))⟩
      (he snapshotsPath (.inr (.inr (.inr rfl))))

/-- **The newest snapshots can always be restored.**  In every state of every run from a fresh
directory, the newest `r` snapshots are registered, and every registered commit is complete. -/
theorem newest_snapshots_retained (laws : JsonLaws) (hlog : Crates.snapshotsJson.RoundTrip)
    (hjson : Crates.policyJson.RoundTrip) (hS : CollisionFree S) (hfresh : Fresh fs)
    (es : List TickEvent) (hes : Each Retaining.after (fun s e => e.Retains r S s) ⟨fs, []⟩ es) :
    Trace.Always Retaining.after (NewestRestorable r) ⟨fs, []⟩ es := by
  have hrun : Trace.Always Retaining.after (fun s => Retained r s.names s.disk) ⟨fs, []⟩ es :=
    Trace.always_of_each (fun s e he hs => hs.step laws hlog hjson hS he) hes hfresh.retained
  exact hrun.mono fun s hs => hs.restorable

end Run

end Model

/-! ## §8. A snapshot and a collection. -/

section Sample

attribute [local instance] sample sampleStateText

/-- The wire form of a first snapshot. -/
noncomputable def wireS : Bytes := plainWire localAuthorHash (openingCommit (quiet 0) "a")

theorem encodeS : encodeCommitWire (openingCommit (quiet 0) "a") = .ok wireS := by
  refine encodeCommitWire_plain ?_ rfl rfl (by decide) (by decide +kernel)
  have hnot : ContentHash.fromHex "soal-local" = fail .invalidHash := by decide
  unfold authorToBytes
  rw [show (openingCommit (quiet 0) "a").author = "soal-local" from rfl, hnot]
  show sampleDigest (Text.toUtf8 "soal-author:" ++ Text.toUtf8 "soal-local") = localAuthorHash
  decide

/-- Its tree and its commit. -/
def SnapshotData (b : Bytes) : Prop := b ∈ [wireE, wireS]

theorem snapshotData_collisionFree : CollisionFree SnapshotData := by
  have hnodup : ([wireE, wireS].map ContentHash.of).Nodup := by decide +kernel
  exact fun a b ha hb h => List.inj_on_of_nodup_map hnodup ha hb h

theorem sample_policyJson : Crates.policyJson.RoundTrip :=
  SerdeJson.ofPrinter_roundTrip fun _ _ h => codeText_injective (String.ofList_inj.1 h)

/-- After the snapshot. -/
noncomputable def snappedDisk : VaultFs := (Command.snapshot "a").after plainVault (quiet 0) ∅

theorem snapped_files : ObjectsIn SnapshotData snappedDisk := by
  intro p b hp hl
  have hroot : p.dir ≠ .root := by rcases hp with hp | hp <;> rw [hp] <;> decide
  have hv : plainVault.soalHome = none := rfl
  have hrule : wp (quiet 0) (fun _ => True) (plainVault.snapshot "a") _ (World.boot (∅ : VaultFs)) :=
    wp_snapshot_returns (run_snapshotCommit_first hv encodeS)
  have hframe := hrule.post.2.frame p fun hreg => hroot hreg.root
  have hl := hframe.symm.trans hl
  rw [lookup_committed (by rintro rfl; exact hroot rfl)] at hl
  split at hl
  next => simp [SnapshotData, Option.some.inj hl]
  next =>
    rw [World.asked_fs, World.lookup_written] at hl
    split at hl
    next => simp [SnapshotData, Option.some.inj hl]
    next => cases hl

theorem snappedDisk_eq : snappedDisk = (Command.snapshot "a").after plainVault (quiet 0) ∅ := rfl

attribute [local irreducible] snappedDisk

/-- The rule over a snapshot and a collection. -/
theorem snapshot_then_gc_retained : Trace.Always Retaining.after (NewestRestorable 1) ⟨∅, []⟩
    [.command plainVault (quiet 0) (.snapshot "a"), .command plainVault (quiet 0) .gcAll] := by
  have hserved : ∀ b, Served (quiet 0) b → SnapshotData b :=
    fun b hb => absurd hb (not_served_quiet 0 b)
  have hfirst : DataIn SnapshotData snappedDisk := snapped_files.dataIn sample_noJson
  have hlast : DataIn SnapshotData (Command.gcAll.after plainVault (quiet 0) snappedDisk) := by
    rcases (wp_gcAll (quiet 0) (World.boot snappedDisk)).post with ⟨e, -, hw, -⟩ | ⟨n, -, -, hsw⟩
    · show DataIn SnapshotData (run (quiet 0) gcAll (World.boot snappedDisk)).2.fs
      rw [hw]
      exact hfirst
    · refine ObjectsIn.dataIn (fun p b hp hl => snapped_files p b hp ?_) sample_noJson
      have hm := Fs.mem_iff_lookup.2 ⟨b, hl⟩
      by_cases hd : Garbage snappedDisk p
      · exact absurd hm (hsw.gone p hd)
      · exact (hsw.kept p hd).symm.trans hl
  rw [snappedDisk_eq] at hfirst hlast
  have hpolicy : PolicyKeeps 1 ∅ := by
    intro s policy hs
    rw [eval_readToString_none (AList.lookup_empty _)] at hs
    cases hs
  refine newest_snapshots_retained sample_jsonLaws (standIn_snapshotsJson sampleDigest) sample_policyJson
    snapshotData_collisionFree empty_fresh _ ⟨⟨fun _ _ => hpolicy, trivial, empty_fresh.dataIn, ?_,
      hserved⟩, ⟨fun _ h => (by cases h), trivial, ?_, ?_, hserved⟩, trivial⟩
  · exact hfirst
  · rw [Retaining.after_disk]
    exact hfirst
  · rw [Retaining.after_disk]
    exact hlast

end Sample

end Soal

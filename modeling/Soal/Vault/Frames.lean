/-
  Soal.Vault.Frames — which files each whole operation touches.

  Every operation keeps to the object directories, the job files, and a few files of the root
  directory: the heads, the snapshot registry, the policy and the pins.  So the state of the scheduler
  and the config stay as they are, whatever replies the operations get and however they end.
-/
import Soal.Schedule
import Soal.Sync.Adoption

namespace Soal

open FileProg

/-- The objects, the jobs and the heads. -/
def HistoryFile (p : FilePath VaultDir) : Prop := BelowRoot p ∨ p = headFile ∨ p = headsFile

theorem HistoryFile.below {p : FilePath VaultDir} (h : BelowRoot p) : HistoryFile p := .inl h

theorem HistoryFile.head : HistoryFile headFile := .inr (.inl rfl)

theorem HistoryFile.heads : HistoryFile headsFile := .inr (.inr rfl)

/-- The files that the operations on a vault write. -/
def VaultFile (p : FilePath VaultDir) : Prop :=
  HistoryFile p ∨ Registry p ∨ p = pinsPath ∨ p = pinsTmp

theorem VaultFile.history {p : FilePath VaultDir} (h : HistoryFile p) : VaultFile p := .inl h

theorem VaultFile.registry {p : FilePath VaultDir} (h : Registry p) : VaultFile p := .inr (.inl h)

theorem VaultFile.pins {p : FilePath VaultDir} (h : p = pinsPath ∨ p = pinsTmp) : VaultFile p :=
  .inr (.inr h)

/-- The files of the scheduler are none of them. -/
theorem not_vaultFile_state : ¬VaultFile statePath ∧ ¬VaultFile stateTmp := by
  unfold VaultFile HistoryFile Registry
  decide

/-- The books of the snapshots are no part of the history. -/
theorem Registry.not_history {p : FilePath VaultDir} (h : Registry p) : ¬HistoryFile p := by
  unfold HistoryFile
  rcases h with rfl | rfl | rfl | rfl <;> decide

section Model

variable [Crates] {D : FilePath VaultDir → Prop}

/-! ## §1. The parts of an operation. -/

theorem confined_save {α : Type} {K : ObjectKind α} {x : α} (h : ∀ c, D (K.pathBin c)) :
    Confined D (K.save x) :=
  Confined.bind .done fun _ => Confined.bind .done fun _ => Confined.bind (.writeFile (h _)) fun _ => .done

theorem Vault.confined_makeCommit (v : Vault) (tree : ContentHash) (parents : List ContentHash)
    (message : String) : Confined D (v.makeCommit tree parents message) := by
  refine Confined.bind ?_ fun author => Confined.bind (.ask _) fun now => ?_
  · unfold Vault.localAuthor
    split
    next => exact Confined.bind (Confined.bind (.ask _) fun _ => .done) fun _ => .done
    next => exact .done
  · unfold Vault.signLocally
    split
    next =>
      refine Confined.bind (.ask _) fun sk => ?_
      split <;> exact .done
    next => exact .done

theorem Vault.confined_commitTree (v : Vault) (tree : ContentHash) (parents : List ContentHash)
    (message : String) : Confined HistoryFile (v.commitTree tree parents message) := by
  refine Confined.bind (v.confined_makeCommit tree parents message) fun commit => ?_
  refine Confined.bind (confined_save fun c => .below ?_) fun h => ?_
  · show VaultDir.commits ≠ .root
    decide
  · exact Confined.bind (.writeFile .head) fun _ => .done

theorem confined_saveTree (tree : Tree) : Confined HistoryFile (saveTree tree) := by
  refine confined_save fun c => .below ?_
  show VaultDir.trees ≠ .root
  decide

theorem confined_setHeadPublic (c : ContentHash) : Confined HistoryFile (setHeadPublic c) := by
  refine Confined.bind (.ofRead _) fun _ => Confined.bind (.writeFile .head) fun _ => ?_
  exact Confined.bind (.ofRead _) fun _ => .writeFile .heads

theorem confined_setDivergentHead (c : ContentHash) :
    Confined HistoryFile (setDivergentHead c) := by
  refine Confined.bind (.ofRead _) fun _ => ?_
  refine Confined.bind (Confined.bind (.ofRead _) fun _ => .writeFile .heads) fun _ => ?_
  refine Confined.bind (.ofRead _) fun l => ?_
  cases l with
  | none => exact .writeFile .head
  | some h => exact .done

theorem confined_importStoredChunk (hash : ContentHash) (data : Bytes) :
    Confined HistoryFile (importStoredChunk hash data) := by
  refine Confined.bind (confined_putVerified (.below ?_) (.below ?_)) fun _ => .done <;>
    simp [BelowRoot, chunkPath, chunkTmp]

omit [Crates] in
theorem confined_sweepChunks (live : Finset ContentHash) (hashes : List ContentHash) (n : Nat) :
    Confined (InDir .chunks) (sweepChunks live hashes n) := by
  induction hashes generalizing n with
  | nil => exact .done
  | cons h hs ih =>
    unfold sweepChunks
    split
    next => exact ih n
    next =>
      refine Confined.bind (.ofRead _) fun there => ?_
      split
      next => exact Confined.bind (confined_removeFile rfl) fun _ => ih (n + 1)
      next => exact ih n

omit [Crates] in
theorem confined_sweepObjects (live : Finset ContentHash) (dir : VaultDir) (names : List String)
    (n : Nat) : Confined (InDir dir) (sweepObjects live dir names n) := by
  induction names generalizing n with
  | nil => exact .done
  | cons name names ih =>
    unfold sweepObjects
    split
    next => exact ih n
    next =>
      split
      next => exact ih n
      next => exact Confined.bind (confined_removeFile rfl) fun _ => ih (n + 1)

/-! ## §2. The operations. -/

theorem Vault.confined_addPath (v : Vault) (source : Source) (baseName : String) :
    Confined HistoryFile (v.addPath source baseName) := by
  refine Confined.bind .done fun base => ?_
  refine Confined.bind ((v.addSource_confined base source).mono fun p hp => .below ?_) fun entries => ?_
  · simp [BelowRoot, hp]
  · split
    next => exact .done
    next =>
      refine Confined.bind (.ofRead _) fun tree => Confined.bind .done fun tree => ?_
      refine Confined.bind (confined_saveTree tree) fun t => Confined.bind (.ofRead _) fun parents => ?_
      exact v.confined_commitTree t parents.toList _

theorem Vault.confined_snapshotCommit (v : Vault) (message : String) :
    Confined HistoryFile (v.snapshotCommit message) := by
  refine Confined.bind (.ofRead _) fun l => ?_
  cases l with
  | some h => exact Confined.bind (.ofRead _) fun k => v.confined_commitTree _ _ _
  | none => exact Confined.bind (confined_saveTree _) fun t => v.confined_commitTree _ _ _

theorem Vault.confined_snapshot (v : Vault) (message : String) :
    Confined VaultFile (v.snapshot message) := by
  have hbooks : ∀ {α : Type} {x : Action α}, Confined Registry x → Confined VaultFile (okOrNone x) :=
    fun hx => (confined_okOrNone hx).mono fun _ => .registry
  refine Confined.bind ((v.confined_snapshotCommit message).mono fun _ => .history) fun c => ?_
  refine Confined.bind (hbooks (confined_registerSnapshot c message false)) fun _ => ?_
  refine Confined.bind (hbooks (confined_loadPolicy v.config)) fun pol => ?_
  cases pol with
  | none => exact .done
  | some pol => exact Confined.bind (hbooks (confined_applyRetention pol)) fun _ => .done

theorem Vault.confined_mergeHead (v : Vault) (remoteHead : ContentHash) (label : String) :
    Confined HistoryFile (v.mergeHead remoteHead label) := by
  refine Confined.bind (.ofRead _) fun _ => Confined.bind (.ofRead _) fun k => ?_
  refine Confined.bind (.ofRead _) fun theirs => Confined.bind (.ofRead _) fun l => ?_
  refine Confined.bind (.ofRead _) fun ours => ?_
  refine Confined.bind (confined_saveTree _) fun t => ?_
  refine Confined.bind (v.confined_commitTree _ _ _) fun c => ?_
  exact Confined.bind (.writeFile .heads) fun _ => .done

theorem confined_gcAll : Confined HistoryFile gcAll := by
  have hdir : ∀ d : VaultDir, d ≠ .root → ∀ p, InDir d p → HistoryFile p := by
    intro d hd p hp
    refine .below ?_
    show p.dir ≠ .root
    rw [hp]
    exact hd
  refine Confined.bind ?_ fun chunks => Confined.bind ?_ fun objects => .done
  · refine Confined.bind (.ofRead _) fun live => Confined.bind (.ofRead _) fun hashes => ?_
    exact (confined_sweepChunks live hashes 0).mono (hdir .chunks (by decide))
  · refine Confined.bind (.ofRead _) fun live => Confined.bind (.ofRead _) fun commits => ?_
    refine Confined.bind ((confined_sweepObjects live .commits commits 0).mono
      (hdir .commits (by decide))) fun _ => ?_
    refine Confined.bind (.ofRead _) fun trees => ?_
    exact Confined.bind ((confined_sweepObjects live .trees trees 0).mono
      (hdir .trees (by decide))) fun _ => .done

theorem confined_ensureLocalPins :
    Confined (fun p => p = pinsPath ∨ p = pinsTmp) ensureLocalPins := by
  refine Confined.bind (.ofRead _) fun live => Confined.bind (.ofRead _) fun pins => ?_
  refine Confined.bind (.ask _) fun now => Confined.bind ?_ fun _ => .done
  exact confined_writeRename (.inr rfl) (.inl rfl)

theorem confined_syncBody (peers : List String) (target : ContentHash) (adopt : Bool) :
    ∀ run, Confined HistoryFile (syncBody peers target adopt run) := by
  have hcheck : ∀ run, Confined HistoryFile (SyncM.checkpoint run) := fun run =>
    (belowRoot_of_jobs (confined_checkpoint run)).mono fun _ => .below
  -- the job is sealed in the same way whether or not the target was adopted
  have hseal : ∀ run, Confined HistoryFile ((do
      SyncM.setState .done
      SyncM.checkpoint
      let run ← SyncM.get
      return {
        target
        commitsImported := run.commitsImported
        treesImported := run.treesImported
        chunksImported := run.chunksImported
        headUpdated := adopt } : SyncM SyncResult) run) :=
    confined_bindM (fun _ => .done) fun _ => confined_bindM hcheck fun _ =>
      confined_bindM (fun _ => .done) fun _ _ => .done
  refine confined_bindM (fun run => (confined_syncWalk peers ∅ [target] run).mono fun _ => .below)
    fun _ => ?_
  refine confined_bindM (fun _ => .done) fun _ => confined_bindM hcheck fun _ => ?_
  refine confined_bindM (confined_attempt (.ofRead _)) fun complete => ?_
  cases complete with
  | false => exact fun _ => .done
  | true =>
    cases adopt with
    | false => exact hseal
    | true => exact confined_bindM (confined_attempt (confined_setHeadPublic target)) fun _ => hseal

theorem confined_fetchDag (peers : List String) (target : ContentHash) (adopt : Bool) :
    Confined HistoryFile (fetchDag peers target adopt) := by
  have hjob : ∀ job, Confined HistoryFile (persistJob job) := fun job =>
    (belowRoot_of_jobs (confined_persistJob job)).mono fun _ => .below
  unfold fetchDag
  split
  next => exact .done
  next =>
    refine Confined.bind (.ofRead _) fun complete => ?_
    cases complete with
    | true =>
      cases adopt with
      | false => exact .done
      | true => exact Confined.bind (confined_setHeadPublic target) fun _ => .done
    | false =>
      unfold fetchMissing
      refine Confined.bind ?_ fun job => Confined.bind (Confined.bind (.ask _) fun _ => .done) fun job => ?_
      · refine Confined.bind (.ofRead _) fun saved => ?_
        cases saved with
        | some job => exact .done
        | none => exact Confined.bind (.ask _) fun _ => Confined.bind (.ask _) fun _ => .done
      · refine Confined.bind (hjob job) fun _ => ?_
        refine Confined.bind (confined_syncBody peers target adopt _) fun out => ?_
        obtain ⟨e | a, run⟩ := out
        · refine Confined.bind (Confined.bind (.ask _) fun _ => .done) fun job => ?_
          exact Confined.bind (confined_okOrNone (hjob job)) fun _ => .done
        · exact .done

end Model

end Soal

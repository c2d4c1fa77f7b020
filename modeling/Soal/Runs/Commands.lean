/-
  Soal.Runs.Commands — whole runs: one command after another on one vault directory.

  A command runs to its end, with success or with an error; each is run by a process of its own, with
  its own vault handle and its own world outside.
-/
import Soal.Lib.Worklist
import Soal.Runs.Retain
import Soal.Vault.Keys
import Soal.Vault.MergeHeads

namespace Soal

open FileProg Worklist

section Model

variable [Crates]

/-! ## §1. Commands. -/

/-- The operations that write to a vault directory. -/
inductive Command where
  | addPath (source : Source) (baseName : String)
  | snapshot (message : String)
  | importCommit (hash : ContentHash) (data : Bytes)
  | importTree (hash : ContentHash) (data : Bytes)
  | importChunk (hash : ContentHash) (data : Bytes)
  | fetchDag (peers : List String) (target : ContentHash) (adopt : Bool)
  | mergeHead (remoteHead : ContentHash) (label : String)
  | setHeadPublic (c : ContentHash)
  | setDivergentHead (c : ContentHash)
  | gcAll

/-- The directory after a command. -/
def Command.after (v : Vault) (env : Outside) (fs : VaultFs) : Command → VaultFs
  | .addPath source baseName => (run env (v.addPath source baseName) (World.boot fs)).2.fs
  | .snapshot message => (run env (v.snapshot message) (World.boot fs)).2.fs
  | .importCommit hash data => (run env (importCommitBytes hash data) (World.boot fs)).2.fs
  | .importTree hash data => (run env (importTreeBytes hash data) (World.boot fs)).2.fs
  | .importChunk hash data => (run env (importStoredChunk hash data) (World.boot fs)).2.fs
  | .fetchDag peers target adopt => (run env (Soal.fetchDag peers target adopt) (World.boot fs)).2.fs
  | .mergeHead remoteHead label => (run env (v.mergeHead remoteHead label) (World.boot fs)).2.fs
  | .setHeadPublic c => (run env (Soal.setHeadPublic c) (World.boot fs)).2.fs
  | .setDivergentHead c => (run env (Soal.setDivergentHead c) (World.boot fs)).2.fs
  | .gcAll => (run env Soal.gcAll (World.boot fs)).2.fs

/-- A directory as `create` leaves it: root files only, and no head, no list of heads and no
snapshot registry among them. -/
def Fresh (fs : VaultFs) : Prop :=
  ∀ p ∈ fs, p.dir = .root ∧ p ≠ headFile ∧ p ≠ headsFile ∧ p ≠ snapshotsPath

/-- Every commit and tree byte string that loading hashes is in `S`. -/
def DataIn (S : Bytes → Prop) (fs : VaultFs) : Prop :=
  ∀ b, commitKind.Hashed fs b ∨ treeKind.Hashed fs b → S b

/-- One command that meets the condition `safe`; the data it meets is in `S`. -/
inductive Step (S : Bytes → Prop) (safe : VaultFs → Command → Prop) (fs : VaultFs) :
    VaultFs → Prop
  | mk (v : Vault) (env : Outside) (cmd : Command) (hsafe : safe fs cmd) (hdata : DataIn S fs)
      (hdata' : DataIn S (cmd.after v env fs)) (hserved : ∀ b, Served env b → S b) :
      Step S safe fs (cmd.after v env fs)

/-- The directories that runs of such commands lead to, from a fresh one. -/
abbrev Reached (S : Bytes → Prop) (safe : VaultFs → Command → Prop) : VaultFs → Prop :=
  Reachable (Step S safe) Fresh

section Steps

variable {S : Bytes → Prop} {fs fs' : VaultFs}

theorem separate_of_dataIn (hS : CollisionFree S) (h : DataIn S fs) (h' : DataIn S fs') :
    commitKind.Separate fs fs' ∧ treeKind.Separate fs fs' :=
  ⟨hS.mono fun b hb => hb.elim (fun hb => h b (.inl hb)) fun hb => h' b (.inl hb),
    hS.mono fun b hb => hb.elim (fun hb => h b (.inr hb)) fun hb => h' b (.inr hb)⟩

omit [Crates] in
/-- Nothing is there to be loaded from a fresh directory. -/
theorem Fresh.not_mem (h : Fresh fs) {p : FilePath VaultDir} (hp : p.dir ≠ .root) : p ∉ fs :=
  fun hm => hp (h p hm).1

omit [Crates] in
theorem Fresh.head (h : Fresh fs) : ReadM.eval fs head = .ok none :=
  eval_head_absent fun hm => (h _ hm).2.1 rfl

/-- Nothing is hashed on loading from a fresh directory. -/
theorem Fresh.dataIn (h : Fresh fs) : DataIn S fs := by
  have hno : ∀ {α : Type} (K : ObjectKind α) (b : Bytes), K.dir ≠ .root → ¬K.Hashed fs b := by
    intro α K b hd hb
    cases hb with
    | bin hl => exact h.not_mem hd (Fs.mem_iff_lookup.2 ⟨_, hl⟩)
    | json hl => exact h.not_mem hd (Fs.mem_iff_lookup.2 ⟨_, hl⟩)
    | legacy hl _ => exact h.not_mem hd (Fs.mem_iff_lookup.2 ⟨_, hl⟩)
  rintro b (hb | hb)
  · exact absurd hb (hno commitKind b (by simp [commitKind]))
  · exact absurd hb (hno treeKind b (by simp [treeKind]))

/-- The files of commits and trees hold data of `S`. -/
def ObjectsIn (S : Bytes → Prop) (fs : VaultFs) : Prop := ∀ (p : FilePath VaultDir) (b : Bytes),
  p.dir = .commits ∨ p.dir = .trees → fs.lookup p = some b → S b

/-- No text is the JSON of an object. -/
def NoJson : Prop :=
  (∀ b x, commitKind.fromBytes b ≠ .ok x) ∧ ∀ b x, treeKind.fromBytes b ≠ .ok x

/-- Without JSON, what loading hashes is what the object files hold. -/
theorem ObjectsIn.dataIn (h : ObjectsIn S fs) (hno : NoJson) : DataIn S fs := by
  rintro b (hb | hb)
  · cases hb with
    | bin hl => exact h _ _ (.inl rfl) hl
    | json hl => exact h _ _ (.inl rfl) hl
    | legacy _ hx => exact absurd hx (hno.1 _ _)
  · cases hb with
    | bin hl => exact h _ _ (.inr rfl) hl
    | json hl => exact h _ _ (.inr rfl) hl
    | legacy _ hx => exact absurd hx (hno.2 _ _)

omit [Crates] in
theorem ObjectsIn.written {w : VaultWorld} (h : ObjectsIn S w.fs) (p : FilePath VaultDir) {b : Bytes}
    (hb : p.dir = .commits ∨ p.dir = .trees → S b) : ObjectsIn S (w.written p b).fs := by
  intro q b' hq hl
  rw [World.lookup_written] at hl
  split at hl
  next hp =>
    obtain rfl := Option.some.inj hl
    exact hb (hp ▸ hq)
  next => exact h q b' hq hl

omit [Crates] in
theorem ObjectsIn.congr (h : ObjectsIn S fs) (hl : ∀ p : FilePath VaultDir,
    p.dir = .commits ∨ p.dir = .trees → fs'.lookup p = fs.lookup p) : ObjectsIn S fs' :=
  fun p b hp hb => h p b hp ((hl p hp).symm.trans hb)

omit [Crates] in
theorem Fresh.objectsIn (h : Fresh fs) : ObjectsIn S fs := by
  intro p b hp hl
  have hroot : p.dir ≠ .root := by rcases hp with hp | hp <;> simp [hp]
  exact absurd (Fs.mem_iff_lookup.2 ⟨b, hl⟩) (h.not_mem hroot)

end Steps

/-! ## §2. How each command ends. -/

section Ends

variable {fs : VaultFs} {v : Vault} {env : Outside}

theorem addPath_ends (v : Vault) (env : Outside) (fs : VaultFs) (source : Source)
    (baseName : String) : ExtendEnds (addPlan v source baseName fs) (World.boot fs)
      (run env (v.addPath source baseName) (World.boot fs)).1
      (run env (v.addPath source baseName) (World.boot fs)).2 :=
  (v.wp_addPath (w := World.boot fs) source baseName).post

theorem snapshot_ends (v : Vault) (env : Outside) (fs : VaultFs) (message : String) :
    ExtendEnds (snapshotPlan fs) (World.boot fs) (run env (v.snapshot message) (World.boot fs)).1
      (run env (v.snapshot message) (World.boot fs)).2 :=
  (v.wp_snapshot (w := World.boot fs) message).post

theorem mergeHead_ends (v : Vault) (env : Outside) (fs : VaultFs) (remoteHead : ContentHash)
    (label : String) : ExtendEnds (mergePlan remoteHead label fs) (World.boot fs)
      ((run env (v.mergeHead remoteHead label) (World.boot fs)).1.map Prod.fst)
      (run env (v.mergeHead remoteHead label) (World.boot fs)).2 :=
  (v.wp_mergeHead_extending (w := World.boot fs) remoteHead label).post

/-- An import writes its object, or nothing. -/
theorem importBytes_ends {α : Type} (K : ObjectKind α) (env : Outside) (fs : VaultFs)
    (h : ContentHash) (data : Bytes) :
    (run env (K.importBytes h data) (World.boot fs)).2 = World.boot fs ∨ ∃ x, K.Imports h data x ∧
      (run env (K.importBytes h data) (World.boot fs)).2 =
        (World.boot fs).written (K.importPath h data) data := by
  have hrule : wp env (fun _ => True) (K.importBytes h data) _ (World.boot fs) :=
    K.wp_importBytes trivial fun _ _ => ⟨trivial, trivial⟩
  rcases hrule.post with ⟨e, -, hw, -⟩ | ⟨x, hx, -, hw⟩
  · exact .inl hw
  · exact .inr ⟨x, hx, hw⟩

theorem importStoredChunk_ends (env : Outside) (fs : VaultFs) (h : ContentHash) (data : Bytes) :
    ChunksAdded (World.boot fs) (run env (importStoredChunk h data) (World.boot fs)).2 := by
  have hrule : wp env (ChunksAdded (World.boot fs)) (importStoredChunk h data)
      (fun _ w' => ChunksAdded (World.boot fs) w') (World.boot fs) := by
    unfold importStoredChunk
    exact wp_seq (wp_putVerified (.refl _)) (fun _ w' hI _ => ⟨hI, hI⟩) fun _ w' hI _ => hI
  exact hrule.post

/-- Adopting a head moves HEAD to a commit that loads, or changes nothing. -/
theorem setHeadPublic_ends (env : Outside) (fs : VaultFs) (c : ContentHash) :
    (run env (setHeadPublic c) (World.boot fs)).2 = World.boot fs ∨
      (∃ k, ReadM.eval fs (loadCommit c) = .ok k) ∧
        ReadM.eval (run env (setHeadPublic c) (World.boot fs)).2.fs head = .ok (some c) ∧
        ∀ p : FilePath VaultDir, p.dir ≠ .root →
          (run env (setHeadPublic c) (World.boot fs)).2.fs.lookup p = fs.lookup p := by
  have hroot : ∀ p : FilePath VaultDir, p.dir ≠ .root → p ≠ headFile ∧ p ≠ headsFile := by
    intro p hp
    constructor <;> rintro rfl <;> exact hp rfl
  have hrule : wp env (fun _ => True) (setHeadPublic c) _ (World.boot fs) :=
    wp_setHeadPublic trivial fun _ => ⟨trivial, trivial, fun _ _ => ⟨trivial, trivial⟩⟩
  rcases hrule.post with ⟨e, -, -, hw⟩ | ⟨k, hk, ⟨e, -, -, hw⟩ | ⟨heads, -, -, hw⟩⟩
  · exact .inl hw
  · refine .inr ⟨⟨k, hk⟩, ?_, fun p hp => ?_⟩
    · rw [hw]
      exact eval_head_headSet
    · rw [hw]
      exact lookup_headSet (hroot p hp).1
  · refine .inr ⟨⟨k, hk⟩, ?_, fun p hp => ?_⟩
    · rw [hw]
      exact eval_head_adopted
    · rw [hw]
      exact lookup_adopted (hroot p hp).1 (hroot p hp).2

/-- Recording a divergent head moves HEAD only when there is none, and then to a commit that
loads. -/
theorem setDivergentHead_ends (env : Outside) (fs : VaultFs) (c : ContentHash) :
    (∀ p : FilePath VaultDir, p.dir ≠ .root →
      (run env (setDivergentHead c) (World.boot fs)).2.fs.lookup p = fs.lookup p) ∧
    (ReadM.eval (run env (setDivergentHead c) (World.boot fs)).2.fs head = ReadM.eval fs head ∨
      ReadM.eval fs head = .ok none ∧ (∃ k, ReadM.eval fs (loadCommit c) = .ok k) ∧
        ReadM.eval (run env (setDivergentHead c) (World.boot fs)).2.fs head = .ok (some c)) := by
  have hroot : ∀ p : FilePath VaultDir, p.dir ≠ .root → p ≠ headFile ∧ p ≠ headsFile := by
    intro p hp
    constructor <;> rintro rfl <;> exact hp rfl
  have hrule : wp env (fun _ => True) (setDivergentHead c) (fun _ w' =>
      (∀ p : FilePath VaultDir, p.dir ≠ .root → w'.fs.lookup p = fs.lookup p) ∧
      (ReadM.eval w'.fs head = ReadM.eval fs head ∨
        ReadM.eval fs head = .ok none ∧ (∃ k, ReadM.eval fs (loadCommit c) = .ok k) ∧
          ReadM.eval w'.fs head = .ok (some c))) (World.boot fs) := by
    unfold setDivergentHead
    refine wp_read (x := loadCommit c) trivial (fun k hk => ?_)
      (fun e _ => ⟨fun p _ => rfl, .inl rfl⟩)
    refine wp_seq (wp_recordHead trivial fun _ _ => ⟨trivial, trivial⟩) (fun _ w₁ _ h₁ => ?_)
      (fun e w₁ _ h₁ => ?_)
    · rcases h₁ with ⟨_, -, he, -⟩ | ⟨heads, -, -, rfl⟩
      · cases he
      -- HEADS was rewritten, HEAD is read again
      have hsame : ∀ p : FilePath VaultDir, p ≠ headsFile →
          ((World.boot fs).written headsFile (Text.toUtf8 (String.ofList
            (headsBody (insert c heads))))).fs.lookup p = fs.lookup p := fun p hp => by
        rw [World.lookup_written, if_neg hp]
        rfl
      have hhead : ReadM.eval _ head = ReadM.eval fs head := eval_head_congr (hsame headFile (by decide))
      refine wp_read (x := head) trivial (fun l hl => ?_)
        (fun e _ => ⟨fun p hp => hsame p (hroot p hp).2, .inl hhead⟩)
      cases l with
      | some h => exact ⟨trivial, fun p hp => hsame p (hroot p hp).2, .inl hhead⟩
      | none =>
        refine wp_writeFile.2 ⟨trivial, trivial, trivial, fun p hp => ?_,
          .inr ⟨hhead.symm.trans hl, ⟨k, hk⟩, ?_⟩⟩
        · rw [World.lookup_written, if_neg (hroot p hp).1, hsame p (hroot p hp).2]
        · exact eval_head_written (by rw [World.lookup_written, if_pos rfl])
    · rcases h₁ with ⟨_, -, -, rfl⟩ | ⟨_, -, he, -⟩
      · exact ⟨fun p _ => rfl, .inl rfl⟩
      · cases he
  exact hrule.post

end Ends

/-! ## §3. The bookkeeping of a snapshot. -/

section Bookkeeping

variable {w w₁ : VaultWorld} {env : Outside} {v : Vault} {c : ContentHash} {message : String}

omit [Crates] in
theorem orderly_ok {α : Type} {a : α} : Orderly (.ok a : Res α) := by
  intro h
  cases h

omit [Crates] in
/-- The error of an orderly part is no panic. -/
theorem Orderly.stop {α β : Type} {r : Res α} {e : Fault} (h : Orderly r) (he : r = .error e) :
    Orderly (.error e : Res β) := by
  rintro hp
  cases hp
  exact h he

omit [Crates] in
/-- A step of the bookkeeping: it cannot fail, and leaves the other files alone. -/
theorem wp_bookkeeping {α : Type} {x : Action α} (hx : Confined Registry x)
    (horderly : wp env (fun _ => True) x (fun r _ => Orderly r) w) :
    wp env (fun _ => True) (okOrNone x) (fun r w' => (∃ a, r = .ok a) ∧ Within Registry w w') w := by
  have htotal : wp env (fun _ => True) (okOrNone x) (fun r _ => ∃ a, r = .ok a) w := by
    refine wp_handle.2 (horderly.mono (fun _ h => h) fun r w' _ hr => ?_)
    rcases r with (e | _) | a
    · exact ⟨trivial, _, rfl⟩
    · exact absurd rfl hr
    · exact ⟨trivial, _, rfl⟩
  exact (((confined_okOrNone hx).wp w).and htotal).mono (fun _ _ => trivial)
    fun r w' hI hr => ⟨hr.2, hI.1⟩

theorem wp_registerSnapshot_orderly (hash : ContentHash) (message : String) (auto : Bool) :
    wp env (fun _ => True) (registerSnapshot hash message auto) (fun r _ => Orderly r) w := by
  refine wp_read (x := loadSnapshots) trivial (fun log _ => wp_answer trivial ?_) fun e he => ?_
  · exact wp_writeRename.2 ⟨trivial, trivial, trivial, trivial, orderly_ok⟩
  · exact orderly_loadSnapshots.stop he

omit [Crates] in
theorem orderly_validate (policy : VaultPolicy) : Orderly policy.validate := by
  unfold VaultPolicy.validate
  split
  next => exact nofun
  next => split <;> exact nofun

theorem wp_loadPolicy_orderly (config : VaultConfig) :
    wp env (fun _ => True) (loadPolicy config) (fun r _ => Orderly r) w := by
  unfold loadPolicy
  refine wp_exists trivial ?_
  split
  next =>
    refine wp_read trivial (fun s _ => wp_compute trivial (fun p _ => ?_) fun e he => ?_)
      fun e he => (orderly_readToString _).stop he
    · exact wp_compute trivial (fun _ _ => ⟨trivial, orderly_ok⟩) fun e he =>
        (orderly_validate p).stop he
    · rintro h
      cases h
      cases hj : Crates.policyJson.fromStr s with
      | ok p => rw [hj] at he; cases he
      | error e => rw [hj] at he; cases he
  next =>
    refine wp_seq (R := fun r _ => Orderly r) (wp_compute trivial (fun _ _ => ?_) fun e he => ?_)
      (fun _ _ _ _ => ⟨trivial, orderly_ok⟩) fun e w' _ h hp => h (by cases hp; rfl)
    · exact wp_writeRename.2 ⟨trivial, trivial, trivial, trivial, orderly_ok⟩
    · exact (orderly_validate _).stop he

theorem wp_applyRetention_orderly (policy : VaultPolicy) :
    wp env (fun _ => True) (applyRetention policy) (fun r _ => Orderly r) w := by
  unfold applyRetention pruneSnapshotRegistry
  split
  next => exact ⟨trivial, orderly_ok⟩
  next =>
    refine wp_read (x := loadSnapshots) trivial (fun log _ => ?_) fun e he =>
      orderly_loadSnapshots.stop he
    dsimp only
    split
    next => exact ⟨trivial, orderly_ok⟩
    next =>
      refine wp_seq (R := fun r _ => r = .ok ()) ?_ (fun _ _ _ _ => ⟨trivial, orderly_ok⟩)
        fun e _ _ he => by cases he
      exact wp_writeRename.2 ⟨trivial, trivial, trivial, trivial, rfl⟩

/-- **The bookkeeping of a snapshot never decides its result.** -/
theorem wp_snapshot_returns (hrun : run env (v.snapshotCommit message) w = (.ok c, w₁)) :
    wp env (fun _ => True) (v.snapshot message) (fun r w' => r = .ok c ∧ Within Registry w₁ w') w := by
  have hcommit : wp env (fun _ => True) (v.snapshotCommit message)
      (fun r w' => r = .ok c ∧ w' = w₁) w := by
    refine wp_iff.2 ⟨fun _ _ => trivial, ?_⟩
    rw [hrun]
    exact ⟨rfl, rfl⟩
  unfold Vault.snapshot
  refine wp_seq hcommit (fun c' w' _ h => ?_) fun e _ _ h => by cases h.1
  obtain ⟨hc, rfl⟩ := h
  obtain rfl := Except.ok.inj hc
  refine wp_seq (wp_bookkeeping (confined_registerSnapshot c' message false)
    (wp_registerSnapshot_orderly c' message false)) (fun _ w₂ _ h₂ => ?_)
    fun e _ _ h => by obtain ⟨⟨a, ha⟩, -⟩ := h; cases ha
  refine wp_seq (wp_bookkeeping (confined_loadPolicy v.config) (wp_loadPolicy_orderly v.config))
    (fun pol w₃ _ h₃ => ?_) fun e _ _ h => by obtain ⟨⟨a, ha⟩, -⟩ := h; cases ha
  have hw₃ := h₂.2.trans h₃.2
  cases pol with
  | none => exact ⟨trivial, rfl, hw₃⟩
  | some pol =>
    exact wp_seq (wp_bookkeeping (confined_applyRetention pol) (wp_applyRetention_orderly pol))
      (fun _ w₄ _ h₄ => ⟨trivial, rfl, hw₃.trans h₄.2⟩)
      fun e _ _ h => by obtain ⟨⟨a, ha⟩, -⟩ := h; cases ha

end Bookkeeping

end Model

/-! ## §4. The small history. -/

section Sample

attribute [local instance] sample

/-- The stand-in parses no JSON. -/
theorem standIn_noJson (digest : Bytes → ContentHash) : @NoJson (standIn digest) := by
  constructor <;> intro b x h <;> cases h

/-- Its texts are no wire forms. -/
theorem standIn_jsonLaws (digest : Bytes → ContentHash) : @JsonLaws (standIn digest) :=
  letI := standIn digest
  have hno := standIn_noJson digest
  have hcommit : isFramed domainCommit (Text.toUtf8 "\x7b\x7d") = false := by decide
  have htree : isFramed domainTree (Text.toUtf8 "\x7b\x7d") = false := by decide
  { commit := ⟨fun b x h => absurd h (hno.1 b x), fun _ => hcommit⟩
    tree := ⟨fun b x h => absurd h (hno.2 b x), fun _ => htree⟩
    commitAgain := fun b x _ h => absurd h (hno.1 b x)
    treeAgain := fun b x _ h => absurd h (hno.2 b x) }

theorem sample_noJson : NoJson := standIn_noJson sampleDigest

theorem sample_jsonLaws : JsonLaws := standIn_jsonLaws sampleDigest

/-- The data of the history. -/
def SampleData (b : Bytes) : Prop := b ∈ [wireE, wireA, wireB, wireC, wireD, wireM]

/-- The object files hold data of the history. -/
abbrev SampleObjects (fs : VaultFs) : Prop := ObjectsIn SampleData fs

/-- A step over the history, with a quiet network. -/
theorem sample_step {safe : VaultFs → Command → Prop} {fs fs' : VaultFs} {cmd : Command}
    (hsafe : safe fs cmd) (h : SampleObjects fs) (h' : SampleObjects fs')
    (hafter : cmd.after plainVault (quiet 0) fs = fs') : Step SampleData safe fs fs' := by
  have hserved : ∀ b, Served (quiet 0) b → SampleData b :=
    fun b hb => absurd hb (not_served_quiet 0 b)
  rw [← hafter] at h' ⊢
  exact .mk plainVault (quiet 0) cmd hsafe (h.dataIn sample_noJson) (h'.dataIn sample_noJson) hserved

/-- Importing what can be imported. -/
theorem after_importCommit {fs : VaultFs} {c : Commit} {wire : Bytes} {hash : ContentHash}
    (hc : encodeCommitWire c = .ok wire) (hh : sampleDigest wire = hash)
    (hs : c.signature = none) :
    (Command.importCommit hash wire).after plainVault (quiet 0) fs =
      ((World.boot fs).written (commitPathBin hash) wire).fs := by
  have hpath : commitKind.importPath hash wire = commitPathBin hash :=
    if_pos (decodeCommitWire_encodeCommitWire hc).1
  show (run (quiet 0) (importCommitBytes hash wire) (World.boot fs)).2.fs = _
  rw [importCommitBytes, commitKind.run_importBytes (quiet 0) fs (imports_sample hc hh hs), hpath]

theorem after_importTreeE (fs : VaultFs) :
    (Command.importTree treeE wireE).after plainVault (quiet 0) fs =
      ((World.boot fs).written (treePathBin treeE) wireE).fs := by
  have hpath : treeKind.importPath treeE wireE = treePathBin treeE :=
    if_pos (encodeTreeWire_framed encodeTreeWire_new)
  show (run (quiet 0) (importTreeBytes treeE wireE) (World.boot fs)).2.fs = _
  rw [importTreeBytes, treeKind.run_importBytes (quiet 0) fs imports_treeE, hpath]

/-- Adopting a commit that loads, where no heads are recorded. -/
theorem after_setHeadPublic {fs : VaultFs} {c : ContentHash} {k : Commit}
    (hk : ReadM.eval fs (loadCommit c) = .ok k) (hno : headsFile ∉ fs) :
    (Command.setHeadPublic c).after plainVault (quiet 0) fs = (adopted (World.boot fs) c ∅).fs := by
  have hheads := eval_listHeadsFileOnly_absent hno
  have hrule : wp (quiet 0) (fun _ => True) (setHeadPublic c) _ (World.boot fs) :=
    wp_setHeadPublic trivial fun _ => ⟨trivial, trivial, fun _ _ => ⟨trivial, trivial⟩⟩
  show (run (quiet 0) (setHeadPublic c) (World.boot fs)).2.fs = _
  rcases hrule.post with ⟨e, -, he, -⟩ | ⟨k, -, ⟨e, -, he, -⟩ | ⟨heads, hok, -, hw⟩⟩
  · cases hk.symm.trans he
  · cases hheads.symm.trans he
  · obtain rfl := Except.ok.inj (hheads.symm.trans hok)
    rw [hw]

/-- A vault directory that was just created. -/
def freshDisk : VaultFs := diskOf [(configFile, Text.toUtf8 sampleConfigText)]

theorem freshDisk_fresh : Fresh freshDisk := by
  intro p hp
  obtain ⟨b, hb⟩ := Fs.mem_iff_lookup.1 hp
  have hmem := mem_of_lookup_diskOf hb
  rw [List.mem_singleton] at hmem
  obtain ⟨rfl, -⟩ := Prod.mk.inj hmem
  exact ⟨rfl, by decide, by decide, by decide⟩

theorem freshDisk_objects : SampleObjects freshDisk := freshDisk_fresh.objectsIn

end Sample

end Soal

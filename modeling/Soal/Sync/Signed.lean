/-
  Soal.Sync.Signed — which imports check a signature (INV-SIG-01).

  A framed commit is verified before it is stored.  A JSON commit is not, so what it brings in is
  signed correctly only if its text says so; and a sync brings in whatever the peers serve as JSON.
-/
import Soal.Sync.Success

namespace Soal

open FileProg

section Laws

variable [Crates] {fs : VaultFs} {env : Outside} {h target : ContentHash} {data : Bytes}
  {w' : VaultWorld}

/-- The commit is unsigned, or its signature is its author's. -/
def Signed (c : Commit) : Prop := verifyCommitSignature c = .ok ()

/-- The hash loads as a correctly signed commit. -/
def LoadsSigned (fs : VaultFs) (h : ContentHash) : Prop :=
  ∃ c, ReadM.eval fs (loadCommit h) = .ok c ∧ Signed c

/-- What makes an import safe: the bytes are framed, or a wire file of the hash is there already and
loads as a correctly signed commit, or the JSON text is that of a correctly signed commit. -/
def ImportsSigned (fs : VaultFs) (h : ContentHash) (data : Bytes) : Prop :=
  isFramed domainCommit data = true ∨
    if commitPathBin h ∈ fs then LoadsSigned fs h
    else ∃ c, Commit.fromBytes data = .ok c ∧ Signed c

theorem loadsSigned_import_iff
    (hrun : run env (importCommitBytes h data) (World.boot fs) = (.ok (), w')) :
    LoadsSigned w'.fs h ↔ ImportsSigned fs h data := by
  obtain ⟨c, hc, rfl⟩ := commitKind.importBytes_outcome hrun
  unfold ImportsSigned
  cases hf : isFramed domainCommit data with
  | true =>
    have hload := hc.load_framed commitKind fs hf
    exact ⟨fun _ => .inl rfl, fun _ => ⟨c, hload, (hc.framed hf).2.2⟩⟩
  | false =>
    rw [or_iff_right (by simp)]
    split
    next hb =>
      have hload := commitKind.load_behind_bin hf hb
      unfold LoadsSigned loadCommit
      rw [hload]
    next hb =>
      have hload := hc.load_json commitKind hf hb
      constructor
      · rintro ⟨c', hc', hs⟩
        obtain rfl := Except.ok.inj (hload.symm.trans hc')
        exact ⟨c, hc.json hf, hs⟩
      · rintro ⟨c', hc', hs⟩
        obtain rfl := Except.ok.inj ((hc.json hf).symm.trans hc')
        exact ⟨c, hload, hs⟩

/-- Every commit of the DAG that is missing and that peers serve is correctly signed. -/
def FreshSigned (fs : VaultFs) (env : Outside) (target : ContentHash) : Prop :=
  ReadM.eval fs (isComplete target) ≠ .ok true → ∀ c k, (known fs env).Commits target c →
    ¬commitKind.Present fs c → (known fs env).commit c k → Signed k

/-- **Signatures and imports.**  An accepted import leaves a correctly signed commit exactly when the
bytes are framed or what is loaded was correctly signed before; the commits a successful sync brings
in are correctly signed exactly when the missing commits peers serve are. -/
theorem import_signed_iff (hfree : CollisionFree (Served env)) :
    (∀ h data w', run env (importCommitBytes h data) (World.boot fs) = (.ok (), w') →
      (LoadsSigned w'.fs h ↔ ImportsSigned fs h data)) ∧
    ∀ peers adopt result w',
      run env (fetchDag peers target adopt) (World.boot fs) = (.ok result, w') →
      ((∀ c k, ¬commitKind.Present fs c → ReadM.eval w'.fs (loadCommit c) = .ok k → Signed k) ↔
        FreshSigned fs env target) := by
  refine ⟨fun h data w' hrun => loadsSigned_import_iff hrun, fun peers adopt result w' hrun => ?_⟩
  have hout := (fetchDag_outcome hfree hrun).1 result rfl
  unfold FreshSigned
  split at hout
  next hdone =>
    refine ⟨fun _ hne => absurd hdone hne, fun _ c k hn hk => ?_⟩
    -- the shortcut brings in nothing
    have hsame : ReadM.eval w'.fs (loadCommit c) = ReadM.eval fs (loadCommit c) :=
      eval_loadCommit_congr (fun p hp => hout.other p fun _ =>
        ⟨(by rintro rfl; cases hp), (by rintro rfl; cases hp)⟩) c
    exact absurd (commitKind.present_of_load (hsame.symm.trans hk)) hn
  next hne =>
    have hfun := (agrees_known fs hfree target).functional
    constructor
    · intro hall _ c k hc hn hDk
      obtain ⟨k', tr, hk', hDk', -⟩ := hout.walked.visited c hc
      obtain rfl := hfun.commit c k k' hDk hDk'
      exact hall c k hn hk'
    · intro hall c k hn hk
      obtain ⟨-, data, k', ⟨hc, hDk⟩, hx, hst⟩ :=
        hout.synced.commits.fresh c hn (commitKind.present_of_load hk)
      obtain rfl := Except.ok.inj ((hst.load hx).symm.trans hk)
      exact hall hne c k' hc hn hDk

end Laws

/-! ### At the forged commit. -/

section Sample

attribute [local instance] jsonSample

theorem forged_not_signed : ¬Signed forgedCommit := by
  intro h
  have hsig : forgedCommit.signatureBytes = List.replicate 64 1 := by decide +kernel
  unfold Signed verifyCommitSignature at h
  rw [hsig, if_neg (by decide)] at h
  obtain ⟨msg, -, h⟩ := bind_ok_iff.1 h
  cases h

/-- An empty vault accepts the forged commit, and loads it. -/
theorem import_accepts_forgery : ¬∀ (fs : VaultFs) (env : Outside) (h : ContentHash) (data : Bytes)
    (w' : VaultWorld), run env (importCommitBytes h data) (World.boot fs) = (.ok (), w') →
      LoadsSigned w'.fs h := by
  intro hall
  obtain ⟨c, hc, hs⟩ := hall ∅ (quiet 0) _ _ _ (commitKind.run_importBytes _ _ forged_imports)
  have hempty : commitKind.pathBin hashForged ∉ (∅ : VaultFs) := AList.lookup_eq_none.1 rfl
  have hload := forged_imports.load_json commitKind forgedText_unframed hempty
  obtain rfl := Except.ok.inj (hload.symm.trans hc)
  exact forged_not_signed hs

/-- The rule at the forged commit. -/
theorem forged_signed_iff :
    LoadsSigned ((World.boot (∅ : VaultFs)).written
      (commitKind.importPath hashForged (Text.toUtf8 forgedText)) (Text.toUtf8 forgedText)).fs
      hashForged ↔ ImportsSigned ∅ hashForged (Text.toUtf8 forgedText) :=
  (@import_signed_iff _ ∅ (quiet 0) hashForged (quiet_collisionFree 0)).1 _ _ _
    (commitKind.run_importBytes _ _ forged_imports)

end Sample

end Soal

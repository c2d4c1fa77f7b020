/-
  Soal.Vault.Adopt — when a commit is complete, and what adopting a head writes.

  A complete commit loads, its tree loads, and every chunk the tree lists is stored.  Adopting a head
  checks only that the commit loads; it writes HEAD, then HEADS.
-/
import Soal.Vault.Roots
import Soal.Vault.Rules

namespace Soal

open FileProg

variable [Crates]

/-! ## §1. Complete commits. -/

/-- The commit and its tree load, and the chunks of the tree are stored. -/
def Complete (fs : VaultFs) (c : ContentHash) : Prop :=
  ∃ k tr, ReadM.eval fs (loadCommit c) = .ok k ∧ ReadM.eval fs (loadTree k.tree) = .ok tr ∧
    ∀ ch ∈ tr.allChunkHashes, chunkPath ch ∈ fs

/-- The commit and all its ancestors are complete. -/
def WholeDag (fs : VaultFs) (target : ContentHash) : Prop := ∀ c, Reach fs target c → Complete fs c

section Complete

variable {fs fs' : VaultFs}

omit [Crates] in
theorem eval_hasChunks (chs : List ContentHash) :
    ReadM.eval fs (hasChunks chs) = .ok (decide (∀ ch ∈ chs, chunkPath ch ∈ fs)) := by
  induction chs with
  | nil => simp [hasChunks]
  | cons ch chs ih =>
      unfold hasChunks hasChunk ChunkStore.existsChunk
      rw [ReadM.eval_bind, ReadM.eval_pathExists, ok_bind]
      by_cases hp : chunkPath ch ∈ fs
      · simp [hp, ih]
      · simp [hp]

/-- **`is_complete` answers yes exactly on complete commits.** -/
theorem eval_isComplete_iff {c : ContentHash} :
    ReadM.eval fs (isComplete c) = .ok true ↔ Complete fs c := by
  unfold isComplete hasCommitObject hasTreeObject
  simp only [ReadM.eval_bind, ReadM.eval_ite, commitKind.eval_hasObject, treeKind.eval_hasObject,
    eval_hasChunks, ok_bind]
  constructor
  · intro h
    split at h
    next =>
      obtain ⟨k, hk, h⟩ := bind_ok_iff.1 h
      split at h
      next =>
        obtain ⟨tr, htr, h⟩ := bind_ok_iff.1 h
        exact ⟨k, tr, hk, htr, of_decide_eq_true (Except.ok.inj h)⟩
      next => cases h
    next => cases h
  · rintro ⟨k, tr, hk, htr, hch⟩
    rw [if_pos (decide_eq_true (commitKind.present_of_load hk)), hk, ok_bind,
      if_pos (decide_eq_true (treeKind.present_of_load htr)), htr, ok_bind, decide_eq_true hch]

/-- Completeness looks at objects and chunks. -/
theorem complete_congr (h : ∀ p : FilePath VaultDir, p.dir = .commits ∨ p.dir = .trees ∨
    p.dir = .chunks → fs'.lookup p = fs.lookup p) (c : ContentHash) :
    Complete fs' c ↔ Complete fs c := by
  have hch : ∀ ch, chunkPath ch ∈ fs' ↔ chunkPath ch ∈ fs := fun ch =>
    mem_congr (h _ (.inr (.inr rfl)))
  unfold Complete
  simp only [eval_loadCommit_congr fun p hp => h p (.inl hp),
    eval_loadTree_congr fun p hp => h p (.inr (.inl hp)), hch]

theorem wholeDag_congr (h : ∀ p : FilePath VaultDir, p.dir = .commits ∨ p.dir = .trees ∨
    p.dir = .chunks → fs'.lookup p = fs.lookup p) (t : ContentHash) :
    WholeDag fs' t ↔ WholeDag fs t := by
  unfold WholeDag
  simp only [complete_congr h, reach_congr fun p hp => h p (.inl hp)]

end Complete

/-! ## §2. Adopting a head. -/

/-- The disk after HEAD was pointed at a commit. -/
def headSet (w : VaultWorld) (t : ContentHash) : VaultWorld :=
  w.written headFile (Text.toUtf8 t.toHex)

/-- The disk after a head was adopted beside the heads recorded before. -/
def adopted (w : VaultWorld) (t : ContentHash) (heads : Finset ContentHash) : VaultWorld :=
  (headSet w t).written headsFile (Text.toUtf8 (String.ofList (headsBody (insert t heads))))

section Rules

variable {env : Outside} {I : VaultWorld → Prop} {w : VaultWorld} {t : ContentHash}
  {heads : Finset ContentHash}

omit [Crates] in
theorem lookup_headSet {p : FilePath VaultDir} (hp : p ≠ headFile) :
    (headSet w t).fs.lookup p = w.fs.lookup p := by
  rw [headSet, World.lookup_written, if_neg hp]

omit [Crates] in
theorem lookup_adopted {p : FilePath VaultDir} (hp : p ≠ headFile) (hp' : p ≠ headsFile) :
    (adopted w t heads).fs.lookup p = w.fs.lookup p := by
  rw [adopted, World.lookup_written, if_neg hp', lookup_headSet hp]

omit [Crates] in
theorem eval_head_headSet : ReadM.eval (headSet w t).fs head = .ok (some t) :=
  eval_head_written (by rw [headSet, World.lookup_written, if_pos rfl])

omit [Crates] in
theorem eval_head_adopted : ReadM.eval (adopted w t heads).fs head = .ok (some t) := by
  refine (eval_head_congr ?_).trans (eval_head_headSet (w := w))
  rw [adopted, World.lookup_written, if_neg (by decide)]

omit [Crates] in
theorem eval_listHeadsFileOnly_adopted :
    ReadM.eval (adopted w t heads).fs listHeadsFileOnly = .ok (insert t heads) :=
  eval_listHeadsFileOnly_written (by rw [adopted, World.lookup_written, if_pos rfl])

/-- **The rule of `set_head_public`**: nothing is written unless the commit loads; HEAD is written
before HEADS is read. -/
theorem wp_setHeadPublic (hI : I w)
    (hw : (∃ k, ReadM.eval w.fs (loadCommit t) = .ok k) →
      I (w.change (.truncate headFile)) ∧ I (headSet w t) ∧
      ∀ heads, ReadM.eval w.fs listHeadsFileOnly = .ok heads →
        I ((headSet w t).change (.truncate headsFile)) ∧ I (adopted w t heads)) :
    wp env I (setHeadPublic t) (fun r w' =>
      (∃ e, r = .error e ∧ ReadM.eval w.fs (loadCommit t) = .error e ∧ w' = w) ∨
      ∃ k, ReadM.eval w.fs (loadCommit t) = .ok k ∧
        ((∃ e, r = .error e ∧ ReadM.eval w.fs listHeadsFileOnly = .error e ∧ w' = headSet w t) ∨
          ∃ heads, ReadM.eval w.fs listHeadsFileOnly = .ok heads ∧ r = .ok () ∧
            w' = adopted w t heads)) w := by
  unfold setHeadPublic
  refine wp_read hI (fun k hk => ?_) (fun e he => .inl ⟨e, rfl, he, rfl⟩)
  obtain ⟨htrunc, hset, hheads⟩ := hw ⟨k, hk⟩
  have hfile : ReadM.eval (headSet w t).fs listHeadsFileOnly = ReadM.eval w.fs listHeadsFileOnly :=
    eval_listHeadsFileOnly_congr (lookup_headSet (by decide))
  refine wp_write hI htrunc ?_
  show wp env I (recordHead t) _ (headSet w t)
  -- HEAD was written before the heads are listed, so the list has the target
  have hall : ReadM.eval (headSet w t).fs listHeads =
      (ReadM.eval w.fs listHeadsFileOnly).map (insert t) := by
    rw [eval_listHeads, eval_head_headSet, hfile]
    cases ReadM.eval w.fs listHeadsFileOnly <;> rfl
  cases hfo : ReadM.eval w.fs listHeadsFileOnly with
  | error e =>
    rw [hfo] at hall
    -- HEADS cannot be read: HEAD has moved all the same
    refine (wp_recordHead hset fun hs hhs => ?_).mono (fun _ h => h) fun r w' _ hr => ?_
    · cases hall.symm.trans hhs
    · rcases hr with ⟨e', he', rfl, rfl⟩ | ⟨hs, hhs, -, -⟩
      · obtain rfl := Except.error.inj (hall.symm.trans he')
        exact .inr ⟨k, hk, .inl ⟨e, rfl, rfl, rfl⟩⟩
      · cases hall.symm.trans hhs
  | ok heads =>
    rw [hfo] at hall
    have hbody : insert t (insert t heads) = insert t heads := Finset.insert_idem t heads
    refine (wp_recordHead hset fun hs hhs => ?_).mono (fun _ h => h) fun r w' _ hr => ?_
    · obtain rfl := Except.ok.inj (hall.symm.trans hhs)
      rw [hbody]
      exact hheads heads hfo
    · rcases hr with ⟨e', he', -, -⟩ | ⟨hs, hhs, rfl, rfl⟩
      · cases hall.symm.trans he'
      · obtain rfl := Except.ok.inj (hall.symm.trans hhs)
        refine .inr ⟨k, hk, .inr ⟨heads, rfl, rfl, ?_⟩⟩
        rw [hbody]
        rfl

end Rules

end Soal

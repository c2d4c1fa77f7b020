/-
  Soal.Vault.Footprint — which files the reading operations depend on.

  An object depends on its own two files, HEAD on one file, and whatever is collected to serve a
  commit on the object directories.
-/
import Soal.Lib.LooksAt
import Soal.Vault.Heads
import Soal.Vault.Serve

namespace Soal

open FileProg

section Files

variable {δ : Type} {D : FilePath δ → Prop} {p : FilePath δ}

theorem looksAt_readFile (h : D p) : LooksAt D (readFile p) := by
  refine LooksAt.bind (.read h) fun b => ?_
  split <;> exact .done

theorem looksAt_readToString (h : D p) : LooksAt D (readToString p) := by
  refine LooksAt.bind (looksAt_readFile h) fun b => ?_
  split <;> exact .done

theorem looksAt_okOrNone {α : Type} {x : ReadM δ Fault α} (h : LooksAt D x) :
    LooksAt D (okOrNone x) := by
  refine LooksAt.handle h fun r => ?_
  split <;> exact .done

end Files

section Model

variable [Crates] {D : FilePath VaultDir → Prop}

/-! ## §1. Objects. -/

namespace ObjectKind

variable {α : Type} {K : ObjectKind α} {h : ContentHash}

omit [Crates] in
theorem looksAt_hasObject (hb : D (K.pathBin h)) (hj : D (K.pathJson h)) :
    LooksAt D (K.hasObject h) := by
  refine LooksAt.bind (.pathExists hb) fun bin => ?_
  exact LooksAt.bind (.pathExists hj) fun json => .done

theorem looksAt_load (hb : D (K.pathBin h)) (hj : D (K.pathJson h)) : LooksAt D (K.load h) := by
  refine LooksAt.bind (.pathExists hb) fun bin => ?_
  split
  next => exact LooksAt.bind (looksAt_readFile hb) fun data => .done
  next =>
    refine LooksAt.bind (.pathExists hj) fun json => ?_
    split
    next => exact LooksAt.bind (looksAt_readFile hj) fun data => .done
    next => exact .done

theorem looksAt_exportLoaded (hb : D (K.pathBin h)) (hj : D (K.pathJson h)) :
    LooksAt D (K.exportLoaded h) := by
  refine LooksAt.bind (looksAt_load hb hj) fun x => LooksAt.bind .done fun wire => ?_
  refine LooksAt.ite .done ?_
  exact LooksAt.ite .done .done

theorem looksAt_exportBytes (hb : D (K.pathBin h)) (hj : D (K.pathJson h)) :
    LooksAt D (K.exportBytes h) := by
  refine LooksAt.bind (.pathExists hb) fun bin => ?_
  split
  next =>
    refine LooksAt.bind (looksAt_readFile hb) fun data => ?_
    exact LooksAt.ite .done (looksAt_exportLoaded hb hj)
  next => exact looksAt_exportLoaded hb hj

end ObjectKind

theorem looksAt_chunkStoreGet {h : ContentHash} (hc : D (chunkPath h)) :
    LooksAt D (ChunkStore.get h) := by
  refine LooksAt.bind (.pathExists hc) fun there => ?_
  split
  next =>
    refine LooksAt.bind (looksAt_readFile hc) fun buf => ?_
    exact LooksAt.ite .done .done
  next => exact .done

/-! ## §2. HEAD. -/

omit [Crates] in
theorem looksAt_head (h : D headFile) : LooksAt D head := by
  refine LooksAt.bind (.pathExists h) fun there => ?_
  split
  next =>
    refine LooksAt.bind (looksAt_readToString h) fun s => ?_
    exact LooksAt.bind .done fun c => .done
  next => exact .done

/-! ## §3. Collecting what a commit needs. -/

section Collect

variable (hD : ∀ p : FilePath VaultDir, ObjectDir p.dir → D p)
include hD

theorem looksAt_provideChunk (s : Provided) (ch : ContentHash) : LooksAt D (provideChunk s ch) := by
  unfold provideChunk
  refine LooksAt.ite .done ?_
  have hget : LooksAt D (exportStoredChunk ch) := looksAt_chunkStoreGet (hD _ (.inl rfl))
  refine LooksAt.bind (looksAt_okOrNone hget) fun bytes => ?_
  split <;> exact .done

theorem looksAt_provideChunks (s : Provided) (chs : List ContentHash) :
    LooksAt D (provideChunks s chs) := by
  induction chs generalizing s with
  | nil => exact .done
  | cons ch chs ih => exact LooksAt.bind (looksAt_provideChunk hD s ch) fun s' => ih s'

theorem looksAt_provideTree (s : Provided) (t : ContentHash) : LooksAt D (provideTree s t) := by
  have hb : D (treeKind.pathBin t) := hD _ (.inr (.inr rfl))
  have hj : D (treeKind.pathJson t) := hD _ (.inr (.inr rfl))
  refine LooksAt.bind (ObjectKind.looksAt_hasObject hb hj) fun there => ?_
  split
  next =>
    refine LooksAt.bind (ObjectKind.looksAt_exportBytes hb hj) fun bytes => ?_
    refine LooksAt.bind (ObjectKind.looksAt_load hb hj) fun tree => ?_
    exact looksAt_provideChunks hD _ _
  next => exact .done

theorem looksAt_provideCommit (s : Provided) (c : ContentHash) : LooksAt D (provideCommit s c) := by
  have hb : D (commitKind.pathBin c) := hD _ (.inr (.inl rfl))
  have hj : D (commitKind.pathJson c) := hD _ (.inr (.inl rfl))
  refine LooksAt.bind (ObjectKind.looksAt_exportBytes hb hj) fun bytes => ?_
  refine LooksAt.bind (ObjectKind.looksAt_load hb hj) fun commit => ?_
  exact LooksAt.bind (looksAt_provideTree hD _ _) fun s' => .done

theorem looksAt_provideWalk (seen : Finset ContentHash) (s : Provided) (queue : List ContentHash) :
    LooksAt D (provideWalk seen s queue) := by
  induction seen, s, queue using provideWalk.induct with
  | case1 seen s =>
    rw [provideWalk]
    exact .done
  | case2 seen s c queue hs ih =>
    rw [provideWalk, dif_pos hs]
    exact ih
  | case3 seen s c queue hs hd =>
    rw [provideWalk, dif_neg hs, dif_pos hd]
    exact .done
  | case4 seen s c queue hs hd ih ih' =>
    rw [provideWalk, dif_neg hs, dif_neg hd]
    have hb : D (commitKind.pathBin c) := hD _ (.inr (.inl rfl))
    have hj : D (commitKind.pathJson c) := hD _ (.inr (.inl rfl))
    refine LooksAt.bind (ObjectKind.looksAt_hasObject hb hj) fun there => ?_
    split
    next => exact LooksAt.bind (looksAt_provideCommit hD s c) fun out => ih out.1 out.2
    next => exact ih'

theorem looksAt_collectProvideHashes (c : ContentHash) : LooksAt D (collectProvideHashes c) :=
  LooksAt.bind (looksAt_provideWalk hD _ _ _) fun _ => .done

end Collect

end Model

end Soal

/-
  Soal.Sync.Catalog — what the target of a sync leads to, and whether it can be had.

  A catalog says which commit and which tree a hash stands for; the DAG of a target is what the
  target leads to by it.  The catalog of a sync is `known`: what the disk holds, and where it holds
  nothing, what peers serve.
-/
import Soal.Lib.Worklist
import Soal.Sync.Rules

namespace Soal

open FileProg

/-! ## §1. Catalogs. -/

/-- The commit and the tree a hash stands for. -/
structure Catalog where
  commit : ContentHash → Commit → Prop
  tree : ContentHash → Tree → Prop

namespace Catalog

variable (D : Catalog) (target : ContentHash)

def Parent (c p : ContentHash) : Prop := ∃ k, D.commit c k ∧ p ∈ k.parents

/-- The target and its ancestors. -/
def Commits (c : ContentHash) : Prop := Worklist.Reachable D.Parent (· = target) c

/-- The trees of these commits. -/
def Trees (h : ContentHash) : Prop := ∃ c k, D.Commits target c ∧ D.commit c k ∧ k.tree = h

/-- The chunks these trees list. -/
def Chunks (ch : ContentHash) : Prop :=
  ∃ h tr, D.Trees target h ∧ D.tree h tr ∧ ch ∈ tr.allChunkHashes

/-- A hash stands for one object. -/
structure Functional : Prop where
  commit : ∀ c k k', D.commit c k → D.commit c k' → k = k'
  tree : ∀ h tr tr', D.tree h tr → D.tree h tr' → tr = tr'

variable {D target}

theorem commits_target : D.Commits target target := .root rfl

theorem Commits.parent {c p : ContentHash} {k : Commit} (h : D.Commits target c)
    (hk : D.commit c k) (hp : p ∈ k.parents) : D.Commits target p := h.step ⟨k, hk, hp⟩

end Catalog

variable [Crates]

namespace ObjectKind

variable {α : Type} (K : ObjectKind α)

/-- What a hash stands for: the stored object when there is one, else what some peer serves. -/
def Known (fs : VaultFs) (env : Outside) (h : ContentHash) (x : α) : Prop :=
  (K.Present fs h ∧ ReadM.eval fs (K.load h) = .ok x) ∨
    ¬K.Present fs h ∧ ∃ data, Served env data ∧ K.Imports h data x

/-- Disk and peers hold nothing else for a wanted hash. -/
structure Agree (wants : ContentHash → Prop) (R : ContentHash → α → Prop) (fs : VaultFs)
    (env : Outside) : Prop where
  stored : ∀ h x, wants h → ReadM.eval fs (K.load h) = .ok x → R h x
  served : ∀ h data x, wants h → ¬K.Present fs h → Served env data → K.Imports h data x → R h x

theorem agree_known (wants : ContentHash → Prop) (fs : VaultFs) (env : Outside) :
    K.Agree wants (K.Known fs env) fs env where
  stored _ _ _ hx := .inl ⟨K.present_of_load hx, hx⟩
  served _ data _ _ hn hs hx := .inr ⟨hn, data, hs, hx⟩

theorem Known.unique {fs : VaultFs} {env : Outside} (hfree : CollisionFree (Served env))
    {h : ContentHash} {x y : α} (hx : K.Known fs env h x) (hy : K.Known fs env h y) : x = y := by
  rcases hx with ⟨hp, hx⟩ | ⟨hn, data, hs, hx⟩
  · rcases hy with ⟨-, hy⟩ | ⟨hn, -⟩
    · exact Except.ok.inj (hx.symm.trans hy)
    · exact absurd hp hn
  · rcases hy with ⟨hp, -⟩ | ⟨-, data', hs', hy⟩
    · exact absurd hp hn
    · obtain rfl := hfree data data' hs hs' (hx.hash_eq.trans hy.hash_eq.symm)
      exact hx.unique _ hy

/-- The object loads, or it is missing and some peer always serves it. -/
def Obtainable (skip : ContentHash → Prop) (fs : VaultFs) (env : Outside) (peers : List String)
    (h : ContentHash) : Prop :=
  (∃ x, ReadM.eval fs (K.load h) = .ok x) ∨
    ¬K.Present fs h ∧ ¬skip h ∧ ∃ peer ∈ peers, ∃ data x, Provides env peer h data ∧
      K.Imports h data x

end ObjectKind

/-- The catalog of a sync from this disk with these peers. -/
def known (fs : VaultFs) (env : Outside) : Catalog where
  commit := commitKind.Known fs env
  tree := treeKind.Known fs env

/-- Disk and peers agree with a catalog on the DAG of a target. -/
structure Agrees (D : Catalog) (target : ContentHash) (fs : VaultFs) (env : Outside) : Prop where
  functional : D.Functional
  commits : commitKind.Agree (D.Commits target) D.commit fs env
  trees : treeKind.Agree (D.Trees target) D.tree fs env

theorem agrees_known (fs : VaultFs) {env : Outside} (hfree : CollisionFree (Served env))
    (target : ContentHash) : Agrees (known fs env) target fs env where
  functional := ⟨fun _ _ _ => ObjectKind.Known.unique _ hfree, fun _ _ _ =>
    ObjectKind.Known.unique _ hfree⟩
  commits := commitKind.agree_known _ fs env
  trees := treeKind.agree_known _ fs env

/-! ## §2. What the saved job checks off. -/

/-- The job that a sync of the target resumes lists the hash. -/
def CheckedOff (done : SyncJob → Finset ContentHash) (fs : VaultFs) (target h : ContentHash) : Prop :=
  ∃ job, ReadM.eval fs (savedJob target) = .ok (some job) ∧ h ∈ done job

/-- Every object of the DAG can be had. -/
structure ObjectsSupplied (D : Catalog) (target : ContentHash) (fs : VaultFs) (env : Outside)
    (peers : List String) : Prop where
  commit : ∀ c, D.Commits target c →
    commitKind.Obtainable (CheckedOff SyncJob.doneCommits fs target) fs env peers c
  /-- signatures are checked on import, and again on a commit that is found -/
  signed : ∀ c k, D.Commits target c → D.commit c k → verifyCommitSignature k = .ok ()
  tree : ∀ h, D.Trees target h →
    treeKind.Obtainable (CheckedOff SyncJob.doneTrees fs target) fs env peers h
  chunk : ∀ ch, D.Chunks target ch → chunkPath ch ∈ fs ∨ CheckedOff SyncJob.doneChunks fs target ch ∨
    ∃ peer ∈ peers, ∃ data, Provides env peer ch data ∧ ContentHash.of data = ch

/-- What the end of a run needs besides the objects. -/
structure TipSupplied (D : Catalog) (target : ContentHash) (fs : VaultFs) (adopt : Bool) : Prop where
  /-- the target itself is checked at the end -/
  tip : ∀ k tr, D.commit target k → D.tree k.tree tr → ∀ ch ∈ tr.allChunkHashes,
    CheckedOff SyncJob.doneChunks fs target ch → chunkPath ch ∈ fs
  heads : adopt = true → ∃ hs, ReadM.eval fs listHeadsFileOnly = .ok hs

/-- Everything a sync from this disk needs can be had. -/
structure Supplied (D : Catalog) (target : ContentHash) (fs : VaultFs) (env : Outside)
    (peers : List String) (adopt : Bool) : Prop extends ObjectsSupplied D target fs env peers,
    TipSupplied D target fs adopt where
  peers_ne : peers ≠ []
  small : ∃ all : Finset ContentHash, all.card ≤ maxJobCommits ∧ ∀ c, D.Commits target c → c ∈ all
  job : ∃ job, ReadM.eval fs (savedJob target) = .ok job

end Soal

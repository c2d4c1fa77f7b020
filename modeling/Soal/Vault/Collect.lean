/-
  Soal.Vault.Collect — what a garbage collection deletes.

  A collection with readable roots deletes exactly the garbage, and a second one finds none.  With
  unreadable roots it marks from HEAD alone, or from nothing: then what only HEADS or the snapshot
  registry names is deleted like garbage.
-/
import Soal.SampleVault
import Soal.Vault.Sweep

namespace Soal

open FileProg Worklist

section Collect

variable [Crates] {fs fs' : VaultFs}

/-! ## §1. What a mark depends on. -/

theorem rootsReadable_congr (h : ∀ p, p.dir = .root → fs'.lookup p = fs.lookup p) :
    RootsReadable fs' ↔ RootsReadable fs := by
  have hhead := eval_head_congr (h headFile rfl)
  have hheads := eval_listHeadsFileOnly_congr (h headsFile rfl)
  have hlog := eval_loadSnapshots_congr (h snapshotsPath rfl)
  constructor
  · rintro ⟨h₁, h₂, h₃⟩
    exact ⟨hhead ▸ h₁, hheads ▸ h₂, hlog ▸ h₃⟩
  · rintro ⟨h₁, h₂, h₃⟩
    exact ⟨hhead ▸ h₁, hheads ▸ h₂, hlog ▸ h₃⟩

theorem namedRoot_congr (h : ∀ p, p.dir = .root → fs'.lookup p = fs.lookup p) :
    NamedRoot fs' = NamedRoot fs := by
  have hhead := eval_head_congr (h headFile rfl)
  have hheads := eval_listHeadsFileOnly_congr (h headsFile rfl)
  have hlog := eval_loadSnapshots_congr (h snapshotsPath rfl)
  funext r
  refine propext ⟨?_, ?_⟩
  · rintro (h | ⟨h, hr⟩ | ⟨h, hr⟩)
    · exact .head (hhead ▸ h)
    · exact .heads (hheads ▸ h) hr
    · exact .registry (hlog ▸ h) hr
  · rintro (h | ⟨h, hr⟩ | ⟨h, hr⟩)
    · exact .head (hhead ▸ h)
    · exact .heads (hheads ▸ h) hr
    · exact .registry (hlog ▸ h) hr

theorem gcRoot_congr (h : ∀ p, p.dir = .root → fs'.lookup p = fs.lookup p) :
    GcRoot fs' = GcRoot fs := by
  funext r
  unfold GcRoot
  rw [rootsReadable_congr h, namedRoot_congr h, eval_head_congr (h headFile rfl)]

/-- With readable roots a collection marks from what the root files name. -/
theorem gcRoot_of_readable (h : RootsReadable fs) : GcRoot fs = NamedRoot fs := by
  funext r
  exact propext ⟨fun hr => hr.elim And.right fun hr => absurd h hr.1, fun hr => .inl ⟨h, hr⟩⟩

/-- HEAD names the commit. -/
def HeadRoot (fs : VaultFs) (r : ContentHash) : Prop := ReadM.eval fs head = .ok (some r)

/-- With unreadable roots it marks from HEAD alone. -/
theorem gcRoot_of_unreadable (h : ¬RootsReadable fs) : GcRoot fs = HeadRoot fs := by
  funext r
  exact propext ⟨fun hr => hr.elim (fun hr => absurd hr.1 h) And.right, fun hr => .inr ⟨h, hr⟩⟩

theorem commitsLoad_of_objectsLoad {roots : ContentHash → Prop} (h : ObjectsLoad roots fs) :
    CommitsLoad roots fs := fun c hc hp => by
  obtain ⟨k, hk, -⟩ := h c hc hp
  exact ⟨k, hk⟩

/-! ## §2. A whole collection. -/

/-- What a collection deletes. -/
def Garbage (fs : VaultFs) (p : FilePath VaultDir) : Prop := GarbageChunk fs p ∨ GarbageObject fs p

/-- **A collection deletes the garbage, or stops before it deletes anything.** -/
theorem wp_gcAll (env : Outside) (w : VaultWorld) :
    wp env (fun _ => True) gcAll (fun r w' =>
      (∃ e, r = .error e ∧ w' = w ∧ ¬ObjectsLoad (GcRoot w.fs) w.fs) ∨
      ∃ n, r = .ok n ∧ ObjectsLoad (GcRoot w.fs) w.fs ∧ Swept (Garbage w.fs) w.fs w'.fs n) w := by
  unfold gcAll
  refine wp_seq (wp_gcUnreachableChunks env w) (fun n w₁ _ h₁ => ?_) (fun e w₁ _ he => ?_)
  · rcases h₁ with ⟨_, he, -⟩ | ⟨n', hn, hload, hsw⟩
    · cases he
    obtain rfl := Except.ok.inj hn
    -- the chunk sweep leaves roots and commits alone
    have hkept : ∀ p, p.dir ≠ .chunks → w₁.fs.lookup p = w.fs.lookup p := fun p hp =>
      hsw.kept p fun ⟨h, hh, _⟩ => hp (by rw [hh]; rfl)
    have hroots : GcRoot w₁.fs = GcRoot w.fs :=
      gcRoot_congr fun p hp => hkept p (by rw [hp]; decide)
    have hcommit : ∀ c, ReadM.eval w₁.fs (loadCommit c) = ReadM.eval w.fs (loadCommit c) :=
      eval_loadCommit_congr fun p hp => hkept p (by rw [hp]; decide)
    have hlive : ∀ roots c, LiveFrom roots w₁.fs c ↔ LiveFrom roots w.fs c := fun roots c => by
      unfold LiveFrom Reachable
      exact exists_congr fun r => and_congr_right fun _ =>
        reach_congr fun p hp => hkept p (by rw [hp]; decide)
    have hpresent : ∀ c, commitKind.Present w₁.fs c ↔ commitKind.Present w.fs c := fun c =>
      or_congr (mem_congr (hkept _ fun h => by cases h)) (mem_congr (hkept _ fun h => by cases h))
    refine wp_seq (wp_gcUnreachableObjects env w₁) (fun ct w₂ _ h₂ => ?_) (fun e w₂ _ he => ?_)
    · rcases h₂ with ⟨_, he, -⟩ | ⟨c, t, hct, -, hsw₂⟩
      · cases he
      obtain rfl := Except.ok.inj hct
      refine ⟨trivial, .inr ⟨n + c + t, rfl, hload, ?_⟩⟩
      rw [Nat.add_assoc]
      refine (hsw.trans hsw₂).congr fun p _ => or_congr_right ?_
      unfold GarbageObject MarkedObject
      simp only [hroots, hcommit, hlive]
    · rcases he with ⟨_, -, -, hno⟩ | ⟨_, _, he, _⟩
      · refine absurd (fun c hc hp => ?_) hno
        rw [hroots, hlive] at hc
        rw [hcommit]
        exact commitsLoad_of_objectsLoad hload c hc ((hpresent c).1 hp)
      · cases he
  · rcases he with ⟨e', he, hw, hno⟩ | ⟨_, he, _⟩
    · exact .inl ⟨e, rfl, hw, hno⟩
    · cases he

/-- A commit that a root file leads to. -/
abbrev Live (fs : VaultFs) (c : ContentHash) : Prop := LiveFrom (NamedRoot fs) fs c

/-! ## §3. With readable roots. -/

/-- Everything of a commit is on disk as before: its files, its tree's, and the chunks the tree
lists. -/
structure Kept (fs fs' : VaultFs) (c : ContentHash) : Prop where
  commit : fs'.lookup (commitPathBin c) = fs.lookup (commitPathBin c) ∧
    fs'.lookup (commitPathJson c) = fs.lookup (commitPathJson c)
  tree : ∀ k, ReadM.eval fs (loadCommit c) = .ok k →
    fs'.lookup (treePathBin k.tree) = fs.lookup (treePathBin k.tree) ∧
      fs'.lookup (treePathJson k.tree) = fs.lookup (treePathJson k.tree)
  chunk : ∀ k t, ReadM.eval fs (loadCommit c) = .ok k → ReadM.eval fs (loadTree k.tree) = .ok t →
    ∀ ch ∈ t.allChunkHashes, fs'.lookup (chunkPath ch) = fs.lookup (chunkPath ch)

section Kept

theorem eval_chunkStoreGet_congr {h : ContentHash}
    (hl : fs'.lookup (chunkPath h) = fs.lookup (chunkPath h)) :
    ReadM.eval fs' (ChunkStore.get h) = ReadM.eval fs (ChunkStore.get h) := by
  have hread : ReadM.eval fs' (readFile (chunkPath h)) = ReadM.eval fs (readFile (chunkPath h)) := by
    cases hb : fs.lookup (chunkPath h) with
    | some b => rw [eval_readFile_some hb, eval_readFile_some (hl.trans hb)]
    | none => rw [eval_readFile_none hb, eval_readFile_none (hl.trans hb)]
  unfold ChunkStore.get ChunkStore.existsChunk
  simp only [ReadM.eval_bind, ReadM.eval_pathExists, ok_bind, mem_congr hl, ReadM.eval_ite, hread]
  rfl

theorem eval_loadChunk_congr (v : Vault) {h : ContentHash}
    (hl : fs'.lookup (chunkPath h) = fs.lookup (chunkPath h)) :
    ReadM.eval fs' (v.loadChunk h) = ReadM.eval fs (v.loadChunk h) := by
  unfold Vault.loadChunk
  rw [ReadM.eval_bind, ReadM.eval_bind, eval_chunkStoreGet_congr hl]
  congr 1
  funext stored
  split <;> rfl

theorem eval_restoreChunks_congr (v : Vault) {hs : List ContentHash}
    (hl : ∀ h ∈ hs, fs'.lookup (chunkPath h) = fs.lookup (chunkPath h)) :
    ReadM.eval fs' (v.restoreChunks hs) = ReadM.eval fs (v.restoreChunks hs) := by
  induction hs with
  | nil => rfl
  | cons h hs ih =>
    have ih := ih fun h' hh' => hl h' (List.mem_cons_of_mem _ hh')
    unfold Vault.restoreChunks
    rw [ReadM.eval_bind, ReadM.eval_bind, eval_loadChunk_congr v (hl h List.mem_cons_self)]
    congr 1
    funext plain
    rw [ReadM.eval_bind, ReadM.eval_bind]
    congr 1
    funext stored
    rw [ReadM.eval_ite, ReadM.eval_ite, ReadM.eval_bind, ReadM.eval_bind, ih]
    rfl

theorem eval_restoreEntries_congr {σ : Type} (v : Vault) (dest : Destination σ)
    {entries : List (String × TreeEntry)} (target : σ) (hl : ∀ name size chunks,
      (name, TreeEntry.file size chunks) ∈ entries → ∀ h ∈ chunks,
        fs'.lookup (chunkPath h) = fs.lookup (chunkPath h)) :
    ReadM.eval fs' (v.restoreEntries dest entries target) =
      ReadM.eval fs (v.restoreEntries dest entries target) := by
  induction entries generalizing target with
  | nil => rfl
  | cons e entries ih =>
    have ih := fun target => ih target fun name size chunks hmem =>
      hl name size chunks (List.mem_cons_of_mem _ hmem)
    obtain ⟨name, entry⟩ := e
    cases entry with
    | dir hash => exact ih target
    | file size chunks =>
      unfold Vault.restoreEntries
      dsimp only
      split
      next => rfl
      next outPath _ =>
        rw [ReadM.eval_handle, ReadM.eval_handle,
          eval_restoreChunks_congr v (hl name size chunks List.mem_cons_self)]
        split
        next => rfl
        next fileData _ =>
          split
          next => rfl
          next =>
            split
            next => rfl
            next target' _ =>
              split
              next => rfl
              next target'' _ => exact ih target''

/-- **A commit that is kept loads and restores as before.** -/
theorem Kept.eval_restore {c : ContentHash} (h : Kept fs fs' c) {σ : Type} (v : Vault)
    (dest : Destination σ) (target : σ) :
    ReadM.eval fs' (v.restore dest c target) = ReadM.eval fs (v.restore dest c target) := by
  unfold Vault.restore
  rw [ReadM.eval_bind, ReadM.eval_bind, loadCommit, commitKind.eval_load_congr h.commit.1 h.commit.2]
  cases hk : ReadM.eval fs (commitKind.load c) with
  | error e => rfl
  | ok k =>
    rw [ok_bind, ok_bind, ReadM.eval_bind, ReadM.eval_bind, loadTree,
      treeKind.eval_load_congr (h.tree k hk).1 (h.tree k hk).2]
    cases ht : ReadM.eval fs (treeKind.load k.tree) with
    | error e => rfl
    | ok t =>
      rw [ok_bind, ok_bind]
      split
      next => rfl
      next target' _ =>
        refine eval_restoreEntries_congr v dest target' fun name size chunks hmem ch hch => ?_
        exact h.chunk k t hk ht ch (List.mem_flatMap.2 ⟨_, hmem, hch⟩)

end Kept

omit [Crates] in
/-- The hash of an object file of either kind. -/
theorem hashOfStem_object {α : Type} {K : ObjectKind α} {p : FilePath VaultDir} {h : ContentHash}
    (hp : p = K.pathBin h ∨ p = K.pathJson h) : hashOfStem p.name = some h := by
  rcases hp with rfl | rfl
  · exact hashOfStem_hexName (e := "bin".toList) rfl (by decide)
  · exact hashOfStem_hexName (e := "json".toList) rfl (by decide)

theorem not_garbageChunk_of_dir {p : FilePath VaultDir} (hp : p.dir ≠ .chunks) :
    ¬GarbageChunk fs p := fun ⟨_, hh, _⟩ => hp (by rw [hh]; rfl)

theorem not_garbageObject_chunk (h : ContentHash) : ¬GarbageObject fs (chunkPath h) :=
  fun ⟨hd, _⟩ => hd.elim (fun hd => by cases hd) fun hd => by cases hd

/-- The files of a marked object stay as they are. -/
theorem Swept.kept_object {n : Nat} {α : Type} {K : ObjectKind α} {x : ContentHash}
    (h : Swept (Garbage fs) fs fs' n) (hdir : K.dir ≠ .chunks)
    (hm : MarkedObject (GcRoot fs) fs x) :
    fs'.lookup (K.pathBin x) = fs.lookup (K.pathBin x) ∧
      fs'.lookup (K.pathJson x) = fs.lookup (K.pathJson x) := by
  have hfile : ∀ p : FilePath VaultDir, (p = K.pathBin x ∨ p = K.pathJson x) →
      fs'.lookup p = fs.lookup p := by
    intro p hp
    refine h.kept p (not_or.2 ⟨not_garbageChunk_of_dir ?_, ?_⟩)
    · rcases hp with rfl | rfl <;> exact hdir
    · rintro ⟨-, y, hy, hno⟩
      rw [hashOfStem_object hp] at hy
      cases hy
      exact hno hm
  exact ⟨hfile _ (.inl rfl), hfile _ (.inr rfl)⟩

/-- So does a marked chunk. -/
theorem Swept.kept_chunk {n : Nat} {ch : ContentHash} (h : Swept (Garbage fs) fs fs' n)
    (hm : MarkedChunk (GcRoot fs) fs ch) : fs'.lookup (chunkPath ch) = fs.lookup (chunkPath ch) := by
  refine h.kept _ (not_or.2 ⟨?_, not_garbageObject_chunk ch⟩)
  rintro ⟨ch', heq, hno⟩
  obtain rfl : ch = ch' := (hexName_inj.1 (congrArg FilePath.name heq)).1
  exact hno hm

/-- What a collection with readable roots keeps. -/
theorem Swept.keepsLive {n : Nat} (h : Swept (Garbage fs) fs fs' n) (hread : RootsReadable fs)
    (hload : ObjectsLoad (GcRoot fs) fs) {c : ContentHash} (hc : Live fs c) : Kept fs fs' c := by
  have hroots := gcRoot_of_readable hread
  have hc : LiveFrom (GcRoot fs) fs c := hroots ▸ hc
  refine ⟨?_, fun k hk => ?_, fun k t hk ht ch hch => ?_⟩
  · by_cases hp : commitKind.Present fs c
    · obtain ⟨k, hk, -⟩ := hload c hc hp
      exact h.kept_object (K := commitKind) (by simp [commitKind]) ⟨c, k, hc, hk, .inl rfl⟩
    · obtain ⟨hb, hj⟩ := not_or.1 hp
      exact ⟨h.lookup_absent hb, h.lookup_absent hj⟩
  · exact h.kept_object (K := treeKind) (by simp [treeKind]) ⟨c, k, hc, hk, .inr rfl⟩
  · exact h.kept_chunk ⟨c, k, t, hc, hk, ht, hch⟩

section Again

variable {n : Nat}

/-- A collection does not change what the roots lead to. -/
theorem Swept.live_iff (h : Swept (Garbage fs) fs fs' n) (hread : RootsReadable fs)
    (hload : ObjectsLoad (GcRoot fs) fs) (c : ContentHash) :
    LiveFrom (NamedRoot fs) fs' c ↔ Live fs c := by
  have hcommit : ∀ {x}, Live fs x →
      ReadM.eval fs' (loadCommit x) = ReadM.eval fs (loadCommit x) := fun hx =>
    commitKind.eval_load_congr (h.keepsLive hread hload hx).commit.1
      (h.keepsLive hread hload hx).commit.2
  constructor
  · refine fun hc => hc.induct (fun r hr => .root hr) fun x y hx hxy => ?_
    obtain ⟨k, hk, hy⟩ := hxy
    exact hx.step ⟨k, by rw [← hcommit hx]; exact hk, hy⟩
  · intro hc
    have hboth : Live fs c ∧ LiveFrom (NamedRoot fs) fs' c := by
      refine hc.induct (P := fun c => Live fs c ∧ LiveFrom (NamedRoot fs) fs' c)
        (fun r hr => ⟨.root hr, .root hr⟩) fun x y hx hxy => ⟨hx.1.step hxy, ?_⟩
      obtain ⟨k, hk, hy⟩ := hxy
      exact hx.2.step ⟨k, by rw [hcommit hx.1]; exact hk, hy⟩
    exact hboth.2

/-- **A second collection finds the same live set, hence no garbage.** -/
theorem Swept.garbage_again (h : Swept (Garbage fs) fs fs' n) (hread : RootsReadable fs)
    (hload : ObjectsLoad (GcRoot fs) fs) :
    ObjectsLoad (GcRoot fs') fs' ∧ ∀ p ∈ fs', ¬Garbage fs' p := by
  have hroots := gcRoot_of_readable hread
  have hroot : ∀ p, p.dir = .root → fs'.lookup p = fs.lookup p := by
    intro p hp
    refine h.kept p (not_or.2 ⟨?_, ?_⟩)
    · exact not_garbageChunk_of_dir (by rw [hp]; decide)
    · rintro ⟨hd | hd, -⟩ <;> rw [hp] at hd <;> cases hd
  have hroots' : GcRoot fs' = NamedRoot fs := (gcRoot_congr hroot).trans hroots
  have hcommit : ∀ {x}, Live fs x →
      ReadM.eval fs' (loadCommit x) = ReadM.eval fs (loadCommit x) := fun hx =>
    commitKind.eval_load_congr (h.keepsLive hread hload hx).commit.1
      (h.keepsLive hread hload hx).commit.2
  have htree : ∀ {x k}, Live fs x → ReadM.eval fs (loadCommit x) = .ok k →
      ReadM.eval fs' (loadTree k.tree) = ReadM.eval fs (loadTree k.tree) := fun {x k} hx hk =>
    treeKind.eval_load_congr ((h.keepsLive hread hload hx).tree k hk).1
      ((h.keepsLive hread hload hx).tree k hk).2
  have hpresent : ∀ {α : Type} (K : ObjectKind α) {x}, K.Present fs' x → K.Present fs x :=
    fun K _ hp => hp.imp h.subset h.subset
  have hmarked : ∀ x, MarkedObject (NamedRoot fs) fs x → MarkedObject (NamedRoot fs) fs' x := by
    rintro x ⟨c, k, hc, hk, hx⟩
    exact ⟨c, k, (h.live_iff hread hload c).2 hc, (hcommit hc).trans hk, hx⟩
  have hmarkedChunk : ∀ x, MarkedChunk (NamedRoot fs) fs x → MarkedChunk (NamedRoot fs) fs' x := by
    rintro x ⟨c, k, t, hc, hk, ht, hx⟩
    exact ⟨c, k, t, (h.live_iff hread hload c).2 hc, (hcommit hc).trans hk, (htree hc hk).trans ht, hx⟩
  refine ⟨fun c hc hp => ?_, fun p hp hg => h.gone p ?_ hp⟩
  · rw [hroots', h.live_iff hread hload] at hc
    obtain ⟨k, hk, ht⟩ := hload c (hroots ▸ hc) (hpresent commitKind hp)
    refine ⟨k, (hcommit hc).trans hk, fun htp => ?_⟩
    obtain ⟨t, ht⟩ := ht (hpresent treeKind htp)
    exact ⟨t, (htree hc hk).trans ht⟩
  · rcases hg with ⟨x, hx, hno⟩ | ⟨hd, x, hx, hno⟩
    · exact .inl ⟨x, hx, fun hm => hno (hroots' ▸ hmarkedChunk x (hroots ▸ hm))⟩
    · exact .inr ⟨hd, x, hx, fun hm => hno (hroots' ▸ hmarked x (hroots ▸ hm))⟩

end Again

/-- What a collection with readable roots does: everything live is kept, everything else is gone, and
the count is right. -/
structure CollectsExactly (fs fs' : VaultFs) (n : Nat) : Prop where
  /-- live commits load and restore as before -/
  kept : ∀ c, Live fs c → Kept fs fs' c ∧
    ReadM.eval fs' (loadCommit c) = ReadM.eval fs (loadCommit c) ∧
    (∀ k, ReadM.eval fs (loadCommit c) = .ok k →
      ReadM.eval fs' (loadTree k.tree) = ReadM.eval fs (loadTree k.tree)) ∧
    (∀ k t, ReadM.eval fs (loadCommit c) = .ok k → ReadM.eval fs (loadTree k.tree) = .ok t →
      ∀ ch ∈ t.allChunkHashes, ∀ v : Vault,
        ReadM.eval fs' (v.loadChunk ch) = ReadM.eval fs (v.loadChunk ch)) ∧
    ∀ (σ : Type) (v : Vault) (dest : Destination σ) (target : σ),
      ReadM.eval fs' (v.restore dest c target) = ReadM.eval fs (v.restore dest c target)
  /-- object files named by 64 lower-case hex digits that are neither live commits nor trees of one -/
  objects : ∀ p h, (p.dir = .commits ∨ p.dir = .trees) → (splitExt p.name.toList).1 = h.toHexChars →
    ¬MarkedObject (NamedRoot fs) fs h → p ∉ fs'
  /-- chunk files that no such tree lists -/
  chunks : ∀ h, ¬MarkedChunk (NamedRoot fs) fs h → chunkPath h ∉ fs'
  /-- nothing is written -/
  old : ∀ p ∈ fs', fs'.lookup p = fs.lookup p
  count : n = (fs.keys.toFinset \ fs'.keys.toFinset).card

/-- **A collection with readable roots is exact, and a second one removes nothing.** -/
theorem gcAll_exact {env env' : Outside} {w' : VaultWorld} {n : Nat} (hread : RootsReadable fs)
    (hrun : run env gcAll (.boot fs) = (.ok n, w')) :
    CollectsExactly fs w'.fs n ∧ (run env' gcAll (.boot w'.fs)).1 = .ok 0 ∧
      ∀ p, (run env' gcAll (.boot w'.fs)).2.fs.lookup p = w'.fs.lookup p := by
  have hpost := (wp_gcAll env (.boot fs)).post
  rw [hrun] at hpost
  rcases hpost with ⟨_, he, -⟩ | ⟨n', hn, hload, hsw⟩
  · cases he
  obtain rfl := Except.ok.inj hn
  rw [World.boot_fs] at hload hsw
  have hroots := gcRoot_of_readable hread
  -- what is live loads as before, what is not is gone, nothing else changed, and the number
  refine ⟨⟨fun c hc => ?_, fun p h hd hp hno => ?_, fun h hno => ?_, fun p hp => ?_, hsw.card⟩, ?_⟩
  · have hkept := hsw.keepsLive hread hload hc
    refine ⟨hkept, commitKind.eval_load_congr hkept.commit.1 hkept.commit.2, fun k hk => ?_,
      fun k t hk ht ch hch v => ?_, fun σ v dest target => hkept.eval_restore v dest target⟩
    · exact treeKind.eval_load_congr (hkept.tree k hk).1 (hkept.tree k hk).2
    · exact eval_loadChunk_congr v (hkept.chunk k t hk ht ch hch)
  · refine hsw.gone p (.inr ⟨hd, h, ?_, hroots ▸ hno⟩)
    unfold hashOfStem
    dsimp only
    rw [hp, if_pos h.toHexChars_length, ContentHash.fromHexChars_toHexChars]
    rfl
  · exact hsw.gone _ (.inl ⟨h, rfl, hroots ▸ hno⟩)
  · exact hsw.kept p fun hg => hsw.gone p hg hp
  · -- the second sweep finds the same roots, and no garbage
    obtain ⟨hload', hclean⟩ := hsw.garbage_again hread hload
    rcases (wp_gcAll env' (.boot w'.fs)).post with ⟨_, -, -, hbad⟩ | ⟨m, hm, -, hsw'⟩
    · exact absurd hload' hbad
    rw [World.boot_fs] at hsw'
    have hsame : ∀ p, (run env' gcAll (.boot w'.fs)).2.fs.lookup p = w'.fs.lookup p := fun p => by
      by_cases hp : p ∈ w'.fs
      · exact hsw'.kept p (hclean p hp)
      · exact hsw'.lookup_absent hp
    refine ⟨?_, hsame⟩
    have hkeys : w'.fs.keys.toFinset ⊆ (run env' gcAll (.boot w'.fs)).2.fs.keys.toFinset :=
      fun p hp => by
        rw [List.mem_toFinset] at hp ⊢
        exact (mem_congr (hsame p)).2 hp
    have hzero := hsw'.card
    rw [Finset.sdiff_eq_empty_iff_subset.2 hkeys, Finset.card_empty] at hzero
    rw [hm, hzero]

end Collect

/-! ### A disk with an orphan. -/

section Orphan

attribute [local instance] sample

/-- HEAD names `commitA`; `commitC` is an orphan. -/
def orphanDisk : VaultFs := diskOf [
  (headFile, Text.toUtf8 hashA.toHex),
  (treePathBin treeE, wireE),
  (commitPathBin hashA, wireA),
  (commitPathBin hashC, wireC)]

theorem lookup_orphanDisk :
    orphanDisk.lookup headFile = some (Text.toUtf8 hashA.toHex) ∧
      headsFile ∉ orphanDisk ∧ snapshotsPath ∉ orphanDisk ∧
      orphanDisk.lookup (commitPathBin hashA) = some wireA ∧
      orphanDisk.lookup (treePathBin treeE) = some wireE := by
  simp only [← AList.lookup_eq_none]
  simp [orphanDisk, headFile, headsFile, snapshotsPath, commitPathBin, treePathBin]

/-- All three root files can be read, and the one live commit and its tree load. -/
theorem orphan_readable : RootsReadable orphanDisk ∧ ObjectsLoad (GcRoot orphanDisk) orphanDisk := by
  obtain ⟨hlhead, hnoHeads, hnoLog, hlA, hlE⟩ := lookup_orphanDisk
  have hhead := eval_head_written hlhead
  have hheads := eval_listHeadsFileOnly_absent hnoHeads
  have hlog := eval_loadSnapshots_absent hnoLog
  have hread : RootsReadable orphanDisk := ⟨⟨_, hhead⟩, ⟨_, hheads⟩, ⟨_, hlog⟩⟩
  have hA := loadCommit_sample encodeA sampleDigest_wires.2.1 hlA
  have hlive : ∀ c, Live orphanDisk c → c = hashA := by
    intro c hc
    refine hc.induct (P := fun c => c = hashA) ?_ ?_
    · rintro r (h | ⟨h, hr⟩ | ⟨h, hr⟩)
      · exact Option.some.inj (Except.ok.inj (h.symm.trans hhead))
      · obtain rfl := Except.ok.inj (h.symm.trans hheads)
        cases hr
      · obtain rfl := Except.ok.inj (h.symm.trans hlog)
        cases hr
    · rintro x y rfl ⟨k, hk, hy⟩
      obtain rfl := Except.ok.inj (hA.symm.trans hk)
      cases hy
  refine ⟨hread, fun c hc _ => ?_⟩
  rw [gcRoot_of_readable hread] at hc
  rw [hlive c hc]
  exact ⟨_, hA, fun _ => ⟨_, loadTree_sample hlE⟩⟩

/-- The rule at this disk. -/
theorem orphan_gcAll_exact : ∃ n w', run (quiet 0) gcAll (World.boot orphanDisk) = (.ok n, w') ∧
    CollectsExactly orphanDisk w'.fs n ∧ (run (quiet 0) gcAll (World.boot w'.fs)).1 = .ok 0 ∧
      ∀ p, (run (quiet 0) gcAll (World.boot w'.fs)).2.fs.lookup p = w'.fs.lookup p := by
  rcases (wp_gcAll (quiet 0) (World.boot orphanDisk)).post with ⟨_, -, -, hno⟩ | ⟨n, hn, -⟩
  · exact absurd orphan_readable.2 hno
  · exact ⟨n, _, Prod.ext hn rfl, gcAll_exact orphan_readable.1 (Prod.ext hn rfl)⟩

end Orphan

/-! ## §4. With unreadable roots. -/

section Unreadable

variable [Crates] {fs : VaultFs}

/-- A file of a commit that a root file leads to, of its tree, or of a chunk the tree lists. -/
inductive ProtectedFile (fs : VaultFs) : FilePath VaultDir → Prop
  | commit {c : ContentHash} {p : FilePath VaultDir} (hc : Live fs c)
      (hp : p = commitPathBin c ∨ p = commitPathJson c) : ProtectedFile fs p
  | tree {c : ContentHash} {k : Commit} {p : FilePath VaultDir} (hc : Live fs c)
      (hk : ReadM.eval fs (loadCommit c) = .ok k)
      (hp : p = treePathBin k.tree ∨ p = treePathJson k.tree) : ProtectedFile fs p
  | chunk {h : ContentHash} (hh : MarkedChunk (NamedRoot fs) fs h) : ProtectedFile fs (chunkPath h)

/-- No collection from `fs` deletes a protected file. -/
def FailsClosed (fs : VaultFs) : Prop :=
  ∀ (env : Outside) (p : FilePath VaultDir), ProtectedFile fs p → p ∈ fs →
    p ∈ (run env gcAll (.boot fs)).2.fs ∧ p ∈ (run env gcUnreachableChunks (.boot fs)).2.fs ∧
      p ∈ (run env gcUnreachableObjects (.boot fs)).2.fs

/-- The marks from HEAD alone stop at a damaged object, or cover what the root files protect. -/
structure HeadCovers (fs : VaultFs) : Prop where
  chunks : ObjectsLoad (HeadRoot fs) fs → ∀ h, MarkedChunk (NamedRoot fs) fs h →
    chunkPath h ∈ fs → MarkedChunk (HeadRoot fs) fs h
  commits : CommitsLoad (HeadRoot fs) fs → ∀ c, Live fs c → commitKind.Present fs c →
    MarkedObject (HeadRoot fs) fs c
  trees : CommitsLoad (HeadRoot fs) fs → ∀ c k, Live fs c →
    ReadM.eval fs (loadCommit c) = .ok k → treeKind.Present fs k.tree →
      MarkedObject (HeadRoot fs) fs k.tree

/-- An object file that is not garbage: its name is marked. -/
theorem not_garbageObject {roots : ContentHash → Prop} (hroots : GcRoot fs = roots) {α : Type}
    {K : ObjectKind α} {p : FilePath VaultDir} {h : ContentHash}
    (hp : p = K.pathBin h ∨ p = K.pathJson h) (hm : MarkedObject roots fs h) :
    ¬GarbageObject fs p := by
  rintro ⟨-, h', hh, hno⟩
  rw [hashOfStem_object hp] at hh
  cases hh
  exact hno (hroots ▸ hm)

/-- What the marks from HEAD cover is not garbage. -/
theorem HeadCovers.not_garbage (hc : HeadCovers fs) (hno : ¬RootsReadable fs)
    {p : FilePath VaultDir} (hp : ProtectedFile fs p) (hmem : p ∈ fs) :
    (ObjectsLoad (HeadRoot fs) fs → ¬GarbageChunk fs p) ∧
      (CommitsLoad (HeadRoot fs) fs → ¬GarbageObject fs p) := by
  have hroots := gcRoot_of_unreadable hno
  cases hp with
  | @commit c _ hlive hp =>
    have hpresent : commitKind.Present fs c := by
      rcases hp with rfl | rfl
      · exact .inl hmem
      · exact .inr hmem
    refine ⟨fun _ => not_garbageChunk_of_dir ?_, fun hload => ?_⟩
    · rcases hp with rfl | rfl <;> exact fun h => by cases h
    · exact not_garbageObject (K := commitKind) hroots hp (hc.commits hload c hlive hpresent)
  | @tree c k _ hlive hk hp =>
    have hpresent : treeKind.Present fs k.tree := by
      rcases hp with rfl | rfl
      · exact .inl hmem
      · exact .inr hmem
    refine ⟨fun _ => not_garbageChunk_of_dir ?_, fun hload => ?_⟩
    · rcases hp with rfl | rfl <;> exact fun h => by cases h
    · exact not_garbageObject (K := treeKind) hroots hp (hc.trees hload c k hlive hk hpresent)
  | @chunk h hh =>
    refine ⟨fun hload => ?_, fun _ => not_garbageObject_chunk h⟩
    rintro ⟨h', heq, hnot⟩
    obtain rfl : h = h' := (hexName_inj.1 (congrArg FilePath.name heq)).1
    exact hnot (hroots ▸ hc.chunks hload h hh hmem)

/-- What a collection from `fs` leaves. -/
theorem run_gcUnreachableChunks_cases (fs : VaultFs) (env : Outside) :
    ((run env gcUnreachableChunks (.boot fs)).2.fs = fs ∧ ¬ObjectsLoad (GcRoot fs) fs) ∨
      ∃ n, ObjectsLoad (GcRoot fs) fs ∧
        Swept (GarbageChunk fs) fs (run env gcUnreachableChunks (.boot fs)).2.fs n := by
  rcases (wp_gcUnreachableChunks env (.boot fs)).post with ⟨_, -, hw, hno⟩ | ⟨n, -, h⟩
  · exact .inl ⟨by rw [hw]; rfl, hno⟩
  · exact .inr ⟨n, h⟩

theorem run_gcUnreachableObjects_cases (fs : VaultFs) (env : Outside) :
    ((run env gcUnreachableObjects (.boot fs)).2.fs = fs ∧ ¬CommitsLoad (GcRoot fs) fs) ∨
      ∃ n, CommitsLoad (GcRoot fs) fs ∧
        Swept (GarbageObject fs) fs (run env gcUnreachableObjects (.boot fs)).2.fs n := by
  rcases (wp_gcUnreachableObjects env (.boot fs)).post with ⟨_, -, hw, hno⟩ | ⟨c, t, -, h⟩
  · exact .inl ⟨by rw [hw]; rfl, hno⟩
  · exact .inr ⟨c + t, h⟩

theorem run_gcAll_cases (fs : VaultFs) (env : Outside) :
    ((run env gcAll (.boot fs)).2.fs = fs ∧ ¬ObjectsLoad (GcRoot fs) fs) ∨
      ∃ n, ObjectsLoad (GcRoot fs) fs ∧ Swept (Garbage fs) fs (run env gcAll (.boot fs)).2.fs n := by
  rcases (wp_gcAll env (.boot fs)).post with ⟨_, -, hw, hno⟩ | ⟨n, -, h⟩
  · exact .inl ⟨by rw [hw]; rfl, hno⟩
  · exact .inr ⟨n, h⟩

/-- **With unreadable roots a collection deletes nothing that is protected exactly when the marks from
HEAD alone cover all of it, or stop at a damaged object.** -/
theorem gc_failsClosed_iff (hno : ¬RootsReadable fs) : FailsClosed fs ↔ HeadCovers fs := by
  have hroots := gcRoot_of_unreadable hno
  constructor
  · intro h
    have henv := h (quiet 0)
    have hobject : CommitsLoad (HeadRoot fs) fs → ∀ {α : Type} (K : ObjectKind α) (p : _) (x : _),
        (p = K.pathBin x ∨ p = K.pathJson x) → (K.dir = .commits ∨ K.dir = .trees) →
        ProtectedFile fs p → p ∈ fs → MarkedObject (HeadRoot fs) fs x := by
      intro hload α K p x hp hdir hprot hmem
      by_contra hnot
      rcases run_gcUnreachableObjects_cases _ _ with ⟨-, hbad⟩ | ⟨n, -, hsw⟩
      · exact hbad (hroots ▸ hload)
      · refine hsw.gone p ⟨?_, x, hashOfStem_object hp, hroots ▸ hnot⟩ (henv p hprot hmem).2.2
        rcases hp with rfl | rfl <;> exact hdir
    refine ⟨fun hload x hx hmem => ?_, fun hload c hlive hp => ?_, fun hload c k hlive hk hp => ?_⟩
    · by_contra hnot
      rcases run_gcUnreachableChunks_cases _ _ with ⟨-, hbad⟩ | ⟨n, -, hsw⟩
      · exact hbad (hroots ▸ hload)
      · exact hsw.gone _ ⟨x, rfl, hroots ▸ hnot⟩ (henv _ (.chunk hx) hmem).2.1
    · rcases hp with hp | hp
      · exact hobject hload commitKind _ c (.inl rfl) (.inl rfl) (.commit hlive (.inl rfl)) hp
      · exact hobject hload commitKind _ c (.inr rfl) (.inl rfl) (.commit hlive (.inr rfl)) hp
    · rcases hp with hp | hp
      · exact hobject hload treeKind _ _ (.inl rfl) (.inr rfl) (.tree hlive hk (.inl rfl)) hp
      · exact hobject hload treeKind _ _ (.inr rfl) (.inr rfl) (.tree hlive hk (.inr rfl)) hp
  · intro hc env p hprot hmem
    obtain ⟨hchunk, hobject⟩ := hc.not_garbage hno hprot hmem
    rw [← hroots] at hchunk hobject
    refine ⟨?_, ?_, ?_⟩
    · rcases run_gcAll_cases fs env with ⟨hw, -⟩ | ⟨n, hload, hsw⟩
      · rwa [hw]
      · exact hsw.mem_of_not hmem (not_or.2 ⟨hchunk hload, hobject (commitsLoad_of_objectsLoad hload)⟩)
    · rcases run_gcUnreachableChunks_cases fs env with ⟨hw, -⟩ | ⟨n, hload, hsw⟩
      · rwa [hw]
      · exact hsw.mem_of_not hmem (hchunk hload)
    · rcases run_gcUnreachableObjects_cases fs env with ⟨hw, -⟩ | ⟨n, hload, hsw⟩
      · rwa [hw]
      · exact hsw.mem_of_not hmem (hobject hload)

end Unreadable

/-! ### A torn HEAD. -/

section Sample

attribute [local instance] sample

/-- HEAD is empty, as after a crash between truncate and write; HEADS names `commitC`. -/
def tornHeadDisk : VaultFs := diskOf [
  (headFile, Text.toUtf8 ""),
  (headsFile, Text.toUtf8 (String.ofList (headsBody {hashC}))),
  (treePathBin treeE, wireE),
  (commitPathBin hashC, wireC)]

theorem tornHead_unreadable : ¬RootsReadable tornHeadDisk := by
  rintro ⟨⟨h, hh⟩, -, -⟩
  have hl : tornHeadDisk.lookup headFile = some (Text.toUtf8 "") := by simp [tornHeadDisk]
  rw [eval_head_present (Fs.mem_iff_lookup.2 ⟨_, hl⟩), eval_readToString_text hl] at hh
  cases hh

/-- The torn HEAD makes the collection delete what HEADS names. -/
theorem gcAll_deletes_listed_head : ¬∀ fs : VaultFs, ¬RootsReadable fs → FailsClosed fs := by
  intro h
  have hl : tornHeadDisk.lookup (commitPathBin hashC) = some wireC := by
    simp [tornHeadDisk, headFile, headsFile, commitPathBin, treePathBin]
  have hlheads : tornHeadDisk.lookup headsFile =
      some (Text.toUtf8 (String.ofList (headsBody {hashC}))) := by
    simp [tornHeadDisk, headFile, headsFile]
  have hlive : Live tornHeadDisk hashC :=
    .root (.heads (eval_listHeadsFileOnly_written hlheads) (Finset.mem_singleton_self _))
  have hmem := (h tornHeadDisk tornHead_unreadable (quiet 0) _ (.commit hlive (.inl rfl))
    (Fs.mem_iff_lookup.2 ⟨_, hl⟩)).1
  -- without a HEAD nothing is reached
  have hnone : ∀ c, ¬LiveFrom (GcRoot tornHeadDisk) tornHeadDisk c := by
    rw [gcRoot_of_unreadable tornHead_unreadable]
    rintro c ⟨r, hr, -⟩
    have hl : tornHeadDisk.lookup headFile = some (Text.toUtf8 "") := by simp [tornHeadDisk]
    rw [HeadRoot, eval_head_present (Fs.mem_iff_lookup.2 ⟨_, hl⟩), eval_readToString_text hl] at hr
    cases hr
  rcases run_gcAll_cases tornHeadDisk (quiet 0) with ⟨-, hbad⟩ | ⟨n, -, hsw⟩
  · exact hbad fun c hc => absurd hc (hnone c)
  · refine hsw.gone _ (.inr ⟨.inl rfl, hashC, ?_, ?_⟩) hmem
    · exact hashOfStem_object (K := commitKind) (.inl rfl)
    · rintro ⟨c, k, hc, -⟩
      exact hnone c hc

/-- The rule at this disk. -/
theorem tornHead_failsClosed_iff : FailsClosed tornHeadDisk ↔ HeadCovers tornHeadDisk :=
  gc_failsClosed_iff tornHead_unreadable

end Sample

end Soal

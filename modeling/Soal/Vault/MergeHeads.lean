/-
  Soal.Vault.MergeHeads — which heads survive `merge_head`.

  A merge writes a commit with at most two parents, the local HEAD and the remote head, and replaces
  HEAD and HEADS by it.  A head recorded before is still reachable when one of the two parents leads
  to it; a third, unrelated head is forgotten.
-/
import Soal.SampleVault

namespace Soal

open FileProg

section Merge

variable [Crates]

/-! ## §1. The merge commit, from what is there before. -/

/-- The commit that is made of these parts when the next answer from outside is the `n`th. -/
def Vault.commitAt (v : Vault) (env : Outside) (n : Nat) (tree : ContentHash)
    (parents : List ContentHash) (message : String) : Res Commit :=
  let unsigned (author : String) (n : Nat) : Commit :=
    ⟨tree, parents, author, env n .now, message, .ofNat protocolVersion, none⟩
  match v.soalHome with
  | none => .ok (unsigned "soal-local" n)
  | some home =>
      let author := (env n (.loadSecretKey home)).map fun sk =>
        Crates.publicKeyText (Crates.publicKey sk)
      let commit := unsigned (author.toOption.getD "soal-local") (n + 1)
      -- the key is loaded a second time to sign
      match env (n + 2) (.loadSecretKey home) with
      | .ok sk => signCommit sk commit
      | .error _ => .ok commit

/-- The name of the commit a merge is about to make: HEAD's tree merged with the remote one, under
both heads, with the number of copies in the message. -/
def Vault.mergeName (v : Vault) (env : Outside) (w : VaultWorld) (remoteHead : ContentHash)
    (label : String) : Res ContentHash := do
  let remote ← ReadM.eval w.fs (loadCommit remoteHead)
  let theirs ← ReadM.eval w.fs (loadTree remote.tree)
  let localHead ← ReadM.eval w.fs head
  let ours ← ReadM.eval w.fs (treeOfHead localHead)
  let merged := ours.mergeWithConflicts theirs label
  let tree ← treeKind.hash merged.1
  let commit ← v.commitAt env w.tick tree (mergeParents localHead remoteHead)
    (mergeMessage label merged.2)
  commitKind.hash commit

section Name

variable {env : Outside} {w : VaultWorld}

/-- Making a commit asks for the author, the clock and the key, and puts the answers together. -/
theorem Vault.wp_makeCommit_at (v : Vault) (tree : ContentHash) (parents : List ContentHash)
    (message : String) : wp env (fun _ => True) (v.makeCommit tree parents message)
      (fun r w' => r = v.commitAt env w.tick tree parents message ∧ w'.fs = w.fs) w := by
  unfold Vault.makeCommit Vault.localAuthor Vault.signLocally Vault.commitAt
  cases hv : v.soalHome with
  | none => exact wp_answer trivial ⟨trivial, rfl, rfl⟩
  | some home =>
    refine wp_answer trivial (wp_answer trivial (wp_answer trivial ?_))
    have htick : w.asked.asked.tick = w.tick + 2 := rfl
    rw [htick]
    dsimp only
    cases env (w.tick + 2) (.loadSecretKey home) with
    | ok sk => exact ⟨trivial, rfl, rfl⟩
    | error e => exact ⟨trivial, rfl, rfl⟩

/-- The commit that ends an operation has the name its parts give it. -/
theorem Vault.wp_commitTree_at (v : Vault) (tree : ContentHash) (parents : List ContentHash)
    (message : String) : wp env (fun _ => True) (v.commitTree tree parents message)
      (fun r _ => ∀ m, r = .ok m →
        (v.commitAt env w.tick tree parents message >>= commitKind.hash) = .ok m) w := by
  unfold Vault.commitTree
  refine wp_seq (v.wp_makeCommit_at tree parents message) (fun c w₁ _ h₁ => ?_)
    (fun e w₁ _ _ m hr => by cases hr)
  rw [← h₁.1]
  refine wp_seq (commitKind.wp_save trivial fun _ _ => ⟨trivial, trivial⟩) (fun h w₂ _ h₂ => ?_)
    (fun e w₂ _ _ m hr => by cases hr)
  rcases h₂ with ⟨_, he, -⟩ | ⟨bytes, hb, hr, -⟩
  · cases he
  obtain rfl := Except.ok.inj hr
  refine wp_write trivial trivial ⟨trivial, fun m hm => ?_⟩
  obtain rfl := Except.ok.inj hm
  exact congrArg (Except.map ContentHash.of) hb

/-- **A merge that succeeds makes the commit that was named before.** -/
theorem Vault.wp_mergeHead_name (v : Vault) (remoteHead : ContentHash) (label : String) :
    wp env (fun _ => True) (v.mergeHead remoteHead label)
      (fun r _ => ∀ m n, r = .ok (m, n) → v.mergeName env w remoteHead label = .ok m) w := by
  unfold Vault.mergeHead Vault.mergeName
  refine wp_read trivial (fun _ _ => ?_) (fun e _ m n hr => by cases hr)
  refine wp_read trivial (fun remote hremote => ?_) (fun e _ m n hr => by cases hr)
  refine wp_read trivial (fun theirs htheirs => ?_) (fun e _ m n hr => by cases hr)
  refine wp_read trivial (fun localHead hlocal => ?_) (fun e _ m n hr => by cases hr)
  refine wp_read trivial (fun ours hours => ?_) (fun e _ m n hr => by cases hr)
  refine wp_seq (treeKind.wp_save trivial fun _ _ => ⟨trivial, trivial⟩) (fun tree w₁ _ h₁ => ?_)
    (fun e w₁ _ _ m n hr => by cases hr)
  rcases h₁ with ⟨_, he, -⟩ | ⟨bytes, hb, htree, rfl⟩
  · cases he
  refine wp_seq (v.wp_commitTree_at tree _ _) (fun m w₂ _ h₂ => ?_) (fun e w₂ _ _ m n hr => by cases hr)
  refine wp_write trivial trivial ⟨trivial, fun m' n' hr => ?_⟩
  obtain ⟨rfl, -⟩ := Prod.mk.inj (Except.ok.inj hr)
  have hsaved : treeKind.hash (ours.mergeWithConflicts theirs label).1 = .ok tree :=
    (congrArg (Except.map ContentHash.of) hb).trans htree.symm
  -- writing the tree asked nothing outside, so the answers are those of the start
  refine bind_ok_iff.2 ⟨remote, hremote, bind_ok_iff.2 ⟨theirs, htheirs, bind_ok_iff.2 ⟨localHead,
    hlocal, bind_ok_iff.2 ⟨ours, hours, bind_ok_iff.2 ⟨tree, hsaved, ?_⟩⟩⟩⟩⟩
  exact h₂ m rfl

end Name

/-! ## §2. The state after a merge. -/

/-- From `fs` to `fs'` the commit `m` with these parents was written, and became the only head. -/
structure Collapsed (fs fs' : VaultFs) (parents : List ContentHash) (m : ContentHash) : Prop where
  commit : ∃ c bytes, c.parents = parents ∧ encodeCommitWire c = .ok bytes ∧
    ContentHash.of bytes = m ∧ fs'.lookup (commitPathBin m) = some bytes
  others : ∀ p, p.dir = .commits → p ≠ commitPathBin m → fs'.lookup p = fs.lookup p
  head : ReadM.eval fs' head = .ok (some m)
  heads : ReadM.eval fs' listHeadsFileOnly = .ok {m}

/-- A merge that succeeds collapses the heads. -/
theorem Vault.wp_mergeHead (v : Vault) (env : Outside) (remoteHead : ContentHash) (label : String)
    (w : VaultWorld) :
    wp env (fun _ => True) (v.mergeHead remoteHead label) (fun r w' => ∀ m n, r = .ok (m, n) →
      ∃ localHead, ReadM.eval w.fs head = .ok localHead ∧
        Collapsed w.fs w'.fs (mergeParents localHead remoteHead) m) w := by
  unfold Vault.mergeHead
  refine wp_read trivial (fun _ _ => ?_) (fun e _ m n hr => by cases hr)
  refine wp_read trivial (fun remoteCommit _ => ?_) (fun e _ m n hr => by cases hr)
  refine wp_read trivial (fun remoteTree _ => ?_) (fun e _ m n hr => by cases hr)
  refine wp_read trivial (fun localHead hlocal => ?_) (fun e _ m n hr => by cases hr)
  refine wp_read trivial (fun ours _ => ?_) (fun e _ m n hr => by cases hr)
  refine wp_seq (treeKind.wp_save trivial fun _ _ => ⟨trivial, trivial⟩) (fun treeHash w₁ _ h₁ => ?_)
    (fun e w₁ _ _ m n hr => by cases hr)
  -- saving the tree leaves the commits alone
  have htree : ∀ p, p.dir ≠ .trees → w₁.fs.lookup p = w.fs.lookup p := by
    rcases h₁ with ⟨_, he, -⟩ | ⟨bytes, -, -, rfl⟩
    · cases he
    · intro p hp
      rw [World.lookup_written, if_neg (fun h => hp (by rw [h]; rfl))]
  refine wp_seq (v.wp_commitTree treeHash _ _ (fun _ _ _ => trivial)
    fun _ _ _ _ _ _ _ => ⟨trivial, trivial, trivial, trivial⟩) (fun m w₂ _ h₂ => ?_)
    (fun e w₂ _ _ m n hr => by cases hr)
  refine wp_write trivial trivial ⟨trivial, fun m' n' hr => ?_⟩
  obtain ⟨rfl, -⟩ := Prod.mk.inj (Except.ok.inj hr)
  rcases h₂ with ⟨_, he, -⟩ | ⟨w₀, c, bytes, hfs, -, hparents, hb, hm, rfl⟩
  · cases he
  obtain rfl := Except.ok.inj hm
  refine ⟨localHead, hlocal, ⟨c, bytes, hparents, hb, rfl, ?_⟩, fun p hp hne => ?_, ?_, ?_⟩
  · rw [World.lookup_written, if_neg (by simp [commitPathBin, headsFile]), committed,
      World.lookup_written, if_neg (by simp [commitPathBin, headFile]), World.lookup_written,
      if_pos rfl]
  · have h₁ : p ≠ headsFile := fun h => by rw [h] at hp; cases hp
    have h₂ : p ≠ headFile := fun h => by rw [h] at hp; cases hp
    rw [World.lookup_written, if_neg h₁, committed, World.lookup_written, if_neg h₂,
      World.lookup_written, if_neg hne, hfs, htree p (by rw [hp]; decide)]
  · refine eval_head_written ?_
    rw [World.lookup_written, if_neg (by decide), committed, World.lookup_written, if_pos rfl]
  · exact eval_listHeadsFileOnly_written (by rw [World.lookup_written, if_pos rfl])

/-! ## §3. What is reachable from the merge. -/

omit [Crates] in
theorem mem_mergeParents {localHead : Option ContentHash} {remoteHead p : ContentHash} :
    p ∈ mergeParents localHead remoteHead ↔ localHead = some p ∨ p = remoteHead := by
  unfold mergeParents
  split
  next h =>
    rw [Option.mem_toList] at h ⊢
    exact ⟨.inl, fun hp => hp.elim id fun hr => hr ▸ h⟩
  next => rw [List.mem_append, Option.mem_toList, List.mem_singleton]

/-- The commit data that loading hashes before and after a merge. -/
def MergeData (fs fs' : VaultFs) (b : Bytes) : Prop :=
  commitKind.Hashed fs b ∨ commitKind.Hashed fs' b

section Reachable

variable {fs fs' : VaultFs} {parents : List ContentHash} {m : ContentHash}

/-- **From the merge commit one reaches the merge commit, and what its parents reached before.** -/
theorem Collapsed.reach_iff (h : Collapsed fs fs' parents m) (hjson : commitKind.JsonUnframed)
    (hfree : CollisionFree (MergeData fs fs')) (g : ContentHash) :
    Reach fs' m g ↔ g = m ∨ ∃ p ∈ parents, Reach fs p g := by
  obtain ⟨c, bytes, hparents, hb, hm, hl⟩ := h.commit
  subst hm hparents
  have hload : ReadM.eval fs' (loadCommit (.of bytes)) = .ok c.normal := eval_loadCommit_saved hb hl
  have hnew : ∀ p, Parent fs' (.of bytes) p ↔ p ∈ c.parents := fun p => by
    rw [Parent, hload, ← c.normal_parents]
    constructor
    · rintro ⟨k, hk, hp⟩
      cases hk
      exact hp
    · exact fun hp => ⟨c.normal, rfl, hp⟩
  have hother : ∀ x y, x ≠ .of bytes → (Parent fs' x y ↔ Parent fs x y) := fun x y hx => by
    have hcongr : ReadM.eval fs' (loadCommit x) = ReadM.eval fs (loadCommit x) := by
      refine commitKind.eval_load_congr (h.others _ rfl fun heq => hx ?_)
        (h.others _ rfl ObjectKind.pathJson_ne_pathBin)
      exact (ObjectKind.pathBin_inj (K := commitKind)).1 heq
    unfold Parent
    rw [hcongr]
  -- a commit that was stored under this name before is the same commit
  have hsame : ∀ y, Parent fs (.of bytes) y → Parent fs' (.of bytes) y := by
    rintro y ⟨k, hk, hy⟩
    have hframed := (decodeCommitWire_encodeCommitWire hb).1
    have hstored := commitKind.stored_of_load hjson
      (fun b hbytes heq => hfree b bytes (.inl hbytes) (.inr (.bin hl)) heq) hframed hk
    have hk' : ReadM.eval fs (loadCommit (.of bytes)) = .ok c.normal :=
      eval_loadCommit_saved hb hstored
    obtain rfl := Except.ok.inj (hk.symm.trans hk')
    exact ⟨c.normal, hload, hy⟩
  have hpatch := Worklist.reach_patched hother hsame g
  simp only [hnew] at hpatch
  exact hpatch

/-- After a merge the merge commit is the list of heads. -/
theorem Collapsed.listHeads (h : Collapsed fs fs' parents m) :
    ReadM.eval fs' listHeads = .ok {m} := by
  rw [eval_listHeads, h.heads, ok_bind, h.head]
  exact congrArg Except.ok (Finset.union_self {m})

end Reachable

/-! ## §4. Which heads survive. -/

/-- `list_heads` names the commit. -/
def ListedHead (fs : VaultFs) (g : ContentHash) : Prop :=
  ∃ heads, ReadM.eval fs listHeads = .ok heads ∧ g ∈ heads

/-- Some listed head leads to the commit. -/
def HeadsReach (fs : VaultFs) (g : ContentHash) : Prop := ∃ r, ListedHead fs r ∧ Reach fs r g

/-- HEAD is this commit or a descendant of it. -/
def HeadReaches (fs : VaultFs) (g : ContentHash) : Prop :=
  ∃ l, ReadM.eval fs head = .ok (some l) ∧ Reach fs l g

/-- After a merge the heads lead to the merge commit, and to what its two parents led to. -/
theorem Vault.mergeHead_headsReach_iff (hjson : commitKind.JsonUnframed) {v : Vault} {env : Outside}
    {w w' : VaultWorld} {remoteHead m : ContentHash} {label : String} {n : Nat}
    (hrun : run env (v.mergeHead remoteHead label) w = (.ok (m, n), w'))
    (hfree : CollisionFree (MergeData w.fs w'.fs)) (g : ContentHash) :
    HeadsReach w'.fs g ↔ g = m ∨ HeadReaches w.fs g ∨ Reach w.fs remoteHead g := by
  have hpost := (v.wp_mergeHead env remoteHead label w).post
  rw [hrun] at hpost
  obtain ⟨localHead, hlocal, hcol⟩ := hpost m n rfl
  have hheads : HeadsReach w'.fs g ↔ Reach w'.fs m g := by
    unfold HeadsReach ListedHead
    rw [hcol.listHeads]
    constructor
    · rintro ⟨r, ⟨heads, hh, hr⟩, hrg⟩
      cases hh
      exact Finset.mem_singleton.1 hr ▸ hrg
    · exact fun h => ⟨m, ⟨{m}, rfl, Finset.mem_singleton_self m⟩, h⟩
  rw [hheads, hcol.reach_iff hjson hfree]
  refine or_congr_right ⟨?_, ?_⟩
  · rintro ⟨p, hp, hpg⟩
    rcases mem_mergeParents.1 hp with rfl | rfl
    · exact .inl ⟨p, hlocal, hpg⟩
    · exact .inr hpg
  · rintro (⟨l, hl, hlg⟩ | hg)
    · obtain rfl := Except.ok.inj (hlocal.symm.trans hl)
      exact ⟨l, mem_mergeParents.2 (.inl rfl), hlg⟩
    · exact ⟨remoteHead, mem_mergeParents.2 (.inr rfl), hg⟩

/-- **A merge keeps every head exactly when one of its two parents leads to each of them**, or the
head already is the commit of the merge. -/
theorem Vault.mergeHead_keeps_heads_iff (hjson : commitKind.JsonUnframed) {v : Vault}
    {env : Outside} {w w' : VaultWorld} {remoteHead m : ContentHash} {label : String} {n : Nat}
    (hrun : run env (v.mergeHead remoteHead label) w = (.ok (m, n), w'))
    (hfree : CollisionFree (MergeData w.fs w'.fs)) :
    (∀ g, ListedHead w.fs g → HeadsReach w'.fs g) ↔
      ∀ g, ListedHead w.fs g → v.mergeName env w remoteHead label = .ok g ∨
        HeadReaches w.fs g ∨ Reach w.fs remoteHead g := by
  have hrule : wp env (fun _ => True) (v.mergeHead remoteHead label) _ w :=
    v.wp_mergeHead_name remoteHead label
  have hname := hrule.post
  rw [hrun] at hname
  refine forall₂_congr fun g _ => ?_
  rw [mergeHead_headsReach_iff hjson hrun hfree g, hname m n rfl]
  exact or_congr_left ⟨fun hg => hg ▸ rfl, fun hg => (Except.ok.inj hg).symm⟩

end Merge

/-! ## §5. Three heads. -/

section Sample

attribute [local instance] sample

/-- HEAD is `commitA`; HEADS lists three unrelated commits. -/
def forkedDisk : VaultFs := diskOf [
  (headFile, Text.toUtf8 hashA.toHex),
  (headsFile, Text.toUtf8 (String.ofList (headsBody {hashA, hashB, hashC}))),
  (treePathBin treeE, wireE),
  (commitPathBin hashA, wireA),
  (commitPathBin hashB, wireB),
  (commitPathBin hashC, wireC)]

/-- An unencrypted vault on a machine without a node identity. -/
def plainVault : Vault := ⟨{ sampleConfig with encryptionEnabled := false }, none, none⟩

def forkedMerge : VaultWorld :=
  (committed ((World.boot forkedDisk).written (treePathBin treeE) wireE).asked hashM wireM).written
    headsFile (Text.toUtf8 (String.ofList (headsBody {hashM})))

theorem lookup_forkedDisk :
    forkedDisk.lookup headFile = some (Text.toUtf8 hashA.toHex) ∧
    forkedDisk.lookup (treePathBin treeE) = some wireE ∧
    forkedDisk.lookup (commitPathBin hashA) = some wireA ∧
    forkedDisk.lookup (commitPathBin hashB) = some wireB ∧
    forkedDisk.lookup (commitPathBin hashC) = some wireC := by
  simp [forkedDisk, commitPathBin, treePathBin, headFile, headsFile]

theorem run_forkedMerge : run (quiet 1700000004) (plainVault.mergeHead hashB "b")
    (World.boot forkedDisk) = (.ok (hashM, 0), forkedMerge) := by
  obtain ⟨hlhead, hlE, hlA, hlB, -⟩ := lookup_forkedDisk
  have hB : ReadM.eval forkedDisk (loadCommit hashB) = .ok commitB.normal :=
    loadCommit_sample encodeB sampleDigest_wires.2.2.1 hlB
  have hA : ReadM.eval forkedDisk (loadCommit hashA) = .ok commitA.normal :=
    loadCommit_sample encodeA sampleDigest_wires.2.1 hlA
  have hE : ReadM.eval forkedDisk (loadTree treeE) = .ok Tree.new := loadTree_sample hlE
  have hhead : ReadM.eval forkedDisk head = .ok (some hashA) := eval_head_written hlhead
  have hours : ReadM.eval forkedDisk (treeOfHead (some hashA)) = .ok Tree.new := by
    rw [treeOfHead, ReadM.eval_bind, hA]
    exact hE
  have hmerge : Tree.new.mergeWithConflicts Tree.new "b" = (Tree.new, 0) := rfl
  have hparents : mergeParents (some hashA) hashB = [hashA, hashB] := by decide
  have hmessage : mergeMessage "b" 0 = "Merge b" := by simp [mergeMessage]
  have hcommit : (⟨treeE, [hashA, hashB], "soal-local", quiet 1700000004
      ((World.boot forkedDisk).written (treePathBin treeE) wireE).tick .now, "Merge b",
      .ofNat protocolVersion, none⟩ : Commit) = commitM := rfl
  have hstep {α β : Type} {x : Reads α} {f : α → Action β} {a : α}
      (h : ReadM.eval forkedDisk x = .ok a) : run (quiet 1700000004) (ofRead x >>= f)
        (World.boot forkedDisk) = run (quiet 1700000004) (f a) (World.boot forkedDisk) :=
    run_read_ok h
  unfold Vault.mergeHead
  refine (hstep hB).trans ((hstep hB).trans ((hstep hE).trans ?_))
  refine (hstep hhead).trans ((hstep hours).trans ?_)
  rw [hmerge]
  dsimp only
  rw [hparents, hmessage]
  refine (run_bind_ok run_saveTree_sample).trans ?_
  refine (run_bind_ok (Vault.run_commitTree_plain rfl (hcommit ▸ encodeM)
    sampleDigest_wires.2.2.2.2.2)).trans ?_
  rfl

/-- The commits of the example are of the small history. -/
theorem forked_collisionFree : CollisionFree (MergeData forkedDisk forkedMerge.fs) := by
  have hbefore : ∀ p b, p.dir = .commits → forkedDisk.lookup p = some b →
      b ∈ [wireE, wireA, wireB, wireC, wireD, wireM] := fun p b hp hl => by
    have hmem := mem_of_lookup_diskOf hl
    simp only [List.mem_cons, Prod.mk.injEq, List.not_mem_nil, or_false] at hmem ⊢
    rcases hmem with ⟨rfl, rfl⟩ | ⟨rfl, rfl⟩ | ⟨rfl, rfl⟩ | ⟨-, rfl⟩ | ⟨-, rfl⟩ | ⟨-, rfl⟩
    · cases hp
    · cases hp
    · cases hp
    · simp
    · simp
    · simp
  have hafter : ∀ p b, p.dir = .commits → forkedMerge.fs.lookup p = some b →
      b ∈ [wireE, wireA, wireB, wireC, wireD, wireM] := fun p b hp hl => by
    rw [forkedMerge, World.lookup_written, if_neg (by rintro rfl; cases hp), committed,
      World.lookup_written, if_neg (by rintro rfl; cases hp), World.lookup_written] at hl
    split at hl
    next =>
      cases hl
      simp
    next =>
      refine hbefore p b hp ?_
      rwa [World.asked_fs, World.lookup_written, if_neg (by rintro rfl; cases hp)] at hl
  refine sample_collisionFree.mono fun b hb => ?_
  rcases hb with hb | hb
  · cases hb with
    | bin hl => exact hbefore _ b rfl hl
    | json hl => exact hbefore _ b rfl hl
    | legacy _ hx => cases hx
  · cases hb with
    | bin hl => exact hafter _ b rfl hl
    | json hl => exact hafter _ b rfl hl
    | legacy _ hx => cases hx

/-- The third head is not an ancestor of the other two: they have no parents. -/
theorem forked_not_reach : ¬Reach forkedDisk hashA hashC ∧ ¬Reach forkedDisk hashB hashC := by
  obtain ⟨-, -, hlA, hlB, -⟩ := lookup_forkedDisk
  have hA := loadCommit_sample encodeA sampleDigest_wires.2.1 hlA
  have hB := loadCommit_sample encodeB sampleDigest_wires.2.2.1 hlB
  rw [reach_parentless hA rfl, reach_parentless hB rfl]
  decide

/-- Merging the second of three unrelated heads forgets the third. -/
theorem mergeHead_forgets_third_head :
    ¬∀ (env : Outside) (w w' : VaultWorld) (remoteHead m : ContentHash) (label : String) (n : Nat),
      run env (plainVault.mergeHead remoteHead label) w = (.ok (m, n), w') →
      ∀ g, ListedHead w.fs g → HeadsReach w'.fs g := by
  intro h
  have hC : ListedHead forkedDisk hashC := by
    obtain ⟨hlhead, -⟩ := lookup_forkedDisk
    have hlheads : forkedDisk.lookup headsFile =
        some (Text.toUtf8 (String.ofList (headsBody {hashA, hashB, hashC}))) := by
      simp [forkedDisk, headFile, headsFile]
    refine ⟨(some hashA).toFinset ∪ {hashA, hashB, hashC}, ?_, by simp⟩
    rw [eval_listHeads, eval_listHeadsFileOnly_written hlheads, ok_bind, eval_head_written hlhead]
    rfl
  have hreach := h _ _ _ _ _ _ _ run_forkedMerge hashC hC
  rw [Vault.mergeHead_headsReach_iff sample_commitJson run_forkedMerge forked_collisionFree] at hreach
  rcases hreach with heq | ⟨l, hl, hreach⟩ | hreach
  · exact absurd heq (by simp)
  · rw [World.boot_fs, eval_head_written lookup_forkedDisk.1] at hl
    cases hl
    exact forked_not_reach.1 hreach
  · exact forked_not_reach.2 hreach

/-- The rule at this merge. -/
theorem forkedMerge_keeps_heads_iff :
    (∀ g, ListedHead forkedDisk g → HeadsReach forkedMerge.fs g) ↔ ∀ g, ListedHead forkedDisk g →
      plainVault.mergeName (quiet 1700000004) (World.boot forkedDisk) hashB "b" = .ok g ∨
        HeadReaches forkedDisk g ∨ Reach forkedDisk hashB g :=
  Vault.mergeHead_keeps_heads_iff sample_commitJson run_forkedMerge forked_collisionFree

end Sample

end Soal

/-
  Soal.Vault.ProvideAll — when the collection for a commit misses nothing.

  Over a DAG that is present, the collection succeeds and is complete exactly when the commits and the
  walked trees can be served and the chunks of the others turn up elsewhere: a tree whose hash was met
  before is passed over together with its chunks.
-/
import Soal.Vault.Provide

namespace Soal

open FileProg Worklist

section Laws

variable [Crates] {fs : VaultFs}

/-! ## §1. What a visit leaves. -/

/-- The blobs collected so far are the hashes met so far, each once and with bytes of its hash. -/
structure Filled (s : Provided) : Prop where
  nodup : (s.out.map Prod.fst).Nodup
  mem : ∀ x, x ∈ s.seenBlobs ↔ x ∈ s.out.map Prod.fst
  hash : ∀ p ∈ s.out, ContentHash.of p.2 = p.1

section Filled

variable {s s' : Provided} {h : ContentHash} {b : Bytes}

theorem Filled.init : Filled ⟨∅, []⟩ := ⟨List.nodup_nil, by simp, by simp⟩

theorem Filled.push (hs : Filled s) (hn : h ∉ s.seenBlobs) (hb : ContentHash.of b = h) :
    Filled (s.push h b) where
  nodup := by
    rw [Provided.push, List.map_append]
    refine hs.nodup.append (List.nodup_singleton h) ?_
    rw [List.disjoint_right]
    intro x hx
    obtain rfl := List.mem_singleton.1 hx
    exact fun hx => hn ((hs.mem _).2 hx)
  mem x := by
    simp only [Provided.push, Finset.mem_insert, List.map_append, List.mem_append, hs.mem x,
      List.map_cons, List.map_nil, List.mem_singleton]
    exact or_comm
  hash p hp := by
    rcases List.mem_append.1 hp with hp | hp
    · exact hs.hash p hp
    · obtain rfl := List.mem_singleton.1 hp
      exact hb

/-- Chunks that are intact are collected, each once. -/
theorem Filled.chunks {chs : List ContentHash} (hs : Filled s) (hch : ∀ ch ∈ chs, ChunkIntact fs ch)
    (hok : ReadM.eval fs (provideChunks s chs) = .ok s') : Filled s' := by
  induction chs generalizing s with
  | nil =>
    obtain rfl := Except.ok.inj hok
    exact hs
  | cons ch chs ih =>
    rw [provideChunks, ReadM.eval_bind] at hok
    obtain ⟨s₁, h₁, hok⟩ := bind_ok_iff.1 hok
    refine ih ?_ (fun x hx => hch x (List.mem_cons_of_mem ch hx)) hok
    obtain ⟨b, hl, hb⟩ := hch ch List.mem_cons_self
    unfold provideChunk at h₁
    split at h₁
    next =>
      obtain rfl := Except.ok.inj h₁
      exact hs
    next hmem =>
      rw [ReadM.eval_bind, okOrNone, ReadM.eval_handle, exportStoredChunk, eval_chunkStoreGet_some hl,
        if_pos hb] at h₁
      obtain rfl := Except.ok.inj h₁
      exact hs.push hmem hb

/-- What is exported hashes to its name. -/
theorem ObjectKind.hash_of_export {α : Type} {K : ObjectKind α}
    (hb : ReadM.eval fs (K.exportBytes h) = .ok b) : ContentHash.of b = h := by
  obtain ⟨b', hb', hh⟩ := K.exports_of_ok hb
  obtain rfl := Except.ok.inj (hb.symm.trans hb')
  exact hh

theorem Filled.withCommit (hs : Filled s) (hb : ContentHash.of b = h) : Filled (s.withCommit h b) := by
  unfold Provided.withCommit
  split
  next => exact hs
  next hn => exact hs.push hn hb

/-- A visit whose chunks are intact collects each of its blobs once. -/
theorem Filled.visit {v : Visit} {parents ps : List ContentHash} (hs : Filled s)
    (hv : v.At fs parents) (hch : ∀ ch ∈ v.chunks, ChunkIntact fs ch)
    (hok : ReadM.eval fs (provideCommit s v.commit) = .ok (s', ps)) : Filled s' := by
  obtain ⟨b, k', hb, hk', -, hs'⟩ := provideCommit_ok_iff.1 hok
  have hs₁ : Filled (s.withCommit v.commit b) := hs.withCommit (ObjectKind.hash_of_export hb)
  obtain ⟨k, hk, -, htree⟩ := hv.tree_cases (s := s) b
  obtain rfl := Except.ok.inj (hk.symm.trans hk')
  rcases htree with ⟨-, -, hp, hnew, t, ht, hchunks⟩ | ⟨-, hskip⟩
  · rw [eval_provideTree_new hp hnew, ht] at hs'
    obtain ⟨tb, htb, hs'⟩ := bind_ok_iff.1 hs'
    exact (hs₁.push hnew (ObjectKind.hash_of_export htb)).chunks (hchunks ▸ hch) hs'
  · obtain rfl := Except.ok.inj (hskip.symm.trans hs')
    exact hs₁

/-- So does a whole walk. -/
theorem WalkOrder.filled {met : Finset ContentHash} {queue : List ContentHash} {vs : List Visit}
    {out : Provided} (h : WalkOrder fs met queue vs) (hs : Filled s)
    (hch : ∀ v ∈ vs, ∀ ch ∈ v.chunks, ChunkIntact fs ch)
    (hok : ReadM.eval fs (provideWalk met s queue) = .ok out) : Filled out := by
  induction h generalizing s with
  | done met =>
    rw [provideWalk] at hok
    obtain rfl := Except.ok.inj hok
    exact hs
  | again hc _ ih =>
    rw [eval_provideWalk_seen hc] at hok
    exact ih hs hch hok
  | deep hc hd =>
    rw [eval_provideWalk_deep hc hd] at hok
    cases hok
  | absent hc hd hp _ ih =>
    rw [eval_provideWalk_absent hc hd hp] at hok
    exact ih hs hch hok
  | @first met v queue parents vs hc hd hv _ ih =>
    obtain ⟨k, hk, hparents, -⟩ := id hv
    rw [eval_provideWalk_present hc hd (commitKind.present_of_load hk)] at hok
    obtain ⟨⟨s₁, ps⟩, h₁, hok⟩ := bind_ok_iff.1 hok
    obtain ⟨-, k', -, hk', rfl, -⟩ := provideCommit_ok_iff.1 h₁
    obtain rfl := Except.ok.inj (hk.symm.trans hk')
    rw [hparents] at hok
    exact ih (hs.visit hv (hch v List.mem_cons_self) h₁)
      (fun u hu => hch u (List.mem_cons_of_mem v hu)) hok

end Filled

/-! ## §2. A DAG that is present. -/

/-- Every ancestor is there, with its tree and all its chunks. -/
def DagPresent (fs : VaultFs) (root : ContentHash) : Prop :=
  ∀ c, Reach fs root c → ∃ k t, ReadM.eval fs (loadCommit c) = .ok k ∧
    ReadM.eval fs (loadTree k.tree) = .ok t ∧ ∀ ch ∈ t.allChunkHashes, ChunkIntact fs ch

section Dag

variable {root : ContentHash}

theorem DagPresent.loadsAt (hdag : DagPresent fs root) {c : ContentHash} (hc : Reach fs root c) :
    LoadsAt fs c := by
  obtain ⟨k, t, hk, ht, -⟩ := hdag c hc
  exact fun _ => ⟨k, hk, fun _ => ⟨t, ht⟩⟩

/-- The walk meets every commit of such a DAG, and each with its tree. -/
theorem WalkOrder.frontier (hdag : DagPresent fs root) (hsmall : DagSmall fs root)
    {met : Finset ContentHash} {queue : List ContentHash} {vs : List Visit}
    (h : WalkOrder fs met queue vs) (hf : Frontier (Parent fs) (· = root) met queue) :
    Frontier (Parent fs) (· = root) (met ∪ (vs.map Visit.commit).toFinset) [] := by
  induction h with
  | done => simpa using hf
  | again hc _ ih => exact ih (hf.skip hc)
  | @deep met c queue hc hd =>
    refine absurd ⟨insert c met, hd, fun x hx => hf.sound x ?_⟩ hsmall.not_tooDeep
    exact (Finset.mem_insert.1 hx).elim (fun h => .inr (h ▸ List.mem_cons_self)) .inl
  | @absent met c queue vs hc hd hp _ ih =>
    obtain ⟨k, t, hk, -⟩ := hdag c (reachable_root.1 (hf.sound c (.inr List.mem_cons_self)))
    exact absurd (commitKind.present_of_load hk) hp
  | @first met v queue parents vs _ _ hv _ ih =>
    obtain ⟨k, hk, rfl, -⟩ := hv
    have hnext := ih (frontier_loaded hf hk)
    rwa [List.map_cons, List.toFinset_cons, Finset.union_insert, ← Finset.insert_union]

theorem DagPresent.visit (hdag : DagPresent fs root) {v : Visit} {parents : List ContentHash}
    (hc : Reach fs root v.commit) (hv : v.At fs parents) :
    ∃ k t, ReadM.eval fs (loadCommit v.commit) = .ok k ∧ v.tree = some k.tree ∧
      ReadM.eval fs (loadTree k.tree) = .ok t ∧ t.allChunkHashes = v.chunks ∧
      ∀ ch ∈ v.chunks, ChunkIntact fs ch := by
  obtain ⟨k, hk, -, htree⟩ := hv
  obtain ⟨k', t, hk', ht, hintact⟩ := hdag v.commit hc
  obtain rfl := Except.ok.inj (hk.symm.trans hk')
  rcases htree with ⟨hno, -⟩ | ⟨hsome, t', ht', hchunks⟩
  · exact absurd (treeKind.present_of_load ht) hno
  · obtain rfl := Except.ok.inj (ht.symm.trans ht')
    exact ⟨k, t, hk, hsome, ht, hchunks, hchunks ▸ hintact⟩

/-- The collection succeeds with a list of different hashes, each with bytes of its hash, that holds
every commit of the DAG with its tree and its chunks. -/
def ProvidesAll (fs : VaultFs) (root : ContentHash) : Prop :=
  ∃ out, ReadM.eval fs (collectProvideHashes root) = .ok out ∧ (out.map Prod.fst).Nodup ∧
    (∀ p ∈ out, ContentHash.of p.2 = p.1) ∧
    ∀ c k t, Reach fs root c → ReadM.eval fs (loadCommit c) = .ok k →
      ReadM.eval fs (loadTree k.tree) = .ok t →
      c ∈ out.map Prod.fst ∧ k.tree ∈ out.map Prod.fst ∧
        ∀ ch ∈ t.allChunkHashes, ch ∈ out.map Prod.fst

/-- Every chunk of a tree that is passed over turns up elsewhere: as a commit, as a tree or as a chunk of a
walked tree. -/
def NoneHidden (vs : List Visit) : Prop :=
  ∀ v ∈ vs, ∀ ch ∈ v.chunks, (∃ u ∈ vs, ch = u.commit ∨ ch ∈ u.tree) ∨
    ∃ u ∈ shown ∅ vs, ch ∈ u.chunks

/-- What completeness needs of the walk from a commit. -/
def WalkComplete (fs : VaultFs) (root : ContentHash) : Prop :=
  ∀ vs, WalkOrder fs ∅ [root] vs → ServesAlong fs ∅ vs ∧ NoneHidden vs

/-- **When the collection for a commit is complete**: its ancestors are present, at most
`MAX_JOB_COMMITS`. -/
theorem providesAll_iff (fs : VaultFs) (root : ContentHash) (hdag : DagPresent fs root)
    (hsmall : DagSmall fs root) : ProvidesAll fs root ↔ WalkComplete fs root := by
  -- facts about a walk from the commit
  have hwalk : ∀ vs, WalkOrder fs ∅ [root] vs → (∀ c, Reach fs root c ↔ ∃ v ∈ vs, v.commit = c) ∧
      ∀ v ∈ vs, ∃ k t, ReadM.eval fs (loadCommit v.commit) = .ok k ∧ v.tree = some k.tree ∧
        ReadM.eval fs (loadTree k.tree) = .ok t ∧ t.allChunkHashes = v.chunks ∧
        ∀ ch ∈ v.chunks, ChunkIntact fs ch := by
    intro vs hvs
    have hf := hvs.frontier hdag hsmall frontier_root
    constructor
    · intro c
      rw [← reachable_root, ← hf.seen_iff]
      simp
    · intro v hv
      obtain ⟨hreach, parents, hat⟩ := hvs.at frontier_root v hv
      exact hdag.visit (reachable_root.1 hreach) hat
  have hcollect : ∀ vs, WalkOrder fs ∅ [root] vs → ServesAlong fs ∅ vs → ∃ s,
      ReadM.eval fs (provideWalk ∅ ⟨∅, []⟩ [root]) = .ok s ∧ Filled s ∧
        s.seenBlobs = vs.foldl gather ∅ := by
    intro vs hvs hserve
    rcases hvs.provides (s := ⟨∅, []⟩) hserve with ⟨s, hs, hseen⟩ | ⟨-, hdeep⟩
    · refine ⟨s, hs, hvs.filled Filled.init (fun v hv => ?_) hs, hseen⟩
      obtain ⟨k, t, -, -, -, -, hintact⟩ := (hwalk vs hvs).2 v hv
      exact hintact
    · exact absurd (hdeep _ frontier_root) hsmall.not_tooDeep
  constructor
  · rintro ⟨out, hout, -, -, hall⟩ vs hvs
    obtain ⟨hreach, hvisit⟩ := hwalk vs hvs
    obtain ⟨s, hs, rfl⟩ := collect_ok_iff.1 hout
    have hserve : ServesAlong fs ∅ vs := by
      refine hvs.serves (s := ⟨∅, []⟩) fun e he => ?_
      cases hs.symm.trans he
    obtain ⟨s', hs', hfilled, hseen⟩ := hcollect vs hvs hserve
    obtain rfl := Except.ok.inj (hs.symm.trans hs')
    refine ⟨hserve, fun v hv ch hch => ?_⟩
    obtain ⟨k, t, hk, -, ht, hchunks, -⟩ := hvisit v hv
    obtain ⟨-, -, hlisted⟩ := hall v.commit k t ((hreach _).2 ⟨v, hv, rfl⟩) hk ht
    have hmem := (hfilled.mem ch).2 (hlisted ch (hchunks ▸ hch))
    rw [hseen, mem_foldl_gather] at hmem
    exact hmem.resolve_left (by simp)
  · intro hcomplete
    obtain ⟨vs, hvs⟩ := walkOrder_exists (fun c hc => hdag.loadsAt (reachable_root.1 hc)) frontier_root
    obtain ⟨hserve, hhidden⟩ := hcomplete vs hvs
    obtain ⟨hreach, hvisit⟩ := hwalk vs hvs
    obtain ⟨s, hs, hfilled, hseen⟩ := hcollect vs hvs hserve
    have hgot : ∀ x, ((∃ v ∈ vs, x = v.commit ∨ x ∈ v.tree) ∨ ∃ v ∈ shown ∅ vs, x ∈ v.chunks) →
        x ∈ s.out.map Prod.fst := by
      intro x hx
      rw [← hfilled.mem x, hseen, mem_foldl_gather]
      exact .inr hx
    refine ⟨s.out, collect_ok_iff.2 ⟨s, hs, rfl⟩, hfilled.nodup, hfilled.hash,
      fun c k t hc hk ht => ?_⟩
    obtain ⟨v, hv, rfl⟩ := (hreach c).1 hc
    obtain ⟨k', t', hk', htree, ht', hchunks, -⟩ := hvisit v hv
    obtain rfl := Except.ok.inj (hk.symm.trans hk')
    obtain rfl := Except.ok.inj (ht.symm.trans ht')
    refine ⟨hgot _ (.inl ⟨v, hv, .inl rfl⟩), hgot _ (.inl ⟨v, hv, .inr htree⟩), fun ch hch => ?_⟩
    exact hgot ch (hhidden v hv ch (hchunks ▸ hch))

end Dag

end Laws

/-! ## §3. A file that is a copy of a tree object. -/

section Sample

/-- Digest of the byte string `x`. -/
def hashX : ContentHash where
  bytes := [
    0x3a, 0xe7, 0xd8, 0x05, 0xf6, 0x78, 0x9a, 0x64, 0x02, 0xac, 0xb7, 0x0a, 0xd4, 0x09, 0x6a,
    0x85, 0xa5, 0x6b, 0xf6, 0x80, 0x4e, 0xaf, 0x25, 0xc0, 0x49, 0x3a, 0xc6, 0x97, 0x54, 0x8d,
    0x30, 0xb5]
  length_eq := rfl

/-- Digest of `xTree`. -/
def hashXTree : ContentHash where
  bytes := [
    0x17, 0x1e, 0x99, 0x40, 0x16, 0xb4, 0x67, 0xf1, 0x58, 0xdf, 0xb4, 0xa6, 0xfe, 0xd6, 0x0d,
    0x9a, 0x36, 0x64, 0x9f, 0x08, 0xf9, 0xc8, 0x69, 0x6d, 0x4e, 0x2e, 0x9d, 0xa4, 0x3f, 0xd8,
    0x36, 0x55]
  length_eq := rfl

/-- Digest of `copyTree`. -/
def hashCopyTree : ContentHash where
  bytes := [
    0x2a, 0x54, 0xfd, 0x1a, 0x74, 0x30, 0xe3, 0x12, 0xf4, 0xdd, 0xad, 0x53, 0x0c, 0x63, 0x95,
    0x64, 0x47, 0xa5, 0x55, 0xb2, 0x3d, 0xac, 0xfe, 0x8f, 0xed, 0xd9, 0x69, 0x09, 0x02, 0x9b,
    0x48, 0x9e]
  length_eq := rfl

/-- Digest of `firstCommit`. -/
def hashFirst : ContentHash where
  bytes := [
    0x50, 0x79, 0xf3, 0x39, 0x67, 0x80, 0x86, 0x0b, 0x48, 0xd3, 0xde, 0xda, 0xce, 0xc3, 0x11,
    0x6f, 0x3a, 0xa9, 0x2c, 0x6e, 0xea, 0x6a, 0x85, 0x28, 0x11, 0xe1, 0xfc, 0x60, 0x38, 0x2c,
    0x3a, 0x96]
  length_eq := rfl

/-- Digest of `secondCommit`. -/
def hashSecond : ContentHash where
  bytes := [
    0xe5, 0xe3, 0xbf, 0xb2, 0x57, 0x32, 0xec, 0xb7, 0x74, 0x89, 0x28, 0xf4, 0xd6, 0xd9, 0xe6,
    0x85, 0x70, 0xe8, 0x53, 0xa1, 0x08, 0x8a, 0x42, 0x7a, 0x5b, 0x72, 0xdd, 0x41, 0x86, 0xa6,
    0x41, 0x43]
  length_eq := rfl


/-- A file `a` with the one chunk `x`. -/
def xTree : Tree := oneFile "a" 1 hashX

def wireXTree : Bytes := wireOneFile "a" 1 hashX

/-- The same file, overwritten with the wire form of `xTree`. -/
def copyTree : Tree := oneFile "a" 62 hashXTree

def wireCopyTree : Bytes := wireOneFile "a" 62 hashXTree

def firstCommit : Commit := { sampleCommit [] 1700000000 "Add a" with tree := hashXTree }

def secondCommit : Commit :=
  { sampleCommit [hashFirst] 1700000001 "Add a" with tree := hashCopyTree }

def wireFirst : Bytes := plainWire sampleAuthor firstCommit

def wireSecond : Bytes := plainWire sampleAuthor secondCommit

/-- BLAKE3 on this history. -/
def copyDigest : Bytes → ContentHash :=
  tableDigest [(Text.toUtf8 "x", hashX), (wireXTree, hashXTree), (wireCopyTree, hashCopyTree),
    (wireFirst, hashFirst), (wireSecond, hashSecond)]

theorem copyDigest_objects : copyDigest (Text.toUtf8 "x") = hashX ∧
    copyDigest wireXTree = hashXTree ∧ copyDigest wireCopyTree = hashCopyTree ∧
    copyDigest wireFirst = hashFirst ∧ copyDigest wireSecond = hashSecond := by decide +kernel

/-- The third-party functions on this history. -/
@[reducible] noncomputable def copySample : Crates := standIn copyDigest

attribute [local instance] copySample

/-- The vault after the two commits. -/
def copyDisk : VaultFs := diskOf [
  (chunkPath hashX, Text.toUtf8 "x"), (chunkPath hashXTree, wireXTree),
  (treePathBin hashXTree, wireXTree), (treePathBin hashCopyTree, wireCopyTree),
  (commitPathBin hashFirst, wireFirst), (commitPathBin hashSecond, wireSecond)]

theorem lookup_copyDisk : copyDisk.lookup (chunkPath hashX) = some (Text.toUtf8 "x") ∧
    copyDisk.lookup (chunkPath hashXTree) = some wireXTree ∧
    copyDisk.lookup (treePathBin hashXTree) = some wireXTree ∧
    copyDisk.lookup (treePathBin hashCopyTree) = some wireCopyTree ∧
    copyDisk.lookup (commitPathBin hashFirst) = some wireFirst ∧
    copyDisk.lookup (commitPathBin hashSecond) = some wireSecond := by
  have hne : hashXTree ≠ hashX ∧ hashCopyTree ≠ hashXTree ∧ hashSecond ≠ hashFirst := by decide
  simp [copyDisk, chunkPath, treePathBin, commitPathBin, hne]

theorem copy_loadTree {path : String} {size : UInt64} {chunk hash : ContentHash}
    (hl : (wireOneFile path size chunk).length ≤ isizeMax) (hp : validatePath path = .ok ())
    (hh : copyDigest (wireOneFile path size chunk) = hash)
    (h : copyDisk.lookup (treePathBin hash) = some (wireOneFile path size chunk)) :
    ReadM.eval copyDisk (loadTree hash) = .ok (oneFile path size chunk) := by
  refine eval_loadTree_of (encodeTreeWire_oneFile hl) (fun p hp' => ?_) hh h
  rw [entries_oneFile, List.mem_singleton] at hp'
  rw [hp']
  exact hp

theorem copy_loadCommit {c : Commit} {hash : ContentHash}
    (ha : authorToBytes c.author = sampleAuthor) (hs : c.signature = none)
    (hv : c.protocolVersion = 1) (hp : c.parents.length ≤ maxCommitParents)
    (hl : (plainWire sampleAuthor c).length ≤ isizeMax)
    (hh : copyDigest (plainWire sampleAuthor c) = hash)
    (h : copyDisk.lookup (commitPathBin hash) = some (plainWire sampleAuthor c)) :
    ReadM.eval copyDisk (loadCommit hash) = .ok c.normal :=
  eval_loadCommit_of (encodeCommitWire_plain ha hs hv hp hl) hh h

theorem copy_loads : ReadM.eval copyDisk (loadCommit hashSecond) = .ok secondCommit.normal ∧
    ReadM.eval copyDisk (loadCommit hashFirst) = .ok firstCommit.normal ∧
    ReadM.eval copyDisk (loadTree hashCopyTree) = .ok copyTree ∧
    ReadM.eval copyDisk (loadTree hashXTree) = .ok xTree := by
  obtain ⟨-, -, hx, hcopy, hfirst, hsecond⟩ := lookup_copyDisk
  obtain ⟨-, dx, dcopy, dfirst, dsecond⟩ := copyDigest_objects
  have ha : authorToBytes sampleAuthor.toHex = sampleAuthor := authorToBytes_toHex sampleAuthor
  refine ⟨copy_loadCommit ha rfl rfl (by decide) (by decide +kernel) dsecond hsecond,
    copy_loadCommit ha rfl rfl (by decide) (by decide +kernel) dfirst hfirst,
    copy_loadTree (by decide) (by decide) dcopy hcopy,
    copy_loadTree (by decide) (by decide) dx hx⟩

/-- The walk meets the second commit, then the first. -/
def copyVisits : List Visit :=
  [⟨hashSecond, some hashCopyTree, [hashXTree]⟩, ⟨hashFirst, some hashXTree, [hashX]⟩]

theorem copy_walkOrder : WalkOrder copyDisk ∅ [hashSecond] copyVisits := by
  obtain ⟨hsecond, hfirst, hcopy, hx⟩ := copy_loads
  have hat : Visit.At ⟨hashSecond, some hashCopyTree, [hashXTree]⟩ copyDisk [hashFirst] :=
    ⟨_, hsecond, rfl, .inr ⟨rfl, _, hcopy, rfl⟩⟩
  have hat' : Visit.At ⟨hashFirst, some hashXTree, [hashX]⟩ copyDisk [] :=
    ⟨_, hfirst, rfl, .inr ⟨rfl, _, hx, rfl⟩⟩
  have hne : hashFirst ≠ hashSecond := by decide
  exact .first (by simp) (by decide) hat (.first (by simpa using hne) (by decide) hat' (.done _))

theorem copy_reach {c : ContentHash} (h : Reach copyDisk hashSecond c) :
    c = hashSecond ∨ c = hashFirst := by
  obtain ⟨hsecond, hfirst, -⟩ := copy_loads
  refine (reachable_root.2 h).induct (P := fun c => c = hashSecond ∨ c = hashFirst)
    (fun r hr => .inl hr) fun x y hx hxy => ?_
  obtain ⟨k, hk, hy⟩ := hxy
  rcases hx with rfl | rfl
  · obtain rfl := Except.ok.inj (hsecond.symm.trans hk)
    exact .inr (List.mem_singleton.1 hy)
  · obtain rfl := Except.ok.inj (hfirst.symm.trans hk)
    cases hy

theorem copy_dagPresent : DagPresent copyDisk hashSecond := by
  obtain ⟨hsecond, hfirst, hcopy, hx⟩ := copy_loads
  obtain ⟨hlx, hltree, -⟩ := lookup_copyDisk
  obtain ⟨dx, dtree, -⟩ := copyDigest_objects
  intro c hc
  rcases copy_reach hc with rfl | rfl
  · refine ⟨_, _, hsecond, hcopy, fun ch hch => ?_⟩
    obtain rfl : ch = hashXTree := by simpa [copyTree, Tree.allChunkHashes, entries_oneFile] using hch
    exact ⟨_, hltree, dtree⟩
  · refine ⟨_, _, hfirst, hx, fun ch hch => ?_⟩
    obtain rfl : ch = hashX := by simpa [xTree, Tree.allChunkHashes, entries_oneFile] using hch
    exact ⟨_, hlx, dx⟩

theorem copy_dagSmall : DagSmall copyDisk hashSecond :=
  ⟨{hashSecond, hashFirst}, by decide, fun c hc => by simpa using copy_reach hc⟩

/-- The chunk `x` is hidden behind the copy of the tree that lists it. -/
theorem copy_not_complete : ¬WalkComplete copyDisk hashSecond := by
  intro h
  obtain ⟨-, hnone⟩ := h copyVisits copy_walkOrder
  have hchunk := hnone ⟨hashFirst, some hashXTree, [hashX]⟩ (by simp [copyVisits]) hashX (by simp)
  revert hchunk
  have hne : hashX ≠ hashSecond ∧ hashX ≠ hashFirst ∧ hashCopyTree ≠ hashX ∧ hashX ≠ hashXTree ∧
      hashXTree ≠ hashX ∧ hashCopyTree ≠ hashSecond ∧ hashXTree ≠ hashFirst := by decide
  simp [copyVisits, shown, gather, Visit.Walked, hne]

/-- A collection that misses a chunk. -/
theorem collect_misses_chunk : ¬∀ (fs : VaultFs) (root : ContentHash), DagPresent fs root →
    DagSmall fs root → ProvidesAll fs root := fun hall =>
  copy_not_complete ((providesAll_iff _ _ copy_dagPresent copy_dagSmall).1
    (hall copyDisk hashSecond copy_dagPresent copy_dagSmall))

/-- The rule at this vault. -/
theorem copy_providesAll_iff :
    ProvidesAll copyDisk hashSecond ↔ WalkComplete copyDisk hashSecond :=
  providesAll_iff copyDisk hashSecond copy_dagPresent copy_dagSmall

end Sample

end Soal

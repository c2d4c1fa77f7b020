/-
  Soal.Vault.Serve — serving stored objects to peers: any blob by its hash, and all blobs of a commit
  with its parents.
-/
import Soal.SampleVault
import Soal.Vault.Mark

namespace Soal

open FileProg

section Model

variable [Crates]

/-! ## §1. Resolving a blob. -/

/-- Resolve any vault object by content hash: chunk, then tree, then commit. -/
def resolveBlob (hash : ContentHash) : Reads Bytes := do
  if ← hasChunk hash then exportStoredChunk hash
  else if ← hasTreeObject hash then exportTreeBytes hash
  else if ← hasCommitObject hash then exportCommitBytes hash
  else abort (.chunkNotFound hash.toHex)

/-! ## §2. Everything a commit needs. -/

/-- The blobs collected so far, and their hashes (chunks that could not be read among them). -/
structure Provided where
  seenBlobs : Finset ContentHash
  out : List (ContentHash × Bytes)

/-- One more blob. -/
def Provided.push (s : Provided) (h : ContentHash) (bytes : Bytes) : Provided :=
  ⟨insert h s.seenBlobs, s.out ++ [(h, bytes)]⟩

/-- A chunk that cannot be exported is passed over. -/
def provideChunk (s : Provided) (ch : ContentHash) : Reads Provided := do
  if ch ∈ s.seenBlobs then return s
  else
    match ← okOrNone (exportStoredChunk ch) with
    | some bytes => return s.push ch bytes
    | none => return { s with seenBlobs := insert ch s.seenBlobs }

def provideChunks (s : Provided) : List ContentHash → Reads Provided
  | [] => return s
  | ch :: chs => do provideChunks (← provideChunk s ch) chs

/-- A tree with its chunks, when it is there and was not collected before. -/
def provideTree (s : Provided) (t : ContentHash) : Reads Provided := do
  if (← hasTreeObject t) && decide (t ∉ s.seenBlobs) then
    let bytes ← exportTreeBytes t
    let tree ← loadTree t
    provideChunks (s.push t bytes) tree.allChunkHashes
  else return s

/-- A commit with its tree; its parents are returned. -/
def provideCommit (s : Provided) (cid : ContentHash) : Reads (Provided × List ContentHash) := do
  let bytes ← exportCommitBytes cid
  let s := if cid ∈ s.seenBlobs then s else s.push cid bytes
  let commit ← loadCommit cid
  return (← provideTree s commit.tree, commit.parents)

/-- The walk over the parents, bounded by `MAX_JOB_COMMITS`; a missing commit is passed over. -/
def provideWalk (seenCommits : Finset ContentHash) (s : Provided) :
    List ContentHash → Reads Provided
  | [] => return s
  | cid :: queue =>
    if _ : cid ∈ seenCommits then provideWalk seenCommits s queue
    else if _ : (insert cid seenCommits).card > maxJobCommits then
      abort (.other "provide DAG too deep (MAX_JOB_COMMITS)")
    else do
      if ← hasCommitObject cid then
        let (s, parents) ← provideCommit s cid
        provideWalk (insert cid seenCommits) s (queue ++ parents)
      else provideWalk (insert cid seenCommits) s queue
termination_by queue => (maxJobCommits - seenCommits.card, queue.length)
decreasing_by
  · exact Prod.Lex.right _ (by simp)
  all_goals
    have hcard : (insert cid seenCommits).card = seenCommits.card + 1 :=
      Finset.card_insert_of_notMem ‹_›
    exact Prod.Lex.left _ _ (by omega)

/-- Collect all blobs needed to fully serve a commit and its parent DAG. -/
def collectProvideHashes (commitHash : ContentHash) : Reads (List (ContentHash × Bytes)) := do
  return (← provideWalk ∅ ⟨∅, []⟩ [commitHash]).out

end Model

section Laws

variable [Crates] {fs : VaultFs} {h : ContentHash}

/-! ## §3. Exporting one object. -/

namespace ObjectKind

variable {α : Type} (K : ObjectKind α) {data : Bytes} {x : α}

/-- The object loads. -/
def Loads (fs : VaultFs) (h : ContentHash) : Prop := ∃ x, ReadM.eval fs (K.load h) = .ok x

/-- The object is exported, as bytes of its hash. -/
def Exports (fs : VaultFs) (h : ContentHash) : Prop :=
  ∃ b, ReadM.eval fs (K.exportBytes h) = .ok b ∧ ContentHash.of b = h

/-- Writing the object again gives bytes of this hash, in wire or in legacy form. -/
def ReEncodes (h : ContentHash) (x : α) : Prop :=
  ∃ wire, K.wireBytes x = .ok wire ∧ (ContentHash.of wire = h ∨ K.legacyJsonHash x = h)

/-- The files of the object can be served: the wire file is intact, or there is none and the JSON
file holds an object that re-encodes. -/
def Servable (fs : VaultFs) (h : ContentHash) : Prop :=
  match fs.lookup (K.pathBin h) with
  | some old => ContentHash.of old = h
  | none => ∃ data x, fs.lookup (K.pathJson h) = some data ∧ K.parseJson h data = .ok x ∧
      K.ReEncodes h x

theorem servable_bin {old : Bytes} (hold : fs.lookup (K.pathBin h) = some old) :
    K.Servable fs h ↔ ContentHash.of old = h := by
  unfold Servable
  rw [hold]

theorem servable_json (hb : K.pathBin h ∉ fs) (hx : ReadM.eval fs (K.load h) = .ok x) :
    K.Servable fs h ↔ K.ReEncodes h x := by
  obtain ⟨data, hold, -⟩ | ⟨-, data, hj, hp⟩ := K.load_ok_cases hx
  · exact absurd (Fs.mem_iff_lookup.2 ⟨data, hold⟩) hb
  unfold Servable
  rw [AList.lookup_eq_none.2 hb]
  constructor
  · rintro ⟨data', y, hj', hp', hr⟩
    obtain rfl := Option.some.inj (hj.symm.trans hj')
    obtain rfl := Except.ok.inj (hp.symm.trans hp')
    exact hr
  · exact fun hr => ⟨data, x, hj, hp, hr⟩

/-- What is there to be exported is present. -/
theorem Servable.present (hs : K.Servable fs h) : K.Present fs h := by
  unfold Servable at hs
  split at hs
  next old hold => exact .inl (Fs.mem_iff_lookup.2 ⟨old, hold⟩)
  next =>
    obtain ⟨data, x, hj, -⟩ := hs
    exact .inr (Fs.mem_iff_lookup.2 ⟨data, hj⟩)

section Export

variable {b : Bytes}

/-- Exporting by way of the object needs the object. -/
theorem eval_exportLoaded (h : ContentHash) : ReadM.eval fs (K.exportLoaded h) =
    (ReadM.eval fs (K.load h)).bind (fun x => (K.wireBytes x).bind (fun wire =>
      if ContentHash.of wire = h then .ok wire
      else if K.legacyJsonHash x = h then .ok (K.legacyBytes x)
      else fail (.mismatch h (.of wire)))) := by
  unfold exportLoaded legacyJsonHash
  rw [ReadM.eval_bind]
  refine congrArg _ (funext fun x => ?_)
  rw [ReadM.eval_bind]
  refine congrArg _ (funext fun wire => ?_)
  rw [ReadM.eval_ite]
  exact congrArg (ite _ _) (ReadM.eval_ite _ _ _)

theorem eval_exportBytes_bin {old : Bytes} (hold : fs.lookup (K.pathBin h) = some old) :
    ReadM.eval fs (K.exportBytes h) =
      if ContentHash.of old = h then .ok old else ReadM.eval fs (K.exportLoaded h) := by
  have hmem : K.pathBin h ∈ fs := Fs.mem_iff_lookup.2 ⟨old, hold⟩
  unfold exportBytes
  rw [ReadM.eval_bind, ReadM.eval_pathExists, ok_bind, if_pos (decide_eq_true hmem),
    ReadM.eval_bind, eval_readFile_some hold, ok_bind, ReadM.eval_ite]
  rfl

theorem eval_exportBytes_json (hb : K.pathBin h ∉ fs) :
    ReadM.eval fs (K.exportBytes h) = ReadM.eval fs (K.exportLoaded h) := by
  unfold exportBytes
  rw [ReadM.eval_bind, ReadM.eval_pathExists, ok_bind, if_neg (by simp [hb])]

/-- **An object is exported exactly when its files can be served**, and then under its hash. -/
theorem exports_iff_servable : K.Exports fs h ↔ K.Servable fs h := by
  cases hold : fs.lookup (K.pathBin h) with
  | some old =>
    rw [K.servable_bin hold]
    unfold Exports
    rw [K.eval_exportBytes_bin hold]
    split
    next ho => exact ⟨fun _ => ho, fun _ => ⟨old, rfl, ho⟩⟩
    next ho =>
      -- a wire file of another hash does not load either
      rw [K.eval_exportLoaded, K.eval_load_bin hold]
      refine ⟨?_, fun h => absurd h ho⟩
      rintro ⟨b, hb, -⟩
      obtain ⟨x, hx, -⟩ := bind_ok_iff.1 hb
      exact absurd (K.parseBin_ok_iff.1 hx).1 ho
  | none =>
    have hb : K.pathBin h ∉ fs := AList.lookup_eq_none.1 hold
    unfold Exports
    rw [K.eval_exportBytes_json hb, K.eval_exportLoaded]
    constructor
    · rintro ⟨b, hok, -⟩
      obtain ⟨x, hx, hok⟩ := bind_ok_iff.1 hok
      obtain ⟨wire, hw, hok⟩ := bind_ok_iff.1 hok
      refine (K.servable_json hb hx).2 ⟨wire, hw, ?_⟩
      by_contra hno
      rw [if_neg fun h => hno (.inl h), if_neg fun h => hno (.inr h)] at hok
      cases hok
    · intro hs
      obtain ⟨x, hx⟩ : K.Loads fs h := by
        unfold Servable at hs
        rw [hold] at hs
        obtain ⟨data, x, hj, hp, -⟩ := hs
        exact ⟨x, by rw [K.eval_load_json hb hj, hp]⟩
      obtain ⟨wire, hw, hh⟩ := (K.servable_json hb hx).1 hs
      rw [hx, ok_bind, hw, ok_bind]
      by_cases hwire : ContentHash.of wire = h
      · exact ⟨wire, if_pos hwire, hwire⟩
      · have hlegacy := hh.resolve_left hwire
        exact ⟨K.legacyBytes x, by rw [if_neg hwire, if_pos hlegacy], hlegacy⟩

/-- Whatever is exported hashes to what was asked for. -/
theorem exports_of_ok (hb : ReadM.eval fs (K.exportBytes h) = .ok b) : K.Exports fs h := by
  refine ⟨b, hb, ?_⟩
  have hloaded : ReadM.eval fs (K.exportLoaded h) = .ok b → ContentHash.of b = h := by
    rw [K.eval_exportLoaded]
    intro hb
    obtain ⟨x, -, hb⟩ := bind_ok_iff.1 hb
    obtain ⟨wire, -, hb⟩ := bind_ok_iff.1 hb
    split at hb
    next hw =>
      cases hb
      exact hw
    next =>
      split at hb
      next hl =>
        cases hb
        exact hl
      next => cases hb
  cases hold : fs.lookup (K.pathBin h) with
  | some old =>
    rw [K.eval_exportBytes_bin hold] at hb
    split at hb
    next ho =>
      cases hb
      exact ho
    next => exact hloaded hb
  | none => exact hloaded (K.eval_exportBytes_json (AList.lookup_eq_none.1 hold) ▸ hb)

end Export

/-! ## §4. Importing, then exporting. -/

/-- What makes an accepted import servable: the bytes are framed, or a wire file of the hash is there
already and parses, or the object the JSON text describes re-encodes. -/
def ImportsServable (fs : VaultFs) (h : ContentHash) (data : Bytes) : Prop :=
  isFramed K.domain data = true ∨
    match fs.lookup (K.pathBin h) with
    | some old => ∃ x, K.parseBin h old = .ok x
    | none => ∃ x, K.fromBytes data = .ok x ∧ K.ReEncodes h x

omit [Crates] in
/-- A JSON import leaves the wire file alone. -/
theorem lookup_bin_of_json (fs : VaultFs) (h : ContentHash) (hf : isFramed K.domain data = false) :
    ((World.boot fs).written (K.importPath h data) data).fs.lookup (K.pathBin h) =
      fs.lookup (K.pathBin h) := by
  rw [World.lookup_written, importPath, if_neg (by simp [hf])]
  rfl

theorem loads_exports_import_iff (hx : K.Imports h data x) :
    K.Loads ((World.boot fs).written (K.importPath h data) data).fs h ∧
        K.Exports ((World.boot fs).written (K.importPath h data) data).fs h ↔
      K.ImportsServable fs h data := by
  unfold ImportsServable
  rw [K.exports_iff_servable]
  cases hf : isFramed K.domain data with
  | true =>
    have hb : ((World.boot fs).written (K.importPath h data) data).fs.lookup (K.pathBin h) =
        some data := by
      rw [World.lookup_written, importPath, if_pos hf, if_pos rfl]
    refine ⟨fun _ => .inl rfl, fun _ => ?_⟩
    exact ⟨⟨x, hx.load_framed K fs hf⟩, (K.servable_bin hb).2 hx.hash_eq⟩
  | false =>
    rw [or_iff_right (by simp)]
    have hsame := K.lookup_bin_of_json fs h hf
    cases hold : fs.lookup (K.pathBin h) with
    | some old =>
      have hb := hsame.trans hold
      unfold Loads
      rw [K.eval_load_bin hb, K.servable_bin hb]
      refine ⟨And.left, ?_⟩
      rintro ⟨x, hp⟩
      exact ⟨⟨x, hp⟩, (K.parseBin_ok_iff.1 hp).1⟩
    | none =>
      have hb : K.pathBin h ∉ fs := AList.lookup_eq_none.1 hold
      have hl := hx.load_json K hf hb
      rw [K.servable_json (AList.lookup_eq_none.1 (hsame.trans hold)) hl]
      constructor
      · exact fun h => ⟨x, hx.json hf, h.2⟩
      · rintro ⟨y, hy, hr⟩
        obtain rfl := Except.ok.inj ((hx.json hf).symm.trans hy)
        exact ⟨⟨x, hl⟩, hr⟩

end ObjectKind

/-! ## §5. Chunks. -/

/-- The chunk file is there and holds bytes of its hash. -/
def ChunkIntact (fs : VaultFs) (h : ContentHash) : Prop :=
  ∃ b, fs.lookup (chunkPath h) = some b ∧ ContentHash.of b = h

theorem eval_chunkStoreGet_some {b : Bytes} (hb : fs.lookup (chunkPath h) = some b) :
    ReadM.eval fs (ChunkStore.get h) =
      if ContentHash.of b = h then .ok b else fail (.mismatch h (.of b)) := by
  have hmem : chunkPath h ∈ fs := Fs.mem_iff_lookup.2 ⟨b, hb⟩
  unfold ChunkStore.get ChunkStore.existsChunk
  rw [ReadM.eval_bind, ReadM.eval_pathExists, ok_bind, if_pos (decide_eq_true hmem),
    ReadM.eval_bind, eval_readFile_some hb, ok_bind, ReadM.eval_ite]
  by_cases hh : ContentHash.of b = h
  · rw [if_neg (not_not.2 hh), if_pos hh]
    rfl
  · rw [if_pos hh, if_neg hh]
    rfl

theorem eval_chunkStoreGet_none (hb : chunkPath h ∉ fs) :
    ReadM.eval fs (ChunkStore.get h) = fail (.chunkNotFound h.toHex) := by
  unfold ChunkStore.get ChunkStore.existsChunk
  rw [ReadM.eval_bind, ReadM.eval_pathExists, ok_bind, if_neg (by simp [hb]), eval_abort]

theorem exportStoredChunk_ok_iff {b : Bytes} : ReadM.eval fs (exportStoredChunk h) = .ok b ↔
    fs.lookup (chunkPath h) = some b ∧ ContentHash.of b = h := by
  unfold exportStoredChunk
  cases hl : fs.lookup (chunkPath h) with
  | some old =>
    rw [eval_chunkStoreGet_some hl]
    constructor
    · intro hb
      split at hb
      next ho =>
        cases hb
        exact ⟨rfl, ho⟩
      next => cases hb
    · rintro ⟨heq, hh⟩
      obtain rfl := Option.some.inj heq
      rw [if_pos hh]
  | none =>
    rw [eval_chunkStoreGet_none (AList.lookup_eq_none.1 hl)]
    exact ⟨nofun, fun hb => nomatch hb.1⟩

/-- An imported chunk is stored. -/
theorem importStoredChunk_outcome {env : Outside} {data : Bytes} {w' : VaultWorld}
    (hrun : run env (importStoredChunk h data) (World.boot fs) = (.ok (), w')) :
    w'.fs.lookup (chunkPath h) = some data ∧ ContentHash.of data = h := by
  have hrule : wp env (fun _ => True) (importStoredChunk h data) (fun r w' => r = .ok () →
      w'.fs.lookup (chunkPath h) = some data ∧ ContentHash.of data = h) (World.boot fs) := by
    -- the import drops the answer whether the chunk is new
    have hlift : ∀ {x : Action Bool} {w : VaultWorld}, wp env (fun _ => True) x (fun r w' =>
        ∀ a, r = .ok a → w'.fs.lookup (chunkPath h) = some data ∧ ContentHash.of data = h) w →
        wp env (fun _ => True) (do let _ ← x; pure ()) (fun r w' => r = .ok () →
          w'.fs.lookup (chunkPath h) = some data ∧ ContentHash.of data = h) w := by
      intro x w hx
      refine wp_seq hx (fun a w' _ hr => ⟨trivial, fun _ => hr a rfl⟩) fun e w' _ _ he => ?_
      cases he
    unfold importStoredChunk
    refine hlift ?_
    unfold ChunkStore.putVerified
    split
    next => exact ⟨trivial, fun a ha => by cases ha⟩
    next hdata =>
      have hdata := not_not.1 hdata
      refine wp_exists trivial ?_
      split
      next hmem =>
        refine wp_read trivial (fun existing hex => ?_) (fun e _ a ha => by cases ha)
        split
        next => exact ⟨trivial, fun a ha => by cases ha⟩
        next hsame =>
          refine ⟨trivial, fun _ _ => ⟨?_, hdata⟩⟩
          obtain ⟨old, hold⟩ := Fs.mem_iff_lookup.1 (of_decide_eq_true hmem)
          -- a chunk that is there already was compared with the data
          have hread : existing = old := Except.ok.inj (hex.symm.trans (eval_readFile_some hold))
          rw [hold, ← hread, not_not.1 hsame]
      next =>
        refine wp_seq (R := fun _ w' => w' = renamed (World.boot fs) (chunkTmp h) (chunkPath h) data)
          (wp_writeRename.2 ⟨trivial, trivial, trivial, trivial, rfl⟩) ?_ ?_
        · rintro _ w' - rfl
          refine ⟨trivial, fun _ _ => ⟨?_, hdata⟩⟩
          rw [lookup_renamed, if_pos rfl]
        · exact fun e w' _ _ a ha => by cases ha
  have hpost := hrule.post
  rw [hrun] at hpost
  exact hpost rfl

/-- Decrypting what is stored gives a chunk. -/
def Vault.Opens (v : Vault) (stored : Bytes) : Prop :=
  ∀ k, v.key = some k → ∃ plain, decryptChunk stored k = .ok plain

theorem Vault.loadChunk_ok_iff (v : Vault) {data : Bytes} (hl : fs.lookup (chunkPath h) = some data)
    (hh : ContentHash.of data = h) :
    (∃ plain, ReadM.eval fs (v.loadChunk h) = .ok plain) ↔ v.Opens data := by
  unfold Vault.loadChunk
  rw [ReadM.eval_bind, eval_chunkStoreGet_some hl, if_pos hh, ok_bind]
  unfold Vault.Opens
  cases v.key with
  | none => exact ⟨fun _ k hk => (nomatch hk), fun _ => ⟨data, rfl⟩⟩
  | some k =>
    constructor
    · rintro hp k' hk
      obtain rfl := Option.some.inj hk
      exact hp
    · exact fun hp => hp k rfl

/-! ## §6. Resolving. -/

/-- The blob is resolved, to bytes of its hash. -/
def Resolves (fs : VaultFs) (h : ContentHash) : Prop :=
  ∃ b, ReadM.eval fs (resolveBlob h) = .ok b ∧ ContentHash.of b = h

/-- A chunk file of the hash is in front of trees and commits, and a tree in front of commits. -/
theorem resolves_iff : Resolves fs h ↔
    if chunkPath h ∈ fs then ChunkIntact fs h
    else if treeKind.Present fs h then treeKind.Servable fs h
    else commitKind.Servable fs h := by
  unfold Resolves resolveBlob hasChunk ChunkStore.existsChunk hasTreeObject hasCommitObject
  rw [ReadM.eval_bind, ReadM.eval_pathExists, ok_bind, ReadM.eval_ite]
  by_cases hc : chunkPath h ∈ fs
  · rw [if_pos (decide_eq_true hc), if_pos hc]
    constructor
    · rintro ⟨b, hb, hh⟩
      exact ⟨b, exportStoredChunk_ok_iff.1 hb⟩
    · rintro ⟨b, hb, hh⟩
      exact ⟨b, exportStoredChunk_ok_iff.2 ⟨hb, hh⟩, hh⟩
  rw [if_neg (by simp [hc]), if_neg hc, ReadM.eval_bind, ObjectKind.eval_hasObject, ok_bind,
    ReadM.eval_ite]
  by_cases ht : treeKind.Present fs h
  · rw [if_pos (decide_eq_true ht), if_pos ht]
    exact treeKind.exports_iff_servable
  rw [if_neg (by simp [ht]), if_neg ht, ReadM.eval_bind, ObjectKind.eval_hasObject, ok_bind,
    ReadM.eval_ite]
  by_cases hk : commitKind.Present fs h
  · rw [if_pos (decide_eq_true hk)]
    exact commitKind.exports_iff_servable
  · rw [if_neg (by simp [hk])]
    exact ⟨fun ⟨b, hb, _⟩ => (nomatch hb), fun hs => absurd hs.present hk⟩

/-- No damaged chunk of this hash. -/
def ClearOfChunk (fs : VaultFs) (h : ContentHash) : Prop :=
  chunkPath h ∈ fs → ChunkIntact fs h

/-- No damaged chunk of this hash and, unless an intact one comes first, no tree that cannot be
served. -/
def ClearOfTree (fs : VaultFs) (h : ContentHash) : Prop :=
  if chunkPath h ∈ fs then ChunkIntact fs h
  else treeKind.Present fs h → treeKind.Servable fs h

section Congr

variable {fs' : VaultFs}

theorem clearOfChunk_congr (hc : fs'.lookup (chunkPath h) = fs.lookup (chunkPath h)) :
    ClearOfChunk fs' h ↔ ClearOfChunk fs h := by
  unfold ClearOfChunk ChunkIntact
  rw [mem_congr hc, hc]

theorem clearOfTree_congr (hc : fs'.lookup (chunkPath h) = fs.lookup (chunkPath h))
    (hb : fs'.lookup (treeKind.pathBin h) = fs.lookup (treeKind.pathBin h))
    (hj : fs'.lookup (treeKind.pathJson h) = fs.lookup (treeKind.pathJson h)) :
    ClearOfTree fs' h ↔ ClearOfTree fs h := by
  unfold ClearOfTree ChunkIntact ObjectKind.Present ObjectKind.Servable
  by_cases hmem : chunkPath h ∈ fs
  · rw [if_pos hmem, if_pos ((mem_congr hc).2 hmem), hc]
  · rw [if_neg hmem, if_neg fun h => hmem ((mem_congr hc).1 h), mem_congr hb, mem_congr hj, hb, hj]

end Congr

theorem resolves_tree_iff (hs : treeKind.Servable fs h) : Resolves fs h ↔ ClearOfChunk fs h := by
  rw [resolves_iff]
  unfold ClearOfChunk
  split
  next hc => exact ⟨fun hi _ => hi, fun hi => hi hc⟩
  next hc =>
    rw [if_pos hs.present]
    exact ⟨fun _ h => absurd h hc, fun _ => hs⟩

theorem resolves_commit_iff (hs : commitKind.Servable fs h) :
    Resolves fs h ↔ ClearOfTree fs h := by
  rw [resolves_iff]
  unfold ClearOfTree
  split
  next => rfl
  next =>
    split
    next ht => exact ⟨fun h _ => h, fun h => h ht⟩
    next ht => exact ⟨fun _ h => absurd h ht, fun _ => hs⟩

end Laws

end Soal

/-
  Soal.Vault.ProvideWalk — the walk that collects everything a commit needs.

  `WalkOrder` is the breadth-first order in which the walk meets the commits that are there.  One set of
  hashes is shared by commits, trees and chunks, and a tree whose hash is in it is passed over together
  with its chunks: `shown` are the visits whose tree is walked.  The walk ends, or stops at its bound,
  exactly when the commits and the walked trees can be served.
-/
import Soal.Vault.Serve

namespace Soal

open FileProg Worklist

section Laws

variable [Crates] {fs : VaultFs}

/-! ## §1. Chunks and trees. -/

theorem eval_provideChunk (fs : VaultFs) (s : Provided) (ch : ContentHash) : ∃ s',
    ReadM.eval fs (provideChunk s ch) = .ok s' ∧ s'.seenBlobs = insert ch s.seenBlobs := by
  unfold provideChunk
  split
  next hs => exact ⟨s, rfl, (Finset.insert_eq_of_mem hs).symm⟩
  next =>
    rw [ReadM.eval_bind, okOrNone, ReadM.eval_handle]
    cases hl : fs.lookup (chunkPath ch) with
    | some b =>
      rw [exportStoredChunk, eval_chunkStoreGet_some hl]
      by_cases hb : ContentHash.of b = ch
      · rw [if_pos hb]
        exact ⟨s.push ch b, rfl, rfl⟩
      · rw [if_neg hb]
        exact ⟨_, rfl, rfl⟩
    | none =>
      rw [exportStoredChunk, eval_chunkStoreGet_none (AList.lookup_eq_none.1 hl)]
      exact ⟨_, rfl, rfl⟩

/-- Chunks never stop the collection. -/
theorem eval_provideChunks (fs : VaultFs) (s : Provided) (chs : List ContentHash) : ∃ s',
    ReadM.eval fs (provideChunks s chs) = .ok s' ∧ s'.seenBlobs = s.seenBlobs ∪ chs.toFinset := by
  induction chs generalizing s with
  | nil => exact ⟨s, rfl, by simp⟩
  | cons ch chs ih =>
    obtain ⟨s₁, h₁, hs₁⟩ := eval_provideChunk fs s ch
    obtain ⟨s₂, h₂, hs₂⟩ := ih s₁
    refine ⟨s₂, ?_, ?_⟩
    · rw [provideChunks, ReadM.eval_bind, h₁, ok_bind, h₂]
    · rw [hs₂, hs₁, List.toFinset_cons, Finset.insert_union, Finset.union_insert]

/-- The object loads, and its files can be served. -/
def ObjectKind.Served {α : Type} (K : ObjectKind α) (fs : VaultFs) (h : ContentHash) : Prop :=
  K.Loads fs h ∧ K.Servable fs h

section Tree

variable {s : Provided} {t : ContentHash}

theorem eval_provideTree_skip (hs : ¬(treeKind.Present fs t ∧ t ∉ s.seenBlobs)) :
    ReadM.eval fs (provideTree s t) = .ok s := by
  unfold provideTree hasTreeObject
  rw [ReadM.eval_bind, ObjectKind.eval_hasObject, ok_bind, ← Bool.decide_and, if_neg (by simpa using hs)]
  rfl

theorem eval_provideTree_new (hp : treeKind.Present fs t) (hs : t ∉ s.seenBlobs) :
    ReadM.eval fs (provideTree s t) = (ReadM.eval fs (exportTreeBytes t)).bind (fun bytes =>
      (ReadM.eval fs (loadTree t)).bind (fun tree =>
        ReadM.eval fs (provideChunks (s.push t bytes) tree.allChunkHashes))) := by
  unfold provideTree hasTreeObject
  rw [ReadM.eval_bind, ObjectKind.eval_hasObject, ok_bind, ← Bool.decide_and,
    if_pos (decide_eq_true ⟨hp, hs⟩)]
  simp only [ReadM.eval_bind]

end Tree

/-! ## §2. Commits. -/

section Commit

variable {s s' : Provided} {cid : ContentHash} {parents : List ContentHash}

/-- A commit's own blob. -/
def Provided.withCommit (s : Provided) (cid : ContentHash) (bytes : Bytes) : Provided :=
  if cid ∈ s.seenBlobs then s else s.push cid bytes

omit [Crates] in
theorem Provided.mem_withCommit {bytes : Bytes} {x : ContentHash} :
    x ∈ (s.withCommit cid bytes).seenBlobs ↔ x = cid ∨ x ∈ s.seenBlobs := by
  unfold withCommit
  split
  next h => exact ⟨.inr, fun hx => hx.elim (fun hx => hx ▸ h) id⟩
  next => exact Finset.mem_insert

omit [Crates] in
theorem Provided.seen_withCommit {bytes : Bytes} :
    (s.withCommit cid bytes).seenBlobs = insert cid s.seenBlobs := by
  ext x
  rw [Provided.mem_withCommit, Finset.mem_insert]

theorem eval_provideCommit (s : Provided) (cid : ContentHash) :
    ReadM.eval fs (provideCommit s cid) = (ReadM.eval fs (exportCommitBytes cid)).bind (fun bytes =>
      (ReadM.eval fs (loadCommit cid)).bind (fun commit =>
        (ReadM.eval fs (provideTree (s.withCommit cid bytes) commit.tree)).bind (fun s' =>
          .ok (s', commit.parents)))) := by
  unfold provideCommit
  simp only [ReadM.eval_bind]
  rfl

theorem provideCommit_ok_iff : ReadM.eval fs (provideCommit s cid) = .ok (s', parents) ↔
    ∃ bytes k, ReadM.eval fs (exportCommitBytes cid) = .ok bytes ∧
      ReadM.eval fs (loadCommit cid) = .ok k ∧ k.parents = parents ∧
      ReadM.eval fs (provideTree (s.withCommit cid bytes) k.tree) = .ok s' := by
  rw [eval_provideCommit]
  constructor
  · intro h
    obtain ⟨bytes, hb, h⟩ := bind_ok_iff.1 h
    obtain ⟨k, hk, h⟩ := bind_ok_iff.1 h
    obtain ⟨s₁, hs₁, h⟩ := bind_ok_iff.1 h
    cases h
    exact ⟨bytes, k, hb, hk, rfl, hs₁⟩
  · rintro ⟨bytes, k, hb, hk, rfl, hs₁⟩
    rw [hb, ok_bind, hk, ok_bind, hs₁, ok_bind]

end Commit

/-! ## §3. Steps of the walk. -/

section Steps

variable {seen : Finset ContentHash} {s : Provided} {cid : ContentHash} {queue : List ContentHash}

theorem eval_provideWalk_seen (h : cid ∈ seen) :
    ReadM.eval fs (provideWalk seen s (cid :: queue)) = ReadM.eval fs (provideWalk seen s queue) := by
  rw [provideWalk, dif_pos h]

theorem eval_provideWalk_deep (h : cid ∉ seen) (hd : (insert cid seen).card > maxJobCommits) :
    ReadM.eval fs (provideWalk seen s (cid :: queue)) =
      fail (.other "provide DAG too deep (MAX_JOB_COMMITS)") := by
  rw [provideWalk, dif_neg h, dif_pos hd, eval_abort]

theorem eval_provideWalk_absent (h : cid ∉ seen) (hd : ¬(insert cid seen).card > maxJobCommits)
    (hp : ¬commitKind.Present fs cid) : ReadM.eval fs (provideWalk seen s (cid :: queue)) =
      ReadM.eval fs (provideWalk (insert cid seen) s queue) := by
  rw [provideWalk, dif_neg h, dif_neg hd]
  simp only [hasCommitObject, ReadM.eval_bind, ObjectKind.eval_hasObject, ok_bind, hp, decide_false,
    Bool.false_eq_true, if_false]

theorem eval_provideWalk_present (h : cid ∉ seen) (hd : ¬(insert cid seen).card > maxJobCommits)
    (hp : commitKind.Present fs cid) : ReadM.eval fs (provideWalk seen s (cid :: queue)) =
      (ReadM.eval fs (provideCommit s cid)).bind (fun (s', parents) =>
        ReadM.eval fs (provideWalk (insert cid seen) s' (queue ++ parents))) := by
  rw [provideWalk, dif_neg h, dif_neg hd]
  simp only [hasCommitObject, ReadM.eval_bind, ObjectKind.eval_hasObject, ok_bind, hp, decide_true,
    if_true]

end Steps

section Frontiers

variable {roots : ContentHash → Prop} {seen : Finset ContentHash} {cid : ContentHash}
  {queue : List ContentHash}

theorem frontier_absent (hf : Frontier (Parent fs) roots seen (cid :: queue))
    (hp : ¬commitKind.Present fs cid) : Frontier (Parent fs) roots (insert cid seen) queue := by
  refine hf.visit fun y => ⟨.inr, fun hy => hy.resolve_left ?_⟩
  rintro ⟨k, hk, -⟩
  exact hp (commitKind.present_of_load hk)

theorem frontier_loaded {k : Commit} (hf : Frontier (Parent fs) roots seen (cid :: queue))
    (hk : ReadM.eval fs (loadCommit cid) = .ok k) :
    Frontier (Parent fs) roots (insert cid seen) (queue ++ k.parents) := by
  refine hf.visit fun y => ?_
  rw [List.mem_append, or_comm]
  refine or_congr_left ⟨fun hy => ⟨k, hk, hy⟩, ?_⟩
  rintro ⟨k', hk', hy⟩
  obtain rfl := Except.ok.inj (hk.symm.trans hk')
  exact hy

end Frontiers

/-- A walk that ends has met everything that is reachable, and no more than the bound. -/
theorem provideWalk_met {roots : ContentHash → Prop} {seen : Finset ContentHash} {s out : Provided}
    {queue : List ContentHash} (hf : Frontier (Parent fs) roots seen queue)
    (hcap : seen.card ≤ maxJobCommits) (hout : ReadM.eval fs (provideWalk seen s queue) = .ok out) :
    ∃ seen', Frontier (Parent fs) roots seen' [] ∧ seen'.card ≤ maxJobCommits := by
  induction seen, s, queue using provideWalk.induct with
  | case1 seen s => exact ⟨seen, hf, hcap⟩
  | case2 seen s cid queue hs ih =>
    rw [eval_provideWalk_seen hs] at hout
    exact ih (hf.skip hs) hcap hout
  | case3 seen s cid queue hs hd =>
    rw [eval_provideWalk_deep hs hd] at hout
    cases hout
  | case4 seen s cid queue hs hd ih ih' =>
    have hcap' : (insert cid seen).card ≤ maxJobCommits := by omega
    by_cases hp : commitKind.Present fs cid
    · rw [eval_provideWalk_present hs hd hp] at hout
      obtain ⟨⟨s', parents⟩, hs', hout⟩ := bind_ok_iff.1 hout
      obtain ⟨-, k, -, hk, rfl, -⟩ := provideCommit_ok_iff.1 hs'
      exact ih s' k.parents (frontier_loaded hf hk) hcap' hout
    · rw [eval_provideWalk_absent hs hd hp] at hout
      exact ih' (frontier_absent hf hp) hcap' hout

/-! ## §4. The order of the walk. -/

/-- A commit, its tree when that is there, and the chunks the tree lists. -/
structure Visit where
  commit : ContentHash
  tree : Option ContentHash
  chunks : List ContentHash

/-- The commit loads as one with these parents and this tree, and the tree, when it is there, as one with
these chunks. -/
def Visit.At (v : Visit) (fs : VaultFs) (parents : List ContentHash) : Prop :=
  ∃ k, ReadM.eval fs (loadCommit v.commit) = .ok k ∧ k.parents = parents ∧
    ((¬treeKind.Present fs k.tree ∧ v.tree = none ∧ v.chunks = []) ∨
      (v.tree = some k.tree ∧
        ∃ t, ReadM.eval fs (loadTree k.tree) = .ok t ∧ t.allChunkHashes = v.chunks))

/-- A breadth-first walk over parents, from a queue, past the commits met before.  A commit that is not
there is passed over, and one too many ends the walk. -/
inductive WalkOrder (fs : VaultFs) : Finset ContentHash → List ContentHash → List Visit → Prop
  | done (met : Finset ContentHash) : WalkOrder fs met [] []
  | again {met : Finset ContentHash} {c : ContentHash} {queue : List ContentHash}
      {vs : List Visit} (h : c ∈ met) (hvs : WalkOrder fs met queue vs) : WalkOrder fs met (c :: queue) vs
  | deep {met : Finset ContentHash} {c : ContentHash} {queue : List ContentHash} (h : c ∉ met)
      (hd : (insert c met).card > maxJobCommits) : WalkOrder fs met (c :: queue) []
  | absent {met : Finset ContentHash} {c : ContentHash} {queue : List ContentHash} {vs : List Visit}
      (h : c ∉ met) (hd : ¬(insert c met).card > maxJobCommits) (hp : ¬commitKind.Present fs c)
      (hvs : WalkOrder fs (insert c met) queue vs) : WalkOrder fs met (c :: queue) vs
  | first {met : Finset ContentHash} {v : Visit} {queue parents : List ContentHash}
      {vs : List Visit} (h : v.commit ∉ met) (hd : ¬(insert v.commit met).card > maxJobCommits)
      (hv : v.At fs parents) (hvs : WalkOrder fs (insert v.commit met) (queue ++ parents) vs) :
      WalkOrder fs met (v.commit :: queue) (v :: vs)

/-- The tree is walked: it is there, and its hash was not met before, as a commit, as a tree, or as a
chunk of a walked tree. -/
def Visit.Walked (v : Visit) (seen : Finset ContentHash) : Prop :=
  ∃ t ∈ v.tree, t ∉ insert v.commit seen

instance (v : Visit) (seen : Finset ContentHash) : Decidable (v.Walked seen) :=
  inferInstanceAs (Decidable (∃ t ∈ v.tree, t ∉ insert v.commit seen))

/-- The hashes after one more visit: a tree that is passed over is so with its chunks. -/
def gather (seen : Finset ContentHash) (v : Visit) : Finset ContentHash :=
  if v.Walked seen then insert v.commit seen ∪ v.tree.toFinset ∪ v.chunks.toFinset
  else insert v.commit seen

/-- The visits whose tree is walked. -/
def shown : Finset ContentHash → List Visit → List Visit
  | _, [] => []
  | seen, v :: vs =>
    if v.Walked seen then v :: shown (gather seen v) vs else shown (gather seen v) vs

/-- What a visit needs: the commit can be served, and so can its tree when that is walked. -/
def Visit.Serves (v : Visit) (fs : VaultFs) (seen : Finset ContentHash) : Prop :=
  commitKind.Servable fs v.commit ∧ (v.Walked seen → ∀ t ∈ v.tree, treeKind.Servable fs t)

/-- Along the visits, every commit can be served and every walked tree. -/
def ServesAlong (fs : VaultFs) (seen : Finset ContentHash) (vs : List Visit) : Prop :=
  (∀ v ∈ vs, commitKind.Servable fs v.commit) ∧
    ∀ v ∈ shown seen vs, ∀ t ∈ v.tree, treeKind.Servable fs t

theorem servesAlong_cons {v : Visit} {vs : List Visit} {seen : Finset ContentHash} :
    ServesAlong fs seen (v :: vs) ↔ v.Serves fs seen ∧ ServesAlong fs (gather seen v) vs := by
  unfold ServesAlong Visit.Serves
  rw [shown, List.forall_mem_cons]
  split
  next h =>
    rw [List.forall_mem_cons]
    constructor
    · rintro ⟨⟨hc, hcs⟩, ht, hts⟩
      exact ⟨⟨hc, fun _ => ht⟩, hcs, hts⟩
    · rintro ⟨⟨hc, ht⟩, hcs, hts⟩
      exact ⟨⟨hc, hcs⟩, ht h, hts⟩
  next h =>
    constructor
    · rintro ⟨⟨hc, hcs⟩, ht⟩
      exact ⟨⟨hc, fun hw => absurd hw h⟩, hcs, ht⟩
    · rintro ⟨⟨hc, _⟩, hcs, ht⟩
      exact ⟨⟨hc, hcs⟩, ht⟩

omit [Crates] in
theorem shown_subset {vs : List Visit} {seen : Finset ContentHash} {v : Visit}
    (h : v ∈ shown seen vs) : v ∈ vs := by
  induction vs generalizing seen with
  | nil => exact h
  | cons u vs ih =>
    rw [shown] at h
    split at h
    next =>
      rcases List.mem_cons.1 h with rfl | h
      · exact List.mem_cons_self
      · exact List.mem_cons_of_mem u (ih h)
    next => exact List.mem_cons_of_mem u (ih h)

omit [Crates] in
/-- What is gathered along the visits. -/
theorem mem_foldl_gather {vs : List Visit} {seen : Finset ContentHash} {x : ContentHash} :
    x ∈ vs.foldl gather seen ↔ x ∈ seen ∨ (∃ v ∈ vs, x = v.commit ∨ x ∈ v.tree) ∨
      ∃ v ∈ shown seen vs, x ∈ v.chunks := by
  induction vs generalizing seen with
  | nil => simp [shown]
  | cons v vs ih =>
    rw [List.foldl_cons, ih, shown]
    by_cases h : v.Walked seen
    · rw [gather, if_pos h, if_pos h]
      simp only [Finset.mem_union, Finset.mem_insert, List.mem_toFinset, Option.mem_toFinset,
        List.mem_cons, exists_eq_or_imp]
      exact Iff.of_eq (by ac_rfl)
    · have htree : x ∈ v.tree → x = v.commit ∨ x ∈ seen := by
        intro hx
        by_contra hn
        exact h ⟨x, hx, fun hmem => hn (Finset.mem_insert.1 hmem)⟩
      rw [gather, if_neg h, if_neg h]
      simp only [Finset.mem_insert, List.mem_cons, exists_eq_or_imp]
      constructor
      · rintro ((hx | hx) | hx | hx)
        · exact .inr (.inl (.inl (.inl hx)))
        · exact .inl hx
        · exact .inr (.inl (.inr hx))
        · exact .inr (.inr hx)
      · rintro (hx | ((hx | hx) | hx) | hx)
        · exact .inl (.inr hx)
        · exact .inl (.inl hx)
        · exact .inl (htree hx)
        · exact .inr (.inl hx)
        · exact .inr (.inr hx)

section Order

variable {roots : ContentHash → Prop} {met : Finset ContentHash} {queue : List ContentHash}
  {vs : List Visit}

/-- Every visit is at a commit that is reachable and loads. -/
theorem WalkOrder.at (h : WalkOrder fs met queue vs) (hf : Frontier (Parent fs) roots met queue) :
    ∀ v ∈ vs, Reachable (Parent fs) roots v.commit ∧ ∃ parents, v.At fs parents := by
  induction h with
  | done => exact fun v hv => absurd hv List.not_mem_nil
  | again hc _ ih => exact ih (hf.skip hc)
  | deep => exact fun v hv => absurd hv List.not_mem_nil
  | absent _ _ hp _ ih => exact ih (frontier_absent hf hp)
  | @first met v queue parents vs _ _ hv _ ih =>
    intro u hu
    rcases List.mem_cons.1 hu with rfl | hu
    · exact ⟨hf.sound u.commit (.inr List.mem_cons_self), parents, hv⟩
    · obtain ⟨k, hk, rfl, -⟩ := hv
      exact ih (frontier_loaded hf hk) u hu

/-- What is there of the DAG can be read: the commit, and its tree when that is there. -/
def LoadsAt (fs : VaultFs) (c : ContentHash) : Prop :=
  commitKind.Present fs c → ∃ k, ReadM.eval fs (loadCommit c) = .ok k ∧
    (treeKind.Present fs k.tree → treeKind.Loads fs k.tree)

theorem LoadsAt.visit {c : ContentHash} (h : LoadsAt fs c) (hp : commitKind.Present fs c) :
    ∃ v : Visit, v.commit = c ∧ ∃ k, ReadM.eval fs (loadCommit c) = .ok k ∧ v.At fs k.parents := by
  obtain ⟨k, hk, htree⟩ := h hp
  by_cases ht : treeKind.Present fs k.tree
  · obtain ⟨t, ht⟩ := htree ht
    exact ⟨⟨c, some k.tree, t.allChunkHashes⟩, rfl, k, hk, k, hk, rfl, .inr ⟨rfl, t, ht, rfl⟩⟩
  · exact ⟨⟨c, none, []⟩, rfl, k, hk, k, hk, rfl, .inl ⟨ht, rfl, rfl⟩⟩

/-- A DAG whose objects can be read has a walk. -/
theorem walkOrder_exists (hload : ∀ c, Reachable (Parent fs) roots c → LoadsAt fs c)
    (hf : Frontier (Parent fs) roots met queue) : ∃ vs, WalkOrder fs met queue vs := by
  -- any state of the collection will do: only the hashes met and the queue matter
  have hall : ∀ (met : Finset ContentHash) (s : Provided) (queue : List ContentHash),
      Frontier (Parent fs) roots met queue → ∃ vs, WalkOrder fs met queue vs := by
    intro met s queue
    induction met, s, queue using provideWalk.induct with
    | case1 met s => exact fun _ => ⟨[], .done met⟩
    | case2 met s c queue hc ih =>
      intro hf
      obtain ⟨vs, hvs⟩ := ih (hf.skip hc)
      exact ⟨vs, .again hc hvs⟩
    | case3 met s c queue hc hd => exact fun _ => ⟨[], .deep hc hd⟩
    | case4 met s c queue hc hd ih ih' =>
      intro hf
      by_cases hp : commitKind.Present fs c
      · obtain ⟨v, rfl, k, hk, hv⟩ :=
          (hload c (hf.sound c (.inr List.mem_cons_self))).visit hp
        obtain ⟨vs, hvs⟩ := ih s k.parents (frontier_loaded hf hk)
        exact ⟨v :: vs, .first hc hd hv hvs⟩
      · obtain ⟨vs, hvs⟩ := ih' (frontier_absent hf hp)
        exact ⟨vs, .absent hc hd hp hvs⟩
  exact hall met ⟨∅, []⟩ queue hf

end Order

/-! ## §5. One visit. -/

/-- The result is none of the texts of `SoalError::Other`, the walk's own among them. -/
def NoOther {α : Type} (r : Res α) : Prop := ∀ text, r ≠ fail (.other text)

section NoOther

omit [Crates] in
theorem NoOther.bind {α β : Type} {r : Res α} {f : α → Res β} (hr : NoOther r)
    (hf : ∀ a, NoOther (f a)) : NoOther (r.bind f) := by
  cases r with
  | ok a => exact hf a
  | error e => exact fun text h => hr text (by cases h; rfl)

omit [Crates] in
theorem vec_noOther (b : Bytes) : NoOther (vec b) := by
  intro text h
  unfold vec at h
  split at h <;> cases h

theorem treeWire_noOther (t : Tree) : NoOther (treeKind.wireBytes t) := by
  show NoOther (encodeTreeWire t)
  refine NoOther.bind ?_ fun b => vec_noOther _
  unfold encodeTreeBody
  split
  next => exact fun text h => by cases h
  next => exact vec_noOther _

theorem commitWire_noOther (c : Commit) : NoOther (commitKind.wireBytes c) := by
  show NoOther (encodeCommitWire c)
  refine NoOther.bind ?_ fun b => vec_noOther _
  unfold encodeCommitBody
  split
  next => exact fun text h => by cases h
  next => exact vec_noOther _

/-- An object that loads is exported, or stops the export with an error of its own. -/
theorem ObjectKind.exportBytes_noOther {α : Type} (K : ObjectKind α) {h : ContentHash}
    (hwire : ∀ x, NoOther (K.wireBytes x)) (hload : K.Loads fs h) :
    NoOther (ReadM.eval fs (K.exportBytes h)) := by
  obtain ⟨x, hx⟩ := hload
  have hloaded : NoOther (ReadM.eval fs (K.exportLoaded h)) := by
    rw [K.eval_exportLoaded, hx, ok_bind]
    refine (hwire x).bind fun wire => ?_
    intro text
    split
    next => exact nofun
    next => split <;> exact nofun
  cases hold : fs.lookup (K.pathBin h) with
  | some old =>
    rw [K.eval_exportBytes_bin hold]
    split
    next => exact fun text => nofun
    next => exact hloaded
  | none => exact K.eval_exportBytes_json (AList.lookup_eq_none.1 hold) ▸ hloaded

end NoOther

section Visit

variable {v : Visit} {s s' : Provided} {parents : List ContentHash}

/-- The tree of a visit is met as one that is walked, or passed over. -/
theorem Visit.At.tree_cases (hv : v.At fs parents) (bytes : Bytes) :
    ∃ k, ReadM.eval fs (loadCommit v.commit) = .ok k ∧ k.parents = parents ∧
      ((v.Walked s.seenBlobs ∧ v.tree = some k.tree ∧ treeKind.Present fs k.tree ∧
          k.tree ∉ (s.withCommit v.commit bytes).seenBlobs ∧
          ∃ t, ReadM.eval fs (loadTree k.tree) = .ok t ∧ t.allChunkHashes = v.chunks) ∨
        (¬v.Walked s.seenBlobs ∧ ReadM.eval fs (provideTree (s.withCommit v.commit bytes) k.tree) =
          .ok (s.withCommit v.commit bytes))) := by
  obtain ⟨k, hk, hparents, htree⟩ := hv
  refine ⟨k, hk, hparents, ?_⟩
  rcases htree with ⟨hno, hnone, -⟩ | ⟨hsome, t, ht, hchunks⟩
  · refine .inr ⟨?_, eval_provideTree_skip fun h => hno h.1⟩
    rintro ⟨t, ht, -⟩
    rw [hnone] at ht
    cases ht
  · by_cases hw : k.tree ∈ insert v.commit s.seenBlobs
    · refine .inr ⟨?_, eval_provideTree_skip fun h => h.2 ?_⟩
      · rintro ⟨t', ht', hn⟩
        rw [hsome] at ht'
        obtain rfl := Option.some.inj ht'
        exact hn hw
      · rwa [Provided.seen_withCommit]
    · refine .inl ⟨⟨k.tree, hsome, hw⟩, hsome, treeKind.present_of_load ht, ?_, t, ht, hchunks⟩
      rwa [Provided.seen_withCommit]

/-- **One visit** succeeds when it can be served, and gathers what is due. -/
theorem Visit.At.provides (hv : v.At fs parents) (hserve : v.Serves fs s.seenBlobs) :
    ∃ s', ReadM.eval fs (provideCommit s v.commit) = .ok (s', parents) ∧
      s'.seenBlobs = gather s.seenBlobs v := by
  obtain ⟨hc, htr⟩ := hserve
  obtain ⟨b, hb, -⟩ := commitKind.exports_iff_servable.2 hc
  obtain ⟨k, hk, hparents, htree⟩ := hv.tree_cases (s := s) b
  unfold gather
  rcases htree with ⟨hw, hsome, hp, hnew, t, ht, hchunks⟩ | ⟨hw, hskip⟩
  · obtain ⟨tb, htb, -⟩ := treeKind.exports_iff_servable.2 (htr hw k.tree hsome)
    obtain ⟨s₂, h₂, hseen⟩ :=
      eval_provideChunks fs ((s.withCommit v.commit b).push k.tree tb) t.allChunkHashes
    refine ⟨s₂, provideCommit_ok_iff.2 ⟨b, k, hb, hk, hparents, ?_⟩, ?_⟩
    · rw [eval_provideTree_new hp hnew, exportTreeBytes, htb, ok_bind, ht, ok_bind, h₂]
    · rw [if_pos hw, hseen, Provided.push, Provided.seen_withCommit, hchunks, hsome,
        Option.toFinset_some, Finset.union_comm _ {k.tree}, ← Finset.insert_eq]
  · refine ⟨s.withCommit v.commit b, provideCommit_ok_iff.2 ⟨b, k, hb, hk, hparents, hskip⟩, ?_⟩
    rw [if_neg hw, Provided.seen_withCommit]

/-- A visit that succeeds could be served. -/
theorem Visit.At.serves (hv : v.At fs parents) {ps : List ContentHash}
    (hok : ReadM.eval fs (provideCommit s v.commit) = .ok (s', ps)) : v.Serves fs s.seenBlobs := by
  obtain ⟨b, k', hb, hk', -, hs'⟩ := provideCommit_ok_iff.1 hok
  refine ⟨commitKind.exports_iff_servable.1 (commitKind.exports_of_ok hb), fun hw t ht => ?_⟩
  obtain ⟨k, hk, -, htree⟩ := hv.tree_cases (s := s) b
  obtain rfl := Except.ok.inj (hk.symm.trans hk')
  rcases htree with ⟨-, hsome, hp, hnew, -⟩ | ⟨hn, -⟩
  · rw [hsome] at ht
    obtain rfl := Option.some.inj ht
    rw [eval_provideTree_new hp hnew] at hs'
    obtain ⟨tb, htb, -⟩ := bind_ok_iff.1 hs'
    exact treeKind.exports_iff_servable.1 (treeKind.exports_of_ok htb)
  · exact absurd hw hn

/-- A visit does not stop the walk with the walk's own error. -/
theorem Visit.At.noOther (hv : v.At fs parents) :
    NoOther (ReadM.eval fs (provideCommit s v.commit)) := by
  obtain ⟨k₀, hk₀, -⟩ := id hv
  rw [eval_provideCommit]
  refine (commitKind.exportBytes_noOther commitWire_noOther ⟨k₀, hk₀⟩).bind fun b => ?_
  obtain ⟨k, hk, -, htree⟩ := hv.tree_cases (s := s) b
  rw [hk, ok_bind]
  refine NoOther.bind ?_ fun s' text => nofun
  rcases htree with ⟨-, -, hp, hnew, t, ht, -⟩ | ⟨-, hskip⟩
  · rw [eval_provideTree_new hp hnew]
    refine (treeKind.exportBytes_noOther treeWire_noOther ⟨t, ht⟩).bind fun tb => ?_
    obtain ⟨s₂, h₂, -⟩ :=
      eval_provideChunks fs ((s.withCommit v.commit b).push k.tree tb) t.allChunkHashes
    rw [ht, ok_bind, h₂]
    exact fun text => nofun
  · rw [hskip]
    exact fun text => nofun

end Visit

/-! ## §6. The whole walk. -/

section Walk

variable {met : Finset ContentHash} {queue : List ContentHash} {vs : List Visit} {s : Provided}

/-- More commits than the bound can be reached. -/
def TooDeep (fs : VaultFs) (roots : ContentHash → Prop) : Prop :=
  ∃ met : Finset ContentHash, met.card > maxJobCommits ∧ ∀ c ∈ met, Reachable (Parent fs) roots c

/-- **The walk** succeeds when every visit can be served, and gathers what is due; or it has met too many
commits. -/
theorem WalkOrder.provides (h : WalkOrder fs met queue vs) (hserve : ServesAlong fs s.seenBlobs vs) :
    (∃ s', ReadM.eval fs (provideWalk met s queue) = .ok s' ∧
        s'.seenBlobs = vs.foldl gather s.seenBlobs) ∨
      (ReadM.eval fs (provideWalk met s queue) =
          fail (.other "provide DAG too deep (MAX_JOB_COMMITS)") ∧
        ∀ roots, Frontier (Parent fs) roots met queue → TooDeep fs roots) := by
  induction h generalizing s with
  | done met =>
    rw [provideWalk]
    exact .inl ⟨s, rfl, rfl⟩
  | again hc _ ih =>
    rw [eval_provideWalk_seen hc]
    exact (ih hserve).imp_right (And.imp_right fun hdeep roots hf => hdeep roots (hf.skip hc))
  | @deep met c queue hc hd =>
    refine .inr ⟨eval_provideWalk_deep hc hd, fun roots hf => ⟨insert c met, hd, fun x hx => ?_⟩⟩
    exact hf.sound x ((Finset.mem_insert.1 hx).elim (fun h => .inr (h ▸ List.mem_cons_self)) .inl)
  | absent hc hd hp _ ih =>
    rw [eval_provideWalk_absent hc hd hp]
    exact (ih hserve).imp_right
      (And.imp_right fun hdeep roots hf => hdeep roots (frontier_absent hf hp))
  | @first met v queue parents vs hc hd hv _ ih =>
    obtain ⟨hone, hrest⟩ := servesAlong_cons.1 hserve
    obtain ⟨s₁, h₁, hseen⟩ := hv.provides hone
    obtain ⟨k, hk, rfl, -⟩ := id hv
    rw [eval_provideWalk_present hc hd (commitKind.present_of_load hk), h₁, ok_bind, List.foldl_cons,
      ← hseen]
    rw [← hseen] at hrest
    exact (ih hrest).imp_right
      (And.imp_right fun hdeep roots hf => hdeep roots (frontier_loaded hf hk))

/-- **A walk that fails at its bound only** could be served, visit by visit. -/
theorem WalkOrder.serves (h : WalkOrder fs met queue vs)
    (hbound : ∀ e, ReadM.eval fs (provideWalk met s queue) = .error e →
      e = .err (.other "provide DAG too deep (MAX_JOB_COMMITS)")) : ServesAlong fs s.seenBlobs vs := by
  have hnil : ∀ seen, ServesAlong fs seen [] := fun seen =>
    ⟨fun v hv => absurd hv List.not_mem_nil, fun v hv => absurd hv List.not_mem_nil⟩
  induction h generalizing s with
  | done => exact hnil _
  | again hc _ ih =>
    rw [eval_provideWalk_seen hc] at hbound
    exact ih hbound
  | deep => exact hnil _
  | absent hc hd hp _ ih =>
    rw [eval_provideWalk_absent hc hd hp] at hbound
    exact ih hbound
  | @first met v queue parents vs hc hd hv _ ih =>
    obtain ⟨k, hk, -⟩ := id hv
    rw [eval_provideWalk_present hc hd (commitKind.present_of_load hk)] at hbound
    cases hone : ReadM.eval fs (provideCommit s v.commit) with
    | error e =>
      rw [hone] at hbound
      obtain rfl := hbound e rfl
      exact absurd hone (hv.noOther _)
    | ok out =>
      obtain ⟨s₁, ps⟩ := out
      have hserve := hv.serves hone
      obtain ⟨s₂, h₂, hseen⟩ := hv.provides hserve
      obtain ⟨rfl, rfl⟩ := Prod.mk.inj (Except.ok.inj (hone.symm.trans h₂))
      rw [hone] at hbound
      rw [servesAlong_cons, ← hseen]
      exact ⟨hserve, ih hbound⟩

/-- Every commit of the DAG that is present is served, and its tree when that is present. -/
def ServedAt (fs : VaultFs) (c : ContentHash) : Prop :=
  commitKind.Present fs c → commitKind.Served fs c ∧
    ∀ k, ReadM.eval fs (loadCommit c) = .ok k → treeKind.Present fs k.tree →
      treeKind.Served fs k.tree

theorem ServedAt.loadsAt {c : ContentHash} (h : ServedAt fs c) : LoadsAt fs c := by
  intro hp
  obtain ⟨⟨⟨k, hk⟩, -⟩, htree⟩ := h hp
  exact ⟨k, hk, fun ht => (htree k hk ht).1⟩

/-- A walk over served objects succeeds, or has met too many commits. -/
theorem provideWalk_served {roots : ContentHash → Prop}
    (hf : Frontier (Parent fs) roots met queue)
    (hall : ∀ c, Reachable (Parent fs) roots c → ServedAt fs c) :
    (∃ out, ReadM.eval fs (provideWalk met s queue) = .ok out) ∨
      (ReadM.eval fs (provideWalk met s queue) =
          fail (.other "provide DAG too deep (MAX_JOB_COMMITS)") ∧ TooDeep fs roots) := by
  obtain ⟨vs, hvs⟩ := walkOrder_exists (fun c hc => (hall c hc).loadsAt) hf
  have hat := hvs.at hf
  have hserve : ServesAlong fs s.seenBlobs vs := by
    refine ⟨fun v hv => ?_, fun v hv t ht => ?_⟩
    · obtain ⟨hreach, parents, k, hk, -⟩ := hat v hv
      exact (hall v.commit hreach (commitKind.present_of_load hk)).1.2
    · obtain ⟨hreach, parents, k, hk, -, htree⟩ := hat v (shown_subset hv)
      rcases htree with ⟨-, hnone, -⟩ | ⟨hsome, tree, htree, -⟩
      · rw [hnone] at ht
        cases ht
      · rw [hsome] at ht
        obtain rfl := Option.some.inj ht
        exact ((hall v.commit hreach (commitKind.present_of_load hk)).2 k hk
          (treeKind.present_of_load htree)).2
  rcases hvs.provides hserve with ⟨out, hout, -⟩ | ⟨hdeep, hmany⟩
  · exact .inl ⟨out, hout⟩
  · exact .inr ⟨hdeep, hmany roots hf⟩

end Walk

end Laws

end Soal

/-
  Soal.Vault.Mark — the mark phase computes the closure of its roots.

  Both marks are one walk with a stack.  `Marking` is what every pop preserves: the frontier of the
  search, and that exactly what the visited commits contribute has been collected.  When the stack
  is empty the collected set is what the reachable commits contribute.

  The walk fails exactly when a reachable commit that is present cannot be visited.
-/
import Soal.Vault.Gc
import Soal.Vault.Roots

namespace Soal

open FileProg Worklist

variable [Crates] {fs : VaultFs}

/-! ## §1. One pop. -/

/-- A commit that loads contributes these hashes. -/
def Visits (fs : VaultFs) (visit : ContentHash → Commit → Reads (List ContentHash)) (h : ContentHash)
    (found : List ContentHash) : Prop :=
  ∃ c, ReadM.eval fs (loadCommit h) = .ok c ∧ ReadM.eval fs (visit h c) = .ok found

section Pop

variable {visit : ContentHash → Commit → Reads (List ContentHash)} {seen live : Finset ContentHash}
  {h : ContentHash} {queue : List ContentHash}

theorem Visits.present {found : List ContentHash} (hv : Visits fs visit h found) :
    commitKind.Present fs h := by
  obtain ⟨c, hc, -⟩ := hv
  exact commitKind.present_of_load hc

theorem Visits.unique {found found' : List ContentHash} (hv : Visits fs visit h found)
    (hv' : Visits fs visit h found') : found = found' := by
  obtain ⟨c, hc, hf⟩ := hv
  obtain ⟨c', hc', hf'⟩ := hv'
  obtain rfl := Except.ok.inj (hc.symm.trans hc')
  exact Except.ok.inj (hf.symm.trans hf')

theorem eval_mark_seen (hs : h ∈ seen) : ReadM.eval fs (mark visit seen (h :: queue) live) =
    ReadM.eval fs (mark visit seen queue live) := by
  rw [mark, dif_pos hs]

theorem eval_mark_absent (hs : h ∉ seen) (hp : ¬commitKind.Present fs h) :
    ReadM.eval fs (mark visit seen (h :: queue) live) =
      ReadM.eval fs (mark visit (insert h seen) queue live) := by
  rw [mark, dif_neg hs]
  simp only [hasCommitObject, ReadM.eval_bind, ObjectKind.eval_hasObject, ok_bind, hp, decide_false,
    Bool.false_eq_true, if_false]

theorem eval_mark_present (hs : h ∉ seen) (hp : commitKind.Present fs h) :
    ReadM.eval fs (mark visit seen (h :: queue) live) =
      (ReadM.eval fs (loadCommit h)).bind (fun c => (ReadM.eval fs (visit h c)).bind (fun found =>
        ReadM.eval fs (mark visit (insert h seen) (c.parents.reverse ++ queue)
          (live ∪ found.toFinset)))) := by
  rw [mark, dif_neg hs]
  simp only [hasCommitObject, ReadM.eval_bind, ObjectKind.eval_hasObject, ok_bind, hp, decide_true,
    if_true]

end Pop

/-! ## §2. The invariant. -/

/-- The state of the walk between two pops. -/
structure Marking (fs : VaultFs) (visit : ContentHash → Commit → Reads (List ContentHash))
    (roots : ContentHash → Prop) (seen : Finset ContentHash) (queue : List ContentHash)
    (live : Finset ContentHash) : Prop where
  frontier : Frontier (Parent fs) roots seen queue
  /-- every present commit among the seen ones was visited -/
  visited : ∀ h ∈ seen, commitKind.Present fs h → ∃ found, Visits fs visit h found
  /-- what they contributed was collected, and nothing else -/
  collected : ∀ x, x ∈ live ↔ ∃ h ∈ seen, ∃ found, Visits fs visit h found ∧ x ∈ found

namespace Marking

variable {visit : ContentHash → Commit → Reads (List ContentHash)} {roots : ContentHash → Prop}
  {seen live : Finset ContentHash} {h : ContentHash} {queue : List ContentHash}

theorem init (hr : ∀ x, roots x ↔ x ∈ queue) : Marking fs visit roots ∅ queue ∅ where
  frontier := .init hr
  visited h hh := absurd hh (by simp)
  collected x := by simp

/-- A commit that was seen is skipped. -/
theorem skip (hm : Marking fs visit roots seen (h :: queue) live) (hs : h ∈ seen) :
    Marking fs visit roots seen queue live where
  frontier := hm.frontier.skip hs
  visited := hm.visited
  collected := hm.collected

/-- A commit that is not there contributes nothing and has no parents. -/
theorem absent (hm : Marking fs visit roots seen (h :: queue) live)
    (hp : ¬commitKind.Present fs h) : Marking fs visit roots (insert h seen) queue live where
  frontier := hm.frontier.visit fun y => by
    refine ⟨.inr, fun hy => hy.resolve_left ?_⟩
    rintro ⟨c, hc, -⟩
    exact hp (commitKind.present_of_load hc)
  visited x hx hpx := by
    rcases Finset.mem_insert.1 hx with rfl | hx
    · exact absurd hpx hp
    · exact hm.visited x hx hpx
  collected x := by
    rw [hm.collected]
    refine ⟨fun ⟨y, hy, hv⟩ => ⟨y, Finset.mem_insert_of_mem hy, hv⟩, ?_⟩
    rintro ⟨y, hy, found, hv, hx⟩
    rcases Finset.mem_insert.1 hy with rfl | hy
    · exact absurd hv.present hp
    · exact ⟨y, hy, found, hv, hx⟩

/-- A commit that loads contributes what `visit` finds, and its parents are pending. -/
theorem visitStep {c : Commit} {found : List ContentHash}
    (hm : Marking fs visit roots seen (h :: queue) live)
    (hc : ReadM.eval fs (loadCommit h) = .ok c) (hf : ReadM.eval fs (visit h c) = .ok found) :
    Marking fs visit roots (insert h seen) (c.parents.reverse ++ queue) (live ∪ found.toFinset) where
  frontier := hm.frontier.visit fun y => by
    rw [List.mem_append, List.mem_reverse]
    refine or_congr_left ⟨fun hy => ⟨c, hc, hy⟩, ?_⟩
    rintro ⟨c', hc', hy⟩
    obtain rfl := Except.ok.inj (hc.symm.trans hc')
    exact hy
  visited x hx hpx := by
    rcases Finset.mem_insert.1 hx with rfl | hx
    · exact ⟨found, c, hc, hf⟩
    · exact hm.visited x hx hpx
  collected x := by
    rw [Finset.mem_union, hm.collected, List.mem_toFinset]
    constructor
    · rintro (⟨y, hy, hv⟩ | hx)
      · exact ⟨y, Finset.mem_insert_of_mem hy, hv⟩
      · exact ⟨h, Finset.mem_insert_self _ _, found, ⟨c, hc, hf⟩, hx⟩
    · rintro ⟨y, hy, found', hv, hx⟩
      rcases Finset.mem_insert.1 hy with rfl | hy
      · obtain rfl := hv.unique ⟨c, hc, hf⟩
        exact .inr hx
      · exact .inl ⟨y, hy, found', hv, hx⟩

/-- A walk that ends has emptied its stack. -/
theorem run (hm : Marking fs visit roots seen queue live) {out : Finset ContentHash}
    (hout : ReadM.eval fs (mark visit seen queue live) = .ok out) :
    ∃ seen', Marking fs visit roots seen' [] out := by
  induction seen, queue, live using mark.induct with
  | case1 seen live =>
    rw [mark] at hout
    obtain rfl := Except.ok.inj hout
    exact ⟨seen, hm⟩
  | case2 seen h queue live hs ih =>
    rw [eval_mark_seen hs] at hout
    exact ih (hm.skip hs) hout
  | case3 seen h queue live hs ih ih' =>
    by_cases hp : commitKind.Present fs h
    · rw [eval_mark_present hs hp] at hout
      obtain ⟨c, hc, hout⟩ := bind_ok_iff.1 hout
      obtain ⟨found, hf, hout⟩ := bind_ok_iff.1 hout
      exact ih c found (hm.visitStep hc hf) hout
    · rw [eval_mark_absent hs hp] at hout
      exact ih' (hm.absent hp) hout

/-- A walk ends when every commit it can meet can be visited. -/
theorem total (hm : Marking fs visit roots seen queue live)
    (hall : ∀ h, Reachable (Parent fs) roots h → commitKind.Present fs h →
      ∃ found, Visits fs visit h found) :
    ∃ out, ReadM.eval fs (mark visit seen queue live) = .ok out := by
  induction seen, queue, live using mark.induct with
  | case1 seen live =>
    rw [mark]
    exact ⟨live, rfl⟩
  | case2 seen h queue live hs ih =>
    rw [eval_mark_seen hs]
    exact ih (hm.skip hs)
  | case3 seen h queue live hs ih ih' =>
    by_cases hp : commitKind.Present fs h
    · have hreach := hm.frontier.sound h (.inr List.mem_cons_self)
      obtain ⟨found, c, hc, hf⟩ := hall h hreach hp
      rw [eval_mark_present hs hp, hc, ok_bind, hf, ok_bind]
      exact ih c found (hm.visitStep hc hf)
    · rw [eval_mark_absent hs hp]
      exact ih' (hm.absent hp)

end Marking

section Result

variable {visit : ContentHash → Commit → Reads (List ContentHash)} {roots : ContentHash → Prop}
  {queue : List ContentHash}

/-- **The mark phase ends exactly when every reachable commit that is present can be visited.** -/
theorem mark_ok_iff (hr : ∀ x, roots x ↔ x ∈ queue) :
    (∃ out, ReadM.eval fs (mark visit ∅ queue ∅) = .ok out) ↔
      ∀ h, Reachable (Parent fs) roots h → commitKind.Present fs h →
        ∃ found, Visits fs visit h found := by
  constructor
  · rintro ⟨out, hout⟩ h hreach hp
    obtain ⟨seen, hm⟩ := (Marking.init hr).run hout
    exact hm.visited h (hm.frontier.seen_iff.2 hreach) hp
  · exact (Marking.init hr).total

/-- **Its result is what the reachable commits contribute.** -/
theorem mem_mark (hr : ∀ x, roots x ↔ x ∈ queue) {out : Finset ContentHash}
    (hout : ReadM.eval fs (mark visit ∅ queue ∅) = .ok out) (x : ContentHash) :
    x ∈ out ↔ ∃ h found, Reachable (Parent fs) roots h ∧ Visits fs visit h found ∧ x ∈ found := by
  obtain ⟨seen, hm⟩ := (Marking.init hr).run hout
  rw [hm.collected]
  constructor
  · rintro ⟨h, hh, found, hv, hx⟩
    exact ⟨h, found, hm.frontier.seen_iff.1 hh, hv, hx⟩
  · rintro ⟨h, found, hh, hv, hx⟩
    exact ⟨h, hm.frontier.seen_iff.2 hh, found, hv, hx⟩

end Result

/-! ## §3. The two marks. -/

/-- Reachable from roots of a vault. -/
abbrev LiveFrom (roots : ContentHash → Prop) (fs : VaultFs) (c : ContentHash) : Prop :=
  Reachable (Parent fs) roots c

/-- A live commit that loads, or the tree of one. -/
def MarkedObject (roots : ContentHash → Prop) (fs : VaultFs) (x : ContentHash) : Prop :=
  ∃ c k, LiveFrom roots fs c ∧ ReadM.eval fs (loadCommit c) = .ok k ∧ (x = c ∨ x = k.tree)

/-- A chunk that the tree of a live commit lists. -/
def MarkedChunk (roots : ContentHash → Prop) (fs : VaultFs) (x : ContentHash) : Prop :=
  ∃ c k t, LiveFrom roots fs c ∧ ReadM.eval fs (loadCommit c) = .ok k ∧
    ReadM.eval fs (loadTree k.tree) = .ok t ∧ x ∈ t.allChunkHashes

/-- Every live commit that is present loads. -/
def CommitsLoad (roots : ContentHash → Prop) (fs : VaultFs) : Prop :=
  ∀ c, LiveFrom roots fs c → commitKind.Present fs c →
    ∃ k, ReadM.eval fs (loadCommit c) = .ok k

/-- Every live commit that is present loads, and so does its tree when it is present. -/
def ObjectsLoad (roots : ContentHash → Prop) (fs : VaultFs) : Prop :=
  ∀ c, LiveFrom roots fs c → commitKind.Present fs c →
    ∃ k, ReadM.eval fs (loadCommit c) = .ok k ∧
      (treeKind.Present fs k.tree → ∃ t, ReadM.eval fs (loadTree k.tree) = .ok t)

section Visitors

variable {h : ContentHash} {found : List ContentHash}

theorem visits_objects_iff : Visits fs objectsOfCommit h found ↔
    ∃ k, ReadM.eval fs (loadCommit h) = .ok k ∧ found = [h, k.tree] := by
  constructor
  · rintro ⟨k, hk, hf⟩
    obtain rfl := Except.ok.inj hf
    exact ⟨k, hk, rfl⟩
  · rintro ⟨k, hk, rfl⟩
    exact ⟨k, hk, rfl⟩

theorem eval_chunksOfCommit (h : ContentHash) (k : Commit) :
    ReadM.eval fs (chunksOfCommit h k) = if treeKind.Present fs k.tree then
      (ReadM.eval fs (loadTree k.tree)).map Tree.allChunkHashes else .ok [] := by
  unfold chunksOfCommit hasTreeObject
  simp only [ReadM.eval_bind, ObjectKind.eval_hasObject, ok_bind, decide_eq_true_eq, ReadM.eval_ite]
  split
  next => cases ReadM.eval fs (loadTree k.tree) <;> rfl
  next => rfl

end Visitors

variable {roots : ContentHash → Prop} {queue : List ContentHash}

theorem markObjects_ok_iff (hr : ∀ x, roots x ↔ x ∈ queue) :
    (∃ out, ReadM.eval fs (mark objectsOfCommit ∅ queue ∅) = .ok out) ↔ CommitsLoad roots fs := by
  rw [mark_ok_iff hr]
  refine forall₃_congr fun h _ _ => ?_
  constructor
  · rintro ⟨found, hv⟩
    obtain ⟨k, hk, -⟩ := visits_objects_iff.1 hv
    exact ⟨k, hk⟩
  · rintro ⟨k, hk⟩
    exact ⟨_, visits_objects_iff.2 ⟨k, hk, rfl⟩⟩

theorem mem_markObjects (hr : ∀ x, roots x ↔ x ∈ queue) {out : Finset ContentHash}
    (hout : ReadM.eval fs (mark objectsOfCommit ∅ queue ∅) = .ok out) (x : ContentHash) :
    x ∈ out ↔ MarkedObject roots fs x := by
  rw [mem_mark hr hout]
  constructor
  · rintro ⟨h, found, hh, hv, hx⟩
    obtain ⟨k, hk, rfl⟩ := visits_objects_iff.1 hv
    exact ⟨h, k, hh, hk, by simpa using hx⟩
  · rintro ⟨h, k, hh, hk, hx⟩
    exact ⟨h, [h, k.tree], hh, visits_objects_iff.2 ⟨k, hk, rfl⟩, by simpa using hx⟩

theorem markChunks_ok_iff (hr : ∀ x, roots x ↔ x ∈ queue) :
    (∃ out, ReadM.eval fs (mark chunksOfCommit ∅ queue ∅) = .ok out) ↔ ObjectsLoad roots fs := by
  rw [mark_ok_iff hr]
  refine forall₃_congr fun h _ _ => ?_
  constructor
  · rintro ⟨found, k, hk, hf⟩
    refine ⟨k, hk, fun hp => ?_⟩
    rw [eval_chunksOfCommit, if_pos hp] at hf
    cases ht : ReadM.eval fs (loadTree k.tree) with
    | ok t => exact ⟨t, rfl⟩
    | error e => rw [ht] at hf; cases hf
  · rintro ⟨k, hk, ht⟩
    by_cases hp : treeKind.Present fs k.tree
    · obtain ⟨t, ht⟩ := ht hp
      exact ⟨t.allChunkHashes, k, hk, by rw [eval_chunksOfCommit, if_pos hp, ht]; rfl⟩
    · exact ⟨[], k, hk, by rw [eval_chunksOfCommit, if_neg hp]⟩

theorem mem_markChunks (hr : ∀ x, roots x ↔ x ∈ queue) {out : Finset ContentHash}
    (hout : ReadM.eval fs (mark chunksOfCommit ∅ queue ∅) = .ok out) (x : ContentHash) :
    x ∈ out ↔ MarkedChunk roots fs x := by
  rw [mem_mark hr hout]
  constructor
  · rintro ⟨h, found, hh, ⟨k, hk, hf⟩, hx⟩
    rw [eval_chunksOfCommit] at hf
    split at hf
    next =>
      cases ht : ReadM.eval fs (loadTree k.tree) with
      | ok t =>
        rw [ht] at hf
        obtain rfl := Except.ok.inj hf
        exact ⟨h, k, t, hh, hk, ht, hx⟩
      | error e => rw [ht] at hf; cases hf
    next =>
      obtain rfl := Except.ok.inj hf
      cases hx
  · rintro ⟨h, k, t, hh, hk, ht, hx⟩
    refine ⟨h, t.allChunkHashes, hh, ⟨k, hk, ?_⟩, hx⟩
    rw [eval_chunksOfCommit, if_pos (treeKind.present_of_load ht), ht]
    rfl

/-! ## §4. The roots of a collection. -/

/-- What a collection marks from: the named roots when they can be read, else HEAD alone, when that
can be read. -/
def GcRoot (fs : VaultFs) (r : ContentHash) : Prop :=
  (RootsReadable fs ∧ NamedRoot fs r) ∨ (¬RootsReadable fs ∧ ReadM.eval fs head = .ok (some r))

omit [Crates] in
theorem orderly_fromHexChars (s : List Char) : Orderly (ContentHash.fromHexChars s) := by
  unfold Orderly ContentHash.fromHexChars
  dsimp only
  split
  next =>
    split
    next => split <;> simp
    next => simp
  next => simp

omit [Crates] in
theorem orderly_readToString (p : FilePath VaultDir) : Orderly (ReadM.eval fs (readToString p)) := by
  unfold Orderly
  cases hl : fs.lookup p with
  | none => rw [eval_readToString_none hl]; simp
  | some b =>
    rw [eval_readToString_some hl]
    split <;> simp

omit [Crates] in
theorem orderly_head : Orderly (ReadM.eval fs head) := by
  by_cases h : headFile ∈ fs
  · rw [eval_head_present h]
    exact (orderly_readToString _).bind fun s => (orderly_fromHexChars _).map
  · rw [eval_head_absent h]
    exact fun h => by cases h

omit [Crates] in
theorem orderly_listHeadsFileOnly : Orderly (ReadM.eval fs listHeadsFileOnly) := by
  by_cases h : headsFile ∈ fs
  · rw [eval_listHeadsFileOnly_present h]
    exact (orderly_readToString _).map
  · rw [eval_listHeadsFileOnly_absent h]
    exact fun h => by cases h

theorem orderly_loadSnapshots : Orderly (ReadM.eval fs loadSnapshots) := by
  by_cases h : snapshotsPath ∈ fs
  · rw [eval_loadSnapshots_present h]
    refine (orderly_readToString _).bind fun s hs => ?_
    cases hj : Crates.snapshotsJson.fromStr s with
    | ok log => rw [hj] at hs; cases hs
    | error e => rw [hj] at hs; cases hs
  · rw [eval_loadSnapshots_absent h]
    exact fun h => by cases h

theorem orderly_protectedCommitRoots : Orderly (ReadM.eval fs protectedCommitRoots) := by
  unfold protectedCommitRoots
  simp only [ReadM.eval_bind, eval_listHeads]
  refine orderly_head.bind fun h => Orderly.bind ?_ fun heads => ?_
  · exact orderly_listHeadsFileOnly.bind fun hs => orderly_head.map
  · exact orderly_loadSnapshots.bind fun log h => by cases h

/-- **Reading the roots of a collection always succeeds**: when the root set cannot be read, HEAD
alone stands in for it, or nothing. -/
theorem eval_gcRoots (fs : VaultFs) :
    ∃ queue, ReadM.eval fs gcRoots = .ok queue ∧ ∀ r, GcRoot fs r ↔ r ∈ queue := by
  unfold gcRoots
  rw [ReadM.eval_handle]
  cases hroots : ReadM.eval fs protectedCommitRoots with
  | ok roots =>
    have hread : RootsReadable fs := rootsReadable_iff.2 ⟨roots, hroots⟩
    refine ⟨roots, rfl, fun r => ?_⟩
    rw [mem_protectedCommitRoots hroots]
    exact ⟨fun h => h.elim And.right fun h => absurd hread h.1, fun h => .inl ⟨hread, h⟩⟩
  | error e =>
    have hread : ¬RootsReadable fs := fun h => by
      obtain ⟨roots, hr⟩ := rootsReadable_iff.1 h
      rw [hroots] at hr
      cases hr
    have hgc : ∀ r, GcRoot fs r ↔ ReadM.eval fs head = .ok (some r) := fun r =>
      ⟨fun h => h.elim (fun h => absurd h.1 hread) And.right, fun h => .inr ⟨hread, h⟩⟩
    cases e with
    | panic => exact absurd hroots orderly_protectedCommitRoots
    | err e =>
      simp only [ReadM.eval_bind, okOrNone, ReadM.eval_handle]
      cases hhead : ReadM.eval fs head with
      | ok h =>
        refine ⟨h.toList, by cases h <;> rfl, fun r => ?_⟩
        rw [hgc, hhead, Option.mem_toList, Except.ok.injEq]
      | error e =>
        cases e with
        | panic => exact absurd hhead orderly_head
        | err e =>
          refine ⟨[], rfl, fun r => ?_⟩
          rw [hgc, hhead]
          simp

section Live

/-- The chunk mark of a collection. -/
theorem liveChunkHashes_ok_iff :
    (∃ live, ReadM.eval fs liveChunkHashes = .ok live) ↔ ObjectsLoad (GcRoot fs) fs := by
  obtain ⟨queue, hq, hr⟩ := eval_gcRoots fs
  unfold liveChunkHashes liveChunkHashesFromRoots
  rw [ReadM.eval_bind, hq, ok_bind]
  exact markChunks_ok_iff fun x => (hr x).trans List.mem_reverse.symm

theorem mem_liveChunkHashes {live : Finset ContentHash}
    (h : ReadM.eval fs liveChunkHashes = .ok live) (x : ContentHash) :
    x ∈ live ↔ MarkedChunk (GcRoot fs) fs x := by
  obtain ⟨queue, hq, hr⟩ := eval_gcRoots fs
  unfold liveChunkHashes liveChunkHashesFromRoots at h
  rw [ReadM.eval_bind, hq, ok_bind] at h
  exact mem_markChunks (fun x => (hr x).trans List.mem_reverse.symm) h x

/-- The object mark of a collection. -/
theorem liveObjectHashes_ok_iff :
    (∃ live, ReadM.eval fs liveObjectHashes = .ok live) ↔ CommitsLoad (GcRoot fs) fs := by
  obtain ⟨queue, hq, hr⟩ := eval_gcRoots fs
  unfold liveObjectHashes
  rw [ReadM.eval_bind, hq, ok_bind]
  exact markObjects_ok_iff fun x => (hr x).trans List.mem_reverse.symm

theorem mem_liveObjectHashes {live : Finset ContentHash}
    (h : ReadM.eval fs liveObjectHashes = .ok live) (x : ContentHash) :
    x ∈ live ↔ MarkedObject (GcRoot fs) fs x := by
  obtain ⟨queue, hq, hr⟩ := eval_gcRoots fs
  unfold liveObjectHashes at h
  rw [ReadM.eval_bind, hq, ok_bind] at h
  exact mem_markObjects (fun x => (hr x).trans List.mem_reverse.symm) h x

end Live

end Soal

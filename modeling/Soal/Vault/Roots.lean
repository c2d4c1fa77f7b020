/-
  Soal.Vault.Roots — what the three root files name, and which commits they keep reachable.

  HEAD, HEADS and the snapshot registry are read one after the other; the root set is readable when
  all three are.  A commit is protected when a readable root set leads to it through parents.
-/
import Soal.Lib.Worklist
import Soal.Vault.Heads

namespace Soal

open FileProg

variable {fs fs' : VaultFs}

/-! ## §1. HEAD and HEADS. -/

theorem eval_head_absent (h : headFile ∉ fs) : ReadM.eval fs head = .ok none := by
  unfold head
  simp only [ReadM.eval_bind, ReadM.eval_pathExists, ok_bind, h, decide_false, Bool.false_eq_true,
    if_false]
  rfl

theorem eval_head_present (h : headFile ∈ fs) :
    ReadM.eval fs head = (ReadM.eval fs (readToString headFile)).bind (fun s =>
      (ContentHash.fromHexChars (Text.trim s.toList)).map some) := by
  unfold head
  simp only [ReadM.eval_bind, ReadM.eval_pathExists, ok_bind, h, decide_true, if_true]
  rfl

theorem eval_head_congr (h : fs'.lookup headFile = fs.lookup headFile) :
    ReadM.eval fs' head = ReadM.eval fs head := by
  by_cases hm : headFile ∈ fs
  · rw [eval_head_present hm, eval_head_present ((mem_congr h).2 hm), eval_readToString_congr h]
  · rw [eval_head_absent hm, eval_head_absent (fun hm' => hm ((mem_congr h).1 hm'))]

theorem trim_toHexChars (h : ContentHash) : Text.trim h.toHexChars = h.toHexChars :=
  Text.trim_eq_self fun c hc => (h.toHexChars_plain c hc).2.1

theorem eval_head_written {h : ContentHash} (hl : fs.lookup headFile = some (Text.toUtf8 h.toHex)) :
    ReadM.eval fs head = .ok (some h) := by
  have hm : headFile ∈ fs := Fs.mem_iff_lookup.2 ⟨_, hl⟩
  rw [eval_head_present hm, eval_readToString_text hl, ok_bind, ContentHash.toHex_toList,
    trim_toHexChars, ContentHash.fromHexChars_toHexChars]
  rfl

theorem eval_listHeadsFileOnly_absent (h : headsFile ∉ fs) :
    ReadM.eval fs listHeadsFileOnly = .ok ∅ := by
  unfold listHeadsFileOnly
  simp only [ReadM.eval_bind, ReadM.eval_pathExists, ok_bind, h, decide_false, Bool.false_eq_true,
    if_false]
  rfl

theorem eval_listHeadsFileOnly_present (h : headsFile ∈ fs) :
    ReadM.eval fs listHeadsFileOnly = (ReadM.eval fs (readToString headsFile)).map (fun body =>
      ((Text.lines body.toList).filterMap headOfLine).toFinset) := by
  unfold listHeadsFileOnly
  simp only [ReadM.eval_bind, ReadM.eval_pathExists, ok_bind, h, decide_true, if_true]
  cases ReadM.eval fs (readToString headsFile) <;> rfl

theorem eval_listHeadsFileOnly_congr (h : fs'.lookup headsFile = fs.lookup headsFile) :
    ReadM.eval fs' listHeadsFileOnly = ReadM.eval fs listHeadsFileOnly := by
  by_cases hm : headsFile ∈ fs
  · rw [eval_listHeadsFileOnly_present hm, eval_listHeadsFileOnly_present ((mem_congr h).2 hm),
      eval_readToString_congr h]
  · rw [eval_listHeadsFileOnly_absent hm,
      eval_listHeadsFileOnly_absent (fun hm' => hm ((mem_congr h).1 hm'))]

theorem headOfLine_toHexChars (h : ContentHash) : headOfLine h.toHexChars = some h := by
  have hne : h.toHexChars.isEmpty = false := by
    cases hl : h.toHexChars with
    | nil =>
      have := h.toHexChars_length
      rw [hl] at this
      cases this
    | cons c cs => rfl
  unfold headOfLine
  rw [trim_toHexChars]
  show (if h.toHexChars.isEmpty = true then _ else _) = _
  rw [hne, if_neg (by simp), ContentHash.fromHexChars_toHexChars]
  rfl

/-- One line per hash reads back. -/
theorem lines_headsBody (hs : List ContentHash) :
    (Text.lines (hs.flatMap fun h => h.toHexChars ++ ['\n'])).filterMap headOfLine = hs := by
  induction hs with
  | nil => rfl
  | cons h hs ih =>
    have hplain := h.toHexChars_plain
    have hn : '\n' ∉ h.toHexChars := fun hc => (hplain _ hc).2.2.1 rfl
    have hr : '\r' ∉ h.toHexChars := fun hc => (hplain _ hc).2.2.2.1 rfl
    rw [List.flatMap_cons, List.append_assoc, List.singleton_append, Text.lines_append _ hn hr,
      List.filterMap_cons_some (headOfLine_toHexChars h), ih]

theorem eval_listHeadsFileOnly_written {hs : Finset ContentHash}
    (hl : fs.lookup headsFile = some (Text.toUtf8 (String.ofList (headsBody hs)))) :
    ReadM.eval fs listHeadsFileOnly = .ok hs := by
  have hm : headsFile ∈ fs := Fs.mem_iff_lookup.2 ⟨_, hl⟩
  rw [eval_listHeadsFileOnly_present hm, eval_readToString_text hl]
  show Except.ok ((Text.lines (String.ofList (headsBody hs)).toList).filterMap headOfLine).toFinset = _
  rw [String.toList_ofList, headsBody, lines_headsBody, Finset.sort_toFinset]

/-- HEAD is one of the heads. -/
theorem eval_listHeads : ReadM.eval fs listHeads = (ReadM.eval fs listHeadsFileOnly).bind (fun hs =>
    (ReadM.eval fs head).map (fun h => h.toFinset ∪ hs)) := by
  unfold listHeads
  rw [ReadM.eval_bind]
  congr 1
  funext hs
  rw [ReadM.eval_bind]
  cases ReadM.eval fs head with
  | error e => rfl
  | ok h =>
    cases h with
    | none => exact congrArg _ (Finset.empty_union hs).symm
    | some h => exact congrArg _ (Finset.insert_eq h hs)

/-! ## §2. The root set. -/

section Roots

variable [Crates]

theorem eval_loadSnapshots_absent (h : snapshotsPath ∉ fs) :
    ReadM.eval fs loadSnapshots = .ok ⟨[]⟩ := by
  unfold loadSnapshots
  simp only [ReadM.eval_bind, ReadM.eval_pathExists, ok_bind, h, decide_false, Bool.false_eq_true,
    if_false]
  rfl

theorem eval_loadSnapshots_present (h : snapshotsPath ∈ fs) :
    ReadM.eval fs loadSnapshots = (ReadM.eval fs (readToString snapshotsPath)).bind (fun s =>
      serde (Crates.snapshotsJson.fromStr s)) := by
  unfold loadSnapshots
  simp only [ReadM.eval_bind, ReadM.eval_pathExists, ok_bind, h, decide_true, if_true]
  rfl

theorem eval_loadSnapshots_congr (h : fs'.lookup snapshotsPath = fs.lookup snapshotsPath) :
    ReadM.eval fs' loadSnapshots = ReadM.eval fs loadSnapshots := by
  by_cases hm : snapshotsPath ∈ fs
  · rw [eval_loadSnapshots_present hm, eval_loadSnapshots_present ((mem_congr h).2 hm),
      eval_readToString_congr h]
  · rw [eval_loadSnapshots_absent hm,
      eval_loadSnapshots_absent (fun hm' => hm ((mem_congr h).1 hm'))]

/-- A registry that was saved reads back. -/
theorem eval_loadSnapshots_saved (hjson : Crates.snapshotsJson.RoundTrip) {fs : VaultFs}
    {log : SnapshotLog} (hl : fs.lookup snapshotsPath =
      some (Text.toUtf8 (Crates.snapshotsJson.toStringPretty log))) :
    ReadM.eval fs loadSnapshots = .ok log := by
  rw [eval_loadSnapshots_present (Fs.mem_iff_lookup.2 ⟨_, hl⟩), eval_readToString_text hl, ok_bind,
    hjson log]
  rfl

/-- All three root files can be read. -/
structure RootsReadable (fs : VaultFs) : Prop where
  head : ∃ h, ReadM.eval fs head = .ok h
  heads : ∃ hs, ReadM.eval fs listHeadsFileOnly = .ok hs
  registry : ∃ log, ReadM.eval fs loadSnapshots = .ok log

/-- HEAD, HEADS or the snapshot registry names the commit. -/
inductive NamedRoot (fs : VaultFs) (r : ContentHash) : Prop
  | head (h : ReadM.eval fs Soal.head = .ok (some r))
  | heads {hs : Finset ContentHash} (h : ReadM.eval fs listHeadsFileOnly = .ok hs) (hr : r ∈ hs)
  | registry {log : SnapshotLog} (h : ReadM.eval fs loadSnapshots = .ok log) (hr : r ∈ log.roots)

theorem protectedCommitRoots_ok_iff {roots : List ContentHash} :
    ReadM.eval fs protectedCommitRoots = .ok roots ↔ ∃ h hs log, ReadM.eval fs head = .ok h ∧
      ReadM.eval fs listHeadsFileOnly = .ok hs ∧ ReadM.eval fs loadSnapshots = .ok log ∧
      roots = (h.toFinset ∪ hs ∪ log.roots).sort (· ≤ ·) := by
  unfold protectedCommitRoots
  simp only [ReadM.eval_bind, eval_listHeads, bind_ok_iff]
  constructor
  · rintro ⟨h, hh, heads, ⟨hs, hhs, hmap⟩, log, hlog, hroots⟩
    rw [hh] at hmap
    cases hmap
    cases hroots
    refine ⟨h, hs, log, hh, hhs, hlog, ?_⟩
    rw [← Finset.union_assoc, Finset.union_self]
  · rintro ⟨h, hs, log, hh, hhs, hlog, rfl⟩
    refine ⟨h, hh, h.toFinset ∪ hs, ⟨hs, hhs, by rw [hh]; rfl⟩, log, hlog, ?_⟩
    rw [← Finset.union_assoc, Finset.union_self]
    rfl

/-- **The root set is what the three files name.** -/
theorem mem_protectedCommitRoots {roots : List ContentHash}
    (h : ReadM.eval fs protectedCommitRoots = .ok roots) {r : ContentHash} :
    r ∈ roots ↔ NamedRoot fs r := by
  obtain ⟨h, hs, log, hh, hhs, hlog, rfl⟩ := protectedCommitRoots_ok_iff.1 h
  rw [Finset.mem_sort, Finset.mem_union, Finset.mem_union, Option.mem_toFinset, Option.mem_def]
  constructor
  · rintro ((rfl | hr) | hr)
    · exact .head hh
    · exact .heads hhs hr
    · exact .registry hlog hr
  · rintro (h' | ⟨h', hr⟩ | ⟨h', hr⟩)
    · exact .inl (.inl (Except.ok.inj (hh.symm.trans h')))
    · obtain rfl := Except.ok.inj (hhs.symm.trans h')
      exact .inl (.inr hr)
    · obtain rfl := Except.ok.inj (hlog.symm.trans h')
      exact .inr hr

/-- The root set is read in full or not at all. -/
theorem rootsReadable_iff :
    RootsReadable fs ↔ ∃ roots, ReadM.eval fs protectedCommitRoots = .ok roots := by
  constructor
  · rintro ⟨⟨h, hh⟩, ⟨hs, hhs⟩, ⟨log, hlog⟩⟩
    exact ⟨_, protectedCommitRoots_ok_iff.2 ⟨h, hs, log, hh, hhs, hlog, rfl⟩⟩
  · rintro ⟨roots, h⟩
    obtain ⟨h, hs, log, hh, hhs, hlog, -⟩ := protectedCommitRoots_ok_iff.1 h
    exact ⟨⟨h, hh⟩, ⟨hs, hhs⟩, ⟨log, hlog⟩⟩

/-! ## §3. Reachability through parents. -/

/-- `p` is a parent of the commit stored under `c`. -/
def Parent (fs : VaultFs) (c p : ContentHash) : Prop :=
  ∃ k, ReadM.eval fs (loadCommit c) = .ok k ∧ p ∈ k.parents

/-- `h` is `r` or an ancestor of it, over the commits on disk. -/
abbrev Reach (fs : VaultFs) (r h : ContentHash) : Prop := Relation.ReflTransGen (Parent fs) r h

/-- What `protected_commit_roots` returns leads to the commit. -/
def Protected (fs : VaultFs) (h : ContentHash) : Prop :=
  ∃ roots, ReadM.eval fs protectedCommitRoots = .ok roots ∧ ∃ r ∈ roots, Reach fs r h

theorem protected_iff {h : ContentHash} :
    Protected fs h ↔ RootsReadable fs ∧ ∃ r, NamedRoot fs r ∧ Reach fs r h := by
  constructor
  · rintro ⟨roots, hroots, r, hr, hrh⟩
    exact ⟨rootsReadable_iff.2 ⟨roots, hroots⟩, r, (mem_protectedCommitRoots hroots).1 hr, hrh⟩
  · rintro ⟨hread, r, hr, hrh⟩
    obtain ⟨roots, hroots⟩ := rootsReadable_iff.1 hread
    exact ⟨roots, hroots, r, (mem_protectedCommitRoots hroots).2 hr, hrh⟩

/-- Loading a commit looks at the commit directory. -/
theorem eval_loadCommit_congr (h : ∀ p, p.dir = .commits → fs'.lookup p = fs.lookup p)
    (c : ContentHash) : ReadM.eval fs' (loadCommit c) = ReadM.eval fs (loadCommit c) :=
  commitKind.eval_load_congr (h _ rfl) (h _ rfl)

/-- Loading a tree looks at the tree directory. -/
theorem eval_loadTree_congr (h : ∀ p, p.dir = .trees → fs'.lookup p = fs.lookup p)
    (t : ContentHash) : ReadM.eval fs' (loadTree t) = ReadM.eval fs (loadTree t) :=
  treeKind.eval_load_congr (h _ rfl) (h _ rfl)

theorem reach_congr (h : ∀ p, p.dir = .commits → fs'.lookup p = fs.lookup p)
    {r c : ContentHash} : Reach fs' r c ↔ Reach fs r c := by
  have hP : Parent fs' = Parent fs := by
    funext c p
    unfold Parent
    rw [eval_loadCommit_congr h]
  rw [Reach, hP]

/-- A commit without parents reaches only itself. -/
theorem reach_parentless {r h : ContentHash} {k : Commit}
    (hk : ReadM.eval fs (loadCommit r) = .ok k) (hp : k.parents = []) : Reach fs r h ↔ h = r := by
  refine ⟨fun hr => ?_, fun heq => heq ▸ .refl⟩
  rcases Relation.ReflTransGen.cases_head hr with heq | ⟨p, ⟨k', hk', hmem⟩, -⟩
  · exact heq.symm
  · obtain rfl := Except.ok.inj (hk.symm.trans hk')
    rw [hp] at hmem
    cases hmem

end Roots

end Soal

/-
  Soal.Runs.AddHistory — what a run of adds and snapshots leaves behind.

  The calls of the run are kept newest first, each with the commit it returned.  What a path holds
  after them is read off the calls alone (`contentOf`); the vault is then compared with that.
-/
import Soal.Codec.Faithful
import Soal.Runs.Commands
import Soal.Vault.Passphrase
import Soal.Vault.Serve

namespace Soal

open FileProg

section Model

variable [Crates]

/-! ## §1. Calls, and what a path holds after them. -/

/-- A call of the run: a file is added, or a snapshot is taken. -/
inductive Call where
  | addFile (path : String) (data : Bytes)
  | snapshot (message : String)

def Call.action (v : Vault) : Call → Action ContentHash
  | .addFile path data => v.addPath (.file data) path
  | .snapshot message => v.snapshot message

/-- What a call puts under a path. -/
def Call.content (path : String) : Call → Option Bytes
  | .addFile name data => if normalizeAndValidate name = .ok path then some data else none
  | .snapshot _ => none

/-- What a path holds after these calls, newest first: the data of the last add to it. -/
def contentOf (calls : List Call) (path : String) : Option Bytes :=
  calls.findSome? (Call.content path)

/-- A successful call. -/
structure Made where
  call : Call
  commit : ContentHash

/-- The successful calls of a run, newest first, and the directory they lead to.  Every call has a
handle and a world of its own; the handles hold one key. -/
inductive Recorded (S : Bytes → Prop) (key : Option Key) : List Made → VaultFs → Prop
  | fresh {fs : VaultFs} (h : Fresh fs) : Recorded S key [] fs
  | call {older : List Made} {fs : VaultFs} (hr : Recorded S key older fs) (v : Vault)
      (env : Outside) (call : Call) {c : ContentHash} {w' : VaultWorld} (hv : v.key = key)
      (hrun : run env (call.action v) (World.boot fs) = (.ok c, w')) (hdata : DataIn S fs)
      (hdata' : DataIn S w'.fs) : Recorded S key (⟨call, c⟩ :: older) w'.fs

/-! ## §2. What is compared. -/

/-- The chunks of a file load and make up its data. -/
def Vault.LoadsTo (v : Vault) (fs : VaultFs) (chunks : List ContentHash) (data : Bytes) : Prop :=
  ∃ plains, List.Forall₂ (fun ch plain => ReadM.eval fs (v.loadChunk ch) = .ok plain) chunks plains ∧
    plains.flatten = data

/-- A tree shows a content: the same paths, and for each the size and the data. -/
def Tree.Shows (tree : Tree) (v : Vault) (fs : VaultFs) (content : String → Option Bytes) : Prop :=
  ∀ path, match content path with
    | none => tree.entries.get? path = none
    | some data => ∃ chunks, tree.entries.get? path = some (.file (.ofNat data.length) chunks) ∧
        v.LoadsTo fs chunks data

/-- A commit's tree decodes to a content. -/
def CommitShows (v : Vault) (fs : VaultFs) (c : ContentHash) (content : String → Option Bytes) :
    Prop :=
  ∃ k tree, ReadM.eval fs (loadCommit c) = .ok k ∧ ReadM.eval fs (loadTree k.tree) = .ok tree ∧
    tree.Shows v fs content

/-- Walking first parents from a commit, the commits passed. -/
inductive FirstParents (fs : VaultFs) : Option ContentHash → List ContentHash → Prop
  | stop : FirstParents fs none []
  | next {c : ContentHash} {k : Commit} {cs : List ContentHash}
      (hk : ReadM.eval fs (loadCommit c) = .ok k) (h : FirstParents fs k.parents.head? cs) :
      FirstParents fs (some c) (c :: cs)

/-- The entries cover the data from an offset on, one after the other. -/
def Tiles (size : Nat) : Nat → List (Nat × Nat) → Prop
  | start, [] => start = size
  | start, (offset, length) :: entries => offset = start ∧ Tiles size (start + length) entries

/-- FastCDC yields contiguous chunks that cover the data. -/
def FastcdcTiles : Prop := ∀ (data : Bytes) (min avg max : UInt32),
  Tiles data.length 0 (Crates.fastcdc data min avg max)

/-! ## §3. Chunks load back. -/

section Chunks

variable {v : Vault} {fs : VaultFs} {plain data : Bytes} {ch : ContentHash}

omit [Crates] in
theorem Tiles.le {size start : Nat} {entries : List (Nat × Nat)} (h : Tiles size start entries) :
    start ≤ size := by
  induction entries generalizing start with
  | nil => exact le_of_eq h
  | cons entry entries ih =>
    have hrest : start + entry.2 ≤ size := ih h.2
    omega

omit [Crates] in
/-- Entries that tile the data from an offset on cut out the rest of it. -/
theorem flatten_of_tiles {entries : List (Nat × Nat)} {start : Nat}
    (h : Tiles data.length start entries) :
    (entries.filterMap fun entry => if entry.1 + entry.2 ≤ data.length then
      some ((data.drop entry.1).take entry.2) else none).flatten = data.drop start := by
  induction entries generalizing start with
  | nil =>
    have hend : start = data.length := h
    simp [hend]
  | cons entry entries ih =>
    obtain ⟨offset, length⟩ := entry
    obtain ⟨hoffset, hrest⟩ := h
    have hoffset : offset = start := hoffset
    subst hoffset
    have hle : offset + length ≤ data.length := hrest.le
    rw [List.filterMap_cons]
    dsimp only
    rw [if_pos hle, List.flatten_cons, ih hrest, ← List.drop_drop, List.take_append_drop]

/-- **Chunking loses nothing.** -/
theorem chunkBytes_flatten (hcdc : FastcdcTiles) (data : Bytes) : (chunkBytes data).flatten = data := by
  unfold chunkBytes
  split
  next hempty => exact (List.isEmpty_iff.1 hempty).symm
  next =>
    dsimp only
    split
    next => simp
    next => exact flatten_of_tiles (hcdc data _ _ _)

/-- Decrypting undoes deterministic encryption. -/
theorem decryptChunk_of_encrypt (haead : AeadCorrect) {key : Key} {stored : Bytes}
    (h : encryptDeterministic plain key = .ok stored) : decryptChunk stored key = .ok plain := by
  obtain ⟨ct, hct, h⟩ := bind_ok_iff.1 h
  obtain rfl := Except.ok.inj h
  have hlen : ((Crates.blake3 plain).bytes.take nonceLen).length = nonceLen := by
    rw [List.length_take, (Crates.blake3 plain).length_eq]
    rfl
  have hct : Crates.aeadEncrypt key ((Crates.blake3 plain).bytes.take nonceLen) plain [] = .ok ct := by
    cases henc : Crates.aeadEncrypt key ((Crates.blake3 plain).bytes.take nonceLen) plain [] with
    | error e =>
      rw [henc] at hct
      cases hct
    | ok ct' =>
      rw [henc] at hct
      have hct : (.ok ct' : Res Bytes) = .ok ct := hct
      rw [Except.ok.inj hct]
  unfold decryptChunk decrypt
  rw [if_neg (by rw [List.length_append, hlen]; omega), List.take_left' hlen, List.drop_left' hlen,
    haead.opens _ _ _ _ _ hct]
  rfl

/-- What a handle holds depends on its key only. -/
theorem Vault.HoldsFile.congr {v' : Vault} {entry : FileEntry} (hv : v'.key = v.key)
    (h : v'.HoldsFile fs data entry) : v.HoldsFile fs data entry := by
  refine ⟨h.size, h.chunks.imp fun plain ch hheld => ?_⟩
  obtain ⟨stored, hstored, hch⟩ := hheld
  unfold Vault.storedForm at hstored
  rw [hv] at hstored
  exact ⟨stored, hstored, hch⟩

/-- A chunk that is held loads. -/
theorem Vault.Holds.load (haead : AeadCorrect) (h : v.Holds fs plain ch) :
    ReadM.eval fs (v.loadChunk ch) = .ok plain := by
  obtain ⟨stored, hs, rfl, hl⟩ := h
  unfold Vault.loadChunk
  rw [ReadM.eval_bind, eval_chunkStoreGet_some hl, if_pos rfl, ok_bind]
  unfold Vault.storedForm at hs
  cases hk : v.key with
  | none =>
    rw [hk] at hs
    exact hs.symm
  | some key =>
    rw [hk] at hs
    exact decryptChunk_of_encrypt haead hs

/-- The chunks of a file that is held make up its data. -/
theorem Vault.HoldsFile.loadsTo (hcdc : FastcdcTiles) (haead : AeadCorrect) {entry : FileEntry}
    (h : v.HoldsFile fs data entry) : v.LoadsTo fs entry.2.2 data :=
  ⟨chunkBytes data, h.chunks.flip.imp fun _ _ hc => Vault.Holds.load haead hc,
    chunkBytes_flatten hcdc data⟩

end Chunks

/-! ## §4. What stays in place. -/

/-- An object is stored in wire form. -/
def ObjectKind.Written {α : Type} (K : ObjectKind α) (fs : VaultFs) (h : ContentHash) (x : α) : Prop :=
  ∃ bytes, K.wireBytes x = .ok bytes ∧ h = .of bytes ∧ fs.lookup (K.pathBin h) = some bytes

/-- A tree lists a content, and the chunks are held. -/
def Tree.Lists (tree : Tree) (v : Vault) (fs : VaultFs) (content : String → Option Bytes) : Prop :=
  ∀ path, match content path with
    | none => tree.entries.get? path = none
    | some data => ∃ size chunks, tree.entries.get? path = some (.file size chunks) ∧
        v.HoldsFile fs data (path, size, chunks)

/-- A call's commit is in place: its parent is the call before, its tree lists what the paths held
right after the call. -/
def Made.Stands (made : Made) (v : Vault) (fs : VaultFs) (older : List Made) : Prop :=
  ∃ k tree, commitKind.Written fs made.commit k ∧
    k.parents = (older.head?.map Made.commit).toList ∧ treeKind.Written fs k.tree tree ∧
    tree.PathsValid ∧ tree.Lists v fs (contentOf ((made :: older).map Made.call))

/-- Every call of the run stands. -/
def AllStand (v : Vault) (fs : VaultFs) : List Made → Prop
  | [] => True
  | made :: older => made.Stands v fs older ∧ AllStand v fs older

section Standing

variable {v : Vault} {fs fs' : VaultFs} {made : Made} {older calls : List Made}

/-- **Writing another object leaves this one in place.** -/
theorem ObjectKind.Written.saved {α : Type} {K : ObjectKind α} {h : ContentHash} {x : α}
    (hx : K.Written fs h x) (hs : K.OneSaved fs fs') (hfree : K.Separate fs fs') :
    K.Written fs' h x := by
  obtain ⟨bytes, hb, rfl, hl⟩ := hx
  refine ⟨bytes, hb, rfl, ?_⟩
  cases hs with
  | none hsame => exact (hsame _ rfl).trans hl
  | one hb' hsame =>
    rename_i y bytes'
    rw [hsame _ rfl]
    split
    next hpath =>
      -- one path, one hash, one content
      have hhash : ContentHash.of bytes = ContentHash.of bytes' := by simpa using hpath
      have hnew : fs'.lookup (K.pathBin (.of bytes')) = some bytes' := by
        rw [hsame _ rfl, if_pos rfl]
      exact congrArg some (hfree bytes bytes' (.inl (.bin hl)) (.inr (.bin hnew)) hhash).symm
    next => exact hl

theorem Tree.Lists.mono {tree : Tree} {content : String → Option Bytes}
    (h : tree.Lists v fs content)
    (hc : ∀ ch, chunkPath ch ∈ fs → fs'.lookup (chunkPath ch) = fs.lookup (chunkPath ch)) :
    tree.Lists v fs' content := by
  intro path
  have hpath := h path
  cases hcontent : content path with
  | none =>
    rw [hcontent] at hpath
    exact hpath
  | some data =>
    rw [hcontent] at hpath
    obtain ⟨size, chunks, hget, hfile⟩ := hpath
    exact ⟨size, chunks, hget, hfile.kept hc⟩

/-- What stands goes on standing while commits are made. -/
theorem Made.Stands.saved (h : made.Stands v fs older) (hs : SavedObjects fs fs')
    (hc : commitKind.Separate fs fs') (ht : treeKind.Separate fs fs') :
    made.Stands v fs' older := by
  obtain ⟨k, tree, hk, hparents, htree, hvalid, hlists⟩ := h
  exact ⟨k, tree, hk.saved hs.commits hc, hparents, htree.saved hs.trees ht, hvalid,
    hlists.mono hs.chunks⟩

theorem AllStand.saved (h : AllStand v fs calls) (hs : SavedObjects fs fs')
    (hc : commitKind.Separate fs fs') (ht : treeKind.Separate fs fs') : AllStand v fs' calls := by
  induction calls with
  | nil => trivial
  | cons made older ih => exact ⟨h.1.saved hs hc ht, ih h.2⟩

/-- What stands loads: the commit with its parent, and the tree. -/
theorem Made.Stands.loads (h : made.Stands v fs older) : ∃ k tree,
    ReadM.eval fs (loadCommit made.commit) = .ok k ∧
      k.parents = (older.head?.map Made.commit).toList ∧
      ReadM.eval fs (loadTree k.tree) = .ok tree ∧ tree.PathsValid ∧
      tree.Lists v fs (contentOf ((made :: older).map Made.call)) := by
  obtain ⟨k, tree, ⟨bytes, hb, hhash, hl⟩, hparents, ⟨tbytes, htb, hthash, htl⟩, hvalid, hlists⟩ := h
  have htree : ReadM.eval fs (loadTree k.tree) = .ok tree :=
    eval_loadTree_of htb hvalid.mem hthash.symm htl
  exact ⟨k.normal, tree, eval_loadCommit_of hb hhash.symm hl, hparents, htree, hvalid, hlists⟩

/-- The tree of HEAD lists what the paths hold. -/
theorem AllStand.headTree (h : AllStand v fs calls)
    (hhead : ReadM.eval fs head = .ok (calls.head?.map Made.commit)) : ∃ tree,
    ReadM.eval fs headTree = .ok tree ∧ tree.PathsValid ∧
      tree.Lists v fs (contentOf (calls.map Made.call)) := by
  unfold Soal.headTree
  rw [ReadM.eval_bind, hhead]
  cases calls with
  | nil => exact ⟨Tree.new, rfl, Tree.all_new, fun _ => rfl⟩
  | cons made older =>
    obtain ⟨k, tree, hk, -, htree, hvalid, hlists⟩ := h.1.loads
    refine ⟨tree, ?_, hvalid, hlists⟩
    show ReadM.eval fs (loadCommit made.commit >>= fun k => loadTree k.tree) = _
    rw [ReadM.eval_bind, hk]
    exact htree

end Standing

/-! ## §5. One call. -/

section OneCall

variable {v v' : Vault} {fs : VaultFs} {older : List Made} {P : Plan} {c : ContentHash}
  {w' : VaultWorld} {call : Call}

/-- **A commit that was made is in place**, and HEAD points at it; with its tree, when that was saved
for it, and every chunk that was stored on the way. -/
theorem Extended.written (he : Extended P (World.boot fs) c w') (hP : P.Tidy) : ∃ k,
    P.parents k.parents ∧ commitKind.Written w'.fs c k ∧ ReadM.eval w'.fs head = .ok (some c) ∧
    ((∃ w₁ tree, ChunksAdded (World.boot fs) w₁ ∧ P.saves w₁.fs tree ∧
        treeKind.Written w'.fs k.tree tree ∧
        ∀ ch, w'.fs.lookup (chunkPath ch) = w₁.fs.lookup (chunkPath ch)) ∨
      P.reuses k.tree ∧ (∀ tree, treeKind.Written fs k.tree tree → treeKind.Written w'.fs k.tree tree) ∧
        ∀ ch, w'.fs.lookup (chunkPath ch) = fs.lookup (chunkPath ch)) := by
  obtain ⟨w₂, k, bytes, hp, hps, hb, rfl, hhead, hl⟩ := he.lookup hP
  have hother : ∀ p : FilePath VaultDir, p.dir ≠ .root → p.dir ≠ .commits →
      w'.fs.lookup p = w₂.fs.lookup p := by
    intro p hr hd
    rw [hl p hr, if_neg]
    rintro rfl
    exact hd rfl
  have hchunks : ∀ ch, w'.fs.lookup (chunkPath ch) = w₂.fs.lookup (chunkPath ch) := fun ch =>
    hother _ (by simp [chunkPath]) (by simp [chunkPath])
  have htreePath : ∀ t, w'.fs.lookup (treePathBin t) = w₂.fs.lookup (treePathBin t) := fun t =>
    hother _ (by simp [treePathBin]) (by simp [treePathBin])
  have hcommit : commitKind.Written w'.fs (.of bytes) k :=
    ⟨bytes, hb, rfl, (hl _ (by simp [commitKind, ObjectKind.pathBin])).trans (if_pos rfl)⟩
  refine ⟨k, hps, hcommit, hhead, ?_⟩
  cases hp with
  | saved ha hs htb ht hw =>
    rename_i w₁ tree tbytes
    refine .inl ⟨w₁, tree, ha, hs, ⟨tbytes, htb, ht, ?_⟩, fun ch => (hchunks ch).trans ?_⟩
    · rw [ht]
      refine (htreePath _).trans ?_
      rw [hw, World.lookup_written, if_pos rfl]
    · rw [hw, World.lookup_written, if_neg (by simp [chunkPath, treePathBin])]
  | reused hr hw =>
    refine .inr ⟨hr, ?_, fun ch => (hchunks ch).trans (by rw [hw]; rfl)⟩
    rintro tree ⟨tbytes, htb, ht, htl⟩
    refine ⟨tbytes, htb, ht, (htreePath _).trans ?_⟩
    rw [hw]
    exact htl

/-- **The new commit stands** when the tree that was saved, or used again, lists the content after
the call. -/
theorem Extended.stands (he : Extended P (World.boot fs) c w') (hP : P.Tidy)
    (hparents : ∀ ps, P.parents ps → ps = (older.head?.map Made.commit).toList)
    (hsave : ∀ w₁ tree, ChunksAdded (World.boot fs) w₁ → P.saves w₁.fs tree → tree.PathsValid ∧
      tree.Lists v w₁.fs (contentOf (call :: older.map Made.call)))
    (hreuse : ∀ t, P.reuses t → ∃ tree, treeKind.Written fs t tree ∧ tree.PathsValid ∧
      tree.Lists v fs (contentOf (call :: older.map Made.call))) :
    Made.Stands ⟨call, c⟩ v w'.fs older := by
  obtain ⟨k, hps, hcommit, -, hsaved | hreused⟩ := he.written hP
  · obtain ⟨w₁, tree, ha, hs, htree, hchunks⟩ := hsaved
    obtain ⟨hvalid, hlists⟩ := hsave w₁ tree ha hs
    exact ⟨k, tree, hcommit, hparents _ hps, htree, hvalid, hlists.mono fun ch _ => hchunks ch⟩
  · obtain ⟨hr, hkept, hchunks⟩ := hreused
    obtain ⟨tree, htree, hvalid, hlists⟩ := hreuse _ hr
    exact ⟨k, tree, hcommit, hparents _ hps, hkept tree htree, hvalid,
      hlists.mono fun ch _ => hchunks ch⟩

omit [Crates] in
/-- The parent of a call's commit is HEAD. -/
theorem HeadParents.eq {l : Option ContentHash} {ps : List ContentHash}
    (hhead : ReadM.eval fs head = .ok l) (h : HeadParents fs ps) : ps = l.toList := by
  obtain ⟨l', hl', rfl⟩ := h
  rw [Except.ok.inj (hhead.symm.trans hl')]

/-- Adding a file puts its data under the normalized path. -/
theorem lists_added {path base : String} {data : Bytes} {w₁ : VaultWorld} {entries : List FileEntry}
    {calls : List Call} {old tree : Tree} (hv : v'.key = v.key) (hbase : validBaseName path = .ok base)
    (hgot : (Source.file data).Gathered v' base w₁.fs entries) (hvalid : old.PathsValid)
    (hold : old.Lists v w₁.fs (contentOf calls)) (hadd : old.addEntries entries = .ok tree) :
    tree.PathsValid ∧ tree.Lists v w₁.fs (contentOf (.addFile path data :: calls)) := by
  obtain ⟨⟨base', size, chunks⟩, rfl, rfl, hfile⟩ := hgot
  obtain ⟨tree', h, hadd⟩ := bind_ok_iff.1 hadd
  obtain rfl := Except.ok.inj hadd
  obtain ⟨name, hname, rfl⟩ := Tree.tryAddFile_ok_iff.1 h
  have hpath : normalizeAndValidate path = .ok name := by
    unfold validBaseName at hbase
    split at hbase
    next hempty =>
      -- the empty name is left as it is
      have hsame : "" = base' := Except.ok.inj hbase
      rw [String.isEmpty_iff.1 hempty, hsame, hname]
    next =>
      have hagain : normalizeAndValidate base' = .ok base' :=
        normalizeAndValidate_valid (validatePath_of_normalize hbase)
      rw [hbase, ← hname, hagain]
  refine ⟨hvalid.insert (validatePath_of_normalize hpath), fun p => ?_⟩
  have hcontent : contentOf (.addFile path data :: calls) p =
      if name = p then some data else contentOf calls p := by
    unfold contentOf
    rw [List.findSome?_cons, Call.content, hpath]
    by_cases hp : name = p
    · rw [if_pos hp, if_pos (congrArg _ hp)]
    · rw [if_neg hp, if_neg fun heq => hp (Except.ok.inj heq)]
  rw [hcontent, SortedMap.get?_insert]
  by_cases hp : name = p
  · subst hp
    rw [if_pos rfl, if_pos rfl]
    exact ⟨size, chunks, rfl, (hfile.congr hv).size, (hfile.congr hv).chunks⟩
  · rw [if_neg hp, if_neg hp]
    exact hold p

/-- **One call** keeps every earlier commit in place and puts its own on top. -/
theorem AllStand.called (h : AllStand v fs older) (hv : v'.key = v.key)
    (hhead : ReadM.eval fs head = .ok (older.head?.map Made.commit)) {env : Outside}
    (hrun : run env (call.action v') (World.boot fs) = (.ok c, w'))
    (hsep : commitKind.Separate fs w'.fs ∧ treeKind.Separate fs w'.fs) :
    ReadM.eval w'.fs head = .ok (some c) ∧ AllStand v w'.fs (⟨call, c⟩ :: older) := by
  cases call with
  | addFile path data =>
    have hends := addPath_ends v' env fs (.file data) path
    rw [show v'.addPath (.file data) path = (Call.addFile path data).action v' from rfl, hrun] at hends
    have htidy := addPlan_tidy v' (.file data) path fs
    have he : Extended _ (World.boot fs) c w' := hends.1 c rfl
    refine ⟨?_, ?_, h.saved (hends.saved htidy) hsep.1 hsep.2⟩
    · obtain ⟨-, -, -, -, -, -, -, hnew, -⟩ := he.lookup htidy
      exact hnew
    · refine he.stands htidy (fun ps hps => hps.eq hhead) ?_ fun t ht => ht.elim
      -- the new tree is HEAD's with the file put over it
      rintro w₁ tree ha ⟨base, entries, old, hbase, hgot, hold, hadd⟩
      obtain ⟨old', hold', hvalid, hlists⟩ := h.headTree hhead
      obtain rfl := Except.ok.inj (hold.symm.trans hold')
      exact lists_added hv hbase hgot hvalid (hlists.mono ha.kept) hadd
  | snapshot message =>
    have hends := snapshot_ends v' env fs message
    rw [show v'.snapshot message = (Call.snapshot message).action v' from rfl, hrun] at hends
    have htidy := snapshotPlan_tidy fs
    have he : Extended _ (World.boot fs) c w' := hends.1 c rfl
    refine ⟨?_, ?_, h.saved (hends.saved htidy) hsep.1 hsep.2⟩
    · obtain ⟨-, -, -, -, -, -, -, hnew, -⟩ := he.lookup htidy
      exact hnew
    · refine he.stands htidy (fun ps hps => hps.eq hhead) ?_ ?_
      · -- no HEAD, no calls: the tree is empty
        rintro w₁ tree - ⟨hnone, rfl⟩
        cases older with
        | nil => exact ⟨Tree.all_new, fun _ => rfl⟩
        | cons made older => cases hhead.symm.trans hnone
      · -- HEAD's tree again: it lists what it listed for the last call
        rintro t ⟨c', k, hc', hk, rfl⟩
        cases older with
        | nil => cases hhead.symm.trans hc'
        | cons made older =>
          obtain rfl : made.commit = c' := by simpa using hhead.symm.trans hc'
          obtain ⟨k', tree, ⟨bytes, hb, hhash, hl⟩, -, htree, hvalid, hlists⟩ := h.1
          obtain rfl := Except.ok.inj ((eval_loadCommit_of hb hhash.symm hl).symm.trans hk)
          exact ⟨tree, htree, hvalid, hlists⟩

end OneCall

/-! ## §6. Whole runs. -/

section WholeRun

variable {S : Bytes → Prop} {key : Option Key} {calls : List Made} {fs : VaultFs} {v : Vault}

/-- Every commit of the run stands, and HEAD is the last. -/
theorem Recorded.stands (hS : CollisionFree S) (h : Recorded S key calls fs) (hv : v.key = key) :
    ReadM.eval fs head = .ok (calls.head?.map Made.commit) ∧ AllStand v fs calls := by
  induction h with
  | fresh h => exact ⟨h.head, trivial⟩
  | call hr v' env call hv' hrun hdata hdata' ih =>
    obtain ⟨hhead, hall⟩ := ih
    exact hall.called (hv'.trans hv.symm) hhead hrun (separate_of_dataIn hS hdata hdata')

/-- Walking first parents from the last commit passes the commits in order. -/
theorem AllStand.walk (h : AllStand v fs calls) :
    FirstParents fs (calls.head?.map Made.commit) (calls.map Made.commit) := by
  induction calls with
  | nil => exact .stop
  | cons made older ih =>
    obtain ⟨k, -, hk, hparents, -⟩ := h.1.loads
    refine .next hk ?_
    rw [hparents]
    cases older with
    | nil => exact ih h.2
    | cons made' older => exact ih h.2

/-- A tree that lists a content shows it. -/
theorem Tree.Lists.shows (hcdc : FastcdcTiles) (haead : AeadCorrect) {tree : Tree}
    {content : String → Option Bytes} (h : tree.Lists v fs content) : tree.Shows v fs content := by
  intro path
  have hpath := h path
  cases hcontent : content path with
  | none =>
    rw [hcontent] at hpath
    exact hpath
  | some data =>
    rw [hcontent] at hpath
    obtain ⟨size, chunks, hget, hfile⟩ := hpath
    exact ⟨chunks, by rw [hget, show size = _ from hfile.size], hfile.loadsTo hcdc haead⟩

/-- Every commit of the run loads, with a tree that lists what the paths held right after its call. -/
theorem AllStand.lists (h : AllStand v fs calls) {made : Made} {older : List Made}
    (hmade : made :: older <:+ calls) : ∃ k tree, ReadM.eval fs (loadCommit made.commit) = .ok k ∧
      ReadM.eval fs (loadTree k.tree) = .ok tree ∧ tree.PathsValid ∧
      tree.Lists v fs (contentOf ((made :: older).map Made.call)) := by
  induction calls with
  | nil => exact absurd (List.suffix_nil.1 hmade) (by simp)
  | cons made' older' ih =>
    rcases List.suffix_cons_iff.1 hmade with heq | hmade
    · obtain ⟨rfl, rfl⟩ := List.cons.inj heq
      obtain ⟨k, tree, hk, -, htree, hvalid, hlists⟩ := h.1.loads
      exact ⟨k, tree, hk, htree, hvalid, hlists⟩
    · exact ih h.2 hmade

theorem AllStand.shows (hcdc : FastcdcTiles) (haead : AeadCorrect) (h : AllStand v fs calls)
    {made : Made} {older : List Made} (hmade : made :: older <:+ calls) :
    CommitShows v fs made.commit (contentOf ((made :: older).map Made.call)) := by
  induction calls with
  | nil => exact absurd (List.suffix_nil.1 hmade) (by simp)
  | cons made' older' ih =>
    rcases List.suffix_cons_iff.1 hmade with heq | hmade
    · obtain ⟨rfl, rfl⟩ := List.cons.inj heq
      obtain ⟨k, tree, hk, -, htree, -, hlists⟩ := h.1.loads
      exact ⟨k, tree, hk, htree, hlists.shows hcdc haead⟩
    · exact ih h.2 hmade

/-- **Add history and content fidelity**: the tree of HEAD shows the last data added under every path;
first parents lead through the commits returned, newest first; and every one of them still decodes to
what the paths held right after its call. -/
theorem recorded_history (hcdc : FastcdcTiles) (haead : AeadCorrect) (hS : CollisionFree S)
    (h : Recorded S key calls fs) (hv : v.key = key) :
    (∃ tree, ReadM.eval fs headTree = .ok tree ∧
      tree.Shows v fs (contentOf (calls.map Made.call))) ∧
    (∃ l, ReadM.eval fs head = .ok l ∧ FirstParents fs l (calls.map Made.commit)) ∧
    ∀ made older, made :: older <:+ calls →
      CommitShows v fs made.commit (contentOf ((made :: older).map Made.call)) := by
  obtain ⟨hhead, hall⟩ := h.stands hS hv
  obtain ⟨tree, htree, -, hlists⟩ := hall.headTree hhead
  exact ⟨⟨tree, htree, hlists.shows hcdc haead⟩, ⟨_, hhead, hall.walk⟩,
    fun made older hmade => hall.shows hcdc haead hmade⟩

end WholeRun

end Model

/-! ## §7. A note, overwritten and kept. -/

/-- The trees and commits of the run. -/
def NoteObject (b : Bytes) : Prop := b ∈ [wireNote, wireN, wireWorld, wireW, wireK]

/-- What a run returns, and the files it leaves. -/
def outcome {α : Type} (env : Outside) (x : Action α) (fs : VaultFs) :
    Res α × List (Sigma fun _ : FilePath VaultDir => Bytes) :=
  let out := run env x (World.boot fs)
  (out.1, out.2.fs.entries)

theorem run_of_outcome {α : Type} {env : Outside} {x : Action α} {fs fs' : VaultFs} {r : Res α}
    (h : outcome env x fs = (r, fs'.entries)) :
    ∃ w, run env x (World.boot fs) = (r, w) ∧ w.fs = fs' := by
  obtain ⟨hr, hentries⟩ := Prod.mk.inj h
  exact ⟨_, Prod.ext hr rfl, AList.ext hentries⟩

section Sample

attribute [local instance] noteSample

def addNote : Call := .addFile "n.txt" noteData

def addWorld : Call := .addFile "n.txt" worldData

def takeKept : Call := .snapshot "kept"

/-- After the note was added. -/
def notedWorld : VaultWorld :=
  committed ((renamed (World.boot freshDisk) (chunkTmp chunkHello) (chunkPath chunkHello)
    noteData).written (treePathBin treeNote) wireNote).asked hashN wireN

/-- After it was overwritten. -/
def rewrittenWorld : VaultWorld :=
  committed ((renamed (World.boot notedWorld.fs) (chunkTmp chunkWorld) (chunkPath chunkWorld)
    worldData).written (treePathBin treeWorld) wireWorld).asked hashW wireW

/-- After the snapshot. -/
noncomputable def keptWorld : VaultWorld :=
  (run (quiet 1700000007) (takeKept.action plainVault) (World.boot rewrittenWorld.fs)).2

theorem outcome_addNote : outcome (quiet 1700000005) (addNote.action plainVault) freshDisk =
    (.ok hashN, notedWorld.fs.entries) := by decide +kernel

theorem outcome_addWorld :
    outcome (quiet 1700000006) (addWorld.action plainVault) notedWorld.fs =
      (.ok hashW, rewrittenWorld.fs.entries) := by decide +kernel

theorem outcome_keptCommit :
    outcome (quiet 1700000007) (plainVault.snapshotCommit "kept") rewrittenWorld.fs =
      (.ok hashK, (committed (World.boot rewrittenWorld.fs).asked hashK wireK).fs.entries) := by
  decide +kernel

/-- The books of the snapshot are on disk besides its commit. -/
theorem run_takeKept :
    run (quiet 1700000007) (takeKept.action plainVault) (World.boot rewrittenWorld.fs) =
      (.ok hashK, keptWorld) ∧
    ∀ p : FilePath VaultDir, ¬Registry p → keptWorld.fs.lookup p =
      (committed (World.boot rewrittenWorld.fs).asked hashK wireK).fs.lookup p := by
  obtain ⟨w, hrun, hfs⟩ := run_of_outcome outcome_keptCommit
  have hrule : wp (quiet 1700000007) (fun _ => True) (takeKept.action plainVault)
      (fun r w' => r = .ok hashK ∧ Within Registry w w') (World.boot rewrittenWorld.fs) :=
    wp_snapshot_returns hrun
  obtain ⟨hok, hwithin⟩ := hrule.post
  constructor
  · rw [keptWorld, ← hok]
  · intro p hp
    rw [← hfs, keptWorld]
    exact hwithin.frame p hp

theorem note_collisionFree : CollisionFree NoteObject := by
  have hnodup : ([wireNote, wireN, wireWorld, wireW, wireK].map ContentHash.of).Nodup := by
    decide +kernel
  exact fun a b ha hb h => List.inj_on_of_nodup_map hnodup ha hb h

theorem note_noJson : NoJson := standIn_noJson noteDigest

/-- A call adds its tree and its commit. -/
theorem note_added {fs : VaultFs} (h : ObjectsIn NoteObject fs) {ch t c : ContentHash}
    {data wireT wireC : Bytes} (ht : NoteObject wireT) (hc : NoteObject wireC) :
    ObjectsIn NoteObject (committed ((renamed (World.boot fs) (chunkTmp ch) (chunkPath ch)
      data).written (treePathBin t) wireT).asked c wireC).fs := by
  have hchunk : ObjectsIn NoteObject (renamed (World.boot fs) (chunkTmp ch) (chunkPath ch) data).fs := by
    refine h.congr fun p hp => ?_
    rw [lookup_renamed, if_neg (by rintro rfl; simp [chunkPath] at hp),
      if_neg (by rintro rfl; simp [chunkTmp] at hp), World.boot_fs]
  have htree := hchunk.written (treePathBin t) fun _ => ht
  refine (ObjectsIn.written (w := World.asked _) htree (commitPathBin c) fun _ => hc).written headFile ?_
  intro hp
  simp [headFile] at hp

theorem noted_objects : ObjectsIn NoteObject notedWorld.fs :=
  note_added freshDisk_fresh.objectsIn (by simp [NoteObject]) (by simp [NoteObject])

theorem rewritten_objects : ObjectsIn NoteObject rewrittenWorld.fs :=
  note_added noted_objects (by simp [NoteObject]) (by simp [NoteObject])

theorem kept_objects : ObjectsIn NoteObject keptWorld.fs := by
  have hcommit : ObjectsIn NoteObject (committed (World.boot rewrittenWorld.fs).asked hashK wireK).fs := by
    refine (ObjectsIn.written (w := World.asked _) rewritten_objects (commitPathBin hashK)
      fun _ => by simp [NoteObject]).written headFile ?_
    intro hp
    simp [headFile] at hp
  refine hcommit.congr fun p hp => run_takeKept.2 p fun hreg => ?_
  rw [hreg.root] at hp
  simp at hp

/-- Three calls: the note is added and overwritten, then a snapshot is taken. -/
def noteCalls : List Made := [⟨takeKept, hashK⟩, ⟨addWorld, hashW⟩, ⟨addNote, hashN⟩]

theorem noted_recorded : Recorded NoteObject none [⟨addNote, hashN⟩] notedWorld.fs := by
  obtain ⟨w, hrun, hfs⟩ := run_of_outcome outcome_addNote
  rw [← hfs]
  refine .call (.fresh freshDisk_fresh) plainVault (quiet 1700000005) addNote rfl hrun
    freshDisk_fresh.dataIn ?_
  rw [hfs]
  exact noted_objects.dataIn note_noJson

theorem rewritten_recorded :
    Recorded NoteObject none [⟨addWorld, hashW⟩, ⟨addNote, hashN⟩] rewrittenWorld.fs := by
  obtain ⟨w, hrun, hfs⟩ := run_of_outcome outcome_addWorld
  rw [← hfs]
  refine .call noted_recorded plainVault (quiet 1700000006) addWorld rfl hrun
    (noted_objects.dataIn note_noJson) ?_
  rw [hfs]
  exact rewritten_objects.dataIn note_noJson

theorem kept_recorded : Recorded NoteObject none noteCalls keptWorld.fs :=
  .call rewritten_recorded plainVault (quiet 1700000007) takeKept rfl run_takeKept.1
    (rewritten_objects.dataIn note_noJson) (kept_objects.dataIn note_noJson)

/-- The stand-in boundaries cover the data. -/
theorem note_tiles : FastcdcTiles := by
  intro data min avg max
  show 0 = 0 ∧ 0 + data.length = data.length
  omega

theorem note_aead : AeadCorrect :=
  ⟨@AeadCorrect.opens sample sample_aeadCorrect, @AeadCorrect.tag sample sample_aeadCorrect⟩

/-- HEAD shows the new content, and the first commit still shows the old one. -/
theorem noted_history :
    (∃ tree, ReadM.eval keptWorld.fs headTree = .ok tree ∧
      tree.Shows plainVault keptWorld.fs (contentOf [takeKept, addWorld, addNote])) ∧
    (∃ l, ReadM.eval keptWorld.fs head = .ok l ∧ FirstParents keptWorld.fs l [hashK, hashW, hashN]) ∧
    ∀ made older, made :: older <:+ noteCalls →
      CommitShows plainVault keptWorld.fs made.commit (contentOf ((made :: older).map Made.call)) :=
  recorded_history note_tiles note_aead note_collisionFree kept_recorded rfl

end Sample

end Soal

/-
  Soal.Runs.Replicas — what a replica estimate counts, over runs of announcements and replications.

  A run is a sequence of announcements heard from other nodes, replications of this node's HEAD, and
  anything else that leaves the have-lists alone.  Beside the disk a ghost set keeps who announced
  what.  The have-lists of other nodes always agree with it; the estimate counts one node too many
  for every hash that this node's own list contains, and only a replication puts one there.
-/
import Soal.Lib.Trace
import Soal.Replication
import Soal.Vault.Collect
import Soal.Vault.Committing
import Soal.Vault.Footprint
import Soal.Vault.MergeHeads
import Soal.Vault.Provide

namespace Soal

open FileProg Worklist

/-! ## §1. The lists of a have-map. -/

section Lists

variable {known : PeerHave} {hex peer me : String} {cids : List ContentHash} {now : UInt64}

theorem PeerHave.mem_holders : peer ∈ known.holders hex ↔
    ∃ list, known.peers.get? peer = some list ∧ hex ∈ list := by
  unfold holders
  rw [List.mem_map]
  constructor
  · rintro ⟨⟨p, list⟩, hmem, rfl⟩
    obtain ⟨hmem, hhex⟩ := List.mem_filter.1 hmem
    exact ⟨list, SortedMap.mem_entries.1 hmem, of_decide_eq_true hhex⟩
  · rintro ⟨list, hget, hhex⟩
    exact ⟨(peer, list), List.mem_filter.2 ⟨SortedMap.mem_entries.2 hget, decide_eq_true hhex⟩, rfl⟩

/-- No peer is listed twice. -/
theorem PeerHave.holders_nodup (known : PeerHave) (hex : String) : (known.holders hex).Nodup := by
  have hsorted : (known.peers.entries.filter (fun e => decide (hex ∈ e.2))).Pairwise
      (fun a b => a.1 < b.1) := known.peers.sorted.sublist List.filter_sublist
  unfold holders List.Nodup
  rw [List.pairwise_map]
  exact hsorted.imp fun h => ne_of_lt h

theorem PeerHave.length_holders (known : PeerHave) (hex : String) :
    (known.holders hex).length = (known.holders hex).toFinset.card :=
  (List.toFinset_card_of_nodup (known.holders_nodup hex)).symm

theorem mem_foldl_hex (list : Finset String) :
    hex ∈ cids.foldl (fun s c => insert c.toHex s) list ↔
      hex ∈ list ∨ ∃ c ∈ cids, hex = c.toHex := by
  induction cids generalizing list with
  | nil => simp
  | cons c cids ih =>
    rw [List.foldl_cons, ih, Finset.mem_insert]
    simp only [List.mem_cons, exists_eq_or_imp]
    tauto

/-- What an announcement adds. -/
theorem PeerHave.mem_holders_noted : peer ∈ (known.noted me cids now).holders hex ↔
    peer ∈ known.holders hex ∨ peer = me ∧ ∃ c ∈ cids, hex = c.toHex := by
  rw [mem_holders, mem_holders]
  by_cases hp : me = peer
  · subst hp
    simp only [noted, SortedMap.get?_insert_self, Option.some.injEq, exists_eq_left', mem_foldl_hex,
      true_and]
    cases known.peers.get? me <;> simp
  · simp only [noted, SortedMap.get?_insert_ne _ _ hp, Ne.symm hp, false_and, or_false]

@[simp] theorem PeerHave.holders_default : PeerHave.default.holders hex = [] := rfl

end Lists

section Model

variable [Crates]

/-! ## §2. The have-lists on disk. -/

/-- The have-lists a disk stands for. -/
def HaveIs (fs : VaultFs) (known : PeerHave) : Prop :=
  fs.lookup havePath = none ∧ known = .default ∨
    fs.lookup havePath = some (Text.toUtf8 (Crates.haveJson.toStringPretty known))

section Have

variable {fs fs' : VaultFs} {known : PeerHave}

theorem HaveIs.congr (h : HaveIs fs known) (hl : fs'.lookup havePath = fs.lookup havePath) :
    HaveIs fs' known := by
  unfold HaveIs
  rw [hl]
  exact h

theorem HaveIs.readHave (h : HaveIs fs known) (hjson : (Crates.haveJson).RoundTrip) :
    ReadM.eval fs Soal.readHave = .ok known := by
  unfold Soal.readHave
  rw [ReadM.eval_bind, ReadM.eval_pathExists, ok_bind]
  rcases h with ⟨hl, rfl⟩ | hl
  · rw [decide_eq_false (AList.lookup_eq_none.1 hl), if_neg (by simp)]
    rfl
  · rw [decide_eq_true (Fs.mem_iff_lookup.2 ⟨_, hl⟩), if_pos rfl, ReadM.eval_bind,
      eval_readToString_text hl, ok_bind, hjson known]
    rfl

theorem HaveIs.loadHave (h : HaveIs fs known) (hjson : (Crates.haveJson).RoundTrip) :
    ReadM.eval fs Soal.loadHave = .ok known := by
  unfold Soal.loadHave
  rw [ReadM.eval_bind, okOrNone, ReadM.eval_handle]
  rcases h with ⟨hl, rfl⟩ | hl
  · rw [eval_readToString_none hl]
    rfl
  · rw [eval_readToString_text hl]
    show Except.ok ((Crates.haveJson.fromStr _).toOption.getD _) = _
    rw [hjson known]
    rfl

theorem eval_heldLocally (fs : VaultFs) (cid : ContentHash) :
    ∃ here, ReadM.eval fs (heldLocally cid) = .ok here := by
  unfold heldLocally hasChunk ChunkStore.existsChunk hasTreeObject hasCommitObject
  simp only [ReadM.eval_bind, ReadM.eval_pathExists, ObjectKind.eval_hasObject, ok_bind]
  exact ⟨_, rfl⟩

/-- The estimate: the local copy, and every peer whose list contains the hash. -/
theorem HaveIs.estimatedReplicas (h : HaveIs fs known) (hjson : (Crates.haveJson).RoundTrip)
    {cid : ContentHash} {here : Bool} (hh : ReadM.eval fs (heldLocally cid) = .ok here) :
    ReadM.eval fs (Soal.estimatedReplicas cid) =
      .ok ((if here then 1 else 0) + (known.holders cid.toHex).length) := by
  unfold Soal.estimatedReplicas
  simp only [ReadM.eval_bind, hh, ok_bind, h.loadHave hjson]
  rfl

end Have

/-! ## §3. What the steps write. -/

section Steps

variable {env : Outside} {w : VaultWorld} {known : PeerHave}

/-- The local pins can be brought up to date. -/
def PinsReady (fs : VaultFs) : Prop :=
  (∃ live, ReadM.eval fs liveChunkHashes = .ok live) ∧ ∃ pins, ReadM.eval fs loadPins = .ok pins

/-- The files of the local pins. -/
def IsPinFile (p : FilePath VaultDir) : Prop := p = pinsPath ∨ p = pinsTmp

theorem wp_ensureLocalPins (env : Outside) (w : VaultWorld) :
    wp env (fun _ => True) ensureLocalPins (fun r w' =>
      ((∃ n, r = .ok n) ↔ PinsReady w.fs) ∧ ∀ p, ¬IsPinFile p → w'.fs.lookup p = w.fs.lookup p) w := by
  have hstop : ∀ e : Fault, ¬PinsReady w.fs →
      ((∃ n : Nat, (Except.error e : Res Nat) = .ok n) ↔ PinsReady w.fs) ∧
        ∀ p, ¬IsPinFile p → w.fs.lookup p = w.fs.lookup p := by
    intro e hno
    refine ⟨⟨?_, fun h => absurd h hno⟩, fun _ _ => rfl⟩
    rintro ⟨n, hn⟩
    cases hn
  unfold ensureLocalPins
  refine wp_read trivial (fun live hlive => ?_) fun e he => hstop e ?_
  · refine wp_read trivial (fun pins hpins => ?_) fun e he => hstop e ?_
    · refine wp_answer trivial ?_
      rw [wp_bind, savePins, wp_writeRename]
      refine ⟨trivial, trivial, trivial, trivial, trivial, ?_, fun p hp => ?_⟩
      · exact ⟨fun _ => ⟨⟨live, hlive⟩, pins, hpins⟩, fun _ => ⟨_, rfl⟩⟩
      · obtain ⟨hpath, htmp⟩ := not_or.1 hp
        rw [lookup_renamed, if_neg hpath, if_neg htmp]
        rfl
    · intro h
      obtain ⟨-, pins, hpins⟩ := h
      cases he.symm.trans hpins
  · intro h
    obtain ⟨⟨live, hlive⟩, -⟩ := h
    cases he.symm.trans hlive

/-- An announcement is always noted. -/
theorem wp_notePeerHas (hjson : (Crates.haveJson).RoundTrip) (h : HaveIs w.fs known)
    (peerId : String) (cids : List ContentHash) :
    wp env (fun _ => True) (notePeerHas peerId cids) (fun r w' =>
      r = .ok () ∧ ∃ now, HaveIs w'.fs (known.noted peerId cids now)) w := by
  unfold notePeerHas
  refine wp_read_ok trivial (h.readHave hjson) (wp_answer trivial ?_)
  rw [wp_writeRename]
  refine ⟨trivial, trivial, trivial, trivial, rfl, env w.tick .now, .inr ?_⟩
  rw [lookup_renamed, if_pos rfl]

/-- Serving changes no file. -/
theorem confined_provideMany (items : List (ContentHash × Bytes)) :
    Confined (fun _ => False) (provideMany items) := by
  induction items with
  | nil => exact .done
  | cons item items ih =>
    refine Confined.bind ?_ fun _ => Confined.bind ih fun n => .done
    unfold provide
    split
    next => exact .done
    next =>
      split
      next => exact .done
      next =>
        refine Confined.bind (.ask _) fun reply => ?_
        split <;> exact .done

theorem confined_provideFromVault (c : ContentHash) :
    Confined (fun _ => False) (provideFromVault c) :=
  Confined.bind (.ofRead _) fun items => confined_provideMany items

theorem confined_announceHeadSigned (v : Vault) (c : ContentHash) :
    Confined (fun _ => False) (announceHeadSigned v c) := by
  refine Confined.bind (confined_provideFromVault c) fun _ => Confined.bind .done fun vaultId => ?_
  refine Confined.bind (.ask _) fun reply => ?_
  split <;> exact .done

/-- A replication gets as far as noting what this node has: these objects. -/
def NotesOwn (fs : VaultFs) (items : List (ContentHash × Bytes)) : Prop :=
  PinsReady fs ∧ ∃ h, ReadM.eval fs head = .ok (some h) ∧
    ReadM.eval fs (collectProvideHashes h) = .ok items

/-- The part of a replication after the pins: HEAD's objects are noted and served. -/
theorem wp_noteHead {fs : VaultFs} (hjson : (Crates.haveJson).RoundTrip) (h : HaveIs w.fs known)
    (hready : PinsReady fs) (hframe : ∀ p, ¬IsPinFile p → w.fs.lookup p = fs.lookup p) (v : Vault)
    (nodeId : String) : wp env (fun _ => True)
      (do
        match ← head with
        | none => return 0
        | some c =>
          let items ← collectProvideHashes c
          notePeerHas nodeId (items.map Prod.fst)
          let n ← provideFromVault c
          let _ ← okOrNone (announceHeadSigned v c)
          return n : Action Nat) (fun _ w' =>
      (¬∃ items, NotesOwn fs items) ∧ HaveIs w'.fs known ∨ ∃ items now, NotesOwn fs items ∧
        HaveIs w'.fs (known.noted nodeId (items.map Prod.fst) now)) w := by
  -- the pins are no file that HEAD or its objects are read from
  have hhead : ReadM.eval w.fs head = ReadM.eval fs head :=
    LooksAt.eval_eq (looksAt_head (by simp [IsPinFile, headFile, pinsPath, pinsTmp])) hframe
  have hcollect : ∀ c, ReadM.eval w.fs (collectProvideHashes c) =
      ReadM.eval fs (collectProvideHashes c) := by
    intro c
    refine LooksAt.eval_eq (looksAt_collectProvideHashes (fun p hp => ?_) c) hframe
    rintro (rfl | rfl) <;> simp [ObjectDir, pinsPath, pinsTmp] at hp
  refine wp_read trivial (fun found hfound => ?_) fun e he => .inl ⟨?_, h⟩
  · have hfound : ReadM.eval fs head = .ok found := hhead.symm.trans hfound
    cases found with
    | none =>
      refine ⟨trivial, .inl ⟨?_, h⟩⟩
      rintro ⟨items, -, c, hc, -⟩
      cases hfound.symm.trans hc
    | some c =>
      refine wp_read trivial (fun items hitems => ?_) fun e he => .inl ⟨?_, h⟩
      · have hitems : ReadM.eval fs (collectProvideHashes c) = .ok items :=
          (hcollect c).symm.trans hitems
        refine wp_seq (wp_notePeerHas hjson h nodeId _) (fun _ w₂ _ h₂ => ?_) fun e w₂ _ h₂ => ?_
        · obtain ⟨-, now, h₂⟩ := h₂
          have hserve : Confined (fun _ => False) (do
              let n ← provideFromVault c
              let _ ← okOrNone (announceHeadSigned v c)
              return n : Action Nat) :=
            Confined.bind (confined_provideFromVault c) fun n =>
              Confined.bind (confined_okOrNone (confined_announceHeadSigned v c)) fun _ => .done
          refine (hserve.wp w₂).mono (fun _ _ => trivial) fun r w' hw' _ => .inr ?_
          exact ⟨items, now, ⟨hready, c, hfound, hitems⟩, h₂.congr (hw'.frame _ id)⟩
        · cases h₂.1
      · have he : ReadM.eval fs (collectProvideHashes c) = .error e := (hcollect c).symm.trans he
        rintro ⟨items, -, c', hc', hitems⟩
        obtain rfl := Option.some.inj (Except.ok.inj (hfound.symm.trans hc'))
        cases he.symm.trans hitems
  · have he : ReadM.eval fs head = .error e := hhead.symm.trans he
    rintro ⟨items, -, c, hc, -⟩
    cases he.symm.trans hc

/-- **A replication**: it stops before it notes anything, or notes the objects of HEAD under this
node's own id. -/
theorem wp_replicateHead (hjson : (Crates.haveJson).RoundTrip) (h : HaveIs w.fs known) (v : Vault)
    (nodeId : String) : wp env (fun _ => True) (replicateHead v nodeId) (fun _ w' =>
      (¬∃ items, NotesOwn w.fs items) ∧ HaveIs w'.fs known ∨ ∃ items now, NotesOwn w.fs items ∧
        HaveIs w'.fs (known.noted nodeId (items.map Prod.fst) now)) w := by
  have hnot : ¬IsPinFile havePath := by simp [IsPinFile, havePath, pinsPath, pinsTmp]
  unfold replicateHead
  refine wp_seq (wp_ensureLocalPins env w) (fun n w₁ _ h₁ => ?_) fun e w₁ _ h₁ => ?_
  · exact wp_noteHead hjson (h.congr (h₁.2 _ hnot)) (h₁.1.1 ⟨n, rfl⟩) h₁.2 v nodeId
  · refine .inl ⟨?_, h.congr (h₁.2 _ hnot)⟩
    rintro ⟨items, hready, -⟩
    obtain ⟨n, hn⟩ := h₁.1.2 hready
    cases hn

end Steps

/-! ## §4. Runs. -/

/-- A vault directory, and what other nodes have announced so far. -/
structure ReplicaState where
  fs : VaultFs
  announced : Finset (String × ContentHash)

/-- What happens to the have-lists. -/
inductive ReplicaEvent where
  /-- an announcement of a peer is noted -/
  | notePeerHas (env : Outside) (peerId : String) (cids : List ContentHash)
  /-- `replicate_head` on this node -/
  | replicateHead (env : Outside) (v : Vault)
  /-- anything else happens in the directory -/
  | other (fs : VaultFs)

/-- The state after an event, on the node `me`. -/
def ReplicaState.after (me : String) (s : ReplicaState) : ReplicaEvent → ReplicaState
  | .notePeerHas env peerId cids =>
      ⟨(run env (Soal.notePeerHas peerId cids) (World.boot s.fs)).2.fs,
        s.announced ∪ (cids.map fun c => (peerId, c)).toFinset⟩
  | .replicateHead env v =>
      ⟨(run env (Soal.replicateHead v me) (World.boot s.fs)).2.fs, s.announced⟩
  | .other fs => ⟨fs, s.announced⟩

/-- Announcements come from other nodes, and nothing else touches the have-lists. -/
def Admitted (me : String) (s : ReplicaState) : ReplicaEvent → Prop
  | .notePeerHas _ peerId _ => peerId ≠ me
  | .replicateHead _ _ => True
  | .other fs => fs.lookup havePath = s.fs.lookup havePath

/-- The nodes that announced `cid`. -/
def ReplicaState.announcers (s : ReplicaState) (cid : ContentHash) : Finset String :=
  (s.announced.filter fun a => a.2 = cid).image Prod.fst

/-- The distinct nodes that hold or announced `cid`, this node counted once. -/
def ReplicaState.nodesWith (me : String) (s : ReplicaState) (cid : ContentHash) : Finset String :=
  if ReadM.eval s.fs (heldLocally cid) = .ok true then insert me (s.announcers cid)
  else s.announcers cid

/-- No estimate is above the number of nodes. -/
def CountsOnce (me : String) (s : ReplicaState) : Prop :=
  ∀ cid, ∃ n, ReadM.eval s.fs (estimatedReplicas cid) = .ok n ∧ n ≤ (s.nodesWith me cid).card

/-- A live chunk that no other node is known to have is reported, when at least two replicas are
wanted. -/
def ReportsSingles (me : String) (s : ReplicaState) : Prop :=
  ∀ (v : Vault) (live : Finset ContentHash) (cid : ContentHash), 2 ≤ v.config.minReplicas.toNat →
    ReadM.eval s.fs liveChunkHashes = .ok live → cid ∈ live → s.nodesWith me cid ⊆ {me} →
    (∃ under, ReadM.eval s.fs (underReplicatedChunks v) = .ok under ∧ cid ∈ under) ∧
      ∀ status, ReadM.eval s.fs (replicationStatus v) = .ok status →
        0 < status.estimatedUnderReplicated

/-! ## §5. The lists and the announcements. -/

/-- The have-lists agree with the announcements of the other nodes. -/
structure HaveAgrees (me : String) (s : ReplicaState) (known : PeerHave) : Prop where
  file : HaveIs s.fs known
  foreign : ∀ a ∈ s.announced, a.1 ≠ me
  listed : ∀ peer cid, peer ≠ me → (peer ∈ known.holders cid.toHex ↔ (peer, cid) ∈ s.announced)

/-- This node's own list contains no hash. -/
def OwnListEmpty (me : String) (s : ReplicaState) : Prop :=
  ∀ known, HaveIs s.fs known → ∀ cid : ContentHash, me ∉ known.holders cid.toHex

section Counts

variable {me : String} {s : ReplicaState} {known known' : PeerHave}

omit [Crates] in
theorem ReplicaState.mem_announcers {cid : ContentHash} {peer : String} :
    peer ∈ s.announcers cid ↔ (peer, cid) ∈ s.announced := by
  simp [announcers]

theorem HaveIs.unique {fs : VaultFs} (hjson : (Crates.haveJson).RoundTrip) (h : HaveIs fs known)
    (h' : HaveIs fs known') : known = known' :=
  Except.ok.inj ((h.readHave hjson).symm.trans (h'.readHave hjson))

/-- The peers that list a hash: those that announced it, and this node if its own list does. -/
theorem HaveAgrees.toFinset_holders (h : HaveAgrees me s known) (cid : ContentHash) :
    (known.holders cid.toHex).toFinset =
      if me ∈ known.holders cid.toHex then insert me (s.announcers cid) else s.announcers cid := by
  ext peer
  rw [List.mem_toFinset]
  by_cases hp : peer = me
  · subst hp
    have hno : peer ∉ s.announcers cid := fun hmem =>
      h.foreign _ (ReplicaState.mem_announcers.1 hmem) rfl
    split
    next hown => simp [hown]
    next hown => simp [hown, hno]
  · rw [h.listed peer cid hp, ← ReplicaState.mem_announcers]
    split
    next => simp [hp]
    next => rfl

theorem HaveAgrees.not_mem_announcers (h : HaveAgrees me s known) (cid : ContentHash) :
    me ∉ s.announcers cid := fun hmem => h.foreign _ (ReplicaState.mem_announcers.1 hmem) rfl

/-- **What an estimate counts**: every node that holds or announced the hash, and this node once
more when its own list contains it. -/
theorem HaveAgrees.estimate (hjson : (Crates.haveJson).RoundTrip) (h : HaveAgrees me s known)
    (cid : ContentHash) : ReadM.eval s.fs (estimatedReplicas cid) =
      .ok ((s.nodesWith me cid).card + if me ∈ known.holders cid.toHex then 1 else 0) := by
  obtain ⟨here, hhere⟩ := eval_heldLocally s.fs cid
  have hcard : (insert me (s.announcers cid)).card = (s.announcers cid).card + 1 :=
    Finset.card_insert_of_notMem (h.not_mem_announcers cid)
  rw [h.file.estimatedReplicas hjson hhere, PeerHave.length_holders, h.toFinset_holders cid]
  unfold ReplicaState.nodesWith
  rw [hhere]
  refine congrArg Except.ok ?_
  by_cases hown : me ∈ known.holders cid.toHex
  · rw [if_pos hown, if_pos hown, hcard]
    cases here with
    | true =>
      rw [if_pos rfl, if_pos rfl, hcard]
      omega
    | false =>
      rw [if_neg (by simp), if_neg (by simp)]
      omega
  · rw [if_neg hown, if_neg hown]
    cases here with
    | true =>
      rw [if_pos rfl, if_pos rfl, hcard]
      omega
    | false =>
      rw [if_neg (by simp), if_neg (by simp)]
      omega

/-- The estimates are right exactly when this node does not list itself. -/
theorem HaveAgrees.countsOnce_iff (hjson : (Crates.haveJson).RoundTrip) (h : HaveAgrees me s known) :
    CountsOnce me s ↔ OwnListEmpty me s := by
  constructor
  · intro hcount known' hknown' cid hown
    obtain rfl := h.file.unique hjson hknown'
    obtain ⟨n, hn, hle⟩ := hcount cid
    rw [h.estimate hjson cid, if_pos hown] at hn
    obtain rfl := Except.ok.inj hn
    omega
  · intro hown cid
    refine ⟨_, h.estimate hjson cid, ?_⟩
    rw [if_neg (hown known h.file cid)]
    exact le_rfl

end Counts

/-! ## §6. What is reported. -/

section Reports

variable {fs : VaultFs} {min : Nat}

/-- The hashes below the minimum are those whose estimate is. -/
theorem mem_belowMin {hs out : List ContentHash} (h : ReadM.eval fs (belowMin min hs) = .ok out)
    (cid : ContentHash) : cid ∈ out ↔
      cid ∈ hs ∧ ∃ n, ReadM.eval fs (estimatedReplicas cid) = .ok n ∧ n < min := by
  induction hs generalizing out with
  | nil =>
    cases h
    simp
  | cons c hs ih =>
    unfold belowMin at h
    rw [ReadM.eval_bind] at h
    obtain ⟨n, hn, h⟩ := bind_ok_iff.1 h
    rw [ReadM.eval_bind] at h
    obtain ⟨rest, hrest, h⟩ := bind_ok_iff.1 h
    have hout : (if n < min then c :: rest else rest) = out := Except.ok.inj h
    rw [← hout, List.mem_cons]
    have hc : (∃ k, ReadM.eval fs (estimatedReplicas c) = .ok k ∧ k < min) ↔ n < min := by
      simp [hn]
    split
    next hlt =>
      rw [List.mem_cons, ih hrest, or_and_right]
      refine or_congr_left ⟨?_, And.left⟩
      rintro rfl
      exact ⟨rfl, hc.2 hlt⟩
    next hlt =>
      rw [ih hrest, or_and_right]
      refine ⟨.inr, fun hor => hor.elim ?_ id⟩
      rintro ⟨rfl, hk⟩
      exact absurd (hc.1 hk) hlt

/-- Estimates that can be made leave nothing out. -/
theorem belowMin_total (hest : ∀ cid, ∃ n, ReadM.eval fs (estimatedReplicas cid) = .ok n)
    (hs : List ContentHash) : ∃ out, ReadM.eval fs (belowMin min hs) = .ok out := by
  induction hs with
  | nil => exact ⟨[], rfl⟩
  | cons c hs ih =>
    obtain ⟨n, hn⟩ := hest c
    obtain ⟨rest, hrest⟩ := ih
    refine ⟨if n < min then c :: rest else rest, ?_⟩
    unfold belowMin
    rw [ReadM.eval_bind, hn, ok_bind, ReadM.eval_bind, hrest, ok_bind]
    rfl

/-- **Estimates that count every node once hide no single copy.** -/
theorem CountsOnce.reports {me : String} {s : ReplicaState} (h : CountsOnce me s) :
    ReportsSingles me s := by
  intro v live cid hmin hlive hcid hsingle
  have hest : ∀ c, ∃ n, ReadM.eval s.fs (estimatedReplicas c) = .ok n := fun c =>
    (h c).imp fun n hn => hn.1
  have htotal : ∃ out, ReadM.eval s.fs (belowMin v.config.minReplicas.toNat
      (sortedHashes live)) = .ok out := belowMin_total hest _
  obtain ⟨under, hunder⟩ := htotal
  have hmem : cid ∈ under := by
    obtain ⟨n, hn, hle⟩ := h cid
    have hone : (s.nodesWith me cid).card ≤ 1 := Finset.card_le_card hsingle
    exact (mem_belowMin hunder cid).2 ⟨mem_sortedHashes.2 hcid, n, hn, by omega⟩
  refine ⟨⟨under, ?_, hmem⟩, fun status hstatus => ?_⟩
  · unfold underReplicatedChunks
    rw [ReadM.eval_bind, hlive, ok_bind, hunder]
  · unfold replicationStatus at hstatus
    simp only [ReadM.eval_bind, hlive, ok_bind, hunder] at hstatus
    obtain ⟨pins, -, hstatus⟩ := bind_ok_iff.1 hstatus
    obtain ⟨known, -, hstatus⟩ := bind_ok_iff.1 hstatus
    obtain ⟨missing, -, hstatus⟩ := bind_ok_iff.1 hstatus
    cases hstatus
    exact List.length_pos_of_mem hmem

end Reports

/-! ## §7. Every run. -/

/-- A replication would note objects of HEAD under this node's own id: the pins can be brought up to
date, and HEAD names a commit with something to serve. -/
def RecordsOwn (fs : VaultFs) : Prop := ∃ items, NotesOwn fs items ∧ items ≠ []

/-- No replication notes this node's own objects. -/
def NotOwn (s : ReplicaState) : ReplicaEvent → Prop
  | .replicateHead _ _ => ¬RecordsOwn s.fs
  | _ => True

section Runs

variable {me : String} {s : ReplicaState} {known : PeerHave}

theorem NotesOwn.unique {fs : VaultFs} {items items' : List (ContentHash × Bytes)}
    (h : NotesOwn fs items) (h' : NotesOwn fs items') : items = items' := by
  obtain ⟨-, c, hc, hi⟩ := h
  obtain ⟨-, c', hc', hi'⟩ := h'
  obtain rfl := Option.some.inj (Except.ok.inj (hc.symm.trans hc'))
  exact Except.ok.inj (hi.symm.trans hi')

/-- How the have-lists change in one step: the events of other nodes add what they announce, a
replication adds the objects it notes to this node's own list. -/
theorem HaveAgrees.step (hjson : (Crates.haveJson).RoundTrip) (h : HaveAgrees me s known)
    (e : ReplicaEvent) (he : Admitted me s e) : ∃ known', HaveAgrees me (s.after me e) known' ∧
      ((∃ cid : ContentHash, me ∈ known'.holders cid.toHex) ↔
        (∃ cid : ContentHash, me ∈ known.holders cid.toHex) ∨ ¬NotOwn s e) := by
  cases e with
  | notePeerHas env peerId cids =>
    have hne : peerId ≠ me := he
    have hrule : wp env (fun _ => True) (notePeerHas peerId cids) _ (World.boot s.fs) :=
      wp_notePeerHas hjson h.file peerId cids
    obtain ⟨-, now, hfile⟩ := hrule.post
    refine ⟨known.noted peerId cids now, ⟨hfile, fun a ha => ?_, fun peer cid hp => ?_⟩, ?_⟩
    · rcases Finset.mem_union.1 ha with ha | ha
      · exact h.foreign a ha
      · obtain ⟨c, -, rfl⟩ := List.mem_map.1 (List.mem_toFinset.1 ha)
        exact hne
    · rw [PeerHave.mem_holders_noted, h.listed peer cid hp]
      show _ ↔ (peer, cid) ∈ s.announced ∪ (cids.map fun c => (peerId, c)).toFinset
      simp only [Finset.mem_union, List.mem_toFinset, List.mem_map, Prod.mk.injEq,
        ContentHash.toHex_injective.eq_iff]
      refine or_congr_right ⟨?_, ?_⟩
      · rintro ⟨rfl, c, hc, rfl⟩
        exact ⟨cid, hc, rfl, rfl⟩
      · rintro ⟨c, hc, rfl, rfl⟩
        exact ⟨rfl, c, hc, rfl⟩
    · simp only [PeerHave.mem_holders_noted, Ne.symm hne, false_and, or_false, NotOwn, not_true]
  | replicateHead env v =>
    -- the announcements stay, so that only this node's own list can change
    have hagrees : ∀ known', HaveIs (s.after me (.replicateHead env v)).fs known' →
        (∀ peer cid, peer ≠ me → (peer ∈ known'.holders (ContentHash.toHex cid) ↔
          peer ∈ known.holders cid.toHex)) → HaveAgrees me (s.after me (.replicateHead env v)) known' :=
      fun known' hfile hsame =>
        ⟨hfile, h.foreign, fun peer cid hp => (hsame peer cid hp).trans (h.listed peer cid hp)⟩
    have hrule : wp env (fun _ => True) (replicateHead v me) _ (World.boot s.fs) :=
      wp_replicateHead hjson h.file v me
    rcases hrule.post with ⟨hno, hfile⟩ | ⟨items, now, hnotes, hfile⟩
    · refine ⟨known, hagrees known hfile fun _ _ _ => Iff.rfl, ?_⟩
      have hnot : NotOwn s (.replicateHead env v) := by
        rintro ⟨items, hitems, -⟩
        exact hno ⟨items, hitems⟩
      simp only [hnot, not_true, or_false]
    · refine ⟨_, hagrees _ hfile fun peer cid hp => ?_, ?_⟩
      · simp only [PeerHave.mem_holders_noted, hp, false_and, or_false]
      · have hown : ¬NotOwn s (.replicateHead env v) ↔ items ≠ [] := by
          unfold NotOwn RecordsOwn
          rw [not_not]
          constructor
          · rintro ⟨items', hitems', hne⟩
            rw [NotesOwn.unique hnotes hitems']
            exact hne
          · exact fun hne => ⟨items, hnotes, hne⟩
        rw [hown]
        simp only [PeerHave.mem_holders_noted, true_and, exists_or, ContentHash.toHex_injective.eq_iff]
        refine or_congr_right ⟨?_, fun hne => ?_⟩
        · rintro ⟨cid, c, hc, -⟩ rfl
          cases hc
        · obtain ⟨item, hitem⟩ := List.exists_mem_of_ne_nil items hne
          exact ⟨item.1, item.1, List.mem_map_of_mem hitem, rfl⟩
  | other fs =>
    refine ⟨known, ⟨h.file.congr he, h.foreign, h.listed⟩, ?_⟩
    simp only [NotOwn, not_true, or_false]

/-- A vault without have-lists, and nothing announced yet. -/
theorem agrees_start {fs : VaultFs} (h : havePath ∉ fs) : HaveAgrees me ⟨fs, ∅⟩ .default where
  file := .inl ⟨AList.lookup_eq_none.2 h, rfl⟩
  foreign := by simp
  listed := by simp

theorem HaveAgrees.ownListEmpty_iff (hjson : (Crates.haveJson).RoundTrip) (h : HaveAgrees me s known) :
    OwnListEmpty me s ↔ ¬∃ cid : ContentHash, me ∈ known.holders cid.toHex := by
  constructor
  · rintro hown ⟨cid, hcid⟩
    exact hown known h.file cid hcid
  · intro hno known' hfile cid hcid
    obtain rfl := h.file.unique hjson hfile
    exact hno ⟨cid, hcid⟩

/-- **Replica estimates**: from a vault without have-lists, in every state of every run the
estimates count each node at most once and single copies of live chunks are reported, if and only if
no replication of the run notes this node's own objects. -/
theorem replicas_counted_iff (hjson : (Crates.haveJson).RoundTrip) (me : String) (fs : VaultFs)
    (hfs : havePath ∉ fs) (events : List ReplicaEvent)
    (hadm : Trace.Each (ReplicaState.after me) (Admitted me) ⟨fs, ∅⟩ events) :
    Trace.Always (ReplicaState.after me) (fun s => CountsOnce me s ∧ ReportsSingles me s) ⟨fs, ∅⟩
        events ↔
      Trace.Each (ReplicaState.after me) NotOwn ⟨fs, ∅⟩ events := by
  have hinv : ∀ s e, Admitted me s e → (∃ known, HaveAgrees me s known) →
      ∃ known, HaveAgrees me (s.after me e) known := by
    rintro s e he ⟨known, h⟩
    obtain ⟨known', h', -⟩ := h.step hjson e he
    exact ⟨known', h'⟩
  have hclean : ∀ s, (∃ known, HaveAgrees me s known) →
      (CountsOnce me s ∧ ReportsSingles me s ↔ OwnListEmpty me s) := by
    rintro s ⟨known, h⟩
    rw [← h.countsOnce_iff hjson]
    exact ⟨And.left, fun hcount => ⟨hcount, hcount.reports⟩⟩
  refine Trace.always_iff hinv hclean ?_ hadm ⟨_, agrees_start hfs⟩ ?_
  · rintro s e he ⟨known, h⟩ hempty
    obtain ⟨known', h', hown⟩ := h.step hjson e he
    rw [h.ownListEmpty_iff hjson] at hempty
    rw [h'.ownListEmpty_iff hjson, hown, or_iff_right hempty, not_not]
  · have hstart : HaveAgrees me ⟨fs, ∅⟩ _ := agrees_start hfs
    rw [hstart.ownListEmpty_iff hjson]
    rintro ⟨cid, hcid⟩
    cases hcid

end Runs

end Model

/-! ## §8. One replication. -/

section Sample

attribute [local instance] sample

theorem sample_haveJson : (Crates.haveJson).RoundTrip :=
  SerdeJson.ofPrinter_roundTrip fun _ _ h => codeText_injective (String.ofList_inj.1 h)

theorem orphan_no_have : havePath ∉ orphanDisk := by
  rw [← AList.lookup_eq_none]
  simp [orphanDisk, havePath, headFile, commitPathBin, treePathBin]

/-- HEAD's commit and its tree are served. -/
theorem orphan_collect : ReadM.eval orphanDisk (collectProvideHashes hashA) =
    .ok [(hashA, wireA), (treeE, wireE)] := by
  obtain ⟨-, -, -, hlA, hlE⟩ := lookup_orphanDisk
  have hA := loadCommit_sample encodeA sampleDigest_wires.2.1 hlA
  have hE := loadTree_sample hlE
  have hpA : commitKind.Present orphanDisk hashA := .inl (Fs.mem_iff_lookup.2 ⟨_, hlA⟩)
  have hpE : treeKind.Present orphanDisk treeE := .inl (Fs.mem_iff_lookup.2 ⟨_, hlE⟩)
  have hof : ∀ b, ContentHash.of b = sampleDigest b := fun _ => rfl
  have hofA : ContentHash.of wireA = hashA := (hof wireA).trans sampleDigest_wires.2.1
  have hofE : ContentHash.of wireE = treeE := (hof wireE).trans sampleDigest_wires.1
  have hnew : treeE ∉ (Provided.withCommit ⟨∅, []⟩ hashA wireA).seenBlobs := by
    rw [Provided.mem_withCommit]
    decide
  have hexA : ReadM.eval orphanDisk (exportCommitBytes hashA) = .ok wireA :=
    (commitKind.eval_exportBytes_bin hlA).trans (if_pos hofA)
  have hexE : ReadM.eval orphanDisk (exportTreeBytes treeE) = .ok wireE :=
    (treeKind.eval_exportBytes_bin hlE).trans (if_pos hofE)
  have htree : ReadM.eval orphanDisk (provideTree (Provided.withCommit ⟨∅, []⟩ hashA wireA) treeE) =
      .ok ((Provided.withCommit ⟨∅, []⟩ hashA wireA).push treeE wireE) := by
    rw [eval_provideTree_new hpE hnew, hexE, ok_bind, hE, ok_bind]
    rfl
  unfold collectProvideHashes
  rw [ReadM.eval_bind, eval_provideWalk_present (by simp) (by decide) hpA,
    provideCommit_ok_iff.2 ⟨wireA, _, hexA, hA, rfl, htree⟩, ok_bind]
  show (ReadM.eval orphanDisk (provideWalk (insert hashA ∅) _ [])).bind _ = _
  rw [provideWalk]
  rfl

theorem orphan_recordsOwn : RecordsOwn orphanDisk := by
  obtain ⟨hread, hload⟩ := orphan_readable
  have hpins : ReadM.eval orphanDisk loadPins = .ok .default := by
    have hno : pinsPath ∉ orphanDisk := by
      rw [← AList.lookup_eq_none]
      simp [orphanDisk, pinsPath, headFile, commitPathBin, treePathBin]
    unfold loadPins
    rw [ReadM.eval_bind, ReadM.eval_pathExists, ok_bind, decide_eq_false hno, if_neg (by simp)]
    rfl
  refine ⟨_, ⟨⟨liveChunkHashes_ok_iff.2 hload, _, hpins⟩, hashA, ?_, orphan_collect⟩, by simp⟩
  exact eval_head_written lookup_orphanDisk.1

/-- One replication is enough: afterwards this node counts twice. -/
theorem replication_counts_twice : ¬∀ (me : String) (fs : VaultFs), havePath ∉ fs →
    ∀ events : List ReplicaEvent,
      Trace.Each (ReplicaState.after me) (Admitted me) ⟨fs, ∅⟩ events →
        Trace.Always (ReplicaState.after me) (fun s => CountsOnce me s ∧ ReportsSingles me s) ⟨fs, ∅⟩
          events := by
  intro hall
  have hrun := hall "node" orphanDisk orphan_no_have [.replicateHead (quiet 0) plainVault]
    ⟨trivial, trivial⟩
  have hstart : HaveAgrees "node" ⟨orphanDisk, ∅⟩ _ := agrees_start orphan_no_have
  obtain ⟨known, hagrees, hown⟩ := hstart.step sample_haveJson
    (.replicateHead (quiet 0) plainVault) trivial
  have hempty := (hagrees.countsOnce_iff sample_haveJson).1 hrun.2.1
  refine (hagrees.ownListEmpty_iff sample_haveJson).1 hempty (hown.2 (.inr ?_))
  exact fun hno => hno orphan_recordsOwn

/-- The rule at an announcement that is followed by a replication. -/
theorem orphan_replicas_counted :
    Trace.Always (ReplicaState.after "node")
        (fun s => CountsOnce "node" s ∧ ReportsSingles "node" s) ⟨orphanDisk, ∅⟩
        [.notePeerHas (quiet 0) "peer-aaa" [hashA], .replicateHead (quiet 0) plainVault] ↔
      Trace.Each (ReplicaState.after "node") NotOwn ⟨orphanDisk, ∅⟩
        [.notePeerHas (quiet 0) "peer-aaa" [hashA], .replicateHead (quiet 0) plainVault] :=
  replicas_counted_iff sample_haveJson "node" orphanDisk orphan_no_have _
    ⟨fun h => absurd h (by decide), trivial, trivial⟩

end Sample

end Soal

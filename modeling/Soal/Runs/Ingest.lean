/-
  Soal.Runs.Ingest — ingesting a commit from a peer that answers anything.

  The commit that comes back names the tree that is asked for, and the tree names the chunks; each
  answer is checked against the name it was asked under before it is stored.  HEAD and HEADS are
  written at the very end, when everything the commit needs is there.
-/
import Soal.Runs.StoreIntegrity
import Soal.Sync.Adoption
import Soal.Vault.Committing

namespace Soal

open FileProg

section Model

variable [Crates]

/-! ## §1. The stages. -/

section Stages

variable {env : Outside} {w w₁ w' : VaultWorld} {peer : String} {c : ContentHash}

omit [Crates] in
/-- Asking a peer touches no file. -/
theorem wp_fetch (peer : String) (h : ContentHash) :
    wp env (fun _ => True) (ingestChunks.fetch peer h) (fun _ w' => w' = w.asked) w := by
  refine wp_answer trivial ?_
  split <;> exact ⟨trivial, rfl⟩

/-- Storing a received chunk: it is there when that succeeds. -/
theorem wp_importChunk (ch : ContentHash) (data : Bytes) :
    wp env (fun _ => True) (importStoredChunk ch data) (fun r w' => ChunksAdded w w' ∧
      (r = .ok () → chunkPath ch ∈ w'.fs)) w := by
  have hput : wp env (ChunksAdded w) (ChunkStore.putVerified ch data) (fun r w' => ∀ b, r = .ok b →
      ContentHash.of data = ch ∧ w'.fs.lookup (chunkPath ch) = some data) w :=
    wp_putVerified (ChunksAdded.refl w)
  unfold importStoredChunk
  refine wp_seq (R := fun r w' => ChunksAdded w w' ∧ ∀ b, r = .ok b →
    ContentHash.of data = ch ∧ w'.fs.lookup (chunkPath ch) = some data) ?_ (fun b w' _ h => ?_)
    fun e w' _ h => ⟨h.1, fun he => by cases he⟩
  · exact hput.mono (fun _ _ => trivial) fun r w' hI h => ⟨hI, h⟩
  · exact ⟨trivial, h.1, fun _ => Fs.mem_iff_lookup.2 ⟨data, (h.2 b rfl).2⟩⟩

/-- Fetching the missing chunks of a list: all of them are there when that succeeds.  The induction
is on the list; a chunk that is there stays. -/
theorem wp_ingestChunks (peer : String) (chs : List ContentHash) :
    wp env (fun _ => True) (ingestChunks peer chs) (fun r w' => ChunksAdded w w' ∧
      (r = .ok () → ∀ ch ∈ chs, chunkPath ch ∈ w'.fs)) w := by
  induction chs generalizing w with
  | nil => exact ⟨trivial, .refl w, fun _ ch hch => absurd hch List.not_mem_nil⟩
  | cons ch chs ih =>
    -- the rest of the list, once `ch` is there
    have hrest : ∀ w₁ : VaultWorld, ChunksAdded w w₁ → chunkPath ch ∈ w₁.fs →
        wp env (fun _ => True) (ingestChunks peer chs) (fun r w' => ChunksAdded w w' ∧
          (r = .ok () → ∀ x ∈ ch :: chs, chunkPath x ∈ w'.fs)) w₁ := by
      intro w₁ h₁ hch
      refine (ih (w := w₁)).mono (fun _ h => h) fun r w' _ h' => ⟨h₁.trans h'.1, fun hr x hx => ?_⟩
      rcases List.mem_cons.1 hx with rfl | hx
      · exact h'.1.mem hch
      · exact h'.2 hr x hx
    unfold ingestChunks
    refine wp_exists trivial ?_
    split
    next hmem => exact hrest w (.refl w) (of_decide_eq_true hmem)
    next =>
      have hasked : ChunksAdded w w.asked := ⟨.asked w, fun _ _ => rfl⟩
      refine wp_seq (wp_fetch peer ch) (fun data w₁ _ h₁ => ?_) fun e w₁ _ h₁ => ?_
      · subst h₁
        refine wp_seq (wp_importChunk ch data) (fun _ w₂ _ h₂ => ?_)
          fun e w₂ _ h₂ => ⟨hasked.trans h₂.1, fun he => by cases he⟩
        exact hrest w₂ (hasked.trans h₂.1) (h₂.2 rfl)
      · subst h₁
        exact ⟨hasked, fun he => by cases he⟩

/-- What the adoption of an ingested commit does: HEAD is written when there was none, HEADS
otherwise. -/
inductive AdoptedAs (c : ContentHash) (w : VaultWorld) : Bool → VaultWorld → Prop
  | first : ReadM.eval w.fs head = .ok none → AdoptedAs c w true (headSet w c)
  | beside {l : ContentHash} {heads : Finset ContentHash} : ReadM.eval w.fs head = .ok (some l) →
      ReadM.eval w.fs listHeads = .ok heads → AdoptedAs c w false
        (w.written headsFile (Text.toUtf8 (String.ofList (headsBody (insert c heads)))))

omit [Crates] in
/-- Adopting an ingested commit, or failing before anything is written. -/
theorem wp_adoptIngested_ends (c : ContentHash) :
    wp env (fun _ => True) (adoptIngested c) (fun r w' =>
      (∃ e, r = .error e ∧ w' = w ∧
        (ReadM.eval w.fs head = .error e ∨ ReadM.eval w.fs listHeads = .error e)) ∨
      ∃ b, r = .ok b ∧ AdoptedAs c w b w') w := by
  unfold adoptIngested
  refine wp_read (x := head) trivial (fun l hl => ?_) fun e he => .inl ⟨e, rfl, rfl, .inl he⟩
  cases l with
  | none => exact wp_write trivial trivial ⟨trivial, .inr ⟨true, rfl, .first hl⟩⟩
  | some h =>
    refine wp_seq (wp_recordHead trivial fun _ _ => ⟨trivial, trivial⟩) (fun _ w₁ _ h₁ => ?_)
      fun e w₁ _ h₁ => ?_
    · rcases h₁ with ⟨_, _, hr, _⟩ | ⟨heads, hheads, -, rfl⟩
      · cases hr
      · exact ⟨trivial, .inr ⟨false, rfl, .beside hl hheads⟩⟩
    · rcases h₁ with ⟨_, he, hr, rfl⟩ | ⟨heads, hheads, hr, -⟩
      · cases hr
        exact .inl ⟨e, rfl, rfl, .inr he⟩
      · cases hr

omit [Crates] in
/-- Adopting touches the root directory only. -/
theorem confined_adoptIngested (c : ContentHash) : Confined (InDir .root) (adoptIngested c) := by
  refine Confined.bind (.ofRead _) fun l => ?_
  cases l with
  | none => exact Confined.bind (.writeFile rfl) fun _ => .done
  | some h =>
    refine Confined.bind ?_ fun _ => .done
    exact Confined.bind (.ofRead _) fun heads => .writeFile rfl

/-! ## §2. The ingest. -/

/-- How an ingest ends: files below the root directory were touched; then it failed, or the commit
is complete and was adopted. -/
def IngestEnds (w : VaultWorld) (c : ContentHash) (r : Res Bool) (w' : VaultWorld) : Prop :=
  ∃ w₁, Within BelowRoot w w₁ ∧ ((∃ e, r = .error e) ∧ w' = w₁ ∨
    ∃ b, r = .ok b ∧ Complete w₁.fs c ∧ AdoptedAs c w₁ b w')

omit [Crates] in
/-- Directories other than the root lie below it. -/
theorem within_belowRoot {d : VaultDir} (hd : d ≠ .root) (h : Within (InDir d) w w₁) :
    Within BelowRoot w w₁ := by
  refine h.mono fun p hp => ?_
  show p.dir ≠ .root
  rw [hp]
  exact hd

/-- An object that is missing is fetched and imported, and the ingest goes on. -/
theorem wp_fetchImported {α : Type} (K : ObjectKind α) (hK : K.dir ≠ .root) (x : ContentHash)
    {rest : Action Bool} (hw : Within BelowRoot w w₁)
    (hrest : ∀ w₂, Within (InDir K.dir) w₁ w₂ →
      wp env (fun _ => True) rest (IngestEnds w c) w₂) :
    wp env (fun _ => True) (do
      let bytes ← ingestChunks.fetch peer x
      K.importBytes x bytes
      rest : Action Bool) (IngestEnds w c) w₁ := by
  have hbelow : ∀ w₂, Within (InDir K.dir) w₁ w₂ → Within BelowRoot w w₂ := fun w₂ h₂ =>
    hw.trans (within_belowRoot hK h₂)
  refine wp_seq (wp_fetch peer x) (fun bytes w₂ _ h₂ => ?_) fun e w₂ _ h₂ => ?_
  · subst h₂
    refine wp_seq (((confined_importBytes K x bytes (D := InDir K.dir) rfl rfl).wp w₁.asked).mono (fun _ _ => trivial)
      fun _ w₃ h₃ _ => (Within.asked w₁).trans h₃) (fun _ w₃ _ h₃ => hrest w₃ h₃)
      fun e w₃ _ h₃ => ⟨w₃, hbelow w₃ h₃, .inl ⟨⟨e, rfl⟩, rfl⟩⟩
  · subst h₂
    exact ⟨_, hbelow _ (.asked w₁), .inl ⟨⟨e, rfl⟩, rfl⟩⟩

/-- **The rule of an ingest.**  Each stage leaves alone what the stages before it made sure of: trees
are imported beside commits, chunks beside both, and the heads are in the root directory. -/
theorem wp_ingest_ends (peer : String) (c : ContentHash) :
    wp env (fun _ => True) (ingestCommitFromPeer peer c) (IngestEnds w c) w := by
  have hstop : ∀ (e : Fault) (w₁ : VaultWorld), Within BelowRoot w w₁ →
      IngestEnds w c (.error e) w₁ := fun e w₁ h₁ => ⟨w₁, h₁, .inl ⟨⟨e, rfl⟩, rfl⟩⟩
  -- with commit and tree loaded, only chunks are missing
  have hloaded : ∀ (w₁ : VaultWorld) (k : Commit), Within BelowRoot w w₁ →
      ReadM.eval w₁.fs (loadCommit c) = .ok k → wp env (fun _ => True) (do
        let tree ← loadTree k.tree
        ingestChunks peer tree.allChunkHashes
        adoptIngested c : Action Bool) (IngestEnds w c) w₁ := by
    intro w₁ k h₁ hk
    refine wp_read (x := loadTree k.tree) trivial (fun tr htr => ?_) fun e _ => hstop e w₁ h₁
    refine wp_seq (wp_ingestChunks peer tr.allChunkHashes) (fun _ w₂ _ h₂ => ?_) fun e w₂ _ h₂ => ?_
    · have hbelow : Within BelowRoot w w₂ := h₁.trans (within_belowRoot (by decide) h₂.1.within)
      have hcomplete : Complete w₂.fs c := by
        refine ⟨k, tr, ?_, ?_, h₂.2 rfl⟩
        · rw [eval_loadCommit_congr fun p hp => h₂.1.other (by rw [hp]; decide), hk]
        · rw [eval_loadTree_congr fun p hp => h₂.1.other (by rw [hp]; decide), htr]
      refine (wp_adoptIngested_ends c).mono (fun _ h => h) fun r w' _ hr => ⟨w₂, hbelow, ?_⟩
      rcases hr with ⟨e, he, hw, -⟩ | ⟨b, hb, ha⟩
      · exact .inl ⟨⟨e, he⟩, hw⟩
      · exact .inr ⟨b, hb, hcomplete, ha⟩
    · exact hstop e w₂ (h₁.trans (within_belowRoot (by decide) h₂.1.within))
  have htree : ∀ w₁ : VaultWorld, Within BelowRoot w w₁ → wp env (fun _ => True) (do
        let commit ← loadCommit c
        if !(← hasTreeObject commit.tree) then
          let bytes ← ingestChunks.fetch peer commit.tree
          importTreeBytes commit.tree bytes
        let tree ← loadTree commit.tree
        ingestChunks peer tree.allChunkHashes
        adoptIngested c : Action Bool) (IngestEnds w c) w₁ := by
    intro w₁ h₁
    refine wp_read (x := loadCommit c) trivial (fun k hk => ?_) fun e _ => hstop e w₁ h₁
    refine wp_read (x := hasTreeObject k.tree) trivial (fun b _ => ?_) fun e _ => hstop e w₁ h₁
    cases b with
    | true => exact hloaded w₁ k h₁ hk
    | false =>
      refine wp_fetchImported treeKind (by simp [treeKind]) k.tree h₁ fun w₂ h₂ => ?_
      have hbelow : Within BelowRoot w w₂ := h₁.trans (within_belowRoot (by simp [treeKind]) h₂)
      refine hloaded w₂ k hbelow ?_
      have hcommits : ∀ p : FilePath VaultDir, p.dir = .commits → ¬InDir treeKind.dir p := by
        intro p hp htrees
        cases hp.symm.trans htrees
      rw [eval_loadCommit_congr fun p hp => h₂.frame p (hcommits p hp), hk]
  unfold ingestCommitFromPeer
  refine wp_read (x := hasCommitObject c) trivial (fun b _ => ?_) fun e _ => hstop e w (.refl w)
  cases b with
  | true => exact htree w (.refl w)
  | false =>
    refine wp_fetchImported commitKind (by simp [commitKind]) c (.refl w) fun w₁ h₁ => ?_
    exact htree w₁ (within_belowRoot (by simp [commitKind]) h₁)

end Stages

/-! ## §3. What is stored. -/

/-- What is new among the object files is named by the hash of its bytes. -/
def StoresNamed (fs fs' : VaultFs) : Prop := ∀ p b, ObjectDir p.dir → fs'.lookup p = some b →
  fs.lookup p = some b ∨ NamedBy p (.of b)

instance : IsPreorder VaultFs StoresNamed where
  refl _ _ _ _ hb := .inl hb
  trans _ _ _ h h' p b hd hb := (h' p b hd hb).elim (h p b hd) .inr

theorem storesNamed_written {w : VaultWorld} {p : FilePath VaultDir} {b : Bytes}
    (hp : NamedBy p (.of b)) : StoresNamed w.fs (w.written p b).fs := by
  intro q b' hd hb'
  rw [World.lookup_written] at hb'
  by_cases heq : q = p
  · rw [if_pos heq, Option.some.injEq] at hb'
    subst hb'
    rw [heq]
    exact .inr hp
  · rw [if_neg heq] at hb'
    exact .inl hb'

theorem storesNamed_renamed {w : VaultWorld} {ch : ContentHash} {b : Bytes}
    (hb : ContentHash.of b = ch) :
    StoresNamed w.fs (renamed w (chunkTmp ch) (chunkPath ch) b).fs := by
  intro q b' hd hb'
  rw [lookup_renamed] at hb'
  by_cases heq : q = chunkPath ch
  · rw [if_pos heq, Option.some.injEq] at hb'
    subst hb' hb
    rw [heq]
    exact .inr (namedBy_chunkPath _)
  · rw [if_neg heq] at hb'
    split at hb'
    next => cases hb'
    next => exact .inl hb'

theorem storesNamed_importBytes {α : Type} {K : ObjectKind α}
    (hK : K.dir = .commits ∨ K.dir = .trees) (h : ContentHash) (data : Bytes) :
    Leads StoresNamed (K.importBytes h data) := by
  refine Leads.iff_wp.2 fun env w =>
    (K.wp_importBytes trivial fun _ _ => ⟨trivial, trivial⟩).mono (fun _ h => h) ?_
  intro r w' _ hr
  rcases hr with ⟨e, -, rfl, -⟩ | ⟨x, hx, -, rfl⟩
  · exact Std.Refl.refl _
  · obtain rfl := hx.hash_eq
    exact storesNamed_written (ObjectKind.namedBy_importPath hK _ data)

theorem storesNamed_importChunk (ch : ContentHash) (data : Bytes) :
    Leads StoresNamed (importStoredChunk ch data) := by
  refine Leads.bind (Leads.iff_wp.2 fun env w =>
    (wp_putVerified_cases env ch data w).mono (fun _ h => h) ?_) fun _ => .done
  intro r w' _ hr
  rcases hr with rfl | ⟨hdata, -, rfl⟩
  · exact Std.Refl.refl _
  · exact storesNamed_renamed hdata

theorem storesNamed_fetch (peer : String) (h : ContentHash) :
    Leads StoresNamed (ingestChunks.fetch peer h) := by
  refine Leads.bind (.ask _) fun reply => ?_
  split <;> exact .done

theorem storesNamed_ingestChunks (peer : String) (chs : List ContentHash) :
    Leads StoresNamed (ingestChunks peer chs) := by
  induction chs with
  | nil => exact .done
  | cons ch chs ih =>
    unfold ingestChunks
    refine Leads.bind (.ofRead _) fun there => ?_
    split
    next => exact ih
    next =>
      refine Leads.bind (storesNamed_fetch peer ch) fun data => ?_
      exact Leads.bind (storesNamed_importChunk ch data) fun _ => ih

theorem storesNamed_adoptIngested (c : ContentHash) : Leads StoresNamed (adoptIngested c) := by
  refine .ofConfined (confined_adoptIngested c) fun fs fs' hl p b hd hb => .inl ?_
  rw [← hl p fun hp => ?_, hb]
  have hp : p.dir = .root := hp
  rw [hp] at hd
  rcases hd with hd | hd | hd <;> cases hd

theorem storesNamed_ingest (peer : String) (c : ContentHash) :
    Leads StoresNamed (ingestCommitFromPeer peer c) := by
  have hloaded : ∀ k : Commit, Leads StoresNamed (do
      let tree ← loadTree k.tree
      ingestChunks peer tree.allChunkHashes
      adoptIngested c : Action Bool) := fun k =>
    Leads.bind (.ofRead _) fun tr => Leads.bind (storesNamed_ingestChunks peer _) fun _ =>
      storesNamed_adoptIngested c
  have htree : Leads StoresNamed (do
      let commit ← loadCommit c
      if !(← hasTreeObject commit.tree) then
        let bytes ← ingestChunks.fetch peer commit.tree
        importTreeBytes commit.tree bytes
      let tree ← loadTree commit.tree
      ingestChunks peer tree.allChunkHashes
      adoptIngested c : Action Bool) := by
    refine Leads.bind (.ofRead _) fun k => Leads.bind (.ofRead _) fun there => ?_
    cases there with
    | true => exact hloaded k
    | false =>
      refine Leads.bind (storesNamed_fetch peer k.tree) fun bytes => ?_
      exact Leads.bind (storesNamed_importBytes (.inr rfl) k.tree bytes) fun _ => hloaded k
  unfold ingestCommitFromPeer
  refine Leads.bind (.ofRead _) fun there => ?_
  cases there with
  | true => exact htree
  | false =>
    refine Leads.bind (storesNamed_fetch peer c) fun bytes => ?_
    exact Leads.bind (storesNamed_importBytes (.inl rfl) c bytes) fun _ => htree

/-! ## §4. Heads. -/

/-- HEAD and the list of heads after an adoption. -/
structure HeadsAdopted (c : ContentHash) (fs : VaultFs) (b : Bool) (fs' : VaultFs) : Prop where
  /-- it says whether HEAD was empty -/
  first : b = true ↔ ReadM.eval fs head = .ok none
  head : if b then ReadM.eval fs' head = .ok (some c) else fs'.lookup headFile = fs.lookup headFile
  /-- one more head than before, if that could be read -/
  listed : ReadM.eval fs' listHeads = (ReadM.eval fs listHeads).map (insert c)

omit [Crates] in
theorem AdoptedAs.heads {c : ContentHash} {w w' : VaultWorld} {b : Bool} (h : AdoptedAs c w b w') :
    HeadsAdopted c w.fs b w'.fs := by
  cases h with
  | first hnone =>
    refine ⟨iff_of_true rfl hnone, eval_head_headSet, ?_⟩
    have hfile : ReadM.eval (headSet w c).fs listHeadsFileOnly = ReadM.eval w.fs listHeadsFileOnly :=
      eval_listHeadsFileOnly_congr (lookup_headSet (by decide))
    rw [eval_listHeads, eval_listHeads, hfile, eval_head_headSet, hnone]
    cases ReadM.eval w.fs listHeadsFileOnly with
    | error e => rfl
    | ok listed =>
      show Except.ok ({c} ∪ listed) = Except.ok (insert c (∅ ∪ listed))
      rw [Finset.empty_union, Finset.insert_eq]
  | @beside l heads hl hheads =>
    have hnone : ReadM.eval w.fs head ≠ .ok none := by
      rw [hl]
      exact fun h => by cases h
    have hsame : (w.written headsFile
        (Text.toUtf8 (String.ofList (headsBody (insert c heads))))).fs.lookup headFile =
          w.fs.lookup headFile := by
      rw [World.lookup_written, if_neg (by decide)]
    -- HEAD was in the list already
    have hmem : l ∈ heads := by
      rw [eval_listHeads, hl] at hheads
      obtain ⟨listed, -, hlisted⟩ := bind_ok_iff.1 hheads
      obtain rfl := Except.ok.inj hlisted
      exact Finset.mem_union_left _ (Finset.mem_singleton_self l)
    refine ⟨iff_of_false (by simp) hnone, hsame, ?_⟩
    rw [eval_listHeads, eval_listHeadsFileOnly_written (by rw [World.lookup_written, if_pos rfl]),
      eval_head_congr hsame, hl, hheads]
    show Except.ok ({l} ∪ insert c heads) = Except.ok (insert c heads)
    rw [← Finset.insert_eq, Finset.insert_eq_of_mem (Finset.mem_insert_of_mem hmem)]

omit [Crates] in
/-- An adoption writes to the root directory only. -/
theorem AdoptedAs.other {c : ContentHash} {w w' : VaultWorld} {b : Bool} (h : AdoptedAs c w b w')
    {p : FilePath VaultDir} (hp : p.dir ≠ .root) : w'.fs.lookup p = w.fs.lookup p := by
  have hne : ∀ {name : String}, p ≠ ⟨.root, name⟩ := by
    intro name heq
    rw [heq] at hp
    exact hp rfl
  cases h with
  | first hnone => exact lookup_headSet hne
  | beside hl hheads =>
    have hheadsFile : p ≠ headsFile := hne
    rw [World.lookup_written, if_neg hheadsFile]

/-- **An ingest from a hostile peer**: whatever the peer answers, every object it stored is named by
the hash of its bytes.  When it fails, HEAD and HEADS are as they were; when it succeeds, the commit
is complete, HEAD moved exactly when there was none, and the commit is among the heads. -/
theorem ingestCommitFromPeer_sound (env : Outside) (fs : VaultFs) (peer : String)
    (c : ContentHash) :
    let out := run env (ingestCommitFromPeer peer c) (World.boot fs)
    StoresNamed fs out.2.fs ∧ match out.1 with
      | .error _ => out.2.fs.lookup headFile = fs.lookup headFile ∧
          out.2.fs.lookup headsFile = fs.lookup headsFile
      | .ok b => ReadM.eval out.2.fs (isComplete c) = .ok true ∧
          HeadsAdopted c fs b out.2.fs := by
  intro out
  have hends : IngestEnds (World.boot fs) c out.1 out.2 := (wp_ingest_ends peer c).post
  refine ⟨storesNamed_ingest peer c env (World.boot fs), ?_⟩
  generalize out.1 = r at hends
  generalize out.2 = w' at hends
  obtain ⟨w₁, h₁, hend⟩ := hends
  have hroot : ∀ p : FilePath VaultDir, p.dir = .root → w₁.fs.lookup p = fs.lookup p :=
    fun p hp => h₁.frame p fun hbelow => hbelow hp
  rcases hend with ⟨⟨e, rfl⟩, rfl⟩ | ⟨b, rfl, hcomplete, hadopted⟩
  · exact ⟨hroot headFile rfl, hroot headsFile rfl⟩
  · have hheads := hadopted.heads
    have hhead : ReadM.eval w₁.fs head = ReadM.eval fs head := eval_head_congr (hroot headFile rfl)
    have hlist : ReadM.eval w₁.fs listHeads = ReadM.eval fs listHeads := by
      rw [eval_listHeads, eval_listHeads, hhead,
        eval_listHeadsFileOnly_congr (hroot headsFile rfl)]
    refine ⟨eval_isComplete_iff.2 ((complete_congr (fun p hp => ?_) c).2 hcomplete), ?_, ?_, ?_⟩
    · apply hadopted.other
      rcases hp with hp | hp | hp <;> rw [hp] <;> decide
    · rw [← hhead]
      exact hheads.first
    · have hunder := hheads.head
      rwa [hroot headFile rfl] at hunder
    · rw [← hlist]
      exact hheads.listed

end Model

end Soal

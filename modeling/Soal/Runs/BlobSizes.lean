/-
  Soal.Runs.BlobSizes — whether a vault can serve what it was allowed to create.

  A blob is served up to `MAX_BLOB_BYTES`.  Chunks stay far below that, but neither trees nor commits
  are measured when they are saved: a tree may list a million files, a commit may carry any message.
  Adds, snapshots and merges leave a vault that can be served as long as each is given a tree and a
  message that fit.
-/
import Soal.Codec.Sizes
import Soal.Replication
import Soal.Runs.AddHistory
import Soal.Runs.HeadTips
import Soal.Sync.Rules
import Soal.Vault.ProvideAll

namespace Soal

open FileProg Worklist

section Model

variable [Crates]

/-! ## §1. Chunks. -/

/-- FastCDC never yields a chunk beyond the maximum size; its least maximum is 1024. -/
def FastcdcBounded : Prop := ∀ (data : Bytes) (min avg max : UInt32), 1024 ≤ max →
  ∀ entry ∈ Crates.fastcdc data min avg max, entry.2 ≤ max.toNat

/-- Plaintext chunks have at most 8 MiB. -/
def maxChunkBytes : Nat := 8 * 1024 * 1024

section Chunks

variable {v : Vault} {plain data stored : Bytes}

/-- **Every chunk has at most 8 MiB**: data that is not empty is cut, so the whole of it never counts
as one chunk for lack of any. -/
theorem chunkBytes_length_le (hcdc : FastcdcTiles) (hmax : FastcdcBounded) :
    ∀ c ∈ chunkBytes data, c.length ≤ maxChunkBytes := by
  intro c hc
  unfold chunkBytes at hc
  split at hc
  next => cases hc
  next hne =>
    have htiles := hcdc data (256 * 1024) (2 * 1024 * 1024) (8 * 1024 * 1024)
    have hbound := hmax data (256 * 1024) (2 * 1024 * 1024) (8 * 1024 * 1024) (by decide)
    dsimp only [chunkSizes] at hc
    split at hc
    next hempty =>
      -- the entries tile the data, so the first of them lies inside
      exfalso
      cases hcuts : Crates.fastcdc data (256 * 1024) (2 * 1024 * 1024) (8 * 1024 * 1024) with
      | nil =>
        rw [hcuts] at htiles
        have hzero : 0 = data.length := htiles
        rw [List.isEmpty_iff, List.length_eq_zero_iff.1 hzero.symm] at hne
        exact hne rfl
      | cons entry entries =>
        rw [hcuts] at htiles hempty
        obtain ⟨start, length⟩ := entry
        obtain ⟨hstart, hrest⟩ := htiles
        have hstart : start = 0 := hstart
        have hle : 0 + length ≤ data.length := hrest.le
        rw [List.filterMap_cons] at hempty
        simp [hstart, show length ≤ data.length by omega] at hempty
    next =>
      obtain ⟨entry, hentry, hcut⟩ := List.mem_filterMap.1 hc
      have hlen : entry.2 ≤ 8 * 1024 * 1024 := hbound entry hentry
      split at hcut
      next =>
        obtain rfl := Option.some.inj hcut
        rw [List.length_take]
        show min entry.2 _ ≤ maxChunkBytes
        unfold maxChunkBytes
        omega
      next => cases hcut

/-- What is stored for a chunk: nonce and tag come on top. -/
theorem storedForm_length_le (haead : AeadCorrect) (hs : v.storedForm plain = .ok stored) :
    stored.length ≤ plain.length + 40 := by
  unfold Vault.storedForm at hs
  split at hs
  next key _ =>
    obtain ⟨ct, hct, hs⟩ := bind_ok_iff.1 hs
    obtain rfl := Except.ok.inj hs
    cases henc : Crates.aeadEncrypt key ((Crates.blake3 plain).bytes.take nonceLen) plain [] with
    | error e =>
      rw [henc] at hct
      cases hct
    | ok ct' =>
      rw [henc] at hct
      have hct : (.ok ct' : Res Bytes) = .ok ct := hct
      obtain rfl := Except.ok.inj hct
      have hnonce : ((Crates.blake3 plain).bytes.take nonceLen).length ≤ 24 := List.length_take_le _ _
      rw [List.length_append, haead.tag _ _ _ _ _ henc]
      omega
  next =>
    obtain rfl := Except.ok.inj hs
    omega

end Chunks

/-! ## §2. What an add puts into the tree. -/

namespace Vault

/-- The storage hashes of plaintext chunks. -/
def storedHashes (v : Vault) : List Bytes → Res (List ContentHash)
  | [] => .ok []
  | c :: cs => do
    let stored ← v.storedForm c
    let rest ← v.storedHashes cs
    return .of stored :: rest

/-- The entry of a file. -/
def dataEntry (v : Vault) (path : String) (data : Bytes) : Res FileEntry := do
  let hashes ← v.storedHashes (chunkBytes data)
  return (path, .ofNat data.length, hashes)

/-- The entries of a directory's files. -/
def fileEntries (v : Vault) (baseName : String) : List (List Bytes × Bytes) → Res (List FileEntry)
  | [] => .ok []
  | (components, data) :: files => do
    let relStr ← normalizeAndValidate (relativeName components)
    if relStr.isEmpty then v.fileEntries baseName files
    else
      let (_, size, hashes) ← v.dataEntry relStr data
      let logical := if baseName.isEmpty then relStr else baseName ++ "/" ++ relStr
      let logical ← normalizeAndValidate logical
      return (logical, size, hashes) :: (← v.fileEntries baseName files)

/-- The entries of a source. -/
def sourceEntries (v : Vault) (baseName : String) : Source → Res (List FileEntry)
  | .file data => do return [← v.dataEntry baseName data]
  | .dir files => v.fileEntries baseName (walkdirSimple files)
  | .neither => .ok []

end Vault

/-! ## §3. Blobs that fit. -/

/-- Commits and trees are wire files, and these and the chunks are within the cap. -/
structure BlobsFit (fs : VaultFs) : Prop where
  object : ∀ (p : FilePath VaultDir) (b : Bytes), p.dir = .commits ∨ p.dir = .trees →
    fs.lookup p = some b → (∃ h, p = commitPathBin h ∨ p = treePathBin h) ∧ b.length ≤ maxBlobBytes
  chunk : ∀ (ch : ContentHash) (b : Bytes), fs.lookup (chunkPath ch) = some b →
    b.length ≤ maxBlobBytes

section Fit

variable {fs fs' : VaultFs} {w : VaultWorld} {env : Outside} {v : Vault} {b : Bytes}

omit [Crates] in
theorem Fresh.blobsFit (h : Fresh fs) : BlobsFit fs := by
  constructor
  · intro p b hp hl
    have hroot := (h p (Fs.mem_iff_lookup.2 ⟨b, hl⟩)).1
    rcases hp with hp | hp <;> cases hp.symm.trans hroot
  · intro ch b hl
    cases (h (chunkPath ch) (Fs.mem_iff_lookup.2 ⟨b, hl⟩)).1

omit [Crates] in
/-- The root directory does not matter. -/
theorem BlobsFit.congr (h : BlobsFit fs)
    (hl : ∀ p : FilePath VaultDir, p.dir ≠ .root → fs'.lookup p = fs.lookup p) : BlobsFit fs' := by
  constructor
  · intro p b hp hb
    refine h.object p b hp ((hl p ?_).symm.trans hb)
    rcases hp with hp | hp <;> simp [hp]
  · intro ch b hb
    exact h.chunk ch b ((hl _ (by simp [chunkPath])).symm.trans hb)

omit [Crates] in
/-- An object is saved. -/
theorem BlobsFit.written (h : BlobsFit w.fs) {p : FilePath VaultDir} {hash : ContentHash}
    (hp : p = commitPathBin hash ∨ p = treePathBin hash) (hb : b.length ≤ maxBlobBytes) :
    BlobsFit (w.written p b).fs := by
  constructor
  · intro q b' hq hl
    rw [World.lookup_written] at hl
    split at hl
    next heq =>
      obtain rfl := Option.some.inj hl
      exact ⟨⟨hash, heq ▸ hp⟩, hb⟩
    next => exact h.object q b' hq hl
  · intro ch b' hl
    rw [World.lookup_written, if_neg] at hl
    · exact h.chunk ch b' hl
    · rintro rfl
      rcases hp with hp | hp <;> cases hp

omit [Crates] in
/-- A chunk is stored. -/
theorem BlobsFit.chunkStored (h : BlobsFit w.fs) {ch : ContentHash} (hb : b.length ≤ maxBlobBytes) :
    BlobsFit (renamed w (chunkTmp ch) (chunkPath ch) b).fs := by
  constructor
  · intro q b' hq hl
    have hne : q ≠ chunkPath ch ∧ q ≠ chunkTmp ch := by
      constructor <;> rintro rfl <;> rcases hq with hq | hq <;> cases hq
    rw [lookup_renamed, if_neg hne.1, if_neg hne.2] at hl
    exact h.object q b' hq hl
  · intro ch' b' hl
    rw [lookup_renamed] at hl
    split at hl
    next =>
      obtain rfl := Option.some.inj hl
      exact hb
    next =>
      rw [if_neg (chunkPath_ne_chunkTmp ch' ch)] at hl
      exact h.chunk ch' b' hl

/-! ## §4. What the operations do to them. -/

theorem wp_putVerified_fit {ch : ContentHash} (h : BlobsFit w.fs) (hb : b.length ≤ maxBlobBytes) :
    wp env (fun _ => True) (ChunkStore.putVerified ch b) (fun _ w' => BlobsFit w'.fs) w := by
  unfold ChunkStore.putVerified
  split
  next => exact ⟨trivial, h⟩
  next =>
    refine wp_exists trivial ?_
    split
    next =>
      refine wp_read trivial (fun old _ => ?_) fun e _ => h
      split
      next => exact ⟨trivial, h⟩
      next => exact ⟨trivial, h⟩
    next =>
      refine wp_seq (R := fun _ w' => BlobsFit w'.fs) ?_ (fun _ _ _ h' => ⟨trivial, h'⟩)
        fun _ _ _ h' => h'
      exact wp_writeRename.2 ⟨trivial, trivial, trivial, trivial, h.chunkStored hb⟩

/-- Storing chunks keeps the blobs within the cap, and returns the storage hashes. -/
theorem Vault.wp_storeChunks_fit (haead : AeadCorrect) (h : BlobsFit w.fs) {cs : List Bytes}
    (hcs : ∀ c ∈ cs, c.length ≤ maxChunkBytes) :
    wp env (fun _ => True) (v.storeChunks cs) (fun r w' => BlobsFit w'.fs ∧
      ∀ hs, r = .ok hs → v.storedHashes cs = .ok hs) w := by
  induction cs generalizing w with
  | nil =>
    refine ⟨trivial, h, fun hs hr => ?_⟩
    obtain rfl := Except.ok.inj hr
    rfl
  | cons c cs ih =>
    unfold Vault.storeChunks
    have hone : wp env (fun _ => True) (v.storeChunk c) (fun r w' => BlobsFit w'.fs ∧
        ∀ ch, r = .ok ch → ∃ stored, v.storedForm c = .ok stored ∧ ch = .of stored) w := by
      unfold Vault.storeChunk
      refine wp_compute trivial (fun stored hs => ?_) fun e _ => ⟨h, fun ch hr => by cases hr⟩
      have hlen : stored.length ≤ maxBlobBytes := by
        have hle := storedForm_length_le haead hs
        have hc := hcs c List.mem_cons_self
        unfold maxChunkBytes at hc
        unfold maxBlobBytes
        omega
      refine wp_seq (wp_putVerified_fit h hlen) (fun _ w' _ hw' => ⟨trivial, hw', fun ch hr => ?_⟩)
        fun e w' _ hw' => ⟨hw', fun ch hr => by cases hr⟩
      obtain rfl := Except.ok.inj hr
      exact ⟨stored, hs, rfl⟩
    refine wp_seq hone (fun ch w₁ _ h₁ => ?_) fun e w₁ _ h₁ => ⟨h₁.1, fun hs hr => by cases hr⟩
    obtain ⟨stored, hstored, rfl⟩ := h₁.2 ch rfl
    refine wp_seq (ih h₁.1 fun c' hc' => hcs c' (List.mem_cons_of_mem _ hc'))
      (fun rest w₂ _ h₂ => ⟨trivial, h₂.1, fun hs hr => ?_⟩)
      fun e w₂ _ h₂ => ⟨h₂.1, fun hs hr => by cases hr⟩
    obtain rfl := Except.ok.inj hr
    refine bind_ok_iff.2 ⟨stored, hstored, bind_ok_iff.2 ⟨rest, h₂.2 rest rfl, rfl⟩⟩

theorem Vault.wp_addData_fit (hcdc : FastcdcTiles) (hmax : FastcdcBounded) (haead : AeadCorrect)
    (h : BlobsFit w.fs) (path : String) (data : Bytes) :
    wp env (fun _ => True) (v.addData path data) (fun r w' => BlobsFit w'.fs ∧
      ∀ e, r = .ok e → v.dataEntry path data = .ok e) w := by
  unfold Vault.addData
  refine wp_seq (v.wp_storeChunks_fit haead h (chunkBytes_length_le hcdc hmax))
    (fun hs w₁ _ h₁ => ⟨trivial, h₁.1, fun e hr => ?_⟩) fun e w₁ _ h₁ => ⟨h₁.1, fun e hr => by cases hr⟩
  obtain rfl := Except.ok.inj hr
  exact bind_ok_iff.2 ⟨hs, h₁.2 hs rfl, rfl⟩

theorem Vault.wp_addFiles_fit (hcdc : FastcdcTiles) (hmax : FastcdcBounded) (haead : AeadCorrect)
    (h : BlobsFit w.fs) (baseName : String) (files : List (List Bytes × Bytes)) :
    wp env (fun _ => True) (v.addFiles baseName files) (fun r w' => BlobsFit w'.fs ∧
      ∀ entries, r = .ok entries → v.fileEntries baseName files = .ok entries) w := by
  induction files generalizing w with
  | nil =>
    refine ⟨trivial, h, fun entries hr => ?_⟩
    obtain rfl := Except.ok.inj hr
    rfl
  | cons f files ih =>
    obtain ⟨components, data⟩ := f
    have hstop : ∀ {e : Fault} {w' : VaultWorld}, BlobsFit w'.fs → BlobsFit w'.fs ∧
        ∀ entries, (.error e : Res (List FileEntry)) = .ok entries →
          v.fileEntries baseName ((components, data) :: files) = .ok entries :=
      fun hw => ⟨hw, fun _ hr => by cases hr⟩
    unfold Vault.addFiles
    refine wp_compute trivial (fun relStr hrel => ?_) fun e _ => hstop h
    split
    next hempty =>
      refine (ih h).mono (fun _ h => h) fun r w' _ hr => ⟨hr.1, fun entries he => ?_⟩
      refine bind_ok_iff.2 ⟨relStr, hrel, ?_⟩
      rw [if_pos hempty]
      exact hr.2 entries he
    next hne =>
      refine wp_seq (v.wp_addData_fit hcdc hmax haead h relStr data) (fun entry w₁ _ h₁ => ?_)
        fun e w₁ _ h₁ => hstop h₁.1
      refine wp_compute trivial (fun logical hlog => ?_) fun e _ => hstop h₁.1
      refine wp_seq (ih h₁.1) (fun rest w₂ _ h₂ => ⟨trivial, h₂.1, fun entries hr => ?_⟩)
        fun e w₂ _ h₂ => hstop h₂.1
      obtain rfl := Except.ok.inj hr
      refine bind_ok_iff.2 ⟨relStr, hrel, ?_⟩
      rw [if_neg hne]
      refine bind_ok_iff.2 ⟨entry, h₁.2 entry rfl, bind_ok_iff.2 ⟨logical, hlog, ?_⟩⟩
      exact bind_ok_iff.2 ⟨rest, h₂.2 rest rfl, rfl⟩

/-- **Gathering a source** keeps the blobs within the cap, and returns its entries. -/
theorem Vault.wp_addSource_fit (hcdc : FastcdcTiles) (hmax : FastcdcBounded) (haead : AeadCorrect)
    (h : BlobsFit w.fs) (baseName : String) (source : Source) :
    wp env (fun _ => True) (v.addSource baseName source) (fun r w' => BlobsFit w'.fs ∧
      ∀ entries, r = .ok entries → v.sourceEntries baseName source = .ok entries) w := by
  cases source with
  | file data =>
    rw [Vault.addSource]
    split
    next => exact ⟨trivial, h, fun entries hr => by cases hr⟩
    next =>
      refine wp_seq (v.wp_addData_fit hcdc hmax haead h baseName data)
        (fun e w₁ _ h₁ => ⟨trivial, h₁.1, fun entries hr => ?_⟩)
        fun e w₁ _ h₁ => ⟨h₁.1, fun entries hr => by cases hr⟩
      obtain rfl := Except.ok.inj hr
      exact bind_ok_iff.2 ⟨e, h₁.2 e rfl, rfl⟩
  | dir files => exact v.wp_addFiles_fit hcdc hmax haead h baseName _
  | neither => exact ⟨trivial, h, fun entries hr => by cases hr⟩

/-- The text of a commit fits, whatever the clock shows. -/
def CommitFits (env : Outside) (message : String) (parents : List ContentHash) : Prop :=
  ∀ n, commitSize message parents.length (env n .now) ≤ maxBlobBytes

theorem wp_saveTree_fit (h : BlobsFit w.fs) {tree : Tree} (ht : tree.wireSize ≤ maxBlobBytes) :
    wp env (fun _ => True) (saveTree tree) (fun _ w' => BlobsFit w'.fs) w := by
  refine (treeKind.wp_save trivial fun _ _ => ⟨trivial, trivial⟩).mono (fun _ h => h)
    fun r w' _ hr => ?_
  rcases hr with ⟨-, -, rfl⟩ | ⟨bytes, hb, -, rfl⟩
  · exact h
  · exact h.written (.inr rfl) ((encodeTreeWire_length hb).trans_le ht)

/-- Signing changes neither the text of a commit nor its size. -/
theorem signCommit_text {sk : SecretKey} {c c' : Commit} (h : signCommit sk c = .ok c') :
    c'.message = c.message ∧ c'.timestamp = c.timestamp ∧ c'.parents = c.parents ∧
      c'.wireVersion = 1 := by
  obtain ⟨msg, -, hc⟩ := bind_ok_iff.1 h
  obtain rfl := Except.ok.inj hc
  exact ⟨rfl, rfl, rfl, rfl⟩

/-- The text of the commit that is made. -/
theorem Vault.wp_makeCommit_text (v : Vault) (tree : ContentHash) (parents : List ContentHash)
    (message : String) : wp env (fun _ => True) (v.makeCommit tree parents message) (fun r _ =>
      ∀ c, r = .ok c → c.message = message ∧ (∃ n, c.timestamp = env n .now) ∧
        c.parents = parents ∧ c.wireVersion = 1) w := by
  unfold Vault.makeCommit
  refine wp_seq (R := fun _ _ => True) ?_ (fun author w₁ _ _ => ?_) fun e w₁ _ _ c hr => by cases hr
  · exact wp_iff.2 ⟨fun _ _ => trivial, trivial⟩
  refine wp_answer trivial ?_
  unfold Vault.signLocally
  split
  next home _ =>
    refine wp_answer trivial ?_
    split
    next sk _ =>
      refine ⟨trivial, fun c hc => ?_⟩
      obtain ⟨hm, ht, hp, hv⟩ := signCommit_text hc
      exact ⟨hm, ⟨_, ht⟩, hp, hv⟩
    next =>
      refine ⟨trivial, fun c hc => ?_⟩
      obtain rfl := Except.ok.inj hc
      exact ⟨rfl, ⟨_, rfl⟩, rfl, rfl⟩
  next =>
    refine ⟨trivial, fun c hc => ?_⟩
    obtain rfl := Except.ok.inj hc
    exact ⟨rfl, ⟨_, rfl⟩, rfl, rfl⟩

/-- **Making a commit whose text fits.** -/
theorem Vault.wp_commitTree_fit (v : Vault) (h : BlobsFit w.fs) (tree : ContentHash)
    {parents : List ContentHash} {message : String} (hfit : CommitFits env message parents) :
    wp env (fun _ => True) (v.commitTree tree parents message) (fun _ w' => BlobsFit w'.fs) w := by
  have hmade : wp env (fun _ => True) (v.makeCommit tree parents message) (fun r w' =>
      w'.fs = w.fs ∧ ∀ c, r = .ok c → c.message = message ∧ (∃ n, c.timestamp = env n .now) ∧
        c.parents = parents ∧ c.wireVersion = 1) w :=
    ((v.wp_makeCommit tree parents message fun _ _ _ => trivial).and
      (v.wp_makeCommit_text tree parents message)).mono (fun _ _ => trivial)
        fun _ _ _ h => ⟨h.1.1, h.2⟩
  unfold Vault.commitTree
  refine wp_seq hmade (fun c w₁ _ h₁ => ?_) fun e w₁ _ h₁ => h₁.1 ▸ h
  obtain ⟨hfs, htext⟩ := h₁
  obtain ⟨hm, ⟨n, ht⟩, hp, hv⟩ := htext c rfl
  have h₁ : BlobsFit w₁.fs := hfs ▸ h
  have hsave : wp env (fun _ => True) (saveCommit c) (fun _ w' => BlobsFit w'.fs) w₁ := by
    refine (commitKind.wp_save trivial fun _ _ => ⟨trivial, trivial⟩).mono (fun _ h => h)
      fun r w' _ hr => ?_
    rcases hr with ⟨-, -, rfl⟩ | ⟨bytes, hb, -, rfl⟩
    · exact h₁
    · have hlen := encodeCommitWire_length hb hv
      rw [hm, ht, hp] at hlen
      exact h₁.written (.inl rfl) (hlen.trans_le (hfit n))
  refine wp_seq hsave (fun hash w₂ _ h₂ => ?_) fun e w₂ _ h₂ => h₂
  refine wp_write trivial trivial ⟨trivial, h₂.congr fun p hp => ?_⟩
  rw [World.lookup_written, if_neg]
  rintro rfl
  exact hp rfl

/-- The message of an add. -/
def addMessage (source : Source) (baseName : String) : String :=
  match source with
  | .dir _ => "Add dir " ++ baseName
  | _ => "Add " ++ baseName

/-- The operations of the vault that make a commit, each with what it is given. -/
inductive MakeCommand where
  | addPath (source : Source) (baseName : String)
  | snapshot (message : String)
  | mergeHead (remoteHead : ContentHash) (label : String)

/-- The directory after the operation. -/
def MakeCommand.after (v : Vault) (env : Outside) (fs : VaultFs) : MakeCommand → VaultFs
  | .addPath source baseName => (run env (v.addPath source baseName) (World.boot fs)).2.fs
  | .snapshot message => (run env (v.snapshot message) (World.boot fs)).2.fs
  | .mergeHead remoteHead label => (run env (v.mergeHead remoteHead label) (World.boot fs)).2.fs

/-- The operation returns a commit. -/
def MakeCommand.Succeeds (v : Vault) (env : Outside) (fs : VaultFs) : MakeCommand → Prop
  | .addPath source baseName =>
      ∃ c, (run env (v.addPath source baseName) (World.boot fs)).1 = .ok c
  | .snapshot message => ∃ c, (run env (v.snapshot message) (World.boot fs)).1 = .ok c
  | .mergeHead remoteHead label =>
      ∃ out, (run env (v.mergeHead remoteHead label) (World.boot fs)).1 = .ok out

/-- The tree and the commit of the operation fit into a blob: HEAD's tree with the added entries, or
merged with the remote one; the message with HEAD, or with HEAD and the remote head, as parents. -/
def MakeCommand.Fits (v : Vault) (env : Outside) (fs : VaultFs) : MakeCommand → Prop
  | .addPath source baseName => ∀ base entries old tree l, validBaseName baseName = .ok base →
      v.sourceEntries base source = .ok entries → ReadM.eval fs headTree = .ok old →
      old.addEntries entries = .ok tree → ReadM.eval fs head = .ok l →
        tree.wireSize ≤ maxBlobBytes ∧ CommitFits env (addMessage source base) l.toList
  | .snapshot message => ∀ l, ReadM.eval fs head = .ok l → CommitFits env message l.toList
  | .mergeHead remoteHead label => ∀ k theirs l ours, ReadM.eval fs (loadCommit remoteHead) = .ok k →
      ReadM.eval fs (loadTree k.tree) = .ok theirs → ReadM.eval fs head = .ok l →
      ReadM.eval fs (treeOfHead l) = .ok ours →
        (ours.mergeWithConflicts theirs label).1.wireSize ≤ maxBlobBytes ∧
          CommitFits env (mergeMessage label (ours.mergeWithConflicts theirs label).2)
            (mergeParents l remoteHead)

theorem Vault.wp_addPath_fit (hcdc : FastcdcTiles) (hmax : FastcdcBounded) (haead : AeadCorrect)
    (v : Vault) (h : BlobsFit w.fs) (source : Source) (baseName : String)
    (hfits : (MakeCommand.addPath source baseName).Fits v env w.fs) :
    wp env (fun _ => True) (v.addPath source baseName) (fun _ w' => BlobsFit w'.fs) w := by
  unfold Vault.addPath
  refine wp_compute trivial (fun base hbase => ?_) fun e _ => h
  have hgather : wp env (fun _ => True) (v.addSource base source) (fun r w' =>
      (BlobsFit w'.fs ∧ ∀ entries, r = .ok entries → v.sourceEntries base source = .ok entries) ∧
        Within (InDir .chunks) w w') w :=
    ((v.wp_addSource_fit hcdc hmax haead h base source).and
      ((v.addSource_confined base source).wp w)).mono (fun _ _ => trivial)
        fun _ _ hI h => ⟨h.1, hI.2⟩
  refine wp_seq hgather (fun entries w₁ _ h₁ => ?_) fun e w₁ _ h₁ => h₁.1.1
  obtain ⟨⟨h₁, hentries⟩, hw₁⟩ := h₁
  have hother : ∀ p : FilePath VaultDir, p.dir ≠ .chunks → w₁.fs.lookup p = w.fs.lookup p :=
    fun p hp => hw₁.frame p hp
  split
  next => exact ⟨trivial, h₁⟩
  next =>
    refine wp_read (x := headTree) trivial (fun old hold => ?_) fun e _ => h₁
    rw [eval_headTree_congr hother] at hold
    refine wp_compute trivial (fun tree htree => ?_) fun e _ => h₁
    have hread := hold
    unfold headTree at hread
    rw [ReadM.eval_bind] at hread
    obtain ⟨l, hl, -⟩ := bind_ok_iff.1 hread
    obtain ⟨ht, hc⟩ := hfits base entries old tree l hbase (hentries entries rfl) hold htree hl
    refine wp_seq (((wp_saveTree_fit h₁ ht).and (wp_saveTree_root tree)).mono (fun _ _ => trivial)
      fun _ _ _ h => h) (fun t w₂ _ h₂ => ?_) fun e w₂ _ h₂ => h₂.1
    -- HEAD, read after the tree was saved, is the HEAD before
    have hhead : ReadM.eval w₂.fs head = .ok l :=
      (eval_head_congr ((h₂.2 headFile rfl).trans (hother headFile (by decide)))).trans hl
    refine wp_read_ok (x := head) trivial hhead ?_
    exact v.wp_commitTree_fit h₂.1 t hc

theorem Vault.wp_snapshot_fit (v : Vault) (h : BlobsFit w.fs) (message : String)
    (hfits : (MakeCommand.snapshot message).Fits v env w.fs) :
    wp env (fun _ => True) (v.snapshot message) (fun _ w' => BlobsFit w'.fs) w := by
  have hcommit : wp env (fun _ => True) (v.snapshotCommit message) (fun _ w' => BlobsFit w'.fs) w := by
    unfold Vault.snapshotCommit
    refine wp_read (x := head) trivial (fun l hl => ?_) fun e _ => h
    have hc := hfits l hl
    cases l with
    | some c =>
      refine wp_read (x := loadCommit c) trivial (fun k _ => ?_) fun e _ => h
      exact v.wp_commitTree_fit h k.tree hc
    | none =>
      have hnew : Tree.new.wireSize ≤ maxBlobBytes := by decide
      refine wp_seq (wp_saveTree_fit h hnew) (fun t w₁ _ h₁ => ?_) fun e w₁ _ h₁ => h₁
      exact v.wp_commitTree_fit h₁ t hc
  have hbooks : ∀ {α : Type} {x : Action α} (w₁ : VaultWorld), Confined Registry x →
      BlobsFit w₁.fs → wp env (fun _ => True) x (fun _ w' => BlobsFit w'.fs) w₁ := by
    intro α x w₁ hx h₁
    refine (hx.wp w₁).mono (fun _ _ => trivial) fun _ w' hw _ => h₁.congr fun p hp => hw.frame p ?_
    rintro (rfl | rfl | rfl | rfl) <;> exact hp rfl
  unfold Vault.snapshot
  refine wp_seq hcommit (fun c w₁ _ h₁ => ?_) fun e w₁ _ h₁ => h₁
  refine wp_seq (hbooks w₁ (confined_okOrNone (confined_registerSnapshot c message false)) h₁)
    (fun _ w₂ _ h₂ => ?_) fun e w₂ _ h₂ => h₂
  refine wp_seq (hbooks w₂ (confined_okOrNone (confined_loadPolicy v.config)) h₂)
    (fun pol w₃ _ h₃ => ?_) fun e w₃ _ h₃ => h₃
  cases pol with
  | none => exact ⟨trivial, h₃⟩
  | some pol =>
    exact wp_seq (hbooks w₃ (confined_okOrNone (confined_applyRetention pol)) h₃)
      (fun _ w₄ _ h₄ => ⟨trivial, h₄⟩) fun e w₄ _ h₄ => h₄

theorem Vault.wp_mergeHead_fit (v : Vault) (h : BlobsFit w.fs) (remoteHead : ContentHash)
    (label : String) (hfits : (MakeCommand.mergeHead remoteHead label).Fits v env w.fs) :
    wp env (fun _ => True) (v.mergeHead remoteHead label) (fun _ w' => BlobsFit w'.fs) w := by
  unfold Vault.mergeHead
  refine wp_read (x := loadCommit remoteHead) trivial (fun _ _ => ?_) fun e _ => h
  refine wp_read (x := loadCommit remoteHead) trivial (fun k hk => ?_) fun e _ => h
  refine wp_read (x := loadTree k.tree) trivial (fun theirs htheirs => ?_) fun e _ => h
  refine wp_read (x := head) trivial (fun l hl => ?_) fun e _ => h
  refine wp_read (x := treeOfHead l) trivial (fun ours hours => ?_) fun e _ => h
  obtain ⟨ht, hc⟩ := hfits k theirs l ours hk htheirs hl hours
  refine wp_seq (wp_saveTree_fit h ht) (fun t w₁ _ h₁ => ?_) fun e w₁ _ h₁ => h₁
  refine wp_seq (v.wp_commitTree_fit h₁ t hc) (fun c w₂ _ h₂ => ?_) fun e w₂ _ h₂ => h₂
  refine wp_write trivial trivial ⟨trivial, h₂.congr fun p hp => ?_⟩
  rw [World.lookup_written, if_neg]
  rintro rfl
  exact hp rfl

end Fit

/-! ## §5. What is collected, provided and fetched. -/

section Items

variable {fs : VaultFs} {s s' : Provided} {Q : ContentHash → Bytes → Prop}

/-- Every collected blob satisfies `Q`. -/
def Provided.AllItems (s : Provided) (Q : ContentHash → Bytes → Prop) : Prop :=
  ∀ x ∈ s.out, Q x.1 x.2

omit [Crates] in
theorem Provided.AllItems.push (hs : s.AllItems Q) {h : ContentHash} {b : Bytes} (hb : Q h b) :
    (s.push h b).AllItems Q := by
  intro x hx
  rcases List.mem_append.1 hx with hx | hx
  · exact hs x hx
  · obtain rfl := List.mem_singleton.1 hx
    exact hb

theorem provideChunks_all (hchunk : ∀ ch b, ReadM.eval fs (exportStoredChunk ch) = .ok b → Q ch b)
    {chs : List ContentHash} (hs : s.AllItems Q)
    (hok : ReadM.eval fs (provideChunks s chs) = .ok s') : s'.AllItems Q := by
  induction chs generalizing s with
  | nil =>
    obtain rfl := Except.ok.inj hok
    exact hs
  | cons ch chs ih =>
    rw [provideChunks, ReadM.eval_bind] at hok
    obtain ⟨s₁, h₁, hok⟩ := bind_ok_iff.1 hok
    refine ih ?_ hok
    unfold provideChunk at h₁
    split at h₁
    next =>
      obtain rfl := Except.ok.inj h₁
      exact hs
    next =>
      rw [ReadM.eval_bind, okOrNone, ReadM.eval_handle] at h₁
      cases hexp : ReadM.eval fs (exportStoredChunk ch) with
      | ok b =>
        rw [hexp] at h₁
        obtain rfl := Except.ok.inj h₁
        exact hs.push (hchunk ch b hexp)
      | error e =>
        rw [hexp] at h₁
        cases e with
        | err e =>
          obtain rfl := Except.ok.inj h₁
          exact hs
        | panic => cases h₁

/-- **What is collected was exported.** -/
theorem provideWalk_all (hcommit : ∀ c b, ReadM.eval fs (exportCommitBytes c) = .ok b → Q c b)
    (htree : ∀ t b, ReadM.eval fs (exportTreeBytes t) = .ok b → Q t b)
    (hchunk : ∀ ch b, ReadM.eval fs (exportStoredChunk ch) = .ok b → Q ch b)
    {seen : Finset ContentHash} {queue : List ContentHash} {out : Provided} (hs : s.AllItems Q)
    (hok : ReadM.eval fs (provideWalk seen s queue) = .ok out) : out.AllItems Q := by
  induction seen, s, queue using provideWalk.induct with
  | case1 seen s =>
    rw [provideWalk] at hok
    obtain rfl := Except.ok.inj hok
    exact hs
  | case2 seen s cid queue hmem ih =>
    rw [eval_provideWalk_seen hmem] at hok
    exact ih hs hok
  | case3 seen s cid queue hmem hdeep =>
    rw [eval_provideWalk_deep hmem hdeep] at hok
    cases hok
  | case4 seen s cid queue hmem hdeep ih ih' =>
    by_cases hp : commitKind.Present fs cid
    · rw [eval_provideWalk_present hmem hdeep hp] at hok
      obtain ⟨⟨s₁, parents⟩, h₁, hok⟩ := bind_ok_iff.1 hok
      obtain ⟨bytes, k, hb, hk, rfl, ht⟩ := provideCommit_ok_iff.1 h₁
      refine ih s₁ k.parents ?_ hok
      have hwith : (s.withCommit cid bytes).AllItems Q := by
        unfold Provided.withCommit
        split
        next => exact hs
        next => exact hs.push (hcommit cid bytes hb)
      by_cases hnew : treeKind.Present fs k.tree ∧ k.tree ∉ (s.withCommit cid bytes).seenBlobs
      · rw [eval_provideTree_new hnew.1 hnew.2] at ht
        obtain ⟨tb, htb, ht⟩ := bind_ok_iff.1 ht
        obtain ⟨tree, -, ht⟩ := bind_ok_iff.1 ht
        exact provideChunks_all hchunk (hwith.push (htree _ tb htb)) ht
      · rw [eval_provideTree_skip hnew] at ht
        obtain rfl := Except.ok.inj ht
        exact hwith
    · rw [eval_provideWalk_absent hmem hdeep hp] at hok
      exact ih' hs hok

/-- Over blobs that fit, an export is the wire file. -/
theorem BlobsFit.export {α : Type} {K : ObjectKind α} (h : BlobsFit fs)
    (hK : K.dir = .commits ∨ K.dir = .trees) {hash : ContentHash} {b : Bytes}
    (hb : ReadM.eval fs (K.exportBytes hash) = .ok b) :
    b.length ≤ maxBlobBytes ∧ ContentHash.of b = hash := by
  refine ⟨?_, ObjectKind.hash_of_export hb⟩
  have hserv : K.Servable fs hash := K.exports_iff_servable.1 (K.exports_of_ok hb)
  cases hold : fs.lookup (K.pathBin hash) with
  | some old =>
    rw [K.servable_bin hold] at hserv
    rw [K.eval_exportBytes_bin hold, if_pos hserv] at hb
    obtain rfl := Except.ok.inj hb
    exact (h.object _ old hK hold).2
  | none =>
    -- there is no legacy file
    unfold ObjectKind.Servable at hserv
    rw [hold] at hserv
    obtain ⟨data, -, hj, -⟩ := hserv
    obtain ⟨⟨x, hx⟩, -⟩ := h.object _ data hK hj
    rcases hx with hx | hx <;> simp [ObjectKind.pathJson, commitPathBin, treePathBin] at hx

/-- A blob that neither end of a transfer rejects. -/
def Transferable (h : ContentHash) (b : Bytes) : Prop :=
  b.length ≤ maxBlobBytes ∧ ContentHash.of b = h

theorem BlobsFit.collect (h : BlobsFit fs) {c : ContentHash} {items : List (ContentHash × Bytes)}
    (hitems : ReadM.eval fs (collectProvideHashes c) = .ok items) :
    ∀ x ∈ items, Transferable x.1 x.2 := by
  unfold collectProvideHashes at hitems
  rw [ReadM.eval_bind] at hitems
  obtain ⟨out, hout, hitems⟩ := bind_ok_iff.1 hitems
  obtain rfl := Except.ok.inj hitems
  refine provideWalk_all (fun c b hb => ?_) (fun t b hb => ?_) (fun ch b hb => ?_) ?_ hout
  · exact h.export (K := commitKind) (.inl rfl) hb
  · exact h.export (K := treeKind) (.inr rfl) hb
  · obtain ⟨hl, hh⟩ := exportStoredChunk_ok_iff.1 hb
    exact ⟨h.chunk ch b hl, hh⟩
  · exact fun x hx => by cases hx

/-- Providing transferable blobs only waits for the blob store. -/
theorem run_provideMany {env : Outside} (henv : ∀ n data, env n (.addBytes data) = .ok ())
    {items : List (ContentHash × Bytes)} (hitems : ∀ x ∈ items, Transferable x.1 x.2)
    (w : VaultWorld) : (run env (provideMany items) w).1 = .ok items.length := by
  have hrule : wp env (fun _ => True) (provideMany items) (fun r _ => r = .ok items.length) w := by
    induction items generalizing w with
    | nil => exact ⟨trivial, rfl⟩
    | cons x items ih =>
      obtain ⟨h, data⟩ := x
      obtain ⟨hlen, hh⟩ := hitems (h, data) List.mem_cons_self
      have hone : wp env (fun _ => True) (provide h data) (fun r _ => r = .ok ()) w := by
        unfold provide
        rw [if_neg (Nat.not_lt.2 hlen), if_neg (not_not.2 hh)]
        refine wp_answer trivial ?_
        rw [henv]
        exact ⟨trivial, rfl⟩
      refine wp_seq hone (fun _ w₁ _ _ => ?_) fun e _ _ he => by cases he
      refine wp_seq (ih (fun x hx => hitems x (List.mem_cons_of_mem _ hx)) w₁)
        (fun n w₂ _ hn => ⟨trivial, ?_⟩) fun e _ _ he => by cases he
      obtain rfl := Except.ok.inj hn
      rfl
  exact hrule.post

/-- Fetching a transferable blob only waits for the peer. -/
theorem run_getBlob {env : Outside} {peer : String} {h : ContentHash} {b : Bytes}
    (hb : Transferable h b) {w : VaultWorld} (hserved : env w.tick (.getBlob peer h) = .ok b) :
    (run env (getChunkFromPeer peer h) w).1 = .ok b := by
  have hrule : wp env (fun _ => True) (getChunkFromPeer peer h) (fun r _ => r = .ok b) w := by
    refine wp_answer trivial ?_
    rw [hserved]
    show wp env _ (if _ then _ else _) _ _
    rw [if_neg (Nat.not_lt.2 hb.1), if_neg (not_not.2 hb.2)]
    exact ⟨trivial, rfl⟩
  exact hrule.post

end Items

/-! ## §6. Whole runs. -/

/-- One successful operation that meets the condition `safe`. -/
inductive MakeStep (safe : Vault → Outside → VaultFs → MakeCommand → Prop) (fs : VaultFs) :
    VaultFs → Prop
  | mk (v : Vault) (env : Outside) (cmd : MakeCommand) (hsafe : safe v env fs cmd)
      (hok : cmd.Succeeds v env fs) : MakeStep safe fs (cmd.after v env fs)

/-- The directories that runs of successful operations lead to, from a fresh one. -/
abbrev Grown (safe : Vault → Outside → VaultFs → MakeCommand → Prop) : VaultFs → Prop :=
  Reachable (MakeStep safe) Fresh

/-- Neither end of a transfer rejects what is collected for the commit. -/
def SizesAgree (fs : VaultFs) (c : ContentHash) : Prop :=
  ∀ items, ReadM.eval fs (collectProvideHashes c) = .ok items →
    (∀ x ∈ items, x.2.length ≤ maxBlobBytes) ∧
    (∀ (env : Outside) (w : VaultWorld), (∀ n data, env n (.addBytes data) = .ok ()) →
      (run env (provideMany items) w).1 = .ok items.length) ∧
    ∀ x ∈ items, ∀ (env : Outside) (w : VaultWorld) (peer : String),
      env w.tick (.getBlob peer x.1) = .ok x.2 →
        (run env (getChunkFromPeer peer x.1) w).1 = .ok x.2

section Runs

variable {fs fs' : VaultFs}

/-- **One operation** whose tree and message fit. -/
theorem BlobsFit.step (hcdc : FastcdcTiles) (hmax : FastcdcBounded) (haead : AeadCorrect)
    (h : BlobsFit fs) (hstep : MakeStep MakeCommand.Fits fs fs') : BlobsFit fs' := by
  cases hstep with
  | mk v env cmd hsafe hok =>
    have h : BlobsFit (World.boot fs).fs := h
    cases cmd with
    | addPath source baseName =>
      exact (v.wp_addPath_fit hcdc hmax haead h source baseName hsafe).post
    | snapshot message => exact (v.wp_snapshot_fit h message hsafe).post
    | mergeHead remoteHead label => exact (v.wp_mergeHead_fit h remoteHead label hsafe).post

/-- **Size limits are consistent**: in every state of a run of successful adds, snapshots and merges
that are each given a tree and a message that fit, whatever is collected for a commit fits, is
provided and is accepted by the peer that fetches it. -/
theorem grown_sizes_agree (hcdc : FastcdcTiles) (hmax : FastcdcBounded) (haead : AeadCorrect)
    (hreach : Grown MakeCommand.Fits fs) (c : ContentHash) : SizesAgree fs c := by
  have hfit : BlobsFit fs := hreach.induct (fun _ hfresh => hfresh.blobsFit)
    fun _ _ h hstep => h.step hcdc hmax haead hstep
  intro items hitems
  have hall := hfit.collect hitems
  refine ⟨fun x hx => (hall x hx).1, fun env w henv => run_provideMany henv hall w, ?_⟩
  exact fun x hx env w peer hserved => run_getBlob (hall x hx) hserved

end Runs

/-! ## §7. A first snapshot. -/

section FirstSnapshot

variable {w w₁ : VaultWorld} {env : Outside} {v : Vault} {c : ContentHash} {message : String}
  {bytes : Bytes}

/-- The commit of a first snapshot, without a node identity. -/
def openingCommit (env : Outside) (message : String) : Commit where
  tree := .of wireE
  parents := []
  author := "soal-local"
  timestamp := env 0 .now
  message
  protocolVersion := .ofNat protocolVersion
  signature := none

theorem run_snapshotCommit_first (hv : v.soalHome = none)
    (hb : encodeCommitWire (openingCommit env message) = .ok bytes) :
    run env (v.snapshotCommit message) (World.boot ∅) = (.ok (.of bytes),
      committed ((World.boot ∅).written (treePathBin (.of wireE)) wireE).asked (.of bytes) bytes) := by
  obtain ⟨config, key, soalHome⟩ := v
  subst hv
  have hhead : ReadM.eval (World.boot (∅ : VaultFs)).fs head = .ok none :=
    eval_head_absent (AList.notMem_empty _)
  unfold Vault.snapshotCommit
  refine (run_read_ok (x := head) hhead).trans ?_
  refine (run_bind_ok (v := (World.boot ∅).written (treePathBin (.of wireE)) wireE)
    (a := .of wireE) rfl).trans ?_
  unfold Vault.commitTree
  refine (run_bind_ok (v := ((World.boot ∅).written (treePathBin (.of wireE)) wireE).asked)
    (a := openingCommit env message) rfl).trans ?_
  refine (run_bind_ok (v := (((World.boot ∅).written (treePathBin (.of wireE)) wireE).asked).written
    (commitPathBin (.of bytes)) bytes) (a := .of bytes) ?_).trans rfl
  unfold saveCommit ObjectKind.save ObjectKind.hash
  refine (run_compute_ok (a := .of bytes) ?_).trans ((run_compute_ok (a := bytes) ?_).trans rfl)
  · exact congrArg (Except.map ContentHash.of) hb
  · exact hb

/-- A commit of the empty tree is collected. -/
theorem first_collect {fs : VaultFs} {k : Commit} (hb : encodeCommitWire k = .ok bytes)
    (hp : k.parents = []) (ht : k.tree = .of wireE)
    (hc : fs.lookup (commitPathBin (.of bytes)) = some bytes)
    (hl : fs.lookup (treePathBin (.of wireE)) = some wireE) :
    ∃ items, ReadM.eval fs (collectProvideHashes (.of bytes)) = .ok items ∧
      (.of bytes, bytes) ∈ items := by
  have hload : ReadM.eval fs (loadCommit (.of bytes)) = .ok k.normal := eval_loadCommit_saved hb hc
  have htree : ReadM.eval fs (loadTree (.of wireE)) = .ok Tree.new :=
    eval_loadTree_saved encodeTreeWire_new (fun p hp => by cases hp) hl
  have hpc : commitKind.Present fs (.of bytes) := .inl (Fs.mem_iff_lookup.2 ⟨_, hc⟩)
  have hpt : treeKind.Present fs (.of wireE) := .inl (Fs.mem_iff_lookup.2 ⟨_, hl⟩)
  have hexc : ReadM.eval fs (exportCommitBytes (.of bytes)) = .ok bytes :=
    (commitKind.eval_exportBytes_bin hc).trans (if_pos rfl)
  have hext : ReadM.eval fs (exportTreeBytes (.of wireE)) = .ok wireE :=
    (treeKind.eval_exportBytes_bin hl).trans (if_pos rfl)
  have hown : (ContentHash.of bytes, bytes) ∈
      (Provided.withCommit ⟨∅, []⟩ (.of bytes) bytes).out := by
    unfold Provided.withCommit
    rw [if_neg (Finset.notMem_empty _)]
    exact List.mem_singleton.2 rfl
  obtain ⟨s', hs', hmem⟩ : ∃ s', ReadM.eval fs (provideTree
      (Provided.withCommit ⟨∅, []⟩ (.of bytes) bytes) k.normal.tree) = .ok s' ∧
        (ContentHash.of bytes, bytes) ∈ s'.out := by
    rw [k.normal_tree, ht]
    by_cases hseen : ContentHash.of wireE ∈
        (Provided.withCommit ⟨∅, []⟩ (.of bytes) bytes).seenBlobs
    · exact ⟨_, eval_provideTree_skip fun h => h.2 hseen, hown⟩
    · rw [eval_provideTree_new hpt hseen, hext, ok_bind, htree, ok_bind]
      exact ⟨_, rfl, List.mem_append_left _ hown⟩
  refine ⟨s'.out, ?_, hmem⟩
  unfold collectProvideHashes
  have hone : ¬(insert (ContentHash.of bytes) ∅ : Finset ContentHash).card > maxJobCommits := by
    rw [insert_empty_eq, Finset.card_singleton]
    decide
  rw [ReadM.eval_bind, eval_provideWalk_present (Finset.notMem_empty _) hone hpc,
    provideCommit_ok_iff.2 ⟨bytes, _, hexc, hload, rfl, hs'⟩, ok_bind]
  dsimp only
  rw [k.normal_parents, hp]
  show (ReadM.eval fs (provideWalk (insert _ ∅) s' [])).bind _ = _
  rw [provideWalk]
  rfl

/-- **After a first snapshot**: it succeeds, and its commit is collected. -/
theorem first_snapshot (hv : v.soalHome = none)
    (hb : encodeCommitWire (openingCommit env message) = .ok bytes) :
    (MakeCommand.snapshot message).Succeeds v env ∅ ∧
      ReadM.eval ((MakeCommand.snapshot message).after v env ∅) head = .ok (some (.of bytes)) ∧
      ∃ items, ReadM.eval ((MakeCommand.snapshot message).after v env ∅)
          (collectProvideHashes (.of bytes)) = .ok items ∧ (ContentHash.of bytes, bytes) ∈ items := by
  have hrule : wp env (fun _ => True) (v.snapshot message) _ (World.boot (∅ : VaultFs)) :=
    wp_snapshot_returns (run_snapshotCommit_first hv hb)
  obtain ⟨hok, hw⟩ := hrule.post
  have hframe : ∀ p : FilePath VaultDir, ¬Registry p →
      ((MakeCommand.snapshot message).after v env ∅).lookup p =
        (committed ((World.boot ∅).written (treePathBin (.of wireE)) wireE).asked (.of bytes)
          bytes).fs.lookup p := fun p hp => hw.frame p hp
  have hdir : ∀ p : FilePath VaultDir, p.dir ≠ .root → ¬Registry p := by
    rintro p hp (rfl | rfl | rfl | rfl) <;> exact hp rfl
  refine ⟨⟨_, hok⟩, ?_, first_collect hb rfl rfl ?_ ?_⟩
  · refine (eval_head_congr (hframe headFile ?_)).trans eval_head_committed
    unfold Registry
    decide
  · rw [hframe _ (hdir _ (by simp [commitPathBin])), lookup_committed (by simp [commitPathBin, headFile]),
      if_pos rfl]
  · rw [hframe _ (hdir _ (by simp [treePathBin])), lookup_committed (by simp [treePathBin, headFile]),
      if_neg (by simp [treePathBin, commitPathBin])]
    show ((World.boot ∅).written (treePathBin (.of wireE)) wireE).fs.lookup _ = _
    rw [World.lookup_written, if_pos rfl]

end FirstSnapshot

end Model

/-! ## §8. A message of 16 MiB. -/

section Sample

attribute [local instance] sample

/-- A message as long as a blob may be. -/
def longMessage : String := String.ofList (List.replicate maxBlobBytes 'a')

theorem toUtf8_replicate (n : Nat) :
    (Text.toUtf8 (String.ofList (List.replicate n 'a'))).length = n := by
  have hsize : ∀ n, (List.replicate n 'a').utf8Encode.size = n := by
    intro n
    induction n with
    | zero => rfl
    | succ n ih =>
      have hone : ['a'].utf8Encode.size = 1 := by
        rw [List.utf8Encode_singleton]
        rfl
      rw [List.replicate_succ, List.utf8Encode_cons, ByteArray.size_append, ih, hone]
      omega
  unfold Text.toUtf8
  rw [String.toByteArray_ofList, Array.length_toList]
  exact hsize n

theorem longMessage_length : (Text.toUtf8 longMessage).length = maxBlobBytes := toUtf8_replicate _

/-- A snapshot with a message of 16 MiB gives a commit that cannot be provided. -/
theorem long_message_rejected : ¬∀ (fs : VaultFs) (c : ContentHash),
    Grown (fun _ _ _ _ => True) fs → ReadM.eval fs head = .ok (some c) → SizesAgree fs c := by
  intro hall
  have hm : (Text.toUtf8 longMessage).length < 2 ^ 62 := by
    rw [longMessage_length]
    decide
  obtain ⟨bytes, hb⟩ := encodeCommitWire_ok (c := openingCommit (quiet 0) longMessage) (by decide) hm
  have hv : plainVault.soalHome = none := rfl
  obtain ⟨hok, hhead, items, hitems, hmem⟩ := first_snapshot hv hb
  have hreach : Grown (fun _ _ _ _ => True)
      ((MakeCommand.snapshot longMessage).after plainVault (quiet 0) ∅) :=
    (Reachable.root empty_fresh).step (.mk plainVault (quiet 0) _ trivial hok)
  have hlen : bytes.length ≤ maxBlobBytes := ((hall _ _ hreach hhead) items hitems).1 _ hmem
  have hsize := encodeCommitWire_length hb rfl
  have htext : (openingCommit (quiet 0) longMessage).message = longMessage := rfl
  rw [htext, commitSize, textSize, longMessage_length] at hsize
  omega

end Sample

section CutSample

/-- The stand-in with data beyond the maximum size cut to pieces. -/
@[reducible] noncomputable def cutSample : Crates :=
  { sample with
    fastcdc := fun data _ _ max => if data.length ≤ max.toNat then [(0, data.length)]
      else (List.range' 0 data.length).map fun start => (start, 1) }

attribute [local instance] cutSample

theorem tiles_pieces (n start : Nat) :
    Tiles (start + n) start ((List.range' start n).map fun start => (start, 1)) := by
  induction n generalizing start with
  | zero => rfl
  | succ n ih =>
    have hrest := ih (start + 1)
    rw [show start + 1 + n = start + (n + 1) by omega] at hrest
    exact ⟨rfl, hrest⟩

theorem cutSample_tiles : FastcdcTiles := by
  intro data min avg max
  show Tiles data.length 0 (if _ then _ else _)
  split
  next => exact ⟨rfl, Nat.zero_add _⟩
  next =>
    have h := tiles_pieces data.length 0
    rwa [Nat.zero_add] at h

theorem cutSample_bounded : FastcdcBounded := by
  intro data min avg max hmax entry hentry
  have hentry : entry ∈ if data.length ≤ max.toNat then [(0, data.length)]
      else (List.range' 0 data.length).map fun start => (start, 1) := hentry
  have hmax : 1024 ≤ max.toNat := hmax
  split at hentry
  next h =>
    obtain rfl := List.mem_singleton.1 hentry
    exact h
  next =>
    obtain ⟨start, -, rfl⟩ := List.mem_map.1 hentry
    show 1 ≤ max.toNat
    omega

theorem cutSample_aeadCorrect : AeadCorrect :=
  ⟨@AeadCorrect.opens sample sample_aeadCorrect, @AeadCorrect.tag sample sample_aeadCorrect⟩

/-- The rule after a first snapshot with a short message. -/
theorem short_message_sizes_agree : ∃ c,
    ReadM.eval ((MakeCommand.snapshot "a").after plainVault (quiet 0) ∅) head = .ok (some c) ∧
      SizesAgree ((MakeCommand.snapshot "a").after plainVault (quiet 0) ∅) c := by
  obtain ⟨bytes, hb⟩ := encodeCommitWire_ok (c := openingCommit (quiet 0) "a") (by decide) (by decide)
  have hv : plainVault.soalHome = none := rfl
  obtain ⟨hok, hhead, -⟩ := first_snapshot hv hb
  have hfits : (MakeCommand.snapshot "a").Fits plainVault (quiet 0) ∅ := by
    intro l hl n
    obtain rfl := Except.ok.inj (empty_fresh.head.symm.trans hl)
    show commitSize "a" 0 0 ≤ maxBlobBytes
    decide
  exact ⟨_, hhead, grown_sizes_agree cutSample_tiles cutSample_bounded cutSample_aeadCorrect
    ((Reachable.root empty_fresh).step (.mk plainVault (quiet 0) _ hfits hok)) _⟩

end CutSample

end Soal

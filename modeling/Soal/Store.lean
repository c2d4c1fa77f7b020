/-
  Soal.Store — the files of a vault, and the content-addressed chunk store.

  Every `put` verifies `BLAKE3(data) == hash` and goes through a temporary file and a rename; `get`
  verifies on read.
-/
import Soal.Crates

namespace Soal

open FileProg

/-! ## §1. File names. -/

/-- `{hash}{ext}` -/
def hexName (h : ContentHash) (ext : String) : String := h.toHex ++ ext

@[simp] theorem hexName_inj {h h' : ContentHash} {e e' : String} :
    hexName h e = hexName h' e' ↔ h = h' ∧ e = e' := by
  constructor
  · intro heq
    have hl := congrArg String.toList heq
    simp only [hexName, String.toList_append, ContentHash.toHex_toList] at hl
    obtain ⟨h₁, h₂⟩ := List.append_inj hl (by simp)
    exact ⟨ContentHash.toHexChars_injective h₁, String.toList_inj.1 h₂⟩
  · rintro ⟨rfl, rfl⟩
    rfl

/-- `HEAD` -/
def headFile : FilePath VaultDir := ⟨.root, "HEAD"⟩

/-- `HEADS` -/
def headsFile : FilePath VaultDir := ⟨.root, "HEADS"⟩

def chunkPath (h : ContentHash) : FilePath VaultDir := ⟨.chunks, hexName h ".chunk"⟩

/-- `path.with_extension("chunk.tmp")` -/
def chunkTmp (h : ContentHash) : FilePath VaultDir := ⟨.chunks, hexName h ".chunk.tmp"⟩

def commitPathBin (h : ContentHash) : FilePath VaultDir := ⟨.commits, hexName h ".bin"⟩

def commitPathJson (h : ContentHash) : FilePath VaultDir := ⟨.commits, hexName h ".json"⟩

def treePathBin (h : ContentHash) : FilePath VaultDir := ⟨.trees, hexName h ".bin"⟩

def treePathJson (h : ContentHash) : FilePath VaultDir := ⟨.trees, hexName h ".json"⟩

/-! ## §2. Reading files. -/

section Files

variable {δ : Type} [DecidableEq δ]

/-- `fs::read(path)?` -/
def readFile (p : FilePath δ) : ReadM δ Fault Bytes := do
  match ← ReadM.read p with
  | some b => return b
  | none => abort .notFound

/-- `fs::read_to_string(path)?` -/
def readToString (p : FilePath δ) : ReadM δ Fault String := do
  let b ← readFile p
  match Text.fromUtf8 b with
  | some s => return s
  | none => abort .notUtf8

/-- `fs::rename(p, q)?` -/
def renameFile (p q : FilePath δ) : FileM δ outside Fault Unit := do
  let found ← change (.rename p q)
  if found then pure () else abort .notFound

/-- `fs::remove_file(p)?` -/
def removeFile (p : FilePath δ) : FileM δ outside Fault Unit := do
  let found ← change (.remove p)
  if found then pure () else abort .notFound

/-- Write a temporary file, then rename it over the target. -/
def writeRename (tmp p : FilePath δ) (b : Bytes) : FileM δ outside Fault Unit := do
  writeFile tmp b
  renameFile tmp p

section Rules

variable {fs : Fs δ} {env : Outside} {I : World δ → Prop} {w : World δ}

@[simp] theorem eval_abort {α : Type} (e : SoalError) : ReadM.eval fs (abort e : ReadM δ Fault α) = fail e :=
  rfl

theorem eval_readFile_some {p : FilePath δ} {b : Bytes} (h : fs.lookup p = some b) :
    ReadM.eval fs (readFile p) = .ok b := by
  simp [readFile, h]

theorem eval_readFile_none {p : FilePath δ} (h : fs.lookup p = none) :
    ReadM.eval fs (readFile p) = fail .notFound := by
  simp [readFile, h]

theorem eval_readToString_some {p : FilePath δ} {b : Bytes} (h : fs.lookup p = some b) :
    ReadM.eval fs (readToString p) = match Text.fromUtf8 b with
      | some s => .ok s
      | none => fail .notUtf8 := by
  unfold readToString
  rw [ReadM.eval_bind, eval_readFile_some h, ok_bind]
  split <;> rfl

theorem eval_readToString_text {p : FilePath δ} {s : String}
    (h : fs.lookup p = some (Text.toUtf8 s)) : ReadM.eval fs (readToString p) = .ok s := by
  rw [eval_readToString_some h, Text.fromUtf8_toUtf8]

theorem eval_readToString_none {p : FilePath δ} (h : fs.lookup p = none) :
    ReadM.eval fs (readToString p) = fail .notFound := by
  unfold readToString
  rw [ReadM.eval_bind, eval_readFile_none h]
  rfl

/-- Reading a file looks at that file. -/
theorem eval_readToString_congr {fs' : Fs δ} {p : FilePath δ}
    (h : fs'.lookup p = fs.lookup p) :
    ReadM.eval fs' (readToString p) = ReadM.eval fs (readToString p) := by
  cases hp : fs.lookup p with
  | some b => rw [eval_readToString_some hp, eval_readToString_some (h.trans hp)]
  | none => rw [eval_readToString_none hp, eval_readToString_none (h.trans hp)]

theorem mem_congr {fs' : Fs δ} {p : FilePath δ} (h : fs'.lookup p = fs.lookup p) :
    p ∈ fs' ↔ p ∈ fs := by
  rw [Fs.mem_iff_lookup, Fs.mem_iff_lookup, h]

theorem wp_removeFile {p : FilePath δ} {P : Res Unit → World δ → Prop} (h : p ∈ w.fs) :
    wp env I (removeFile p) P w ↔
      I w ∧ I (w.change (.remove p)) ∧ P (.ok ()) (w.change (.remove p)) := by
  unfold removeFile
  rw [wp_bind, wp_change]
  simp only [WriteOp.apply, h, if_true]
  constructor
  · rintro ⟨h₁, h₂, h₃⟩
    exact ⟨h₁, h₂, h₃.2⟩
  · rintro ⟨h₁, h₂, h₃⟩
    exact ⟨h₁, h₂, h₂, h₃⟩

/-- Remove a file that is there, then go on. -/
theorem wp_remove {α : Type} {p : FilePath δ} {f : Unit → FileM δ outside Fault α}
    {P : Res α → World δ → Prop} (hp : p ∈ w.fs) (hI : I w)
    (h : wp env I (f ()) P (w.change (.remove p))) : wp env I (removeFile p >>= f) P w := by
  rw [wp_bind, wp_removeFile hp]
  exact ⟨hI, h.here, h⟩

/-- The world after a temporary file was written and renamed. -/
def renamed (w : World δ) (tmp p : FilePath δ) (b : Bytes) : World δ :=
  (w.written tmp b).change (.rename tmp p)

theorem wp_writeRename {tmp p : FilePath δ} {b : Bytes} {P : Res Unit → World δ → Prop} :
    wp env I (writeRename tmp p b) P w ↔ I w ∧ I (w.change (.truncate tmp)) ∧ I (w.written tmp b) ∧
      I (renamed w tmp p b) ∧ P (.ok ()) (renamed w tmp p b) := by
  have hb : (w.written tmp b).fs.lookup tmp = some b := by rw [World.lookup_written, if_pos rfl]
  have ha : (WriteOp.apply (w.written tmp b).fs (.rename tmp p)).1 = true := by
    simp only [WriteOp.apply, hb]
  unfold writeRename
  rw [wp_bind, wp_writeFile]
  show I w ∧ I _ ∧ I _ ∧ wp env I (renameFile tmp p) P (w.written tmp b) ↔ _
  unfold renameFile
  rw [wp_bind, wp_change]
  simp only [ha, if_true]
  constructor
  · rintro ⟨h₁, h₂, h₃, -, h₅, h₆⟩
    exact ⟨h₁, h₂, h₃, h₅, h₆.2⟩
  · rintro ⟨h₁, h₂, h₃, h₄, h₅⟩
    exact ⟨h₁, h₂, h₃, h₃, h₄, h₄, h₅⟩

@[simp] theorem renamed_log (tmp p : FilePath δ) (b : Bytes) :
    (renamed w tmp p b).log = .rename tmp p :: .write tmp b :: .truncate tmp :: w.log := rfl

/-- The target holds the bytes, the temporary file is gone, every other file is unchanged. -/
theorem lookup_renamed {tmp p : FilePath δ} {b : Bytes} (q : FilePath δ) :
    (renamed w tmp p b).fs.lookup q =
      if q = p then some b else if q = tmp then none else w.fs.lookup q := by
  have hb : (w.written tmp b).fs.lookup tmp = some b := by rw [World.lookup_written, if_pos rfl]
  show (WriteOp.apply (w.written tmp b).fs (.rename tmp p)).2.lookup q = _
  simp only [WriteOp.apply, hb, Fs.rename]
  split
  next h => rw [h, AList.lookup_insert]
  next h =>
    rw [AList.lookup_insert_ne h]
    split
    next h' => rw [h', AList.lookup_erase]
    next h' => rw [AList.lookup_erase_ne h', World.lookup_written, if_neg h']

end Rules

end Files

/-! ## §3. The chunk store. -/

variable [Crates]

namespace ChunkStore

/-- Check existence (does not verify content). -/
def existsChunk (hash : ContentHash) : Reads Bool := ReadM.pathExists (chunkPath hash)

/-- `ChunkStore::put_verified`: `true` if newly written, `false` if already present with identical
bytes. -/
def putVerified (hash : ContentHash) (data : Bytes) : Action Bool := do
  if ContentHash.of data ≠ hash then abort (.mismatch hash (.of data))
  else if ← existsChunk hash then
    let existing ← readFile (chunkPath hash)
    if existing ≠ data then abort (.cidCollision hash.toHex) else return false
  else
    writeRename (chunkTmp hash) (chunkPath hash) data
    return true

/-- Retrieve stored bytes, verifying the content hash. -/
def get (hash : ContentHash) : Reads Bytes := do
  if ← existsChunk hash then
    let buf ← readFile (chunkPath hash)
    if ContentHash.of buf ≠ hash then abort (.mismatch hash (.of buf)) else return buf
  else abort (.chunkNotFound hash.toHex)

/-- The hash a file name of the chunk directory stands for. -/
def hashOfName (name : String) : Option ContentHash :=
  if ".chunk".toList.isSuffixOf name.toList then
    (ContentHash.fromHexChars (name.toList.take (name.toList.length - 6))).toOption
  else none

/-- List all chunk hashes. -/
def list : Reads (List ContentHash) := do
  return (← ReadM.readDir .chunks).filterMap hashOfName

end ChunkStore

end Soal

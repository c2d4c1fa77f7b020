/-
  Soal.Paths — logical vault paths: normalisation, validation, conflict-copy names.

  Paths are `/`-separated.  The functions work on the characters of a path; `String` versions carry
  the source's signatures.
-/
import Soal.Crates

namespace Soal

/-! ## §1. Normalisation and validation. -/

/-- `trim_start_matches("./")` -/
def trimStartDotSlash : List Char → List Char
  | '.' :: '/' :: s => trimStartDotSlash s
  | s => s

/-- Normalize path separators to `/`, strip leading `./` and surrounding `/`. -/
def normalizePath (path : List Char) : List Char :=
  let s := path.map (fun c => if c = '\\' then '/' else c)
  let s := trimStartDotSlash s
  (s.dropWhile (· = '/')).rdropWhile (· = '/')

/-- A Windows drive prefix. -/
def hasDrivePrefix : List Char → Bool
  | c :: ':' :: _ => c.isAlpha
  | _ => false

/-- The check of one segment. -/
def validateSegment (seg : List Char) : Res Unit :=
  if seg.isEmpty then fail (.invalidPath "empty path segment")
  else if seg = ['.'] ∨ seg = ['.', '.'] then
    fail (.invalidPath ("illegal segment '" ++ String.ofList seg ++ "'"))
  else .ok ()

/-- Validate a logical vault path (INV-PATH-01). -/
def validatePathChars (path : List Char) : Res Unit :=
  if path.isEmpty then fail (.invalidPath "empty path")
  else if path.contains '\x00' then fail (.invalidPath "NUL in path")
  else if path.contains '\\' then fail (.invalidPath "backslash not allowed")
  else if path.head? = some '/' then fail (.invalidPath "absolute path not allowed")
  else if hasDrivePrefix path then fail (.invalidPath "drive-absolute path not allowed")
  else (path.splitOn '/').forM validateSegment

def validatePath (path : String) : Res Unit := validatePathChars path.toList

/-- Normalize then validate. -/
def normalizeAndValidate (path : String) : Res String :=
  if path.toList.contains '\x00' then fail (.invalidPath "NUL in path")
  else if path.toList.contains '\\' then fail (.invalidPath "backslash not allowed")
  else
    let n := normalizePath path.toList
    (validatePathChars n).bind (fun _ => .ok (String.ofList n))

/-! ## §2. Conflict copies. -/

/-- Everything up to and including the last `/`, and the rest. -/
def splitDir (path : List Char) : List Char × List Char :=
  (path.rdropWhile (· ≠ '/'), path.rtakeWhile (· ≠ '/'))

/-- Stem and extension: the extension starts at the last `.`, unless the name has none or starts
with it. -/
def splitExt (file : List Char) : List Char × List Char :=
  match (file.rdropWhile (· ≠ '.')).dropLast with
  | [] => (file, [])
  | stem => (stem, '.' :: file.rtakeWhile (· ≠ '.'))

/-- `" (conflict from {label})"` -/
def conflictMark (fromLabel : List Char) : List Char :=
  " (conflict from ".toList ++ fromLabel ++ ")".toList

/-- `dir/name (conflict from Label).ext` -/
def conflictPathNameChars (path fromLabel : List Char) : List Char :=
  let (dir, file) := splitDir path
  let (stem, ext) := splitExt file
  dir ++ stem ++ conflictMark fromLabel ++ ext

def conflictPathName (path fromLabel : String) : String :=
  String.ofList (conflictPathNameChars path.toList fromLabel.toList)

/-- Letters, digits, `-` and `_` stay, everything else becomes `_`; at most 32 characters. -/
def sanitizeConflictLabel (label : String) : String :=
  let s := (label.toList.map
    (fun c => if c.isAlphanum ∨ c = '-' ∨ c = '_' then c else '_')).take 32
  if s.isEmpty then "remote" else String.ofList s

example : conflictPathName "docs/note.txt" "NodeX" = "docs/note (conflict from NodeX).txt" := by
  decide

example : conflictPathName ".bashrc" "a" = ".bashrc (conflict from a)" := by decide

/-! ## §3. Segments of a valid path. -/

theorem validateSegment_ok_iff {seg : List Char} :
    validateSegment seg = .ok () ↔ seg ≠ [] ∧ seg ≠ ['.'] ∧ seg ≠ ['.', '.'] := by
  unfold validateSegment
  by_cases h₁ : seg = []
  · simp [h₁]
  · by_cases h₂ : seg = ['.'] ∨ seg = ['.', '.']
    · simp only [List.isEmpty_iff, h₁, if_false, h₂, if_true, reduceCtorEq, false_iff]
      tauto
    · simp only [List.isEmpty_iff, h₁, if_false, h₂, true_iff]
      tauto

theorem forM_ok_iff {α : Type} {f : α → Res Unit} {l : List α} :
    l.forM f = .ok () ↔ ∀ a ∈ l, f a = .ok () := by
  induction l with
  | nil => exact ⟨fun _ _ h => absurd h (by simp), fun _ => rfl⟩
  | cons a l ih =>
    show (f a).bind (fun _ => l.forM f) = .ok () ↔ _
    simp only [bind_ok_iff, ih, List.mem_cons, forall_eq_or_imp]
    exact ⟨fun ⟨_, h₁, h₂⟩ => ⟨h₁, h₂⟩, fun ⟨h₁, h₂⟩ => ⟨(), h₁, h₂⟩⟩

/-- What `validatePath` accepts. -/
theorem validatePathChars_ok_iff {path : List Char} :
    validatePathChars path = .ok () ↔ path ≠ [] ∧ '\x00' ∉ path ∧ '\\' ∉ path ∧
      path.head? ≠ some '/' ∧ hasDrivePrefix path = false ∧
      ∀ seg ∈ path.splitOn '/', seg ≠ [] ∧ seg ≠ ['.'] ∧ seg ≠ ['.', '.'] := by
  unfold validatePathChars
  split
  next h => simp_all
  next h₁ =>
    split
    next h => simp_all
    next h₂ =>
      split
      next h => simp_all
      next h₃ =>
        split
        next h => simp_all
        next h₄ =>
          split
          next h => simp_all
          next h₅ =>
            rw [forM_ok_iff]
            simp only [validateSegment_ok_iff]
            simp_all

/-! ## §4. Where a conflict copy goes. -/

/-- A list splits at the last occurrence of `c`. -/
theorem rsplit_append {c : Char} {a b : List Char} (hb : c ∉ b) (ha : a = [] ∨ ∃ a', a = a' ++ [c]) :
    (a ++ b).rdropWhile (· ≠ c) = a ∧ (a ++ b).rtakeWhile (· ≠ c) = b := by
  induction b using List.reverseRecOn with
  | nil =>
      rw [List.append_nil]
      rcases ha with rfl | ⟨a', rfl⟩
      · exact ⟨rfl, rfl⟩
      · exact ⟨List.rdropWhile_concat_neg _ _ _ (by simp), List.rtakeWhile_concat_neg _ _ _ (by simp)⟩
  | append_singleton b x ih =>
      have hx : x ≠ c := fun h => hb (by simp [h])
      obtain ⟨h₁, h₂⟩ := ih (fun h => hb (by simp [h]))
      rw [← List.append_assoc, List.rdropWhile_concat_pos _ _ _ (by simpa using hx),
        List.rtakeWhile_concat_pos _ _ _ (by simpa using hx), h₁, h₂]
      exact ⟨rfl, rfl⟩

/-- The two parts of a split at the last `c`. -/
theorem rsplit_spec (c : Char) (l : List Char) :
    l.rdropWhile (· ≠ c) ++ l.rtakeWhile (· ≠ c) = l ∧ c ∉ l.rtakeWhile (· ≠ c) ∧
      (l.rdropWhile (· ≠ c) = [] ∨ ∃ a, l.rdropWhile (· ≠ c) = a ++ [c]) := by
  refine ⟨List.rdropWhile_append_rtakeWhile .., fun h => ?_, ?_⟩
  · simpa using List.mem_rtakeWhile_imp h
  · by_cases hnil : l.rdropWhile (· ≠ c) = []
    · exact .inl hnil
    · refine .inr ⟨(l.rdropWhile (· ≠ c)).dropLast, ?_⟩
      have hlast := List.rdropWhile_last_not (· ≠ c) l hnil
      have hc : (l.rdropWhile (· ≠ c)).getLast hnil = c := by simpa using hlast
      exact (List.dropLast_append_getLast hnil).symm.trans (by rw [hc])

theorem splitDir_append {dir file : List Char} (hf : '/' ∉ file)
    (hd : dir = [] ∨ ∃ d, dir = d ++ ['/']) : splitDir (dir ++ file) = (dir, file) := by
  obtain ⟨h₁, h₂⟩ := rsplit_append hf hd
  rw [splitDir, h₁, h₂]

/-- The two shapes of a file name: no extension, or a nonempty stem before the last dot. -/
theorem splitExt_cases (file : List Char) :
    (splitExt file = (file, []) ∧ (file.rdropWhile (· ≠ '.')).dropLast = []) ∨
      ∃ stem ext, splitExt file = (stem, '.' :: ext) ∧ file = stem ++ '.' :: ext ∧ stem ≠ [] ∧
        '.' ∉ ext := by
  obtain ⟨happ, hnot, hend⟩ := rsplit_spec '.' file
  rcases hend with hnil | ⟨a, ha⟩
  · refine .inl ⟨?_, by rw [hnil]; rfl⟩
    rw [splitExt, hnil]
    rfl
  · rw [splitExt, ha, List.dropLast_concat]
    cases a with
    | nil => exact .inl ⟨rfl, rfl⟩
    | cons x a =>
        refine .inr ⟨x :: a, _, rfl, ?_, by simp, hnot⟩
        conv_lhs => rw [← happ, ha]
        simp

theorem splitExt_append (file : List Char) : (splitExt file).1 ++ (splitExt file).2 = file := by
  rcases splitExt_cases file with ⟨h, _⟩ | ⟨stem, ext, h, hfile, _⟩
  · rw [h, List.append_nil]
  · rw [h, hfile]

/-- A name with a dot splits at its last dot. -/
theorem splitExt_dot {stem ext : List Char} (hstem : stem ≠ []) (hext : '.' ∉ ext) :
    splitExt (stem ++ '.' :: ext) = (stem, '.' :: ext) := by
  have hr := rsplit_append (a := stem ++ ['.']) hext (.inr ⟨_, rfl⟩)
  rw [List.append_assoc, List.singleton_append] at hr
  rw [splitExt, hr.1, hr.2, List.dropLast_concat]
  cases stem with
  | nil => exact absurd rfl hstem
  | cons x stem => rfl

/-- A mark without dots between stem and extension leaves the extension where it was. -/
theorem splitExt_mark {mark : List Char} (file : List Char) (hm : '.' ∉ mark) :
    splitExt ((splitExt file).1 ++ mark ++ (splitExt file).2) =
      ((splitExt file).1 ++ mark, (splitExt file).2) := by
  rcases splitExt_cases file with ⟨h, hdrop⟩ | ⟨stem, ext, h, -, hstem, hext⟩
  · obtain ⟨happ, hnot, hend⟩ := rsplit_spec '.' file
    have hm' : '.' ∉ file.rtakeWhile (· ≠ '.') ++ mark := fun h =>
      (List.mem_append.1 h).elim hnot hm
    have hr := (rsplit_append hm' hend).1
    rw [← List.append_assoc, happ] at hr
    rw [h, List.append_nil, splitExt, hr, hdrop]
  · rw [h]
    exact splitExt_dot (by simp [hstem]) hext

/-- The mark has a character only if the label does, its own text apart. -/
theorem not_mem_conflictMark {label : List Char} {c : Char} (hc : c ∉ label)
    (htext : c ∉ " (conflict from ".toList ∧ c ∉ ")".toList) : c ∉ conflictMark label := by
  intro h
  rcases List.mem_append.1 h with h | h
  · exact (List.mem_append.1 h).elim htext.1 hc
  · exact htext.2 h

/-- The parts of a path, and of its conflict copy. -/
theorem conflictPathNameChars_parts {label : List Char} (path : List Char) (hs : '/' ∉ label)
    (hd : '.' ∉ label) :
    ∃ dir file, splitDir path = (dir, file) ∧ path = dir ++ file ∧ '/' ∉ file ∧
      (dir = [] ∨ ∃ d, dir = d ++ ['/']) ∧
      splitDir (conflictPathNameChars path label) =
        (dir, (splitExt file).1 ++ conflictMark label ++ (splitExt file).2) ∧
      splitExt ((splitExt file).1 ++ conflictMark label ++ (splitExt file).2) =
        ((splitExt file).1 ++ conflictMark label, (splitExt file).2) := by
  obtain ⟨happ, hnot, hend⟩ := rsplit_spec '/' path
  have hmarkd : '.' ∉ conflictMark label := not_mem_conflictMark hd (by decide)
  have hmarks : '/' ∉ conflictMark label := not_mem_conflictMark hs (by decide)
  have hfile := splitExt_append (path.rtakeWhile (· ≠ '/'))
  refine ⟨_, _, rfl, happ.symm, hnot, hend, ?_, splitExt_mark _ hmarkd⟩
  have hslash : '/' ∉ (splitExt (path.rtakeWhile (· ≠ '/'))).1 ++ conflictMark label ++
      (splitExt (path.rtakeWhile (· ≠ '/'))).2 := by
    rw [← hfile] at hnot
    simp only [List.mem_append, not_or] at hnot ⊢
    exact ⟨⟨hnot.1, hmarks⟩, hnot.2⟩
  rw [← splitDir_append hslash hend]
  simp only [conflictPathNameChars, splitDir, List.append_assoc]

/-- **One copy name per path**: with a label free of `/` and `.`, different paths have different
conflict copies. -/
theorem conflictPathNameChars_injective {label : List Char} (hs : '/' ∉ label) (hd : '.' ∉ label) :
    Function.Injective (conflictPathNameChars · label) := by
  intro p p' heq
  obtain ⟨dir, file, -, hp, -, -, hdir, hext⟩ := conflictPathNameChars_parts p hs hd
  obtain ⟨dir', file', -, hp', -, -, hdir', hext'⟩ := conflictPathNameChars_parts p' hs hd
  rw [show conflictPathNameChars p label = conflictPathNameChars p' label from heq, hdir'] at hdir
  obtain ⟨rfl, hfile⟩ := Prod.mk.inj hdir
  rw [← hfile, hext'] at hext
  obtain ⟨hstem, htail⟩ := Prod.mk.inj hext
  have hstem := List.append_cancel_right hstem
  rw [hp, hp', ← splitExt_append file, ← splitExt_append file', hstem, htail]

/-- The characters of a sanitized label. -/
theorem mem_sanitizeConflictLabel {label : String} {c : Char}
    (hc : c ∈ (sanitizeConflictLabel label).toList) : c.isAlphanum = true ∨ c = '-' ∨ c = '_' := by
  simp only [sanitizeConflictLabel] at hc
  split at hc
  next =>
    have hall : ("remote".toList.all fun c => c.isAlphanum || c == '-' || c == '_') = true := by decide
    simpa [or_assoc] using List.all_eq_true.1 hall c hc
  next =>
    rw [String.toList_ofList] at hc
    obtain ⟨x, -, rfl⟩ := List.mem_map.1 (List.mem_of_mem_take hc)
    split
    next h => simpa using h
    next => exact .inr (.inr rfl)

theorem sanitizeConflictLabel_plain (label : String) {c : Char}
    (hc : c = '/' ∨ c = '.' ∨ c = '\\' ∨ c = '\x00') : c ∉ (sanitizeConflictLabel label).toList := by
  intro h
  have hplain := mem_sanitizeConflictLabel h
  rcases hc with rfl | rfl | rfl | rfl <;> revert hplain <;> decide

theorem conflictPathName_injective (label : String) :
    Function.Injective (conflictPathName · (sanitizeConflictLabel label)) := by
  intro p p' heq
  have hs := sanitizeConflictLabel_plain label (c := '/') (.inl rfl)
  have hd := sanitizeConflictLabel_plain label (c := '.') (.inr (.inl rfl))
  have hchars := String.ofList_inj.1 heq
  exact String.toList_inj.1 (conflictPathNameChars_injective hs hd hchars)

/-! ## §5. Valid paths stay valid. -/

/-- The segments of a path, by its last one. -/
theorem splitOn_splitDir {dir file : List Char} (hf : '/' ∉ file)
    (hd : dir = [] ∨ ∃ d, dir = d ++ ['/']) : ∃ segs, ∀ file', '/' ∉ file' →
      (dir ++ file').splitOn '/' = segs ++ [file'] ∧ (dir ++ file).splitOn '/' = segs ++ [file] := by
  rcases hd with rfl | ⟨d, rfl⟩
  · refine ⟨[], fun file' hf' => ⟨?_, ?_⟩⟩
    · exact List.splitOn_eq_singleton hf'
    · exact List.splitOn_eq_singleton hf
  · refine ⟨d.splitOn '/', fun file' hf' => ⟨?_, ?_⟩⟩
    · rw [List.append_assoc, List.singleton_append, List.splitOn_append_cons_self,
        List.splitOn_eq_singleton hf']
    · rw [List.append_assoc, List.singleton_append, List.splitOn_append_cons_self,
        List.splitOn_eq_singleton hf]

/-- Only the first two characters tell a drive prefix. -/
theorem hasDrivePrefix_append {a b c : List Char} (ha : 2 ≤ a.length) :
    hasDrivePrefix (a ++ b) = hasDrivePrefix (a ++ c) := by
  match a, ha with
  | _ :: x :: _, _ =>
    by_cases hx : x = ':'
    · subst hx
      rfl
    · simp [hasDrivePrefix, hx]

/-- A mark inside the last segment of a valid path leaves it valid. -/
theorem validatePathChars_mark {dir stem ext mark : List Char}
    (hp : validatePathChars (dir ++ (stem ++ ext)) = .ok ()) (hfile : '/' ∉ stem ++ ext)
    (hdir : dir = [] ∨ ∃ d, dir = d ++ ['/']) (hstem : stem ≠ [])
    (hm : '/' ∉ mark ∧ '\\' ∉ mark ∧ '\x00' ∉ mark) (hblank : mark.head? = some ' ') :
    validatePathChars (dir ++ (stem ++ mark ++ ext)) = .ok () := by
  obtain ⟨-, hzero, hback, habs, hdrive, hsegs⟩ := validatePathChars_ok_iff.1 hp
  obtain ⟨hslash, hmback, hmzero⟩ := hm
  -- a character of the result is one of the path or of the mark
  have hmem : ∀ c : Char, c ∉ dir ++ (stem ++ ext) → c ∉ mark →
      c ∉ dir ++ (stem ++ mark ++ ext) := by
    intro c hc hcm
    simp only [List.mem_append, not_or] at hc ⊢
    exact ⟨hc.1, ⟨hc.2.1, hcm⟩, hc.2.2⟩
  have hnew : '/' ∉ stem ++ mark ++ ext := by
    simp only [List.mem_append, not_or] at hfile ⊢
    exact ⟨⟨hfile.1, hslash⟩, hfile.2⟩
  have hhead : (dir ++ (stem ++ mark ++ ext)).head? = (dir ++ (stem ++ ext)).head? := by
    cases dir with
    | cons c d => rfl
    | nil =>
      cases stem with
      | nil => exact absurd rfl hstem
      | cons c st => rfl
  refine validatePathChars_ok_iff.2 ⟨?_, hmem _ hzero hmzero, hmem _ hback hmback, hhead ▸ habs, ?_,
    fun seg hseg => ?_⟩
  · simp [hstem]
  · by_cases hlen : 2 ≤ (dir ++ stem).length
    · rw [List.append_assoc stem, ← List.append_assoc dir]
      rw [← List.append_assoc dir] at hdrive
      exact (hasDrivePrefix_append hlen).trans hdrive
    · -- one character before the mark, which starts with a blank
      rw [List.length_append] at hlen
      have hpos : 0 < stem.length := List.length_pos_iff.2 hstem
      have hdir0 : dir = [] := List.length_eq_zero_iff.1 (by omega)
      obtain ⟨c, rfl⟩ := List.length_eq_one_iff.1 (show stem.length = 1 by omega)
      cases mark with
      | nil => cases hblank
      | cons x mark =>
        obtain rfl := Option.some.inj hblank
        rw [hdir0]
        rfl
  · obtain ⟨segs, hsegs'⟩ := splitOn_splitDir hfile hdir
    obtain ⟨hnewsegs, hold⟩ := hsegs' _ hnew
    rw [hnewsegs] at hseg
    rcases List.mem_append.1 hseg with hseg | hseg
    · exact hsegs seg (by rw [hold]; exact List.mem_append_left _ hseg)
    · obtain rfl := List.mem_singleton.1 hseg
      have hblank' : ' ' ∈ stem ++ mark ++ ext := by
        have := List.mem_of_mem_head? (Option.mem_def.2 hblank)
        simp [this]
      refine ⟨?_, ?_, ?_⟩ <;> intro heq <;> rw [heq] at hblank' <;> revert hblank' <;> decide

/-- **The conflict copy of a valid path is a valid path.** -/
theorem validatePathChars_conflict {path label : List Char} (hs : '/' ∉ label) (hd : '.' ∉ label)
    (hb : '\\' ∉ label) (hz : '\x00' ∉ label) (hp : validatePathChars path = .ok ()) :
    validatePathChars (conflictPathNameChars path label) = .ok () := by
  obtain ⟨dir, file, hsplit, rfl, hfile, hdir, -, -⟩ := conflictPathNameChars_parts path hs hd
  have hname : conflictPathNameChars (dir ++ file) label =
      dir ++ ((splitExt file).1 ++ conflictMark label ++ (splitExt file).2) := by
    simp only [conflictPathNameChars, hsplit, List.append_assoc]
  have hstem : (splitExt file).1 ≠ [] := by
    obtain ⟨-, -, -, -, -, hsegs⟩ := validatePathChars_ok_iff.1 hp
    obtain ⟨segs, hseg⟩ := splitOn_splitDir hfile hdir
    have hmem : file ∈ (dir ++ file).splitOn '/' := by
      rw [(hseg file hfile).2]
      exact List.mem_append_right _ (List.mem_singleton.2 rfl)
    rcases splitExt_cases file with ⟨h, -⟩ | ⟨stem, ext, h, -, hstem, -⟩
    · rw [h]
      exact (hsegs file hmem).1
    · rw [h]
      exact hstem
  rw [hname]
  rw [← splitExt_append file] at hp hfile
  refine validatePathChars_mark hp hfile hdir hstem ⟨?_, ?_, ?_⟩ rfl
  · exact not_mem_conflictMark hs (by decide)
  · exact not_mem_conflictMark hb (by decide)
  · exact not_mem_conflictMark hz (by decide)

theorem validatePath_conflict {path : String} (label : String) (hp : validatePath path = .ok ()) :
    validatePath (conflictPathName path (sanitizeConflictLabel label)) = .ok () := by
  unfold validatePath conflictPathName
  rw [String.toList_ofList]
  exact validatePathChars_conflict (sanitizeConflictLabel_plain label (.inl rfl))
    (sanitizeConflictLabel_plain label (.inr (.inl rfl)))
    (sanitizeConflictLabel_plain label (.inr (.inr (.inl rfl))))
    (sanitizeConflictLabel_plain label (.inr (.inr (.inr rfl)))) hp

/-- What normalization returns is valid. -/
theorem validatePath_of_normalize {path path' : String}
    (h : normalizeAndValidate path = .ok path') : validatePath path' = .ok () := by
  unfold normalizeAndValidate at h
  split at h
  next => cases h
  next =>
    split at h
    next => cases h
    next =>
      obtain ⟨_, hv, h⟩ := bind_ok_iff.1 h
      obtain rfl := Except.ok.inj h
      unfold validatePath
      rw [String.toList_ofList]
      exact hv

/-- A path of names stays as it is: it neither starts with a dot segment, nor starts or ends with a
separator. -/
theorem normalizePath_names {path : List Char} (hback : '\\' ∉ path)
    (hsegs : ∀ seg ∈ path.splitOn '/', seg ≠ [] ∧ seg ≠ ['.']) : normalizePath path = path := by
  have hmap : path.map (fun c => if c = '\\' then '/' else c) = path := by
    rw [List.map_congr_left (g := id) fun c hc => ?_, List.map_id]
    exact if_neg fun heq : c = '\\' => hback (heq ▸ hc)
  have hdot : trimStartDotSlash path = path := by
    match path, hsegs with
    | [], _ => rfl
    | [c], _ => unfold trimStartDotSlash; split <;> simp_all
    | c :: x :: rest, hsegs =>
      by_cases hcx : c = '.' ∧ x = '/'
      · obtain ⟨rfl, rfl⟩ := hcx
        have hfirst : ['.'] ∈ ('.' :: '/' :: rest).splitOn '/' := by
          rw [show '.' :: '/' :: rest = ['.'] ++ '/' :: rest from rfl,
            List.splitOn_append_cons_self, List.splitOn_eq_singleton (by decide)]
          exact List.mem_cons_self
        exact absurd rfl (hsegs _ hfirst).2
      · unfold trimStartDotSlash
        split
        next heq =>
          simp only [List.cons.injEq] at heq
          exact absurd ⟨heq.1, heq.2.1⟩ hcx
        next => rfl
  unfold normalizePath
  rw [hmap]
  dsimp only
  rw [hdot, List.dropWhile_eq_self_iff.2 fun hlen => ?_, List.rdropWhile_eq_self_iff.2 fun hne' => ?_]
  · simp only [decide_eq_true_eq]
    intro hlast
    -- a separator at the end leaves an empty last segment
    obtain ⟨d, rfl⟩ : ∃ d, path = d ++ ['/'] :=
      ⟨path.dropLast, by rw [← hlast, List.dropLast_append_getLast]⟩
    have hempty : [] ∈ (d ++ ['/']).splitOn '/' := by
      rw [List.splitOn_append_cons_self, List.splitOn_nil]
      exact List.mem_append_right _ (List.mem_singleton.2 rfl)
    exact (hsegs _ hempty).1 rfl
  · simp only [decide_eq_true_eq]
    intro hfirst
    -- a separator at the start leaves an empty first segment
    obtain ⟨rest, rfl⟩ : ∃ rest, path = '/' :: rest := by
      cases path with
      | nil => exact absurd hlen (Nat.lt_irrefl 0)
      | cons c rest => exact ⟨rest, by rw [← hfirst]; rfl⟩
    have hempty : [] ∈ ('/' :: rest).splitOn '/' := by
      rw [show '/' :: rest = [] ++ '/' :: rest from rfl, List.splitOn_append_cons_self,
        List.splitOn_nil]
      exact List.mem_cons_self
    exact (hsegs _ hempty).1 rfl

/-- What is accepted of a path of names is the path. -/
theorem normalizeAndValidate_names {path path' : String}
    (hsegs : ∀ seg ∈ path.toList.splitOn '/', seg ≠ [] ∧ seg ≠ ['.'])
    (h : normalizeAndValidate path = .ok path') : path' = path := by
  unfold normalizeAndValidate at h
  split at h
  next => cases h
  next =>
    split at h
    next => cases h
    next hback =>
      have hback : '\\' ∉ path.toList := by simpa using hback
      obtain ⟨-, -, h⟩ := bind_ok_iff.1 h
      rw [normalizePath_names hback hsegs, String.ofList_toList] at h
      exact (Except.ok.inj h).symm

/-- A valid path neither starts nor ends with a separator. -/
theorem normalizePath_valid {path : List Char} (hp : validatePathChars path = .ok ()) :
    normalizePath path = path := by
  obtain ⟨-, -, hback, -, -, hsegs⟩ := validatePathChars_ok_iff.1 hp
  exact normalizePath_names hback fun seg hseg => ⟨(hsegs seg hseg).1, (hsegs seg hseg).2.1⟩

/-- **Normalizing twice changes nothing.** -/
theorem normalizeAndValidate_valid {path : String} (h : validatePath path = .ok ()) :
    normalizeAndValidate path = .ok path := by
  have hv : validatePathChars path.toList = .ok () := h
  obtain ⟨-, hzero, hback, -⟩ := validatePathChars_ok_iff.1 hv
  unfold normalizeAndValidate
  rw [if_neg (by simpa using hzero), if_neg (by simpa using hback)]
  dsimp only
  rw [normalizePath_valid hv, hv, ok_bind, String.ofList_toList]

end Soal

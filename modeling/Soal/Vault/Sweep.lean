/-
  Soal.Vault.Sweep — the sweeps delete what is not live, and count what they delete.

  `Swept gone fs fs' n` says that exactly the files in `gone` are gone, that every other file is as it
  was, and that `n` files were removed.  Each sweep is a `Swept` step for each name of its list.
-/
import Soal.Vault.Mark

namespace Soal

open FileProg

/-! ## §1. Removing files. -/

/-- From `fs` to `fs'` the files in `D` went away, `n` of them. -/
structure Swept (D : FilePath VaultDir → Prop) (fs fs' : VaultFs) (n : Nat) : Prop where
  gone : ∀ p, D p → p ∉ fs'
  kept : ∀ p, ¬D p → fs'.lookup p = fs.lookup p
  count : fs'.keys.length + n = fs.keys.length

namespace Swept

variable {D D' : FilePath VaultDir → Prop} {fs fs' fs'' : VaultFs} {n m : Nat}

/-- No file is to go. -/
theorem none (h : ∀ p, D p → p ∉ fs) : Swept D fs fs 0 := ⟨h, fun _ _ => rfl, rfl⟩

theorem trans (h : Swept D fs fs' n) (h' : Swept D' fs' fs'' m) :
    Swept (fun p => D p ∨ D' p) fs fs'' (n + m) := by
  refine ⟨fun p hp => ?_, fun p hp => ?_, by have := h.count; have := h'.count; omega⟩
  · by_cases hp' : D' p
    · exact h'.gone p hp'
    · exact fun hmem => h.gone p (hp.resolve_right hp') ((mem_congr (h'.kept p hp')).1 hmem)
  · rw [not_or] at hp
    rw [h'.kept p hp.2, h.kept p hp.1]

/-- Nothing new appears. -/
theorem subset (h : Swept D fs fs' n) {p : FilePath VaultDir} (hp : p ∈ fs') : p ∈ fs := by
  by_cases hD : D p
  · exact absurd hp (h.gone p hD)
  · exact (mem_congr (h.kept p hD)).1 hp

theorem lookup_absent (h : Swept D fs fs' n) {p : FilePath VaultDir} (hp : p ∉ fs) :
    fs'.lookup p = fs.lookup p := by
  rw [AList.lookup_eq_none.2 hp, AList.lookup_eq_none.2 fun hp' => hp (h.subset hp')]

/-- The count is the number of files that are gone. -/
theorem card (h : Swept D fs fs' n) : n = (fs.keys.toFinset \ fs'.keys.toFinset).card := by
  have hsub : fs'.keys.toFinset ⊆ fs.keys.toFinset := fun p hp => by
    rw [List.mem_toFinset] at hp ⊢
    exact h.subset hp
  have hcount := h.count
  rw [Finset.card_sdiff_of_subset hsub, List.toFinset_card_of_nodup fs.keys_nodup,
    List.toFinset_card_of_nodup fs'.keys_nodup]
  omega

/-- What counts is which files of the disk are to go. -/
theorem congr (h : Swept D fs fs' n) (hD : ∀ p ∈ fs, D p ↔ D' p) : Swept D' fs fs' n := by
  refine ⟨fun p hp hmem => ?_, fun p hp => ?_, h.count⟩
  · exact h.gone p ((hD p (h.subset hmem)).2 hp) hmem
  · by_cases hmem : p ∈ fs
    · exact h.kept p fun hp' => hp ((hD p hmem).1 hp')
    · rw [AList.lookup_eq_none.2 hmem, AList.lookup_eq_none.2 fun hmem' => hmem (h.subset hmem')]

/-- What is not to go stays. -/
theorem mem_of_not (h : Swept D fs fs' n) {p : FilePath VaultDir} (hp : p ∈ fs) (hD : ¬D p) :
    p ∈ fs' := (mem_congr (h.kept p hD)).2 hp

/-- One file is removed. -/
theorem remove {w : VaultWorld} {p : FilePath VaultDir} (hp : p ∈ w.fs) :
    Swept (· = p) w.fs (w.change (.remove p)).fs 1 := by
  refine ⟨fun q hq => ?_, fun q hq => ?_, ?_⟩
  · rw [← AList.lookup_eq_none, World.lookup_removed, if_pos hq]
  · rw [World.lookup_removed, if_neg hq]
  · rw [World.change_fs, WriteOp.apply, if_pos hp]
    show (w.fs.erase p).keys.length + 1 = w.fs.keys.length
    rw [AList.keys_erase, List.length_erase_of_mem (AList.mem_keys.1 hp)]
    have := List.length_pos_of_mem (AList.mem_keys.1 hp)
    omega

end Swept

/-! ## §2. The sweeps. -/

section Sweeps

variable {env : Outside} {live : Finset ContentHash}

/-- The chunk sweep removes the listed chunks that are not live. -/
theorem wp_sweepChunks (hs : List ContentHash) (n : Nat) (w : VaultWorld) :
    wp env (fun _ => True) (sweepChunks live hs n) (fun r w' => ∃ k, r = .ok (n + k) ∧
      Swept (fun p => ∃ h ∈ hs, h ∉ live ∧ p = chunkPath h) w.fs w'.fs k) w := by
  induction hs generalizing n w with
  | nil => exact ⟨trivial, 0, rfl, .none (by simp)⟩
  | cons h hs ih =>
    rw [sweepChunks]
    split
    next hlive =>
      refine (ih n w).mono (fun _ hI => hI) fun r w' _ hr => ?_
      obtain ⟨k, rfl, hsw⟩ := hr
      refine ⟨k, rfl, hsw.congr fun p _ => ?_⟩
      simp [hlive]
    next hlive =>
      refine wp_exists trivial ?_
      split
      next hex =>
        have hmem : chunkPath h ∈ w.fs := by simpa using hex
        refine wp_remove hmem trivial ((ih (n + 1) _).mono (fun _ hI => hI) fun r w' _ hr => ?_)
        obtain ⟨k, rfl, hsw⟩ := hr
        refine ⟨1 + k, by rw [Nat.add_assoc], ((Swept.remove hmem).trans hsw).congr fun p _ => ?_⟩
        simp [hlive]
      next hex =>
        have hmem : chunkPath h ∉ w.fs := by simpa using hex
        refine (ih n w).mono (fun _ hI => hI) fun r w' _ hr => ?_
        obtain ⟨k, rfl, hsw⟩ := hr
        refine ⟨k, rfl, hsw.congr fun p hp => ?_⟩
        have hne : p ≠ chunkPath h := fun heq => hmem (heq ▸ hp)
        simp [hne]

/-- The object sweep removes the files of its list whose stem is a hash that is not live. -/
theorem wp_sweepObjects (dir : VaultDir) (names : List String) (n : Nat) (w : VaultWorld)
    (hnodup : names.Nodup) (hmem : ∀ name ∈ names, (⟨dir, name⟩ : FilePath VaultDir) ∈ w.fs) :
    wp env (fun _ => True) (sweepObjects live dir names n) (fun r w' => ∃ k, r = .ok (n + k) ∧
      Swept (fun p => p.dir = dir ∧ p.name ∈ names ∧ ∃ h, hashOfStem p.name = some h ∧ h ∉ live)
        w.fs w'.fs k) w := by
  induction names generalizing n w with
  | nil => exact ⟨trivial, 0, rfl, .none (by simp)⟩
  | cons name names ih =>
    obtain ⟨hnot, hnodup⟩ := List.nodup_cons.1 hnodup
    have htail : ∀ name' ∈ names, (⟨dir, name'⟩ : FilePath VaultDir) ∈ w.fs := fun name' h' =>
      hmem name' (List.mem_cons_of_mem _ h')
    -- a name that stays
    have hskip : (∀ h, hashOfStem name = some h → h ∈ live) →
        wp env (fun _ => True) (sweepObjects live dir names n) (fun r w' => ∃ k, r = .ok (n + k) ∧
          Swept (fun p => p.dir = dir ∧ p.name ∈ name :: names ∧
            ∃ h, hashOfStem p.name = some h ∧ h ∉ live) w.fs w'.fs k) w := by
      intro hstay
      refine (ih n w hnodup htail).mono (fun _ hI => hI) fun r w' _ hr => ?_
      obtain ⟨k, rfl, hsw⟩ := hr
      refine ⟨k, rfl, hsw.congr fun p _ => and_congr_right fun _ => ?_⟩
      rw [List.mem_cons]
      refine ⟨fun ⟨hp, hx⟩ => ⟨.inr hp, hx⟩, ?_⟩
      rintro ⟨hp | hp, h, hh, hlive⟩
      · exact absurd (hstay h (hp ▸ hh)) hlive
      · exact ⟨hp, h, hh, hlive⟩
    rw [sweepObjects]
    split
    next hstem => exact hskip fun h hh => by rw [hstem] at hh; cases hh
    next h hstem =>
      split
      next hlive =>
        refine hskip fun h' hh => ?_
        rw [hstem] at hh
        cases hh
        exact hlive
      next hlive =>
        have hp : (⟨dir, name⟩ : FilePath VaultDir) ∈ w.fs := hmem name List.mem_cons_self
        have htail' : ∀ name' ∈ names,
            (⟨dir, name'⟩ : FilePath VaultDir) ∈ (w.change (.remove ⟨dir, name⟩)).fs := by
          intro name' h'
          have hne : (⟨dir, name'⟩ : FilePath VaultDir) ≠ ⟨dir, name⟩ := by
            intro heq
            cases heq
            exact hnot h'
          exact (mem_congr (by rw [World.lookup_removed, if_neg hne])).2 (htail name' h')
        refine wp_remove hp trivial
          ((ih (n + 1) _ hnodup htail').mono (fun _ hI => hI) fun r w' _ hr => ?_)
        obtain ⟨k, rfl, hsw⟩ := hr
        refine ⟨1 + k, by rw [Nat.add_assoc], ((Swept.remove hp).trans hsw).congr fun p _ => ?_⟩
        obtain ⟨d, s⟩ := p
        simp only [FilePath.mk.injEq, List.mem_cons]
        constructor
        · rintro (⟨rfl, rfl⟩ | ⟨rfl, hs, hx⟩)
          · exact ⟨rfl, .inl rfl, h, hstem, hlive⟩
          · exact ⟨rfl, .inr hs, hx⟩
        · rintro ⟨rfl, rfl | hs, hx⟩
          · exact .inl ⟨rfl, rfl⟩
          · exact .inr ⟨rfl, hs, hx⟩

end Sweeps

/-! ## §3. Names of object and chunk files. -/

theorem hashOfStem_hexName {h : ContentHash} {ext : String} {e : List Char}
    (hext : ext.toList = '.' :: e) (he : '.' ∉ e) : hashOfStem (hexName h ext) = some h := by
  have hne : h.toHexChars ≠ [] := fun hnil => by
    have := h.toHexChars_length
    rw [hnil] at this
    cases this
  have hsplit : splitExt (hexName h ext).toList = (h.toHexChars, '.' :: e) := by
    rw [hexName, String.toList_append, ContentHash.toHex_toList, hext, splitExt_dot hne he]
  unfold hashOfStem
  rw [hsplit]
  dsimp only
  rw [if_pos h.toHexChars_length, ContentHash.fromHexChars_toHexChars]
  rfl

theorem hashOfName_hexName (h : ContentHash) :
    ChunkStore.hashOfName (hexName h ".chunk") = some h := by
  have hl : (hexName h ".chunk").toList = h.toHexChars ++ ".chunk".toList := by
    rw [hexName, String.toList_append, ContentHash.toHex_toList]
  have hlen : (h.toHexChars ++ ".chunk".toList).length - 6 = h.toHexChars.length := by simp
  unfold ChunkStore.hashOfName
  rw [hl, if_pos (by simp), hlen, List.take_left, ContentHash.fromHexChars_toHexChars]
  rfl

/-! ## §4. The collections. -/

section Collections

variable [Crates] {env : Outside}

/-- A chunk file that no live commit's tree lists. -/
def GarbageChunk (fs : VaultFs) (p : FilePath VaultDir) : Prop :=
  ∃ h, p = chunkPath h ∧ ¬MarkedChunk (GcRoot fs) fs h

/-- A commit or tree file whose name is a hash that is not marked. -/
def GarbageObject (fs : VaultFs) (p : FilePath VaultDir) : Prop :=
  (p.dir = .commits ∨ p.dir = .trees) ∧
    ∃ h, hashOfStem p.name = some h ∧ ¬MarkedObject (GcRoot fs) fs h

/-- **The chunk collection deletes the garbage chunks, unless the mark fails.** -/
theorem wp_gcUnreachableChunks (env : Outside) (w : VaultWorld) :
    wp env (fun _ => True) gcUnreachableChunks (fun r w' =>
      (∃ e, r = .error e ∧ w' = w ∧ ¬ObjectsLoad (GcRoot w.fs) w.fs) ∨
      ∃ n, r = .ok n ∧ ObjectsLoad (GcRoot w.fs) w.fs ∧ Swept (GarbageChunk w.fs) w.fs w'.fs n) w := by
  unfold gcUnreachableChunks
  refine wp_read trivial (fun live hlive => ?_) (fun e he => .inl ⟨e, rfl, rfl, fun h => ?_⟩)
  · have hlist : ReadM.eval w.fs ChunkStore.list =
        .ok ((w.fs.names .chunks).filterMap ChunkStore.hashOfName) := rfl
    refine wp_read_ok trivial hlist ?_
    refine (wp_sweepChunks _ 0 w).mono (fun _ hI => hI) fun r w' _ hr => ?_
    obtain ⟨k, rfl, hsw⟩ := hr
    refine .inr ⟨k, by rw [Nat.zero_add], liveChunkHashes_ok_iff.1 ⟨live, hlive⟩,
      hsw.congr fun p hp => ?_⟩
    constructor
    · rintro ⟨h, -, hnot, rfl⟩
      exact ⟨h, rfl, fun hm => hnot ((mem_liveChunkHashes hlive h).2 hm)⟩
    · rintro ⟨h, rfl, hnot⟩
      refine ⟨h, ?_, fun hm => hnot ((mem_liveChunkHashes hlive h).1 hm), rfl⟩
      exact List.mem_filterMap.2 ⟨hexName h ".chunk", Fs.mem_names.2 hp, hashOfName_hexName h⟩
  · obtain ⟨live, hlive⟩ := liveChunkHashes_ok_iff.2 h
    cases hlive.symm.trans he

/-- **The object collection deletes the garbage objects, unless the mark fails.** -/
theorem wp_gcUnreachableObjects (env : Outside) (w : VaultWorld) :
    wp env (fun _ => True) gcUnreachableObjects (fun r w' =>
      (∃ e, r = .error e ∧ w' = w ∧ ¬CommitsLoad (GcRoot w.fs) w.fs) ∨
      ∃ c t, r = .ok (c, t) ∧ CommitsLoad (GcRoot w.fs) w.fs ∧
        Swept (GarbageObject w.fs) w.fs w'.fs (c + t)) w := by
  unfold gcUnreachableObjects
  refine wp_read trivial (fun live hlive => ?_) (fun e he => .inl ⟨e, rfl, rfl, fun h => ?_⟩)
  · refine wp_read_ok trivial (ReadM.eval_readDir w.fs .commits) ?_
    refine wp_seq (wp_sweepObjects .commits _ 0 w (Fs.names_nodup _ _) fun name h => Fs.mem_names.1 h)
      (fun c w₁ _ h₁ => ?_) (fun e w₁ _ he => ?_)
    · obtain ⟨k₁, hk₁, hsw₁⟩ := h₁
      refine wp_read_ok trivial (ReadM.eval_readDir w₁.fs .trees) ?_
      refine wp_seq (wp_sweepObjects .trees _ 0 w₁ (Fs.names_nodup _ _)
        fun name h => Fs.mem_names.1 h) (fun t w₂ _ h₂ => ?_) (fun e w₂ _ he => ?_)
      · obtain ⟨k₂, hk₂, hsw₂⟩ := h₂
        refine ⟨trivial, .inr ⟨c, t, rfl, liveObjectHashes_ok_iff.1 ⟨live, hlive⟩, ?_⟩⟩
        have hc : k₁ = c := by have := Except.ok.inj hk₁; omega
        have ht : k₂ = t := by have := Except.ok.inj hk₂; omega
        subst hc ht
        refine (hsw₁.trans hsw₂).congr fun p hp => ?_
        have hmark : ∀ h, h ∉ live ↔ ¬MarkedObject (GcRoot w.fs) w.fs h := fun h =>
          not_congr (mem_liveObjectHashes hlive h)
        simp only [hmark, GarbageObject]
        constructor
        · rintro (⟨hd, -, hx⟩ | ⟨hd, -, hx⟩)
          · exact ⟨.inl hd, hx⟩
          · exact ⟨.inr hd, hx⟩
        · rintro ⟨hd | hd, hx⟩
          · obtain ⟨d, s⟩ := p
            cases hd
            exact .inl ⟨rfl, Fs.mem_names.2 hp, hx⟩
          · obtain ⟨d, s⟩ := p
            cases hd
            -- the first sweep left the tree files alone
            refine .inr ⟨rfl, Fs.mem_names.2 ((mem_congr (hsw₁.kept _ ?_)).2 hp), hx⟩
            rintro ⟨hd', -⟩
            cases hd'
      · obtain ⟨_, hk, _⟩ := he
        cases hk
    · obtain ⟨_, hk, _⟩ := he
      cases hk
  · obtain ⟨live, hlive⟩ := liveObjectHashes_ok_iff.2 h
    cases hlive.symm.trans he

end Collections

end Soal

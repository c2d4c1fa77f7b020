/-
  Soal.Codec.Safety — what the decoders do on hostile bytes.

  A reader is a tree of requests, so two machines can run it: the 64-bit one, where an addition may
  leave `usize` and an allocation may be refused, and one without such limits.  The two agree until a
  request leaves the limits.  `Paced` is the rest: a reader never panics of its own, and it takes no
  more turns than it reads bytes.
-/
import Soal.Codec.Announcement

namespace Soal

open FileProg

namespace Cursor

variable {α β : Type}

/-! ## §1. The requests of a run. -/

/-- The requests of one reader after another. -/
theorem requests_bind (m : Machine) (r : Reader α) (f : α → Reader β) (c : Cursor) :
    requests m (r >>= f) c =
      requests m r c ++ (run m r c).toOption.elim [] (fun p => requests m (f p.1) p.2) := by
  induction r generalizing c with
  | done r => cases r <;> rfl
  | step op k ih =>
    show (c, op) :: (step m c op).toOption.elim [] (fun p => requests m (k p.1 >>= f) p.2) =
      (c, op) :: (step m c op).toOption.elim [] (fun p => requests m (k p.1) p.2) ++ _
    rw [run]
    cases hs : step m c op with
    | error e => rfl
    | ok p => exact congrArg _ (ih p.1 p.2)

/-- A request moves the position forward over what was left to read. -/
theorem step_moves {m : Machine} {c : Cursor} {op : CursorOp} {p : cursorSig.Reply op × Cursor}
    (hs : step m c op = .ok p) : p.2.pos + p.2.rest.length = c.pos + c.rest.length := by
  cases op with
  | take n =>
    rw [step] at hs
    split at hs
    next => cases hs
    next =>
      split at hs
      next => cases hs
      next =>
        cases hs
        simp only [List.length_drop]
        omega
  | finish =>
    rw [step] at hs
    split at hs <;> cases hs
    rfl
  | withCapacity n =>
    rw [step] at hs
    split at hs <;> cases hs
    rfl
  | turn =>
    cases hs
    rfl

/-- Every request is made somewhere inside the data. -/
theorem requests_inside {m : Machine} {r : Reader α} {c c' : Cursor} {op : CursorOp}
    (hmem : (c', op) ∈ requests m r c) : c'.pos + c'.rest.length = c.pos + c.rest.length := by
  induction r generalizing c with
  | done r => cases hmem
  | step op' k ih =>
    rcases List.mem_cons.1 hmem with heq | hmem
    · obtain ⟨rfl, -⟩ := Prod.mk.inj heq
      rfl
    · cases hs : step m c op' with
      | error e =>
        rw [hs] at hmem
        cases hmem
      | ok p =>
        rw [hs] at hmem
        exact (ih p.1 hmem).trans (step_moves hs)

/-! ## §2. Two machines. -/

/-- A request within the limits of the 64-bit machine, for an input of `n` bytes. -/
def Fits (n : Nat) : Cursor × CursorOp → Prop
  | (c, .take k) => c.pos + k < usizeBound
  | (_, .finish) => True
  | (_, .withCapacity k) => k ≤ n ∧ k * 32 ≤ isizeMax
  | (_, .turn) => True

/-- Within the limits the machines do the same. -/
theorem step_of_fits {n : Nat} {c : Cursor} {op : CursorOp} (h : Fits n (c, op)) :
    step .bits64 c op = step .unbounded c op := by
  cases op with
  | take k =>
    have hk : c.pos + k < usizeBound := h
    have hno : ¬(Machine.bits64 = .bits64 ∧ usizeBound ≤ c.pos + k) := by omega
    have hno' : ¬(Machine.unbounded = .bits64 ∧ usizeBound ≤ c.pos + k) := by simp
    rw [step, step, if_neg hno, if_neg hno']
  | finish => rfl
  | withCapacity k =>
    have hk : k * 32 ≤ isizeMax := h.2
    have hno : ¬(Machine.bits64 = .bits64 ∧ isizeMax < k * 32) := by omega
    have hno' : ¬(Machine.unbounded = .bits64 ∧ isizeMax < k * 32) := by simp
    rw [step, step, if_neg hno, if_neg hno']
  | turn => rfl

/-- A run whose requests all fit is the run of the unbounded machine. -/
theorem run_of_fits {n : Nat} {r : Reader α} {c : Cursor}
    (h : ∀ e ∈ requests .unbounded r c, Fits n e) :
    run .bits64 r c = run .unbounded r c ∧ requests .bits64 r c = requests .unbounded r c := by
  induction r generalizing c with
  | done r => exact ⟨rfl, rfl⟩
  | step op k ih =>
    have hs := step_of_fits (h (c, op) List.mem_cons_self)
    rw [run, run, requests, requests, hs]
    cases hu : step .unbounded c op with
    | error e => exact ⟨rfl, rfl⟩
    | ok p =>
      have hrest : ∀ e ∈ requests .unbounded (k p.1) p.2, Fits n e := by
        intro e he
        refine h e (List.mem_cons_of_mem _ ?_)
        rw [hu]
        exact he
      obtain ⟨hr, hq⟩ := ih p.1 hrest
      exact ⟨hr, congrArg _ hq⟩

/-- The same from the requests the 64-bit machine sees. -/
theorem requests_of_fits {n : Nat} {r : Reader α} {c : Cursor}
    (h : ∀ e ∈ requests .bits64 r c, Fits n e) :
    requests .unbounded r c = requests .bits64 r c := by
  induction r generalizing c with
  | done r => rfl
  | step op k ih =>
    have hs := step_of_fits (h (c, op) List.mem_cons_self)
    rw [requests, requests, ← hs]
    cases hu : step .bits64 c op with
    | error e => rfl
    | ok p =>
      have hrest : ∀ e ∈ requests .bits64 (k p.1) p.2, Fits n e := by
        intro e he
        refine h e (List.mem_cons_of_mem _ ?_)
        rw [hu]
        exact he
      exact congrArg _ (ih p.1 hrest)

/-- An allocation beyond the machine's limit is a panic. -/
theorem run_of_overallocated {r : Reader α} {c c' : Cursor} {k : Nat}
    (hmem : (c', .withCapacity k) ∈ requests .bits64 r c) (hk : isizeMax < k * 32) :
    run .bits64 r c = .error .panic := by
  induction r generalizing c with
  | done r => cases hmem
  | step op f ih =>
    rcases List.mem_cons.1 hmem with heq | hmem
    · obtain ⟨rfl, rfl⟩ := Prod.mk.inj heq
      show (step .bits64 c' (.withCapacity k)).bind _ = _
      rw [step, if_pos ⟨rfl, hk⟩]
      rfl
    · cases hs : step .bits64 c op with
      | error e =>
        rw [hs] at hmem
        cases hmem
      | ok p =>
        rw [hs] at hmem
        rw [run, hs]
        exact ih p.1 hmem

/-! ## §3. Turns and bytes. -/

def isTurn : Cursor × CursorOp → Bool
  | (_, .take _) => false
  | (_, .finish) => false
  | (_, .withCapacity _) => false
  | (_, .turn) => true

/-- Turns of loops a run takes. -/
def turns (m : Machine) (r : Reader α) (c : Cursor) : Nat := (requests m r c).countP isTurn

/-- A single request that is not a turn takes none. -/
theorem turns_request (m : Machine) {op : CursorOp} (c : Cursor) (hop : isTurn (c, op) = false) :
    turns m (.request (S := cursorSig) op) c = 0 := by
  show List.countP isTurn ((c, op) :: (step m c op).toOption.elim [] (fun _ => [])) = 0
  rw [List.countP_cons_of_neg (by simp [hop])]
  cases step m c op <;> rfl

/-- The reader never panics of its own.  A run that succeeds reads `gain` bytes more than it takes
turns; a run that fails takes at most `slack` turns more than it had bytes. -/
structure Paced (gain slack : Nat) (r : Reader α) : Prop where
  calm : ∀ c, Orderly (run .unbounded r c)
  done : ∀ m c p, run m r c = .ok p → turns m r c + gain + p.2.rest.length ≤ c.rest.length
  failed : ∀ m c e, run m r c = .error e → turns m r c ≤ c.rest.length + slack

namespace Paced

variable {g k s t : Nat} {r : Reader α} {f : α → Reader β}

theorem weaken (h : Paced g s r) (hg : k ≤ g) (hs : s ≤ t) : Paced k t r where
  calm := h.calm
  done m c p hp := by
    have := h.done m c p hp
    omega
  failed m c e he := by
    have := h.failed m c e he
    omega

theorem pure (a : α) : Paced 0 s (Pure.pure a : Reader α) where
  calm c := by simp [Orderly, run, Except.map]
  done m c p hp := by
    cases hp
    show 0 + 0 + c.rest.length ≤ c.rest.length
    omega
  failed m c e he := by cases he

theorem reject (e : SoalError) : Paced g s (Cursor.reject e : Reader α) where
  calm c := by
    intro h
    cases h
  done m c p hp := by cases hp
  failed m c e he := Nat.zero_le _

theorem ofRes {x : Res α} (hx : Orderly x) : Paced 0 s (Soal.ofRes x) where
  calm c := by
    show Orderly (x.map fun a => (a, c))
    exact hx.map
  done m c p hp := by
    obtain ⟨a, -, rfl⟩ : ∃ a, x = .ok a ∧ (a, c) = p := by
      cases x with
      | ok a => exact ⟨a, rfl, Except.ok.inj hp⟩
      | error e => cases hp
    show 0 + 0 + c.rest.length ≤ c.rest.length
    omega
  failed m c e he := Nat.zero_le _

theorem take (n : Nat) : Paced n s (Cursor.take n) where
  calm c := by
    show Orderly ((step .unbounded c (.take n)).bind fun p => .ok (p.1, p.2))
    refine Orderly.bind ?_ fun p h => by cases h
    rw [step, if_neg (by simp)]
    split
    · intro h
      cases h
    · intro h
      cases h
  done m c p hp := by
    obtain ⟨q, hq, hp⟩ := bind_ok_iff.1 hp
    cases hp
    have ht : turns m (Cursor.take n) c = 0 := turns_request m c rfl
    show turns m (Cursor.take n) c + n + q.2.rest.length ≤ c.rest.length
    rw [step] at hq
    split at hq
    next => cases hq
    next =>
      split at hq
      next => cases hq
      next =>
        cases hq
        simp only [List.length_drop]
        omega
  failed m c e he := by
    have ht : turns m (Cursor.take n) c = 0 := turns_request m c rfl
    omega

theorem withCapacity (n : Nat) : Paced 0 s (Soal.withCapacity n) where
  calm c := by
    show Orderly ((step .unbounded c (.withCapacity n)).bind fun p => .ok (p.1, p.2))
    rw [step, if_neg (by simp)]
    intro h
    cases h
  done m c p hp := by
    obtain ⟨q, hq, hp⟩ := bind_ok_iff.1 hp
    cases hp
    have ht : turns m (Soal.withCapacity n) c = 0 := turns_request m c rfl
    show turns m (Soal.withCapacity n) c + 0 + q.2.rest.length ≤ c.rest.length
    rw [step] at hq
    split at hq
    next => cases hq
    next =>
      cases hq
      show _ + 0 + c.rest.length ≤ c.rest.length
      omega
  failed m c e he := by
    have ht : turns m (Soal.withCapacity n) c = 0 := turns_request m c rfl
    omega

theorem finish : Paced 0 s Cursor.finish where
  calm c := by
    show Orderly ((step .unbounded c .finish).bind fun p => .ok (p.1, p.2))
    rw [step]
    split
    · intro h
      cases h
    · intro h
      cases h
  done m c p hp := by
    obtain ⟨q, hq, hp⟩ := bind_ok_iff.1 hp
    cases hp
    have ht : turns m Cursor.finish c = 0 := turns_request m c rfl
    show turns m Cursor.finish c + 0 + q.2.rest.length ≤ c.rest.length
    rw [step] at hq
    split at hq <;> cases hq
    show _ + 0 + c.rest.length ≤ c.rest.length
    omega
  failed m c e he := by
    have ht : turns m Cursor.finish c = 0 := turns_request m c rfl
    omega

/-- **One reader after another.**  The second may waste what the first has gained. -/
theorem bind (hr : Paced g s r) (hf : ∀ a, Paced k t (f a)) (hs : t ≤ g + s) :
    Paced (g + k) s (r >>= f) where
  calm c := by
    rw [run_bind]
    exact (hr.calm c).bind fun p => (hf p.1).calm p.2
  done m c p hp := by
    rw [run_bind] at hp
    obtain ⟨q, hq, hp⟩ := bind_ok_iff.1 hp
    have h₁ := hr.done m c q hq
    have h₂ := (hf q.1).done m q.2 p hp
    have ht : turns m (r >>= f) c = turns m r c + turns m (f q.1) q.2 := by
      unfold turns
      rw [requests_bind, hq, List.countP_append]
      rfl
    omega
  failed m c e he := by
    rw [run_bind] at he
    cases hq : run m r c with
    | error e' =>
      have h₁ := hr.failed m c e' hq
      have ht : turns m (r >>= f) c = turns m r c := by
        unfold turns
        rw [requests_bind, hq, List.countP_append]
        rfl
      omega
    | ok q =>
      rw [hq] at he
      have h₁ := hr.done m c q hq
      have h₂ := (hf q.1).failed m q.2 e he
      have ht : turns m (r >>= f) c = turns m r c + turns m (f q.1) q.2 := by
        unfold turns
        rw [requests_bind, hq, List.countP_append]
        rfl
      omega

/-- **A turn costs one byte**, which what follows has to read. -/
theorem turn {x : Reader α} (hx : Paced (g + 1) s x) :
    Paced g (s + 1) (Cursor.turn >>= fun _ => x) where
  calm c := hx.calm c
  done m c p hp := by
    have h := hx.done m c p hp
    have ht : turns m (Cursor.turn >>= fun _ => x) c = turns m x c + 1 := List.countP_cons_of_pos rfl
    omega
  failed m c e he := by
    have h := hx.failed m c e he
    have ht : turns m (Cursor.turn >>= fun _ => x) c = turns m x c + 1 := List.countP_cons_of_pos rfl
    omega

/-- A reader followed by one that neither reads nor turns. -/
theorem andThen (hr : Paced g s r) (hf : ∀ a, Paced 0 0 (f a)) : Paced g s (r >>= f) :=
  hr.bind hf (Nat.zero_le _)

/-! ### The readers of items. -/

theorem takeU8 : Paced 1 0 Cursor.takeU8 := (take 1).andThen fun _ => pure _

theorem readArg (major ai : Nat) : Paced 0 0 (Cursor.readArg major ai) := by
  unfold Cursor.readArg
  split
  next => exact pure _
  next =>
    split
    next => exact (takeU8.andThen fun _ => pure _).weaken (Nat.zero_le _) le_rfl
    next =>
      split
      next => exact ((take 2).andThen fun _ => pure _).weaken (Nat.zero_le _) le_rfl
      next =>
        split
        next => exact ((take 4).andThen fun _ => pure _).weaken (Nat.zero_le _) le_rfl
        next =>
          split
          next => exact ((take 8).andThen fun _ => pure _).weaken (Nat.zero_le _) le_rfl
          next => exact reject _

theorem readUint : Paced 1 0 Cursor.readUint := takeU8.andThen fun _ => readArg _ _

theorem expectMajorUint (major : Nat) : Paced 1 0 (Cursor.expectMajorUint major) := by
  refine readUint.andThen fun p => ?_
  dsimp only
  split
  next => exact reject _
  next => exact pure _

theorem readU64Value : Paced 1 0 Cursor.readU64Value := expectMajorUint 0

theorem readArrayHeader : Paced 1 0 Cursor.readArrayHeader := expectMajorUint 4

theorem readMapHeader : Paced 1 0 Cursor.readMapHeader := expectMajorUint 5

theorem readBstr : Paced 1 0 Cursor.readBstr :=
  (expectMajorUint 2).andThen fun n => (take n).weaken (Nat.zero_le n) le_rfl

theorem readTstr : Paced 1 0 Cursor.readTstr := by
  refine (expectMajorUint 3).andThen fun n => ?_
  refine ((take n).weaken (Nat.zero_le n) le_rfl).andThen fun bytes => ?_
  split
  next => exact pure _
  next => exact reject _

theorem readHash (complaint : String) : Paced 1 0 (Cursor.readHash complaint) := by
  refine readBstr.andThen fun b => ?_
  split
  next => exact pure _
  next => exact reject _

theorem readFixed (n : Nat) (complaint : String) : Paced 1 0 (Soal.readFixed n complaint) := by
  refine readBstr.andThen fun b => ?_
  split
  next => exact pure _
  next => exact reject _

theorem checkAscending [LT α] [DecidableRel (α := α) (· < ·)] (last : Option α) (k : α)
    (complaint : String) : Paced 0 0 (Soal.checkAscending last k complaint) := by
  unfold Soal.checkAscending
  split
  next =>
    split
    next => exact pure _
    next => exact reject _
  next => exact pure _

/-- A value that is read and stored. -/
theorem stored (hr : Paced 1 0 r) (store : α → β) :
    Paced 1 0 (r >>= fun a => (Pure.pure (store a) : Reader β)) :=
  hr.andThen fun _ => pure _

/-- The last turn of a loop may find nothing left to read. -/
theorem readHashes (complaint : String) (n : Nat) : Paced 0 1 (Soal.readHashes complaint n) := by
  induction n with
  | zero => exact pure _
  | succ n ih =>
    have hrest : ∀ h, Paced 0 1 (Soal.readHashes complaint n >>= fun hs =>
        (Pure.pure (h :: hs) : Reader (List ContentHash))) := fun h =>
      ih.bind (fun _ => pure _) (Nat.zero_le _)
    exact ((readHash complaint).bind hrest (by omega)).turn

/-! ### Trees. -/

theorem readEntryValue (acc : EntryFields) (k : Nat) : Paced 1 0 (Soal.readEntryValue acc k) := by
  unfold Soal.readEntryValue
  split
  next => exact readU64Value.stored _
  next =>
    split
    next =>
      split
      next => exact (readHash _).stored _
      next => exact readU64Value.stored _
    next =>
      split
      next =>
        -- the header of the array pays for the turn that fails
        refine readArrayHeader.bind (k := 0) (fun n => ?_) (show 1 ≤ 1 + 0 by omega)
        refine (withCapacity n).bind (k := 0) (fun _ => ?_) (show 1 ≤ 0 + 1 by omega)
        exact (readHashes _ n).bind (fun _ => pure _) (Nat.zero_le _)
      next => exact reject _

theorem readEntryField (acc : EntryFields) : Paced 1 0 (Soal.readEntryField acc) :=
  readU64Value.andThen fun k => (checkAscending _ k _).andThen fun _ =>
    (readEntryValue _ k).weaken (by omega) le_rfl

theorem readEntryFields (n : Nat) (acc : EntryFields) : Paced 0 1 (Soal.readEntryFields n acc) := by
  induction n generalizing acc with
  | zero => exact pure _
  | succ n ih => exact ((readEntryField acc).bind (fun acc' => ih acc') (by omega)).turn

theorem orderly_entryOfFields (acc : EntryFields) : Orderly (entryOfFields acc) := by
  unfold entryOfFields
  intro h
  split at h
  next => split at h <;> cases h
  next => split at h <;> cases h
  next => cases h

theorem orderly_validateSegment (seg : List Char) : Orderly (validateSegment seg) := by
  unfold validateSegment
  intro h
  repeat' split at h
  all_goals cases h

theorem orderly_validatePath (path : String) : Orderly (validatePath path) := by
  unfold validatePath validatePathChars
  have hforM : ∀ segs : List (List Char), Orderly (segs.forM validateSegment) := by
    intro segs
    induction segs with
    | nil => exact fun h => by cases h
    | cons seg segs ih => exact (orderly_validateSegment seg).bind fun _ => ih
  have hfail : ∀ e : SoalError, Orderly (fail e : Res Unit) := fun e h => by cases h
  by_cases h₁ : path.toList.isEmpty
  · rw [if_pos h₁]
    exact hfail _
  by_cases h₂ : path.toList.contains '\x00'
  · rw [if_neg h₁, if_pos h₂]
    exact hfail _
  by_cases h₃ : path.toList.contains '\\'
  · rw [if_neg h₁, if_neg h₂, if_pos h₃]
    exact hfail _
  by_cases h₄ : path.toList.head? = some '/'
  · rw [if_neg h₁, if_neg h₂, if_neg h₃, if_pos h₄]
    exact hfail _
  by_cases h₅ : hasDrivePrefix path.toList
  · rw [if_neg h₁, if_neg h₂, if_neg h₃, if_neg h₄, if_pos h₅]
    exact hfail _
  · rw [if_neg h₁, if_neg h₂, if_neg h₃, if_neg h₄, if_neg h₅]
    exact hforM _

theorem readTreeEntries (n : Nat) (last : Option String) (tree : Tree) :
    Paced 0 1 (Soal.readTreeEntries n last tree) := by
  induction n generalizing last tree with
  | zero => exact pure _
  | succ n ih =>
    have hentry : ∀ path em, Paced 0 1 (Soal.readEntryFields em .none >>= fun acc =>
        Soal.ofRes (entryOfFields acc) >>= fun entry =>
          Soal.readTreeEntries n (some path) ⟨tree.entries.insert path entry⟩) := by
      intro path em
      refine (readEntryFields em .none).bind (k := 0) (fun acc => ?_) (show 1 ≤ 0 + 1 by omega)
      exact (ofRes (orderly_entryOfFields acc)).bind (fun entry => ih _ _) (show 1 ≤ 0 + 1 by omega)
    have hbody : Paced 1 0 (Cursor.readTstr >>= fun path =>
        Soal.checkAscending last path "tree entry keys not strictly sorted" >>= fun _ =>
          Soal.ofRes (validatePath path) >>= fun _ => Cursor.readMapHeader >>= fun em =>
            Soal.readEntryFields em .none >>= fun acc =>
              Soal.ofRes (entryOfFields acc) >>= fun entry =>
                Soal.readTreeEntries n (some path) ⟨tree.entries.insert path entry⟩) := by
      refine readTstr.andThen fun path => (checkAscending _ _ _).andThen fun _ => ?_
      refine (ofRes (orderly_validatePath path)).andThen fun _ => ?_
      exact (readMapHeader.bind (hentry path) (show 1 ≤ 1 + 0 by omega)).weaken (by omega) le_rfl
    exact hbody.turn

theorem readTreeBody : Paced 1 0 Soal.readTreeBody := by
  refine readMapHeader.andThen fun n => ?_
  split
  next => exact reject _
  next =>
    refine (readU64Value.andThen fun key => ?_).weaken (Nat.zero_le _) le_rfl
    split
    next => exact reject _
    next =>
      refine (readMapHeader.bind (k := 0) (t := 1) (fun k => ?_) (by omega)).weaken
        (Nat.zero_le _) le_rfl
      split
      next => exact reject _
      next => exact readTreeEntries _ _ _

/-! ### Commits. -/

theorem readCommitValue (acc : CommitFields) (k : Nat) : Paced 1 0 (Soal.readCommitValue acc k) := by
  unfold Soal.readCommitValue
  split
  next => exact (readHash _).stored _
  next =>
    split
    next =>
      refine readArrayHeader.bind (k := 0) (t := 1) (fun n => ?_) (by omega)
      split
      next => exact reject _
      next =>
        refine (withCapacity n).bind (k := 0) (fun _ => ?_) (show 1 ≤ 0 + 1 by omega)
        exact (readHashes _ n).bind (fun _ => pure _) (Nat.zero_le _)
    next =>
      split
      next => exact (readHash _).stored _
      next =>
        split
        next => exact readU64Value.stored _
        next =>
          split
          next => exact readTstr.stored _
          next =>
            split
            next =>
              refine readU64Value.andThen fun v => ?_
              split
              next => exact reject _
              next => exact pure _
            next =>
              split
              next =>
                refine readBstr.andThen fun b => ?_
                split
                next => exact reject _
                next => exact pure _
              next => exact reject _

theorem readCommitField (acc : CommitFields) : Paced 1 0 (Soal.readCommitField acc) :=
  readU64Value.andThen fun k => (checkAscending _ k _).andThen fun _ =>
    (readCommitValue _ k).weaken (by omega) le_rfl

theorem readCommitFields (n : Nat) (acc : CommitFields) :
    Paced 0 1 (Soal.readCommitFields n acc) := by
  induction n generalizing acc with
  | zero => exact pure _
  | succ n ih => exact ((readCommitField acc).bind (fun acc' => ih acc') (by omega)).turn

theorem readCommitBody : Paced 1 0 Soal.readCommitBody := by
  refine readMapHeader.bind (k := 0) (t := 1) (fun n => ?_) (by omega)
  split
  next => exact reject _
  next => exact readCommitFields _ _

/-! ### Announcements. -/

theorem readHeadValue (acc : HeadFields) (k : Nat) : Paced 1 0 (Soal.readHeadValue acc k) := by
  unfold Soal.readHeadValue
  split
  next => exact readU64Value.stored _
  next =>
    split
    next => exact (readFixed _ _).stored _
    next =>
      split
      next => exact readTstr.stored _
      next =>
        split
        next => exact (readHash _).stored _
        next =>
          split
          next => exact readU64Value.stored _
          next =>
            split
            next => exact (readFixed _ _).stored _
            next =>
              split
              next => exact readU64Value.stored _
              next =>
                split
                next => exact readU64Value.stored _
                next =>
                  split
                  next => exact (readFixed _ _).stored _
                  next => exact reject _

theorem readHeadField (acc : HeadFields) : Paced 1 0 (Soal.readHeadField acc) :=
  readU64Value.andThen fun k => (checkAscending _ k _).andThen fun _ =>
    (readHeadValue _ k).weaken (by omega) le_rfl

theorem readHeadFields (n : Nat) (acc : HeadFields) : Paced 0 1 (Soal.readHeadFields n acc) := by
  induction n generalizing acc with
  | zero => exact pure _
  | succ n ih => exact ((readHeadField acc).bind (fun acc' => ih acc') (by omega)).turn

theorem readHeadBody : Paced 1 0 Soal.readHeadBody := by
  refine readMapHeader.bind (k := 0) (t := 1) (fun n => ?_) (by omega)
  split
  next => exact reject _
  next => exact readHeadFields _ _

/-- A body that is read to its end. -/
theorem whole (hr : Paced 1 0 r) :
    Paced 1 0 (r >>= fun a => Cursor.finish >>= fun _ => (Pure.pure a : Reader α)) :=
  hr.andThen fun _ => finish.andThen fun _ => pure _

end Paced

end Cursor

/-! ## §4. The decoders. -/

open Cursor

/-- A decoder of byte strings. -/
structure Decoder (α β : Type) where
  /-- the part of the input the cursor is put on, once that has passed the checks before it -/
  body : Bytes → Res Bytes
  reader : Reader α
  /-- the object that was read -/
  object : α → Res β

namespace Decoder

variable {α β : Type} (d : Decoder α β)

def decode (b : Bytes) : Res β :=
  (d.body b).bind fun data => (decodeAll d.reader data).bind d.object

/-- What the decoder asks of the cursor. -/
def Asks (m : Machine) (b : Bytes) (e : Cursor × CursorOp) : Prop :=
  ∃ data, d.body b = .ok data ∧ e ∈ requests m d.reader ⟨0, data⟩

/-- The decoder returns, with this result, and nothing it does leaves the bounds of the machine or of
the input. -/
structure Safe (b : Bytes) (result : Res β) : Prop where
  /-- `Ok` or `Err` -/
  returns : Orderly result
  /-- position plus declared length stays in `usize` -/
  additions : ∀ c k, d.Asks .bits64 b (c, .take k) → c.pos + k < usizeBound
  /-- a slice that is taken lies in the data -/
  slices : ∀ data c k p, d.body b = .ok data → (c, .take k) ∈ requests .bits64 d.reader ⟨0, data⟩ →
    step .bits64 c (.take k) = .ok p → c.pos ≤ c.pos + k ∧ c.pos + k ≤ data.length
  /-- no more elements are allocated at once than the input has bytes -/
  allocations : ∀ c k, d.Asks .bits64 b (c, .withCapacity k) → k ≤ b.length
  /-- the loops turn at most once a byte -/
  turns : ∀ data, d.body b = .ok data → turns .bits64 d.reader ⟨0, data⟩ ≤ b.length

/-- Read without limits, the input makes no request that leaves them. -/
def Modest (b : Bytes) : Prop := ∀ e, d.Asks .unbounded b e → Fits b.length e

theorem slice_inside {data : Bytes} {c : Cursor} {k : Nat} {p : Bytes × Cursor}
    (hmem : (c, .take k) ∈ requests .bits64 d.reader ⟨0, data⟩)
    (hs : step .bits64 c (.take k) = .ok p) : c.pos + k ≤ data.length := by
  have hinside : c.pos + c.rest.length = 0 + data.length := requests_inside hmem
  rw [step] at hs
  split at hs
  next => cases hs
  next =>
    split at hs
    next => cases hs
    next => omega

/-- **A decoder is safe on exactly the modest inputs.** -/
theorem safe_iff_modest (hr : Paced 1 0 d.reader) (hbody : ∀ b, Orderly (d.body b))
    (hpart : ∀ b data, d.body b = .ok data → data.length ≤ b.length)
    (hobject : ∀ a, Orderly (d.object a)) (b : Bytes) :
    d.Safe b (d.decode b) ↔ d.Modest b := by
  constructor
  · rintro h e ⟨data, hdata, he⟩
    -- what the 64-bit machine sees fits, so it sees everything
    have hfits : ∀ e ∈ requests .bits64 d.reader ⟨0, data⟩, Fits b.length e := by
      rintro ⟨c, op⟩ hmem
      cases op with
      | take k => exact h.additions c k ⟨data, hdata, hmem⟩
      | finish => trivial
      | withCapacity k =>
        refine ⟨h.allocations c k ⟨data, hdata, hmem⟩, ?_⟩
        by_contra hk
        have hpanic := run_of_overallocated hmem (Nat.lt_of_not_le hk)
        refine h.returns ?_
        rw [decode, hdata, ok_bind, decodeAll, hpanic]
        rfl
      | turn => trivial
    rw [requests_of_fits hfits] at he
    exact hfits e he
  · intro hm
    have hsame : ∀ data, d.body b = .ok data →
        run .bits64 d.reader ⟨0, data⟩ = run .unbounded d.reader ⟨0, data⟩ ∧
          requests .bits64 d.reader ⟨0, data⟩ = requests .unbounded d.reader ⟨0, data⟩ := by
      intro data hdata
      exact run_of_fits fun e he => hm e ⟨data, hdata, he⟩
    have hfits : ∀ e, d.Asks .bits64 b e → Fits b.length e := by
      rintro e ⟨data, hdata, he⟩
      rw [(hsame data hdata).2] at he
      exact hm e ⟨data, hdata, he⟩
    constructor
    case returns =>
      unfold decode
      cases hdata : d.body b with
      | error e =>
        intro h
        obtain rfl : e = .panic := Except.error.inj h
        exact hbody b hdata
      | ok data =>
        show Orderly ((decodeAll d.reader data).bind d.object)
        refine Orderly.bind ?_ hobject
        unfold decodeAll
        rw [(hsame data hdata).1]
        exact (hr.calm _).map
    case additions =>
      intro c k hk
      exact hfits _ hk
    case slices =>
      intro data c k p _ hmem hs
      exact ⟨Nat.le_add_right _ _, d.slice_inside hmem hs⟩
    case allocations =>
      intro c k hk
      exact (hfits _ hk).1
    case turns =>
      intro data hdata
      have hlen := hpart b data hdata
      cases hrun : run .bits64 d.reader ⟨0, data⟩ with
      | ok p =>
        have hpace := hr.done .bits64 _ p hrun
        show _ ≤ b.length
        have : (⟨0, data⟩ : Cursor).rest.length = data.length := rfl
        omega
      | error e =>
        have hpace := hr.failed .bits64 _ e hrun
        have : (⟨0, data⟩ : Cursor).rest.length = data.length := rfl
        omega

end Decoder

/-- The reader of a body, to the end of the data. -/
def wholeBody {α : Type} (r : Reader α) : Reader α :=
  r >>= fun a => finish >>= fun _ => pure a

def treeBodyDecoder : Decoder Tree Tree := ⟨.ok, wholeBody readTreeBody, .ok⟩

def treeWireDecoder : Decoder Tree Tree := ⟨unframe domainTree, wholeBody readTreeBody, .ok⟩

def commitBodyDecoder : Decoder CommitFields Commit := ⟨.ok, wholeBody readCommitBody, commitOfFields⟩

def commitWireDecoder : Decoder CommitFields Commit :=
  ⟨unframe domainCommit, wholeBody readCommitBody, commitOfFields⟩

def headDecoder : Decoder HeadFields HeadAnnouncement where
  body data :=
    if data.length > maxMessageBytes then fail (.verify "head announcement too large") else .ok data
  reader := wholeBody readHeadBody
  object := announcementOfFields

/-- They are the decoders of the source. -/
theorem decoders_decode (b : Bytes) : decodeTreeBody b = treeBodyDecoder.decode b ∧
    decodeTreeWire b = treeWireDecoder.decode b ∧ decodeCommitBody b = commitBodyDecoder.decode b ∧
    decodeCommitWire b = commitWireDecoder.decode b ∧
    decodeHeadAnnouncement b = headDecoder.decode b := by
  have htree : ∀ b, decodeTreeBody b = treeBodyDecoder.decode b := by
    intro b
    show _ = (decodeAll (wholeBody readTreeBody) b).bind .ok
    unfold decodeTreeBody wholeBody
    cases decodeAll (readTreeBody >>= fun tree => finish >>= fun _ => pure tree) b <;> rfl
  refine ⟨htree b, ?_, rfl, rfl, ?_⟩
  · unfold decodeTreeWire Decoder.decode
    exact congrArg _ (funext htree)
  · unfold decodeHeadAnnouncement Decoder.decode headDecoder
    dsimp only
    split <;> rfl

theorem orderly_unframe (domain wire : Bytes) : Orderly (unframe domain wire) := by
  unfold unframe
  intro h
  split at h
  next => cases h
  next => split at h <;> cases h

theorem unframe_length {domain wire data : Bytes} (h : unframe domain wire = .ok data) :
    data.length ≤ wire.length := by
  unfold unframe at h
  split at h
  next => cases h
  next =>
    split at h
    next => cases h
    next =>
      cases h
      rw [List.length_drop]
      omega

theorem orderly_require {α : Type} (o : Option α) (complaint : String) :
    Orderly (require o complaint) := by
  unfold require
  intro h
  split at h <;> cases h

theorem orderly_commitOfFields (acc : CommitFields) : Orderly (commitOfFields acc) := by
  unfold commitOfFields
  refine (orderly_require _ _).bind fun _ => (orderly_require _ _).bind fun _ => ?_
  refine (orderly_require _ _).bind fun _ => (orderly_require _ _).bind fun _ => ?_
  exact (orderly_require _ _).bind fun _ h => by cases h

theorem orderly_announcementOfFields (acc : HeadFields) : Orderly (announcementOfFields acc) := by
  unfold announcementOfFields
  refine (orderly_require _ _).bind fun _ => (orderly_require _ _).bind fun _ => ?_
  refine (orderly_require _ _).bind fun _ => (orderly_require _ _).bind fun _ => ?_
  refine (orderly_require _ _).bind fun _ => (orderly_require _ _).bind fun _ => ?_
  refine (orderly_require _ _).bind fun _ => (orderly_require _ _).bind fun _ => ?_
  exact (orderly_require _ _).bind fun _ h => by cases h

/-- All five are safe on exactly their modest inputs. -/
theorem decoders_safe_iff_modest (b : Bytes) :
    (treeBodyDecoder.Safe b (decodeTreeBody b) ↔ treeBodyDecoder.Modest b) ∧
    (treeWireDecoder.Safe b (decodeTreeWire b) ↔ treeWireDecoder.Modest b) ∧
    (commitBodyDecoder.Safe b (decodeCommitBody b) ↔ commitBodyDecoder.Modest b) ∧
    (commitWireDecoder.Safe b (decodeCommitWire b) ↔ commitWireDecoder.Modest b) ∧
    (headDecoder.Safe b (decodeHeadAnnouncement b) ↔ headDecoder.Modest b) := by
  obtain ⟨h₁, h₂, h₃, h₄, h₅⟩ := decoders_decode b
  rw [h₁, h₂, h₃, h₄, h₅]
  have hok : ∀ b : Bytes, Orderly (.ok b : Res Bytes) := fun b h => by cases h
  have hself : ∀ b data : Bytes, (.ok b : Res Bytes) = .ok data → data.length ≤ b.length := by
    intro b data h
    cases h
    exact le_rfl
  refine ⟨?_, ?_, ?_, ?_, ?_⟩
  · exact Decoder.safe_iff_modest _ Paced.readTreeBody.whole hok hself (fun a h => by cases h) b
  · exact Decoder.safe_iff_modest _ Paced.readTreeBody.whole (orderly_unframe _)
      (fun _ _ => unframe_length) (fun a h => by cases h) b
  · exact Decoder.safe_iff_modest _ Paced.readCommitBody.whole hok hself orderly_commitOfFields b
  · exact Decoder.safe_iff_modest _ Paced.readCommitBody.whole (orderly_unframe _)
      (fun _ _ => unframe_length) orderly_commitOfFields b
  · refine Decoder.safe_iff_modest _ Paced.readHeadBody.whole (fun b => ?_) (fun b data h => ?_)
      orderly_announcementOfFields b
    · unfold headDecoder
      intro h
      dsimp only at h
      split at h <;> cases h
    · unfold headDecoder at h
      dsimp only at h
      split at h
      next => cases h
      next =>
        cases h
        exact le_rfl

end Soal

/-
  Soal.Lib.Program — programs over a directory of files, and their crashes.

  A program is a tree of primitive requests (`Prog`): it asks for one primitive step, is handed
  the reply, and goes on.  The same tree is read in two ways:

    * `run`        — every request is answered and the program finishes;
    * `CrashPoint` — the process is killed between two primitives.

  `wp` is the calculus over both: `wp env I x Q w` says that `I` holds in every state the program
  `x` passes through from `w`, and `Q` of its result.  `fs::write` is two primitives (truncate,
  then write), a rename is one.

  Nothing here names a particular program.
-/
import Mathlib.Data.List.AList

namespace FileProg

/-! ## §1. Programs over a signature of requests. -/

/-- The primitive requests of a program and the type of the reply to each. -/
structure Signature where
  Op : Type
  Reply : Op → Type

/-- A program: it has finished with a result or an error, or asks for one primitive step. -/
inductive Prog (S : Signature) (ε α : Type) : Type where
  | done (r : Except ε α)
  | step (op : S.Op) (k : S.Reply op → Prog S ε α)

namespace Prog

variable {S : Signature} {ε α β γ : Type}

/-- Sequencing; an error ends the program. -/
def bind : Prog S ε α → (α → Prog S ε β) → Prog S ε β
  | .done (.ok a), f => f a
  | .done (.error e), _ => .done (.error e)
  | .step op k, f => .step op (fun r => (k r).bind f)

/-- Hand the outcome of a program, success or error, to a handler. -/
def handle : Prog S ε α → (Except ε α → Prog S ε β) → Prog S ε β
  | .done r, h => h r
  | .step op k, h => .step op (fun r => (k r).handle h)

/-- One primitive request. -/
def request (op : S.Op) : Prog S ε (S.Reply op) := .step op (fun r => .done (.ok r))

instance : Monad (Prog S ε) where
  pure a := .done (.ok a)
  bind := bind

instance : MonadExcept ε (Prog S ε) where
  throw e := .done (.error e)
  tryCatch x h := x.handle (fun r => match r with
    | .ok a => .done (.ok a)
    | .error e => h e)

/-- A computed result is a program that asks for nothing. -/
instance : MonadLift (Except ε) (Prog S ε) where
  monadLift := .done

@[simp] theorem pure_eq (a : α) : (pure a : Prog S ε α) = .done (.ok a) := rfl

@[simp] theorem throw_eq (e : ε) : (throw e : Prog S ε α) = .done (.error e) := rfl

@[simp] theorem liftM_except (r : Except ε α) : (liftM r : Prog S ε α) = .done r := rfl

@[simp] theorem monadLift_except (r : Except ε α) : (monadLift r : Prog S ε α) = .done r := rfl

/-- Sequencing is associative. -/
theorem bind_bind (x : Prog S ε α) (f : α → Prog S ε β) (g : β → Prog S ε γ) :
    (x >>= f) >>= g = x >>= fun a => f a >>= g := by
  induction x with
  | done r => cases r <;> rfl
  | step op k ih => exact congrArg (Prog.step op) (funext ih)

end Prog

/-! ## §2. A directory of files. -/

/-- A file inside a fixed set `δ` of directories. -/
structure FilePath (δ : Type) where
  dir : δ
  name : String
  deriving DecidableEq

/-- Contents of a file. -/
abbrev Bytes := List UInt8

variable {δ : Type} [DecidableEq δ]

/-- The files on disk: finitely many, each with its contents. -/
abbrev Fs (δ : Type) := AList (fun _ : FilePath δ => Bytes)

/-- The names in one directory. -/
def Fs.names (fs : Fs δ) (d : δ) : List String :=
  fs.keys.filterMap (fun p => if p.dir = d then some p.name else none)

/-- `rename`: the source's contents appear under the target, the source is gone. -/
def Fs.rename (fs : Fs δ) (p q : FilePath δ) (b : Bytes) : Fs δ := (fs.erase p).insert q b

@[simp] theorem Fs.mem_names {fs : Fs δ} {d : δ} {n : String} :
    n ∈ fs.names d ↔ (⟨d, n⟩ : FilePath δ) ∈ fs := by
  simp only [Fs.names, List.mem_filterMap, AList.mem_keys, Option.ite_none_right_eq_some,
    Option.some.injEq]
  constructor
  · rintro ⟨⟨d', n'⟩, h, rfl, rfl⟩
    exact h
  · exact fun h => ⟨_, h, rfl, rfl⟩

theorem Fs.names_nodup (fs : Fs δ) (d : δ) : (fs.names d).Nodup := by
  refine List.Nodup.filterMap ?_ fs.keys_nodup
  rintro ⟨d₁, n₁⟩ ⟨d₂, n₂⟩ n h₁ h₂
  simp only [Option.mem_def, Option.ite_none_right_eq_some, Option.some.injEq] at h₁ h₂
  obtain ⟨rfl, rfl⟩ := h₁
  obtain ⟨rfl, rfl⟩ := h₂
  rfl

theorem Fs.mem_iff_lookup {fs : Fs δ} {p : FilePath δ} : p ∈ fs ↔ ∃ b, fs.lookup p = some b := by
  rw [← AList.lookup_isSome, Option.isSome_iff_exists]

/-! ## §3. Reading. -/

/-- The requests that leave the disk alone. -/
inductive ReadOp (δ : Type) where
  /-- `path.exists()` -/
  | pathExists (p : FilePath δ)
  /-- `fs::read(path)`; `none` when there is no such file -/
  | read (p : FilePath δ)
  /-- `fs::read_dir(dir)`: the names of its entries -/
  | readDir (d : δ)

def readSig (δ : Type) : Signature where
  Op := ReadOp δ
  Reply
    | .pathExists _ => Bool
    | .read _ => Option Bytes
    | .readDir _ => List String

/-- The reply the disk gives. -/
def answer (fs : Fs δ) : (op : ReadOp δ) → (readSig δ).Reply op
  | .pathExists p => decide (p ∈ fs)
  | .read p => fs.lookup p
  | .readDir d => fs.names d

/-- A program that only reads: by its type it cannot change the disk. -/
abbrev ReadM (δ ε α : Type) := Prog (readSig δ) ε α

namespace ReadM

variable {ε α β : Type}

def pathExists (p : FilePath δ) : ReadM δ ε Bool := .request (S := readSig δ) (.pathExists p)

def read (p : FilePath δ) : ReadM δ ε (Option Bytes) := .request (S := readSig δ) (.read p)

def readDir (d : δ) : ReadM δ ε (List String) := .request (S := readSig δ) (.readDir d)

/-- What a reading program returns on a given disk. -/
def eval (fs : Fs δ) : ReadM δ ε α → Except ε α
  | .done r => r
  | .step op k => eval fs (k (answer fs op))

section Eval

variable (fs : Fs δ)

@[simp] theorem eval_done (r : Except ε α) : eval fs (.done r : ReadM δ ε α) = r := rfl

@[simp] theorem eval_pathExists (p : FilePath δ) :
    eval fs (pathExists p : ReadM δ ε Bool) = .ok (decide (p ∈ fs)) := rfl

@[simp] theorem eval_read (p : FilePath δ) :
    eval fs (read p : ReadM δ ε (Option Bytes)) = .ok (fs.lookup p) := rfl

@[simp] theorem eval_readDir (d : δ) :
    eval fs (readDir d : ReadM δ ε (List String)) = .ok (fs.names d) := rfl

/-- Reading is a homomorphism into `Except`. -/
@[simp] theorem eval_bind (x : ReadM δ ε α) (f : α → ReadM δ ε β) :
    eval fs (x >>= f) = (eval fs x).bind (fun a => eval fs (f a)) := by
  induction x with
  | done r => cases r <;> rfl
  | step op k ih => exact ih _

@[simp] theorem eval_handle (x : ReadM δ ε α) (h : Except ε α → ReadM δ ε β) :
    eval fs (x.handle h) = eval fs (h (eval fs x)) := by
  induction x with
  | done r => rfl
  | step op k ih => exact ih _

@[simp] theorem eval_ite {c : Prop} [Decidable c] (x y : ReadM δ ε α) :
    eval fs (if c then x else y) = if c then eval fs x else eval fs y := by
  split <;> rfl

end Eval

end ReadM

/-! ## §4. Programs that change the disk. -/

/-- The primitives that change the disk.  `fs::write(p, b)` is `truncate p` then `write p b`. -/
inductive WriteOp (δ : Type) where
  | truncate (p : FilePath δ)
  | write (p : FilePath δ) (b : Bytes)
  | rename (p q : FilePath δ)
  | remove (p : FilePath δ)
  deriving DecidableEq

/-- A full request: a read, a change, or a question `Q` to the world outside the disk (clock,
randomness, network). -/
inductive FileOp (δ : Type) (Q : Signature) where
  | read (op : ReadOp δ)
  | change (op : WriteOp δ)
  | ask (q : Q.Op)

/-- `rename` and `remove` report whether they found their file. -/
def fileSig (δ : Type) (Q : Signature) : Signature where
  Op := FileOp δ Q
  Reply
    | .read op => (readSig δ).Reply op
    | .change _ => Bool
    | .ask q => Q.Reply q

abbrev FileM (δ : Type) (Q : Signature) (ε α : Type) := Prog (fileSig δ Q) ε α

/-- The disk, the number of outside questions asked so far, and the changes made since boot, newest
first.  No program can read the log: it only says where a crash cut a run. -/
structure World (δ : Type) where
  fs : Fs δ
  tick : Nat
  log : List (WriteOp δ)

/-- A process starts on a disk with an empty log. -/
def World.boot (fs : Fs δ) : World δ := ⟨fs, 0, []⟩

omit [DecidableEq δ] in
@[simp] theorem World.boot_fs (fs : Fs δ) : (World.boot fs).fs = fs := rfl

omit [DecidableEq δ] in
@[simp] theorem World.boot_log (fs : Fs δ) : (World.boot fs).log = [] := rfl

/-- Answers of the outside world, by the number of questions asked before. -/
abbrev Env (Q : Signature) := Nat → (q : Q.Op) → Q.Reply q

/-- Effect of a change on the files, and its report. -/
def WriteOp.apply (fs : Fs δ) : WriteOp δ → Bool × Fs δ
  | .truncate p => (true, fs.insert p [])
  | .write p b => (true, fs.insert p b)
  | .rename p q =>
      match fs.lookup p with
      | some b => (true, fs.rename p q b)
      | none => (false, fs)
  | .remove p => if p ∈ fs then (true, fs.erase p) else (false, fs)

/-- The world after a change. -/
def World.change (w : World δ) (op : WriteOp δ) : World δ :=
  ⟨(op.apply w.fs).2, w.tick, op :: w.log⟩

/-- The world after a question. -/
def World.asked (w : World δ) : World δ := { w with tick := w.tick + 1 }

@[simp] theorem World.change_fs (w : World δ) (op : WriteOp δ) :
    (w.change op).fs = (op.apply w.fs).2 := rfl

@[simp] theorem World.change_log (w : World δ) (op : WriteOp δ) :
    (w.change op).log = op :: w.log := rfl

omit [DecidableEq δ] in
@[simp] theorem World.asked_fs (w : World δ) : w.asked.fs = w.fs := rfl

omit [DecidableEq δ] in
@[simp] theorem World.asked_log (w : World δ) : w.asked.log = w.log := rfl

theorem World.lookup_truncated (w : World δ) (p q : FilePath δ) :
    (w.change (.truncate p)).fs.lookup q = if q = p then some [] else w.fs.lookup q := by
  show (w.fs.insert p []).lookup q = _
  split
  next h => rw [h, AList.lookup_insert]
  next h => rw [AList.lookup_insert_ne h]

theorem World.lookup_removed (w : World δ) (p q : FilePath δ) :
    (w.change (.remove p)).fs.lookup q = if q = p then none else w.fs.lookup q := by
  show (WriteOp.apply w.fs (.remove p)).2.lookup q = _
  by_cases hp : p ∈ w.fs
  · simp only [WriteOp.apply, if_pos hp]
    split
    next hq => rw [hq, AList.lookup_erase]
    next hq => rw [AList.lookup_erase_ne hq]
  · simp only [WriteOp.apply, if_neg hp]
    split
    next hq => rw [hq, AList.lookup_eq_none.2 hp]
    next => rfl

section Semantics

variable {Q : Signature} {ε α β : Type} (env : Env Q)

/-- One primitive step: the reply and the next world. -/
def exec (w : World δ) : (op : FileOp δ Q) → (fileSig δ Q).Reply op × World δ
  | .read op => (answer w.fs op, w)
  | .change op => ((op.apply w.fs).1, w.change op)
  | .ask q => (env w.tick q, w.asked)

/-- Run a program to its end. -/
def run : FileM δ Q ε α → World δ → Except ε α × World δ
  | .done r, w => (r, w)
  | .step op k, w => run (k (exec env w op).1) (exec env w op).2

/-- `CrashPoint env x w w'`: the process running `x` from `w` can be found in `w'`, between two
primitives (or before the first, or after the last). -/
inductive CrashPoint : FileM δ Q ε α → World δ → World δ → Prop where
  | here (x : FileM δ Q ε α) (w : World δ) : CrashPoint x w w
  | next {op : FileOp δ Q} {k : (fileSig δ Q).Reply op → FileM δ Q ε α} {w w' : World δ}
      (h : CrashPoint (k (exec env w op).1) (exec env w op).2 w') :
      CrashPoint (.step op k) w w'

/-- Running to the end is a crash point. -/
theorem CrashPoint.final (x : FileM δ Q ε α) (w : World δ) : CrashPoint env x w (run env x w).2 := by
  induction x generalizing w with
  | done r => exact .here _ _
  | step op k ih => exact .next (ih _ _)

/-! ## §5. The calculus. -/

/-- `x` passes only through states where `I` holds, and ends with `Q`. -/
def wp (I : World δ → Prop) : FileM δ Q ε α → (Except ε α → World δ → Prop) → World δ → Prop
  | .done r, Q, w => I w ∧ Q r w
  | .step op k, Q, w => I w ∧ wp I (k (exec env w op).1) Q (exec env w op).2

variable {env} {I : World δ → Prop} {w : World δ}

/-- **Soundness of the calculus**: `wp` speaks about every crash point and about the final
result. -/
theorem wp_iff {x : FileM δ Q ε α} {P : Except ε α → World δ → Prop} :
    wp env I x P w ↔ (∀ w', CrashPoint env x w w' → I w') ∧ P (run env x w).1 (run env x w).2 := by
  induction x generalizing w with
  | done r =>
      constructor
      · rintro ⟨hI, hP⟩
        refine ⟨fun w' h => ?_, hP⟩
        cases h
        exact hI
      · exact fun h => ⟨h.1 w (.here _ _), h.2⟩
  | step op k ih =>
      constructor
      · rintro ⟨hI, hk⟩
        obtain ⟨hc, hP⟩ := (ih _).1 hk
        refine ⟨fun w' h => ?_, hP⟩
        cases h with
        | here => exact hI
        | next h => exact hc w' h
      · exact fun h => ⟨h.1 w (.here _ _), (ih _).2 ⟨fun w' hc => h.1 w' (.next hc), h.2⟩⟩

theorem wp.here {x : FileM δ Q ε α} {P : Except ε α → World δ → Prop} (h : wp env I x P w) : I w :=
  (wp_iff.1 h).1 w (.here _ _)

theorem wp.crash {x : FileM δ Q ε α} {P : Except ε α → World δ → Prop} {w' : World δ}
    (h : wp env I x P w) (hc : CrashPoint env x w w') : I w' :=
  (wp_iff.1 h).1 w' hc

theorem wp.post {x : FileM δ Q ε α} {P : Except ε α → World δ → Prop} (h : wp env I x P w) :
    P (run env x w).1 (run env x w).2 :=
  (wp_iff.1 h).2

/-- Consequence. -/
theorem wp.mono {x : FileM δ Q ε α} {J : World δ → Prop} {P P' : Except ε α → World δ → Prop}
    (h : wp env I x P w) (hI : ∀ w, I w → J w) (hP : ∀ r w, I w → P r w → P' r w) :
    wp env J x P' w := by
  induction x generalizing w with
  | done r => exact ⟨hI w h.1, hP r w h.1 h.2⟩
  | step op k ih => exact ⟨hI w h.1, ih _ h.2⟩

/-- Two facts about one program are one fact. -/
theorem wp.and {x : FileM δ Q ε α} {J : World δ → Prop} {P P' : Except ε α → World δ → Prop}
    (h : wp env I x P w) (h' : wp env J x P' w) :
    wp env (fun w => I w ∧ J w) x (fun r w => P r w ∧ P' r w) w := by
  induction x generalizing w with
  | done r => exact ⟨⟨h.1, h'.1⟩, h.2, h'.2⟩
  | step op k ih => exact ⟨⟨h.1, h'.1⟩, ih _ h.2 h'.2⟩

theorem wp_done {r : Except ε α} {P : Except ε α → World δ → Prop} :
    wp env I (.done r) P w ↔ I w ∧ P r w := Iff.rfl

theorem wp_handle {x : FileM δ Q ε α} {h : Except ε α → FileM δ Q ε β}
    {P : Except ε β → World δ → Prop} :
    wp env I (x.handle h) P w ↔ wp env I x (fun r w => wp env I (h r) P w) w := by
  induction x generalizing w with
  | done r => exact ⟨fun hw => ⟨hw.here, hw⟩, fun hw => hw.2⟩
  | step op k ih => exact and_congr Iff.rfl (ih _)

/-- The sequencing rule. -/
theorem wp_bind {x : FileM δ Q ε α} {f : α → FileM δ Q ε β} {P : Except ε β → World δ → Prop} :
    wp env I (x >>= f) P w ↔
      wp env I x (fun r w => match r with
        | .ok a => wp env I (f a) P w
        | .error e => P (.error e) w) w := by
  induction x generalizing w with
  | done r =>
      cases r with
      | ok a => exact ⟨fun h => ⟨h.here, h⟩, fun h => h.2⟩
      | error e => exact Iff.rfl
  | step op k ih => exact and_congr Iff.rfl (ih _)

end Semantics

/-! ## §6. The primitives as programs. -/

section Primitives

variable {Q : Signature} {ε α β : Type}

/-- A reading program inside one that writes. -/
def ofRead : ReadM δ ε α → FileM δ Q ε α
  | .done r => .done r
  | .step op k => .step (S := fileSig δ Q) (.read op) (fun r => ofRead (k r))

instance : MonadLift (Prog (readSig δ) ε) (Prog (fileSig δ Q) ε) where
  monadLift := ofRead

def change (op : WriteOp δ) : FileM δ Q ε Bool := .request (S := fileSig δ Q) (.change op)

def ask (q : Q.Op) : FileM δ Q ε (Q.Reply q) := .request (S := fileSig δ Q) (.ask q)

/-- `fs::write(p, b)`: truncate, then write. -/
def writeFile (p : FilePath δ) (b : Bytes) : FileM δ Q ε Unit := do
  let _ ← change (.truncate p)
  let _ ← change (.write p b)
  pure ()

variable {env : Env Q} {I : World δ → Prop} {w : World δ}

omit [DecidableEq δ] in
@[simp] theorem liftM_ofRead (x : ReadM δ ε α) : (liftM x : FileM δ Q ε α) = ofRead x := rfl

omit [DecidableEq δ] in
@[simp] theorem monadLift_ofRead (x : ReadM δ ε α) : (monadLift x : FileM δ Q ε α) = ofRead x := rfl

/-- A reading program runs in one state. -/
theorem wp_ofRead {x : ReadM δ ε α} {P : Except ε α → World δ → Prop} :
    wp env I (ofRead x : FileM δ Q ε α) P w ↔ I w ∧ P (ReadM.eval w.fs x) w := by
  induction x with
  | done r => exact Iff.rfl
  | step op k ih =>
      constructor
      · exact fun h => ⟨h.1, ((ih _).1 h.2).2⟩
      · exact fun h => ⟨h.1, (ih _).2 h⟩

theorem wp_change {op : WriteOp δ} {P : Except ε Bool → World δ → Prop} :
    wp env I (change op : FileM δ Q ε Bool) P w ↔
      I w ∧ I (w.change op) ∧ P (.ok (op.apply w.fs).1) (w.change op) := Iff.rfl

theorem wp_ask {q : Q.Op} {P : Except ε (Q.Reply q) → World δ → Prop} :
    wp env I (ask q : FileM δ Q ε (Q.Reply q)) P w ↔
      I w ∧ I w.asked ∧ P (.ok (env w.tick q)) w.asked := Iff.rfl

/-! ### Sequencing rules, forwards. -/

/-- Read, then go on with what was read. -/
theorem wp_read {x : ReadM δ ε α} {f : α → FileM δ Q ε β} {P : Except ε β → World δ → Prop}
    (hI : I w) (hok : ∀ a, ReadM.eval w.fs x = .ok a → wp env I (f a) P w)
    (herr : ∀ e, ReadM.eval w.fs x = .error e → P (.error e) w) :
    wp env I ((ofRead x : FileM δ Q ε α) >>= f) P w := by
  rw [wp_bind, wp_ofRead]
  refine ⟨hI, ?_⟩
  cases h : ReadM.eval w.fs x with
  | ok a => exact hok a h
  | error e => exact herr e h

/-- Read something known, then go on. -/
theorem wp_read_ok {x : ReadM δ ε α} {f : α → FileM δ Q ε β} {P : Except ε β → World δ → Prop}
    {a : α} (hI : I w) (ha : ReadM.eval w.fs x = .ok a) (h : wp env I (f a) P w) :
    wp env I ((ofRead x : FileM δ Q ε α) >>= f) P w := by
  refine wp_read hI (fun a' ha' => ?_) (fun e he => by cases ha.symm.trans he)
  obtain rfl := Except.ok.inj (ha.symm.trans ha')
  exact h

/-- Test whether a file is there, then go on. -/
theorem wp_exists {p : FilePath δ} {f : Bool → FileM δ Q ε β} {P : Except ε β → World δ → Prop}
    (hI : I w) (h : wp env I (f (decide (p ∈ w.fs))) P w) :
    wp env I ((ofRead (ReadM.pathExists p) : FileM δ Q ε Bool) >>= f) P w :=
  wp_read_ok hI (ReadM.eval_pathExists w.fs p) h

/-- Compute, then go on with the value. -/
theorem wp_compute {r : Except ε α} {f : α → FileM δ Q ε β} {P : Except ε β → World δ → Prop}
    (hI : I w) (hok : ∀ a, r = .ok a → wp env I (f a) P w)
    (herr : ∀ e, r = .error e → P (.error e) w) :
    wp env I ((.done r : FileM δ Q ε α) >>= f) P w := by
  rw [wp_bind, wp_done]
  refine ⟨hI, ?_⟩
  cases r with
  | ok a => exact hok a rfl
  | error e => exact herr e rfl

/-- Compute something known, then go on. -/
theorem wp_compute_ok {r : Except ε α} {f : α → FileM δ Q ε β} {P : Except ε β → World δ → Prop}
    {a : α} (hI : I w) (ha : r = .ok a) (h : wp env I (f a) P w) :
    wp env I ((.done r : FileM δ Q ε α) >>= f) P w := by
  subst ha
  rw [wp_bind, wp_done]
  exact ⟨hI, h⟩

/-- Ask, then go on with the answer. -/
theorem wp_answer {q : Q.Op} {f : Q.Reply q → FileM δ Q ε β} {P : Except ε β → World δ → Prop}
    (hI : I w) (h : wp env I (f (env w.tick q)) P w.asked) :
    wp env I ((ask q : FileM δ Q ε (Q.Reply q)) >>= f) P w := by
  rw [wp_bind, wp_ask]
  exact ⟨hI, h.here, h⟩

/-- Run a program with a known rule, then go on. -/
theorem wp_seq {x : FileM δ Q ε α} {f : α → FileM δ Q ε β} {P : Except ε β → World δ → Prop}
    {R : Except ε α → World δ → Prop} (hx : wp env I x R w)
    (hok : ∀ a w', I w' → R (.ok a) w' → wp env I (f a) P w')
    (herr : ∀ e w', I w' → R (.error e) w' → P (.error e) w') :
    wp env I (x >>= f) P w := by
  rw [wp_bind]
  refine hx.mono (fun _ h => h) fun r w' hI hR => ?_
  cases r with
  | ok a => exact hok a w' hI hR
  | error e => exact herr e w' hI hR

/-! ### Running step by step. -/

/-- A run with this result leads somewhere. -/
theorem run_of_result {env : Env Q} {x : FileM δ Q ε α} {w : World δ} {r : Except ε α}
    (h : (run env x w).1 = r) : ∃ w', run env x w = (r, w') := ⟨_, Prod.ext h rfl⟩

theorem run_bind_ok {x : FileM δ Q ε α} {f : α → FileM δ Q ε β} {a : α} {v : World δ}
    (h : run env x w = (.ok a, v)) : run env (x >>= f) w = run env (f a) v := by
  induction x generalizing w with
  | done r =>
    obtain ⟨rfl, rfl⟩ := Prod.mk.inj h
    rfl
  | step op k ih => exact ih _ h

theorem run_read_ok {x : ReadM δ ε α} {f : α → FileM δ Q ε β} {a : α}
    (h : ReadM.eval w.fs x = .ok a) :
    run env ((ofRead x : FileM δ Q ε α) >>= f) w = run env (f a) w := by
  refine run_bind_ok ?_
  induction x with
  | done r => exact Prod.ext h rfl
  | step op k ih => exact ih _ h

theorem run_compute_ok {r : Except ε α} {f : α → FileM δ Q ε β} {a : α} (h : r = .ok a) :
    run env ((.done r : FileM δ Q ε α) >>= f) w = run env (f a) w := by
  subst h
  rfl

/-- A crash point of the second part is a crash point of the whole. -/
theorem CrashPoint.bind {x : FileM δ Q ε α} {f : α → FileM δ Q ε β} {a : α} {v w' : World δ}
    (h : run env x w = (.ok a, v)) (hc : CrashPoint env (f a) v w') :
    CrashPoint env (x >>= f) w w' := by
  induction x generalizing w with
  | done r =>
    obtain ⟨rfl, rfl⟩ := Prod.mk.inj h
    exact hc
  | step op k ih => exact .next (ih _ h)

/-- The world after `fs::write`. -/
def World.written (w : World δ) (p : FilePath δ) (b : Bytes) : World δ :=
  (w.change (.truncate p)).change (.write p b)

theorem wp_writeFile {p : FilePath δ} {b : Bytes} {P : Except ε Unit → World δ → Prop} :
    wp env I (writeFile p b : FileM δ Q ε Unit) P w ↔
      I w ∧ I (w.change (.truncate p)) ∧ I (w.written p b) ∧ P (.ok ()) (w.written p b) := Iff.rfl

/-- Write a file, then go on. -/
theorem wp_write {p : FilePath δ} {b : Bytes} {f : Unit → FileM δ Q ε β}
    {P : Except ε β → World δ → Prop} (hI : I w) (ht : I (w.change (.truncate p)))
    (h : wp env I (f ()) P (w.written p b)) :
    wp env I ((writeFile p b : FileM δ Q ε Unit) >>= f) P w := by
  rw [wp_bind, wp_writeFile]
  exact ⟨hI, ht, h.here, h⟩

@[simp] theorem World.written_log (w : World δ) (p : FilePath δ) (b : Bytes) :
    (w.written p b).log = .write p b :: .truncate p :: w.log := rfl

/-- A written file reads back, every other file is unchanged. -/
theorem World.lookup_written (w : World δ) (p q : FilePath δ) (b : Bytes) :
    (w.written p b).fs.lookup q = if q = p then some b else w.fs.lookup q := by
  show ((w.fs.insert p []).insert p b).lookup q = _
  split
  next h => rw [h, AList.lookup_insert]
  next h => rw [AList.lookup_insert_ne h, AList.lookup_insert_ne h]

end Primitives

end FileProg

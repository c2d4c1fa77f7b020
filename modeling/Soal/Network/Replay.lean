/-
  Soal.Network.Replay — replay protection: the numbers accepted from one node for one vault ascend.

  A home directory is a guard with one mark for every vault and node: handling an announcement is a
  step of that guard.  Two pairs never share a file, since a pair can be read off its file name.
-/
import Soal.Lib.HighWater
import Soal.Network

namespace Soal

open FileProg HighWater

variable [Crates]

/-! ## §1. The marks on disk. -/

/-- A vault and a node. -/
abbrev SeqPair := { b : Bytes // b.length = vaultIdLen } × Key

def HeadAnnouncement.pair (ann : HeadAnnouncement) : SeqPair := (ann.vaultId, ann.nodeId)

def SeqPair.path (p : SeqPair) : FilePath HomeDir :=
  lastRecvSeqPath (String.ofList (Text.hexEncode p.1.val)) (String.ofList (Text.hexEncode p.2.val))

def SeqPair.tmp (p : SeqPair) : FilePath HomeDir :=
  lastRecvSeqTmp (String.ofList (Text.hexEncode p.1.val)) (String.ofList (Text.hexEncode p.2.val))

omit [Crates] in
/-- Pairs and extensions can be read off a file name: a node id has 64 digits. -/
theorem SeqPair.name_inj {p q : SeqPair} {e e' : String}
    (hdir : HomeDir.seq (String.ofList (Text.hexEncode p.1.val)) =
      .seq (String.ofList (Text.hexEncode q.1.val)))
    (hname : String.ofList (Text.hexEncode p.2.val) ++ e =
      String.ofList (Text.hexEncode q.2.val) ++ e') : p = q ∧ e = e' := by
  have hvault : p.1 = q.1 := by
    have hchars := String.ofList_inj.1 (HomeDir.seq.inj hdir)
    exact Subtype.ext (Text.hexEncode_injective hchars)
  have hl := congrArg String.toList hname
  simp only [String.toList_append, String.toList_ofList] at hl
  obtain ⟨hnode, hext⟩ := List.append_inj hl (by simp [p.2.property, q.2.property])
  exact ⟨Prod.ext hvault (Subtype.ext (Text.hexEncode_injective hnode)), String.toList_inj.1 hext⟩

omit [Crates] in
/-- Different pairs keep different files. -/
theorem SeqPair.path_inj {p q : SeqPair} (h : p.path = q.path) : p = q :=
  (SeqPair.name_inj (congrArg FilePath.dir h) (congrArg FilePath.name h)).1

omit [Crates] in
/-- No temporary file is a file of marks. -/
theorem SeqPair.path_ne_tmp (p q : SeqPair) : p.path ≠ q.tmp := by
  intro h
  have hext := (SeqPair.name_inj (congrArg FilePath.dir h) (congrArg FilePath.name h)).2
  exact absurd hext (by decide)

/-- The number a file of marks stands for. -/
def seqOfBytes (bytes : Option Bytes) : UInt64 :=
  (bytes.bind fun b => (Text.fromUtf8 b).bind fun s => Text.parseU64 (Text.trim s.toList)).getD 0

/-- The mark of a pair. -/
def lastSeq (fs : HomeFs) (p : SeqPair) : UInt64 := seqOfBytes (fs.lookup p.path)

omit [Crates] in
theorem eval_loadLastRecvSeq (fs : HomeFs) (ann : HeadAnnouncement) :
    ReadM.eval fs (loadLastRecvSeq ann.vaultIdHex ann.nodeIdHex) = .ok (lastSeq fs ann.pair) := by
  unfold loadLastRecvSeq lastSeq
  rw [ReadM.eval_bind, ReadM.eval_read, ok_bind]
  have hpath : lastRecvSeqPath ann.vaultIdHex ann.nodeIdHex = ann.pair.path := rfl
  rw [hpath]
  cases fs.lookup ann.pair.path <;> rfl

omit [Crates] in
/-- A stored number reads back. -/
theorem seqOfBytes_printU64 (seq : UInt64) :
    seqOfBytes (some (Text.toUtf8 (Text.printU64 seq))) = seq := by
  unfold seqOfBytes
  simp only [Option.bind_some, Text.fromUtf8_toUtf8, Text.parseU64_printU64, Option.getD_some]

/-- The home after a number was stored. -/
def HomeFs.stored (fs : HomeFs) (p : SeqPair) (seq : UInt64) : HomeFs :=
  (renamed (World.boot fs) p.tmp p.path (Text.toUtf8 (Text.printU64 seq))).fs

omit [Crates] in
/-- Storing moves the mark of one pair. -/
theorem lastSeq_stored (fs : HomeFs) (p : SeqPair) (seq : UInt64) :
    lastSeq (HomeFs.stored fs p seq) = Function.update (lastSeq fs) p seq := by
  funext q
  unfold lastSeq HomeFs.stored
  rw [lookup_renamed]
  by_cases hq : q = p
  · subst hq
    rw [if_pos rfl, Function.update_self, seqOfBytes_printU64]
  · rw [if_neg (fun h => hq (SeqPair.path_inj h)), if_neg (SeqPair.path_ne_tmp q p),
      Function.update_of_ne hq]
    rfl

/-! ## §2. Handling one announcement. -/

/-- An announcement that arrives, with the vault it is handled for and the world outside. -/
structure Delivery where
  ann : HeadAnnouncement
  vault : Option Vault
  outside : Outside

namespace Delivery

/-- The clock reading. -/
def now (d : Delivery) : UInt64 := d.outside 0 .now

/-- Every check but the one for replay. -/
def checks (d : Delivery) : Res Unit := do
  verifyHeadAnnouncement d.ann
  checkHeadSkew d.ann d.now
  match d.vault with
  | some v => checkAnnouncer v d.ann
  | none => .ok ()

/-- What the checks establish. -/
structure Trusted (d : Delivery) : Prop where
  signed : d.ann.isSigned = true
  verified : ∃ msg, headSignMessage d.ann = .ok msg ∧
    Crates.ed25519Verify d.ann.nodeId msg d.ann.signature.val = true
  skew : d.now.toNat ≤ d.ann.timestamp.toNat + 300 ∧ d.ann.timestamp.toNat ≤ d.now.toNat + 300
  member : ∀ v, d.vault = some v → v.vaultIdBytes = .ok d.ann.vaultId.val ∧
    v.isMember d.ann.nodeIdHex = true

omit [Crates] in
theorem skew_of_check {ann : HeadAnnouncement} {now : UInt64} (h : checkHeadSkew ann now = .ok ()) :
    now.toNat ≤ ann.timestamp.toNat + 300 ∧ ann.timestamp.toNat ≤ now.toNat + 300 := by
  have hskew : (absDiff now ann.timestamp).toNat ≤ 300 := by
    unfold checkHeadSkew at h
    dsimp only at h
    split at h
    · cases h
    next hle =>
      have hle : absDiff now ann.timestamp ≤ maxSkewSecs := UInt64.not_lt.1 hle
      exact UInt64.le_iff_toNat_le.1 hle
  unfold absDiff at hskew
  split at hskew
  next hlt =>
    have hlt := UInt64.lt_iff_toNat_lt.1 hlt
    rw [UInt64.toNat_sub_of_le _ _ (UInt64.le_of_lt (by assumption))] at hskew
    omega
  next hge =>
    have hge := UInt64.not_lt.1 hge
    rw [UInt64.toNat_sub_of_le _ _ hge] at hskew
    have hnat := UInt64.le_iff_toNat_le.1 hge
    omega

theorem trusted_of_checks {d : Delivery} (h : d.checks = .ok ()) : d.Trusted := by
  obtain ⟨_, hverify, h⟩ := bind_ok_iff.1 h
  obtain ⟨_, hskew, hvault⟩ := bind_ok_iff.1 h
  -- unsigned, another version, a bad key: each is refused before the signature is looked at
  have hsig : d.ann.isSigned = true ∧ ∃ msg, headSignMessage d.ann = .ok msg ∧
      Crates.ed25519Verify d.ann.nodeId msg d.ann.signature.val = true := by
    unfold verifyHeadAnnouncement at hverify
    split at hverify
    · cases hverify
    next hsigned =>
      split at hverify
      · cases hverify
      · split at hverify
        · cases hverify
        · obtain ⟨msg, hmsg, hok⟩ := bind_ok_iff.1 hverify
          refine ⟨by simpa using hsigned, msg, hmsg, ?_⟩
          split at hok
          next hver => exact hver
          · cases hok
  refine ⟨hsig.1, hsig.2, skew_of_check hskew, fun v hv => ?_⟩
  rw [hv] at hvault
  obtain ⟨id, hid, hok⟩ := bind_ok_iff.1 hvault
  split at hok
  · cases hok
  next hsame =>
    split at hok
    · cases hok
    next hmember => exact ⟨by rw [hid, not_not.1 hsame], by simpa using hmember⟩

/-- Handling: the result, and the home after it. -/
def handle (d : Delivery) (fs : HomeFs) : Res Unit × HomeFs :=
  let r := run d.outside (validateAnnouncement d.ann d.vault) (World.boot fs)
  (r.1, r.2.fs)

end Delivery

/-- An announcement is accepted when it passes the checks and its number is new; then the number is
stored.  Otherwise nothing changes. -/
theorem Delivery.handle_spec (d : Delivery) (fs : HomeFs) :
    (d.checks = .ok () ∧ lastSeq fs d.ann.pair < d.ann.seq ∧
      d.handle fs = (.ok (), HomeFs.stored fs d.ann.pair d.ann.seq)) ∨
    (¬(d.checks = .ok () ∧ lastSeq fs d.ann.pair < d.ann.seq) ∧
      (d.handle fs).1 ≠ .ok () ∧ (d.handle fs).2 = fs) := by
  have hw : wp d.outside (fun _ => True) (validateAnnouncement d.ann d.vault)
      (fun r w' => (d.checks = .ok () ∧ lastSeq fs d.ann.pair < d.ann.seq ∧
          r = .ok () ∧ w'.fs = HomeFs.stored fs d.ann.pair d.ann.seq) ∨
        (¬(d.checks = .ok () ∧ lastSeq fs d.ann.pair < d.ann.seq) ∧ r ≠ .ok () ∧ w'.fs = fs))
      (World.boot fs) := by
    -- a failed check ends the handling at once
    have hstop : ∀ {e : Fault} {w : World HomeDir}, w.fs = fs → d.checks ≠ .ok () →
        (d.checks = .ok () ∧ lastSeq fs d.ann.pair < d.ann.seq ∧
            (.error e : Res Unit) = .ok () ∧ w.fs = HomeFs.stored fs d.ann.pair d.ann.seq) ∨
          (¬(d.checks = .ok () ∧ lastSeq fs d.ann.pair < d.ann.seq) ∧
            (.error e : Res Unit) ≠ .ok () ∧ w.fs = fs) := by
      intro e w hfs hcheck
      refine Or.inr ⟨fun h => ?_, fun h => ?_, hfs⟩
      · exact hcheck h.1
      · cases h
    unfold validateAnnouncement
    refine wp_compute trivial (fun _ hverify => ?_) fun e he => hstop rfl ?_
    · refine wp_answer trivial ?_
      refine wp_compute trivial (fun _ hskew => ?_) fun e he => hstop rfl ?_
      · refine wp_compute trivial (fun _ hvault => ?_) fun e he => hstop rfl ?_
        · have hchecks : d.checks = .ok () :=
            bind_ok_iff.2 ⟨_, hverify, bind_ok_iff.2 ⟨_, hskew, hvault⟩⟩
          refine wp_read_ok (a := lastSeq fs d.ann.pair) trivial (eval_loadLastRecvSeq fs d.ann) ?_
          by_cases hle : d.ann.seq ≤ lastSeq fs d.ann.pair
          · rw [if_pos hle]
            refine ⟨trivial, Or.inr ⟨fun h => ?_, fun h => ?_, rfl⟩⟩
            · exact absurd h.2 (UInt64.not_lt.2 hle)
            · cases h
          · rw [if_neg hle]
            refine wp_writeRename.2 ⟨trivial, trivial, trivial, trivial, Or.inl ?_⟩
            exact ⟨hchecks, UInt64.not_le.1 hle, rfl, rfl⟩
        · intro h
          obtain ⟨_, -, h⟩ := bind_ok_iff.1 h
          obtain ⟨_, -, hvault⟩ := bind_ok_iff.1 h
          cases he.symm.trans hvault
      · intro h
        obtain ⟨_, -, h⟩ := bind_ok_iff.1 h
        obtain ⟨_, hskew, -⟩ := bind_ok_iff.1 h
        cases he.symm.trans hskew
    · intro h
      obtain ⟨_, hverify, -⟩ := bind_ok_iff.1 h
      cases he.symm.trans hverify
  obtain ⟨hchecks, hlt, hr, hfs⟩ | ⟨hno, hr, hfs⟩ := hw.post
  · exact .inl ⟨hchecks, hlt, Prod.ext hr hfs⟩
  · exact .inr ⟨hno, hr, hfs⟩

/-! ## §3. A home is a guard. -/

/-- The marks of a home, as numbers. -/
def marks (fs : HomeFs) (p : SeqPair) : Nat := (lastSeq fs p).toNat

/-- The guard: marks by pair, and the checks. -/
def replayGuard : Guard Delivery SeqPair Nat where
  key d := d.ann.pair
  num d := d.ann.seq.toNat
  valid d := decide (d.checks = .ok ())

theorem replayGuard_accepts (d : Delivery) (fs : HomeFs) :
    replayGuard.accepts (marks fs) d = true ↔
      d.checks = .ok () ∧ lastSeq fs d.ann.pair < d.ann.seq := by
  rw [Guard.accepts_iff]
  exact and_congr decide_eq_true_iff UInt64.lt_iff_toNat_lt.symm

/-- The verdict is the guard's. -/
theorem Delivery.handle_ok_iff (d : Delivery) (fs : HomeFs) :
    (d.handle fs).1 = .ok () ↔ replayGuard.accepts (marks fs) d = true := by
  rw [replayGuard_accepts]
  obtain ⟨hchecks, hlt, heq⟩ | ⟨hno, hr, -⟩ := d.handle_spec fs
  · rw [heq]
    exact ⟨fun _ => ⟨hchecks, hlt⟩, fun _ => rfl⟩
  · exact ⟨fun h => absurd h hr, fun h => absurd h hno⟩

/-- So are the marks afterwards. -/
theorem Delivery.marks_handle (d : Delivery) (fs : HomeFs) :
    marks (d.handle fs).2 = replayGuard.next (marks fs) d := by
  obtain ⟨hchecks, hlt, heq⟩ | ⟨hno, -, hfs⟩ := d.handle_spec fs
  · unfold Guard.next
    rw [heq, if_pos ((replayGuard_accepts d fs).2 ⟨hchecks, hlt⟩)]
    funext q
    show (lastSeq (HomeFs.stored fs d.ann.pair d.ann.seq) q).toNat =
      Function.update (marks fs) d.ann.pair d.ann.seq.toNat q
    rw [lastSeq_stored]
    by_cases hq : q = d.ann.pair
    · rw [hq, Function.update_self, Function.update_self]
    · rw [Function.update_of_ne hq, Function.update_of_ne hq, marks]
  · rw [hfs, Guard.next_rejected]
    exact Bool.eq_false_iff.2 fun h => hno ((replayGuard_accepts d fs).1 h)

/-! ## §4. Any run. -/

/-- One announcement of a run: the home before and after, and the result. -/
structure Handled where
  delivery : Delivery
  before : HomeFs
  result : Res Unit
  after : HomeFs

/-- Announcements handled one after another. -/
def deliverAll (fs : HomeFs) : List Delivery → List Handled
  | [] => []
  | d :: ds => ⟨d, fs, (d.handle fs).1, (d.handle fs).2⟩ :: deliverAll (d.handle fs).2 ds

namespace Handled

/-- Was it accepted? -/
def isAccepted (h : Handled) : Bool := decide (h.result = .ok ())

/-- The announcement with the verdict on it. -/
def verdict (h : Handled) : Delivery × Bool := (h.delivery, h.isAccepted)

end Handled

/-- The accepted announcements of a run, in order. -/
def acceptedAnns (hs : List Handled) : List HeadAnnouncement :=
  (hs.filter Handled.isAccepted).map fun h => h.delivery.ann

/-- The verdicts of a run are the guard's. -/
theorem deliverAll_verdicts (ds : List Delivery) : ∀ fs : HomeFs,
    (deliverAll fs ds).map Handled.verdict = replayGuard.verdicts (marks fs) ds := by
  induction ds with
  | nil =>
    intro fs
    rfl
  | cons d ds ih =>
    intro fs
    rw [deliverAll, List.map_cons, Guard.verdicts, ih, d.marks_handle]
    congr 1
    refine Prod.ext rfl (Bool.eq_iff_iff.2 ?_)
    exact decide_eq_true_iff.trans (d.handle_ok_iff fs)

/-- What happens in a run happens to one announcement. -/
theorem mem_deliverAll {ds : List Delivery} : ∀ {fs : HomeFs} {h : Handled},
    h ∈ deliverAll fs ds →
      h.result = (h.delivery.handle h.before).1 ∧ h.after = (h.delivery.handle h.before).2 := by
  induction ds with
  | nil =>
    intro fs h hmem
    cases hmem
  | cons d ds ih =>
    intro fs h hmem
    rw [deliverAll, List.mem_cons] at hmem
    rcases hmem with rfl | hmem
    · exact ⟨rfl, rfl⟩
    · exact ih hmem

/-- The accepted announcements are the guard's. -/
theorem acceptedAnns_eq (ds : List Delivery) (fs : HomeFs) : acceptedAnns (deliverAll fs ds) =
    (accepted (replayGuard.verdicts (marks fs) ds)).map Delivery.ann := by
  rw [← deliverAll_verdicts]
  unfold acceptedAnns accepted
  rw [List.filter_map, List.map_map, List.map_map]
  rfl

/-- **Replay protection.**  In every run over one home, the numbers accepted from one node for one
vault ascend strictly, so no announcement is accepted twice; what is accepted passed the checks; what
is rejected leaves the home as it is; and the verdicts on one pair are those of the run without the
announcements of the other pairs. -/
theorem replay_protected (fs : HomeFs) (ds : List Delivery) :
    (∀ p : SeqPair, (((acceptedAnns (deliverAll fs ds)).filter fun ann =>
        decide (ann.pair = p)).map HeadAnnouncement.seq).Pairwise (· < ·)) ∧
    (acceptedAnns (deliverAll fs ds)).Nodup ∧
    (∀ h ∈ deliverAll fs ds, h.result = .ok () → h.delivery.Trusted) ∧
    (∀ h ∈ deliverAll fs ds, h.result ≠ .ok () → ∀ p, lastSeq h.after p = lastSeq h.before p) ∧
    ∀ p : SeqPair, ((deliverAll fs ds).map Handled.verdict).filter
        (fun v => decide (v.1.ann.pair = p)) =
      (deliverAll fs (ds.filter fun d => decide (d.ann.pair = p))).map Handled.verdict := by
  -- within a pair what is accepted ascends, which says both that it is ordered and that it is new
  have hascend : (acceptedAnns (deliverAll fs ds)).Pairwise
      fun a b => a.pair = b.pair → a.seq < b.seq := by
    rw [acceptedAnns_eq, List.pairwise_map]
    exact (replayGuard.accepted_ascend ds (marks fs)).imp fun hlt hpair =>
      UInt64.lt_iff_toNat_lt.2 (hlt hpair)
  refine ⟨fun p => ?_, ?_, fun h hmem hok => ?_, fun h hmem hno p => ?_, fun p => ?_⟩
  · rw [List.pairwise_map]
    refine (hascend.filter _).imp_of_mem fun ha hb hlt => hlt ?_
    rw [List.mem_filter, decide_eq_true_iff] at ha hb
    rw [ha.2, hb.2]
  · refine hascend.imp fun hlt heq => ?_
    have hself := hlt (congrArg HeadAnnouncement.pair heq)
    rw [heq] at hself
    exact UInt64.lt_irrefl _ hself
  · obtain ⟨hresult, -⟩ := mem_deliverAll hmem
    have haccept := (h.delivery.handle_ok_iff h.before).1 (hresult ▸ hok)
    exact Delivery.trusted_of_checks ((replayGuard_accepts _ _).1 haccept).1
  · obtain ⟨hresult, hafter⟩ := mem_deliverAll hmem
    obtain ⟨-, -, heq⟩ | ⟨-, -, hfs⟩ := h.delivery.handle_spec h.before
    · exact absurd (hresult.trans (congrArg Prod.fst heq)) hno
    · rw [hafter, hfs]
  · rw [deliverAll_verdicts, deliverAll_verdicts]
    exact replayGuard.verdicts_filter p ds _ _ rfl

end Soal

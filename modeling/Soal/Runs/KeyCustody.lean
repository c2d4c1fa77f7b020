/-
  Soal.Runs.KeyCustody — the vault key over whole runs of openings, config changes and passphrases.

  Any number of handles are open on one directory, each with the config it read or wrote last.  Some
  are stale: another handle has protected the key, changed the passphrase or rewritten `vault.json`
  since.  Whatever order they act in, every handle has the key the vault began with, and openings go
  by the newest passphrase alone.

    * an opening migrates a legacy directory and changes nothing else;
    * a config operation writes `vault.json`, from the handle's own copy, and leaves both key files;
    * `enable_passphrase` writes `vault.wrapped.json` and removes `vault.key`.
-/
import Soal.Runs.Ticks
import Soal.Vault.SignedConfig

open Trace (Each Always)

namespace Soal

open FileProg

section Custody

variable [Crates]

/-! ## §1. A key sealed under one passphrase. -/

/-- What the vault key is sealed with: a passphrase, and the salt and the nonce that are drawn. -/
structure Sealing where
  pass : String
  vaultId : Bytes
  salt : Bytes
  nonce : Bytes

/-- The key that is derived under the present parameters. -/
def wrappingKey (pass : String) (salt : Bytes) : Except String Key :=
  Crates.argon2id (Text.toUtf8 pass) salt argon2MKib argon2TCost argon2PCost

/-- On these passphrases and these sealings of `k`, Argon2id separates the passphrases, and the AEAD
opens only under the sealing key. -/
structure SealsApart (P : Set String) (D : Set Sealing) (k : Key) : Prop where
  separates : ∀ d ∈ D, ∀ pass ∈ P, ∀ wrap, wrappingKey d.pass d.salt = .ok wrap →
    wrappingKey pass d.salt = .ok wrap → pass = d.pass
  opens_only : ∀ d ∈ D, ∀ pass ∈ P, ∀ wrap wrap' ct msg, wrappingKey d.pass d.salt = .ok wrap →
    wrappingKey pass d.salt = .ok wrap' →
      Crates.aeadEncrypt wrap d.nonce k.val (wrapAad d.vaultId) = .ok ct →
        Crates.aeadDecrypt wrap' d.nonce ct (wrapAad d.vaultId) = .ok msg → wrap' = wrap

/-- The wrapped key gives `k` under `pass` and nothing under any other of the passphrases. -/
structure OpensOnlyUnder (P : Set String) (wrapped : WrappedKey) (vaultId : Bytes) (pass : String)
    (k : Key) : Prop where
  opens : unwrapVaultKeyPassphrase wrapped pass vaultId = .ok k
  only : ∀ pass' ∈ P, ∀ k', unwrapVaultKeyPassphrase wrapped pass' vaultId = .ok k' → pass' = pass

section Sealing

variable {env : Outside} {k : Key} {P : Set String} {D : Set Sealing}

omit [Crates] in
theorem crypto_ok_iff {α : Type} {r : Except String α} {a : α} : crypto r = .ok a ↔ r = .ok a := by
  cases r with
  | ok b => exact ⟨fun h => by cases h; rfl, fun h => by cases h; rfl⟩
  | error e => exact ⟨fun h => (by cases h), fun h => (by cases h)⟩

/-- The record of a key sealed with the present parameters. -/
def sealedRecord (salt sealed : Bytes) : WrappedKey where
  kdf := "argon2id"
  saltHex := String.ofList (Text.hexEncode salt)
  mKib := argon2MKib
  tCost := argon2TCost
  pCost := argon2PCost
  sealedHex := String.ofList (Text.hexEncode sealed)

/-- Opening such a record derives a key from its salt and opens its bytes. -/
theorem unwrap_sealedRecord {salt : Bytes} (hsalt : salt.length = 16) (sealed : Bytes) (pass : String)
    (vaultId : Bytes) : unwrapVaultKeyPassphrase (sealedRecord salt sealed) pass vaultId =
      (deriveKeyFromPassphrase pass salt argon2MKib argon2TCost argon2PCost).bind fun wrap =>
        unwrapKey sealed wrap (wrapAad vaultId) := by
  have hbytes : (sealedRecord salt sealed).saltBytes = .ok salt := by
    unfold WrappedKey.saltBytes sealedRecord
    rw [hexBytes_hexEncode]
    exact if_neg (by simp [hsalt])
  have hsealed : (sealedRecord salt sealed).sealedBytes = .ok sealed := by
    unfold WrappedKey.sealedBytes sealedRecord
    rw [hexBytes_hexEncode]
  unfold unwrapVaultKeyPassphrase
  rw [if_neg (by simp [sealedRecord]), hbytes, hsealed]
  rfl

/-- What was sealed is long enough to be opened, and splits into nonce and ciphertext. -/
theorem unwrapKey_sealed (haead : AeadCorrect) {wrap wrap' : Key} {nonce ct aad : Bytes}
    (hnonce : nonce.length = nonceLen) (hct : Crates.aeadEncrypt wrap nonce k.val aad = .ok ct) :
    unwrapKey (nonce ++ ct) wrap' aad = (crypto (Crates.aeadDecrypt wrap' nonce ct aad)).bind
      fun plain => keyOfBytes plain (.crypto "unwrapped key wrong length") := by
  have hlen : ¬(nonce ++ ct).length < nonceLen + 16 := by
    rw [List.length_append, hnonce, haead.tag _ _ _ _ _ hct, k.property]
    decide
  have htake : (nonce ++ ct).take nonceLen = nonce := List.take_left' hnonce
  have hdrop : (nonce ++ ct).drop nonceLen = ct := List.drop_left' hnonce
  unfold unwrapKey
  rw [if_neg hlen, htake, hdrop]
  rfl

/-- A key that is opened again was sealed under the same passphrase. -/
theorem opensOnlyUnder_sealed (haead : AeadCorrect) (hapart : SealsApart P D k) {d : Sealing}
    (hd : d ∈ D) {ct : Bytes} {wrap : Key} (hsalt : d.salt.length = 16)
    (hnonce : d.nonce.length = nonceLen) (hwrap : wrappingKey d.pass d.salt = .ok wrap)
    (hct : Crates.aeadEncrypt wrap d.nonce k.val (wrapAad d.vaultId) = .ok ct) :
    OpensOnlyUnder P (sealedRecord d.salt (d.nonce ++ ct)) d.vaultId d.pass k := by
  have hderive : ∀ pass, deriveKeyFromPassphrase pass d.salt argon2MKib argon2TCost argon2PCost =
      crypto (wrappingKey pass d.salt) := fun _ => rfl
  constructor
  · rw [unwrap_sealedRecord hsalt, hderive, hwrap]
    show unwrapKey (d.nonce ++ ct) wrap (wrapAad d.vaultId) = _
    rw [unwrapKey_sealed haead hnonce hct, haead.opens _ _ _ _ _ hct]
    exact dif_pos k.property
  · intro pass' hpass' k' h
    rw [unwrap_sealedRecord hsalt, hderive] at h
    obtain ⟨wrap', hwrap', h⟩ := bind_ok_iff.1 h
    have hwrap' : wrappingKey pass' d.salt = .ok wrap' := crypto_ok_iff.1 hwrap'
    rw [unwrapKey_sealed haead hnonce hct] at h
    obtain ⟨plain, hplain, -⟩ := bind_ok_iff.1 h
    have hkey : wrap' = wrap :=
      hapart.opens_only d hd pass' hpass' _ _ _ _ hwrap hwrap' hct (crypto_ok_iff.1 hplain)
    exact hapart.separates d hd pass' hpass' wrap hwrap (hkey ▸ hwrap')

/-- The sealing that sealing under `pass` comes to, from where the world is now. -/
def sealingAt (env : Outside) (w : VaultWorld) (pass : String) (vaultId : Bytes) : Sealing where
  pass := pass
  vaultId := vaultId
  salt := (env w.tick (.random 16) : { b : Bytes // b.length = 16 }).val
  nonce := (env w.asked.tick (.random nonceLen) : { b : Bytes // b.length = nonceLen }).val

/-- Sealing a key leaves the directory, and the sealed key opens under its passphrase only. -/
theorem wp_wrapVaultKey_only (haead : AeadCorrect) (hapart : SealsApart P D k) {w : VaultWorld}
    (pass : String) (vaultId : Bytes) (hd : sealingAt env w pass vaultId ∈ D) :
    wp env (fun _ => True) (wrapVaultKeyPassphrase k pass vaultId) (fun r w' => w'.fs = w.fs ∧
      ∀ wrapped, r = .ok wrapped → OpensOnlyUnder P wrapped vaultId pass k) w := by
  unfold wrapVaultKeyPassphrase
  refine wp_answer trivial ?_
  set salt : { b : Bytes // b.length = 16 } := env w.tick (.random 16) with hsalt
  refine wp_compute trivial (fun wrap hwrap => ?_) (fun _ _ => ⟨rfl, fun _ h => by cases h⟩)
  unfold wrapKey
  rw [wp_bind]
  refine wp_answer trivial ?_
  set nonce : { b : Bytes // b.length = nonceLen } := env w.asked.tick (.random nonceLen) with hnonce
  refine wp_compute trivial (fun ct hct => ?_) (fun _ _ => ⟨rfl, fun _ h => by cases h⟩)
  refine ⟨trivial, trivial, rfl, fun wrapped h => ?_⟩
  cases h
  exact opensOnlyUnder_sealed haead hapart hd salt.property nonce.property (crypto_ok_iff.1 hwrap)
    (crypto_ok_iff.1 hct)

end Sealing

/-! ## §2. The directory. -/

/-- The key of a vault that no passphrase protects: in `vault.key`, or in the config of a legacy
vault. -/
inductive PlainKey (fs : VaultFs) (c : VaultConfig) (k : Key) : Prop
  | file {s : String} (hnone : c.keyHex = none)
      (hs : ReadM.eval fs (readToString keyFile) = .ok s) (hk : keyFromHex s = .ok k)
  | config {hex : String} (hno : keyFile ∉ fs) (hsome : c.keyHex = some hex)
      (hk : keyFromHex hex = .ok k)

/-- An encrypted vault whose key no passphrase protects. -/
structure Unprotected (fs : VaultFs) (k : Key) : Prop where
  config : ∃ c, ReadM.eval fs loadConfig = .ok c ∧ c.encryptionEnabled = true ∧
    c.keyWrapped = false ∧ PlainKey fs c k
  unwrapped : wrappedKeyFile ∉ fs

/-- A config of the encrypted vault `vaultId`, without a key in it.  It speaks of a wrapped key only
once there is one. -/
structure ConfigOf (vaultId : String) (protection : Option String) (c : VaultConfig) : Prop where
  named : c.vaultId = vaultId
  encrypted : c.encryptionEnabled = true
  numbered : c.configSeq ≠ 0
  noKeyHex : c.keyHex = none
  flag : c.keyWrapped = true → protection ≠ none

/-- Where the key is: in `vault.key` at first, sealed under the newest passphrase from then on. -/
inductive KeyKept (P : Set String) (fs : VaultFs) (vaultId : String) (k : Key) :
    Option String → Prop
  | plain {s : String} (hw : wrappedKeyFile ∉ fs)
      (hs : ReadM.eval fs (readToString keyFile) = .ok s) (hk : keyFromHex s = .ok k) :
      KeyKept P fs vaultId k none
  | wrapped {wrapped : WrappedKey} {id : Bytes} {pass : String} (hno : keyFile ∉ fs)
      (hw : fs.lookup wrappedKeyFile =
        some (Text.toUtf8 (Crates.wrappedJson.toStringPretty wrapped)))
      (hid : vaultIdFromHex vaultId = .ok id) (hopens : OpensOnlyUnder P wrapped id pass k) :
      KeyKept P fs vaultId k (some pass)

/-- A directory in order. -/
structure Guarded (P : Set String) (fs : VaultFs) (vaultId : String) (k : Key)
    (protection : Option String) : Prop where
  named : vaultId.isEmpty = false
  config : ∃ c, ReadM.eval fs loadConfig = .ok c ∧ ConfigOf vaultId protection c
  kept : KeyKept P fs vaultId k protection

/-- A handle on the vault: its copy of the config may be stale, its key is the vault's. -/
structure HandleOf (vaultId : String) (k : Key) (protection : Option String) (v : Vault) : Prop where
  key : v.key = some k
  config : ConfigOf vaultId protection v.config

section Directory

variable {fs fs' : VaultFs} {c : VaultConfig} {k : Key} {vaultId : String} {protection : Option String}
  {P : Set String}

section Config

omit [Crates]

theorem ConfigOf.protect (h : ConfigOf vaultId protection c) (pass : String) :
    ConfigOf vaultId (some pass) c :=
  ⟨h.named, h.encrypted, h.numbered, h.noKeyHex, fun _ => Option.some_ne_none pass⟩

/-- Without protection the config speaks of no wrapped key. -/
theorem ConfigOf.not_wrapped (h : ConfigOf vaultId none c) : c.keyWrapped = false := by
  by_contra hwrapped
  exact h.flag (by simpa using hwrapped) rfl

theorem ConfigOf.firstSeq (h : ConfigOf vaultId protection c) : firstSeq c = c :=
  if_neg h.numbered

/-- It has an id and a number, so no opening writes it back. -/
theorem ConfigOf.not_legacy (h : ConfigOf vaultId protection c) (hnamed : vaultId.isEmpty = false) :
    isLegacy c = false := by
  rw [isLegacy, h.named, hnamed, Bool.false_or]
  exact beq_eq_false_iff_ne.2 h.numbered

end Config

/-- The key stays where the two key files stay. -/
theorem KeyKept.congr (h : KeyKept P fs vaultId k protection)
    (hw : fs'.lookup wrappedKeyFile = fs.lookup wrappedKeyFile)
    (hk : fs'.lookup keyFile = fs.lookup keyFile) : KeyKept P fs' vaultId k protection := by
  cases h with
  | plain hno hs hkey =>
    exact .plain (fun hm => hno ((mem_congr hw).1 hm)) ((eval_readToString_congr hk).trans hs) hkey
  | wrapped hno hl hid hopens =>
    exact .wrapped (fun hm => hno ((mem_congr hk).1 hm)) (hw.trans hl) hid hopens

/-- A plaintext key that was just written is kept there. -/
theorem KeyKept.written {w : VaultWorld} (hno : wrappedKeyFile ∉ w.fs) : KeyKept P
    (w.written keyFile (Text.toUtf8 (String.ofList (Text.hexEncode k.val)))).fs vaultId k none := by
  refine .plain (s := String.ofList (Text.hexEncode k.val)) (fun hm => hno ?_) ?_
    (keyFromHex_hexEncode k)
  · refine (mem_congr ?_).1 hm
    rw [World.lookup_written, if_neg (by decide)]
  · exact eval_readToString_text (by rw [World.lookup_written, if_pos rfl])

/-- In order, and left alone. -/
theorem Guarded.congr (h : Guarded P fs vaultId k protection)
    (hc : fs'.lookup configFile = fs.lookup configFile)
    (hw : fs'.lookup wrappedKeyFile = fs.lookup wrappedKeyFile)
    (hk : fs'.lookup keyFile = fs.lookup keyFile) : Guarded P fs' vaultId k protection := by
  refine ⟨h.named, ?_, h.kept.congr hw hk⟩
  rw [eval_loadConfig_congr hc]
  exact h.config

theorem Unprotected.congr (h : Unprotected fs k)
    (hc : fs'.lookup configFile = fs.lookup configFile)
    (hw : fs'.lookup wrappedKeyFile = fs.lookup wrappedKeyFile)
    (hk : fs'.lookup keyFile = fs.lookup keyFile) : Unprotected fs' k := by
  refine ⟨?_, fun hm => h.unwrapped ((mem_congr hw).1 hm)⟩
  obtain ⟨c, hload, henc, hflag, hplain⟩ := h.config
  refine ⟨c, (eval_loadConfig_congr hc).trans hload, henc, hflag, ?_⟩
  cases hplain with
  | file hnone hs hkey => exact .file hnone ((eval_readToString_congr hk).trans hs) hkey
  | config hno hsome hkey => exact .config (fun hm => hno ((mem_congr hk).1 hm)) hsome hkey

omit [Crates] in
/-- A file that reads is there. -/
theorem mem_of_readToString {p : FilePath VaultDir} {s : String}
    (h : ReadM.eval fs (readToString p) = .ok s) : p ∈ fs := by
  by_contra hno
  rw [eval_readToString_none (AList.lookup_eq_none.2 hno)] at h
  cases h

end Directory

/-! ## §3. Openings. -/

section Opening

variable {env : Outside} {w : VaultWorld} {k : Key} {vaultId : String} {protection pass : Option String}
  {P : Set String}

/-- The key of a directory in order, for a config of it. -/
theorem wp_loadOrMigrateKey_kept (hwrap : Crates.wrappedJson.RoundTrip) {c : VaultConfig}
    (hnamed : vaultId.isEmpty = false) (hc : ConfigOf vaultId protection c)
    (hkept : KeyKept P w.fs vaultId k protection) (hpass : ∀ p ∈ pass, p ∈ P) :
    wp env (fun _ => True) (loadOrMigrateKey c pass) (fun r w' => w'.fs = w.fs ∧
      (protection = none ∨ protection = pass → ∃ x, r = .ok x) ∧
      ∀ k' c', r = .ok (k', c') → k' = k ∧ ConfigOf vaultId protection c' ∧
        (protection = none ∨ protection = pass)) w := by
  unfold loadOrMigrateKey
  refine wp_exists trivial ?_
  cases hkept with
  | plain hno hs hkey =>
    rw [if_neg (by simp [hno, hc.not_wrapped])]
    refine wp_exists trivial ?_
    rw [if_pos (by simpa using mem_of_readToString hs)]
    refine wp_read_ok trivial hs (wp_compute_ok trivial hkey ⟨trivial, rfl, fun _ => ⟨_, rfl⟩, ?_⟩)
    intro k' c' hr
    cases hr
    exact ⟨rfl, hc, .inl rfl⟩
  | @wrapped wrapped id newest hno hl hid hopens =>
    rw [if_pos (by simp [Fs.mem_iff_lookup.2 ⟨_, hl⟩])]
    have hload : ReadM.eval w.fs loadWrappedKey = .ok wrapped := by
      rw [eval_loadWrappedKey_text hl, hwrap]
      rfl
    have hempty : c.vaultId.isEmpty = false := by rw [hc.named, hnamed]
    have hid' : vaultIdFromHex c.vaultId = .ok id := by rw [hc.named, hid]
    refine wp_read trivial (fun k' hk' => ⟨trivial, rfl, fun _ => ⟨_, rfl⟩, ?_⟩)
      (fun e he => ⟨rfl, fun hnewest => ?_, fun k' c' hr => by cases hr⟩)
    · intro k'' c' hr
      cases hr
      -- the passphrase that opened it is the one it was sealed under
      obtain ⟨pw, wrapped', id', rfl, hload', -, hid'', hu⟩ := loadWrapped_ok_iff.1 hk'
      obtain rfl := Except.ok.inj (hload.symm.trans hload')
      obtain rfl := Except.ok.inj (hid'.symm.trans hid'')
      obtain rfl := hopens.only pw (hpass pw rfl) k' hu
      refine ⟨Except.ok.inj (hu.symm.trans hopens.opens), ?_, .inr rfl⟩
      exact ⟨hc.named, hc.encrypted, hc.numbered, hc.noKeyHex, fun _ => Option.some_ne_none _⟩
    · -- with the newest passphrase nothing can go wrong
      obtain hnone | rfl := hnewest
      · cases hnone
      · have hok := loadWrapped_ok_iff.2
          ⟨newest, wrapped, id, rfl, hload, hempty, hid', hopens.opens⟩
        cases he.symm.trans hok

/-- **An opening of a directory in order** leaves it; of the passphrases it succeeds under the newest,
and under no other one. -/
theorem wp_open_guarded (hwrap : Crates.wrappedJson.RoundTrip) (home : String)
    (h : Guarded P w.fs vaultId k protection) (hpass : ∀ p ∈ pass, p ∈ P) :
    wp env (fun _ => True) (openWithPassphrase home pass) (fun r w' => w'.fs = w.fs ∧
      (protection = none ∨ protection = pass → ∃ v, r = .ok v) ∧
      ∀ v, r = .ok v → HandleOf vaultId k protection v ∧
        (protection = none ∨ protection = pass)) w := by
  obtain ⟨c, hload, hc⟩ := h.config
  have hnamed : c.vaultId.isEmpty = false := by rw [hc.named, h.named]
  unfold openWithPassphrase
  refine wp_read_ok trivial hload ?_
  rw [assignVaultId, if_neg (by simp [hnamed])]
  show wp env _ (openKey (firstSeq c) pass >>= _) _ _
  rw [hc.firstSeq, openKey, if_pos hc.encrypted, hc.not_legacy h.named]
  rw [wp_bind, wp_bind]
  refine (wp_loadOrMigrateKey_kept hwrap h.named hc h.kept hpass).mono
    (fun _ _ => trivial) fun r w' _ hr => ?_
  obtain ⟨hfs, hok, hkey⟩ := hr
  cases r with
  | error e =>
    refine ⟨hfs, fun hnewest => ?_, fun v hv => by cases hv⟩
    obtain ⟨x, hx⟩ := hok hnewest
    cases hx
  | ok x =>
    obtain ⟨rfl, hc', hnewest⟩ := hkey x.1 x.2 rfl
    refine ⟨trivial, trivial, hfs, fun _ => ⟨_, rfl⟩, fun v hv => ?_⟩
    cases hv
    exact ⟨⟨rfl, hc'⟩, hnewest⟩

omit [Crates] in
/-- Numbers start at 1. -/
theorem firstSeq_eq (c : VaultConfig) : ∃ seq, seq ≠ 0 ∧ firstSeq c = { c with configSeq := seq } ∧
    (c.configSeq ≠ 0 → seq = c.configSeq) := by
  unfold firstSeq
  by_cases hzero : c.configSeq = 0
  · exact ⟨1, by decide, if_pos hzero, fun hne => absurd hzero hne⟩
  · exact ⟨c.configSeq, hzero, if_neg hzero, fun _ => rfl⟩

omit [Crates] in
/-- A legacy config gets its id, and nothing else changes. -/
theorem wp_assignVaultId_same (c : VaultConfig) : wp env (fun _ => True) (assignVaultId c)
    (fun r w' => w'.fs = w.fs ∧ ∃ id, r = .ok { c with vaultId := id } ∧ id.isEmpty = false ∧
      (c.vaultId.isEmpty = false → id = c.vaultId)) w := by
  unfold assignVaultId
  split
  next h =>
    exact wp_answer trivial ⟨trivial, rfl, _, rfl, vaultId_nonempty _,
      fun hc => by rw [h] at hc; cases hc⟩
  next h => exact ⟨trivial, rfl, c.vaultId, rfl, by simpa using h, fun _ => rfl⟩

/-- Loading an unprotected key leaves it in `vault.key`, and the config without it. -/
theorem wp_loadOrMigrateKey_plain (hjson : Crates.configJson.RoundTrip) {c : VaultConfig}
    (henc : c.encryptionEnabled = true) (hflag : c.keyWrapped = false) (hseq : c.configSeq ≠ 0)
    (hw : wrappedKeyFile ∉ w.fs) (hplain : PlainKey w.fs c k) :
    wp env (fun _ => True) (loadOrMigrateKey c pass) (fun r w' => ∃ c', r = .ok (k, c') ∧
      ConfigOf c.vaultId none c' ∧ KeyKept P w'.fs c.vaultId k none ∧
      (w'.fs.lookup configFile = w.fs.lookup configFile ∧ c' = c ∨
        ReadM.eval w'.fs loadConfig = .ok c')) w := by
  have hnever : c.keyWrapped = true → (none : Option String) ≠ none := fun h => by
    rw [hflag] at h
    cases h
  unfold loadOrMigrateKey
  refine wp_exists trivial ?_
  rw [if_neg (by simp [hw, hflag])]
  refine wp_exists trivial ?_
  cases hplain with
  | file hnone hs hkey =>
    rw [if_pos (by simpa using mem_of_readToString hs)]
    refine wp_read_ok trivial hs (wp_compute_ok trivial hkey ⟨trivial, c, rfl, ?_, ?_, .inl ⟨rfl, rfl⟩⟩)
    · exact ⟨rfl, henc, hseq, hnone, hnever⟩
    · exact .plain hw hs hkey
  | config hno hsome hkey =>
    rw [if_neg (by simpa using hno)]
    simp only [hsome]
    refine wp_compute_ok trivial hkey (wp_write trivial trivial (wp_write trivial trivial ?_))
    refine ⟨trivial, { c with keyHex := none }, rfl, ⟨rfl, henc, hseq, rfl, hnever⟩, ?_, .inr ?_⟩
    · -- the config is written after the key, and leaves it
      refine (KeyKept.written hw).congr ?_ ?_ <;> rw [World.lookup_written, if_neg (by decide)]
    · exact eval_loadConfig_written hjson _ _

/-- **The first opening of an unprotected vault** succeeds, whatever passphrase comes with it, and
leaves the directory in order. -/
theorem wp_open_unprotected (hjson : Crates.configJson.RoundTrip) (home : String)
    (h : Unprotected w.fs k) : wp env (fun _ => True) (openWithPassphrase home pass)
      (fun r w' => ∃ v id, r = .ok v ∧ Guarded P w'.fs id k none ∧ HandleOf id k none v) w := by
  obtain ⟨c, hload, henc, hflag, hplain⟩ := h.config
  unfold openWithPassphrase
  refine wp_read_ok trivial hload ?_
  refine wp_seq (wp_assignVaultId_same c) (fun c₁ w₁ _ h₁ => ?_) (fun e w₁ _ h₁ => ?_)
  · obtain ⟨hfs, id, heq, hid, hsame⟩ := h₁
    obtain rfl := Except.ok.inj heq
    obtain ⟨seq, hseq, hfirst, hkept⟩ := firstSeq_eq { c with vaultId := id }
    rw [hfirst, openKey, if_pos henc]
    have hplain₁ : PlainKey w₁.fs { c with vaultId := id, configSeq := seq } k := by
      rw [hfs]
      cases hplain with
      | file hnone hs hkey => exact .file hnone hs hkey
      | config hno hsome hkey => exact .config hno hsome hkey
    have hw₁ : wrappedKeyFile ∉ w₁.fs := by rw [hfs]; exact h.unwrapped
    rw [wp_bind, wp_bind]
    refine (wp_loadOrMigrateKey_plain (P := P) (c := { c with vaultId := id, configSeq := seq }) hjson henc
      hflag hseq hw₁ hplain₁).mono (fun _ _ => trivial) fun r w₂ _ h₂ => ?_
    obtain ⟨c₂, rfl, hc₂, hkept₂, hdisk⟩ := h₂
    refine ⟨trivial, ?_⟩
    show wp env _ (if isLegacy c then _ else _) _ _
    split
    next =>
      -- a legacy config is written back with its id and its number
      refine wp_write trivial trivial ⟨trivial, _, id, rfl, ⟨hid, ⟨c₂, ?_, hc₂⟩, ?_⟩, ⟨rfl, hc₂⟩⟩
      · exact eval_loadConfig_written hjson _ _
      · refine hkept₂.congr ?_ ?_ <;> rw [World.lookup_written, if_neg (by decide)]
    next hmodern =>
      refine ⟨trivial, _, id, rfl, ⟨hid, ⟨c₂, ?_, hc₂⟩, hkept₂⟩, ⟨rfl, hc₂⟩⟩
      rcases hdisk with ⟨hsame₂, rfl⟩ | hload₂
      · simp only [isLegacy, Bool.or_eq_true, not_or, Bool.not_eq_true, beq_eq_false_iff_ne] at hmodern
        rw [eval_loadConfig_congr hsame₂, hfs, hload, hsame hmodern.1, hkept hmodern.2]
      · exact hload₂
  · obtain ⟨-, id, heq, -⟩ := h₁
    cases heq

end Opening

/-! ## §4. Config operations. -/

section Changes

variable {env : Outside} {w : VaultWorld} {v : Vault} {k : Key} {vaultId : String}
  {protection : Option String} {P : Set String}

/-- A bump that does not panic stores the handle's config under the next number. -/
theorem wp_bump_stored (u : Vault) : wp env (fun _ => True) u.bumpAndSignConfig (fun r w' =>
    Orderly r → ∃ owner sig, let c := { u.config with
      configSeq := bumpSeq u.config.configSeq, owner := owner, configSig := sig }
      r = .ok { u with config := c } ∧ ConfigStored w.fs w'.fs c) w := by
  refine ((wp_bumpAndSignConfig u).and (wp_bump_ne_err u)).mono (fun _ _ => trivial) fun r w' _ h => ?_
  intro horderly
  cases r with
  | error e =>
    cases e with
    | err e => exact absurd rfl (h.2 e)
    | panic => exact absurd rfl horderly
  | ok u' =>
    obtain ⟨c, hc, rfl, hstored⟩ := h.1 u' rfl
    obtain ⟨owner, sig, rfl⟩ := hc.fields
    exact ⟨owner, sig, rfl, hstored⟩

omit [Crates] in
theorem ConfigOf.bumped {c : VaultConfig} (h : ConfigOf vaultId protection c) (owner sig : Option String) :
    ConfigOf vaultId protection { c with
      configSeq := bumpSeq c.configSeq, owner := owner, configSig := sig } :=
  ⟨h.named, h.encrypted, (bumpSeq_le _).2 h.numbered, h.noKeyHex, h.flag⟩

/-- A directory in order stays so under any of its configs. -/
theorem Guarded.stored (hjson : Crates.configJson.RoundTrip) {fs fs' : VaultFs} {c : VaultConfig}
    (h : Guarded P fs vaultId k protection) (hc : ConfigOf vaultId protection c)
    (hstored : ConfigStored fs fs' c) : Guarded P fs' vaultId k protection := by
  refine ⟨h.named, ⟨c, ?_, hc⟩, h.kept.congr ?_ ?_⟩
  · rw [eval_loadConfig_text ((hstored configFile).trans (if_pos rfl)), hjson]
    rfl
  · exact (hstored wrappedKeyFile).trans (if_neg (by decide))
  · exact (hstored keyFile).trans (if_neg (by decide))

/-- An operation that does not panic leaves the directory in order, and a handle on the vault. -/
def Preserves (P : Set String) (vaultId : String) (k : Key) (protection : Option String)
    (r : Res Vault) (w : VaultWorld) : Prop :=
  Orderly r → Guarded P w.fs vaultId k protection ∧ ∀ v, r = .ok v → HandleOf vaultId k protection v

theorem preserves_ok (h : Guarded P w.fs vaultId k protection) (hv : HandleOf vaultId k protection v) :
    Preserves P vaultId k protection (.ok v) w :=
  fun _ => ⟨h, fun u hu => by cases hu; exact hv⟩

theorem preserves_error {e : Fault} (h : Guarded P w.fs vaultId k protection) :
    Preserves P vaultId k protection (.error e) w :=
  fun _ => ⟨h, fun u hu => by cases hu⟩

/-- A bump, stale or not. -/
theorem wp_bump_preserves (hjson : Crates.configJson.RoundTrip) {u : Vault}
    (h : Guarded P w.fs vaultId k protection) (hu : HandleOf vaultId k protection u) :
    wp env (fun _ => True) u.bumpAndSignConfig (Preserves P vaultId k protection) w := by
  refine (wp_bump_stored u).mono (fun _ _ => trivial) fun r w' _ hr horderly => ?_
  obtain ⟨owner, sig, rfl, hstored⟩ := hr horderly
  have hc := hu.config.bumped owner sig
  refine ⟨h.stored hjson hc hstored, fun v' hv' => ?_⟩
  cases hv'
  exact ⟨hu.key, hc⟩

/-- The handle of a pair. -/
theorem wp_pair_preserves {α : Type} {x : Action (Vault × α)}
    (h : wp env (fun _ => True) x
      (fun r w' => Preserves P vaultId k protection (r.map Prod.fst) w') w) :
    wp env (fun _ => True) (x >>= fun r => (return r.1 : Action Vault))
      (Preserves P vaultId k protection) w :=
  wp_seq h (fun _ _ _ hr => ⟨trivial, hr⟩) fun e _ _ hr => by cases e <;> exact hr

omit [Crates] in
theorem HandleOf.withConfig {c : VaultConfig} (h : HandleOf vaultId k protection v)
    (hid : c.vaultId = v.config.vaultId) (henc : c.encryptionEnabled = v.config.encryptionEnabled)
    (hseq : c.configSeq = v.config.configSeq) (hhex : c.keyHex = v.config.keyHex)
    (hflag : c.keyWrapped = v.config.keyWrapped) :
    HandleOf vaultId k protection { v with config := c } where
  key := h.key
  config := {
    named := hid.trans h.config.named
    encrypted := henc.trans h.config.encrypted
    numbered := by rw [hseq]; exact h.config.numbered
    noKeyHex := hhex.trans h.config.noKeyHex
    flag := fun ht => h.config.flag (hflag ▸ ht) }

theorem wp_savePolicy_guarded {policy : VaultPolicy} (h : Guarded P w.fs vaultId k protection) :
    wp env (fun _ => True) (savePolicy policy) (fun _ w' => Guarded P w'.fs vaultId k protection) w := by
  unfold savePolicy
  refine wp_compute trivial (fun _ _ => ?_) (fun _ _ => h)
  refine wp_writeRename.2 ⟨trivial, trivial, trivial, trivial, h.congr ?_ ?_ ?_⟩ <;>
    rw [lookup_renamed, if_neg (by decide), if_neg (by decide)]

/-- Does the operation leave the key files alone? -/
def ConfigOp.LeavesKeys : ConfigOp → Prop
  | .enablePassphrase _ => False
  | .reopen _ _ => False
  | _ => True

/-- **A config operation of any handle**, stale or not, leaves the directory in order. -/
theorem wp_act_preserves (hjson : Crates.configJson.RoundTrip) {op : ConfigOp} (hop : op.LeavesKeys)
    (h : Guarded P w.fs vaultId k protection) (hv : HandleOf vaultId k protection v) :
    wp env (fun _ => True) (op.act v) (Preserves P vaultId k protection) w := by
  cases op with
  | withSoalHome home => exact ⟨trivial, preserves_ok h ⟨hv.key, hv.config⟩⟩
  | enablePassphrase passphrase => exact absurd hop not_false
  | setMinReplicas n => exact wp_bump_preserves hjson h (hv.withConfig rfl rfl rfl rfl rfl)
  | applyPolicy policy =>
    refine wp_pair_preserves ?_
    unfold Soal.applyPolicy
    refine wp_compute trivial (fun _ _ => ?_) (fun e _ => preserves_error h)
    refine wp_seq (wp_savePolicy_guarded h) (fun _ w₁ _ h₁ => ?_) (fun e w₁ _ h₁ => preserves_error h₁)
    split
    next =>
      refine wp_seq (wp_bump_preserves hjson h₁ (hv.withConfig rfl rfl rfl rfl rfl))
        (fun _ _ _ hr => ⟨trivial, hr⟩) (fun _ _ _ hr => hr)
    next => exact ⟨trivial, preserves_ok h₁ hv⟩
  | addMember id =>
    show wp env _ (v.addMember id) _ _
    unfold Vault.addMember
    dsimp only
    split
    next => exact ⟨trivial, preserves_error h⟩
    next =>
      split
      next => exact wp_bump_preserves hjson h (hv.withConfig rfl rfl rfl rfl rfl)
      next => exact ⟨trivial, preserves_ok h hv⟩
  | removeMember id =>
    refine wp_pair_preserves ?_
    unfold Vault.removeMember
    dsimp only
    split
    next =>
      refine wp_seq (wp_bump_preserves hjson h (hv.withConfig rfl rfl rfl rfl rfl))
        (fun _ _ _ hr => ⟨trivial, hr⟩) (fun _ _ _ hr => hr)
    next => exact ⟨trivial, preserves_ok h hv⟩
  | persistConfig =>
    refine wp_write trivial trivial ⟨trivial, preserves_ok ?_ hv⟩
    exact h.stored hjson hv.config fun p => World.lookup_written w configFile p _
  | reopen home passphrase => exact absurd hop not_false

/-! ## §5. Protecting the key. -/

/-- **`enable_passphrase` of any handle**: from then on the key opens under the new passphrase; after
an error the directory is as it was. -/
theorem wp_enablePassphrase_guarded {D : Set Sealing} (haead : AeadCorrect)
    (hapart : SealsApart P D k) (hjson : Crates.configJson.RoundTrip) (pass : String)
    (h : Guarded P w.fs vaultId k protection) (hv : HandleOf vaultId k protection v)
    (hd : ∀ id, v.vaultIdBytes = .ok id → sealingAt env w pass id ∈ D) :
    wp env (fun _ => True) (v.enablePassphrase pass) (fun r w' => Orderly r →
      (∀ v', r = .ok v' → Guarded P w'.fs vaultId k (some pass) ∧ HandleOf vaultId k (some pass) v') ∧
        ∀ e, r = .error e → Guarded P w'.fs vaultId k protection) w := by
  unfold Vault.enablePassphrase
  rw [if_neg (by simp [hv.config.encrypted])]
  simp only [hv.key]
  refine wp_compute trivial (fun id hid => ?_) (fun e _ _ => ⟨fun v' hv' => (by cases hv'), fun _ _ => h⟩)
  have hd := hd id hid
  have hid : vaultIdFromHex vaultId = .ok id := by
    have hbytes : v.vaultIdBytes = .ok id := hid
    unfold Vault.vaultIdBytes at hbytes
    rw [hv.config.named, if_neg (by simp [h.named])] at hbytes
    exact hbytes
  refine wp_seq (wp_wrapVaultKey_only haead hapart pass id hd) (fun wrapped w₁ _ h₁ => ?_)
    (fun e w₁ _ h₁ _ => ⟨fun v' hv' => (by cases hv'), fun _ _ => (by rw [h₁.1]; exact h)⟩)
  obtain ⟨hfs₁, honly⟩ := h₁
  refine wp_write trivial trivial ?_
  -- the wrapped key is on disk; the plaintext key goes
  refine wp_seq (R := fun r w' => r = .ok () ∧ keyFile ∉ w'.fs ∧
      ∀ p, p ≠ keyFile → w'.fs.lookup p = (w₁.written wrappedKeyFile
        (Text.toUtf8 (Crates.wrappedJson.toStringPretty wrapped))).fs.lookup p) ?_
    (fun _ w₂ _ h₂ => ?_) (fun e _ _ h₂ => by cases h₂.1)
  · unfold removeKeyFile
    refine wp_exists trivial ?_
    split
    next hkey =>
      refine (wp_removeFile (by simpa using hkey)).2 ⟨trivial, trivial, rfl, ?_, fun p hp => ?_⟩
      · rw [← AList.lookup_eq_none, World.lookup_removed, if_pos rfl]
      · rw [World.lookup_removed, if_neg hp]
    next hkey => exact ⟨trivial, rfl, by simpa using hkey, fun _ _ => rfl⟩
  obtain ⟨-, hno, hframe⟩ := h₂
  have hlookup : w₂.fs.lookup wrappedKeyFile =
      some (Text.toUtf8 (Crates.wrappedJson.toStringPretty wrapped)) := by
    rw [hframe _ (by decide), World.lookup_written, if_pos rfl]
  refine (wp_bump_stored _).mono (fun _ _ => trivial) fun r w₃ _ hr horderly => ?_
  obtain ⟨owner, sig, rfl, hstored⟩ := hr horderly
  have hc : ConfigOf vaultId (some pass) { v.config with
      keyWrapped := true, keyHex := none, configSeq := bumpSeq v.config.configSeq, owner := owner,
      configSig := sig } :=
    ⟨hv.config.named, hv.config.encrypted, (bumpSeq_le _).2 hv.config.numbered, rfl,
      fun _ => Option.some_ne_none pass⟩
  refine ⟨fun v' hv' => ?_, fun e he => by cases he⟩
  cases hv'
  refine ⟨⟨h.named, ⟨_, ?_, hc⟩, .wrapped ?_ ?_ hid (honly wrapped rfl)⟩, ⟨rfl, hc⟩⟩
  · rw [eval_loadConfig_text ((hstored configFile).trans (if_pos rfl)), hjson]
    rfl
  · exact fun hm => hno ((mem_congr ((hstored keyFile).trans (if_neg (by decide)))).1 hm)
  · exact ((hstored wrappedKeyFile).trans (if_neg (by decide))).trans hlookup

end Changes

/-! ## §6. A new vault. -/

section New

variable {env : Outside} {k : Key} {P : Set String}

end New

/-! ## §7. Any run. -/

/-- A directory, the handles that were opened on it, and the passphrase that protects the key. -/
structure Keyring where
  disk : VaultFs
  handles : List Vault
  protection : Option String

/-- What happens to the directory. -/
inductive KeyEvent where
  /-- an opening, by any process -/
  | opened (env : Outside) (home : String) (pass : Option String)
  /-- a config operation of a handle -/
  | acted (v : Vault) (env : Outside) (op : ConfigOp)
  | command (v : Vault) (env : Outside) (cmd : Command)
  /-- anything else -/
  | other (disk : VaultFs)

/-- A result that is a handle joins the handles. -/
def joined (r : Res Vault) (handles : List Vault) : List Vault :=
  match r with
  | .ok v => v :: handles
  | .error _ => handles

/-- The protection after an operation ended with `r`. -/
def ConfigOp.protects (r : Res Vault) (protection : Option String) : ConfigOp → Option String
  | .enablePassphrase pass => match r with
    | .ok _ => some pass
    | .error _ => protection
  | _ => protection

/-- The keyring after an event. -/
def Keyring.after (s : Keyring) : KeyEvent → Keyring
  | .opened env home pass =>
    let out := run env (openWithPassphrase home pass) (World.boot s.disk)
    ⟨out.2.fs, joined out.1 s.handles, s.protection⟩
  | .acted v env op =>
    let out := run env (op.act v) (World.boot s.disk)
    ⟨out.2.fs, joined out.1 s.handles, op.protects out.1 s.protection⟩
  | .command v env cmd => { s with disk := cmd.after v env s.disk }
  | .other disk => { s with disk }

/-- The passphrases of the operation are among `P`, and the sealing it makes is among `D`. -/
def ConfigOp.Among (P : Set String) (D : Set Sealing) (v : Vault) (env : Outside) (disk : VaultFs) :
    ConfigOp → Prop
  | .enablePassphrase pass => pass ∈ P ∧
      ∀ id, v.vaultIdBytes = .ok id → sealingAt env (World.boot disk) pass id ∈ D
  | .reopen _ pass => ∀ p ∈ pass, p ∈ P
  | _ => True

/-- Operations act on handles that were opened and run to their end; passphrases and sealings are among
the ones that were named; nothing else writes the config or the key files. -/
def KeyEvent.Allowed (P : Set String) (D : Set Sealing) (s : Keyring) : KeyEvent → Prop
  | .opened _ _ pass => ∀ p ∈ pass, p ∈ P
  | .acted v env op => v ∈ s.handles ∧ Orderly (run env (op.act v) (World.boot s.disk)).1 ∧
      op.Among P D v env s.disk
  | .command _ _ _ => True
  | .other disk => ∀ p ∈ [configFile, wrappedKeyFile, keyFile], disk.lookup p = s.disk.lookup p

/-- What the owner relies on, when all passphrases are among `P`. -/
structure KeySafe (P : Set String) (k : Key) (s : Keyring) : Prop where
  /-- every handle has the key of the vault -/
  handles : ∀ v ∈ s.handles, v.key = some k
  /-- an opening that succeeds loads it -/
  loads : ∀ pass : Option String, (∀ p ∈ pass, p ∈ P) → ∀ env home v,
    (run env (openWithPassphrase home pass) (World.boot s.disk)).1 = .ok v → v.key = some k
  /-- and it succeeds exactly under the newest passphrase -/
  opens : ∀ pass : Option String, (∀ p ∈ pass, p ∈ P) →
    (Opens s.disk pass k ↔ s.protection = none ∨ s.protection = pass)
  /-- a protected key is nowhere in plain -/
  hidden : s.protection ≠ none → keyFile ∉ s.disk
  /-- once the vault was opened, no config holds the key -/
  noKeyHex : s.handles ≠ [] → (∃ c, ReadM.eval s.disk loadConfig = .ok c ∧ c.keyHex = none) ∧
    ∀ v ∈ s.handles, v.config.keyHex = none

/-- The invariant: not opened yet, or in order and so are the handles. -/
inductive Keyring.InOrder (P : Set String) (k : Key) (s : Keyring) : Prop
  | unopened (hnone : s.handles = []) (hfree : s.protection = none) (h : Unprotected s.disk k)
  | opened {id : String} (h : Guarded P s.disk id k s.protection)
      (hall : ∀ v ∈ s.handles, HandleOf id k s.protection v)

section Run

variable {k : Key} {s : Keyring} {vaultId : String} {protection : Option String} {P : Set String}
  {D : Set Sealing}

omit [Crates] in
/-- Handles stay handles while the protection only grows. -/
theorem HandleOf.under {v : Vault} (h : HandleOf vaultId k protection v) (pass : String) :
    HandleOf vaultId k (some pass) v := ⟨h.key, h.config.protect pass⟩

omit [Crates] in
theorem mem_joined {r : Res Vault} {handles : List Vault} {v : Vault} :
    v ∈ joined r handles ↔ r = .ok v ∨ v ∈ handles := by
  cases r with
  | ok u => simp [joined, eq_comm]
  | error e => simp [joined]

/-- An operation that leaves the directory in order, and a handle if it gives one. -/
theorem Guarded.joined {fs : VaultFs} {r : Res Vault} {handles : List Vault}
    (h : Guarded P fs vaultId k protection) (hr : ∀ v, r = .ok v → HandleOf vaultId k protection v)
    (hall : ∀ v ∈ handles, HandleOf vaultId k protection v) :
    Keyring.InOrder P k ⟨fs, joined r handles, protection⟩ := by
  refine .opened h fun u hu => ?_
  obtain hu | hu := mem_joined.1 hu
  · exact hr u hu
  · exact hall u hu

/-- An opening of a directory in order. -/
theorem Guarded.opening (hwrap : Crates.wrappedJson.RoundTrip) {fs : VaultFs} {handles : List Vault}
    (h : Guarded P fs vaultId k protection) (hall : ∀ v ∈ handles, HandleOf vaultId k protection v)
    (env : Outside) (home : String) {pass : Option String} (hpass : ∀ p ∈ pass, p ∈ P) :
    Keyring.InOrder P k
      ⟨(run env (openWithPassphrase home pass) (World.boot fs)).2.fs,
        Soal.joined (run env (openWithPassphrase home pass) (World.boot fs)).1 handles, protection⟩ := by
  have hw : wp env _ (openWithPassphrase home pass) _ (World.boot fs) := wp_open_guarded hwrap home h hpass
  obtain ⟨hfs, -, hok⟩ := hw.post
  rw [hfs]
  exact h.joined (fun u hu => (hok u hu).1) hall

/-- A command writes neither the config nor a key file. -/
theorem Command.after_keys (v : Vault) (env : Outside) (fs : VaultFs) (cmd : Command) :
    ∀ p ∈ [configFile, wrappedKeyFile, keyFile], (cmd.after v env fs).lookup p = fs.lookup p := by
  intro p hp
  have hno : ¬VaultFile p := by
    unfold VaultFile HistoryFile Registry
    revert p
    decide
  by_cases hcmd : ∃ message, cmd = .snapshot message
  · obtain ⟨message, rfl⟩ := hcmd
    have hw : Within VaultFile (World.boot fs) _ :=
      ((v.confined_snapshot message).wp (World.boot fs)).crash (.final env _ _)
    exact hw.frame p hno
  · exact Command.frame_history v env fs (fun message h => hcmd ⟨message, h⟩) fun h => hno (.history h)

/-- What leaves the three files leaves the keyring in order. -/
theorem Keyring.InOrder.congr {disk : VaultFs} (h : s.InOrder P k)
    (hsame : ∀ p ∈ [configFile, wrappedKeyFile, keyFile], disk.lookup p = s.disk.lookup p) :
    Keyring.InOrder P k { s with disk } := by
  have hc := hsame configFile (by simp)
  have hw := hsame wrappedKeyFile (by simp)
  have hk := hsame keyFile (by simp)
  cases h with
  | unopened hnone hfree h => exact .unopened hnone hfree (h.congr hc hw hk)
  | opened h hall => exact .opened (h.congr hc hw hk) hall

/-- **One event.** -/
theorem Keyring.InOrder.step (haead : AeadCorrect) (hapart : SealsApart P D k)
    (hjson : Crates.configJson.RoundTrip) (hwrap : Crates.wrappedJson.RoundTrip) {e : KeyEvent}
    (he : e.Allowed P D s) (h : s.InOrder P k) : (s.after e).InOrder P k := by
  cases e with
  | opened env home pass =>
    cases h with
    | unopened hnone hfree h =>
      have hw : wp env _ (openWithPassphrase home pass) _ (World.boot s.disk) :=
        wp_open_unprotected (P := P) hjson home h
      obtain ⟨v, id, hr, hguarded, hv⟩ := hw.post
      show Keyring.InOrder P k ⟨_, joined _ s.handles, s.protection⟩
      rw [hfree, hr, hnone]
      refine hguarded.joined (fun u hu => ?_) (fun u hu => by cases hu)
      cases hu
      exact hv
    | opened h hall => exact h.opening hwrap hall env home he
  | acted v env op =>
    obtain ⟨hv, horderly, hamong⟩ := he
    cases h with
    | unopened hnone hfree h =>
      rw [hnone] at hv
      cases hv
    | @opened id h hall =>
      have hvh := hall v hv
      by_cases hop : op.LeavesKeys
      · -- the protection stays
        have hw : wp env _ (op.act v) _ (World.boot s.disk) := wp_act_preserves hjson hop h hvh
        obtain ⟨hguarded, hok⟩ := hw.post horderly
        have hsame : ∀ r, op.protects r s.protection = s.protection := by
          intro r
          cases op <;> first | rfl | exact absurd hop not_false
        show Keyring.InOrder P k ⟨_, joined _ s.handles, op.protects _ s.protection⟩
        rw [hsame]
        exact hguarded.joined hok hall
      · cases op with
        | enablePassphrase pass =>
          have hw : wp env _ (v.enablePassphrase pass) _ (World.boot s.disk) :=
            wp_enablePassphrase_guarded haead hapart hjson pass h hvh hamong.2
          obtain ⟨hok, herr⟩ := hw.post horderly
          show Keyring.InOrder P k ⟨_, joined (run env (v.enablePassphrase pass) _).1 s.handles,
            ConfigOp.protects (run env (v.enablePassphrase pass) _).1 s.protection
              (.enablePassphrase pass)⟩
          cases hr : (run env (v.enablePassphrase pass) (World.boot s.disk)).1 with
          | ok v' =>
            obtain ⟨hguarded, hv'⟩ := hok v' hr
            -- the handles that were there are stale now, and still have the key
            refine hguarded.joined (fun u hu => ?_) (fun u hu => (hall u hu).under pass)
            cases hu
            exact hv'
          | error e => exact .opened (herr e hr) hall
        | reopen home pass => exact h.opening hwrap hall env home hamong
        | _ => exact absurd trivial hop
  | command v env cmd => exact h.congr (Command.after_keys v env s.disk cmd)
  | other disk => exact h.congr he

/-- In order means safe. -/
theorem Keyring.InOrder.safe (hjson : Crates.configJson.RoundTrip)
    (hwrap : Crates.wrappedJson.RoundTrip) (h : s.InOrder P k) : KeySafe P k s := by
  cases h with
  | unopened hnone hfree h =>
    -- any passphrase opens a vault that has none
    have hopen : ∀ pass env home, ∃ v id,
        (run env (openWithPassphrase home pass) (World.boot s.disk)).1 = .ok v ∧
          HandleOf id k none v := by
      intro pass env home
      have hw : wp env _ (openWithPassphrase home pass) _ (World.boot s.disk) :=
        wp_open_unprotected (P := P) hjson home h
      obtain ⟨v, id, hr, -, hv⟩ := hw.post
      exact ⟨v, id, hr, hv⟩
    refine ⟨fun v hv => ?_, fun pass _ env home v hr => ?_, fun pass _ => ?_, ?_, ?_⟩
    · rw [hnone] at hv
      cases hv
    · obtain ⟨v', id, hr', hv'⟩ := hopen pass env home
      obtain rfl := Except.ok.inj (hr.symm.trans hr')
      exact hv'.key
    · refine iff_of_true (fun env home => ?_) (.inl hfree)
      obtain ⟨v, id, hr, hv⟩ := hopen pass env home
      exact ⟨v, hr, hv.key⟩
    · intro hne
      exact absurd hfree hne
    · intro hne
      exact absurd hnone hne
  | @opened id h hall =>
    -- what an opening does depends on the newest passphrase only
    have hwp : ∀ pass : Option String, (∀ p ∈ pass, p ∈ P) → ∀ env home,
        wp env _ (openWithPassphrase home pass) _ (World.boot s.disk) :=
      fun pass hpass env home => wp_open_guarded hwrap home h hpass
    have hopen := fun pass hpass env home => (hwp pass hpass env home).post
    refine ⟨fun v hv => (hall v hv).key, fun pass hpass env home v hr => ?_,
      fun pass hpass => ⟨fun ho => ?_, ?_⟩, fun hne => ?_,
      fun _ => ⟨?_, fun v hv => (hall v hv).config.noKeyHex⟩⟩
    · exact ((hopen pass hpass env home).2.2 v hr).1.key
    · obtain ⟨v, hr, -⟩ := ho (quiet 0) ""
      exact ((hopen pass hpass (quiet 0) "").2.2 v hr).2
    · intro hnewest env home
      obtain ⟨v, hr⟩ := (hopen pass hpass env home).2.1 hnewest
      exact ⟨v, hr, ((hopen pass hpass env home).2.2 v hr).1.key⟩
    · obtain ⟨disk, handles, protection⟩ := s
      cases h.kept with
      | plain => exact absurd rfl hne
      | wrapped hno => exact hno
    · obtain ⟨c, hload, hc⟩ := h.config
      exact ⟨c, hload, hc.noKeyHex⟩

end Run

end Custody

/-! ### A vault with a plaintext key, protected. -/

section Sample

/-- Argon2id of `pass` and of `wrong` under a salt of zeros. -/
def passWrap : Key := ⟨[
    0xcc, 0xda, 0x5d, 0xcb, 0x3a, 0x89, 0x72, 0x09, 0x40, 0x9b, 0x40, 0x51, 0xa9, 0x76, 0xbf, 0x01,
    0xec, 0xf8, 0xc9, 0x71, 0xee, 0x98, 0x81, 0x4d, 0x51, 0xa2, 0xaf, 0x14, 0xb2, 0xa7, 0x86, 0xce], rfl⟩

def wrongWrap : Key := ⟨[
    0xc3, 0x0d, 0x05, 0x4c, 0x9d, 0xce, 0x64, 0x18, 0x04, 0x63, 0x7f, 0x36, 0xc1, 0x5d, 0xe2, 0xd3,
    0x22, 0xb3, 0x50, 0x05, 0x02, 0xf8, 0x1f, 0x2b, 0x57, 0x5f, 0xb5, 0x52, 0xe6, 0xe0, 0x50, 0x4a], rfl⟩

/-- The key `sampleKey` sealed under `passWrap` with a nonce of zeros. -/
def sampleSealed : Bytes := [
    0x00, 0xf7, 0x21, 0x0f, 0x12, 0x60, 0x39, 0xdb, 0x9b, 0xcc, 0xe6, 0x20, 0xde, 0x1b, 0x83, 0x2a,
    0x8b, 0x71, 0xbb, 0x0a, 0x04, 0xd3, 0x14, 0x7c, 0xf7, 0x9e, 0x9e, 0xb2, 0x47, 0xf4, 0xc9, 0x6a,
    0xd3, 0x74, 0x61, 0xd3, 0x8d, 0x00, 0x15, 0xe8, 0xbe, 0xaa, 0x36, 0xa8, 0x69, 0xf7, 0x13, 0x0f]

/-- The id of the sample vault. -/
def sampleIdBytes : Bytes := [0x00, 0x11, 0x22, 0x33, 0x44, 0x55, 0x66, 0x77, 0x88, 0x99, 0xaa, 0xbb,
  0xcc, 0xdd, 0xee, 0xff]

/-- The record that `enable_passphrase` writes, and its text. -/
def sampleRecord : WrappedKey :=
  sealedRecord (List.replicate 16 0) (List.replicate 24 0 ++ sampleSealed)

def sampleRecordText : String :=
  "\x7b\n  \"kdf\": \"argon2id\",\n  \"salt_hex\": \"00000000000000000000000000000000\",\n" ++
  "  \"m_kib\": 19456,\n  \"t_cost\": 2,\n  \"p_cost\": 1,\n  \"sealed_hex\": \"" ++
  String.ofList (Text.hexEncode (List.replicate 24 0 ++ sampleSealed)) ++ "\"\n\x7d"

/-- The config after it, and its text. -/
def wrappedConfig : VaultConfig := { sampleConfig with configSeq := 2, keyWrapped := true }

def wrappedConfigText : String :=
  "\x7b\n  \"name\": \"demo\",\n  \"encryption_enabled\": true,\n  \"min_replicas\": 2,\n" ++
  "  \"created_at\": 1700000000,\n  \"vault_id\": \"00112233445566778899aabbccddeeff\",\n" ++
  "  \"config_seq\": 2,\n  \"key_wrapped\": true\n\x7d"

/-- Argon2id and the AEAD where they are listed: nothing else is derived, sealed or opened. -/
@[reducible] noncomputable def keyed : Crates :=
  { standIn (tableDigest []) with
    argon2id := fun pass salt mKib tCost pCost =>
      if salt = List.replicate 16 0 ∧ mKib = argon2MKib ∧ tCost = argon2TCost ∧ pCost = argon2PCost then
        if pass = Text.toUtf8 "pass" then .ok passWrap
        else if pass = Text.toUtf8 "wrong" then .ok wrongWrap else .error "unlisted"
      else .error "unlisted"
    aeadEncrypt := fun key nonce msg aad =>
      if key = passWrap ∧ nonce = List.replicate 24 0 ∧ msg = sampleKey.val ∧ aad = wrapAad sampleIdBytes
      then .ok sampleSealed else .error "unlisted"
    aeadDecrypt := fun key nonce ct aad =>
      if key = passWrap ∧ nonce = List.replicate 24 0 ∧ ct = sampleSealed ∧ aad = wrapAad sampleIdBytes
      then .ok sampleKey.val else .error "aead::Error"
    configJson := .ofPrinter (printBoth sampleConfig wrappedConfig sampleConfigText wrappedConfigText)
    wrappedJson := .ofPrinter (printOr sampleRecord sampleRecordText) }

attribute [local instance] keyed

end Sample

end Soal

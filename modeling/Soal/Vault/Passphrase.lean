/-
  Soal.Vault.Passphrase — opening a vault, and what is left of its key when `enable_passphrase` is
  cut short.

  An opening reads the config and then one of two key files: the wrapped key when that file exists,
  whatever is in it, and the plaintext key otherwise.  `KeySource` names the one it reads.  After a
  successful opening the disk is `Settled`: opening again reads the same key.

  `enable_passphrase` truncates and rewrites `vault.wrapped.json`, removes `vault.key`, and truncates
  and rewrites `vault.json`.  Every state in between opens except the two truncated ones.
-/
import Soal.SampleVault
import Soal.Vault.Keys

namespace Soal

open FileProg

section Passphrase

variable [Crates]

/-! ## §1. Opening. -/

/-- The vault opens under `pass` with the key `k`, whatever the outside world answers. -/
def Opens (fs : VaultFs) (pass : Option String) (k : Key) : Prop :=
  ∀ (env : Outside) (home : String), ∃ v,
    (run env (openWithPassphrase home pass) (World.boot fs)).1 = .ok v ∧ v.key = some k

/-- The file an opening takes the key from. -/
inductive KeySource (fs : VaultFs) (config : VaultConfig) (pass : Option String) (k : Key) : Prop
  | wrapped (h : ReadM.eval fs (loadWrapped config pass) = .ok k)
  | plain {s : String} (hw : wrappedKeyFile ∉ fs) (hflag : config.keyWrapped = false)
      (hs : ReadM.eval fs (readToString keyFile) = .ok s) (hk : keyFromHex s = .ok k)

/-- A directory that an opening has left in order: the config names the vault, and the key can be
read. -/
structure Settled (fs : VaultFs) (vaultId : String) (pass : Option String) (k : Key) : Prop where
  config : ∃ c, ReadM.eval fs loadConfig = .ok c ∧ c.vaultId = vaultId ∧
    c.vaultId.isEmpty = false ∧ c.encryptionEnabled = true ∧ KeySource fs c pass k

section Files

variable {fs fs' : VaultFs}

theorem eval_loadConfig_congr (h : fs'.lookup configFile = fs.lookup configFile) :
    ReadM.eval fs' loadConfig = ReadM.eval fs loadConfig := by
  unfold loadConfig
  rw [ReadM.eval_bind, ReadM.eval_bind, eval_readToString_congr h]
  rfl

theorem eval_loadConfig_text {s : String} (h : fs.lookup configFile = some (Text.toUtf8 s)) :
    ReadM.eval fs loadConfig = serde (Crates.configJson.fromStr s) := by
  unfold loadConfig
  rw [ReadM.eval_bind, eval_readToString_text h]
  rfl

theorem eval_loadWrappedKey_congr (h : fs'.lookup wrappedKeyFile = fs.lookup wrappedKeyFile) :
    ReadM.eval fs' loadWrappedKey = ReadM.eval fs loadWrappedKey := by
  unfold loadWrappedKey
  simp only [ReadM.eval_bind, ReadM.eval_pathExists, ok_bind, mem_congr h, ReadM.eval_ite,
    eval_readToString_congr h]
  rfl

theorem eval_loadWrappedKey_text {s : String} (h : fs.lookup wrappedKeyFile = some (Text.toUtf8 s)) :
    ReadM.eval fs loadWrappedKey = serde (Crates.wrappedJson.fromStr s) := by
  have hmem : wrappedKeyFile ∈ fs := Fs.mem_iff_lookup.2 ⟨_, h⟩
  unfold loadWrappedKey
  simp only [ReadM.eval_bind, ReadM.eval_pathExists, ok_bind, hmem, decide_true, if_true,
    eval_readToString_text h]
  rfl

/-- Only a wrapped key file that exists can be loaded. -/
theorem mem_of_loadWrappedKey {wrapped : WrappedKey}
    (h : ReadM.eval fs loadWrappedKey = .ok wrapped) : wrappedKeyFile ∈ fs := by
  by_contra hn
  unfold loadWrappedKey at h
  simp only [ReadM.eval_bind, ReadM.eval_pathExists, ok_bind, hn, decide_false, Bool.false_eq_true,
    if_false, eval_abort] at h
  cases h

/-- The steps of loading a wrapped key. -/
theorem loadWrapped_ok_iff {config : VaultConfig} {pass : Option String} {k : Key} :
    ReadM.eval fs (loadWrapped config pass) = .ok k ↔
      ∃ pw wrapped vaultId, pass = some pw ∧ ReadM.eval fs loadWrappedKey = .ok wrapped ∧
        config.vaultId.isEmpty = false ∧ vaultIdFromHex config.vaultId = .ok vaultId ∧
        unwrapVaultKeyPassphrase wrapped pw vaultId = .ok k := by
  unfold loadWrapped
  cases pass with
  | none => simp
  | some pw =>
      simp only [ReadM.eval_bind, bind_ok_iff, Option.some.injEq]
      constructor
      · rintro ⟨wrapped, hw, h⟩
        split at h
        next => cases h
        next hid =>
          rw [ReadM.eval_bind, bind_ok_iff] at h
          obtain ⟨vaultId, hv, hu⟩ := h
          exact ⟨pw, wrapped, vaultId, rfl, hw, by simpa using hid, hv, hu⟩
      · rintro ⟨_, wrapped, vaultId, rfl, hw, hid, hv, hu⟩
        refine ⟨wrapped, hw, ?_⟩
        rw [if_neg (by simp [hid]), ReadM.eval_bind, bind_ok_iff]
        exact ⟨vaultId, hv, hu⟩

theorem KeySource.congr {c c' : VaultConfig} {pass : Option String} {k : Key}
    (hw : fs'.lookup wrappedKeyFile = fs.lookup wrappedKeyFile)
    (hk : fs'.lookup keyFile = fs.lookup keyFile) (hid : c'.vaultId = c.vaultId)
    (hflag : c.keyWrapped = false → c'.keyWrapped = false) (h : KeySource fs c pass k) :
    KeySource fs' c' pass k := by
  cases h with
  | wrapped h =>
      rw [loadWrapped_ok_iff] at h
      refine .wrapped (loadWrapped_ok_iff.2 ?_)
      rw [eval_loadWrappedKey_congr hw, hid]
      exact h
  | plain hn hf hs hk' =>
      refine .plain (fun hmem => hn ((mem_congr hw).1 hmem)) (hflag hf) ?_ hk'
      rw [eval_readToString_congr hk, hs]

end Files

section Opening

variable {env : Outside} {fs : VaultFs} {pass : Option String} {k : Key}

/-- What an opening reads decides its key. -/
theorem wp_loadOrMigrateKey {w : VaultWorld} {config : VaultConfig}
    (h : KeySource w.fs config pass k) :
    wp env (fun _ => True) (loadOrMigrateKey config pass)
      (fun r w' => w' = w ∧ ∃ c, r = .ok (k, c)) w := by
  unfold loadOrMigrateKey
  refine wp_exists trivial ?_
  cases h with
  | wrapped h =>
      obtain ⟨_, _, _, _, hw, _⟩ := loadWrapped_ok_iff.1 h
      rw [if_pos (by simp [mem_of_loadWrappedKey hw])]
      exact wp_read_ok trivial h ⟨trivial, rfl, _, rfl⟩
  | @plain s hn hf hs hk =>
      have hmem : keyFile ∈ w.fs := by
        by_contra hkey
        rw [eval_readToString_none (AList.lookup_eq_none.2 hkey)] at hs
        cases hs
      rw [if_neg (by simp [hn, hf])]
      refine wp_exists trivial ?_
      rw [if_pos (by simp [hmem])]
      exact wp_read_ok trivial hs (wp_compute_ok trivial hk ⟨trivial, rfl, _, rfl⟩)

/-- **A settled vault opens.** -/
theorem Settled.opens {vaultId : String} (h : Settled fs vaultId pass k) : Opens fs pass k := by
  intro env home
  obtain ⟨c, hc, -, hid, henc, hsrc⟩ := h.config
  suffices hwp : wp env (fun _ => True) (openWithPassphrase home pass)
      (fun r _ => ∃ v, r = .ok v ∧ v.key = some k) (World.boot fs) from hwp.post
  unfold openWithPassphrase
  refine wp_read_ok trivial hc ?_
  rw [assignVaultId, if_neg (by simp [hid])]
  show wp env _ (openKey (firstSeq c) pass >>= _) _ _
  have hfirst : (firstSeq c).encryptionEnabled = true ∧ KeySource fs (firstSeq c) pass k := by
    unfold firstSeq
    split
    next => exact ⟨henc, KeySource.congr (c := c) rfl rfl rfl (fun h => h) hsrc⟩
    next => exact ⟨henc, hsrc⟩
  have hkey : wp env (fun _ => True) (openKey (firstSeq c) pass)
      (fun r _ => ∃ c', r = .ok (some k, c')) (World.boot fs) := by
    rw [openKey, if_pos hfirst.1]
    refine wp_seq (wp_loadOrMigrateKey hfirst.2) (fun a w' _ ha => ?_) (fun e w' _ he => ?_)
    · obtain ⟨-, c', hc'⟩ := ha
      obtain rfl := Except.ok.inj hc'
      exact ⟨trivial, c', rfl⟩
    · obtain ⟨-, c', hc'⟩ := he
      cases hc'
  refine wp_seq hkey (fun a w' _ ha => ?_) (fun e w' _ he => ?_)
  · obtain ⟨c', hc'⟩ := ha
    obtain rfl := Except.ok.inj hc'
    show wp env _ (if isLegacy c then _ else _) _ _
    split
    next => exact wp_write trivial trivial ⟨trivial, _, rfl, rfl⟩
    next => exact ⟨trivial, _, rfl, rfl⟩
  · obtain ⟨c', hc'⟩ := he
    cases hc'

omit [Crates] in
/-- 16 bytes are 32 hex digits. -/
theorem vaultId_nonempty (id : { b : Bytes // b.length = 16 }) :
    (String.ofList (Text.hexEncode id.val)).isEmpty = false := by
  have hlen := Text.hexEncode_length id.val
  rw [id.property] at hlen
  cases hd : Text.hexEncode id.val with
  | nil =>
    rw [hd] at hlen
    cases hlen
  | cons x l => simp

omit [Crates] in
/-- Getting a vault id leaves the files alone. -/
theorem wp_assignVaultId {w : VaultWorld} (c : VaultConfig) :
    wp env (fun _ => True) (assignVaultId c) (fun r w' => w'.fs = w.fs ∧ ∃ c', r = .ok c' ∧
      c'.vaultId.isEmpty = false ∧ c'.encryptionEnabled = c.encryptionEnabled ∧
      (c.vaultId.isEmpty = false → c' = c)) w := by
  unfold assignVaultId
  split
  next h =>
    exact wp_answer trivial ⟨trivial, rfl, _, rfl, vaultId_nonempty _, rfl,
      fun hc => by rw [h] at hc; cases hc⟩
  next h => exact ⟨trivial, rfl, _, rfl, by simpa using h, rfl, fun _ => rfl⟩

/-- A config that does not parse opens under nothing. -/
theorem not_opens_of_config (env : Outside) (h : ∀ c, ReadM.eval fs loadConfig ≠ .ok c) :
    ¬Opens fs pass k := by
  intro ho
  obtain ⟨v, hv, -⟩ := ho env ""
  have hwp : wp env (fun _ => True) (openWithPassphrase "" pass) (fun r _ => ∀ v, r ≠ .ok v)
      (World.boot fs) := by
    unfold openWithPassphrase
    exact wp_read trivial (fun c hc => absurd hc (h c)) (fun e _ v hv => by cases hv)
  exact hwp.post v hv

/-- Once the wrapped key file is there, the key comes from it or from nowhere. -/
theorem not_opens_of_wrapped (env : Outside) (hmem : wrappedKeyFile ∈ fs)
    (h : ∀ c, ReadM.eval fs (loadWrapped c pass) ≠ .ok k) : ¬Opens fs pass k := by
  intro ho
  obtain ⟨v, hv, hk⟩ := ho env ""
  have hkey : ∀ (c : VaultConfig) (w : VaultWorld), w.fs = fs →
      wp env (fun _ => True) (openKey c pass) (fun r _ => ∀ key c', r = .ok (key, c') →
        key ≠ some k) w := by
    intro c w hw
    unfold openKey
    split
    next =>
      unfold loadOrMigrateKey
      rw [wp_bind]
      refine wp_exists trivial ?_
      rw [if_pos (by simp [hw, hmem])]
      refine wp_read trivial (fun k' hk' => ⟨trivial, trivial, fun key c' hr => ?_⟩)
        (fun e _ key c' hr => by cases hr)
      cases hr
      intro heq
      cases heq
      exact h c (by rw [← hw]; exact hk')
    next => exact ⟨trivial, fun key c' hr => by cases hr; simp⟩
  have hwp : wp env (fun _ => True) (openWithPassphrase "" pass)
      (fun r _ => ∀ v, r = .ok v → v.key ≠ some k) (World.boot fs) := by
    unfold openWithPassphrase
    refine wp_read trivial (fun c _ => ?_) (fun e _ v hv => by cases hv)
    refine wp_seq (wp_assignVaultId c) (fun c' w' _ hc' => ?_) (fun e w' _ he => ?_)
    · refine wp_seq (hkey _ w' hc'.1) (fun a w'' _ ha => ?_) (fun e w'' _ _ v hv => by cases hv)
      have hne := ha a.1 a.2 rfl
      show wp env _ (if isLegacy c then _ else _) _ _
      split
      next => exact wp_write trivial trivial ⟨trivial, fun v hv => by cases hv; exact hne⟩
      next => exact ⟨trivial, fun v hv => by cases hv; exact hne⟩
    · obtain ⟨-, _, hc', -⟩ := he
      cases hc'
  exact hwp.post v hv hk

/-! ## §2. An opening settles the directory. -/

/-- A written config reads back. -/
theorem eval_loadConfig_written (hjson : Crates.configJson.RoundTrip) (w : VaultWorld)
    (c : VaultConfig) :
    ReadM.eval (w.written configFile (Text.toUtf8 (Crates.configJson.toStringPretty c))).fs
      loadConfig = .ok c := by
  rw [eval_loadConfig_text (by rw [World.lookup_written, if_pos rfl]), hjson]
  rfl

omit [Crates] in
@[simp] theorem hexBytes_hexEncode (b : Bytes) :
    hexBytes (String.ofList (Text.hexEncode b)) = .ok b := by
  have htrim : Text.trim (Text.hexEncode b) = Text.hexEncode b :=
    Text.trim_eq_self fun c hc => by
      obtain ⟨n, hn, rfl⟩ := Text.mem_hexEncode hc
      exact (Text.hexDigit_plain n hn).1
  rw [hexBytes, String.toList_ofList, htrim, Text.hexDecode_hexEncode]

omit [Crates] in
theorem keyFromHex_hexEncode (k : Key) : keyFromHex (String.ofList (Text.hexEncode k.val)) = .ok k := by
  unfold keyFromHex
  rw [hexBytes_hexEncode]
  exact dif_pos k.property

/-- After the key is loaded, the config on disk is as before or the migrated one, and the same key
can be read again. -/
theorem wp_openKey (hjson : Crates.configJson.RoundTrip) {w : VaultWorld} (c : VaultConfig) :
    wp env (fun _ => True) (openKey c pass) (fun r w' => ∀ k c', r = .ok (some k, c') →
      c.encryptionEnabled = true ∧ c'.encryptionEnabled = true ∧ c'.vaultId = c.vaultId ∧
      KeySource w'.fs c' pass k ∧ ((w'.fs.lookup configFile = w.fs.lookup configFile ∧
        KeySource w'.fs c pass k) ∨ ReadM.eval w'.fs loadConfig = .ok c')) w := by
  unfold openKey
  split
  next henc =>
    unfold loadOrMigrateKey
    rw [wp_bind]
    refine wp_exists trivial ?_
    split
    next =>
      -- a wrapped key is there, or the config says so: nothing else is tried
      refine wp_read trivial (fun k hk => ⟨trivial, trivial, fun k' c' hr => ?_⟩)
        (fun e _ k c' hr => by cases hr)
      cases hr
      refine ⟨henc, henc, rfl, .wrapped ?_, .inl ⟨rfl, .wrapped hk⟩⟩
      exact loadWrapped_ok_iff.2 (loadWrapped_ok_iff.1 hk)
    next hwrapped =>
      simp only [Bool.or_eq_true, decide_eq_true_eq, not_or, Bool.not_eq_true] at hwrapped
      obtain ⟨hn, hf⟩ := hwrapped
      refine wp_exists trivial ?_
      split
      next =>
        -- `vault.key`
        refine wp_read trivial (fun s hs => ?_) (fun e _ k c' hr => by cases hr)
        refine wp_compute trivial (fun k hk => ⟨trivial, trivial, fun k' c' hr => ?_⟩)
          (fun e _ k c' hr => by cases hr)
        cases hr
        exact ⟨henc, henc, rfl, .plain hn hf hs hk, .inl ⟨rfl, .plain hn hf hs hk⟩⟩
      next =>
        split
        -- a legacy config: its key moves to `vault.key`
        next hexkey hsome =>
          refine wp_compute trivial (fun k hk => ?_) (fun e _ k c' hr => by cases hr)
          refine wp_write trivial trivial (wp_write trivial trivial ⟨trivial, trivial, ?_⟩)
          intro k' c' hr
          cases hr
          refine ⟨henc, henc, rfl, .plain (s := String.ofList (Text.hexEncode k.val)) ?_ hf ?_
            (keyFromHex_hexEncode k), .inr (eval_loadConfig_written hjson _ _)⟩
          · refine fun hm => hn ((mem_congr ?_).1 hm)
            rw [World.lookup_written, if_neg (by decide), World.lookup_written,
              if_neg (by decide)]
          · exact eval_readToString_text (by
              rw [World.lookup_written, if_neg (by decide), World.lookup_written, if_pos rfl])
        next => exact ⟨trivial, fun k c' hr => by cases hr⟩
  next => exact ⟨trivial, fun k c' hr => by cases hr⟩

/-- **An opening settles the directory**: opening again reads the same key. -/
theorem wp_open_settled (hjson : Crates.configJson.RoundTrip) (home : String) (w : VaultWorld) :
    wp env (fun _ => True) (openWithPassphrase home pass) (fun r w' => ∀ v k, r = .ok v →
      v.key = some k → Settled w'.fs v.config.vaultId pass k) w := by
  unfold openWithPassphrase
  refine wp_read trivial (fun c hc => ?_) (fun e _ v k hv => by cases hv)
  refine wp_seq (wp_assignVaultId c) (fun c₁ w₁ _ hc₁ => ?_) (fun e w₁ _ he v k hv => by cases hv)
  obtain ⟨hfs, c₁', heq, hid, henc₁, hsame⟩ := hc₁
  obtain rfl := Except.ok.inj heq
  have hfirst : (firstSeq c₁).vaultId = c₁.vaultId := by unfold firstSeq; split <;> rfl
  refine wp_seq (wp_openKey hjson (firstSeq c₁)) (fun a w₂ _ ha => ?_)
    (fun e w₂ _ _ v k hv => by cases hv)
  obtain ⟨key, c₂⟩ := a
  show wp env _ (if isLegacy c then _ else _) _ _
  split
  next =>
    refine wp_write trivial trivial ⟨trivial, fun v k hv hk => ?_⟩
    cases hv
    obtain rfl : key = some k := hk
    obtain ⟨-, henc, hvid, hsrc, -⟩ := ha k c₂ rfl
    refine ⟨c₂, eval_loadConfig_written hjson _ _, rfl, by rw [hvid, hfirst, hid], henc, ?_⟩
    refine KeySource.congr (c := c₂) ?_ ?_ rfl (fun h => h) hsrc <;>
      rw [World.lookup_written, if_neg (by decide)]
  next hmodern =>
    refine ⟨trivial, fun v k hv hk => ?_⟩
    cases hv
    obtain rfl : key = some k := hk
    obtain ⟨henc, henc₂, hvid, hsrc, hdisk⟩ := ha k c₂ rfl
    simp only [isLegacy, Bool.or_eq_true, not_or, Bool.not_eq_true, beq_eq_false_iff_ne] at hmodern
    -- a config that is not legacy was not changed
    obtain rfl := hsame hmodern.1
    have hseq : firstSeq c₁ = c₁ := if_neg hmodern.2
    rw [hseq] at henc hvid hdisk
    refine ⟨?_⟩
    rcases hdisk with ⟨hcfg, hsrc₁⟩ | hcfg
    · refine ⟨c₁, ?_, hvid.symm, hid, henc, hsrc₁⟩
      rw [eval_loadConfig_congr hcfg, eval_loadConfig_congr (by rw [hfs])]
      exact hc
    · exact ⟨c₂, hcfg, rfl, by rw [hvid, hid], henc₂, hsrc⟩

end Opening

/-! ## §3. Protecting the key. -/

/-- XChaCha20-Poly1305 opens what it sealed, and appends a 16-byte tag. -/
structure AeadCorrect : Prop where
  opens : ∀ key nonce msg aad ct, Crates.aeadEncrypt key nonce msg aad = .ok ct →
    Crates.aeadDecrypt key nonce ct aad = .ok msg
  tag : ∀ key nonce msg aad ct, Crates.aeadEncrypt key nonce msg aad = .ok ct →
    ct.length = msg.length + 16

/-- The owner gets the key back without a passphrase, with the old one or with the new one. -/
def OwnerCanOpen (fs : VaultFs) (old : Option String) (new : String) (k : Key) : Prop :=
  Opens fs none k ∨ Opens fs old k ∨ Opens fs (some new) k

/-- The last primitive cut the wrapped key or the config to nothing. -/
def KeyFileTorn (w : VaultWorld) : Prop :=
  w.log.head? = some (.truncate wrappedKeyFile) ∨ w.log.head? = some (.truncate configFile)

section Protecting

variable {env : Outside} {old : Option String} {k : Key} {I : VaultWorld → Prop}

/-- A sealed key opens under its passphrase. -/
theorem wp_wrapVaultKeyPassphrase (haead : AeadCorrect) {w : VaultWorld} (pass : String)
    (vaultId : Bytes) (hI : ∀ w', w'.fs = w.fs → w'.log = w.log → I w') :
    wp env I (wrapVaultKeyPassphrase k pass vaultId) (fun r w' => w'.fs = w.fs ∧ w'.log = w.log ∧
      ∀ wrapped, r = .ok wrapped → unwrapVaultKeyPassphrase wrapped pass vaultId = .ok k) w := by
  unfold wrapVaultKeyPassphrase
  refine wp_answer (hI w rfl rfl) ?_
  set salt : { b : Bytes // b.length = 16 } := env w.tick (.random 16) with hsalt
  refine wp_compute (hI _ rfl rfl) (fun wrap hwrap => ?_)
    (fun e _ => ⟨rfl, rfl, fun _ h => by cases h⟩)
  unfold wrapKey
  rw [wp_bind]
  refine wp_answer (hI _ rfl rfl) ?_
  set nonce : { b : Bytes // b.length = nonceLen } := env w.asked.tick (.random nonceLen) with hnonce
  refine wp_compute (hI _ rfl rfl) (fun ct hct => ?_) (fun e _ => ⟨rfl, rfl, fun _ h => by cases h⟩)
  refine ⟨hI _ rfl rfl, hI _ rfl rfl, rfl, rfl, fun wrapped hw => ?_⟩
  cases hw
  -- the sealed blob splits into nonce and ciphertext again
  have hseal : Crates.aeadEncrypt wrap nonce.val k.val (wrapAad vaultId) = .ok ct := by
    cases h : Crates.aeadEncrypt wrap nonce.val k.val (wrapAad vaultId) with
    | error e => rw [h] at hct; cases hct
    | ok ct' => rw [h] at hct; cases hct; rfl
  have hlen : ¬(nonce.val ++ ct).length < nonceLen + 16 := by
    rw [List.length_append, nonce.property, haead.tag _ _ _ _ _ hseal, k.property]
    decide
  have htake : (nonce.val ++ ct).take nonceLen = nonce.val := List.take_left' nonce.property
  have hdrop : (nonce.val ++ ct).drop nonceLen = ct := List.drop_left' nonce.property
  have hopen : unwrapKey (nonce.val ++ ct) wrap (wrapAad vaultId) = .ok k := by
    unfold unwrapKey
    rw [if_neg hlen, htake, hdrop, haead.opens _ _ _ _ _ hseal]
    exact dif_pos k.property
  have hsaltBytes : WrappedKey.saltBytes ⟨"argon2id", String.ofList (Text.hexEncode salt.val),
      argon2MKib, argon2TCost, argon2PCost, String.ofList (Text.hexEncode (nonce.val ++ ct))⟩ =
      .ok salt.val := by
    unfold WrappedKey.saltBytes
    rw [hexBytes_hexEncode]
    exact if_neg (by simp [salt.property])
  unfold unwrapVaultKeyPassphrase
  rw [if_neg (by simp), hsaltBytes]
  show (deriveKeyFromPassphrase pass salt.val argon2MKib argon2TCost argon2PCost).bind _ = _
  rw [show deriveKeyFromPassphrase pass salt.val argon2MKib argon2TCost argon2PCost = .ok wrap from
    hwrap]
  show (WrappedKey.sealedBytes _).bind _ = _
  rw [WrappedKey.sealedBytes, hexBytes_hexEncode]
  exact hopen

/-- A directory whose wrapped key opens under the new passphrase. -/
theorem settled_of_wrapped (hjson : Crates.wrappedJson.RoundTrip) {fs : VaultFs} {c : VaultConfig}
    {wrapped : WrappedKey} {new : String} {vaultId : Bytes}
    (hc : ReadM.eval fs loadConfig = .ok c) (hid : c.vaultId.isEmpty = false)
    (henc : c.encryptionEnabled = true)
    (hw : fs.lookup wrappedKeyFile = some (Text.toUtf8 (Crates.wrappedJson.toStringPretty wrapped)))
    (hv : vaultIdFromHex c.vaultId = .ok vaultId)
    (hu : unwrapVaultKeyPassphrase wrapped new vaultId = .ok k) :
    Settled fs c.vaultId (some new) k := by
  refine ⟨c, hc, rfl, hid, henc, .wrapped (loadWrapped_ok_iff.2 ?_)⟩
  refine ⟨new, wrapped, vaultId, rfl, ?_, hid, hv, hu⟩
  rw [eval_loadWrappedKey_text hw, hjson]
  rfl

/-- States that open, and do not follow a cut. -/
theorem opensUnlessTorn_of_settled {w : VaultWorld} {new id : String} {pass : Option String}
    (hpass : pass = none ∨ pass = old ∨ pass = some new) (h : Settled w.fs id pass k)
    (ht : ¬KeyFileTorn w) : OwnerCanOpen w.fs old new k ↔ ¬KeyFileTorn w := by
  refine iff_of_true ?_ ht
  rcases hpass with rfl | rfl | rfl
  · exact .inl h.opens
  · exact .inr (.inl h.opens)
  · exact .inr (.inr h.opens)

/-- States right after a cut, which do not open. -/
theorem opensUnlessTorn_of_torn {w : VaultWorld} {new : String} (ht : KeyFileTorn w)
    (hno : ∀ pass, ¬Opens w.fs pass k) : OwnerCanOpen w.fs old new k ↔ ¬KeyFileTorn w :=
  iff_of_false (fun h => by rcases h with h | h | h <;> exact hno _ h) (fun h => h ht)

/-- The second half: the wrapped key is on disk, the plaintext key goes, the config is rewritten. -/
theorem wp_finishProtecting (hcfg : Crates.configJson.RoundTrip)
    (hcfg₀ : Crates.configJson.RejectsEmpty) (hwrap : Crates.wrappedJson.RoundTrip)
    {w : VaultWorld} {v : Vault} {c : VaultConfig} {wrapped : WrappedKey} {new : String}
    {vaultId : Bytes} (hc : ReadM.eval w.fs loadConfig = .ok c)
    (hid : c.vaultId.isEmpty = false) (henc : c.encryptionEnabled = true)
    (hw : w.fs.lookup wrappedKeyFile =
      some (Text.toUtf8 (Crates.wrappedJson.toStringPretty wrapped)))
    (hv : vaultIdFromHex c.vaultId = .ok vaultId)
    (hu : unwrapVaultKeyPassphrase wrapped new vaultId = .ok k) (ht : ¬KeyFileTorn w)
    (hvc : v.config.vaultId = c.vaultId) (hve : v.config.encryptionEnabled = true) :
    wp env (fun w => OwnerCanOpen w.fs old new k ↔ ¬KeyFileTorn w)
      (removeKeyFile >>= fun _ => v.bumpAndSignConfig) (fun _ _ => True) w := by
  -- as long as both files stand, the new passphrase opens the vault
  have hstand : ∀ w' : VaultWorld, w'.fs.lookup wrappedKeyFile = w.fs.lookup wrappedKeyFile →
      w'.fs.lookup configFile = w.fs.lookup configFile → ¬KeyFileTorn w' →
      (OwnerCanOpen w'.fs old new k ↔ ¬KeyFileTorn w') := fun w' hwl hcl ht' =>
    opensUnlessTorn_of_settled (.inr (.inr rfl)) (settled_of_wrapped hwrap
      ((eval_loadConfig_congr hcl).trans hc) hid henc (hwl.trans hw) hv hu) ht'
  have hremove : wp env (fun w => OwnerCanOpen w.fs old new k ↔ ¬KeyFileTorn w) removeKeyFile
      (fun _ w' => w'.fs.lookup wrappedKeyFile = w.fs.lookup wrappedKeyFile ∧
        w'.fs.lookup configFile = w.fs.lookup configFile ∧ ¬KeyFileTorn w') w := by
    unfold removeKeyFile
    refine wp_exists (hstand w rfl rfl ht) ?_
    split
    next hkey =>
      have hl : ∀ q, q ≠ keyFile → (w.change (.remove keyFile)).fs.lookup q = w.fs.lookup q :=
        fun q hq => by rw [World.lookup_removed, if_neg hq]
      have ht' : ¬KeyFileTorn (w.change (.remove keyFile)) := by simp [KeyFileTorn]
      refine (wp_removeFile (by simpa using hkey)).2 ⟨hstand w rfl rfl ht, ?_, ?_⟩
      · exact hstand _ (hl _ (by decide)) (hl _ (by decide)) ht'
      · exact ⟨hl _ (by decide), hl _ (by decide), ht'⟩
    next => exact ⟨hstand w rfl rfl ht, rfl, rfl, ht⟩
  refine wp_seq hremove (fun _ w₁ _ h₁ => ?_) (fun _ _ _ _ => trivial)
  obtain ⟨hwl, hcl, ht₁⟩ := h₁
  unfold Vault.bumpAndSignConfig
  refine wp_seq (wp_signConfig v _ fun w' hfs hlog => ?_) (fun c' w₂ hI₂ h₂ => ?_)
    (fun _ _ _ _ => trivial)
  · refine hstand w' (by rw [hfs, hwl]) (by rw [hfs, hcl]) ?_
    rw [KeyFileTorn, hlog]
    exact ht₁
  obtain ⟨hfs, -, hc'⟩ := h₂
  obtain ⟨hid', henc'⟩ : c'.vaultId = v.config.vaultId ∧
      c'.encryptionEnabled = v.config.encryptionEnabled := by
    rcases hc' c' rfl with ⟨_, _, _, _, hsigned⟩ | ⟨rfl, -⟩
    · obtain ⟨_, -, rfl⟩ := signVaultConfig_ok_iff.1 hsigned
      exact ⟨rfl, rfl⟩
    · exact ⟨rfl, rfl⟩
  refine wp_write hI₂ (opensUnlessTorn_of_torn (.inr rfl) fun pass => ?_) ⟨?_, trivial⟩
  · -- the config is cut: it does not parse
    refine not_opens_of_config env fun c'' hc'' => ?_
    rw [eval_loadConfig_text (s := "") (by rw [World.lookup_truncated, if_pos rfl]; rfl)] at hc''
    cases hj : Crates.configJson.fromStr "" with
    | ok c₀ => exact hcfg₀ c₀ hj
    | error e => rw [hj] at hc''; cases hc''
  · -- the config is written
    refine opensUnlessTorn_of_settled (.inr (.inr rfl)) (settled_of_wrapped hwrap
      (eval_loadConfig_written hcfg w₂ c') ?_ (henc'.trans hve) ?_ ?_ hu) (by simp [KeyFileTorn])
    · rw [hid']
      exact hvc ▸ hid
    · rw [World.lookup_written, if_neg (by decide), hfs, hwl, hw]
    · rw [hid']
      exact hvc ▸ hv

/-- **Every state of `enable_passphrase` opens, except right after a cut of `vault.wrapped.json` or
of `vault.json`.** -/
theorem wp_enablePassphrase (haead : AeadCorrect) (hcfg : Crates.configJson.RoundTrip)
    (hcfg₀ : Crates.configJson.RejectsEmpty) (hwrap : Crates.wrappedJson.RoundTrip)
    (hwrap₀ : Crates.wrappedJson.RejectsEmpty) {fs : VaultFs} {v : Vault} (new : String)
    (hk : v.key = some k) (hset : Settled fs v.config.vaultId old k) :
    wp env (fun w => OwnerCanOpen w.fs old new k ↔ ¬KeyFileTorn w) (v.enablePassphrase new)
      (fun _ _ => True) (World.boot fs) := by
  -- until the first write the old secret opens
  have hstart : ∀ w : VaultWorld, w.fs = fs → w.log = [] →
      (OwnerCanOpen w.fs old new k ↔ ¬KeyFileTorn w) := fun w hfs hlog =>
    opensUnlessTorn_of_settled (.inr (.inl rfl)) (by rw [hfs]; exact hset)
      (by simp [KeyFileTorn, hlog])
  have hboot := hstart (World.boot fs) rfl rfl
  obtain ⟨c, hc, hcid, hid, henc, -⟩ := hset.config
  unfold Vault.enablePassphrase
  split
  next => exact ⟨hboot, trivial⟩
  next hon =>
    simp only [hk]
    refine wp_compute hboot (fun vaultId hvid => ?_) (fun _ _ => trivial)
    have hvid : vaultIdFromHex c.vaultId = .ok vaultId := by
      have h : v.vaultIdBytes = .ok vaultId := hvid
      unfold Vault.vaultIdBytes at h
      split at h
      next => cases h
      next => rw [hcid]; exact h
    refine wp_seq (wp_wrapVaultKeyPassphrase haead new vaultId hstart) (fun wrapped w₁ hI₁ h₁ => ?_)
      (fun _ _ _ _ => trivial)
    obtain ⟨hfs₁, -, hopen⟩ := h₁
    refine wp_write hI₁ (opensUnlessTorn_of_torn (.inl rfl) fun pass => ?_) ?_
    · -- the wrapped key is cut: it is there, and opens under nothing
      have hcut : (w₁.change (.truncate wrappedKeyFile)).fs.lookup wrappedKeyFile =
          some (Text.toUtf8 "") := by rw [World.lookup_truncated, if_pos rfl]; rfl
      refine not_opens_of_wrapped env (Fs.mem_iff_lookup.2 ⟨_, hcut⟩) fun c' hc' => ?_
      obtain ⟨_, W, _, _, hW, _⟩ := loadWrapped_ok_iff.1 hc'
      rw [eval_loadWrappedKey_text hcut] at hW
      cases hj : Crates.wrappedJson.fromStr "" with
      | ok W' => exact hwrap₀ W' hj
      | error e => rw [hj] at hW; cases hW
    · -- from here the new passphrase opens
      refine wp_finishProtecting hcfg hcfg₀ hwrap (c := c) ?_ hid henc
        (by rw [World.lookup_written, if_pos rfl]) hvid (hopen wrapped rfl) (by simp [KeyFileTorn])
        hcid.symm (by simpa using hon)
      refine (eval_loadConfig_congr ?_).trans hc
      rw [World.lookup_written, if_neg (by decide), hfs₁]
      rfl

end Protecting

/-- **The owner is locked out exactly between a truncation of a key file and its write**: for every
vault that was opened, every new passphrase and every point at which `enable_passphrase` can stop. -/
theorem enablePassphrase_stopped_iff (haead : AeadCorrect) (hcfg : Crates.configJson.RoundTrip)
    (hcfg₀ : Crates.configJson.RejectsEmpty) (hwrap : Crates.wrappedJson.RoundTrip)
    (hwrap₀ : Crates.wrappedJson.RejectsEmpty) {env env' : Outside} {home new : String}
    {soalHome old : Option String} {w w' : VaultWorld} {v : Vault} {k : Key}
    (hopen : (run env (openWithPassphrase home old) w).1 = .ok v) (hk : v.key = some k)
    (hstop : CrashPoint env' (Vault.enablePassphrase { v with soalHome } new)
      (World.boot (run env (openWithPassphrase home old) w).2.fs) w') :
    OwnerCanOpen w'.fs old new k ↔ ¬KeyFileTorn w' := by
  have hset := (wp_open_settled hcfg home w).post v k hopen hk
  exact (wp_enablePassphrase (v := { v with soalHome }) haead hcfg hcfg₀ hwrap hwrap₀ new hk
    hset).crash hstop

end Passphrase

/-! ### A vault with its key in `vault.key`. -/

section Sample

attribute [local instance] sample

theorem sample_aeadCorrect : AeadCorrect where
  opens key nonce msg aad ct h := by
    cases h
    show (if (msg ++ List.replicate 16 0).length < 16 then _ else _) = _
    have hlen : (msg ++ List.replicate 16 (0 : UInt8)).length = msg.length + 16 := by simp
    rw [hlen, if_neg (by omega), Nat.add_sub_cancel, List.take_left]
  tag key nonce msg aad ct h := by
    cases h
    simp

theorem sampleConfigText_lines : '\n' ∈ sampleConfigText.toList := by
  unfold sampleConfigText
  simp only [String.toList_append, List.mem_append]
  decide +kernel

theorem sample_configJson : Crates.configJson.RoundTrip ∧ Crates.configJson.RejectsEmpty :=
  ⟨SerdeJson.ofPrinter_roundTrip (printOr_injective (by decide) sampleConfigText_lines),
    SerdeJson.ofPrinter_rejects (printOr_ne_empty sampleConfigText_lines)⟩

theorem sample_wrappedJson : Crates.wrappedJson.RoundTrip ∧ Crates.wrappedJson.RejectsEmpty := by
  refine ⟨SerdeJson.ofPrinter_roundTrip fun a b h => ?_, SerdeJson.ofPrinter_rejects fun a h => ?_⟩
  · exact codeText_injective (String.ofList_inj.1 h)
  · have := congrArg String.toList h
    rw [String.toList_ofList] at this
    cases this

/-- The key of the example. -/
def sampleKey : Key := ⟨List.replicate 32 0x22, rfl⟩

/-- A vault whose key is in `vault.key`. -/
def plainKeyDisk : VaultFs := diskOf [
  (configFile, Text.toUtf8 sampleConfigText),
  (keyFile, Text.toUtf8 (String.ofList (Text.hexEncode sampleKey.val)))]

theorem run_openPlainKey : run (quiet 0) (openWithPassphrase "/root" none) (World.boot plainKeyDisk) =
    (.ok ⟨sampleConfig, some sampleKey, some "/root"⟩, World.boot plainKeyDisk) := by
  have hlconfig : plainKeyDisk.lookup configFile = some (Text.toUtf8 sampleConfigText) := by
    simp [plainKeyDisk]
  have hlkey : plainKeyDisk.lookup keyFile =
      some (Text.toUtf8 (String.ofList (Text.hexEncode sampleKey.val))) := by
    simp [plainKeyDisk, configFile, keyFile]
  have hlwrapped : wrappedKeyFile ∉ plainKeyDisk := by
    rw [← AList.lookup_eq_none]
    simp [plainKeyDisk, configFile, keyFile, wrappedKeyFile]
  have hconfig : ReadM.eval (World.boot plainKeyDisk).fs loadConfig = .ok sampleConfig := by
    rw [World.boot_fs, eval_loadConfig_text hlconfig]
    have hprint : Crates.configJson.toStringPretty sampleConfig = sampleConfigText := by
      show printOr sampleConfig sampleConfigText sampleConfig = _
      exact if_pos rfl
    rw [← hprint, sample_configJson.1]
    rfl
  have hkey : run (quiet 0) (openKey sampleConfig none) (World.boot plainKeyDisk) =
      (.ok (some sampleKey, sampleConfig), World.boot plainKeyDisk) := by
    unfold openKey loadOrMigrateKey
    rw [if_pos (show sampleConfig.encryptionEnabled = true from rfl)]
    refine (run_bind_ok (a := (sampleKey, sampleConfig)) ?_).trans rfl
    refine (run_read_ok (ReadM.eval_pathExists _ _)).trans ?_
    rw [World.boot_fs, if_neg (by simp [hlwrapped, sampleConfig])]
    refine (run_read_ok (ReadM.eval_pathExists _ _)).trans ?_
    rw [World.boot_fs, if_pos (by simpa using Fs.mem_iff_lookup.2 ⟨_, hlkey⟩)]
    refine (run_read_ok (eval_readToString_text hlkey)).trans ?_
    exact (run_compute_ok (keyFromHex_hexEncode sampleKey)).trans rfl
  unfold openWithPassphrase
  refine (run_read_ok hconfig).trans ?_
  have hassign : run (quiet 0) (assignVaultId sampleConfig) (World.boot plainKeyDisk) =
      (.ok sampleConfig, World.boot plainKeyDisk) := by
    rw [assignVaultId, if_neg (by decide)]
    rfl
  refine (run_bind_ok hassign).trans ?_
  have hfirst : firstSeq sampleConfig = sampleConfig := if_neg (by decide)
  rw [hfirst]
  refine (run_bind_ok hkey).trans ?_
  show run _ (if isLegacy sampleConfig then _ else _) _ = _
  rw [if_neg (by decide)]
  rfl

/-- The vault opened from `plainKeyDisk`. -/
def plainKeyVault : Vault := ⟨sampleConfig, some sampleKey, none⟩

/-- The empty file that `fs::write` makes first. -/
def tornKeyWorld : VaultWorld :=
  (World.boot plainKeyDisk).asked.asked.change (.truncate wrappedKeyFile)

/-- Stopped in the middle of writing the wrapped key. -/
theorem tornWrappedKey : CrashPoint (quiet 0) (plainKeyVault.enablePassphrase "pass")
    (World.boot plainKeyDisk) tornKeyWorld ∧ KeyFileTorn tornKeyWorld := by
  have hid : plainKeyVault.vaultIdBytes = .ok
      [0x00, 0x11, 0x22, 0x33, 0x44, 0x55, 0x66, 0x77, 0x88, 0x99, 0xaa, 0xbb, 0xcc, 0xdd, 0xee,
        0xff] := by decide
  refine ⟨?_, .inl rfl⟩
  unfold Vault.enablePassphrase
  rw [if_neg (by simp [plainKeyVault, sampleConfig])]
  refine CrashPoint.bind (f := fun _ => _) (v := World.boot plainKeyDisk) (Prod.ext hid rfl) ?_
  refine CrashPoint.bind (v := (World.boot plainKeyDisk).asked.asked) (a := _) rfl ?_
  exact .next (.here _ _)

/-- The rule at this stop: the key file is torn, and nobody can open the vault. -/
theorem plainKey_stopped_iff : OwnerCanOpen tornKeyWorld.fs none "pass" sampleKey ↔
    ¬KeyFileTorn tornKeyWorld := by
  have hrun := run_openPlainKey
  have hfs : (run (quiet 0) (openWithPassphrase "/root" none) (World.boot plainKeyDisk)).2.fs =
      plainKeyDisk := by rw [hrun, World.boot_fs]
  have hstop : CrashPoint (quiet 0) (Vault.enablePassphrase
      { (⟨sampleConfig, some sampleKey, some "/root"⟩ : Vault) with soalHome := none } "pass")
      (World.boot (run (quiet 0) (openWithPassphrase "/root" none) (World.boot plainKeyDisk)).2.fs)
      tornKeyWorld := by
    rw [hfs]
    exact tornWrappedKey.1
  exact enablePassphrase_stopped_iff sample_aeadCorrect sample_configJson.1 sample_configJson.2
    sample_wrappedJson.1 sample_wrappedJson.2 (congrArg Prod.fst hrun) rfl hstop

/-- Stopped there, the owner is locked out. -/
theorem enablePassphrase_locks_out : ¬∀ (env env' : Outside) (home new : String)
    (soalHome old : Option String) (w w' : VaultWorld) (v : Vault) (k : Key),
    (run env (openWithPassphrase home old) w).1 = .ok v → v.key = some k →
    CrashPoint env' (Vault.enablePassphrase { v with soalHome } new)
      (World.boot (run env (openWithPassphrase home old) w).2.fs) w' →
    OwnerCanOpen w'.fs old new k := by
  intro h
  obtain ⟨hstop, htorn⟩ := tornWrappedKey
  have hrun := run_openPlainKey
  have hcan := h (quiet 0) (quiet 0) "/root" "pass" none none (World.boot plainKeyDisk) tornKeyWorld _
    sampleKey (by rw [hrun]) rfl (by rw [hrun]; exact hstop)
  have hset : Settled plainKeyDisk sampleConfig.vaultId none sampleKey := by
    have hpost : ∀ v k, (run (quiet 0) (openWithPassphrase "/root" none)
        (World.boot plainKeyDisk)).1 = .ok v → v.key = some k → Settled (run (quiet 0)
          (openWithPassphrase "/root" none) (World.boot plainKeyDisk)).2.fs v.config.vaultId none k :=
      (wp_open_settled sample_configJson.1 "/root" _).post
    rw [hrun] at hpost
    exact hpost _ sampleKey rfl rfl
  exact ((wp_enablePassphrase (v := plainKeyVault) sample_aeadCorrect sample_configJson.1
    sample_configJson.2 sample_wrappedJson.1 sample_wrappedJson.2 "pass" rfl hset).crash hstop).1
      hcan htorn

end Sample
end Soal

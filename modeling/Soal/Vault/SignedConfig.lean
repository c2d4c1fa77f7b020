/-
  Soal.Vault.SignedConfig — the signature in `vault.json` over any run of config operations.

  Every operation leaves on disk the config the handle holds.  A bump signs it anew when the node key
  loads; when it does not, the fields change under the signature there was.
-/
import Soal.Codec.Preimages
import Soal.Vault.Config
import Soal.Vault.Passphrase

namespace Soal

open FileProg

section

variable [Crates]

/-! ## §1. Signatures that verify. -/

/-- What the model uses of `iroh`'s keys: the text of a key parses back, and a signature verifies
under the key that made it. -/
structure SignatureCorrect : Prop where
  parses : ∀ pk : Key, Crates.publicKeyFromStr (Crates.publicKeyText pk) = .ok pk
  verifies : ∀ (sk : SecretKey) (msg : Bytes),
    Crates.ed25519Verify (Crates.publicKey sk) msg (Crates.ed25519Sign sk msg).val = true

/-- A config without a signature: absent or empty. -/
def Unsigned (c : VaultConfig) : Prop := c.configSig = none ∨ c.configSig = some ""

theorem verify_unsigned {c : VaultConfig} (h : Unsigned c) : verifyVaultConfig c = .ok () := by
  unfold verifyVaultConfig
  rcases h with h | h
  · rw [h]
  · rw [h]
    exact if_pos rfl

/-- A config verifies after it was signed. -/
theorem verify_signed (hsig : SignatureCorrect) {sk : SecretKey} {c c' : VaultConfig}
    (h : signVaultConfig sk c = .ok c') : verifyVaultConfig c' = .ok () := by
  obtain ⟨msg, hmsg, rfl⟩ := signVaultConfig_ok_iff.1 h
  set sig := Crates.ed25519Sign sk msg with hdef
  have hne : String.ofList (Text.hexEncode sig.val) ≠ "" := by
    intro hempty
    have hlen := congrArg (fun s => s.toList.length) hempty
    simp [sig.property] at hlen
  have hplain : Text.trim (Text.hexEncode sig.val) = Text.hexEncode sig.val := by
    refine Text.trim_eq_self fun c hc => ?_
    obtain ⟨n, hn, rfl⟩ := Text.mem_hexEncode hc
    exact (Text.hexDigit_plain n hn).1
  have hbytes : configSigBytes (String.ofList (Text.hexEncode sig.val)) = .ok sig.val := by
    unfold configSigBytes
    rw [String.toList_ofList, hplain, Text.hexDecode_hexEncode]
    exact if_neg (not_not.2 sig.property)
  unfold verifyVaultConfig
  dsimp only
  rw [if_neg hne]
  refine bind_ok_iff.2 ⟨Crates.publicKey sk, ?_, bind_ok_iff.2 ⟨sig.val, hbytes, ?_⟩⟩
  · unfold configOwnerKey
    dsimp only
    rw [hsig.parses]
  · -- the preimage leaves the signature out
    refine bind_ok_iff.2 ⟨msg, hmsg, ?_⟩
    rw [hdef, hsig.verifies]
    rfl

/-! ## §2. Operations. -/

/-- The operations on the config of a vault. -/
inductive ConfigOp where
  | withSoalHome (home : String)
  | enablePassphrase (passphrase : String)
  | setMinReplicas (n : UInt8)
  | applyPolicy (policy : VaultPolicy)
  | addMember (nodeId : String)
  | removeMember (nodeId : String)
  | persistConfig
  /-- drop the handle and open the vault again -/
  | reopen (home : String) (passphrase : Option String)

namespace ConfigOp

/-- The operation as a program. -/
def act (v : Vault) : ConfigOp → Action Vault
  | withSoalHome home => return v.withSoalHome home
  | enablePassphrase passphrase => v.enablePassphrase passphrase
  | setMinReplicas n => v.setMinReplicas n
  | applyPolicy policy => do
      let r ← Soal.applyPolicy v policy
      return r.1
  | addMember id => v.addMember id
  | removeMember id => do
      let r ← v.removeMember id
      return r.1
  | persistConfig => do
      v.persistConfig
      return v
  | reopen home passphrase => openWithPassphrase home passphrase

/-- Does the operation change signed fields? -/
def Mutates (v : Vault) : ConfigOp → Prop
  | enablePassphrase _ => v.config.encryptionEnabled = true ∧ v.key ≠ none
  | setMinReplicas _ => True
  | applyPolicy policy => policy.validate = .ok () ∧ v.config.minReplicas ≠ policy.minReplicas
  | addMember id => trimId id ≠ "" ∧
      v.config.members.any (fun m => Text.eqIgnoreAsciiCase m (trimId id)) = false
  | removeMember id => v.config.members.any (fun m => Text.eqIgnoreAsciiCase m id) = true
  | _ => False

/-- A changing operation finds the node key, or a config without a signature. -/
def Signable (env : Outside) (v : Vault) (op : ConfigOp) : Prop :=
  op.Mutates v →
    (∃ home, v.soalHome = some home ∧ ∀ t, ∃ sk, env t (.loadSecretKey home) = .ok sk) ∨
      Unsigned v.config

end ConfigOp

/-! ## §3. Disk and handle. -/

/-- A config that opening takes as it is: no legacy config, and it knows of a wrapped key. -/
structure Current (fs : VaultFs) (c : VaultConfig) : Prop where
  named : c.vaultId.isEmpty = false
  numbered : c.configSeq ≠ 0
  noKeyHex : c.keyHex = none
  wrapped : wrappedKeyFile ∈ fs → c.keyWrapped = true

/-- The config on disk is `c`, and current. -/
structure Stored (fs : VaultFs) (c : VaultConfig) : Prop extends Current fs c where
  config : ReadM.eval fs loadConfig = .ok c

omit [Crates] in
theorem bumpSeq_le (seq : UInt64) : seq ≤ bumpSeq seq ∧ (seq ≠ 0 → bumpSeq seq ≠ 0) := by
  unfold bumpSeq
  split
  next hfits =>
    have hnext : (seq + 1).toNat = seq.toNat + 1 := by
      rw [UInt64.toNat_add]
      exact Nat.mod_eq_of_lt hfits
    refine ⟨UInt64.le_iff_toNat_le.2 (by omega), fun _ hzero => ?_⟩
    rw [hzero] at hnext
    exact absurd hnext (Nat.succ_ne_zero _).symm
  next => exact ⟨UInt64.le_refl seq, fun h => h⟩

/-- A resigned config is the config of the handle with the next number, up to owner and signature. -/
theorem Vault.Resigned.fields {env : Outside} {t : Nat} {v : Vault} {c : VaultConfig}
    (h : v.Resigned env t c) : ∃ owner sig, c = { v.config with
      configSeq := bumpSeq v.config.configSeq, owner := owner, configSig := sig } := by
  rcases h with ⟨_, sk, -, -, hsigned⟩ | ⟨rfl, -⟩
  · obtain ⟨msg, -, rfl⟩ := signVaultConfig_ok_iff.1 hsigned
    exact ⟨_, _, rfl⟩
  · exact ⟨v.config.owner, v.config.configSig, rfl⟩

/-- The config of a handle after an operation: the one before, or resigned after a change of fields
that the signature covers. -/
def Changed (env : Outside) (op : ConfigOp) (v : Vault) (c : VaultConfig) : Prop :=
  c = v.config ∨ (op.Mutates v ∧ ∃ (t : Nat) (u : Vault), u.soalHome = v.soalHome ∧
    u.config.configSig = v.config.configSig ∧ u.config.configSeq = v.config.configSeq ∧
    u.Resigned env t c)

/-- What verified before verifies after a signable change. -/
theorem Changed.verifies (hsig : SignatureCorrect) {env : Outside} {op : ConfigOp} {v : Vault}
    {c : VaultConfig} (h : Changed env op v c) (hs : op.Signable env v)
    (hv : verifyVaultConfig v.config = .ok ()) : verifyVaultConfig c = .ok () := by
  rcases h with rfl | ⟨hmutates, t, u, hhome, hold, -, hresigned⟩
  · exact hv
  · rcases hresigned with ⟨_, sk, -, -, hsigned⟩ | ⟨rfl, hno⟩
    · exact verify_signed hsig hsigned
    · -- the key did not load, so there is no signature to be out of date
      rcases hs hmutates with ⟨home, hset, hloads⟩ | hunsigned
      · obtain ⟨sk, hsk⟩ := hloads t
        obtain ⟨e, he⟩ := hno home (hhome.trans hset)
        cases hsk.symm.trans he
      · refine verify_unsigned ?_
        unfold Unsigned
        rw [hold]
        exact hunsigned

/-! ## §4. One operation. -/

section Step

variable {env : Outside} {w : VaultWorld} {v : Vault}

omit [Crates] in
/-- Files other than the wrapped key do not matter to a current config. -/
theorem Current.congr {fs fs' : VaultFs} {c : VaultConfig} (h : Current fs c)
    (hfs : fs'.lookup wrappedKeyFile = fs.lookup wrappedKeyFile) : Current fs' c :=
  ⟨h.named, h.numbered, h.noKeyHex, fun hmem => h.wrapped ((mem_congr hfs).1 hmem)⟩

/-- A stored config stays stored while its two files stay. -/
theorem Stored.congr {fs fs' : VaultFs} {c : VaultConfig} (h : Stored fs c)
    (hwrapped : fs'.lookup wrappedKeyFile = fs.lookup wrappedKeyFile)
    (hconfig : fs'.lookup configFile = fs.lookup configFile) : Stored fs' c :=
  ⟨h.toCurrent.congr hwrapped, (eval_loadConfig_congr hconfig).trans h.config⟩

/-- A current config that was written is stored. -/
theorem Current.written (hjson : Crates.configJson.RoundTrip) {fs fs' : VaultFs} {c : VaultConfig}
    (h : Current fs c) (hfs : ConfigStored fs fs' c) : Stored fs' c := by
  refine ⟨h.congr ((hfs _).trans (if_neg (by decide))), ?_⟩
  rw [eval_loadConfig_text ((hfs configFile).trans (if_pos rfl)), hjson]
  rfl

/-- A resigned config is as current as the config it was made of. -/
theorem Current.resigned {fs : VaultFs} {t : Nat} {c : VaultConfig} (h : Current fs v.config)
    (hc : v.Resigned env t c) : Current fs c := by
  obtain ⟨owner, sig, rfl⟩ := hc.fields
  exact ⟨h.named, (bumpSeq_le _).2 h.numbered, h.noKeyHex, h.wrapped⟩

/-- What an operation on a stored config leaves: a stored config, changed as `Changed` says; after an
error, the config that was there. -/
def Leaves (env : Outside) (op : ConfigOp) (v : Vault) (r : Res Vault) (w : VaultWorld) : Prop :=
  (∀ v', r = .ok v' → Stored w.fs v'.config ∧ Changed env op v v'.config) ∧
    ∀ e, r = .error (.err e) → Stored w.fs v.config

/-- Signing does not fail with an error. -/
theorem signVaultConfig_ne_err (sk : SecretKey) (c : VaultConfig) (e : SoalError) :
    signVaultConfig sk c ≠ .error (.err e) := by
  intro h
  have hpreimage : configSignPreimage { c with
      owner := some (Crates.publicKeyText (Crates.publicKey sk)) } = .error (.err e) := by
    cases hm : configSignPreimage { c with
        owner := some (Crates.publicKeyText (Crates.publicKey sk)) } with
    | error e' =>
      have herr : signVaultConfig sk c = .error e' := by
        show (configSignPreimage _).bind _ = _
        rw [hm, error_bind]
      rw [herr] at h
      rw [Except.error.inj h]
    | ok msg =>
      have hok : signVaultConfig sk c = .ok _ := signVaultConfig_ok_iff.2 ⟨msg, hm, rfl⟩
      cases hok.symm.trans h
  unfold configSignPreimage frame vec at hpreimage
  split at hpreimage <;> cases hpreimage

/-- Nor does a bump. -/
theorem wp_bump_ne_err (u : Vault) : wp env (fun _ => True) u.bumpAndSignConfig
    (fun r _ => ∀ e, r ≠ .error (.err e)) w := by
  unfold Vault.bumpAndSignConfig Vault.signConfig
  refine wp_seq (R := fun r _ => ∀ e, r ≠ .error (.err e)) ?_ (fun c w₁ _ _ => ?_)
    (fun e w₁ _ h e' he => ?_)
  · split
    next home _ =>
      refine wp_answer trivial ?_
      split
      next sk _ => exact ⟨trivial, signVaultConfig_ne_err sk _⟩
      next => exact ⟨trivial, fun e h => by cases h⟩
    next => exact ⟨trivial, fun e h => by cases h⟩
  · exact wp_write trivial trivial ⟨trivial, fun e h => by cases h⟩
  · cases he
    exact h _ rfl

/-- A bump of a config with changed fields. -/
theorem wp_bump (hjson : Crates.configJson.RoundTrip) {op : ConfigOp} (hm : op.Mutates v) {u : Vault}
    (hu : Current w.fs u.config) (hhome : u.soalHome = v.soalHome)
    (hold : u.config.configSig = v.config.configSig)
    (hseq : u.config.configSeq = v.config.configSeq) :
    wp env (fun _ => True) u.bumpAndSignConfig (Leaves env op v) w := by
  refine ((wp_bumpAndSignConfig u).and (wp_bump_ne_err u)).mono (fun _ _ => trivial)
    fun r w' _ h => ⟨fun v' hv' => ?_, fun e he => absurd he (h.2 e)⟩
  obtain ⟨c, hc, rfl, hstored⟩ := h.1 v' hv'
  exact ⟨(hu.resigned hc).written hjson hstored,
    .inr ⟨hm, w.tick, u, hhome, hold, hseq, hc⟩⟩

/-- A program that changes neither the config nor the disk. -/
theorem leaves_same {op : ConfigOp} {v' : Vault} (hs : Stored w.fs v.config)
    (hv' : v'.config = v.config) : Leaves env op v (.ok v') w := by
  refine ⟨fun u hu => ?_, fun e he => by cases he⟩
  cases hu
  exact ⟨hv' ▸ hs, .inl hv'⟩

theorem leaves_error {op : ConfigOp} {e : Fault} (hs : Stored w.fs v.config) :
    Leaves env op v (.error e) w := by
  refine ⟨fun u hu => ?_, fun _ _ => hs⟩
  cases hu

/-- The vault of a pair. -/
theorem wp_fst {α : Type} {op : ConfigOp} {x : Action (Vault × α)}
    (h : wp env (fun _ => True) x (fun r w' => Leaves env op v (r.map Prod.fst) w') w) :
    wp env (fun _ => True) (x >>= fun r => (return r.1 : Action Vault)) (Leaves env op v) w :=
  wp_seq h (fun _ _ _ hr => ⟨trivial, hr⟩) (fun _ _ _ hr => hr)

theorem wp_setMinReplicas (hjson : Crates.configJson.RoundTrip) {op : ConfigOp} (hm : op.Mutates v)
    (n : UInt8) (hs : Stored w.fs v.config) :
    wp env (fun _ => True) (v.setMinReplicas n) (Leaves env op v) w := by
  have hu : Current w.fs { v.config with minReplicas := max n 1 } :=
    ⟨hs.named, hs.numbered, hs.noKeyHex, hs.wrapped⟩
  exact wp_bump hjson hm hu rfl rfl rfl

/-- Saving a policy touches neither the config nor the wrapped key. -/
theorem wp_savePolicy {policy : VaultPolicy} (hs : Stored w.fs v.config) :
    wp env (fun _ => True) (savePolicy policy) (fun _ w' => Stored w'.fs v.config) w := by
  unfold savePolicy
  refine wp_compute trivial (fun _ _ => ?_) (fun _ _ => hs)
  refine wp_writeRename.2 ⟨trivial, trivial, trivial, trivial, hs.congr ?_ ?_⟩
  · rw [lookup_renamed, if_neg (by decide), if_neg (by decide)]
  · rw [lookup_renamed, if_neg (by decide), if_neg (by decide)]

theorem wp_applyPolicy (hjson : Crates.configJson.RoundTrip) (policy : VaultPolicy)
    (hs : Stored w.fs v.config) : wp env (fun _ => True) ((ConfigOp.applyPolicy policy).act v)
      (Leaves env (.applyPolicy policy) v) w := by
  refine wp_fst ?_
  unfold Soal.applyPolicy
  refine wp_compute trivial (fun _ hvalid => ?_) (fun _ _ => leaves_error hs)
  refine wp_seq (wp_savePolicy hs) (fun _ w₁ _ hs₁ => ?_) (fun _ w₁ _ hs₁ => leaves_error hs₁)
  split
  next hdiffers =>
    have hm : (ConfigOp.applyPolicy policy).Mutates v := ⟨hvalid, hdiffers⟩
    exact wp_seq (wp_setMinReplicas hjson hm _ hs₁) (fun _ _ _ h => ⟨trivial, h⟩) (fun _ _ _ h => h)
  next => exact ⟨trivial, leaves_same hs₁ rfl⟩

theorem wp_addMember (hjson : Crates.configJson.RoundTrip) (id : String)
    (hs : Stored w.fs v.config) : wp env (fun _ => True) (v.addMember id)
      (Leaves env (.addMember id) v) w := by
  unfold Vault.addMember
  dsimp only
  split
  next => exact ⟨trivial, leaves_error hs⟩
  next hne =>
    split
    next hnew =>
      have hm : (ConfigOp.addMember id).Mutates v := ⟨hne, by simpa using hnew⟩
      exact wp_bump hjson hm ⟨hs.named, hs.numbered, hs.noKeyHex, hs.wrapped⟩ rfl rfl rfl
    next => exact ⟨trivial, leaves_same hs rfl⟩

theorem wp_removeMember (hjson : Crates.configJson.RoundTrip) (id : String)
    (hs : Stored w.fs v.config) : wp env (fun _ => True) ((ConfigOp.removeMember id).act v)
      (Leaves env (.removeMember id) v) w := by
  refine wp_fst ?_
  unfold Vault.removeMember
  dsimp only
  split
  next hdropped =>
    have hm : (ConfigOp.removeMember id).Mutates v := by
      by_contra hnone
      have hkeep : (v.config.members.filter fun m => !Text.eqIgnoreAsciiCase m id) =
          v.config.members := by
        refine List.filter_eq_self.2 fun m hm => ?_
        rw [Bool.not_eq_true', Bool.eq_false_iff]
        exact fun heq => hnone (List.any_eq_true.2 ⟨m, hm, heq⟩)
      exact hdropped (congrArg List.length hkeep)
    have hu : Current w.fs { v.config with
        members := v.config.members.filter fun m => !Text.eqIgnoreAsciiCase m id } :=
      ⟨hs.named, hs.numbered, hs.noKeyHex, hs.wrapped⟩
    exact wp_seq (wp_bump hjson hm hu rfl rfl rfl) (fun _ _ _ h => ⟨trivial, h⟩) (fun _ _ _ h => h)
  next => exact ⟨trivial, leaves_same hs rfl⟩

theorem wp_persistConfig (hjson : Crates.configJson.RoundTrip) (hs : Stored w.fs v.config) :
    wp env (fun _ => True) (ConfigOp.persistConfig.act v) (Leaves env .persistConfig v) w := by
  refine wp_write trivial trivial ⟨trivial, leaves_same ?_ rfl⟩
  exact hs.toCurrent.written hjson fun p => World.lookup_written w configFile p _

omit [Crates] in
/-- Removing the plaintext key touches neither the config nor the wrapped key. -/
theorem wp_removeKeyFile : wp env (fun _ => True) removeKeyFile (fun r w' => r = .ok () ∧
    ∀ p, p ≠ keyFile → w'.fs.lookup p = w.fs.lookup p) w := by
  unfold removeKeyFile
  refine wp_exists trivial ?_
  split
  next hkey =>
    refine (wp_removeFile (by simpa using hkey)).2 ⟨trivial, trivial, rfl, fun p hp => ?_⟩
    rw [World.lookup_removed, if_neg hp]
  next => exact ⟨trivial, rfl, fun _ _ => rfl⟩

/-- Sealing a key leaves the disk. -/
theorem wp_wrapVaultKey_fs (key : Key) (passphrase : String) (vaultId : Bytes) :
    wp env (fun _ => True) (wrapVaultKeyPassphrase key passphrase vaultId)
      (fun _ w' => w'.fs = w.fs) w := by
  unfold wrapVaultKeyPassphrase
  refine wp_answer trivial ?_
  refine wp_compute trivial (fun wrap _ => ?_) (fun _ _ => rfl)
  unfold wrapKey
  rw [wp_bind]
  refine wp_answer trivial ?_
  exact wp_compute trivial (fun ct _ => ⟨trivial, trivial, rfl⟩) (fun _ _ => rfl)

theorem wp_enablePassphrase_config (hjson : Crates.configJson.RoundTrip) (passphrase : String)
    (hs : Stored w.fs v.config) : wp env (fun _ => True) (v.enablePassphrase passphrase)
      (Leaves env (.enablePassphrase passphrase) v) w := by
  unfold Vault.enablePassphrase
  split
  next => exact ⟨trivial, leaves_error hs⟩
  next henc =>
    split
    next => exact ⟨trivial, leaves_error hs⟩
    next key hkey =>
      have hm : (ConfigOp.enablePassphrase passphrase).Mutates v :=
        ⟨by simpa using henc, by rw [hkey]; exact Option.some_ne_none key⟩
      refine wp_compute trivial (fun vaultId _ => ?_) (fun _ _ => leaves_error hs)
      refine wp_seq (wp_wrapVaultKey_fs key passphrase vaultId) (fun wrapped w₁ _ hfs => ?_)
        (fun _ w₁ _ hfs => leaves_error (hfs ▸ hs))
      refine wp_write trivial trivial ?_
      refine wp_seq wp_removeKeyFile (fun _ w₂ _ _ => ?_) (fun e w₂ _ h => by cases h.1)
      -- the config knows of the wrapped key from here on
      have hu : Current w₂.fs { v.config with keyWrapped := true, keyHex := none } :=
        ⟨hs.named, hs.numbered, rfl, fun _ => rfl⟩
      exact wp_bump hjson hm hu rfl rfl rfl

/-- Loading the key of a current config leaves config and disk. -/
theorem wp_loadOrMigrateKey_current {passphrase : Option String} {c : VaultConfig}
    (hc : Current w.fs c) : wp env (fun _ => True) (loadOrMigrateKey c passphrase)
      (fun r w' => w'.fs = w.fs ∧ ∀ k c', r = .ok (k, c') → c' = c) w := by
  unfold loadOrMigrateKey
  refine wp_exists trivial ?_
  split
  next hwrapped =>
    have hknown : c.keyWrapped = true := by
      rcases (Bool.or_eq_true _ _).mp hwrapped with hmem | hflag
      · exact hc.wrapped (by simpa using hmem)
      · exact hflag
    refine wp_read trivial (fun k _ => ⟨trivial, rfl, fun k' c' hr => ?_⟩)
      (fun e _ => ⟨rfl, fun k c' hr => by cases hr⟩)
    cases hr
    obtain ⟨name, enc, minr, created, vid, seq, members, owner, sig, wrapped, hex⟩ := c
    obtain rfl : wrapped = true := hknown
    rfl
  next =>
    refine wp_exists trivial ?_
    split
    next =>
      refine wp_read trivial (fun s _ => ?_) (fun e _ => ⟨rfl, fun k c' hr => by cases hr⟩)
      refine wp_compute trivial (fun k _ => ⟨trivial, rfl, fun k' c' hr => ?_⟩)
        (fun e _ => ⟨rfl, fun k c' hr => by cases hr⟩)
      cases hr
      rfl
    next =>
      rw [hc.noKeyHex]
      exact ⟨trivial, rfl, fun k c' hr => by cases hr⟩

theorem wp_openKey_current {passphrase : Option String} {c : VaultConfig} (hc : Current w.fs c) :
    wp env (fun _ => True) (openKey c passphrase)
      (fun r w' => w'.fs = w.fs ∧ ∀ k c', r = .ok (k, c') → c' = c) w := by
  unfold openKey
  split
  next =>
    refine wp_seq (wp_loadOrMigrateKey_current hc) (fun p w₁ _ h => ⟨trivial, h.1, fun k c' hr => ?_⟩)
      (fun e w₁ _ h => ⟨h.1, fun k c' hr => by cases hr⟩)
    cases hr
    exact h.2 p.1 p.2 rfl
  next =>
    refine ⟨trivial, rfl, fun k c' hr => ?_⟩
    cases hr
    rfl

/-- Opening a stored config again hands it to the new handle and leaves the disk. -/
theorem wp_reopen (home : String) (passphrase : Option String) (hs : Stored w.fs v.config) :
    wp env (fun _ => True) (openWithPassphrase home passphrase)
      (Leaves env (.reopen home passphrase) v) w := by
  have hfirst : firstSeq v.config = v.config := if_neg hs.numbered
  have hmodern : isLegacy v.config = false := by
    rw [isLegacy, hs.named, Bool.false_or]
    exact beq_eq_false_iff_ne.2 hs.numbered
  unfold openWithPassphrase
  refine wp_read_ok trivial hs.config ?_
  refine wp_seq (wp_assignVaultId v.config) (fun c w₁ _ h => ?_) (fun e w₁ _ h => ?_)
  · obtain ⟨hfs, c', hc', -, -, hsame⟩ := h
    obtain rfl : c = v.config := (Except.ok.inj hc').trans (hsame hs.named)
    have hs₁ : Stored w₁.fs v.config := hfs ▸ hs
    rw [hfirst]
    refine wp_seq (wp_openKey_current hs₁.toCurrent) (fun p w₂ _ h₂ => ?_) (fun e w₂ _ h₂ => ?_)
    · have hs₂ : Stored w₂.fs v.config := h₂.1 ▸ hs₁
      have hconfig : p.2 = v.config := h₂.2 p.1 p.2 rfl
      rw [hmodern]
      exact ⟨trivial, leaves_same hs₂ hconfig⟩
    · exact leaves_error (h₂.1 ▸ hs₁)
  · obtain ⟨-, c', hc', -⟩ := h
    cases hc'

/-- Every operation on a stored config. -/
theorem wp_act (hjson : Crates.configJson.RoundTrip) (op : ConfigOp) (hs : Stored w.fs v.config) :
    wp env (fun _ => True) (op.act v) (Leaves env op v) w := by
  cases op with
  | withSoalHome home => exact ⟨trivial, leaves_same hs rfl⟩
  | enablePassphrase passphrase => exact wp_enablePassphrase_config hjson passphrase hs
  | setMinReplicas n =>
    have hm : (ConfigOp.setMinReplicas n).Mutates v := trivial
    exact wp_setMinReplicas hjson hm n hs
  | applyPolicy policy => exact wp_applyPolicy hjson policy hs
  | addMember id => exact wp_addMember hjson id hs
  | removeMember id => exact wp_removeMember hjson id hs
  | persistConfig => exact wp_persistConfig hjson hs
  | reopen home passphrase => exact wp_reopen home passphrase hs

/-! ## §5. A new vault. -/

/-- A new config is signed or has no signature. -/
theorem wp_signNewConfig (hsig : SignatureCorrect) (home : String) {c : VaultConfig}
    (hc : c.configSig = none) : wp env (fun _ => True) (signNewConfig home c)
      (fun r w' => w'.fs = w.fs ∧ ∀ c', r = .ok c' → verifyVaultConfig c' = .ok () ∧
        ∃ owner sig, c' = { c with owner := owner, configSig := sig }) w := by
  unfold signNewConfig
  refine wp_answer trivial ?_
  split
  next sk _ =>
    split
    next signed hsigned =>
      refine ⟨trivial, rfl, fun c' hc' => ?_⟩
      obtain rfl := Except.ok.inj hc'
      refine ⟨verify_signed hsig hsigned, ?_⟩
      obtain ⟨_, -, rfl⟩ := signVaultConfig_ok_iff.1 hsigned
      exact ⟨_, _, rfl⟩
    next =>
      refine ⟨trivial, rfl, fun c' hc' => ?_⟩
      obtain rfl := Except.ok.inj hc'
      exact ⟨verify_unsigned (.inl hc), _, _, rfl⟩
    next => exact ⟨trivial, rfl, fun c' hc' => by cases hc'⟩
  next =>
    refine ⟨trivial, rfl, fun c' hc' => ?_⟩
    obtain rfl := Except.ok.inj hc'
    exact ⟨verify_unsigned (.inl hc), _, _, rfl⟩

omit [Crates] in
theorem wp_newKey (enc : Bool) :
    wp env (fun _ => True) (newKey enc) (fun _ w' => w'.fs = w.fs) w := by
  unfold newKey
  split
  · exact wp_answer trivial ⟨trivial, rfl⟩
  · exact ⟨trivial, rfl⟩

omit [Crates] in
/-- A config with a fresh id is current where no key is wrapped. -/
theorem Current.new {fs : VaultFs} {c : VaultConfig} {id : { b : Bytes // b.length = 16 }}
    (hfs : fs.lookup wrappedKeyFile = none) (hid : c.vaultId = String.ofList (Text.hexEncode id.val))
    (hseq : c.configSeq = 1) (hkey : c.keyHex = none) : Current fs c where
  named := by rw [hid, vaultId_nonempty]
  numbered := by rw [hseq]; decide
  noKeyHex := hkey
  wrapped hmem := absurd hmem (AList.lookup_eq_none.1 hfs)

/-- A new vault has its config on disk, and the config verifies. -/
theorem wp_create (hjson : Crates.configJson.RoundTrip) (hsig : SignatureCorrect)
    (home name : String) (enc : Bool) (minReplicas : UInt8) :
    wp env (fun _ => True) (createWithPolicy home name enc minReplicas)
      (fun r w' => ∀ v, r = .ok v → Stored w'.fs v.config ∧ verifyVaultConfig v.config = .ok ())
      (World.boot ∅) := by
  unfold createWithPolicy
  refine wp_seq (wp_newKey enc) (fun key w₁ _ hfs₁ => ?_) (fun _ _ _ _ v hv => by cases hv)
  refine wp_seq (R := fun _ w' => w'.fs = w₁.fs) (wp_answer trivial ⟨trivial, rfl⟩)
    (fun author w₂ _ hfs₂ => ?_) (fun _ _ _ _ v hv => by cases hv)
  refine wp_answer trivial (wp_answer trivial ?_)
  refine wp_seq (wp_signNewConfig hsig home rfl) (fun c w₃ _ h => ?_)
    (fun _ _ _ _ v hv => by cases hv)
  obtain ⟨hfs₃, hc⟩ := h
  obtain ⟨hverifies, owner, sig, rfl⟩ := hc c rfl
  have hempty : ∀ p, w₃.fs.lookup p = none := fun p => by
    rw [hfs₃]
    show w₂.fs.lookup p = none
    rw [hfs₂, hfs₁]
    rfl
  refine wp_write trivial trivial ?_
  split
  next k =>
    refine wp_write trivial trivial ⟨trivial, fun v hv => ?_⟩
    obtain rfl := Except.ok.inj hv
    refine ⟨Stored.congr ((Current.new (hempty _) rfl rfl rfl).written hjson fun p =>
      World.lookup_written w₃ configFile p _) ?_ ?_, hverifies⟩ <;>
      rw [World.lookup_written, if_neg (by decide)]
  next =>
    refine ⟨trivial, fun v hv => ?_⟩
    obtain rfl := Except.ok.inj hv
    exact ⟨(Current.new (hempty _) rfl rfl rfl).written hjson fun p =>
      World.lookup_written w₃ configFile p _, hverifies⟩

end Step

/-! ## §6. Any run. -/

/-- The handle and the directory after operations on a new vault that `P` admits.  An operation that
fails with an error leaves the handle as it was. -/
inductive ConfigRun (P : Outside → Vault → ConfigOp → Prop) : Vault → VaultFs → Prop where
  | create {env : Outside} {home name : String} {enc : Bool} {minReplicas : UInt8} {v : Vault}
      {w : VaultWorld} (h : run env (createWithPolicy home name enc minReplicas) (World.boot ∅) =
        (.ok v, w)) : ConfigRun P v w.fs
  | step {env : Outside} {v v' : Vault} {fs : VaultFs} {op : ConfigOp} {w : VaultWorld}
      (h : ConfigRun P v fs) (hP : P env v op)
      (hr : run env (op.act v) (World.boot fs) = (.ok v', w)) : ConfigRun P v' w.fs
  | failed {env : Outside} {v : Vault} {fs : VaultFs} {op : ConfigOp} {e : SoalError}
      {w : VaultWorld} (h : ConfigRun P v fs) (hP : P env v op)
      (hr : run env (op.act v) (World.boot fs) = (.error (.err e), w)) : ConfigRun P v w.fs

/-- What a creation leaves. -/
theorem create_ends (hjson : Crates.configJson.RoundTrip) (hsig : SignatureCorrect) {env : Outside}
    {home name : String} {enc : Bool} {minReplicas : UInt8} {v : Vault} {w : VaultWorld}
    (h : run env (createWithPolicy home name enc minReplicas) (World.boot ∅) = (.ok v, w)) :
    Stored w.fs v.config ∧ verifyVaultConfig v.config = .ok () := by
  have hw : wp env _ _ _ _ := wp_create hjson hsig home name enc minReplicas
  have hpost := hw.post v (congrArg Prod.fst h)
  rwa [h] at hpost

/-- What an operation leaves. -/
theorem act_ends (hjson : Crates.configJson.RoundTrip) {env : Outside} {op : ConfigOp} {v : Vault}
    {fs : VaultFs} {r : Res Vault} {w : VaultWorld} (hs : Stored fs v.config)
    (h : run env (op.act v) (World.boot fs) = (r, w)) : Leaves env op v r w := by
  have hboot : Stored (World.boot fs).fs v.config := hs
  have hw : wp env _ _ _ _ := wp_act hjson op hboot
  have hpost := hw.post
  rwa [h] at hpost

/-- In every run the disk holds the config of the handle. -/
theorem ConfigRun.stored (hjson : Crates.configJson.RoundTrip) (hsig : SignatureCorrect)
    {P : Outside → Vault → ConfigOp → Prop} {v : Vault} {fs : VaultFs} (h : ConfigRun P v fs) :
    Stored fs v.config := by
  induction h with
  | @create env home name enc minReplicas v w hr =>
    exact (create_ends hjson hsig hr).1
  | @step env v v' fs op w h hP hr ih =>
    exact ((act_ends hjson ih hr).1 v' rfl).1
  | @failed env v fs op e w h hP hr ih =>
    exact (act_ends hjson ih hr).2 e rfl

/-- In a run of signable operations the config of the handle verifies. -/
theorem ConfigRun.verifies (hjson : Crates.configJson.RoundTrip) (hsig : SignatureCorrect)
    {v : Vault} {fs : VaultFs} (h : ConfigRun (fun env v op => op.Signable env v) v fs) :
    verifyVaultConfig v.config = .ok () := by
  induction h with
  | @create env home name enc minReplicas v w hr =>
    exact (create_ends hjson hsig hr).2
  | @step env v v' fs op w h hP hr ih =>
    have hchanged := ((act_ends hjson (h.stored hjson hsig) hr).1 v' rfl).2
    exact hchanged.verifies hsig hP ih
  | failed h hP hr ih => exact ih

end

/-! ### A vault created with a node key, changed without it. -/

section Sample

/-- A node key, its public key, and that key's text. -/
def nodeKey : SecretKey := ⟨⟨List.replicate 32 0x33, rfl⟩⟩

def nodePublic : Key := ⟨[
    0x17, 0xcb, 0x79, 0xfb, 0x2b, 0x41, 0x20, 0xf2, 0xb1, 0xec, 0x65, 0xe4, 0x19, 0x8d, 0x6e, 0x08,
    0xb2, 0x8e, 0x81, 0x3f, 0xeb, 0x01, 0xe4, 0xa4, 0x00, 0x83, 0x9b, 0x85, 0xe1, 0x80, 0x80, 0xce], rfl⟩

def nodeText : String := String.ofList (Text.hexEncode nodePublic.val)

/-- The config of a new vault before it is signed. -/
def newConfig : VaultConfig where
  name := "demo"
  encryptionEnabled := false
  minReplicas := 2
  createdAt := 1700000000
  vaultId := String.ofList (Text.hexEncode (List.replicate 16 0))
  configSeq := 1
  members := [nodeText]
  owner := some nodeText
  configSig := none
  keyWrapped := false
  keyHex := none

/-- The config after `min_replicas` was raised, before it is signed anew. -/
def raisedConfig : VaultConfig := { newConfig with minReplicas := 3, configSeq := 2 }

/-- The compact text of the signed object of either, from its number and its replicas. -/
def objectText (seq replicas : String) : String :=
  "\x7b\"config_seq\":" ++ seq ++ ",\"created_at\":1700000000,\"encryption_enabled\":false," ++
  "\"key_wrapped\":false,\"members\":[\"" ++ nodeText ++ "\"],\"min_replicas\":" ++ replicas ++
  ",\"name\":\"demo\",\"owner\":\"" ++ nodeText ++ "\"," ++
  "\"vault_id\":\"00000000000000000000000000000000\"\x7d"

def newConfigText : String := objectText "1" "2"

def raisedConfigText : String := objectText "2" "3"

/-- The bytes signed for them, and the signatures of the node key over these. -/
def newConfigMessage : Bytes := domainConfig ++ Text.toUtf8 newConfigText

def raisedConfigMessage : Bytes := domainConfig ++ Text.toUtf8 raisedConfigText

def newConfigSignature : { b : Bytes // b.length = 64 } := ⟨[
    0xd8, 0x70, 0xd9, 0x97, 0x2a, 0x59, 0x3a, 0x89, 0x19, 0xbe, 0xd0, 0xed, 0x70, 0x9f, 0x15, 0x29,
    0xcf, 0x0d, 0xba, 0x17, 0xfd, 0x92, 0x7e, 0x07, 0xce, 0xe8, 0x4d, 0xb8, 0xfc, 0x65, 0x67, 0x0c,
    0x50, 0x4d, 0xdc, 0x22, 0x7e, 0x3f, 0x8d, 0x2f, 0x32, 0x2c, 0x65, 0x76, 0x77, 0x70, 0x93, 0xfa,
    0xb8, 0xa9, 0x95, 0x34, 0xc9, 0x3f, 0xce, 0x13, 0x9c, 0x62, 0xfd, 0xc3, 0x5d, 0x03, 0xcc, 0x02], rfl⟩

def raisedConfigSignature : { b : Bytes // b.length = 64 } := ⟨[
    0x4d, 0x4d, 0x81, 0xd3, 0xb2, 0x28, 0x72, 0xdd, 0xe3, 0x71, 0x9e, 0xfb, 0xf9, 0xae, 0xd4, 0x9f,
    0x16, 0x2d, 0xbc, 0x08, 0x80, 0xb5, 0x28, 0x65, 0x76, 0xb6, 0xd4, 0x1d, 0x34, 0xfb, 0x2e, 0x7b,
    0xb6, 0xa1, 0x34, 0x58, 0x7b, 0x56, 0xb8, 0x5e, 0x3c, 0x9f, 0x6a, 0x63, 0x94, 0xad, 0xd6, 0xe1,
    0x1c, 0x0e, 0x86, 0xf3, 0xa8, 0xfc, 0xeb, 0x6b, 0xd9, 0xbc, 0x39, 0xc5, 0x0a, 0x0e, 0x2a, 0x0d], rfl⟩

/-- The signature of a key over a message: the two listed ones, and any other elsewhere. -/
def signatureOf (pk : Key) (msg : Bytes) : { b : Bytes // b.length = 64 } :=
  if pk = nodePublic ∧ msg = newConfigMessage then newConfigSignature
  else if pk = nodePublic ∧ msg = raisedConfigMessage then raisedConfigSignature
  else ⟨List.replicate 64 2, rfl⟩

/-- The functions with signatures that verify. -/
@[reducible] noncomputable def signer : Crates :=
  { standIn (tableDigest []) with
    publicKey := fun sk => if sk = nodeKey then nodePublic else sk.bytes
    ed25519Sign := fun sk msg =>
      signatureOf (if sk = nodeKey then nodePublic else sk.bytes) msg
    ed25519Verify := fun pk msg sig => decide (sig = (signatureOf pk msg).val)
    objectToVec := printObjects (configFields newConfig) (configFields raisedConfig) newConfigText
      raisedConfigText }

attribute [local instance] signer

end Sample

end Soal

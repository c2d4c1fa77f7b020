/-
  Soal.Vault.Keys — the vault key on disk: opening a vault, and protecting its key with a passphrase.

  Three files take part: `vault.json` (config), `vault.key` (plaintext key) and `vault.wrapped.json`
  (key sealed under a passphrase).
-/
import Soal.Crypto
import Soal.Identity
import Soal.Store

namespace Soal

open FileProg

def configFile : FilePath VaultDir := ⟨.root, "vault.json"⟩

def keyFile : FilePath VaultDir := ⟨.root, "vault.key"⟩

def wrappedKeyFile : FilePath VaultDir := ⟨.root, "vault.wrapped.json"⟩

def domainConfig : Bytes := Text.toUtf8 "soal/config/v1" ++ [0, 0]

variable [Crates]

/-! ## §1. The files. -/

def writeConfig (config : VaultConfig) : Action Unit :=
  writeFile configFile (Text.toUtf8 (Crates.configJson.toStringPretty config))

def writeKeyFile (key : Key) : Action Unit :=
  writeFile keyFile (Text.toUtf8 (String.ofList (Text.hexEncode key.val)))

def writeWrappedKey (wrapped : WrappedKey) : Action Unit :=
  writeFile wrappedKeyFile (Text.toUtf8 (Crates.wrappedJson.toStringPretty wrapped))

def loadWrappedKey : Reads WrappedKey := do
  if ← ReadM.pathExists wrappedKeyFile then
    let s ← readToString wrappedKeyFile
    (serde (Crates.wrappedJson.fromStr s) : Res WrappedKey)
  else abort (.other "vault.wrapped.json missing")

def loadConfig : Reads VaultConfig := do
  let configStr ← readToString configFile
  (serde (Crates.configJson.fromStr configStr) : Res VaultConfig)

/-! ## §2. Opening. -/

/-- The passphrase-wrapped key. -/
def loadWrapped (config : VaultConfig) (passphrase : Option String) : Reads Key := do
  match passphrase with
  | none => abort (.other "vault key is passphrase-protected; provide passphrase")
  | some pass =>
    let wrapped ← loadWrappedKey
    if config.vaultId.isEmpty then abort (.other "vault_id required to unwrap passphrase key")
    else
      let vaultId ← (vaultIdFromHex config.vaultId : Res Bytes)
      (unwrapVaultKeyPassphrase wrapped pass vaultId : Res Key)

/-- Load the key: wrapped when `vault.wrapped.json` exists or the config says so, else from
`vault.key`, else from the config of a legacy vault, which is migrated. -/
def loadOrMigrateKey (config : VaultConfig) (passphrase : Option String) :
    Action (Key × VaultConfig) := do
  if (← (ReadM.pathExists wrappedKeyFile : Reads Bool)) || config.keyWrapped then
    let key ← loadWrapped config passphrase
    return (key, { config with keyWrapped := true })
  else if ← (ReadM.pathExists keyFile : Reads Bool) then
    let hexstr ← readToString keyFile
    let key ← (keyFromHex hexstr : Res Key)
    return (key, config)
  else
    match config.keyHex with
    | some hexkey =>
      let k ← (keyFromHex hexkey : Res Key)
      let config := { config with keyHex := none }
      writeKeyFile k
      writeConfig config
      return (k, config)
    | none => abort (.other "encryption enabled but vault key file missing")

/-- A legacy config without a vault id gets a fresh one. -/
def assignVaultId (config : VaultConfig) : Action VaultConfig := do
  if config.vaultId.isEmpty then
    let id ← randomBytes 16
    return { config with vaultId := String.ofList (Text.hexEncode id.val) }
  else return config

/-- Config sequence numbers start at 1. -/
def firstSeq (config : VaultConfig) : VaultConfig :=
  if config.configSeq = 0 then { config with configSeq := 1 } else config

/-- The two fields a legacy config lacks. -/
def isLegacy (config : VaultConfig) : Bool := config.vaultId.isEmpty || config.configSeq == 0

/-- The key of an encrypted vault. -/
def openKey (config : VaultConfig) (passphrase : Option String) :
    Action (Option Key × VaultConfig) := do
  if config.encryptionEnabled then
    let (key, config) ← loadOrMigrateKey config passphrase
    return (some key, config)
  else return (none, config)

/-- Open a vault; if the key is passphrase-wrapped, `passphrase` is required.  `home` is the default
home directory of the node identity. -/
def openWithPassphrase (home : String) (passphrase : Option String) : Action Vault := do
  let stored ← loadConfig
  let config ← assignVaultId stored
  let (key, config) ← openKey (firstSeq config) passphrase
  if isLegacy stored then
    writeConfig config
    return ⟨config, key, some home⟩
  else return ⟨config, key, some home⟩

/-! ## §3. Protecting the key. -/

/-- The members of the signed object: every field but `config_sig` and `key_hex`. -/
def configFields (config : VaultConfig) : JsonObject := [
  ("config_seq", .number config.configSeq),
  ("created_at", .number config.createdAt),
  ("encryption_enabled", .bool config.encryptionEnabled),
  ("key_wrapped", .bool config.keyWrapped),
  ("members", .strings config.members),
  ("min_replicas", .number config.minReplicas.toUInt64),
  ("name", .string config.name),
  ("owner", match config.owner with
    | some o => .string o
    | none => .null),
  ("vault_id", .string config.vaultId)]

/-- Canonical config sign preimage: `DOMAIN_CONFIG || compact JSON` (no config_sig), under sorted
keys. -/
def configSignPreimage (config : VaultConfig) : Res Bytes :=
  frame domainConfig (Crates.objectToVec (configFields config).sorted)

/-- Sign a vault config. -/
def signVaultConfig (sk : SecretKey) (config : VaultConfig) : Res VaultConfig := do
  let config := { config with owner := some (Crates.publicKeyText (Crates.publicKey sk)) }
  let msg ← configSignPreimage config
  let sig := Crates.ed25519Sign sk msg
  return { config with configSig := some (String.ofList (Text.hexEncode sig.val)) }

/-- `saturating_add(1)` -/
def bumpSeq (seq : UInt64) : UInt64 := if seq.toNat + 1 < 2 ^ 64 then seq + 1 else seq

/-- Sign the config when there is a node key. -/
def Vault.signConfig (v : Vault) (config : VaultConfig) : Action VaultConfig := do
  match v.soalHome with
  | some home =>
      match ← loadSecretKey home with
      | .ok sk => (signVaultConfig sk config : Res VaultConfig)
      | .error _ => return config
  | none => return config

def Vault.bumpAndSignConfig (v : Vault) : Action Vault := do
  let config ← v.signConfig { v.config with configSeq := bumpSeq v.config.configSeq }
  writeConfig config
  return { v with config }

def Vault.vaultIdBytes (v : Vault) : Res Bytes :=
  if v.config.vaultId.isEmpty then
    fail (.other "vault_id missing (recreate vault or run migration)")
  else vaultIdFromHex v.config.vaultId

/-- Remove the plaintext key file if present. -/
def removeKeyFile : Action Unit := do
  if ← (ReadM.pathExists keyFile : Reads Bool) then removeFile keyFile

/-- Protect the vault key with a passphrase.  Removes plaintext vault.key. -/
def Vault.enablePassphrase (v : Vault) (passphrase : String) : Action Vault := do
  if !v.config.encryptionEnabled then abort (.other "cannot wrap key: encryption disabled")
  else
    match v.key with
    | none => abort (.other "vault key not loaded")
    | some key =>
      let vaultId ← (v.vaultIdBytes : Res Bytes)
      let wrapped ← wrapVaultKeyPassphrase key passphrase vaultId
      writeWrappedKey wrapped
      removeKeyFile
      Vault.bumpAndSignConfig
        { v with config := { v.config with keyWrapped := true, keyHex := none } }

/-! ## §4. Signing. -/

/-- A signed config differs in its owner and its signature. -/
theorem signVaultConfig_ok_iff {sk : SecretKey} {c c' : VaultConfig} :
    signVaultConfig sk c = .ok c' ↔ ∃ msg,
      configSignPreimage { c with owner := some (Crates.publicKeyText (Crates.publicKey sk)) } =
        .ok msg ∧
      c' = { c with
        owner := some (Crates.publicKeyText (Crates.publicKey sk))
        configSig := some (String.ofList (Text.hexEncode (Crates.ed25519Sign sk msg).val)) } := by
  constructor
  · intro h
    obtain ⟨msg, hmsg, hc⟩ := bind_ok_iff.1 h
    exact ⟨msg, hmsg, (Except.ok.inj hc).symm⟩
  · rintro ⟨msg, hmsg, rfl⟩
    exact bind_ok_iff.2 ⟨msg, hmsg, rfl⟩

/-- Signing leaves the disk; the config is signed with the node key, or there is no node key and it
stays as it is. -/
theorem wp_signConfig {env : Outside} {I : VaultWorld → Prop} {w : VaultWorld} (v : Vault)
    (c : VaultConfig) (hI : ∀ w', w'.fs = w.fs → w'.log = w.log → I w') :
    wp env I (v.signConfig c) (fun r w' => w'.fs = w.fs ∧ w'.log = w.log ∧ ∀ c', r = .ok c' →
      (∃ home sk, v.soalHome = some home ∧ env w.tick (.loadSecretKey home) = .ok sk ∧
        signVaultConfig sk c = .ok c') ∨
      (c' = c ∧ ∀ home, v.soalHome = some home →
        ∃ e, env w.tick (.loadSecretKey home) = .error e)) w := by
  unfold Vault.signConfig
  split
  next home hhome =>
    refine wp_answer (hI w rfl rfl) ?_
    split
    next sk hsk =>
      refine ⟨hI _ rfl rfl, rfl, rfl, fun c' hc' => ?_⟩
      exact .inl ⟨home, sk, hhome, hsk, hc'⟩
    next e he =>
      refine ⟨hI _ rfl rfl, rfl, rfl, fun c' hc' => .inr ⟨(Except.ok.inj hc').symm, ?_⟩⟩
      intro home' hhome'
      cases hhome.symm.trans hhome'
      exact ⟨e, he⟩
  next hnone =>
    refine ⟨hI _ rfl rfl, rfl, rfl, fun c' hc' => .inr ⟨(Except.ok.inj hc').symm, ?_⟩⟩
    intro home hhome
    cases hnone.symm.trans hhome

end Soal

/-
  Soal.Vault.Config — creating a vault, changing its config and its members, and checking the
  signature of the config.

  Every change bumps `config_seq`, signs when there is a node key, and rewrites `vault.json`.
-/
import Soal.Vault.Heads
import Soal.Vault.Keys

namespace Soal

open FileProg

def defaultMinReplicas : UInt8 := 2

variable [Crates]

/-! ## §1. Members. -/

/-- True if `nodeIdHex` is in the members list, or members is empty (open trust). -/
def Vault.isMember (v : Vault) (nodeIdHex : String) : Bool :=
  v.config.members.isEmpty ||
    v.config.members.any (fun m => Text.eqIgnoreAsciiCase m (Text.toAsciiLowercase nodeIdHex))

/-- `str::trim` on a node id. -/
def trimId (nodeId : String) : String := String.ofList (Text.trim nodeId.toList)

/-- Add a member NodeID and re-sign. -/
def Vault.addMember (v : Vault) (nodeId : String) : Action Vault :=
  let n := trimId nodeId
  if n = "" then abort (.other "empty member id")
  else if !v.config.members.any (fun m => Text.eqIgnoreAsciiCase m n) then
    Vault.bumpAndSignConfig { v with config := { v.config with members := v.config.members ++ [n] } }
  else return v

/-- Remove a member NodeID and re-sign; whether there was one to remove. -/
def Vault.removeMember (v : Vault) (nodeId : String) : Action (Vault × Bool) := do
  let members := v.config.members.filter (fun m => !Text.eqIgnoreAsciiCase m nodeId)
  if members.length ≠ v.config.members.length then
    let v ← Vault.bumpAndSignConfig { v with config := { v.config with members } }
    return (v, true)
  else return (v, false)

/-! ## §2. Policy and home. -/

/-- Change policy fields and re-sign config. -/
def Vault.setMinReplicas (v : Vault) (n : UInt8) : Action Vault :=
  Vault.bumpAndSignConfig { v with config := { v.config with minReplicas := max n 1 } }

/-- Apply policy and sync `min_replicas` into the vault config (signed when possible). -/
def applyPolicy (v : Vault) (policy : VaultPolicy) : Action (Vault × VaultPolicy) := do
  (policy.validate : Res Unit)
  savePolicy policy
  if v.config.minReplicas ≠ policy.minReplicas then
    let v ← v.setMinReplicas policy.minReplicas
    return (v, policy)
  else return (v, policy)

/-- Bind a home directory. -/
def Vault.withSoalHome (v : Vault) (home : String) : Vault := { v with soalHome := some home }

/-- Persist current config to disk. -/
def Vault.persistConfig (v : Vault) : Action Unit := writeConfig v.config

/-! ## §3. Creating a vault. -/

/-- Best-effort sign: without a node key the config stays as it is. -/
def signNewConfig (home : String) (config : VaultConfig) : Action VaultConfig := do
  match ← loadSecretKey home with
  | .ok sk =>
      match signVaultConfig sk config with
      | .ok signed => return signed
      | .error (.err _) =>
          return { config with owner := some (Crates.publicKeyText (Crates.publicKey sk)) }
      | .error .panic => .done (.error .panic)
  | .error _ => return config

/-- The key of a new vault. -/
def newKey (encryptionEnabled : Bool) : Action (Option Key) := do
  if encryptionEnabled then
    let key ← randomBytes 32
    return some key
  else return none

/-- Create a vault in a fresh directory.  `home` is the default home directory of the node
identity. -/
def createWithPolicy (home name : String) (encryptionEnabled : Bool) (minReplicas : UInt8) :
    Action Vault := do
  let key ← newKey encryptionEnabled
  let author ← localAuthorSync home
  let members := match author with
    | .ok author => [author]
    | .error _ => []
  let createdAt ← nowSecs
  let id ← randomBytes 16
  let config : VaultConfig := {
    name, encryptionEnabled, createdAt, members
    minReplicas := max minReplicas 1
    vaultId := String.ofList (Text.hexEncode id.val)
    configSeq := 1
    owner := members.head?
    configSig := none
    keyWrapped := false
    keyHex := none }
  let config ← signNewConfig home config
  writeConfig config
  match key with
  | some k =>
      writeKeyFile k
      return ⟨config, key, some home⟩
  | none => return ⟨config, key, some home⟩

def create (home name : String) (encryptionEnabled : Bool) : Action Vault :=
  createWithPolicy home name encryptionEnabled defaultMinReplicas

/-! ## §4. Checking the signature. -/

/-- The owner's key of a signed config. -/
def configOwnerKey (config : VaultConfig) : Res Key :=
  match config.owner with
  | none => fail (.verify "config signed but owner missing")
  | some owner =>
      match Crates.publicKeyFromStr owner with
      | .error e => fail (.verify ("bad config owner: " ++ e))
      | .ok pk => .ok pk

/-- The signature bytes in a config. -/
def configSigBytes (sigHex : String) : Res Bytes :=
  match Text.hexDecode (Text.trim sigHex.toList) with
  | none => fail (.verify "bad config_sig hex")
  | some bytes =>
      if bytes.length ≠ 64 then fail (.verify "config_sig must be 64 bytes") else .ok bytes

/-- Verify config signature when present; an unsigned config passes. -/
def verifyVaultConfig (config : VaultConfig) : Res Unit :=
  match config.configSig with
  | none => .ok ()
  | some sigHex =>
      if sigHex = "" then .ok ()
      else do
        let pk ← configOwnerKey config
        let sig ← configSigBytes sigHex
        let msg ← configSignPreimage config
        if Crates.ed25519Verify pk msg sig then return ()
        else fail (.verify "vault config signature invalid")

/-! ## §5. What a bump does. -/

/-- `c` is the config of `v` with the next number, signed when the node key loads. -/
def Vault.Resigned (env : Outside) (t : Nat) (v : Vault) (c : VaultConfig) : Prop :=
  (∃ home sk, v.soalHome = some home ∧ env t (.loadSecretKey home) = .ok sk ∧
    signVaultConfig sk { v.config with configSeq := bumpSeq v.config.configSeq } = .ok c) ∨
  (c = { v.config with configSeq := bumpSeq v.config.configSeq } ∧
    ∀ home, v.soalHome = some home → ∃ e, env t (.loadSecretKey home) = .error e)

/-- The config file holds `c`, every other file is as before. -/
def ConfigStored (fs fs' : VaultFs) (c : VaultConfig) : Prop :=
  ∀ p, fs'.lookup p = if p = configFile then
    some (Text.toUtf8 (Crates.configJson.toStringPretty c)) else fs.lookup p

/-- A bump resigns the config in memory and stores it. -/
theorem wp_bumpAndSignConfig {env : Outside} {w : VaultWorld} (v : Vault) :
    wp env (fun _ => True) v.bumpAndSignConfig (fun r w' => ∀ v', r = .ok v' →
      ∃ c, v.Resigned env w.tick c ∧ v' = { v with config := c } ∧ ConfigStored w.fs w'.fs c) w := by
  unfold Vault.bumpAndSignConfig
  refine wp_seq (wp_signConfig v _ fun _ _ _ => trivial) (fun c w₁ _ hsigned => ?_)
    (fun e w₁ _ _ v' h => by cases h)
  obtain ⟨hfs, -, hc⟩ := hsigned
  refine wp_write trivial trivial ⟨trivial, fun v' hv' => ⟨c, hc c rfl, ?_, fun p => ?_⟩⟩
  · exact (Except.ok.inj hv').symm
  · rw [World.lookup_written, hfs]

/-- A bump leaves the members. -/
theorem Vault.Resigned.members {env : Outside} {t : Nat} {v : Vault} {c : VaultConfig}
    (h : v.Resigned env t c) : c.members = v.config.members := by
  obtain ⟨_, _, -, -, hsigned⟩ | ⟨rfl, -⟩ := h
  · obtain ⟨_, -, rfl⟩ := signVaultConfig_ok_iff.1 hsigned
    rfl
  · rfl

end Soal

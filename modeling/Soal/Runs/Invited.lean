/-
  Soal.Runs.Invited — what a node gets that joins with an invite.

  A token that an issuer makes is the invite that it was made of, and joining with it gives a vault with
  the issuer's id, flags, number and key, whose directory is in order from the start.  A token that
  joins was signed by the issuer it names, over every field; a token that does not join leaves nothing.
-/
import Soal.Joining
import Soal.Runs.KeyCustody

namespace Soal

open FileProg

/-! ## §1. Tokens. -/

section Token

variable [InviteText]

/-- **A token is the invite that it was made of.** -/
theorem fromToken_toToken (htext : InviteText.RoundTrip) (inv : Invite) :
    Invite.fromToken inv.toToken = .ok inv := by
  have hplain : ∀ c ∈ base64UrlEncode (InviteText.toVec inv),
      Text.isWhiteSpace c = false ∧ c ≠ '\x7b' := by
    intro c hc
    obtain ⟨n, hn, rfl⟩ := Base64.mem_encode hc
    exact Base64.digit_plain n hn
  have htrim : Text.trim (base64UrlEncode (InviteText.toVec inv)) =
      base64UrlEncode (InviteText.toVec inv) := Text.trim_eq_self fun c hc => (hplain c hc).1
  have hhead : (base64UrlEncode (InviteText.toVec inv)).head? ≠ some '\x7b' := by
    intro h
    exact (hplain _ (List.mem_of_mem_head? h)).2 rfl
  have hdecode : base64UrlDecode (base64UrlEncode (InviteText.toVec inv)) =
      .ok (InviteText.toVec inv) := by
    unfold base64UrlDecode
    rw [htrim, base64UrlEncode, Base64.decode_encode]
  unfold Invite.fromToken Invite.toToken
  rw [String.toList_ofList, htrim, if_neg hhead]
  refine bind_ok_iff.2 ⟨InviteText.toVec inv, hdecode, ?_⟩
  dsimp only
  rw [htext inv]
  rfl

end Token

section Model

variable [Crates]

/-! ## §2. Checking. -/

/-- The invite carries a signature of its issuer over its other fields. -/
def Invite.SignedBy (inv : Invite) (pk : Key) (sig : Bytes) : Prop :=
  ∃ msg, inviteSigBytes inv = .ok sig ∧ inviteIssuerKey inv = .ok pk ∧
    inviteSignPreimage inv = .ok msg ∧ Crates.ed25519Verify pk msg sig = true

/-- What the checks come to. -/
theorem checkInvite_ok_iff {inv : Invite} {now : UInt64} : checkInvite inv now = .ok () ↔
    now ≤ inv.expiresAt ∧ inv.signatureHex ≠ "" ∧ ∃ pk sig, inv.SignedBy pk sig := by
  unfold checkInvite
  by_cases hexp : inv.isExpired now = true
  · rw [if_pos hexp]
    have hlt : inv.expiresAt < now := of_decide_eq_true hexp
    constructor
    · intro h
      cases h
    · intro h
      exact absurd h.1 (UInt64.not_le.2 hlt)
  · rw [if_neg hexp]
    have hle : now ≤ inv.expiresAt := UInt64.not_lt.1 fun h => hexp (decide_eq_true h)
    by_cases hempty : inv.signatureHex = ""
    · rw [if_pos hempty]
      constructor
      · intro h
        cases h
      · intro h
        exact absurd hempty h.2.1
    · rw [if_neg hempty]
      constructor
      · intro h
        obtain ⟨sig, hsig, h⟩ := bind_ok_iff.1 h
        obtain ⟨pk, hpk, h⟩ := bind_ok_iff.1 h
        obtain ⟨msg, hmsg, h⟩ := bind_ok_iff.1 h
        split at h
        next hver => exact ⟨hle, hempty, pk, sig, msg, hsig, hpk, hmsg, hver⟩
        next => cases h
      · intro h
        obtain ⟨-, -, pk, sig, msg, hsig, hpk, hmsg, hver⟩ := h
        refine bind_ok_iff.2 ⟨sig, hsig, bind_ok_iff.2 ⟨pk, hpk, bind_ok_iff.2 ⟨msg, hmsg, ?_⟩⟩⟩
        rw [if_pos hver]
        rfl

/-! ## §3. Making. -/

/-- An invite that `v`'s owner made with the node key `sk`. -/
structure Invite.MadeBy (v : Vault) (sk : SecretKey) (inv : Invite) : Prop where
  version : inv.protocolVersion = .ofNat Soal.protocolVersion
  vaultId : inv.vaultIdHex = v.config.vaultId
  name : inv.vaultName = v.config.name
  encrypted : inv.encryptionEnabled = v.config.encryptionEnabled
  minReplicas : inv.minReplicas = v.config.minReplicas
  configSeq : inv.configSeq = v.config.configSeq
  issuer : inv.issuer = Crates.publicKeyText (Crates.publicKey sk)
  members : inv.members = withMember v.config.members inv.issuer
  signature : ∃ msg, inviteSignPreimage inv = .ok msg ∧
    inv.signatureHex = String.ofList (Text.hexEncode (Crates.ed25519Sign sk msg).val)
  key : inv.openKey = .ok (if v.config.encryptionEnabled then v.key else none)

section Making

variable {env : Outside} {w : VaultWorld} {v : Vault} {sk : SecretKey} {inv : Invite}

omit [Crates] in
/-- A hex text is read back. -/
theorem hexDecode_trim_hexEncode (b : Bytes) :
    Text.hexDecode (Text.trim (String.ofList (Text.hexEncode b)).toList) = some b := by
  have htrim : Text.trim (Text.hexEncode b) = Text.hexEncode b :=
    Text.trim_eq_self fun c hc => by
      obtain ⟨n, hn, rfl⟩ := Text.mem_hexEncode hc
      exact (Text.hexDigit_plain n hn).1
  rw [String.toList_ofList, htrim, Text.hexDecode_hexEncode]

/-- What a secret seals, it opens. -/
theorem wp_sealInviteKey (haead : AeadCorrect) (v : Vault) (secret : { b : Bytes // b.length = 32 }) :
    wp env (fun _ => True) (v.sealInviteKey secret) (fun r _ => ∀ text, r = .ok text →
      ∀ inv : Invite, inv.encryptionEnabled = v.config.encryptionEnabled →
        inv.inviteSecretHex = String.ofList (Text.hexEncode secret.val) → inv.sealedKeyHex = text →
        inv.openKey = .ok (if v.config.encryptionEnabled then v.key else none)) w := by
  unfold Vault.sealInviteKey
  split
  next henc =>
    split
    next => exact ⟨trivial, fun text h => by cases h⟩
    next key hkey =>
      unfold wrapKey
      rw [wp_bind]
      refine wp_answer trivial ?_
      set nonce : { b : Bytes // b.length = nonceLen } := env w.tick (.random nonceLen) with hnonce
      refine wp_compute trivial (fun ct hct => ?_) (fun e _ text h => by cases h)
      refine ⟨trivial, trivial, fun text h inv hflag hsecret hsealed => ?_⟩
      have hct : Crates.aeadEncrypt secret nonce.val key.val inviteAad = .ok ct := crypto_ok_iff.1 hct
      obtain rfl := Except.ok.inj h
      have hopen : unwrapKey (nonce.val ++ ct) secret inviteAad = .ok key := by
        rw [unwrapKey_sealed haead nonce.property hct, haead.opens _ _ _ _ _ hct]
        exact dif_pos key.property
      have hsecretKey : keyOfBytes secret.val (.other "invite secret must be 32 bytes") =
          .ok secret := dif_pos secret.property
      unfold Invite.openKey
      rw [hflag, if_pos henc, hsecret, hexDecode_trim_hexEncode, hsealed,
        hexDecode_trim_hexEncode]
      show (keyOfBytes secret.val _).bind _ = _
      rw [hsecretKey]
      show (unwrapKey (nonce.val ++ ct) secret inviteAad).bind _ = _
      rw [hopen]
      exact congrArg _ hkey.symm
  next henc =>
    refine ⟨trivial, fun text h inv hflag _ _ => ?_⟩
    unfold Invite.openKey
    rw [hflag, if_neg henc]

/-- **The invite that is made.** -/
theorem wp_generateInvite (haead : AeadCorrect) (role : InviteRole) (ttl : Option UInt64) :
    wp env (fun _ => True) (generateInvite v sk role ttl)
      (fun r _ => ∀ inv, r = .ok inv → inv.MadeBy v sk) w := by
  unfold generateInvite
  refine wp_answer trivial (wp_answer trivial ?_)
  refine wp_seq (wp_sealInviteKey haead v _) (fun text w₁ _ h₁ => ?_)
    (fun e _ _ _ inv h => by cases h)
  refine wp_compute trivial (fun msg hmsg => ⟨trivial, fun inv h => ?_⟩)
    (fun e _ inv h => by cases h)
  obtain rfl := Except.ok.inj h
  exact ⟨rfl, rfl, rfl, rfl, rfl, rfl, rfl, rfl, ⟨msg, hmsg, rfl⟩, h₁ text rfl _ rfl rfl rfl⟩

/-- The signature it carries is the one made with `sk`. -/
theorem Invite.MadeBy.sigBytes (h : inv.MadeBy v sk) : ∃ msg, inviteSignPreimage inv = .ok msg ∧
    inviteSigBytes inv = .ok (Crates.ed25519Sign sk msg).val := by
  obtain ⟨msg, hmsg, htext⟩ := h.signature
  refine ⟨msg, hmsg, ?_⟩
  unfold inviteSigBytes
  rw [htext, hexDecode_trim_hexEncode]
  exact if_neg (not_not.2 (Crates.ed25519Sign sk msg).property)

/-- It passes the checks until it expires. -/
theorem Invite.MadeBy.checks (hsig : SignatureCorrect) (h : inv.MadeBy v sk) {now : UInt64}
    (hnow : now ≤ inv.expiresAt) : checkInvite inv now = .ok () := by
  obtain ⟨msg, hmsg, hbytes⟩ := h.sigBytes
  refine checkInvite_ok_iff.2 ⟨hnow, ?_, Crates.publicKey sk, _, msg, hbytes, ?_, hmsg, ?_⟩
  · intro hempty
    obtain ⟨msg, -, htext⟩ := h.signature
    -- a signature has 64 bytes, so its hex text is not the empty one
    have hlen := congrArg (fun s => s.toList.length) (htext.symm.trans hempty)
    simp [(Crates.ed25519Sign sk msg).property] at hlen
  · unfold inviteIssuerKey
    rw [h.issuer, hsig.parses]
  · exact hsig.verifies sk msg

end Making

/-! ## §4. Joining. -/

/-- The config that joining writes. -/
def joinedConfig (inv : Invite) (name : String) (me : Except SoalError String) (createdAt : UInt64) :
    VaultConfig where
  name := name
  encryptionEnabled := inv.encryptionEnabled
  minReplicas := max inv.minReplicas 1
  createdAt := createdAt
  vaultId := inv.vaultIdHex
  configSeq := inv.configSeq
  members := joinedMembers inv me
  owner := (joinedMembers inv me).head?
  configSig := none
  keyWrapped := false
  keyHex := none

section Joining

variable {env : Outside} {w : VaultWorld} {inv : Invite} {key : Option Key} {c : VaultConfig}

/-- A directory that was just written opens, and its number is at least one from then on. -/
theorem wp_open_new (hjson : Crates.configJson.RoundTrip) (home : String)
    (hload : ReadM.eval w.fs loadConfig = .ok c) (hid : c.vaultId.isEmpty = false)
    (hflag : c.keyWrapped = false) (henc : c.encryptionEnabled = key.isSome)
    (hw : wrappedKeyFile ∉ w.fs) (hkey : ∀ k, key = some k → ∃ s,
      ReadM.eval w.fs (readToString keyFile) = .ok s ∧ keyFromHex s = .ok k) :
    wp env (fun _ => True) (openWithPassphrase home none) (fun r w' =>
      r = .ok ⟨firstSeq c, key, some home⟩ ∧ ReadM.eval w'.fs loadConfig = .ok (firstSeq c) ∧
        ∀ p, p ≠ configFile → w'.fs.lookup p = w.fs.lookup p) w := by
  obtain ⟨seq, hseq, hfirst, hsame⟩ := firstSeq_eq c
  unfold openWithPassphrase
  refine wp_read_ok trivial hload ?_
  rw [assignVaultId, if_neg (by simp [hid])]
  show wp env _ (openKey (firstSeq c) none >>= _) _ _
  rw [hfirst]
  -- no wrapped key and no flag: the key is read from `vault.key`
  have hopen : wp env (fun _ => True) (openKey { c with configSeq := seq } none) (fun r w' =>
      r = .ok (key, { c with configSeq := seq }) ∧ w' = w) w := by
    unfold openKey
    cases key with
    | none =>
      rw [if_neg (by simp [henc])]
      exact ⟨trivial, rfl, rfl⟩
    | some k =>
      obtain ⟨s, hs, hk⟩ := hkey k rfl
      rw [if_pos (by simp [henc])]
      unfold loadOrMigrateKey
      rw [wp_bind]
      refine wp_exists trivial ?_
      rw [if_neg (by simp [hw, hflag])]
      refine wp_exists trivial ?_
      rw [if_pos (by simpa using mem_of_readToString hs)]
      exact wp_read_ok trivial hs (wp_compute_ok trivial hk ⟨trivial, trivial, rfl, rfl⟩)
  refine wp_seq hopen (fun a w₁ _ h₁ => ?_) (fun e _ _ h₁ => by cases h₁.1)
  obtain ⟨ha, rfl⟩ := h₁
  obtain rfl := Except.ok.inj ha
  show wp env _ (if isLegacy c then _ else _) _ _
  split
  -- a config of number zero is written back with its first number
  next =>
    refine wp_write trivial trivial ⟨trivial, rfl, eval_loadConfig_written hjson _ _, fun p hp => ?_⟩
    rw [World.lookup_written, if_neg hp]
  next hmodern =>
    simp only [isLegacy, Bool.or_eq_true, not_or, Bool.not_eq_true, beq_eq_false_iff_ne] at hmodern
    refine ⟨trivial, rfl, ?_, fun _ _ => rfl⟩
    rw [hload, hsame hmodern.2]

/-- **What joining leaves**: a handle with the invite's fields and its key, on a directory in
order. -/
theorem wp_materialize (hjson : Crates.configJson.RoundTrip) (defaultHome home name : String)
    (vaultId : Bytes) (henc : inv.encryptionEnabled = key.isSome)
    (hid : inv.vaultIdHex.isEmpty = false) (hw : wrappedKeyFile ∉ w.fs) :
    wp env (fun _ => True) (materialize defaultHome home inv name vaultId key) (fun r w' =>
      ∃ t, r = .ok ⟨firstSeq (joinedConfig inv name ((env w.tick (.loadSecretKey home)).map
          fun sk => Crates.publicKeyText (Crates.publicKey sk)) t), key, some home⟩ ∧
        ∀ k, key = some k → ∀ P, Guarded P w'.fs inv.vaultIdHex k none) w := by
  set me := (env w.tick (.loadSecretKey home)).map fun sk =>
    Crates.publicKeyText (Crates.publicKey sk) with hme
  unfold materialize
  refine wp_seq (R := fun r w' => w'.fs = w.fs ∧ r = .ok me) (wp_answer trivial ⟨trivial, rfl, rfl⟩)
    (fun me' w₁ _ h₁ => ?_) (fun e _ _ h₁ => by cases h₁.2)
  obtain ⟨hfs₁, heq⟩ := h₁
  obtain rfl := Except.ok.inj heq
  have hno₁ : wrappedKeyFile ∉ w₁.fs := by rw [hfs₁]; exact hw
  -- the new directory: a config, and the key when there is one
  refine wp_seq (R := fun r w' => ∃ t, r = .ok ⟨{ joinedConfig inv name me t with
      minReplicas := defaultMinReplicas, configSeq := 1
      vaultId := String.ofList (Text.hexEncode vaultId) }, key, none⟩ ∧ wrappedKeyFile ∉ w'.fs ∧
      ∀ k, key = some k → ∃ s, ReadM.eval w'.fs (readToString keyFile) = .ok s ∧ keyFromHex s = .ok k)
    ?_ (fun v w₂ _ h₂ => ?_) (fun e _ _ h₂ => by obtain ⟨_, h, -⟩ := h₂; cases h)
  · unfold createForTest
    refine wp_seq (R := fun r w' => r = .ok key ∧ w' = w₁) ?_ (fun key' w₂ _ h₂ => ?_)
      (fun e _ _ h₂ => by cases h₂.1)
    · unfold keyOr
      cases key with
      | none =>
        rw [if_neg (by simp [henc])]
        exact ⟨trivial, rfl, rfl⟩
      | some k =>
        rw [if_pos (by simp [henc])]
        exact ⟨trivial, rfl, rfl⟩
    · obtain ⟨heq₂, rfl⟩ := h₂
      obtain rfl := Except.ok.inj heq₂
      refine wp_answer trivial (wp_write trivial trivial ?_)
      cases key' with
      | none =>
        refine ⟨trivial, _, rfl, fun hm => hno₁ ((mem_congr ?_).1 hm), fun k hk => by cases hk⟩
        rw [World.lookup_written, if_neg (by decide)]
        rfl
      | some k =>
        refine wp_write trivial trivial ⟨trivial, _, rfl, fun hm => hno₁ ((mem_congr ?_).1 hm), ?_⟩
        · rw [World.lookup_written, if_neg (by decide), World.lookup_written, if_neg (by decide)]
          rfl
        · intro k' hk'
          obtain rfl := Option.some.inj hk'
          refine ⟨_, eval_readToString_text ?_, keyFromHex_hexEncode k⟩
          rw [World.lookup_written, if_pos rfl]
  obtain ⟨t, hv, hno₂, hkey₂⟩ := h₂
  obtain rfl := Except.ok.inj hv
  refine wp_write trivial trivial ?_
  set w₃ := w₂.written configFile
    (Text.toUtf8 (Crates.configJson.toStringPretty (joinedConfig inv name me t))) with hw₃
  have hlookup : ∀ p, p ≠ configFile → w₃.fs.lookup p = w₂.fs.lookup p := fun p hp => by
    rw [hw₃, World.lookup_written, if_neg hp]
  have hno₃ : wrappedKeyFile ∉ w₃.fs := fun hm =>
    hno₂ ((mem_congr (hlookup _ (by decide))).1 hm)
  have hkey₃ : ∀ k, key = some k → ∃ s, ReadM.eval w₃.fs (readToString keyFile) = .ok s ∧
      keyFromHex s = .ok k := by
    intro k hk
    obtain ⟨s, hs, hsk⟩ := hkey₂ k hk
    exact ⟨s, (eval_readToString_congr (hlookup _ (by decide))).trans hs, hsk⟩
  have hload : ReadM.eval w₃.fs loadConfig = .ok (joinedConfig inv name me t) :=
    eval_loadConfig_written hjson _ _
  refine wp_seq (wp_open_new hjson defaultHome hload hid rfl henc hno₃ hkey₃) (fun v w₄ _ h₄ => ?_)
    (fun e _ _ h₄ => by cases h₄.1)
  obtain ⟨hv, hload₄, hframe⟩ := h₄
  obtain rfl := Except.ok.inj hv
  refine ⟨trivial, t, rfl, fun k hk P => ⟨hid, ⟨_, hload₄, ?_⟩, ?_⟩⟩
  · obtain ⟨seq, hseq, hfirst, -⟩ := firstSeq_eq (joinedConfig inv name me t)
    have hflag : inv.encryptionEnabled = true := by rw [henc, hk]; rfl
    rw [hfirst]
    exact ⟨rfl, hflag, hseq, rfl, fun h => by cases h⟩
  · obtain ⟨s, hs, hsk⟩ := hkey₃ k hk
    refine .plain (fun hm => hno₃ ((mem_congr (hframe _ (by decide))).1 hm)) ?_ hsk
    exact (eval_readToString_congr (hframe _ (by decide))).trans hs

omit [Crates] in
/-- An invite with an id of 32 hex digits has one. -/
theorem vaultIdHex_nonempty {id : Bytes} (h : inv.vaultIdBytes = .ok id) :
    inv.vaultIdHex.isEmpty = false := by
  by_contra hempty
  have htext : inv.vaultIdHex = "" := by simpa using hempty
  unfold Invite.vaultIdBytes at h
  rw [htext] at h
  cases h

/-- There is a key exactly when there is encryption. -/
theorem openKey_isSome (h : inv.openKey = .ok key) : inv.encryptionEnabled = key.isSome := by
  unfold Invite.openKey at h
  split at h
  next henc =>
    split at h
    next => cases h
    next =>
      obtain ⟨secret, -, h⟩ := bind_ok_iff.1 h
      split at h
      next => cases h
      next =>
        obtain ⟨k, -, h⟩ := bind_ok_iff.1 h
        obtain rfl := Except.ok.inj h
        exact henc
  next henc =>
    obtain rfl := Except.ok.inj h
    exact Bool.eq_false_iff.2 henc

/-- The vault that an invite gives, at a time, to a node with the id `me`. -/
def Invite.vault (inv : Invite) (name home : String) (me : Except SoalError String)
    (createdAt : UInt64) (key : Option Key) : Vault :=
  ⟨firstSeq (joinedConfig inv name me createdAt), key, some home⟩

omit [Crates] in
/-- Its config is the one that joining writes, under a number that is not 0. -/
theorem Invite.vault_config (inv : Invite) (name home : String) (me : Except SoalError String)
    (createdAt : UInt64) (key : Option Key) : ∃ seq, seq ≠ 0 ∧
      (inv.configSeq ≠ 0 → seq = inv.configSeq) ∧ (inv.vault name home me createdAt key).config =
        { joinedConfig inv name me createdAt with configSeq := seq } := by
  obtain ⟨seq, hseq, hfirst, hsame⟩ := firstSeq_eq (joinedConfig inv name me createdAt)
  exact ⟨seq, hseq, hsame, hfirst⟩

variable [InviteText]

/-- **Joining, whatever the token.**  An error leaves the directory; a success is that of an invite
that passes the checks. -/
theorem wp_joinInvite (hjson : Crates.configJson.RoundTrip) (defaultHome home token : String)
    (localName : Option String) (hw : wrappedKeyFile ∉ w.fs) :
    wp env (fun _ => True) (joinInvite defaultHome home token localName) (fun r w' =>
      (∀ e, r = .error e → w'.fs = w.fs) ∧ ∀ v, r = .ok v → ∃ inv now me t key,
        Invite.fromToken token = .ok inv ∧ inv.protocolVersion = .ofNat protocolVersion ∧
        (∃ n, now = env n .now) ∧ checkInvite inv now = .ok () ∧ inv.openKey = .ok key ∧
        (∃ n, me = (env n (.loadSecretKey home)).map fun sk =>
          Crates.publicKeyText (Crates.publicKey sk)) ∧
        v = inv.vault (localName.getD inv.vaultName) home me t key ∧
        ∀ k, key = some k → ∀ P, Keyring.InOrder P k ⟨w'.fs, [v], none⟩) w := by
  unfold joinInvite
  refine wp_compute trivial (fun inv hinv => ?_) (fun e _ => ⟨fun _ _ => rfl, fun v h => by cases h⟩)
  -- the checks write nothing
  refine wp_seq (R := fun r w' => w'.fs = w.fs ∧ (r = .ok () →
      inv.protocolVersion = .ofNat protocolVersion ∧ ∃ n, checkInvite inv (env n .now) = .ok ()))
    ?_ (fun _ w₁ _ h₁ => ?_) (fun e w₁ _ h₁ => ⟨fun _ _ => h₁.1, fun v h => by cases h⟩)
  · unfold verifyInvite
    split
    next => exact ⟨trivial, rfl, fun h => by cases h⟩
    next hversion =>
      refine wp_answer trivial ?_
      exact ⟨trivial, rfl, fun h => ⟨not_not.1 hversion, w.tick, h⟩⟩
  obtain ⟨hfs₁, hchecked⟩ := h₁
  obtain ⟨hversion, n, hcheck⟩ := hchecked rfl
  refine wp_compute trivial (fun id hid => ?_) (fun e _ => ⟨fun _ _ => hfs₁, fun v h => by cases h⟩)
  refine wp_compute trivial (fun key hkey => ?_) (fun e _ => ⟨fun _ _ => hfs₁, fun v h => by cases h⟩)
  have hnonempty : inv.vaultIdHex.isEmpty = false := vaultIdHex_nonempty hid
  have henc : inv.encryptionEnabled = key.isSome := openKey_isSome hkey
  have hno : wrappedKeyFile ∉ w₁.fs := by rw [hfs₁]; exact hw
  -- only now files are made, and that cannot fail
  refine (wp_materialize hjson defaultHome home _ id henc hnonempty hno).mono (fun _ _ => trivial)
    fun r w₂ _ h₂ => ?_
  obtain ⟨t, rfl, hguarded⟩ := h₂
  refine ⟨fun e h => (by cases h), fun v h => ?_⟩
  obtain rfl := Except.ok.inj h
  refine ⟨inv, env n .now, _, t, key, hinv, hversion, ⟨n, rfl⟩, hcheck, hkey, ⟨w₁.tick, rfl⟩, rfl,
    fun k hk P => ?_⟩
  refine .opened (hguarded k hk P) fun u hu => ?_
  obtain rfl := List.mem_singleton.1 hu
  obtain ⟨seq, hseq, -, hconfig⟩ := inv.vault_config (localName.getD inv.vaultName) home
    ((env w₁.tick (.loadSecretKey home)).map fun sk => Crates.publicKeyText (Crates.publicKey sk)) t key
  have hflag : inv.encryptionEnabled = true := by rw [henc, hk]; rfl
  refine ⟨hk, ?_⟩
  show ConfigOf _ _ (inv.vault _ _ _ t key).config
  rw [hconfig]
  exact ⟨rfl, hflag, hseq, rfl, fun h => by cases h⟩

omit [InviteText] in
/-- The signature made for `inv` with `sk` verifies under the issuer that `inv'` names for no other
message than the one it was made for. -/
def SignsApart (sk : SecretKey) (inv inv' : Invite) : Prop := ∀ pk msg msg',
  inviteSignPreimage inv = .ok msg → inviteIssuerKey inv' = .ok pk →
    inviteSignPreimage inv' = .ok msg' →
      Crates.ed25519Verify pk msg' (Crates.ed25519Sign sk msg).val = true → msg' = msg

/-- **An invite cannot be altered.**  A token that does not join leaves an empty directory; one that
joins has not expired, carries a signature of the issuer it names, and with the signature of an invite
that was generated it carries every field of that invite. -/
theorem joins_only_as_signed (haead : AeadCorrect) (hjson : Crates.configJson.RoundTrip)
    (hobject : JsonInjective) {env' : Outside} {v : Vault} {sk : SecretKey} {role : InviteRole}
    {ttl : Option UInt64} (hmade : (run env (generateInvite v sk role ttl) w).1 = .ok inv)
    (defaultHome home token : String) (localName : Option String)
    (hapart : ∀ inv', Invite.fromToken token = .ok inv' → SignsApart sk inv inv') :
    (∀ e, (run env' (joinInvite defaultHome home token localName) (World.boot ∅)).1 = .error e →
      (run env' (joinInvite defaultHome home token localName) (World.boot ∅)).2.fs = ∅) ∧
    ∀ v', (run env' (joinInvite defaultHome home token localName) (World.boot ∅)).1 = .ok v' →
      ∃ inv' key me t, Invite.fromToken token = .ok inv' ∧ (∃ n, inv'.expiresAt ≥ env' n .now) ∧
        (∃ pk sig, inv'.SignedBy pk sig) ∧ inv'.openKey = .ok key ∧
        v' = inv'.vault (localName.getD inv'.vaultName) home me t key ∧
        (inviteSigBytes inv' = inviteSigBytes inv →
          { inv' with signatureHex := inv.signatureHex } = inv) := by
  have hgen : wp env _ (generateInvite v sk role ttl) _ w := wp_generateInvite haead role ttl
  have hm : inv.MadeBy v sk := hgen.post inv hmade
  have hno : wrappedKeyFile ∉ (World.boot (∅ : VaultFs)).fs := AList.notMem_empty _
  have hjoin : wp env' _ (joinInvite defaultHome home token localName) _ (World.boot ∅) :=
    wp_joinInvite hjson defaultHome home token localName hno
  obtain ⟨herr, hall⟩ := hjoin.post
  refine ⟨herr, fun v' hv' => ?_⟩
  obtain ⟨inv', now, me, t, key, hinv', -, ⟨n, rfl⟩, hcheck, hkey, -, hv, -⟩ := hall v' hv'
  obtain ⟨hle, -, pk, sig, hsigned⟩ := checkInvite_ok_iff.1 hcheck
  refine ⟨inv', key, me, t, hinv', ⟨n, hle⟩, ⟨pk, sig, hsigned⟩, hkey, hv, fun hsame => ?_⟩
  obtain ⟨msg', hsig', hpk, hmsg', hver⟩ := hsigned
  obtain ⟨msg, hmsg, hbytes⟩ := hm.sigBytes
  -- the owner's signature verifies for the token's message, so that message is the owner's
  obtain rfl := Except.ok.inj (hsig'.symm.trans (hsame.trans hbytes))
  have hmessage : msg' = msg := hapart inv' hinv' pk msg msg' hmsg hpk hmsg' hver
  rw [hmessage] at hmsg'
  exact inviteSignPreimage_injective hobject hmsg' hmsg

end Joining

end Model

/-! ### A vault shared with a second node. -/

section Sample

/-- An encrypted vault whose one member is the node, and its config's text. -/
def sharedConfig : VaultConfig := { sampleConfig with members := [nodeText], owner := some nodeText }

def sharedConfigText : String :=
  "\x7b\n  \"name\": \"demo\",\n  \"encryption_enabled\": true,\n  \"min_replicas\": 2,\n" ++
  "  \"created_at\": 1700000000,\n  \"vault_id\": \"00112233445566778899aabbccddeeff\",\n" ++
  "  \"config_seq\": 1,\n  \"members\": [\n    \"" ++ nodeText ++ "\"\n  ],\n" ++
  "  \"owner\": \"" ++ nodeText ++ "\",\n  \"key_wrapped\": false\n\x7d"

def sharedVault : Vault := ⟨sharedConfig, some sampleKey, some "/root"⟩

/-- The key `sampleKey` sealed under a secret of zeros with a nonce of zeros. -/
def inviteSealed : Bytes := [
    0x5a, 0xbc, 0xb4, 0xab, 0xc7, 0x02, 0xaf, 0x5d, 0xfb, 0xc3, 0xd1, 0xe7, 0x97, 0x16, 0x3d, 0x6a,
    0xcd, 0x3a, 0x83, 0x1c, 0x63, 0xab, 0xba, 0x8f, 0xf8, 0xff, 0xb5, 0x81, 0x4b, 0x18, 0xba, 0x5d,
    0x6d, 0x98, 0x59, 0xfc, 0x7b, 0x89, 0xdf, 0xcb, 0xe2, 0xfb, 0xef, 0xe7, 0x53, 0xf0, 0xa8, 0xc1]

/-- The invite, before it is signed. -/
def unsignedInvite : Invite where
  protocolVersion := 1
  vaultIdHex := "00112233445566778899aabbccddeeff"
  vaultName := "demo"
  encryptionEnabled := true
  minReplicas := 2
  configSeq := 1
  members := [nodeText]
  role := .write
  issuer := nodeText
  createdAt := 1700000000
  expiresAt := 1700604800
  inviteSecretHex := String.ofList (Text.hexEncode (List.replicate 32 0))
  sealedKeyHex := String.ofList (Text.hexEncode (List.replicate 24 0 ++ inviteSealed))
  signatureHex := ""

/-- Its fields under sorted keys, as text. -/
def unsignedInviteText : String :=
  "\x7b\"config_seq\":1,\"created_at\":1700000000,\"encryption_enabled\":true," ++
  "\"expires_at\":1700604800,\"invite_secret_hex\":\"" ++ unsignedInvite.inviteSecretHex ++
  "\",\"issuer\":\"" ++ nodeText ++ "\",\"members\":[\"" ++ nodeText ++
  "\"],\"min_replicas\":2,\"protocol_version\":1,\"role\":\"write\",\"sealed_key_hex\":\"" ++
  unsignedInvite.sealedKeyHex ++ "\",\"vault_id_hex\":\"00112233445566778899aabbccddeeff\"," ++
  "\"vault_name\":\"demo\"\x7d"

/-- The bytes signed for it, and the signature of the node key over them. -/
def inviteMessage : Bytes := domainInvite ++ Text.toUtf8 unsignedInviteText

def inviteSignature : { b : Bytes // b.length = 64 } := ⟨[
    0x9c, 0xa1, 0x30, 0x0d, 0xd9, 0xbe, 0x0d, 0xbb, 0xa5, 0x85, 0x81, 0x2b, 0x07, 0x35, 0x73, 0x59,
    0xe2, 0x2d, 0xe2, 0x0c, 0x0d, 0x9a, 0x98, 0x14, 0x0d, 0xf4, 0x6b, 0x05, 0x03, 0x5c, 0x7a, 0x8a,
    0xe9, 0x36, 0x55, 0x48, 0x17, 0x47, 0xf2, 0x39, 0x03, 0x26, 0x11, 0xe4, 0xe6, 0x68, 0x29, 0x6c,
    0xc0, 0x6e, 0x25, 0x1d, 0xde, 0xfd, 0x86, 0x54, 0xa7, 0xe4, 0x48, 0x60, 0x74, 0x8a, 0x11, 0x04], rfl⟩

/-- The invite as it is sent. -/
def sentInvite : Invite :=
  { unsignedInvite with signatureHex := String.ofList (Text.hexEncode inviteSignature.val) }

def sentInviteText : String :=
  "\x7b\"protocol_version\":1,\"vault_id_hex\":\"00112233445566778899aabbccddeeff\"," ++
  "\"vault_name\":\"demo\",\"encryption_enabled\":true,\"min_replicas\":2,\"config_seq\":1," ++
  "\"members\":[\"" ++ nodeText ++ "\"],\"role\":\"write\",\"issuer\":\"" ++ nodeText ++
  "\",\"created_at\":1700000000,\"expires_at\":1700604800,\"invite_secret_hex\":\"" ++
  unsignedInvite.inviteSecretHex ++ "\",\"sealed_key_hex\":\"" ++ unsignedInvite.sealedKeyHex ++
  "\",\"signature_hex\":\"" ++ sentInvite.signatureHex ++ "\"\x7d"

/-- The signature of a key over a message: the listed one, and any other for other messages. -/
def inviteSignatureOf (pk : Key) (msg : Bytes) : { b : Bytes // b.length = 64 } :=
  if pk = nodePublic ∧ msg = inviteMessage then inviteSignature else ⟨List.replicate 64 3, rfl⟩

/-- The functions where they are listed. -/
@[reducible] noncomputable def sharer : Crates :=
  { standIn (tableDigest []) with
    publicKey := fun sk => if sk = nodeKey then nodePublic else sk.bytes
    ed25519Sign := fun sk msg =>
      inviteSignatureOf (if sk = nodeKey then nodePublic else sk.bytes) msg
    ed25519Verify := fun pk msg sig => decide (sig = (inviteSignatureOf pk msg).val)
    aeadEncrypt := fun key nonce msg aad =>
      if key.val = List.replicate 32 0 ∧ nonce = List.replicate 24 0 ∧ msg = sampleKey.val ∧ aad = inviteAad
      then .ok inviteSealed else .error "unlisted"
    aeadDecrypt := fun key nonce ct aad =>
      if key.val = List.replicate 32 0 ∧ nonce = List.replicate 24 0 ∧ ct = inviteSealed ∧ aad = inviteAad
      then .ok sampleKey.val else .error "aead::Error"
    objectToVec := printObject (inviteFields unsignedInvite).sorted unsignedInviteText
    configJson := .ofPrinter (printOr sharedConfig sharedConfigText) }

attribute [local instance] sharer

instance countableInviteRole : Countable InviteRole :=
  countable_of InviteRole.asStr (by rintro ⟨⟩ ⟨⟩ h <;> first | rfl | exact absurd h (by decide))

instance countableInvite : Countable Invite :=
  countable_of (fun i => ((i.protocolVersion, i.vaultIdHex, i.vaultName, i.encryptionEnabled,
    i.minReplicas, i.configSeq, i.members), (i.role, i.issuer, i.createdAt, i.expiresAt,
    i.inviteSecretHex, i.sealedKeyHex, i.signatureHex)))
    (by rintro ⟨⟩ ⟨⟩ h; simpa [and_assoc] using h)

/-- The JSON of invites: the listed text, and a text of its own for every other invite. -/
@[reducible] noncomputable def listedInvites : InviteText where
  toVec inv := Text.toUtf8 (printOr sentInvite sentInviteText inv)
  fromSlice b := match Text.fromUtf8 b with
    | some s => (SerdeJson.ofPrinter (printOr sentInvite sentInviteText)).fromStr s
    | none => .error "invalid UTF-8"
  base64Complaint _ := "Invalid padding"

attribute [local instance] listedInvites

theorem sharer_aead : AeadCorrect where
  opens key nonce msg aad ct h := by
    change (if _ then _ else _) = _ at h
    split at h
    next heq =>
      obtain ⟨hkey, rfl, rfl, rfl⟩ := heq
      obtain rfl := Except.ok.inj h
      exact if_pos ⟨hkey, rfl, rfl, rfl⟩
    next => cases h
  tag key nonce msg aad ct h := by
    change (if _ then _ else _) = _ at h
    split at h
    next heq =>
      obtain ⟨-, -, rfl, -⟩ := heq
      obtain rfl := Except.ok.inj h
      rfl
    next => cases h

theorem sharer_configJson : Crates.configJson.RoundTrip := by
  have hlines : '\n' ∈ sharedConfigText.toList := by
    unfold sharedConfigText
    simp only [String.toList_append, List.mem_append]
    decide +kernel
  exact SerdeJson.ofPrinter_roundTrip (printOr_injective (by decide) hlines)

theorem sharer_object : JsonInjective := by
  intro a b _ _ h
  have htext : ':' ∈ unsignedInviteText.toList := by
    unfold unsignedInviteText
    simp only [String.toList_append, List.mem_append]
    decide +kernel
  exact printOr_injective (by decide) htext (Text.toUtf8_injective h)

theorem listedInvites_roundTrip : InviteText.RoundTrip := by
  have htext : ':' ∈ sentInviteText.toList := by
    unfold sentInviteText
    simp only [String.toList_append, List.mem_append]
    decide +kernel
  intro inv
  show (match Text.fromUtf8 (Text.toUtf8 (printOr sentInvite sentInviteText inv)) with
    | some s => (SerdeJson.ofPrinter (printOr sentInvite sentInviteText)).fromStr s
    | none => _) = _
  rw [Text.fromUtf8_toUtf8]
  exact SerdeJson.ofPrinter_roundTrip (printOr_injective (by decide) htext) inv

theorem inviteSignPreimage_unsigned : inviteSignPreimage unsignedInvite = .ok inviteMessage := by
  have hvec : Crates.objectToVec (inviteFields unsignedInvite).sorted =
      Text.toUtf8 unsignedInviteText := by
    show Text.toUtf8 (printOr (inviteFields unsignedInvite).sorted unsignedInviteText _) = _
    exact congrArg _ (if_pos rfl)
  refine frame_ok_iff.2 ⟨?_, ?_⟩
  · rw [hvec]
    rfl
  · rw [hvec]
    unfold unsignedInviteText
    -- the length is added up literal by literal
    simp only [Text.toUtf8_append, List.length_append]
    decide +kernel

/-- The node key signs the message with the listed signature. -/
theorem sign_inviteMessage : Crates.ed25519Sign nodeKey inviteMessage = inviteSignature := by
  show inviteSignatureOf (if nodeKey = nodeKey then nodePublic else _) inviteMessage = _
  rw [if_pos rfl]
  exact if_pos ⟨rfl, rfl⟩

/-- The owner generates the invite. -/
theorem run_generateInvite : (run (quiet 1700000000) (generateInvite sharedVault nodeKey .write none)
    (World.boot ∅)).1 = .ok sentInvite := by
  set secret : { b : Bytes // b.length = 32 } := ⟨List.replicate 32 0, List.length_replicate⟩
    with hsecret
  have hseal : ∀ w, ∃ w', run (quiet 1700000000) (sharedVault.sealInviteKey secret) w =
      (.ok unsignedInvite.sealedKeyHex, w') := by
    intro w
    have hct : Crates.aeadEncrypt secret (List.replicate 24 0) sampleKey.val inviteAad =
        .ok inviteSealed := if_pos ⟨rfl, rfl, rfl, rfl⟩
    have hwrap : run (quiet 1700000000) (wrapKey sampleKey secret inviteAad) w =
        (.ok (List.replicate 24 0 ++ inviteSealed), w.asked) := by
      unfold wrapKey
      refine (run_bind_ok (a := ⟨List.replicate 24 0, List.length_replicate⟩) (v := w.asked) rfl).trans ?_
      exact (run_compute_ok (crypto_ok_iff.2 hct)).trans rfl
    unfold Vault.sealInviteKey
    rw [if_pos (show sharedVault.config.encryptionEnabled = true from rfl)]
    exact ⟨w.asked, (run_bind_ok hwrap).trans rfl⟩
  obtain ⟨w', hsealed⟩ := hseal (World.boot ∅).asked.asked
  have hissuer : Crates.publicKeyText (Crates.publicKey nodeKey) = nodeText := by
    show String.ofList (Text.hexEncode (if nodeKey = nodeKey then nodePublic else _).val) = _
    rw [if_pos rfl]
    rfl
  unfold generateInvite
  rw [run_bind_ok (a := 1700000000) (v := (World.boot ∅).asked) rfl,
    run_bind_ok (a := secret) (v := (World.boot ∅).asked.asked) rfl, run_bind_ok hsealed, hissuer]
  have hmembers : withMember sharedVault.config.members nodeText = [nodeText] := by
    refine if_neg ?_
    simp [sharedVault, sharedConfig, Text.eqIgnoreAsciiCase_iff]
  have hexpires : saturatingAdd 1700000000 ((none : Option UInt64).getD defaultTtlSecs) =
      1700604800 := by decide
  dsimp only
  rw [hmembers, hexpires]
  show (run _ (do
    let msg ← (inviteSignPreimage unsignedInvite : Res Bytes)
    return { unsignedInvite with
      signatureHex := String.ofList (Text.hexEncode (Crates.ed25519Sign nodeKey msg).val) } :
        Action Invite) w').1 = _
  rw [inviteSignPreimage_unsigned]
  show Except.ok { unsignedInvite with
    signatureHex := String.ofList (Text.hexEncode (Crates.ed25519Sign nodeKey inviteMessage).val) } = _
  rw [sign_inviteMessage]
  rfl

/-- The invite with a lower replica count, under the same signature. -/
def alteredInvite : Invite := { sentInvite with minReplicas := 1 }

/-- Its token is refused, and leaves nothing. -/
theorem altered_invite_refused :
    (∃ e, (run (quiet 1700000000) (joinInvite "/home" "/second" alteredInvite.toToken none)
      (World.boot ∅)).1 = .error e) ∧
    (run (quiet 1700000000) (joinInvite "/home" "/second" alteredInvite.toToken none)
      (World.boot ∅)).2.fs = ∅ := by
  have htoken := fromToken_toToken listedInvites_roundTrip alteredInvite
  have hapart : ∀ inv', Invite.fromToken alteredInvite.toToken = .ok inv' →
      SignsApart nodeKey sentInvite inv' := by
    intro inv' _ pk msg msg' hmsg _ _ hver
    have hpreimage : inviteSignPreimage sentInvite = .ok inviteMessage := by
      have hfields : inviteFields sentInvite = inviteFields unsignedInvite := by
        simp only [inviteFields, sentInvite]
      have h := inviteSignPreimage_unsigned
      unfold inviteSignPreimage at h ⊢
      rw [hfields, h]
    obtain rfl := Except.ok.inj (hpreimage.symm.trans hmsg)
    -- the listed signature is that of the listed message, and of no other one
    by_contra hne
    have hother : inviteSignatureOf pk msg' = ⟨List.replicate 64 3, rfl⟩ := if_neg fun h => hne h.2
    have hsame : (Crates.ed25519Sign nodeKey inviteMessage).val = (inviteSignatureOf pk msg').val :=
      of_decide_eq_true hver
    rw [sign_inviteMessage, hother] at hsame
    exact absurd hsame (by decide)
  obtain ⟨herr, hok⟩ := joins_only_as_signed sharer_aead sharer_configJson sharer_object
    run_generateInvite "/home" "/second" alteredInvite.toToken none hapart
  cases hrun : (run (quiet 1700000000) (joinInvite "/home" "/second" alteredInvite.toToken none)
      (World.boot ∅)).1 with
  | error e => exact ⟨⟨e, rfl⟩, herr e hrun⟩
  | ok v' =>
    obtain ⟨inv', _, _, _, hinv', -, -, -, -, hsame⟩ := hok v' hrun
    obtain rfl := Except.ok.inj (htoken.symm.trans hinv')
    -- the signature is the one that was made, so the counts would agree
    have hsig : inviteSigBytes alteredInvite = inviteSigBytes sentInvite := by
      simp only [inviteSigBytes, alteredInvite]
    have hcount : (1 : UInt8) = 2 := congrArg Invite.minReplicas (hsame hsig)
    exact absurd hcount (by decide)

end Sample

end Soal

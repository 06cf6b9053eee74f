import PrivatePayments.Sdk.Ingest

/-! `stellar/src/signer.rs`: signing a prepared transaction.  The signatures of the authorization
entries are made in one pass, put into the entries in a second, and the entries into the decoded
envelope in a third. -/
namespace PrivatePayments.Sdk.Signer
open Contracts List

/-- The `ScVal` in the place of a signature: nothing, a vector of maps, or something else. -/
inductive SignatureVal where
  | void
  | vec (maps : List (List (String × Bytes)))
  | other (xdr : Bytes)
deriving DecidableEq

structure SorobanAddressCredentials where
  address : ScAddress
  nonce : Int
  signatureExpirationLedger : Nat
  signature : SignatureVal

inductive SorobanCredentials where
  | sourceAccount
  | address (creds : SorobanAddressCredentials)

/-- What signing does not look into is kept as XDR. -/
structure SorobanAuthorizationEntry where
  credentials : SorobanCredentials
  rootInvocation : Bytes

inductive OperationBody where
  | invokeHostFunction (hostFunction : Bytes) (auth : List SorobanAuthorizationEntry)
  | other (xdr : Bytes)

structure Operation where
  sourceAccount : Bytes
  body : OperationBody

structure DecoratedSignature where
  hint : Bytes
  signature : Bytes

structure TransactionV1Envelope where
  operations : List Operation
  /-- Source account, fee, sequence number, conditions, memo and resources. -/
  fields : Bytes
  signatures : List DecoratedSignature

inductive TransactionEnvelope where
  | tx (v1 : TransactionV1Envelope)
  | other (xdr : Bytes)

structure HashIdPreimage where
  networkId : Bytes
  nonce : Int
  signatureExpirationLedger : Nat
  invocation : Bytes

structure AuthSignStep where
  entryIndex : Nat
  preimage : HashIdPreimage

structure PreparedSorobanTx where
  txXdr : Text
  authEntries : List Text
  latestLedger : Nat

inductive SignError where
  | keyMismatch
  | invalidAuthEntry
  | address (e : ParseError)
  | preimageCredentials
  | encodePreimage
  | invalidUserAddress
  | missingAuthSignature (entryIndex : Nat)
  | signatureCredentials
  | alreadySigned
  | unexpectedAuthSignatures
  | invalidPreparedTx
  | unsupportedEnvelope
  | attachAuth
  | noInvokeHostFunction
  | encodePatchedTx
  | invalidTx
  | hashEnvelope
  | invalidSignerKey
  | attachSignature

structure Platform extends Codec where
  entryFromXdr : Text → Option SorobanAuthorizationEntry
  envelopeFromXdr : Text → Option TransactionEnvelope
  envelopeToXdr : TransactionEnvelope → Option Text
  preimageToXdr : HashIdPreimage → Option Bytes
  sha256 : Bytes → Bytes
  envelopeHash : TransactionEnvelope → Bytes → Option Bytes
  parsePublicKey : Text → Option Bytes
  envelopeFromXdr_of_toXdr : ∀ envelope text, envelopeToXdr envelope = some text → envelopeFromXdr text = some envelope

/-- The signing key is what it signs digests with. -/
structure LocalSigner where
  publicKey : Text
  signDigest : Bytes → Bytes

def orBail {α : Type} (value : Option α) (e : SignError) : Except SignError α :=
  match value with
  | some a => .ok a
  | none => .error e

def bailIf (condition : Prop) [Decidable condition] (e : SignError) : Except SignError Unit :=
  if condition then .error e else .ok ()

section
variable (platform : Platform) (signer : LocalSigner) (prepared : PreparedSorobanTx) (passphrase : Bytes)
  (userAddress : Text)

def LocalSigner.sign (data : Bytes) : Bytes := signer.signDigest (platform.sha256 data)

def LocalSigner.signAuthPreimage (preimage : HashIdPreimage) : Except SignError Bytes := do
  let bytes ← orBail (platform.preimageToXdr preimage) .encodePreimage
  return signer.sign platform bytes

/-- A v1 envelope takes twenty signatures. -/
def LocalSigner.signTransaction (envelope : TransactionEnvelope) : Except SignError TransactionEnvelope := do
  let txHash ← orBail (platform.envelopeHash envelope (platform.sha256 passphrase)) .hashEnvelope
  let publicKey ← orBail (platform.parsePublicKey signer.publicKey) .invalidSignerKey
  match envelope with
  | .tx v1 =>
      let signatures := v1.signatures ++ [⟨publicKey.drop 28, signer.signDigest txHash⟩]
      if signatures.length ≤ 20 then .ok (.tx { v1 with signatures }) else .error .attachSignature
  | .other _ => .error .unsupportedEnvelope

/-- `latest_ledger.saturating_add(AUTH_EXPIRATION_LEDGERS)`. -/
def authExpirationLedger : Nat := min (prepared.latestLedger + 100) (2 ^ 32 - 1)

def needsWalletAuth (entry : SorobanAuthorizationEntry) : Except SignError Bool :=
  match entry.credentials with
  | .sourceAccount => .ok false
  | .address creds =>
      if creds.signature = .void then do
        let text ← (scvalToAddressString platform.toCodec (.address creds.address)).mapError .address
        return decide (text = userAddress)
      else .ok false

def sorobanAuthPreimage (entry : SorobanAuthorizationEntry) (expiration : Nat) : Except SignError HashIdPreimage :=
  match entry.credentials with
  | .sourceAccount => .error .preimageCredentials
  | .address creds => .ok ⟨platform.sha256 passphrase, creds.nonce, expiration, entry.rootInvocation⟩

def authSignStep (entryIndex : Nat) (entry : SorobanAuthorizationEntry) : Except SignError (List AuthSignStep) := do
  let needed ← needsWalletAuth platform userAddress entry
  if needed then
    let preimage ← sorobanAuthPreimage platform passphrase entry (authExpirationLedger prepared)
    return [⟨entryIndex, preimage⟩]
  else return []

def authSignStepsFrom : Nat → List Text → Except SignError (List AuthSignStep)
  | _, [] => .ok []
  | entryIndex, entryB64 :: rest => do
      let entry ← orBail (platform.entryFromXdr entryB64) .invalidAuthEntry
      let step ← authSignStep platform prepared passphrase userAddress entryIndex entry
      let steps ← authSignStepsFrom (entryIndex + 1) rest
      return step ++ steps

def authSignSteps : Except SignError (List AuthSignStep) :=
  authSignStepsFrom platform prepared passphrase userAddress 0 prepared.authEntries

def addressCredentialsSignature (publicKey signature : Bytes) : SignatureVal :=
  .vec [[("public_key", publicKey), ("signature", signature)]]

def applyAddressAuthSignature (entry : SorobanAuthorizationEntry) (publicKey signature : Bytes) (expiration : Nat) :
    Except SignError SorobanAuthorizationEntry :=
  match entry.credentials with
  | .sourceAccount => .error .signatureCredentials
  | .address creds =>
      if creds.signature = .void then
        .ok { entry with credentials := .address { creds with
          signatureExpirationLedger := expiration, signature := addressCredentialsSignature publicKey signature } }
      else .error .alreadySigned

/-- A `BTreeMap` as the list of its entries. -/
abbrev SignatureMap := List (Nat × Bytes)

def SignatureMap.insert (sigs : SignatureMap) (entry : Nat × Bytes) : SignatureMap :=
  sigs.filter (fun other => other.1 ≠ entry.1) ++ [entry]

def SignatureMap.remove (sigs : SignatureMap) (entryIndex : Nat) : SignatureMap :=
  sigs.filter fun other => other.1 ≠ entryIndex

/-- One entry of the second pass: whether it was signed, the signatures left, and the entry. -/
def attachSignature (publicKey : Bytes) (entryIndex : Nat) (entry : SorobanAuthorizationEntry) (sigs : SignatureMap) :
    Except SignError (Bool × SignatureMap × SorobanAuthorizationEntry) := do
  let needed ← needsWalletAuth platform userAddress entry
  if needed then
    let signature ← orBail (sigs.lookup entryIndex) (.missingAuthSignature entryIndex)
    let entry ← applyAddressAuthSignature entry publicKey signature (authExpirationLedger prepared)
    return (true, sigs.remove entryIndex, entry)
  else return (false, sigs, entry)

def attachSignaturesFrom (publicKey : Bytes) : Nat → List Text → SignatureMap →
    Except SignError (Bool × SignatureMap × List SorobanAuthorizationEntry)
  | _, [], sigs => .ok (false, sigs, [])
  | entryIndex, entryB64 :: rest, sigs => do
      let entry ← orBail (platform.entryFromXdr entryB64) .invalidAuthEntry
      let (signed, sigs, entry) ← attachSignature platform prepared userAddress publicKey entryIndex entry sigs
      let (needsPatch, sigs, signedAuth) ← attachSignaturesFrom publicKey (entryIndex + 1) rest sigs
      return (signed || needsPatch, sigs, entry :: signedAuth)

/-- The first host function gets the entries; there are fewer than `2 ^ 32`. -/
def patchOperations (signedAuth : List SorobanAuthorizationEntry) : List Operation → Except SignError (List Operation)
  | [] => .error .noInvokeHostFunction
  | op :: rest =>
      match op.body with
      | .invokeHostFunction hostFunction _ =>
          if signedAuth.length < 2 ^ 32 then
            .ok ({ op with body := .invokeHostFunction hostFunction signedAuth } :: rest)
          else .error .attachAuth
      | .other _ => do
          let rest ← patchOperations signedAuth rest
          return op :: rest

def patchAuthEntries (signedAuth : List SorobanAuthorizationEntry) : TransactionEnvelope →
    Except SignError TransactionEnvelope
  | .tx v1 => do
      let operations ← patchOperations signedAuth v1.operations
      return .tx { v1 with operations }
  | .other _ => .error .unsupportedEnvelope

def patchedTx (needsPatch : Bool) (signedAuth : List SorobanAuthorizationEntry) : Except SignError Text :=
  if needsPatch then do
    let envelope ← orBail (platform.envelopeFromXdr prepared.txXdr) .invalidPreparedTx
    let envelope ← patchAuthEntries signedAuth envelope
    orBail (platform.envelopeToXdr envelope) .encodePatchedTx
  else .ok prepared.txXdr

def unsignedTxForSigning (authSignatures : List (Nat × Bytes)) : Except SignError Text := do
  let publicKey ← orBail (platform.parsePublicKey userAddress) .invalidUserAddress
  let sigs := authSignatures.foldl SignatureMap.insert []
  let (needsPatch, sigs, signedAuth) ←
    attachSignaturesFrom platform prepared userAddress publicKey 0 prepared.authEntries sigs
  bailIf (sigs ≠ []) .unexpectedAuthSignatures
  patchedTx platform prepared needsPatch signedAuth

def LocalSigner.signStep (step : AuthSignStep) : Except SignError (Nat × Bytes) := do
  let signature ← signer.signAuthPreimage platform step.preimage
  return (step.entryIndex, signature)

def LocalSigner.signPreparedTransaction : Except SignError TransactionEnvelope := do
  bailIf (signer.publicKey ≠ userAddress) .keyMismatch
  let steps ← authSignSteps platform prepared passphrase userAddress
  let authSignatures ← steps.mapM (signer.signStep platform)
  let txB64 ← unsignedTxForSigning platform prepared userAddress authSignatures
  let envelope ← orBail (platform.envelopeFromXdr txB64) .invalidTx
  signer.signTransaction platform passphrase envelope

def unsignedCreds (entry : SorobanAuthorizationEntry) : Option SorobanAddressCredentials :=
  match entry.credentials with
  | .sourceAccount => none
  | .address creds =>
      if creds.signature = .void ∧
          (scvalToAddressString platform.toCodec (.address creds.address)).toOption = some userAddress then some creds
      else none

def preimageOf (entry : SorobanAuthorizationEntry) (creds : SorobanAddressCredentials) : HashIdPreimage :=
  ⟨platform.sha256 passphrase, creds.nonce, authExpirationLedger prepared, entry.rootInvocation⟩

def stepOf (entry : SorobanAuthorizationEntry × Nat) : Option AuthSignStep :=
  (unsignedCreds platform userAddress entry.1).map fun creds =>
    ⟨entry.2, preimageOf platform prepared passphrase entry.1 creds⟩

/-- An entry of the user gets the signature of its own preimage, and the expiration in it. -/
def SignedAs (publicKey : Bytes) (entry signed : SorobanAuthorizationEntry) : Prop :=
  match unsignedCreds platform userAddress entry with
  | none => signed = entry
  | some creds =>
      ∃ bytes, platform.preimageToXdr (preimageOf platform prepared passphrase entry creds) = some bytes ∧
        signed = { entry with credentials := .address { creds with
          signatureExpirationLedger := authExpirationLedger prepared
          signature := addressCredentialsSignature publicKey (signer.sign platform bytes) } }

end

def firstAuth : List Operation → List SorobanAuthorizationEntry
  | [] => []
  | op :: rest =>
      match op.body with
      | .invokeHostFunction _ auth => auth
      | .other _ => firstAuth rest

/-- Other entries for the first host function, and nothing else. -/
def replaceAuth (signedAuth : List SorobanAuthorizationEntry) : List Operation → List Operation
  | [] => []
  | op :: rest =>
      match op.body with
      | .invokeHostFunction hostFunction _ => { op with body := .invokeHostFunction hostFunction signedAuth } :: rest
      | .other _ => op :: replaceAuth signedAuth rest

def TransactionEnvelope.auth : TransactionEnvelope → List SorobanAuthorizationEntry
  | .tx v1 => firstAuth v1.operations
  | .other _ => []

section
variable {platform : Platform} {signer : LocalSigner} {prepared : PreparedSorobanTx} {passphrase : Bytes}
  {userAddress : Text} {entry : SorobanAuthorizationEntry} {entries : List SorobanAuthorizationEntry}
  {texts : List Text} {i : Nat}

theorem orBail_eq_ok {α : Type} {value : Option α} {e : SignError} {a : α} (h : orBail value e = .ok a) :
    value = some a := by
  cases value with
  | none => cases h
  | some b =>
    cases h
    rfl

variable {needed : Bool}

theorem needsWalletAuth_ok (h : needsWalletAuth platform userAddress entry = .ok needed) :
    needed = (unsignedCreds platform userAddress entry).isSome := by
  unfold needsWalletAuth at h
  unfold unsignedCreds
  cases hcredentials : entry.credentials with
  | sourceAccount =>
    rw [hcredentials] at h
    cases h
    rfl
  | address creds =>
    simp only [hcredentials] at h
    by_cases hvoid : creds.signature = .void
    · rw [if_pos hvoid] at h
      obtain ⟨text, htext, h⟩ := bind_eq_ok h
      cases h
      simp only [hvoid, mapError_eq_ok htext, Except.toOption, true_and, Option.some.injEq]
      by_cases huser : text = userAddress <;> simp [huser]
    · rw [if_neg hvoid] at h
      cases h
      simp [hvoid]

variable {creds : SorobanAddressCredentials}

theorem unsignedCreds_eq_some
    (h : unsignedCreds platform userAddress entry = some creds) :
    entry.credentials = .address creds ∧ creds.signature = .void := by
  unfold unsignedCreds at h
  split at h
  · cases h
  · rename_i hcredentials
    split at h
    · rename_i hunsigned
      cases h
      exact ⟨hcredentials, hunsigned.1⟩
    · cases h

theorem authSignStep_ok {step : List AuthSignStep}
    (h : authSignStep platform prepared passphrase userAddress i entry = .ok step) :
    step = (stepOf platform prepared passphrase userAddress (entry, i)).toList := by
  obtain ⟨needed, hneeded, h⟩ := bind_eq_ok h
  have hsome := needsWalletAuth_ok hneeded
  rw [stepOf]
  cases hcreds : unsignedCreds platform userAddress entry with
  | none =>
    rw [hsome, hcreds] at h
    cases h
    rfl
  | some creds =>
    rw [hsome, hcreds] at h
    obtain ⟨preimage, hpreimage, h⟩ := bind_eq_ok h
    rw [sorobanAuthPreimage, (unsignedCreds_eq_some hcreds).1] at hpreimage
    cases hpreimage
    cases h
    rfl

theorem mapM_cons_eq_some {α β : Type} {f : α → Option β} {a : α} {rest : List α} {result : List β}
    (h : (a :: rest).mapM f = some result) :
    ∃ b others, f a = some b ∧ rest.mapM f = some others ∧ result = b :: others := by
  rw [mapM_cons] at h
  obtain ⟨b, hb, h⟩ := Option.bind_eq_some_iff.mp h
  obtain ⟨others, hothers, h⟩ := Option.bind_eq_some_iff.mp h
  cases h
  exact ⟨b, others, hb, hothers, rfl⟩

theorem authSignStepsFrom_ok {steps : List AuthSignStep} (hentries : texts.mapM platform.entryFromXdr = some entries)
    (h : authSignStepsFrom platform prepared passphrase userAddress i texts = .ok steps) :
    steps = (entries.zipIdx i).filterMap (stepOf platform prepared passphrase userAddress) := by
  induction texts generalizing entries i steps with
  | nil =>
    cases hentries
    cases h
    rfl
  | cons text rest ih =>
    obtain ⟨entry, others, hentry, hothers, rfl⟩ := mapM_cons_eq_some hentries
    obtain ⟨entry', hentry', h⟩ := bind_eq_ok h
    obtain rfl := Option.some.inj (hentry.symm.trans (orBail_eq_ok hentry'))
    obtain ⟨step, hstep, h⟩ := bind_eq_ok h
    obtain ⟨steps', hsteps, h⟩ := bind_eq_ok h
    cases h
    rw [authSignStep_ok hstep, ih hothers hsteps, zipIdx_cons, filterMap_cons]
    cases stepOf platform prepared passphrase userAddress (entry, i) <;> rfl

theorem signatures_sublist {sigs : SignatureMap}
    (h : ((entries.zipIdx i).filterMap (stepOf platform prepared passphrase userAddress)).mapM
      (signer.signStep platform) = .ok sigs) : (sigs.map Prod.fst).Sublist (List.range' i entries.length) := by
  induction entries generalizing i sigs with
  | nil =>
    cases h
    exact .slnil
  | cons entry rest ih =>
    rw [zipIdx_cons, filterMap_cons] at h
    rw [length_cons, range'_succ]
    cases hcreds : unsignedCreds platform userAddress entry with
    | none =>
      simp only [stepOf, hcreds, Option.map_none] at h
      exact (ih h).cons _
    | some creds =>
      simp only [stepOf, hcreds, Option.map_some, mapM_cons] at h
      obtain ⟨sig, hsig, h⟩ := bind_eq_ok h
      obtain ⟨others, hothers, h⟩ := bind_eq_ok h
      obtain ⟨signature, -, hsig⟩ := bind_eq_ok hsig
      cases h
      cases hsig
      exact (ih hothers).cons_cons _

theorem foldl_insert {sigs more : SignatureMap} (h : ((sigs ++ more).map Prod.fst).Nodup) :
    more.foldl SignatureMap.insert sigs = sigs ++ more := by
  induction more generalizing sigs with
  | nil => simp
  | cons entry rest ih =>
    have hinsert : SignatureMap.insert sigs entry = sigs ++ [entry] := by
      rw [SignatureMap.insert, filter_eq_self.mpr]
      intro other hother
      rw [map_append, nodup_append] at h
      simpa using h.2.2 _ (mem_map_of_mem hother) _ mem_cons_self
    rw [foldl_cons, hinsert, ih (by simpa using h), append_assoc, singleton_append]

variable {sigs sigs' : SignatureMap}

variable {signed : SorobanAuthorizationEntry}

variable {publicKey : Bytes}

theorem attachSignature_none
    (hcreds : unsignedCreds platform userAddress entry = none)
    (h : attachSignature platform prepared userAddress publicKey i entry sigs = .ok (needed, sigs', signed)) :
    needed = false ∧ sigs' = sigs ∧ signed = entry := by
  obtain ⟨needed, hneeded, h⟩ := bind_eq_ok h
  rw [needsWalletAuth_ok hneeded, hcreds] at h
  cases h
  exact ⟨rfl, rfl, rfl⟩

theorem attachSignature_some {publicKey signature : Bytes}
    (hcreds : unsignedCreds platform userAddress entry = some creds) (hsigs : ∀ sig ∈ sigs, sig.1 ≠ i)
    (h : attachSignature platform prepared userAddress publicKey i entry ((i, signature) :: sigs) =
      .ok (needed, sigs', signed)) :
    needed = true ∧ sigs' = sigs ∧ signed = { entry with credentials := .address { creds with
      signatureExpirationLedger := authExpirationLedger prepared
      signature := addressCredentialsSignature publicKey signature } } := by
  obtain ⟨hcredentials, hvoid⟩ := unsignedCreds_eq_some hcreds
  obtain ⟨needed, hneeded, h⟩ := bind_eq_ok h
  rw [needsWalletAuth_ok hneeded, hcreds] at h
  obtain ⟨found, hfound, h⟩ := bind_eq_ok h
  obtain ⟨signed', hsigned, h⟩ := bind_eq_ok h
  rw [lookup_cons_self] at hfound
  cases hfound
  rw [applyAddressAuthSignature, hcredentials] at hsigned
  simp only [hvoid, if_true] at hsigned
  cases hsigned
  cases h
  refine ⟨rfl, ?_, rfl⟩
  rw [SignatureMap.remove, filter_cons_of_neg (by simp), filter_eq_self.mpr]
  intro sig hsig
  simpa using hsigs sig hsig

variable {signedAuth : List SorobanAuthorizationEntry}

variable {needsPatch : Bool}

theorem attachSignaturesFrom_ok
    (hentries : texts.mapM platform.entryFromXdr = some entries)
    (hsigs : ((entries.zipIdx i).filterMap (stepOf platform prepared passphrase userAddress)).mapM
      (signer.signStep platform) = .ok sigs)
    (h : attachSignaturesFrom platform prepared userAddress publicKey i texts sigs =
      .ok (needsPatch, sigs', signedAuth)) :
    List.Forall₂ (SignedAs platform signer prepared passphrase userAddress publicKey) entries signedAuth ∧
      (needsPatch = false → signedAuth = entries) := by
  induction texts generalizing entries i sigs sigs' needsPatch signedAuth with
  | nil =>
    cases hentries
    cases h
    exact ⟨.nil, fun _ => rfl⟩
  | cons text rest ih =>
    obtain ⟨entry, others, hentry, hothers, rfl⟩ := mapM_cons_eq_some hentries
    obtain ⟨entry', hentry', h⟩ := bind_eq_ok h
    obtain rfl := Option.some.inj (hentry.symm.trans (orBail_eq_ok hentry'))
    obtain ⟨⟨signed, left, entry'⟩, hattach, h⟩ := bind_eq_ok h
    obtain ⟨⟨patchRest, left', signedRest⟩, hrest, h⟩ := bind_eq_ok h
    cases h
    rw [zipIdx_cons, filterMap_cons] at hsigs
    cases hcreds : unsignedCreds platform userAddress entry with
    | none =>
      simp only [stepOf, hcreds, Option.map_none] at hsigs
      obtain ⟨rfl, rfl, rfl⟩ := attachSignature_none hcreds hattach
      obtain ⟨hall, hsame⟩ := ih hothers hsigs hrest
      refine ⟨.cons ?_ hall, fun hpatch => ?_⟩
      · rw [SignedAs, hcreds]
      · rw [hsame (by simpa using hpatch)]
    | some creds =>
      simp only [stepOf, hcreds, Option.map_some, mapM_cons] at hsigs
      obtain ⟨sig, hsig, hsigs⟩ := bind_eq_ok hsigs
      obtain ⟨sigsRest, hsigsRest, hsigs⟩ := bind_eq_ok hsigs
      obtain ⟨signature, hsignature, hsig⟩ := bind_eq_ok hsig
      obtain ⟨bytes, hbytes, hsignature⟩ := bind_eq_ok hsignature
      cases hsig
      cases hsigs
      cases hsignature
      have hkeys : ∀ sig ∈ sigsRest, sig.1 ≠ i := by
        intro sig hsig
        have hrange := (signatures_sublist hsigsRest).subset (mem_map_of_mem hsig)
        rw [mem_range'_1] at hrange
        omega
      obtain ⟨rfl, rfl, rfl⟩ := attachSignature_some hcreds hkeys hattach
      obtain ⟨hall, -⟩ := ih hothers hsigsRest hrest
      refine ⟨.cons ?_ hall, fun hpatch => ?_⟩
      · rw [SignedAs, hcreds]
        exact ⟨bytes, orBail_eq_ok hbytes, rfl⟩
      · cases hpatch

theorem patchOperations_ok {ops ops' : List Operation}
    (h : patchOperations signedAuth ops = .ok ops') : ops' = replaceAuth signedAuth ops := by
  induction ops generalizing ops' with
  | nil => cases h
  | cons op rest ih =>
    rw [patchOperations] at h
    rw [replaceAuth]
    cases hbody : op.body with
    | invokeHostFunction hostFunction auth =>
      simp only [hbody] at h ⊢
      split at h
      · cases h
        rfl
      · cases h
    | other xdr =>
      simp only [hbody] at h ⊢
      obtain ⟨rest', hrest, h⟩ := bind_eq_ok h
      cases h
      rw [ih hrest]

theorem replaceAuth_firstAuth (ops : List Operation) : replaceAuth (firstAuth ops) ops = ops := by
  induction ops with
  | nil => rfl
  | cons op rest ih =>
    rw [replaceAuth, firstAuth]
    cases hbody : op.body with
    | invokeHostFunction hostFunction auth =>
      obtain ⟨source, body⟩ := op
      cases hbody
      rfl
    | other xdr => rw [ih]

theorem patchedTx_ok {envelope : TransactionEnvelope} {v1 : TransactionV1Envelope} {text : Text}
    (henvelope : platform.envelopeFromXdr prepared.txXdr = some envelope)
    (hsame : needsPatch = false → signedAuth = envelope.auth)
    (h : patchedTx platform prepared needsPatch signedAuth = .ok text)
    (htext : platform.envelopeFromXdr text = some (.tx v1)) :
    ∃ before, envelope = .tx before ∧ v1 = { before with operations := replaceAuth signedAuth before.operations } := by
  cases needsPatch with
  | false =>
    cases h
    obtain rfl := Option.some.inj (henvelope.symm.trans htext)
    refine ⟨v1, rfl, ?_⟩
    rw [hsame rfl, TransactionEnvelope.auth, replaceAuth_firstAuth]
  | true =>
    obtain ⟨decoded, hdecoded, h⟩ := bind_eq_ok h
    obtain rfl := Option.some.inj (henvelope.symm.trans (orBail_eq_ok hdecoded))
    obtain ⟨patched, hpatched, h⟩ := bind_eq_ok h
    have hback := platform.envelopeFromXdr_of_toXdr _ _ (orBail_eq_ok h)
    obtain rfl := Option.some.inj (htext.symm.trans hback)
    cases envelope with
    | other xdr => cases hpatched
    | tx before =>
      obtain ⟨operations, hoperations, hpatched⟩ := bind_eq_ok hpatched
      cases hpatched
      rw [patchOperations_ok hoperations]
      exact ⟨before, rfl, rfl⟩

theorem signTransaction_ok {envelope result : TransactionEnvelope}
    (h : signer.signTransaction platform passphrase envelope = .ok result) :
    ∃ v1 decorated, envelope = .tx v1 ∧ result = .tx { v1 with signatures := v1.signatures ++ [decorated] } := by
  obtain ⟨txHash, -, h⟩ := bind_eq_ok h
  obtain ⟨publicKey, -, h⟩ := bind_eq_ok h
  cases envelope with
  | other xdr => cases h
  | tx v1 =>
    simp only at h
    split at h
    · cases h
      exact ⟨v1, _, rfl, rfl⟩
    · cases h

/-- A signed transaction is the prepared one with one more signature, in which each unsigned entry
of the user is signed by its own step and every other entry is as it was. -/
theorem signing_frame (platform : Platform) (signer : LocalSigner) (prepared : PreparedSorobanTx) (passphrase : Bytes)
    (userAddress : Text) (envelope result : TransactionEnvelope)
    (henvelope : platform.envelopeFromXdr prepared.txXdr = some envelope)
    (hauth : prepared.authEntries.mapM platform.entryFromXdr = some envelope.auth)
    (h : signer.signPreparedTransaction platform prepared passphrase userAddress = .ok result) :
    ∃ v1 publicKey signedAuth decorated, envelope = .tx v1 ∧ platform.parsePublicKey userAddress = some publicKey ∧
      result = .tx { v1 with
        operations := replaceAuth signedAuth v1.operations, signatures := v1.signatures ++ [decorated] } ∧
      authSignSteps platform prepared passphrase userAddress =
        .ok (envelope.auth.zipIdx.filterMap (stepOf platform prepared passphrase userAddress)) ∧
      List.Forall₂ (SignedAs platform signer prepared passphrase userAddress publicKey) envelope.auth signedAuth := by
  obtain ⟨_, -, h⟩ := bind_eq_ok h
  obtain ⟨steps, hsteps, h⟩ := bind_eq_ok h
  obtain ⟨sigs, hsigs, h⟩ := bind_eq_ok h
  obtain ⟨text, htext, h⟩ := bind_eq_ok h
  obtain ⟨unsigned, hunsigned, h⟩ := bind_eq_ok h
  obtain ⟨unsignedV1, decorated, rfl, rfl⟩ := signTransaction_ok h
  have hsteps' := authSignStepsFrom_ok hauth hsteps
  rw [hsteps'] at hsteps hsigs
  obtain ⟨publicKey, hkey, htext⟩ := bind_eq_ok htext
  obtain ⟨⟨needsPatch, left, signedAuth⟩, hattach, htext⟩ := bind_eq_ok htext
  obtain ⟨_, -, htext⟩ := bind_eq_ok htext
  have hnodup := (signatures_sublist hsigs).nodup nodup_range'
  rw [foldl_insert (by simpa using hnodup), nil_append] at hattach
  obtain ⟨hall, hsame⟩ := attachSignaturesFrom_ok hauth hsigs hattach
  obtain ⟨v1, hv1, rfl⟩ := patchedTx_ok henvelope hsame htext (orBail_eq_ok hunsigned)
  exact ⟨v1, publicKey, signedAuth, decorated, hv1, orBail_eq_ok hkey, rfl, hsteps, hall⟩

end

/-! An envelope with an entry of the user between two others. -/

def sampleEntry (signature : SignatureVal) (ledger : Nat) : SorobanAuthorizationEntry :=
  ⟨.address ⟨.account [1], 7, ledger, signature⟩, [2]⟩

def sampleEnvelope (entry : SorobanAuthorizationEntry) (signatures : List DecoratedSignature) : TransactionEnvelope :=
  .tx ⟨[⟨[], .other [3]⟩, ⟨[], .invokeHostFunction [4] [⟨.sourceAccount, [5]⟩, entry, sampleEntry (.other [6]) 0]⟩], [7],
    signatures⟩

def sampleSignedEntry : SorobanAuthorizationEntry := sampleEntry (addressCredentialsSignature [1] [9]) 150

open scoped Classical in
noncomputable def samplePlatform : Platform :=
  { unaryCodec with
    entryFromXdr text := [⟨.sourceAccount, [5]⟩, sampleEntry .void 0, sampleEntry (.other [6]) 0][text.length]?
    envelopeFromXdr text := some (sampleEnvelope (if text = [] then sampleEntry .void 0 else sampleSignedEntry) [])
    envelopeToXdr envelope := if envelope = sampleEnvelope sampleSignedEntry [] then some ['A'] else none
    preimageToXdr preimage := some preimage.invocation
    sha256 bytes := bytes
    envelopeHash _ _ := some []
    parsePublicKey _ := some [1]
    envelopeFromXdr_of_toXdr := by
      intro envelope text h
      split at h
      · cases h
        simp_all
      · cases h }

def samplePrepared : PreparedSorobanTx := ⟨[], [[], ['A'], ['A', 'A']], 50⟩

def sampleSigner : LocalSigner := ⟨[], fun _ => [9]⟩

theorem sample_signed : sampleSigner.signPreparedTransaction samplePlatform samplePrepared [] [] =
    .ok (sampleEnvelope sampleSignedEntry [⟨[], [9]⟩]) := by
  have hpatched : patchAuthEntries (sampleEnvelope sampleSignedEntry []).auth (sampleEnvelope (sampleEntry .void 0) []) =
      .ok (sampleEnvelope sampleSignedEntry []) := rfl
  have hpatch : patchedTx samplePlatform samplePrepared true (sampleEnvelope sampleSignedEntry []).auth = .ok ['A'] := by
    simp [patchedTx, samplePlatform, samplePrepared, orBail, hpatched, ok_bind]
  have hunsigned : unsignedTxForSigning samplePlatform samplePrepared [] [(1, [9])] = .ok ['A'] := hpatch
  change (do
    let txB64 ← unsignedTxForSigning samplePlatform samplePrepared [] [(1, [9])]
    let envelope ← orBail (samplePlatform.envelopeFromXdr txB64) .invalidTx
    sampleSigner.signTransaction samplePlatform [] envelope) = _
  rw [hunsigned]
  rfl

theorem signing_frame_sample : ∃ signedAuth,
    List.Forall₂ (SignedAs samplePlatform sampleSigner samplePrepared [] [] [1])
      (sampleEnvelope (sampleEntry .void 0) []).auth signedAuth := by
  obtain ⟨v1, publicKey, signedAuth, decorated, -, hkey, -, -, hall⟩ :=
    signing_frame samplePlatform sampleSigner samplePrepared [] [] (sampleEnvelope (sampleEntry .void 0) []) _ rfl rfl
      sample_signed
  cases hkey
  exact ⟨signedAuth, hall⟩

end PrivatePayments.Sdk.Signer

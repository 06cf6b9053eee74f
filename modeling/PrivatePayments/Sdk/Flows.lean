import PrivatePayments.Sdk.SorobanEncode
import PrivatePayments.Sdk.Transact

/-! `prover/src/flows.rs`: from the notes and proofs of a transaction to the inputs of
the circuit, the encrypted outputs and the values for the contract.

A text in hexadecimal stands for the field element that the circuit reads from it, see
`Witness.stringInput_scalarToHex`.
What the random generator gives is a parameter, and so is the sealed box of
`crypto_box`: the recipient's public key, 32 random bytes for the ephemeral key, the
nonce and the plaintext give the ephemeral public key and the ciphertext with its tag. -/
namespace PrivatePayments.Sdk
open Contracts List PrivatePayments.System

/-- `types::ExtAmount` is an `i128`. -/
structure FlowParams extends TransactParams where
  extAmount_range : -2 ^ 127 ≤ extAmount ∧ extAmount < 2 ^ 127

def FlowParams.ext (params : FlowParams) : I128 := ⟨params.extAmount, params.extAmount_range⟩

inductive FlowError where
  | treeDepthZero
  | smtDepthZero
  | membershipPathLength (expected got : Nat)
  | siblingsLength (expected got : Nat)
  | tooManyOutputs (got : Nat)
  | inputSumOverflow
  | outputSumOverflow
  | lhsOverflow
  | negationOverflow
  | rhsOverflow
  | notBalanced (inputs : Nat) (extAmount : Int) (outputs : Nat)
  | tooManyInputs (got : Nat)
  | inputPathLength (slot expected got : Nat)
  | recipientKeys (slot : Nat)
  | amount (e : AmountError)
  | random
  | encryption
  | extData (e : EncodeError)

abbrev Nonce := { bytes : Bytes // bytes.length = 24 }

abbrev SealBox := Bytes → Bytes → Bytes → Bytes → Option (Bytes × Bytes)

/-- What the random generator gives to one call, slot by slot. -/
structure Draws where
  inputBlinding : Nat → Option Bytes
  outputBlinding : Nat → Option Bytes
  ephemeral : Nat → Option Bytes
  nonce : Nat → Option Nonce

/-- Signals by name, one entry of each list per slot. -/
structure CircuitInputs where
  root : F
  publicAmount : F
  inputNullifier : List F
  outputCommitment : List F
  inAmount : List F
  inPrivateKey : List F
  inBlinding : List F
  inPathIndices : List F
  inPathElements : List F
  outAmount : List F
  outPubkey : List F
  outBlinding : List F
  membershipRoots : List F
  nonMembershipRoots : List F
  membershipProofs : List AspMembershipProof
  nonMembershipProofs : List AspNonMembershipProof
  extDataHash : F

structure PreparedTx where
  poolRoot : F
  inputNullifiers : List F
  outputCommitments : List F
  publicAmountField : F
  extDataHashBe : Bytes
  aspMembershipRoot : F
  aspNonMembershipRoot : F

structure TransactArtifacts where
  circuitInputs : CircuitInputs
  extData : ExtData
  prepared : PreparedTx

def ensure (condition : Prop) [Decidable condition] (e : FlowError) : Except FlowError Unit :=
  if condition then .ok () else .error e

def someOr {α : Type} (e : FlowError) : Option α → Except FlowError α
  | some a => .ok a
  | none => .error e

def sumNoteAmounts (overflow : FlowError) (amounts : List Nat) : Except FlowError Nat :=
  amounts.foldlM (fun sum amount => someOr overflow (checkedAdd 128 sum amount)) 0

def sumNoteAmountsInputs (inputs : List TransactInputNote) : Except FlowError Nat :=
  sumNoteAmounts .inputSumOverflow (inputs.map (·.amount))

def sumNoteAmountsOutputs (outputs : List TransactOutput) : Except FlowError Nat :=
  sumNoteAmounts .outputSumOverflow (outputs.map (·.amount))

def checkBalanced (inputsSum outputsSum : Nat) (extAmount : I128) : Except FlowError Unit :=
  let unbalanced := FlowError.notBalanced inputsSum extAmount.1 outputsSum
  if extAmount.1 ≥ 0 then do
    let lhs ← someOr .lhsOverflow (checkedAdd 128 inputsSum extAmount.1.toNat)
    ensure (lhs = outputsSum) unbalanced
  else do
    ensure (extAmount.1 ≠ -2 ^ 127) .negationOverflow
    let rhs ← someOr .rhsOverflow (checkedAdd 128 outputsSum (-extAmount.1).toNat)
    ensure (inputsSum = rhs) unbalanced

/-! The hashes of `prover/src/crypto.rs`. -/

section
variable (P : Permutation)

def derivePublicKey (privateKey : Key) : Key :=
  ⟨toLeBytes (Circuits.keypair P (fromLeBytesModOrder privateKey.1)), by simp [toLeBytes]⟩

def computeCommitment (amount : F) (publicKey : Key) (blinding : F) : F :=
  hash3 P amount (fromLeBytesModOrder publicKey.1) blinding 1

def computeSignature (privateKey : Key) (commitment merklePath : F) : F :=
  hash3 P (fromLeBytesModOrder privateKey.1) commitment merklePath 4

def computeNullifier (commitment merklePath signature : F) : F :=
  hash3 P commitment merklePath signature 2

end

def generateRandomBlinding (drawn : Option Bytes) : Except FlowError F :=
  someOr .random (drawn.map fromLeBytesModOrder)

def nInputs : Nat := 2

def nOutputs : Nat := 2

def dummyInput (drawn : Option Bytes) (treeDepth : Nat) : Except FlowError TransactInputNote := do
  let blinding ← generateRandomBlinding drawn
  return { amount := 0, blinding, merklePathElements := List.replicate treeDepth 0, merklePathIndices := 0 }

def dummyOutput (drawn : Option Bytes) : Except FlowError TransactOutput := do
  let blinding ← generateRandomBlinding drawn
  return { amount := 0, blinding, recipientNotePubkey := none, recipientEncryptionPubkey := none }

def padTo {α : Type} (width : Nat) (slots : List α) (dummy : Nat → Except FlowError α) :
    Except FlowError (List α) := do
  let dummies ← (List.range' slots.length (width - slots.length)).mapM dummy
  return slots ++ dummies

def checkInputPaths (treeDepth : Nat) (slots : List TransactInputNote) : Except FlowError Unit :=
  slots.zipIdx.forM fun slot => ensure (slot.1.merklePathElements.length = treeDepth)
    (.inputPathLength slot.2 treeDepth slot.1.merklePathElements.length)

def checkRecipients (slots : List TransactOutput) : Except FlowError Unit :=
  slots.zipIdx.forM fun slot => ensure
    (slot.1.recipientNotePubkey.isSome = slot.1.recipientEncryptionPubkey.isSome) (.recipientKeys slot.2)

section
variable (sealing : SealBox) (draws : Draws)

def encryptNoteData (slot : Nat) (recipientPubkey : Key) (plaintext : Bytes) :
    Except FlowError Bytes := do
  let ephemeral ← someOr .random (draws.ephemeral slot)
  let nonce ← someOr .random (draws.nonce slot)
  let sealed ← someOr .encryption (sealing recipientPubkey.1 ephemeral nonce.1 plaintext)
  return sealed.1 ++ nonce.1 ++ sealed.2

def encryptOutputNote (slot : Nat) (recipientPubkey : Key) (amount : Nat) (blinding : F) :
    Except FlowError Bytes :=
  encryptNoteData sealing draws slot recipientPubkey (toLittleEndian 16 amount ++ toLeBytes blinding)

end

section
variable (P : Permutation)

def inputNullifier (privKey : Key) (input : TransactInputNote) : F :=
  let commitment := computeCommitment P (input.amount : F) (derivePublicKey P privKey) input.blinding
  let signature := computeSignature P privKey commitment input.merklePathIndices
  computeNullifier P commitment input.merklePathIndices signature

section
variable (params : TransactParams)

/-- Outputs without a recipient go back to the sender. -/
def recipientNotePubkey (output : TransactOutput) : Key :=
  output.recipientNotePubkey.getD (derivePublicKey P params.privKey)

def recipientEncryptionPubkey (output : TransactOutput) : Key :=
  output.recipientEncryptionPubkey.getD params.encryptionPubkey

def outputCommitment (output : TransactOutput) : F :=
  computeCommitment P (output.amount : F) (recipientNotePubkey P params output) output.blinding

def checkParams : Except FlowError Unit := do
  ensure (params.treeDepth ≠ 0) .treeDepthZero
  ensure (params.smtDepth ≠ 0) .smtDepthZero
  ensure (params.membershipProof.pathElements.length = params.treeDepth)
    (.membershipPathLength params.treeDepth params.membershipProof.pathElements.length)
  ensure (params.nonMembershipProof.siblings.length = params.smtDepth)
    (.siblingsLength params.smtDepth params.nonMembershipProof.siblings.length)
  ensure (params.outputs.length ≤ nOutputs) (.tooManyOutputs params.outputs.length)

def circuitInputs (publicAmount : F) (inputs : List TransactInputNote) (outputs : List TransactOutput)
    (extDataHashBe : Bytes) : CircuitInputs where
  root := params.poolRoot
  publicAmount := publicAmount
  inputNullifier := inputs.map (inputNullifier P params.privKey)
  outputCommitment := outputs.map (outputCommitment P params)
  inAmount := inputs.map fun input => (input.amount : F)
  inPrivateKey := inputs.map fun _ => fromLeBytesModOrder params.privKey.1
  inBlinding := inputs.map (·.blinding)
  inPathIndices := inputs.map (·.merklePathIndices)
  inPathElements := inputs.flatMap (·.merklePathElements)
  outAmount := outputs.map fun output => (output.amount : F)
  outPubkey := outputs.map fun output => fromLeBytesModOrder (recipientNotePubkey P params output).1
  outBlinding := outputs.map (·.blinding)
  membershipRoots := List.replicate nInputs params.membershipProof.root
  nonMembershipRoots := List.replicate nInputs params.nonMembershipProof.root
  membershipProofs := List.replicate nInputs params.membershipProof
  nonMembershipProofs := List.replicate nInputs params.nonMembershipProof
  extDataHash := (fromBigEndian extDataHashBe : Nat)

def preparedTx (publicAmount : F) (inputs : List TransactInputNote) (outputs : List TransactOutput)
    (extDataHashBe : Bytes) : PreparedTx where
  poolRoot := params.poolRoot
  inputNullifiers := inputs.map (inputNullifier P params.privKey)
  outputCommitments := outputs.map (outputCommitment P params)
  publicAmountField := publicAmount
  extDataHashBe := extDataHashBe
  aspMembershipRoot := params.membershipProof.root
  aspNonMembershipRoot := params.nonMembershipProof.root

end

variable (sealing : SealBox) (draws : Draws) (hashExtData : ExtData → Except EncodeError Bytes)

def encryptOutputs (params : TransactParams) (outputs : List TransactOutput) :
    Except FlowError (List Bytes) :=
  outputs.zipIdx.mapM fun slot => encryptOutputNote sealing draws slot.2
    (recipientEncryptionPubkey params slot.1) slot.1.amount slot.1.blinding

def inputSlots (params : TransactParams) : Except FlowError (List TransactInputNote) := do
  ensure (params.inputs.length ≤ nInputs) (.tooManyInputs params.inputs.length)
  let slots ← padTo nInputs params.inputs fun slot => dummyInput (draws.inputBlinding slot) params.treeDepth
  checkInputPaths params.treeDepth slots
  return slots

def outputSlots (params : TransactParams) : Except FlowError (List TransactOutput) := do
  let slots ← padTo nOutputs params.outputs fun slot => dummyOutput (draws.outputBlinding slot)
  checkRecipients slots
  return slots

def transact (params : FlowParams) : Except FlowError TransactArtifacts := do
  checkParams params.toTransactParams
  let inputsSum ← sumNoteAmountsInputs params.inputs
  let outputsSum ← sumNoteAmountsOutputs params.outputs
  checkBalanced inputsSum outputsSum params.ext
  let inputs ← inputSlots draws params.toTransactParams
  let outputs ← outputSlots draws params.toTransactParams
  let publicAmount ← (fieldTryFromExtAmount params.ext).mapError .amount
  let encrypted ← encryptOutputs sealing draws params.toTransactParams outputs
  let extData : ExtData :=
    { recipient := params.extRecipient
      extAmount := params.ext
      encryptedOutput0 := encrypted.getD 0 []
      encryptedOutput1 := encrypted.getD 1 [] }
  let extDataHashBe ← (hashExtData extData).mapError .extData
  return {
    circuitInputs := circuitInputs P params.toTransactParams publicAmount inputs outputs extDataHashBe
    extData
    prepared := preparedTx P params.toTransactParams publicAmount inputs outputs extDataHashBe }

end

theorem mapM_eq_ok {α β ε : Type} {f : α → Except ε β} {as : List α} {bs : List β} (h : as.mapM f = .ok bs) :
    bs.length = as.length ∧ ∀ (i : Nat) (a : α), as[i]? = some a → ∃ b, bs[i]? = some b ∧ f a = .ok b := by
  induction as generalizing bs with
  | nil =>
    rw [mapM_nil] at h
    cases h
    simp
  | cons a as ih =>
    rw [mapM_cons] at h
    obtain ⟨b, hb, h⟩ := bind_eq_ok h
    obtain ⟨rest, hrest, h⟩ := bind_eq_ok h
    cases h
    obtain ⟨hlength, hget⟩ := ih hrest
    refine ⟨congrArg (· + 1) hlength, ?_⟩
    rintro (_ | i) a' ha
    · cases ha
      exact ⟨b, rfl, hb⟩
    · exact hget i a' ha

variable {e : FlowError}

@[simp] theorem ensure_eq_ok {condition : Prop} [Decidable condition] {u : Unit} :
    ensure condition e = .ok u ↔ condition := by
  by_cases hc : condition <;> simp [ensure, hc]

variable {α : Type}

@[simp] theorem someOr_eq_ok {a : α} {value : Option α} :
    someOr e value = .ok a ↔ value = some a := by
  cases value <;> simp [someOr]

theorem forM_ensure {condition : α → Prop} [DecidablePred condition] {e : α → FlowError}
    {as : List α} (h : as.forM (fun a => ensure (condition a) (e a)) = .ok ()) : ∀ a ∈ as, condition a := by
  induction as with
  | nil => simp
  | cons a as ih =>
    obtain ⟨u, hu, h⟩ := bind_eq_ok h
    simp only [mem_cons, forall_eq_or_imp]
    exact ⟨ensure_eq_ok.mp hu, ih h⟩

variable {overflow : FlowError} {amounts : List Nat}

theorem sumLoop_eq_ok {start sum : Nat} (hstart : start < 2 ^ 128)
    (h : amounts.foldlM (fun sum amount => someOr overflow (checkedAdd 128 sum amount)) start = .ok sum) :
    sum = start + amounts.sum ∧ sum < 2 ^ 128 := by
  induction amounts generalizing start with
  | nil =>
    cases h
    exact ⟨rfl, hstart⟩
  | cons amount amounts ih =>
    rw [foldlM_cons] at h
    obtain ⟨next, hnext, h⟩ := bind_eq_ok h
    obtain ⟨hlt, rfl⟩ := checkedAdd_eq_some (someOr_eq_ok.mp hnext)
    obtain ⟨hsum, hbound⟩ := ih hlt h
    rw [sum_cons]
    exact ⟨by omega, hbound⟩

theorem sumNoteAmounts_eq_ok {sum : Nat}
    (h : sumNoteAmounts overflow amounts = .ok sum) : sum = amounts.sum ∧ sum < 2 ^ 128 := by
  have hloop := sumLoop_eq_ok (by decide) h
  rwa [Nat.zero_add] at hloop

theorem padTo_eq_ok {width : Nat} {slots padded : List α} {dummy : Nat → Except FlowError α}
    (h : padTo width slots dummy = .ok padded) :
    ∃ dummies, padded = slots ++ dummies ∧ dummies.length = width - slots.length ∧
      ∀ i (hi : i < dummies.length), dummy (slots.length + i) = .ok dummies[i] := by
  obtain ⟨dummies, hdummies, h⟩ := bind_eq_ok h
  cases h
  obtain ⟨hlength, hget⟩ := mapM_eq_ok hdummies
  rw [length_range'] at hlength
  refine ⟨dummies, rfl, hlength, ?_⟩
  intro i hi
  obtain ⟨a, ha, hdummy⟩ := hget i (slots.length + i) (by simp [← hlength, hi])
  rw [getElem?_eq_getElem hi] at ha
  rwa [Option.some.inj ha]

structure Transacted (P : Permutation) (sealing : SealBox) (draws : Draws)
    (hashExtData : ExtData → Except EncodeError Bytes) (params : FlowParams) (artifacts : TransactArtifacts)
    (inputs : List TransactInputNote) (outputs : List TransactOutput) (encrypted : List Bytes) : Prop where
  membershipPath : params.membershipProof.pathElements.length = params.treeDepth
  siblings : params.nonMembershipProof.siblings.length = params.smtDepth
  outputs_le : params.outputs.length ≤ nOutputs
  inputSum : (params.inputs.map (·.amount)).sum < 2 ^ 128
  outputSum : (params.outputs.map (·.amount)).sum < 2 ^ 128
  balanced : (((params.inputs.map (·.amount)).sum : Nat) : Int) + params.extAmount =
    ((params.outputs.map (·.amount)).sum : Nat)
  inputSlots : inputSlots draws params.toTransactParams = .ok inputs
  outputSlots : outputSlots draws params.toTransactParams = .ok outputs
  sealedOutputs : encryptOutputs sealing draws params.toTransactParams outputs = .ok encrypted
  extData : artifacts.extData =
    { recipient := params.extRecipient
      extAmount := params.ext
      encryptedOutput0 := encrypted.getD 0 []
      encryptedOutput1 := encrypted.getD 1 [] }
  hashed : hashExtData artifacts.extData = .ok artifacts.prepared.extDataHashBe
  prepared : artifacts.prepared =
    preparedTx P params.toTransactParams (params.extAmount : F) inputs outputs artifacts.prepared.extDataHashBe
  circuit : artifacts.circuitInputs =
    circuitInputs P params.toTransactParams (params.extAmount : F) inputs outputs artifacts.prepared.extDataHashBe

theorem checkBalanced_eq_ok {inputsSum outputsSum : Nat} {extAmount : I128}
    (h : checkBalanced inputsSum outputsSum extAmount = .ok ()) : (inputsSum : Int) + extAmount.1 = outputsSum := by
  unfold checkBalanced at h
  dsimp only at h
  split at h
  · obtain ⟨lhs, hlhs, h⟩ := bind_eq_ok h
    obtain ⟨-, rfl⟩ := checkedAdd_eq_some (someOr_eq_ok.mp hlhs)
    have hequal := ensure_eq_ok.mp h
    omega
  · obtain ⟨-, -, h⟩ := bind_eq_ok h
    obtain ⟨rhs, hrhs, h⟩ := bind_eq_ok h
    obtain ⟨-, rfl⟩ := checkedAdd_eq_some (someOr_eq_ok.mp hrhs)
    have hequal := ensure_eq_ok.mp h
    omega

variable {draws : Draws}

theorem transact_eq_ok {P : Permutation} {sealing : SealBox}
    {hashExtData : ExtData → Except EncodeError Bytes} {params : FlowParams} {artifacts : TransactArtifacts}
    (h : transact P sealing draws hashExtData params = .ok artifacts) :
    ∃ inputs outputs encrypted, Transacted P sealing draws hashExtData params artifacts inputs outputs encrypted := by
  obtain ⟨_, hparams, h⟩ := bind_eq_ok h
  obtain ⟨inputsSum, hinputs, h⟩ := bind_eq_ok h
  obtain ⟨outputsSum, houtputs, h⟩ := bind_eq_ok h
  obtain ⟨_, hbalanced, h⟩ := bind_eq_ok h
  obtain ⟨inputs, hinputSlots, h⟩ := bind_eq_ok h
  obtain ⟨outputs, houtputSlots, h⟩ := bind_eq_ok h
  obtain ⟨publicAmount, hamount, h⟩ := bind_eq_ok h
  obtain ⟨encrypted, hencrypted, h⟩ := bind_eq_ok h
  obtain ⟨extDataHashBe, hhash, h⟩ := bind_eq_ok h
  cases h
  obtain ⟨_, -, hparams⟩ := bind_eq_ok hparams
  obtain ⟨_, -, hparams⟩ := bind_eq_ok hparams
  obtain ⟨_, hpath, hparams⟩ := bind_eq_ok hparams
  obtain ⟨_, hsiblings, houtputsLe⟩ := bind_eq_ok hparams
  obtain ⟨rfl, hinputSum⟩ := sumNoteAmounts_eq_ok hinputs
  obtain ⟨rfl, houtputSum⟩ := sumNoteAmounts_eq_ok houtputs
  rw [fieldTryFromExtAmount_eq] at hamount
  cases hamount
  exact ⟨inputs, outputs, encrypted,
    { membershipPath := ensure_eq_ok.mp hpath
      siblings := ensure_eq_ok.mp hsiblings
      outputs_le := ensure_eq_ok.mp houtputsLe
      inputSum := hinputSum
      outputSum := houtputSum
      balanced := checkBalanced_eq_ok hbalanced
      inputSlots := hinputSlots
      outputSlots := houtputSlots
      sealedOutputs := hencrypted
      extData := rfl
      hashed := mapError_eq_ok hhash
      prepared := rfl
      circuit := rfl }⟩

variable {input : TransactInputNote}

theorem dummyInput_eq_ok {drawn : Option Bytes} {treeDepth : Nat}
    (h : dummyInput drawn treeDepth = .ok input) :
    ∃ bytes, drawn = some bytes ∧ input =
      { amount := 0
        blinding := fromLeBytesModOrder bytes
        merklePathElements := List.replicate treeDepth 0
        merklePathIndices := 0 } := by
  obtain ⟨blinding, hblinding, h⟩ := bind_eq_ok h
  obtain ⟨bytes, hbytes, rfl⟩ := Option.map_eq_some_iff.mp (someOr_eq_ok.mp hblinding)
  cases h
  exact ⟨bytes, hbytes, rfl⟩

variable {params : TransactParams}

theorem inputSlots_eq_ok {inputs : List TransactInputNote}
    (h : inputSlots draws params = .ok inputs) :
    inputs.length = nInputs ∧ (∀ input ∈ inputs, input.merklePathElements.length = params.treeDepth) ∧
      ∃ dummies, inputs = params.inputs ++ dummies ∧ ∀ i (hi : i < dummies.length),
        dummyInput (draws.inputBlinding (params.inputs.length + i)) params.treeDepth = .ok dummies[i] := by
  obtain ⟨_, hlength, h⟩ := bind_eq_ok h
  obtain ⟨slots, hpad, h⟩ := bind_eq_ok h
  obtain ⟨_, hpaths, h⟩ := bind_eq_ok h
  cases h
  obtain ⟨dummies, rfl, hcount, hdummies⟩ := padTo_eq_ok hpad
  have hle := ensure_eq_ok.mp hlength
  refine ⟨by rw [length_append]; omega, ?_, dummies, rfl, hdummies⟩
  intro input hinput
  obtain ⟨slot, hslot, rfl⟩ := mem_iff_getElem.mp hinput
  exact forM_ensure hpaths _ (mk_mem_zipIdx_iff_getElem?.mpr (getElem?_eq_getElem hslot))

theorem outputSlots_eq_ok {outputs : List TransactOutput}
    (h : outputSlots draws params = .ok outputs) :
    ∃ dummies, outputs = params.outputs ++ dummies ∧ dummies.length = nOutputs - params.outputs.length ∧
      ∀ output ∈ dummies, output.amount = 0 := by
  obtain ⟨slots, hpad, h⟩ := bind_eq_ok h
  obtain ⟨_, -, h⟩ := bind_eq_ok h
  cases h
  obtain ⟨dummies, rfl, hcount, hdummies⟩ := padTo_eq_ok hpad
  refine ⟨dummies, rfl, hcount, ?_⟩
  intro output houtput
  obtain ⟨i, hi, rfl⟩ := mem_iff_getElem.mp houtput
  obtain ⟨blinding, -, hdummy⟩ := bind_eq_ok (hdummies i hi)
  rw [← Except.ok.inj hdummy]

section
variable {P : Permutation} {sealing : SealBox} {cipher : Cipher} {draws : Draws}
  {hashExtData : ExtData → Except EncodeError Bytes}

/-- Decryption with the private key inverts encryption for the public key: an ephemeral key of
32 bytes, and a tag of 16 bytes after the ciphertext. -/
def Opens (sealing : SealBox) (cipher : Cipher) (publicKey privateKey : Key) : Prop :=
  ∀ (ephemeral : Bytes) (nonce : Nonce) (plaintext ephemeralPubkey ciphertext : Bytes),
    sealing publicKey.1 ephemeral nonce.1 plaintext = some (ephemeralPubkey, ciphertext) →
      ephemeralPubkey.length = 32 ∧ ciphertext.length = plaintext.length + 16 ∧
        cipher privateKey.1 ephemeralPubkey nonce.1 ciphertext = some plaintext

variable {publicKey privateKey : Key} {slot : Nat}

theorem decryptNoteData_encryptNoteData {plaintext data : Bytes}
    (hopens : Opens sealing cipher publicKey privateKey) (hlength : plaintext.length = 48)
    (h : encryptNoteData sealing draws slot publicKey plaintext = .ok data) :
    decryptNoteData cipher privateKey data = .ok plaintext := by
  obtain ⟨ephemeral, -, h⟩ := bind_eq_ok h
  obtain ⟨⟨nonce, hnonce⟩, -, h⟩ := bind_eq_ok h
  obtain ⟨⟨ephemeralPubkey, ciphertext⟩, hsealed, h⟩ := bind_eq_ok h
  cases h
  obtain ⟨hephemeral, hciphertext, hcipher⟩ := hopens _ ⟨nonce, hnonce⟩ _ _ _ (someOr_eq_ok.mp hsealed)
  have htotal : (ephemeralPubkey ++ nonce ++ ciphertext).length = 120 := by
    rw [length_append, length_append, hephemeral, hnonce, hciphertext, hlength]
  have hfront : (ephemeralPubkey ++ nonce).length = 56 := by
    rw [length_append, hephemeral, hnonce]
  change decryptNoteData cipher privateKey (ephemeralPubkey ++ nonce ++ ciphertext) = _
  unfold decryptNoteData
  rw [if_neg (by omega)]
  dsimp only
  rw [drop_left' hfront, append_assoc, take_left' hephemeral, drop_left' hephemeral,
    take_left' hnonce, hcipher]
  rfl

theorem decryptOutputNote_encryptOutputNote {slot amount : Nat} {blinding : F}
    {data : Bytes} (hopens : Opens sealing cipher publicKey privateKey) (hamount : amount < 2 ^ 128)
    (h : encryptOutputNote sealing draws slot publicKey amount blinding = .ok data) :
    decryptOutputNote cipher privateKey data = .ok (some (amount, blinding)) := by
  have hfront : (toLittleEndian 16 amount).length = 16 := toLittleEndian_length 16 amount
  have hlength : (toLittleEndian 16 amount ++ toLeBytes blinding).length = 48 := by
    rw [length_append, hfront, toLeBytes, toLittleEndian_length]
  have hne : toLittleEndian 16 amount ++ toLeBytes blinding ≠ [] :=
    ne_nil_of_length_pos (by omega)
  unfold decryptOutputNote
  rw [decryptNoteData_encryptNoteData hopens hlength h, ok_bind, if_neg hne, if_neg (not_not.mpr hlength),
    drop_left' hfront, take_left' hfront, tryFromLeBytes_toLeBytes,
    fromLittleEndian_toLittleEndian hamount]

def ExtData.encryptedOutput (ext : ExtData) : Fin 2 → Bytes := ![ext.encryptedOutput0, ext.encryptedOutput1]

section
variable {params : FlowParams} {artifacts : TransactArtifacts} {inputs : List TransactInputNote}
  {outputs : List TransactOutput} {encrypted : List Bytes}

section
variable (h : Transacted P sealing draws hashExtData params artifacts inputs outputs encrypted)
include h

theorem Transacted.output_lt
    {output : TransactOutput} (houtput : output ∈ params.outputs) : output.amount < 2 ^ 128 :=
  (le_sum_of_mem (mem_map_of_mem houtput)).trans_lt h.outputSum

theorem Transacted.output
    {slot : Fin 2}
    {output : TransactOutput} (houtput : params.outputs[slot.1]? = some output) :
    artifacts.prepared.outputCommitments[slot.1]? = some (outputCommitment P params.toTransactParams output) ∧
      encryptOutputNote sealing draws slot.1 (recipientEncryptionPubkey params.toTransactParams output)
        output.amount output.blinding = .ok (artifacts.extData.encryptedOutput slot) := by
  obtain ⟨dummies, rfl, -, -⟩ := outputSlots_eq_ok h.outputSlots
  obtain ⟨hslot, -⟩ := List.getElem?_eq_some_iff.mp houtput
  have hget : (params.outputs ++ dummies)[slot.1]? = some output := by
    rw [getElem?_append_left hslot, houtput]
  obtain ⟨data, hdata, hencrypt⟩ := (mapM_eq_ok h.sealedOutputs).2 slot.1 (output, slot.1)
    (by rw [getElem?_zipIdx, hget, Nat.zero_add]; rfl)
  have hpublished : artifacts.extData.encryptedOutput slot = data := by
    rw [ExtData.encryptedOutput, h.extData]
    fin_cases slot <;> exact (congrArg (Option.getD · []) hdata)
  rw [hpublished, h.prepared]
  refine ⟨?_, hencrypt⟩
  rw [preparedTx, getElem?_map, hget]
  rfl

theorem Transacted.nullifier
    (hinput : params.inputs[slot]? = some input) :
    artifacts.prepared.inputNullifiers[slot]? = some (inputNullifier P params.privKey input) := by
  obtain ⟨-, -, dummies, rfl, -⟩ := inputSlots_eq_ok h.inputSlots
  obtain ⟨hslot, -⟩ := List.getElem?_eq_some_iff.mp hinput
  rw [h.prepared, preparedTx, getElem?_map, getElem?_append_left hslot, hinput]
  rfl

end

end

theorem proof_of_contains {depth index : Nat} {leaves : List F} {leaf : F} {tree : MerklePrefixTree}
    (htree : MerklePrefixTree.new P depth leaves = .ok tree) (hleaf : Contains depth leaves index leaf) :
    ∃ path, (tree.build P).proof index = .ok path ∧ path.pathIndices = (index : F) := by
  obtain ⟨hindex, -⟩ := List.getElem?_eq_some_iff.mp hleaf
  rw [length_take, Nat.lt_min] at hindex
  obtain ⟨hpos, hle, rfl⟩ := new_eq_ok htree
  exact ⟨_, build_proof hpos hle (ne_nil_of_length_pos (Nat.zero_lt_of_lt hindex.2)) hindex.1 hindex.2, rfl⟩

/-- The note that its recipient finds in an output has the amount and the blinding factor of the
output, wherever the output is stored, and the nullifier kept with it is the one that spending it
publishes, whichever tree has the output at that index. -/
theorem discovered_nullifier_published {note : NoteKeyPair} {encryption : EncryptionKeyPair}
    (hnote : note.publicKey = derivePublicKey P note.privateKey)
    (hopens : Opens sealing cipher encryption.publicKey encryption.privateKey)
    {params : FlowParams} {artifacts : TransactArtifacts}
    (htransact : transact P sealing draws hashExtData params = .ok artifacts)
    {slot : Fin 2} {output : TransactOutput} (houtput : params.outputs[slot.1]? = some output)
    (hkey : recipientNotePubkey P params.toTransactParams output = note.publicKey)
    (hencryption : recipientEncryptionPubkey params.toTransactParams output = encryption.publicKey)
    (hamount : output.amount ≠ 0) (leafIndex : Nat) :
    ∃ commitment nullifier, artifacts.prepared.outputCommitments[slot.1]? = some commitment ∧
      tryDecryptAndDeriveUserNote P cipher note encryption.privateKey commitment leafIndex
          (artifacts.extData.encryptedOutput slot) =
        .ok (some { amount := output.amount, blinding := output.blinding, expectedNullifier := nullifier }) ∧
      ∀ depth leaves tree, MerklePrefixTree.new P depth leaves = .ok tree →
        Contains depth leaves leafIndex commitment →
        ∃ path, (tree.build P).proof leafIndex = .ok path ∧
          ∀ (draws : Draws) (hashExtData : ExtData → Except EncodeError Bytes) (spending : FlowParams)
            (spent : TransactArtifacts) (input : Nat),
            spending.privKey = note.privateKey →
            spending.inputs[input]? = some
              { amount := output.amount
                blinding := output.blinding
                merklePathElements := path.pathElements
                merklePathIndices := path.pathIndices } →
            transact P sealing draws hashExtData spending = .ok spent →
            spent.prepared.inputNullifiers[input]? = some nullifier := by
  obtain ⟨inputs, outputs, encrypted, hcreated⟩ := transact_eq_ok htransact
  obtain ⟨hcommitment, hencrypt⟩ := hcreated.output houtput
  rw [hencryption] at hencrypt
  have hdecrypt := decryptOutputNote_encryptOutputNote hopens
    (hcreated.output_lt (mem_of_getElem? houtput)) hencrypt
  refine ⟨_, expectedNullifier P note.privateKey (outputCommitment P params.toTransactParams output) leafIndex,
    hcommitment, ?_, ?_⟩
  · rw [tryDecryptAndDeriveUserNote, hdecrypt, ok_bind]
    dsimp only
    rw [if_neg hamount, if_neg (not_not.mpr ?_)]
    rw [outputCommitment, hkey]
    rfl
  · intro depth leaves tree htree hleaf
    obtain ⟨path, hpath, hindices⟩ := proof_of_contains htree hleaf
    refine ⟨path, hpath, ?_⟩
    intro draws' hash' spending spent input hprivate hinput hspend
    obtain ⟨_, _, _, hspent⟩ := transact_eq_ok hspend
    rw [hspent.nullifier hinput, hprivate, inputNullifier, hindices, outputCommitment, hkey, hnote]
    rfl

end

def openSeal : SealBox := fun publicKey _ _ plaintext => some (publicKey, plaintext ++ List.replicate 16 0)

def openCipher : Cipher := fun _ _ _ ciphertext => some (ciphertext.take (ciphertext.length - 16))

theorem openSeal_opens (publicKey privateKey : Key) : Opens openSeal openCipher publicKey privateKey := by
  intro ephemeral nonce plaintext ephemeralPubkey ciphertext h
  cases h
  simp [openCipher, publicKey.2]

def zeroDraws : Draws where
  inputBlinding slot := some [.ofNat slot]
  outputBlinding slot := some [.ofNat slot]
  ephemeral _ := some []
  nonce _ := some ⟨List.replicate 24 0, rfl⟩

def zeroKey : Key := ⟨List.replicate 32 0, length_replicate⟩

def fiveToSelf : TransactOutput where
  amount := 5
  blinding := 7
  recipientNotePubkey := none
  recipientEncryptionPubkey := none

def depositFive : FlowParams where
  privKey := zeroKey
  encryptionPubkey := zeroKey
  poolRoot := 0
  extRecipient := "pool"
  extAmount := 5
  inputs := []
  outputs := [fiveToSelf]
  membershipProof := { leaf := 0, blinding := 0, pathElements := [0], pathIndices := 0, root := 0 }
  nonMembershipProof := { key := 0, oldKey := 0, oldValue := 0, isOld0 := true, siblings := [0], root := 0 }
  treeDepth := 1
  smtDepth := 1
  extAmount_range := by decide

theorem depositFive_ok (P : Permutation) :
    ∃ artifacts, transact P openSeal zeroDraws (fun _ => .ok []) depositFive = .ok artifacts :=
  ⟨_, rfl⟩

def withdrawFive (path : MerkleProof) : FlowParams :=
  { depositFive with
    extAmount := -5
    inputs := [⟨5, 7, path.pathElements, path.pathIndices⟩]
    outputs := []
    extAmount_range := by decide }

theorem withdrawFive_ok (P : Permutation) {path : MerkleProof} {sibling : F} (h : path.pathElements = [sibling]) :
    ∃ artifacts, transact P openSeal zeroDraws (fun _ => .ok []) (withdrawFive path) = .ok artifacts := by
  rw [withdrawFive, h]
  exact ⟨_, rfl⟩

/-- A deposit, and the withdrawal of the note that the recipient finds in it. -/
theorem discovered_nullifier_five : ∃ artifacts commitment nullifier tree path spent,
    transact flatPermutation openSeal zeroDraws (fun _ => .ok []) depositFive = .ok artifacts ∧
      tryDecryptAndDeriveUserNote flatPermutation openCipher
          { privateKey := zeroKey, publicKey := derivePublicKey flatPermutation zeroKey } zeroKey commitment 1
          (artifacts.extData.encryptedOutput 0) =
        .ok (some { amount := 5, blinding := 7, expectedNullifier := nullifier }) ∧
      MerklePrefixTree.new flatPermutation 1 [3, commitment] = .ok tree ∧
      (tree.build flatPermutation).proof 1 = .ok path ∧
      transact flatPermutation openSeal zeroDraws (fun _ => .ok []) (withdrawFive path) = .ok spent ∧
      spent.prepared.inputNullifiers[0]? = some nullifier := by
  obtain ⟨artifacts, hdeposit⟩ := depositFive_ok flatPermutation
  obtain ⟨commitment, nullifier, -, hnote, hspent⟩ := @discovered_nullifier_published flatPermutation openSeal
    openCipher zeroDraws (fun _ => .ok [])
    { privateKey := zeroKey, publicKey := derivePublicKey flatPermutation zeroKey }
    { privateKey := zeroKey, publicKey := zeroKey } rfl (openSeal_opens zeroKey zeroKey) depositFive artifacts
    hdeposit 0 fiveToSelf rfl rfl rfl (by decide) 1
  have hnew := @new_eq flatPermutation 1 [3, commitment] (by decide) (by decide)
  obtain ⟨path, hpath, hspent⟩ := hspent 1 [3, commitment] _ hnew rfl
  obtain ⟨sibling, hsibling⟩ : ∃ sibling, path.pathElements = [sibling] := by
    rw [build_proof (by decide) (by decide) (by simp) (by decide) (by simp)] at hpath
    cases hpath
    exact ⟨_, rfl⟩
  obtain ⟨spent, hspend⟩ := withdrawFive_ok flatPermutation hsibling
  exact ⟨artifacts, commitment, nullifier, _, path, spent, hdeposit, hnote, hnew, hpath, hspend,
    hspent _ _ _ _ 0 rfl rfl hspend⟩

end PrivatePayments.Sdk

import PrivatePayments.Sdk.Hex

/-! `disclosure/src/lib.rs` and `types/src/disclosure.rs`: receipts of selective disclosures, and
how their context is bound to their public inputs.  `sha256` is a parameter. -/
namespace PrivatePayments.Sdk.Disclosure
open Contracts List

/-- A Rust string: its UTF-8 bytes, whose number is a `u64`. -/
abbrev Text := { bytes : Bytes // bytes.length < 2 ^ 64 }

/-! `types/src/disclosure.rs`. -/

structure DisclosureContext where
  network : Text
  poolAddress : Text
  authorityLabel : Text
  authorityIdentityPayloadHex : Text
  purpose : Text
  contextNonce : F
deriving DecidableEq

structure DisclosureCircuitMetadata where
  name : Bytes
  levels : Nat
  nNotes : Nat
  vkHash : Bytes
deriving DecidableEq

@[ext] structure DisclosurePublicInputs where
  roots : List F
  noteCommitments : List F
  extContextHash : F
deriving DecidableEq

structure DisclosureReceipt where
  version : Nat
  circuit : DisclosureCircuitMetadata
  context : DisclosureContext
  publicInputs : DisclosurePublicInputs
  proofCompressedHex : Bytes
  issuedAt : Bytes
deriving DecidableEq

/-- The fields that carry hexadecimal text. -/
inductive HexField where
  | vkHash
  | proofCompressedHex
  | authorityIdentityPayloadHex
deriving DecidableEq

inductive DisclosureError where
  | unsupportedVersion
  | emptyCircuitName
  | zeroLevels
  | zeroNotes
  | expected0x (field : HexField)
  | emptyHexPayload (field : HexField)
  | oddHexLength (field : HexField)
  | expectedLowercase (field : HexField)
  | invalidHex (field : HexField)
  | expectedBytes (field : HexField) (expected got : Nat)
  | emptyNetwork
  | emptyPoolAddress
  | emptyAuthorityLabel
  | emptyPurpose
  | rootsLength
  | noteCommitmentsLength
  | emptyIssuedAt
  | unknownCircuit (name : Bytes)
  | metadataMismatch
  | unknownPublicInput (name : String)
  | verifyingKeyMismatch
  | verifier
deriving DecidableEq

def rejectIf (condition : Prop) [Decidable condition] (e : DisclosureError) : Except DisclosureError Unit :=
  if condition then .error e else .ok ()

def hexDecode : Bytes → Option Bytes
  | [] => some []
  | [_] => none
  | first :: second :: rest => do
      let high ← Hex.toDigit first.toNat
      let low ← Hex.toDigit second.toNat
      let bytes ← hexDecode rest
      return .ofNat (high * 16 + low) :: bytes

def isAsciiUppercase (byte : UInt8) : Bool := 65 ≤ byte.toNat && byte.toNat ≤ 90

def parse0xHex (field : HexField) : Bytes → Except DisclosureError Bytes
  | 48 :: 120 :: hexValue => do
      rejectIf (hexValue = []) (.emptyHexPayload field)
      rejectIf (hexValue.length % 2 ≠ 0) (.oddHexLength field)
      rejectIf (hexValue.any isAsciiUppercase = true) (.expectedLowercase field)
      match hexDecode hexValue with
      | some bytes => .ok bytes
      | none => .error (.invalidHex field)
  | _ => .error (.expected0x field)

def parse0xHexExact (field : HexField) (value : Bytes) (expectedBytes : Nat) : Except DisclosureError Bytes := do
  let bytes ← parse0xHex field value
  rejectIf (bytes.length ≠ expectedBytes) (.expectedBytes field expectedBytes bytes.length)
  return bytes

def DisclosureContext.validate (context : DisclosureContext) : Except DisclosureError Unit := do
  rejectIf (context.network.1 = []) .emptyNetwork
  rejectIf (context.poolAddress.1 = []) .emptyPoolAddress
  rejectIf (context.authorityLabel.1 = []) .emptyAuthorityLabel
  let _ ← parse0xHex .authorityIdentityPayloadHex context.authorityIdentityPayloadHex.1
  rejectIf (context.purpose.1 = []) .emptyPurpose

def DisclosureCircuitMetadata.validate (circuit : DisclosureCircuitMetadata) : Except DisclosureError Unit := do
  rejectIf (circuit.name = []) .emptyCircuitName
  rejectIf (circuit.levels = 0) .zeroLevels
  rejectIf (circuit.nNotes = 0) .zeroNotes
  let _ ← parse0xHexExact .vkHash circuit.vkHash 32
  return ()

def DisclosurePublicInputs.validate (inputs : DisclosurePublicInputs) (nNotes : Nat) :
    Except DisclosureError Unit := do
  rejectIf (inputs.roots.length ≠ nNotes) .rootsLength
  rejectIf (inputs.noteCommitments.length ≠ nNotes) .noteCommitmentsLength

def DisclosureReceipt.proofCompressedBytes (receipt : DisclosureReceipt) : Except DisclosureError Bytes :=
  parse0xHexExact .proofCompressedHex receipt.proofCompressedHex 128

def DisclosureReceipt.validate (receipt : DisclosureReceipt) : Except DisclosureError Unit := do
  rejectIf (receipt.version ≠ 1) .unsupportedVersion
  receipt.circuit.validate
  receipt.context.validate
  receipt.publicInputs.validate receipt.circuit.nNotes
  let _ ← receipt.proofCompressedBytes
  rejectIf (receipt.issuedAt = []) .emptyIssuedAt

/-! `disclosure/src/lib.rs`. -/

inductive PublicInput where
  | roots
  | noteCommitments
  | extContextHash
  | other (name : String)
deriving DecidableEq

structure RegisteredCircuit where
  name : Bytes
  levels : Nat
  nNotes : Nat
  publicInputsOrder : List PublicInput
deriving DecidableEq

def ascii (s : String) : Bytes := Hex.asBytes s.toList

def selectiveDisclosure1 : RegisteredCircuit where
  name := ascii "selectiveDisclosure_1"
  levels := 10
  nNotes := 1
  publicInputsOrder := [.roots, .noteCommitments, .extContextHash]

namespace RegisteredCircuit

def receiptMetadata (circuit : RegisteredCircuit) (vkHash : Bytes) : DisclosureCircuitMetadata where
  name := circuit.name
  levels := circuit.levels
  nNotes := circuit.nNotes
  vkHash

def validateReceipt (circuit : RegisteredCircuit) (receipt : DisclosureReceipt) (expectedVkHash : Bytes) :
    Except DisclosureError Unit := do
  receipt.validate
  let expected := circuit.receiptMetadata expectedVkHash
  expected.validate
  rejectIf (receipt.circuit ≠ expected) .metadataMismatch

def publicInputBytes (receipt : DisclosureReceipt) : PublicInput → Except DisclosureError Bytes
  | .roots => .ok (receipt.publicInputs.roots.flatMap toLeBytes)
  | .noteCommitments => .ok (receipt.publicInputs.noteCommitments.flatMap toLeBytes)
  | .extContextHash => .ok (toLeBytes receipt.publicInputs.extContextHash)
  | .other name => .error (.unknownPublicInput name)

def publicInputsBytes (circuit : RegisteredCircuit) (receipt : DisclosureReceipt) : Except DisclosureError Bytes :=
  circuit.publicInputsOrder.foldlM (fun out name => do
    let bytes ← publicInputBytes receipt name
    return out ++ bytes) []

end RegisteredCircuit

def findCircuit (name : Bytes) : Option RegisteredCircuit :=
  if name = selectiveDisclosure1.name then some selectiveDisclosure1 else none

def validateRegisteredReceipt (receipt : DisclosureReceipt) (expectedVkHash : Bytes) :
    Except DisclosureError RegisteredCircuit :=
  match findCircuit receipt.circuit.name with
  | none => .error (.unknownCircuit receipt.circuit.name)
  | some circuit => do
      circuit.validateReceipt receipt expectedVkHash
      return circuit

def feedStr (s : Text) : Bytes := toLittleEndian 8 s.1.length ++ s.1

def contextMessage (context : DisclosureContext) : Bytes :=
  ascii "disclosure-context-v1" ++ feedStr context.network ++ feedStr context.poolAddress ++
    feedStr context.authorityLabel ++ feedStr context.authorityIdentityPayloadHex ++ feedStr context.purpose ++
    toLeBytes context.contextNonce

section
variable (sha256 : Bytes → Bytes)

def contextHash (message : Bytes) : F := fromLeBytesModOrder (sha256 message)

def deriveExtContextHash (context : DisclosureContext) : Except DisclosureError F := do
  context.validate
  return contextHash sha256 (contextMessage context)

def verifyReceiptContext (receipt : DisclosureReceipt) : Except DisclosureError Bool := do
  let expected ← deriveExtContextHash sha256 receipt.context
  return decide (expected = receipt.publicInputs.extContextHash)

def verifyingKeyHash (vkBytes : Bytes) : Bytes :=
  ascii "0x" ++ (sha256 vkBytes).flatMap fun byte => Hex.asBytes (hexByte byte)

def validateVerifyingKeyHash (vkBytes expectedVkHash : Bytes) : Except DisclosureError Bool := do
  rejectIf (verifyingKeyHash sha256 vkBytes ≠ expectedVkHash) .verifyingKeyMismatch
  return true

/-- `verifyProof` is the verifier of `prover`, for a key, a proof and public inputs. -/
def verifyReceiptProof (verifyProof : Bytes → Bytes → Bytes → Except DisclosureError Bool)
    (receipt : DisclosureReceipt) (vkBytes expectedVkHash : Bytes) : Except DisclosureError Bool := do
  let _ ← validateVerifyingKeyHash sha256 vkBytes expectedVkHash
  let circuit ← validateRegisteredReceipt receipt expectedVkHash
  let proofBytes ← receipt.proofCompressedBytes
  let publicInputs ← circuit.publicInputsBytes receipt
  verifyProof vkBytes proofBytes publicInputs

end

theorem feedStr_append_inj {s t : Text} {rest rest' : Bytes} (h : feedStr s ++ rest = feedStr t ++ rest') :
    s = t ∧ rest = rest' := by
  have hwidth : ∀ n, (toLittleEndian 8 n).length = 8 := fun n => toLittleEndian_length 8 n
  rw [feedStr, feedStr, append_assoc, append_assoc] at h
  obtain ⟨hlength, hbytes⟩ := append_inj h (by rw [hwidth, hwidth])
  have heq : s.1.length = t.1.length := by
    have hread := congrArg fromLittleEndian hlength
    rwa [fromLittleEndian_toLittleEndian s.2, fromLittleEndian_toLittleEndian t.2] at hread
  obtain ⟨hcontent, hrest⟩ := append_inj hbytes heq
  exact ⟨Subtype.ext hcontent, hrest⟩

theorem toLeBytes_injective : Function.Injective toLeBytes := by
  intro x y h
  have hread := congrArg fromLeBytesModOrder h
  rwa [fromLeBytesModOrder_toLeBytes, fromLeBytesModOrder_toLeBytes] at hread

theorem contextMessage_injective : Function.Injective contextMessage := by
  intro context context' h
  simp only [contextMessage, append_assoc] at h
  obtain ⟨-, h⟩ := append_inj h rfl
  obtain ⟨hnetwork, h⟩ := feedStr_append_inj h
  obtain ⟨hpool, h⟩ := feedStr_append_inj h
  obtain ⟨hlabel, h⟩ := feedStr_append_inj h
  obtain ⟨hpayload, h⟩ := feedStr_append_inj h
  obtain ⟨hpurpose, h⟩ := feedStr_append_inj h
  have hnonce := toLeBytes_injective h
  cases context
  cases context'
  simp_all

variable {u : Unit}

theorem rejectIf_eq_ok {condition : Prop} [Decidable condition] {e : DisclosureError}
    (h : rejectIf condition e = .ok u) : ¬condition := by
  intro hcondition
  rw [rejectIf, if_pos hcondition] at h
  cases h

theorem DisclosurePublicInputs.validate_ok {inputs : DisclosurePublicInputs} {nNotes : Nat}
    (h : inputs.validate nNotes = .ok u) : inputs.roots.length = nNotes ∧ inputs.noteCommitments.length = nNotes := by
  obtain ⟨_, hroots, h⟩ := bind_eq_ok h
  exact ⟨not_not.mp (rejectIf_eq_ok hroots), not_not.mp (rejectIf_eq_ok h)⟩

variable {receipt : DisclosureReceipt}

theorem DisclosureReceipt.validate_ok (h : receipt.validate = .ok u) :
    receipt.publicInputs.roots.length = receipt.circuit.nNotes ∧
      receipt.publicInputs.noteCommitments.length = receipt.circuit.nNotes := by
  obtain ⟨_, -, h⟩ := bind_eq_ok h
  obtain ⟨_, -, h⟩ := bind_eq_ok h
  obtain ⟨_, -, h⟩ := bind_eq_ok h
  obtain ⟨_, hinputs, -⟩ := bind_eq_ok h
  exact DisclosurePublicInputs.validate_ok hinputs

variable {circuit : RegisteredCircuit}

theorem findCircuit_eq_some {name : Bytes} (h : findCircuit name = some circuit) :
    circuit = selectiveDisclosure1 := by
  unfold findCircuit at h
  split at h
  · exact (Option.some.inj h).symm
  · cases h

theorem validateRegisteredReceipt_ok {vkHash : Bytes}
    (h : validateRegisteredReceipt receipt vkHash = .ok circuit) :
    circuit = selectiveDisclosure1 ∧ receipt.circuit = selectiveDisclosure1.receiptMetadata vkHash ∧
      ∃ root commitment, receipt.publicInputs.roots = [root] ∧
        receipt.publicInputs.noteCommitments = [commitment] := by
  rw [validateRegisteredReceipt] at h
  cases hfind : findCircuit receipt.circuit.name with
  | none =>
    rw [hfind] at h
    cases h
  | some registered =>
    cases findCircuit_eq_some hfind
    rw [hfind] at h
    obtain ⟨_, hvalidate, h⟩ := bind_eq_ok h
    cases h
    obtain ⟨_, hreceipt, hvalidate⟩ := bind_eq_ok hvalidate
    obtain ⟨_, -, hmetadata⟩ := bind_eq_ok hvalidate
    have hmetadata := not_not.mp (rejectIf_eq_ok hmetadata)
    obtain ⟨hroots, hcommitments⟩ := DisclosureReceipt.validate_ok hreceipt
    rw [hmetadata] at hroots hcommitments
    obtain ⟨root, hroot⟩ := length_eq_one_iff.mp hroots
    obtain ⟨commitment, hcommitment⟩ := length_eq_one_iff.mp hcommitments
    exact ⟨rfl, hmetadata, root, commitment, hroot, hcommitment⟩

theorem publicInputsBytes_eq {root commitment : F}
    (hroots : receipt.publicInputs.roots = [root]) (hcommitments : receipt.publicInputs.noteCommitments = [commitment]) :
    selectiveDisclosure1.publicInputsBytes receipt =
      .ok (toLeBytes root ++ toLeBytes commitment ++ toLeBytes receipt.publicInputs.extContextHash) := by
  rw [RegisteredCircuit.publicInputsBytes]
  simp only [selectiveDisclosure1, foldlM_cons, foldlM_nil, RegisteredCircuit.publicInputBytes, hroots,
    hcommitments, flatMap_singleton, ok_bind, nil_append]
  rfl

theorem length_toLeBytes (x : F) : (toLeBytes x).length = 32 := toLittleEndian_length 32 x.val

theorem verifyReceiptContext_eq_true {sha256 : Bytes → Bytes}
    (h : verifyReceiptContext sha256 receipt = .ok true) :
    receipt.publicInputs.extContextHash = contextHash sha256 (contextMessage receipt.context) := by
  obtain ⟨expected, hexpected, h⟩ := bind_eq_ok h
  obtain ⟨_, -, hexpected⟩ := bind_eq_ok hexpected
  cases hexpected
  exact (of_decide_eq_true (Except.ok.inj h)).symm

/-- Public inputs belong to one context, and their serialization to one list of public inputs. -/
theorem disclosure_not_reusable (sha256 : Bytes → Bytes) (Q : Set Bytes) (hQ : Set.InjOn (contextHash sha256) Q) :
    (∀ receipt receipt' vkHash vkHash' circuit circuit',
      validateRegisteredReceipt receipt vkHash = .ok circuit →
      validateRegisteredReceipt receipt' vkHash' = .ok circuit' →
      verifyReceiptContext sha256 receipt = .ok true → verifyReceiptContext sha256 receipt' = .ok true →
      contextMessage receipt.context ∈ Q → contextMessage receipt'.context ∈ Q →
      receipt.publicInputs = receipt'.publicInputs → receipt.context = receipt'.context) ∧
    ∀ receipt receipt' vkHash vkHash' circuit circuit',
      validateRegisteredReceipt receipt vkHash = .ok circuit →
      validateRegisteredReceipt receipt' vkHash' = .ok circuit' →
      ∃ bytes bytes', circuit.publicInputsBytes receipt = .ok bytes ∧
        circuit'.publicInputsBytes receipt' = .ok bytes' ∧
        (bytes = bytes' → receipt.publicInputs = receipt'.publicInputs) := by
  constructor
  · intro receipt receipt' _ _ _ _ _ _ hcontext hcontext' hmem hmem' hinputs
    have hhash := verifyReceiptContext_eq_true hcontext
    rw [hinputs, verifyReceiptContext_eq_true hcontext'] at hhash
    exact contextMessage_injective (hQ hmem hmem' hhash.symm)
  · intro receipt receipt' vkHash vkHash' circuit circuit' hvalid hvalid'
    obtain ⟨rfl, -, root, commitment, hroot, hcommitment⟩ := validateRegisteredReceipt_ok hvalid
    obtain ⟨rfl, -, root', commitment', hroot', hcommitment'⟩ := validateRegisteredReceipt_ok hvalid'
    refine ⟨_, _, publicInputsBytes_eq hroot hcommitment, publicInputsBytes_eq hroot' hcommitment', ?_⟩
    intro hbytes
    rw [append_assoc, append_assoc] at hbytes
    obtain ⟨hroots, hbytes⟩ := append_inj hbytes (by rw [length_toLeBytes, length_toLeBytes])
    obtain ⟨hcommitments, hhash⟩ := append_inj hbytes (by rw [length_toLeBytes, length_toLeBytes])
    have hroots := toLeBytes_injective hroots
    have hcommitments := toLeBytes_injective hcommitments
    have hhash := toLeBytes_injective hhash
    have hall : receipt.publicInputs.roots = receipt'.publicInputs.roots ∧
        receipt.publicInputs.noteCommitments = receipt'.publicInputs.noteCommitments := by
      rw [hroot, hroot', hcommitment, hcommitment', hroots, hcommitments]
      exact ⟨rfl, rfl⟩
    exact DisclosurePublicInputs.ext hall.1 hall.2 hhash

def countBytes (message : Bytes) : Bytes := toLittleEndian 32 message.length

def sampleContext : DisclosureContext where
  network := ⟨ascii "testnet", by decide +kernel⟩
  poolAddress := ⟨ascii "CAAA", by decide +kernel⟩
  authorityLabel := ⟨ascii "Authority XYZ", by decide +kernel⟩
  authorityIdentityPayloadHex := ⟨ascii "0x6175", by decide +kernel⟩
  purpose := ⟨ascii "kyc-review", by decide +kernel⟩
  contextNonce := 7

def auditContext : DisclosureContext := { sampleContext with purpose := ⟨ascii "audit", by decide +kernel⟩ }

def sampleVkHash : Bytes := ascii "0x" ++ List.replicate 64 49

def sampleReceipt (context : DisclosureContext) : DisclosureReceipt where
  version := 1
  circuit := selectiveDisclosure1.receiptMetadata sampleVkHash
  context
  publicInputs := ⟨[1], [2], contextHash countBytes (contextMessage context)⟩
  proofCompressedHex := ascii "0x" ++ List.replicate 256 97
  issuedAt := ascii "May"

/-- Receipts for one note and two purposes differ in their public inputs, also once serialized. -/
theorem disclosure_not_reusable_sample : ∃ bytes bytes',
    selectiveDisclosure1.publicInputsBytes (sampleReceipt sampleContext) = .ok bytes ∧
      selectiveDisclosure1.publicInputsBytes (sampleReceipt auditContext) = .ok bytes' ∧ bytes ≠ bytes' := by
  have hvalid : ∀ context ∈ [sampleContext, auditContext],
      validateRegisteredReceipt (sampleReceipt context) sampleVkHash = .ok selectiveDisclosure1 ∧
        verifyReceiptContext countBytes (sampleReceipt context) = .ok true := by decide +kernel
  obtain ⟨hreview, hreviewContext⟩ := hvalid sampleContext (by simp)
  obtain ⟨haudit, hauditContext⟩ := hvalid auditContext (by simp)
  have hne : contextHash countBytes (contextMessage sampleContext) ≠
      contextHash countBytes (contextMessage auditContext) := by decide +kernel
  obtain ⟨hsame, hbytes⟩ := disclosure_not_reusable countBytes
    {contextMessage sampleContext, contextMessage auditContext} (Set.injOn_pair.mpr fun heq => absurd heq hne)
  obtain ⟨bytes, bytes', hok, hok', hinputs⟩ := hbytes _ _ _ _ _ _ hreview haudit
  refine ⟨bytes, bytes', hok, hok', fun heq => ?_⟩
  have hcontext := hsame _ _ _ _ _ _ hreview haudit hreviewContext hauditContext (.inl rfl) (.inr rfl) (hinputs heq)
  exact absurd (congrArg DisclosureContext.purpose hcontext) (by decide +kernel)

end PrivatePayments.Sdk.Disclosure

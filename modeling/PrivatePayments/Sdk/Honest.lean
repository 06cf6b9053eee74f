import PrivatePayments.Sdk.Flows

/-! From `flows::transact` through the circuit to the contract: what it builds satisfies
`PolicyTransaction(2, 2, 1, 1, 10, 10)`, and what the contract decodes from the call is the
public side of the same assignment. -/
namespace PrivatePayments.Sdk
open Contracts Circuits
open List hiding Vector
open PrivatePayments.System

/-! The values as signals.  An array is read row by row. -/

def slice (depth : Nat) (values : List F) (start : Nat) : Vector F depth :=
  Vector.ofFn fun i => values.getD (start + i.1) 0

def AspMembershipProof.circuitProof (proof : AspMembershipProof) : MembershipProof 10 where
  leaf := proof.leaf
  blinding := proof.blinding
  pathElements := slice 10 proof.pathElements 0
  pathIndices := proof.pathIndices

def AspNonMembershipProof.wired (proof : AspNonMembershipProof) : NonMembershipProof 10 where
  key := proof.key
  siblings := slice 10 proof.siblings 0
  oldKey := proof.oldKey
  oldValue := proof.oldValue
  isOld0 := if proof.isOld0 then 1 else 0

def CircuitInputs.signals (inputs : CircuitInputs) : Witness where
  root := inputs.root
  publicAmount := inputs.publicAmount
  extDataHash := inputs.extDataHash
  inputNullifier tx := inputs.inputNullifier.getD tx.1 0
  outputCommitment tx := inputs.outputCommitment.getD tx.1 0
  membershipRoots tx _ := inputs.membershipRoots.getD tx.1 0
  nonMembershipRoots tx _ := inputs.nonMembershipRoots.getD tx.1 0
  membershipProofs tx _ :=
    ((inputs.membershipProofs.map AspMembershipProof.circuitProof)[tx.1]?).getD ⟨0, 0, .replicate 10 0, 0⟩
  nonMembershipProofs tx _ :=
    ((inputs.nonMembershipProofs.map AspNonMembershipProof.wired)[tx.1]?).getD ⟨0, .replicate 10 0, 0, 0, 0⟩
  inAmount tx := inputs.inAmount.getD tx.1 0
  inPrivateKey tx := inputs.inPrivateKey.getD tx.1 0
  inBlinding tx := inputs.inBlinding.getD tx.1 0
  inPathIndices tx := inputs.inPathIndices.getD tx.1 0
  inPathElements tx := slice 10 inputs.inPathElements (10 * tx.1)
  outAmount tx := inputs.outAmount.getD tx.1 0
  outPubkey tx := inputs.outPubkey.getD tx.1 0
  outBlinding tx := inputs.outBlinding.getD tx.1 0

/-- Every signal gets as many values as the circuit declares. -/
structure CircuitInputs.Fits (inputs : CircuitInputs) : Prop where
  inputNullifier : inputs.inputNullifier.length = 2
  outputCommitment : inputs.outputCommitment.length = 2
  inAmount : inputs.inAmount.length = 2
  inPrivateKey : inputs.inPrivateKey.length = 2
  inBlinding : inputs.inBlinding.length = 2
  inPathIndices : inputs.inPathIndices.length = 2
  inPathElements : inputs.inPathElements.length = 2 * 10
  outAmount : inputs.outAmount.length = 2
  outPubkey : inputs.outPubkey.length = 2
  outBlinding : inputs.outBlinding.length = 2
  membershipRoots : inputs.membershipRoots.length = 2
  nonMembershipRoots : inputs.nonMembershipRoots.length = 2
  membershipProofs : inputs.membershipProofs.length = 2 ∧
    ∀ proof ∈ inputs.membershipProofs, proof.pathElements.length = 10
  nonMembershipProofs : inputs.nonMembershipProofs.length = 2 ∧
    ∀ proof ∈ inputs.nonMembershipProofs, proof.siblings.length = 10

def PreparedTx.onchain (prepared : PreparedTx) : OnchainProofPublicInputs where
  root := prepared.poolRoot
  inputNullifiers := prepared.inputNullifiers
  outputCommitment0 := prepared.outputCommitments.getD 0 0
  outputCommitment1 := prepared.outputCommitments.getD 1 0
  publicAmount := prepared.publicAmountField
  extDataHashBe := prepared.extDataHashBe
  aspMembershipRoot := prepared.aspMembershipRoot
  aspNonMembershipRoot := prepared.aspNonMembershipRoot

def senderCommitment (P : Permutation) (params : TransactParams) (input : TransactInputNote) : F :=
  computeCommitment P (input.amount : F) (derivePublicKey P params.privKey) input.blinding

/-- Depth ten, paths of the sender's notes to the pool root, and both policy proofs. -/
structure FlowParams.Honest (P : Permutation) (params : FlowParams) : Prop where
  treeDepth : params.treeDepth = 10
  smtDepth : params.smtDepth = 10
  paths : ∀ input ∈ params.inputs, LeadsTo P 10 (senderCommitment P params.toTransactParams input)
    input.merklePathElements input.merklePathIndices params.poolRoot
  leaf : params.membershipProof.leaf =
    hash2 P (keypair P (fromLeBytesModOrder params.privKey.1)) params.membershipProof.blinding 1
  membershipPath : LeadsTo P 10 params.membershipProof.leaf params.membershipProof.pathElements
    params.membershipProof.pathIndices params.membershipProof.root
  nonMembership : ∃ h : params.nonMembershipProof.siblings.length = 10,
    SmtVerifier P (params.nonMembershipProof.signals h)

def FlowParams.NonMemberKey (P : Permutation) (params : FlowParams) : Prop :=
  params.nonMembershipProof.key = keypair P (fromLeBytesModOrder params.privKey.1)

def Draws.blinding (draws : Draws) (slot : Nat) : Option F := (draws.inputBlinding slot).map fromLeBytesModOrder

/-- The real inputs are distinct, and what is drawn for the other slots is new. -/
structure FlowParams.Distinct (params : FlowParams) (draws : Draws) : Prop where
  inputs : params.inputs.Nodup
  drawn : ∀ slot, params.inputs.length ≤ slot → slot < 2 → ∀ input ∈ params.inputs,
    draws.blinding slot ≠ some input.blinding
  both : params.inputs = [] → draws.blinding 0 ≠ draws.blinding 1

theorem slice_toList {n : Nat} (path : Vector F n) (before after : List F) :
    slice n (before ++ path.toList ++ after) before.length = path := by
  ext i hi
  have hlength : i < path.toList.length := by simpa using hi
  rw [slice, Vector.getElem_ofFn, append_assoc, getD_append_right _ _ _ _ (by omega),
    Nat.add_sub_cancel_left, getD_append _ _ _ _ hlength, getD_eq_getElem _ _ hlength,
    Vector.getElem_toList]

theorem slice_path {n : Nat} (path : Vector F n) : slice n path.toList 0 = path := by
  have h := slice_toList path [] []
  rwa [nil_append, append_nil] at h

theorem wired_eq {proof : AspNonMembershipProof} (h : proof.siblings.length = 10) :
    proof.wired = proof.circuitProof h := by
  have hsiblings := slice_path ⟨proof.siblings.toArray, by simpa using h⟩
  rw [AspNonMembershipProof.wired, AspNonMembershipProof.circuitProof, ← hsiblings]
  rfl

/-! The assignment that two input slots and two output slots make. -/

variable {P : Permutation} {params : FlowParams} {a b : TransactInputNote} {c d : TransactOutput}

variable {Q : Set Query}

section Assigned
variable {publicAmount : F} {extDataHashBe : Bytes}

abbrev assigned (P : Permutation) (params : FlowParams) (publicAmount : F) (a b : TransactInputNote)
    (c d : TransactOutput) (extDataHashBe : Bytes) : Witness :=
  (circuitInputs P params.toTransactParams publicAmount [a, b] [c, d] extDataHashBe).signals

theorem assigned_publicKey (tx : Fin 2) :
    (assigned P params publicAmount a b c d extDataHashBe).publicKey P tx =
      keypair P (fromLeBytesModOrder params.privKey.1) := by
  fin_cases tx <;> rfl

variable {w : Witness} (hw : w = assigned P params publicAmount a b c d extDataHashBe)
include hw

theorem assigned_inCommitment (tx : Fin 2) :
    w.inCommitment P tx = senderCommitment P params.toTransactParams (![a, b] tx) := by
  subst hw
  rw [Signals.inCommitment, assigned_publicKey, senderCommitment, computeCommitment, derivePublicKey,
    fromLeBytesModOrder_toLeBytes]
  fin_cases tx <;> rfl

theorem assigned_completed : completed P w = w := by
  have hnullifier : w.inNullifier P = w.inputNullifier := by
    funext tx
    rw [Signals.inNullifier, Signals.inSignature, assigned_inCommitment hw]
    subst hw
    fin_cases tx <;> rfl
  have hcommitment : w.outCommitment P = w.outputCommitment := by
    subst hw
    funext tx
    fin_cases tx <;> rfl
  rw [completed, hnullifier, hcommitment]

structure GoodSlot (P : Permutation) (params : FlowParams) (input : TransactInputNote) : Prop where
  bits : Num2Bits 10 input.merklePathIndices
  length : input.merklePathElements.length = 10
  path : input.amount ≠ 0 → LeadsTo P 10 (senderCommitment P params.toTransactParams input)
    input.merklePathElements input.merklePathIndices params.poolRoot

section
variable (ha : a.merklePathElements.length = 10) (hb : b.merklePathElements.length = 10)
include ha hb

theorem assigned_inPathElements
    (tx : Fin 2) : (w.inPathElements tx).toList = (![a, b] tx).merklePathElements := by
  subst hw
  fin_cases tx
  · have hslice := slice_toList ⟨a.merklePathElements.toArray, by simpa using ha⟩ []
      (b.merklePathElements ++ [])
    exact congrArg Vector.toList hslice
  · have hslice := slice_toList ⟨b.merklePathElements.toArray, by simpa using hb⟩ a.merklePathElements []
    rw [ha, append_assoc] at hslice
    exact congrArg Vector.toList hslice

theorem assigned_inTreeRoot {root : F}
    {tx : Fin 2}
    (h : LeadsTo P 10 (senderCommitment P params.toTransactParams (![a, b] tx)) (![a, b] tx).merklePathElements
      (![a, b] tx).merklePathIndices root) : w.inTreeRoot P tx = root := by
  obtain ⟨-, path, hpath, hroot⟩ := h
  have helements : w.inPathElements tx = path :=
    Vector.toList_inj.mp ((assigned_inPathElements hw ha hb tx).trans hpath.symm)
  have hindices : w.inPathIndices tx = (![a, b] tx).merklePathIndices := by
    subst hw
    fin_cases tx <;> rfl
  rw [Signals.inTreeRoot, assigned_inCommitment hw, helements, hindices, hroot]

end

theorem assigned_checkRoot (hslots : ∀ tx, GoodSlot P params (![a, b] tx)) (tx : Fin 2) :
    ForceEqualIfEnabled (w.inAmount tx) w.root (w.inTreeRoot P tx) := by
  intro hamount
  have hcast : w.inAmount tx = ((![a, b] tx).amount : F) := by
    subst hw
    fin_cases tx <;> rfl
  have hne : (![a, b] tx).amount ≠ 0 := by
    intro hzero
    rw [hcast, hzero, Nat.cast_zero] at hamount
    exact hamount rfl
  rw [assigned_inTreeRoot hw (hslots 0).length (hslots 1).length ((hslots tx).path hne), hw]
  rfl

theorem assigned_policy (hhonest : params.Honest P) (hkey : params.NonMemberKey P) (tx : Fin 2) :
    w.membershipRoot P tx 0 = w.membershipRoots tx 0 ∧
      PolicyProofs P (w.publicKey P tx) (w.nonMembershipRoots tx 0) (w.membershipProofs tx 0)
        (w.nonMembershipProofs tx 0) := by
  obtain ⟨hbits, path, hpath, hroot⟩ := hhonest.membershipPath
  obtain ⟨hsiblings, hverified⟩ := hhonest.nonMembership
  subst hw
  set w := assigned P params publicAmount a b c d extDataHashBe
  have hmember : w.membershipProofs tx 0 = params.membershipProof.circuitProof := by
    fin_cases tx <;> rfl
  have hnonMember : w.nonMembershipProofs tx 0 = params.nonMembershipProof.circuitProof hsiblings := by
    rw [← wired_eq]
    fin_cases tx <;> rfl
  have hnonRoot : w.nonMembershipRoots tx 0 = params.nonMembershipProof.root := by
    fin_cases tx <;> rfl
  have hmemberRoot : w.membershipRoots tx 0 = params.membershipProof.root := by
    fin_cases tx <;> rfl
  have helements : params.membershipProof.circuitProof.pathElements = path := by
    rw [AspMembershipProof.circuitProof, ← hpath, slice_path]
  constructor
  · rw [Signals.membershipRoot, hmember, helements, hmemberRoot]
    exact hroot
  · rw [assigned_publicKey, hmember, hnonMember, hnonRoot]
    refine ⟨hhonest.leaf, hbits, hkey, ?_, hverified⟩
    change Num2Bits 1 (if params.nonMembershipProof.isOld0 then 1 else 0)
    cases params.nonMembershipProof.isOld0 <;> decide

theorem assigned_inNullifier_inj (hQ : CollisionFree P Q) (hcovers : Covers P Q w)
    (heq : w.inNullifier P 0 = w.inNullifier P 1) :
    (a.amount : F) = (b.amount : F) ∧ a.blinding = b.blinding ∧ a.merklePathIndices = b.merklePathIndices := by
  subst hw
  obtain ⟨hcommitment, hindices, -, -⟩ := hQ.hash3_inj (hcovers.nullifier 0) (hcovers.nullifier 1) heq
  obtain ⟨hamount, -, hblinding, -⟩ := hQ.hash3_inj (hcovers.commitment 0) (hcovers.commitment 1) hcommitment
  exact ⟨hamount, hblinding, hindices⟩

theorem assigned_path_inj (hQ : CollisionFree P Q) (hcovers : Covers P Q w)
    (ha : a.merklePathElements.length = 10) (hb : b.merklePathElements.length = 10)
    (hroot : w.inTreeRoot P 0 = w.inTreeRoot P 1)
    (hindices : a.merklePathIndices = b.merklePathIndices) : a.merklePathElements = b.merklePathElements := by
  have hposition : w.inPathIndices 1 = w.inPathIndices 0 := by
    subst hw
    exact hindices.symm
  have hqueries := fun q => hcovers.path 1 (q := q)
  rw [Signals.inTreeRoot, Signals.inTreeRoot, hposition] at hroot
  rw [hposition] at hqueries
  have hpaths := merkleProof_inj hQ (fun q => hcovers.path 0) hqueries hroot
  rwa [assigned_inPathElements hw ha hb, assigned_inPathElements hw ha hb] at hpaths

end Assigned

variable {sealing : SealBox} {draws : Draws} {hashExtData : ExtData → Except EncodeError Bytes}
  {artifacts : TransactArtifacts} {encrypted : List Bytes}

section Honest
variable {inputs : List TransactInputNote} {outputs : List TransactOutput}

section
variable (h : Transacted P sealing draws hashExtData params artifacts inputs outputs encrypted)
include h

theorem Transacted.inputs_eq :
    ∃ a b, inputs = [a, b] := by
  obtain ⟨hlength, -, -⟩ := inputSlots_eq_ok h.inputSlots
  exact length_eq_two.mp hlength

theorem Transacted.outputs_eq :
    ∃ c d, outputs = [c, d] := by
  obtain ⟨dummies, rfl, hlength, -⟩ := outputSlots_eq_ok h.outputSlots
  have htotal : (params.outputs ++ dummies).length = 2 := by
    have hle := h.outputs_le
    rw [nOutputs] at hlength hle
    rw [length_append]
    omega
  exact length_eq_two.mp htotal

theorem Transacted.dummies :
    ∃ dummies, inputs = params.inputs ++ dummies ∧ ∀ i (hi : i < dummies.length),
      draws.blinding (params.inputs.length + i) = some dummies[i].blinding ∧ dummies[i].amount = 0 ∧
        dummies[i].merklePathIndices = 0 := by
  obtain ⟨-, -, dummies, heq, hdummies⟩ := inputSlots_eq_ok h.inputSlots
  refine ⟨dummies, heq, ?_⟩
  intro i hi
  obtain ⟨bytes, hdrawn, hslot⟩ := dummyInput_eq_ok (hdummies i hi)
  rw [hslot, Draws.blinding, hdrawn]
  simp

theorem Transacted.goodSlot
    (hhonest : params.Honest P) {input : TransactInputNote} (hinput : input ∈ inputs) : GoodSlot P params input := by
  have hlength := (inputSlots_eq_ok h.inputSlots).2.1 input hinput
  rw [hhonest.treeDepth] at hlength
  obtain ⟨dummies, rfl, hdummies⟩ := h.dummies
  rcases mem_append.mp hinput with hreal | hdummy
  · have hpath := hhonest.paths input hreal
    exact ⟨hpath.1, hlength, fun _ => hpath⟩
  · obtain ⟨i, hi, rfl⟩ := mem_iff_getElem.mp hdummy
    obtain ⟨-, hamount, hindices⟩ := hdummies i hi
    refine ⟨?_, hlength, fun hne => absurd hamount hne⟩
    rw [hindices]
    decide

theorem Transacted.inputs_sum :
    (inputs.map (·.amount)).sum = (params.inputs.map (·.amount)).sum := by
  obtain ⟨dummies, rfl, hdummies⟩ := h.dummies
  have hzero : (dummies.map (·.amount)).sum = 0 := by
    refine sum_eq_zero fun amount hamount => ?_
    obtain ⟨slot, hslot, rfl⟩ := mem_map.mp hamount
    obtain ⟨i, hi, rfl⟩ := mem_iff_getElem.mp hslot
    exact (hdummies i hi).2.1
  rw [map_append, sum_append, hzero, Nat.add_zero]

theorem Transacted.outputs_sum :
    (outputs.map (·.amount)).sum = (params.outputs.map (·.amount)).sum := by
  obtain ⟨dummies, rfl, -, hdummies⟩ := outputSlots_eq_ok h.outputSlots
  have hzero : (dummies.map (·.amount)).sum = 0 := by
    refine sum_eq_zero fun amount hamount => ?_
    obtain ⟨slot, hslot, rfl⟩ := mem_map.mp hamount
    exact hdummies slot hslot
  rw [map_append, sum_append, hzero, Nat.add_zero]

end


theorem Transacted.amounts
    (h : Transacted P sealing draws hashExtData params artifacts [a, b] [c, d] encrypted) :
    (a.amount : F) + (b.amount : F) + (params.extAmount : F) = (c.amount : F) + (d.amount : F) := by
  have hbalanced := h.balanced
  rw [← h.inputs_sum, ← h.outputs_sum] at hbalanced
  have hfield := congrArg (Int.cast (R := F)) hbalanced
  simpa using hfield

section
variable (h : Transacted P sealing draws hashExtData params artifacts inputs outputs encrypted)
include h

theorem Transacted.outAmount_bits
    {output : TransactOutput} (houtput : output ∈ outputs) : Num2Bits 248 (output.amount : F) := by
  have hle : output.amount ≤ (outputs.map (·.amount)).sum :=
    le_sum_of_mem (mem_map_of_mem houtput)
  have hsum := h.outputSum
  rw [← h.outputs_sum] at hsum
  have hmod : (2 : Nat) ^ 128 ≤ bn256Modulus := by decide
  rw [Num2Bits, val_natCast_of_lt (by omega)]
  omega

theorem Transacted.inAmount_inj
    (ha : a ∈ inputs) (hb : b ∈ inputs) (heq : (a.amount : F) = (b.amount : F)) :
    a.amount = b.amount := by
  have hlea : a.amount ≤ (inputs.map (·.amount)).sum := le_sum_of_mem (mem_map_of_mem ha)
  have hleb : b.amount ≤ (inputs.map (·.amount)).sum := le_sum_of_mem (mem_map_of_mem hb)
  have hsum := h.inputSum
  rw [← h.inputs_sum] at hsum
  have hmod : (2 : Nat) ^ 128 ≤ bn256Modulus := by decide
  rw [← val_natCast_of_lt (show a.amount < bn256Modulus by omega), heq, val_natCast_of_lt (by omega)]

end

section
variable (h : Transacted P sealing draws hashExtData params artifacts [a, b] [c, d] encrypted)
include h

/-- Notes of the sender differ in what is hashed, or in their paths, which one root and one
position determine; a drawn blinding is new. -/
theorem Transacted.inNullifier_ne {publicAmount : F} {extDataHashBe : Bytes} {w : Witness}
    (hw : w = assigned P params publicAmount a b c d extDataHashBe) (hQ : CollisionFree P Q)
    (hhonest : params.Honest P) (hdistinct : params.Distinct draws) (hcovers : Covers P Q w) :
    w.inNullifier P 0 ≠ w.inNullifier P 1 := by
  intro heq
  obtain ⟨hamount, hblinding, hindices⟩ := assigned_inNullifier_inj hw hQ hcovers heq
  obtain ⟨dummies, hslots, hdummies⟩ := h.dummies
  cases hreal : params.inputs with
  | nil =>
    rw [hreal, nil_append] at hslots
    subst hslots
    have hfirst := (hdummies 0 (by simp)).1
    have hsecond := (hdummies 1 (by simp)).1
    rw [hreal] at hfirst hsecond
    exact hdistinct.both hreal (hfirst.trans ((congrArg some hblinding).trans hsecond.symm))
  | cons first rest =>
    cases rest with
    | nil =>
      rw [hreal] at hslots
      obtain ⟨rfl, rfl⟩ := List.cons.inj hslots
      have hsecond := (hdummies 0 (by simp)).1
      rw [hreal] at hsecond
      exact hdistinct.drawn 1 (by simp [hreal]) (by decide) a (by simp [hreal])
        (hsecond.trans (congrArg some hblinding.symm))
    | cons second rest =>
      rw [hreal] at hslots
      obtain ⟨rfl, htail⟩ := List.cons.inj hslots
      obtain ⟨rfl, -⟩ := List.cons.inj htail
      have ha : a ∈ params.inputs := by simp [hreal]
      have hb : b ∈ params.inputs := by simp [hreal]
      have hgooda := h.goodSlot hhonest (show a ∈ [a, b] by simp)
      have hgoodb := h.goodSlot hhonest (show b ∈ [a, b] by simp)
      have hroot : w.inTreeRoot P 0 = w.inTreeRoot P 1 := by
        have hleads : ∀ tx, w.inTreeRoot P tx = params.poolRoot := by
          intro tx
          apply assigned_inTreeRoot hw hgooda.length hgoodb.length
          fin_cases tx
          · exact hhonest.paths a ha
          · exact hhonest.paths b hb
        rw [hleads, hleads]
      have hsame : a = b := by
        ext1
        · exact h.inAmount_inj (by simp) (by simp) hamount
        · exact hblinding
        · exact assigned_path_inj hw hQ hcovers hgooda.length hgoodb.length hroot hindices
        · exact hindices
      have hnodup := hdistinct.inputs
      rw [hreal, hsame] at hnodup
      simp at hnodup

theorem Transacted.fits
    (hhonest : params.Honest P) : artifacts.circuitInputs.Fits := by
  have hpaths := (inputSlots_eq_ok h.inputSlots).2.1
  have hmember := h.membershipPath
  have hsiblings := h.siblings
  rw [hhonest.treeDepth] at hpaths hmember
  rw [hhonest.smtDepth] at hsiblings
  rw [h.circuit]
  exact
    { inputNullifier := rfl
      outputCommitment := rfl
      inAmount := rfl
      inPrivateKey := rfl
      inBlinding := rfl
      inPathIndices := rfl
      inPathElements := by
        simp only [circuitInputs, flatMap_cons, flatMap_nil, length_append, length_nil,
          hpaths a (by simp), hpaths b (by simp)]
      outAmount := rfl
      outPubkey := rfl
      outBlinding := rfl
      membershipRoots := rfl
      nonMembershipRoots := rfl
      membershipProofs := by
        refine ⟨rfl, fun proof hproof => ?_⟩
        rw [eq_of_mem_replicate hproof, hmember]
      nonMembershipProofs := by
        refine ⟨rfl, fun proof hproof => ?_⟩
        rw [eq_of_mem_replicate hproof, hsiblings] }

theorem Transacted.signals :
    artifacts.circuitInputs.signals =
      assigned P params (params.extAmount : F) a b c d artifacts.prepared.extDataHashBe := by
  rw [h.circuit]

theorem Transacted.satisfied
    (hQ : CollisionFree P Q) (hhonest : params.Honest P) (hkey : params.NonMemberKey P)
    (hdistinct : params.Distinct draws) (hcovers : Covers P Q artifacts.circuitInputs.signals) :
    PolicyTransaction P artifacts.circuitInputs.signals := by
  have hw := h.signals
  have hslots : ∀ tx, GoodSlot P params (![a, b] tx) := by
    intro tx
    apply h.goodSlot hhonest
    fin_cases tx <;> simp
  rw [← assigned_completed hw]
  apply completed_satisfied
  · intro tx
    have hbits := (hslots tx).bits
    rw [hw]
    fin_cases tx <;> exact hbits
  · exact assigned_checkRoot hw hslots
  · exact fun tx => (assigned_policy hw hhonest hkey tx).1
  · exact fun tx => (assigned_policy hw hhonest hkey tx).2
  · intro out
    rw [hw]
    fin_cases out
    · exact h.outAmount_bits (by simp)
    · exact h.outAmount_bits (by simp)
  · exact h.inNullifier_ne hw hQ hhonest hdistinct hcovers
  · rw [hw]
    exact h.amounts

end

end Honest

/-- The two checks on the external data pass, and `verify_proof` gets the public signals of the
assignment in their order. -/
structure Presents (host : Pool.Host) (proof : Pool.Proof) (ext : Pool.ExtData) (w : Witness) : Prop where
  extDataHash : Pool.hashExtData host ext = proof.extDataHash
  publicAmount : Pool.calculatePublicAmount ext.extAmount = .ok proof.publicAmount
  publicInputs : proof.publicInputs = w.publicInputs
  verifyProof : ∀ (s : Pool.Storage) (verifier : Address), s.verifier = some verifier →
    Pool.verifyProof host proof s =
      Pool.unwrap (Groth16Verifier.verify (host.verificationKey verifier) proof.proof w.publicInputs)

section Presented
variable {parse : String → Option Address} {keccak : Bytes → Vector UInt8 32} {toXdr : ArgVal → Bytes}
  {host : Pool.Host}

theorem fromBigEndian_toBigEndian {width n : Nat} (h : n < 256 ^ width) :
    fromBigEndian (toBigEndian width n) = n := by
  rw [fromBigEndian, toBigEndian, reverse_reverse, fromLittleEndian_toLittleEndian h]

theorem Transacted.encoded
    (h : Transacted P sealing draws (hashExtDataOffchain parse keccak toXdr) params artifacts [a, b] [c, d]
      encrypted) :
    ∃ address, poolExtDataToScval parse artifacts.extData =
        .ok (extDataScval (artifacts.extData.onchain address)) ∧
      artifacts.prepared.extDataHashBe = toBigEndian 32
        (fromBigEndian (keccak (toXdr (extDataScval (artifacts.extData.onchain address)))).toList %
          bn256Modulus) := by
  have hhash := h.hashed
  obtain ⟨h0, h1, address, hparse⟩ := hashExtDataOffchain_eq_ok hhash
  rw [hashExtDataOffchain_eq hparse h0 h1] at hhash
  exact ⟨address, poolExtDataToScval_eq hparse h0 h1, (Except.ok.inj hhash).symm⟩

theorem decodeProof_onchain (bytes : ProofBytes) {prepared : PreparedTx}
    (hnullifiers : prepared.inputNullifiers.length < 2 ^ 32) (hhash : prepared.extDataHashBe.length = 32) :
    (poolProofToScval bytes.1 prepared.onchain).toOption.bind decodeProof = some
      { proof := groth16Proof bytes
        root := prepared.poolRoot.val
        inputNullifiers := prepared.inputNullifiers.map ZMod.val
        outputCommitment0 := (prepared.outputCommitments.getD 0 0).val
        outputCommitment1 := (prepared.outputCommitments.getD 1 0).val
        publicAmount := prepared.publicAmountField.val
        extDataHash := fromBigEndian prepared.extDataHashBe
        aspMembershipRoot := prepared.aspMembershipRoot.val
        aspNonMembershipRoot := prepared.aspNonMembershipRoot.val } := by
  have hle : prepared.onchain.extDataHashBe.length < 2 ^ 32 := by
    rw [PreparedTx.onchain, hhash]
    decide
  have hcall : poolProofToScval bytes.1 prepared.onchain = .ok (proofScval bytes prepared.onchain) :=
    poolProofToScval_eq bytes hnullifiers hle
  rw [hcall, Except.toOption, Option.bind_some, decodeProof_proofScval bytes hhash]
  rfl

theorem Transacted.decodeProof (bytes : ProofBytes)
    (h : Transacted P sealing draws (hashExtDataOffchain parse keccak toXdr) params artifacts [a, b] [c, d]
      encrypted) :
    (poolProofToScval bytes.1 artifacts.prepared.onchain).toOption.bind decodeProof =
      some (proofOf (groth16Proof bytes) artifacts.circuitInputs.signals) := by
  obtain ⟨address, -, hbe⟩ := h.encoded
  have hlength : artifacts.prepared.extDataHashBe.length = 32 := by
    rw [hbe, toBigEndian, length_reverse, toLittleEndian_length]
  have hcanonical : fromBigEndian artifacts.prepared.extDataHashBe < bn256Modulus := by
    have hlt := Nat.mod_lt
      (fromBigEndian (keccak (toXdr (extDataScval (artifacts.extData.onchain address)))).toList)
      (show bn256Modulus > 0 by decide)
    rw [hbe, fromBigEndian_toBigEndian (hlt.trans (by decide))]
    exact hlt
  have hnullifiers : artifacts.prepared.inputNullifiers.length = 2 := by
    rw [h.prepared]
    rfl
  rw [decodeProof_onchain bytes (by rw [hnullifiers]; decide) hlength, h.signals, h.prepared]
  generalize artifacts.prepared.extDataHashBe = hash at hcanonical
  have hsigned : ((fromBigEndian hash : Nat) : F).val = fromBigEndian hash := val_natCast_of_lt hcanonical
  simp [proofOf, preparedTx, CircuitInputs.signals, circuitInputs, hsigned, nInputs]

theorem Transacted.presents (bytes : ProofBytes)
    (hhost : ∀ ext, host.keccakXdr ext = fromBigEndian (keccak (toXdr (extDataScval ext))).toList)
    (h : Transacted P sealing draws (hashExtDataOffchain parse keccak toXdr) params artifacts [a, b] [c, d]
      encrypted) :
    ∃ ext, (poolExtDataToScval parse artifacts.extData).toOption.bind decodeExtData = some ext ∧
      Presents host (proofOf (groth16Proof bytes) artifacts.circuitInputs.signals) ext
        artifacts.circuitInputs.signals := by
  obtain ⟨address, hcall, hbe⟩ := h.encoded
  have hpublic : (proofOf (groth16Proof bytes) artifacts.circuitInputs.signals).publicInputs =
      artifacts.circuitInputs.signals.publicInputs := by
    rw [h.signals]
    exact proofOf_publicInputs _ rfl rfl
  refine ⟨artifacts.extData.onchain address, ?_, ?_, ?_, hpublic, ?_⟩
  · rw [hcall]
    exact decodeExtData_extDataScval artifacts.extData address
  · have hlt := Nat.mod_lt
      (fromBigEndian (keccak (toXdr (extDataScval (artifacts.extData.onchain address)))).toList)
      (show bn256Modulus > 0 by decide)
    have hhash := fromBigEndian_toBigEndian (hlt.trans (show bn256Modulus < 256 ^ 32 by decide))
    rw [← hbe] at hhash
    rw [Pool.hashExtData, hhost, ← hhash, h.signals]
    rw [← hhash] at hlt
    exact (val_natCast_of_lt hlt).symm
  · have hrange := params.extAmount_range
    have hamount : (artifacts.extData.onchain address).extAmount = params.extAmount := by
      rw [h.extData]
      rfl
    rw [hamount, Pool.calculatePublicAmount_eq (by rw [abs_lt]; constructor <;> omega), h.signals]
    rfl
  · intro s verifier hverifier
    rw [Pool.verifyProof_canonical hverifier (proofOf_canonical _ _), hpublic]

end Presented

/-- The parameters of an honest user whose notes and blindings are distinct: what `transact`
builds satisfies the circuit, and the call presents the same assignment to the contract. -/
theorem honest_transaction_presented (P : Permutation) (Q : Set Query) (sealing : SealBox) (draws : Draws)
    (parse : String → Option Address) (keccak : Bytes → Vector UInt8 32) (toXdr : ArgVal → Bytes) (host : Pool.Host)
    (hhost : ∀ ext, host.keccakXdr ext = fromBigEndian (keccak (toXdr (extDataScval ext))).toList)
    (hQ : CollisionFree P Q) (params : FlowParams) (hhonest : params.Honest P)
    (hkey : params.NonMemberKey P) (hdistinct : params.Distinct draws) (artifacts : TransactArtifacts)
    (hok : transact P sealing draws (hashExtDataOffchain parse keccak toXdr) params = .ok artifacts)
    (hcovers : Covers P Q artifacts.circuitInputs.signals) (bytes : ProofBytes) :
    artifacts.circuitInputs.Fits ∧ PolicyTransaction P artifacts.circuitInputs.signals ∧
      ∃ proof ext,
        (poolProofToScval bytes.1 artifacts.prepared.onchain).toOption.bind decodeProof = some proof ∧
        (poolExtDataToScval parse artifacts.extData).toOption.bind decodeExtData = some ext ∧
        Presents host proof ext artifacts.circuitInputs.signals := by
  obtain ⟨inputs, outputs, encrypted, h⟩ := transact_eq_ok hok
  obtain ⟨a, b, rfl⟩ := h.inputs_eq
  obtain ⟨c, d, rfl⟩ := h.outputs_eq
  obtain ⟨ext, hext, hpresents⟩ := h.presents bytes hhost
  exact ⟨h.fits hhonest, h.satisfied hQ hhonest hkey hdistinct hcovers, _, ext, h.decodeProof bytes, hext, hpresents⟩

def oneKey : Key := ⟨1 :: List.replicate 31 0, by decide⟩

/-- The withdrawal of the first note of the sample pool, with a non-membership proof for a key. -/
noncomputable def withdrawWith (key : F) : FlowParams where
  privKey := oneKey
  encryptionPubkey := oneKey
  poolRoot := treeRoot samplePermutation 10 [61, 62]
  extRecipient := "pool"
  extAmount := -5
  inputs := [⟨5, 8, 62 :: emptyNodes 1 9, 0⟩]
  outputs := []
  membershipProof :=
    { leaf := 51, blinding := 7, pathElements := emptyNodes 0 10, pathIndices := 0
      root := memberRoot samplePermutation sampleDeposit.member }
  nonMembershipProof :=
    { key := key, oldKey := 2, oldValue := 9, isOld0 := false, siblings := List.replicate 10 0, root := 55 }
  treeDepth := 10
  smtDepth := 10
  extAmount_range := (withdrawFive ⟨[], 0, 0, 0⟩).extAmount_range

def slotDraws : Draws where
  inputBlinding slot := some [.ofNat slot]
  outputBlinding slot := some [.ofNat (slot + 3)]
  ephemeral _ := some []
  nonce _ := some ⟨List.replicate 24 0, length_replicate⟩

def blankSeal : SealBox := fun _ _ _ _ => some ([], [])

theorem withdrawWith_ok (key : F) : ∃ artifacts, transact samplePermutation blankSeal slotDraws
    (hashExtDataOffchain (fun _ => some ⟨4⟩) lengthDigest outputsXdr) (withdrawWith key) = .ok artifacts := by
  have hrun : ∃ (ext : ExtData) (build : Bytes → TransactArtifacts), (∀ hashExtData,
      transact samplePermutation blankSeal slotDraws hashExtData (withdrawWith key) =
        (hashExtData ext).mapError .extData >>= fun hash => .ok (build hash)) ∧
      ext.encryptedOutput0.length = 24 ∧ ext.encryptedOutput1.length = 24 :=
    ⟨_, _, fun _ => rfl, rfl, rfl⟩
  obtain ⟨ext, build, hrun, h0, h1⟩ := hrun
  rw [hrun, hashExtDataOffchain_eq rfl (by omega) (by omega)]
  exact ⟨_, rfl⟩

section Sample
variable {key : F}

theorem withdrawWith_signals
    (h : transact samplePermutation blankSeal slotDraws hashExtData (withdrawWith key) = .ok artifacts) :
    ∃ hash, artifacts.circuitInputs.signals = assigned samplePermutation (withdrawWith key) (-5)
      ⟨5, 8, 62 :: emptyNodes 1 9, 0⟩ ⟨0, 1, List.replicate 10 0, 0⟩ ⟨0, 3, none, none⟩ ⟨0, 4, none, none⟩ hash := by
  obtain ⟨inputs, outputs, encrypted, h⟩ := transact_eq_ok h
  have hinputs : inputSlots slotDraws (withdrawWith key).toTransactParams =
      .ok [⟨5, 8, 62 :: emptyNodes 1 9, 0⟩, ⟨0, fromLeBytesModOrder [1], List.replicate 10 0, 0⟩] := rfl
  have houtputs : outputSlots slotDraws (withdrawWith key).toTransactParams =
      .ok [⟨0, fromLeBytesModOrder [3], none, none⟩, ⟨0, fromLeBytesModOrder [4], none, none⟩] := rfl
  have hfirst := Except.ok.inj (h.inputSlots.symm.trans hinputs)
  have hsecond := Except.ok.inj (h.outputSlots.symm.trans houtputs)
  subst hfirst hsecond
  have hamount : (((withdrawWith key).extAmount : Int) : F) = -5 := rfl
  refine ⟨artifacts.prepared.extDataHashBe, ?_⟩
  rw [h.signals, hamount]
  rfl

theorem oneKey_eq : fromLeBytesModOrder oneKey.1 = 1 := by decide +kernel

theorem withdrawWith_nonMember (hkey : 2 ≠ key) :
    ((withdrawWith key).nonMembershipProof.wired.signals 55).Shallow samplePermutation := by
  have hlength : (withdrawWith key).nonMembershipProof.siblings.length = 10 := length_replicate
  have hroot := sample_nonMember.root
  rw [wired_eq hlength]
  exact ⟨rfl, rfl, rfl, .inr hkey, hroot⟩

theorem withdrawWith_member : (withdrawWith key).membershipProof.circuitProof = sampleDeposit.member := by
  rw [AspMembershipProof.circuitProof]
  congr 1

theorem withdrawWith_nonMember_queries (hkey : .hash2 key key 1 ∈ sampleInputs) :
    ∀ q ∈ ((withdrawWith key).nonMembershipProof.wired.signals 55).queries samplePermutation, q ∈ sampleInputs := by
  have hold : (Query.hash2 2 9 1, (55 : F)) ∈ noteTable := by decide
  intro q hq
  rcases queries_of_zero rfl rfl rfl hq with rfl | rfl | rfl
  · exact sample_input hold
  · exact hkey
  · exact sample_input (d := 54) (by decide)

theorem withdrawWith_outPubkey (output : TransactOutput) (houtput : output.recipientNotePubkey = none) :
    fromLeBytesModOrder
      (recipientNotePubkey samplePermutation (withdrawWith key).toTransactParams output).1 = 11 := by
  rw [recipientNotePubkey, houtput]
  refine (fromLeBytesModOrder_toLeBytes _).trans ?_
  change keypair samplePermutation (fromLeBytesModOrder oneKey.1) = 11
  rw [oneKey_eq, sample_publicKey]

theorem withdrawWith_covers (hkey : .hash2 key key 1 ∈ sampleInputs)
    (h : transact samplePermutation blankSeal slotDraws hashExtData (withdrawWith key) = .ok artifacts) :
    Covers samplePermutation sampleInputs artifacts.circuitInputs.signals := by
  obtain ⟨hash, hsignals⟩ := withdrawWith_signals h
  rw [hsignals]
  refine covers_of (fun slot => ?_) fun out => ?_
  · have hnote : (Query.hash3 5 11 8 1, (61 : F)) ∈ noteTable ∧ (61, 140, 62 :: emptyNodes 1 9) ∈ samplePaths :=
      ⟨by decide, by simp [samplePaths]⟩
    have hdummy : (Query.hash3 0 11 1 1, (22 : F)) ∈ noteTable ∧ (22, 110, List.replicate 10 0) ∈ samplePaths :=
      ⟨by decide, by simp [samplePaths]⟩
    fin_cases slot
    · refine (sample_slot (c := 61) (s := 33) (n := 43) (k := 140) oneKey_eq rfl withdrawWith_member ?_ hnote.1
        (by decide) (by decide) ?_).2
      · exact withdrawWith_nonMember_queries hkey
      · rw [assigned_inPathElements rfl rfl rfl]
        exact hnote.2
    · refine (sample_slot (c := 22) (s := 32) (n := 42) (k := 110) oneKey_eq rfl withdrawWith_member ?_ hdummy.1
        (by decide) (by decide) ?_).2
      · exact withdrawWith_nonMember_queries hkey
      · rw [assigned_inPathElements rfl rfl rfl]
        exact hdummy.2
  · have hthree : (Query.hash3 0 11 3 1, (63 : F)) ∈ noteTable := by decide
    have hfour : (Query.hash3 0 11 4 1, (64 : F)) ∈ noteTable := by decide
    rw [← withdrawWith_outPubkey ⟨0, 3, none, none⟩ rfl] at hthree
    rw [← withdrawWith_outPubkey ⟨0, 4, none, none⟩ rfl] at hfour
    fin_cases out
    · exact sample_input hthree
    · exact sample_input hfour

theorem withdrawWith_honest (hkey : 2 ≠ key) : (withdrawWith key).Honest samplePermutation where
  treeDepth := rfl
  smtDepth := rfl
  paths input hinput := by
    obtain rfl := mem_singleton.mp hinput
    refine ⟨by change Num2Bits 10 (0 : F); decide, sampleWithdrawal.path samplePermutation [61, 62],
      sample_siblings, ?_⟩
    have hcommitment : hash3 samplePermutation 5 11 8 1 = 61 := sample_digest (by decide)
    rw [senderCommitment, computeCommitment, derivePublicKey, fromLeBytesModOrder_toLeBytes]
    change merkleProof samplePermutation
      (hash3 samplePermutation 5 (keypair samplePermutation (fromLeBytesModOrder oneKey.1)) 8 1) _ _ = _
    rw [oneKey_eq, sample_publicKey, hcommitment]
    exact @merkleProof_complete 10 samplePermutation 0 (sampleWithdrawal.path samplePermutation [61, 62])
      (Lib.BinaryTree.padded zeroLeaf [61, 62]) 0 ZMod.val_zero (by decide) rfl
  leaf := by
    change 51 = hash2 samplePermutation
      (keypair samplePermutation (fromLeBytesModOrder oneKey.1)) 7 1
    rw [oneKey_eq, sample_publicKey]
    exact (sample_digest (by decide)).symm
  membershipPath := by
    refine ⟨?_, sampleDeposit.member.pathElements, rfl, rfl⟩
    change Num2Bits 10 (0 : F)
    decide
  nonMembership := by
    have hlength : (withdrawWith key).nonMembershipProof.siblings.length = 10 := length_replicate
    have hshallow := withdrawWith_nonMember hkey
    rw [wired_eq hlength] at hshallow
    exact ⟨hlength, hshallow.verified⟩

theorem withdrawWith_distinct : (withdrawWith key).Distinct slotDraws where
  inputs := nodup_singleton _
  drawn slot hslot hlt input hinput := by
    obtain rfl := mem_singleton.mp hinput
    obtain rfl : slot = 1 := by
      change 1 ≤ slot at hslot
      omega
    decide +kernel
  both := nofun

end Sample

theorem honest_transaction_presented_five : ∃ artifacts proof ext,
    transact samplePermutation blankSeal slotDraws
        (hashExtDataOffchain (fun _ => some ⟨4⟩) lengthDigest outputsXdr) (withdrawWith 11) = .ok artifacts ∧
      PolicyTransaction samplePermutation artifacts.circuitInputs.signals ∧
      (poolProofToScval (List.replicate 256 0) artifacts.prepared.onchain).toOption.bind decodeProof = some proof ∧
      (poolExtDataToScval (fun _ => some ⟨4⟩) artifacts.extData).toOption.bind decodeExtData = some ext ∧
      Presents lengthHost proof ext artifacts.circuitInputs.signals := by
  obtain ⟨artifacts, hok⟩ := withdrawWith_ok 11
  have hkey : (withdrawWith 11).NonMemberKey samplePermutation := by
    change 11 = keypair samplePermutation (fromLeBytesModOrder oneKey.1)
    rw [oneKey_eq, sample_publicKey]
  have hcovers := withdrawWith_covers (sample_input (d := 53) (by decide)) hok
  obtain ⟨-, hsatisfied, proof, ext, hproof, hext, hpresents⟩ := honest_transaction_presented samplePermutation
    sampleInputs blankSeal slotDraws (fun _ => some ⟨4⟩) lengthDigest outputsXdr lengthHost
    (fun _ => by simp only [lengthHost]) sample_collisionFree (withdrawWith 11) (withdrawWith_honest (by decide)) hkey
    withdrawWith_distinct artifacts hok hcovers ⟨List.replicate 256 0, length_replicate⟩
  exact ⟨artifacts, proof, ext, hok, hsatisfied, hproof, hext, hpresents⟩

/-- `transact` takes the non-membership proof as it is.  With one for another key the circuit has no
such assignment. -/
theorem honest_transaction_other_key :
    (withdrawWith 0).Honest samplePermutation ∧ (withdrawWith 0).Distinct slotDraws ∧
      CollisionFree samplePermutation sampleInputs ∧ ∃ artifacts,
        transact samplePermutation blankSeal slotDraws
          (hashExtDataOffchain (fun _ => some ⟨4⟩) lengthDigest outputsXdr) (withdrawWith 0) = .ok artifacts ∧
        Covers samplePermutation sampleInputs artifacts.circuitInputs.signals ∧
        ¬PolicyTransaction samplePermutation artifacts.circuitInputs.signals := by
  obtain ⟨artifacts, hok⟩ := withdrawWith_ok 0
  refine ⟨withdrawWith_honest (by decide), withdrawWith_distinct, sample_collisionFree, artifacts, hok,
    withdrawWith_covers (sample_input (d := 52) (by decide)) hok, ?_⟩
  intro h
  obtain ⟨hash, hsignals⟩ := withdrawWith_signals hok
  have hkey := (h.inputs 0).nonMembershipKey 0
  rw [hsignals, assigned_publicKey] at hkey
  change 0 = keypair samplePermutation (fromLeBytesModOrder oneKey.1) at hkey
  rw [oneKey_eq, sample_publicKey] at hkey
  exact absurd hkey (by decide)

end PrivatePayments.Sdk

import PrivatePayments.Circuits.SelectiveDisclosure
import PrivatePayments.Sdk.Disclosure
import PrivatePayments.System.Log
import PrivatePayments.System.Solvency

/-! `pool/src/disclosure.rs`: the report on a receipt, and what it says about the pools of the
deployment it is made for. -/
namespace PrivatePayments.Sdk.Disclosure
open Contracts PrivatePayments.System Circuits Lib.BinaryTree
open List hiding Vector

structure PoolEntry where
  poolContractId : Text
  enabled : Bool

structure Deployment where
  network : Text
  pools : List PoolEntry

inductive Retval where
  | bool (b : Bool)
  | other

inductive ReportError where
  | prover (e : DisclosureError)
  | contextVerification (e : DisclosureError)
  | poolNotEnabled (poolContractId : Text)
  | simulation
  | unexpectedScVal

structure DisclosureVerificationReport where
  proofVerified : Bool
  contextVerified : Bool
  knownRootStatus : Bool

def DisclosureVerificationReport.isFullyVerified (report : DisclosureVerificationReport) : Bool :=
  report.proofVerified && report.contextVerified && report.knownRootStatus

/-- The prover of the web worker, which holds the bytes of the verifying key. -/
def verifyDisclosureProof (sha256 : Bytes → Bytes) (verifyProof : Bytes → Bytes → Bytes → Except DisclosureError Bool)
    (vkBytes : Bytes) (receipt : DisclosureReceipt) (expectedVkHash : Bytes) : Except ReportError Bool :=
  (verifyReceiptProof sha256 verifyProof receipt vkBytes expectedVkHash).mapError .prover

section
variable (deployment : Deployment) (simulate : Text → F → Except ReportError Retval)

def enabledPoolFor (poolContractId : Text) : Except ReportError PoolEntry :=
  match deployment.pools.find? fun pool => pool.enabled && decide (pool.poolContractId = poolContractId) with
  | some pool => .ok pool
  | none => .error (.poolNotEnabled poolContractId)

def scvalToBool : Retval → Except ReportError Bool
  | .bool b => .ok b
  | .other => .error .unexpectedScVal

/-- `simulate` answers a simulated call of `is_known_root`. -/
def isPoolKnownRoot (poolContractId : Text) (root : F) : Except ReportError Bool := do
  let pool ← enabledPoolFor deployment poolContractId
  let retval ← simulate pool.poolContractId root
  scvalToBool retval

def rootsKnown (poolContractId : Text) : List F → Except ReportError Bool
  | [] => .ok true
  | root :: rest => do
      let isKnown ← isPoolKnownRoot deployment simulate poolContractId root
      if isKnown then rootsKnown poolContractId rest else .ok false

def verifyDisclosureReceipt (sha256 : Bytes → Bytes)
    (prover : DisclosureReceipt → Bytes → Except ReportError Bool) (receipt : DisclosureReceipt)
    (expectedVkHash : Bytes) : Except ReportError DisclosureVerificationReport := do
  let proofVerified ← prover receipt expectedVkHash
  let contextVerified ← (verifyReceiptContext sha256 receipt).mapError .contextVerification
  let knownRootStatus ← rootsKnown deployment simulate receipt.context.poolAddress receipt.publicInputs.roots
  return { proofVerified, contextVerified, knownRootStatus }

end

abbrev DisclosureWitness := DisclosureSignals 10 1

/-- Knowledge soundness: from an accepted proof a witness can be extracted. -/
def SoundProofs (P : Permutation) (Q : Set Query) (verifyProof : Bytes → Bytes → Bytes → Except DisclosureError Bool)
    (vkBytes : Bytes) (extract : Bytes → Bytes → DisclosureWitness) : Prop :=
  ∀ proof inputs, verifyProof vkBytes proof inputs = .ok true →
    SelectiveDisclosure P (extract proof inputs) ∧
      inputs = (extract proof inputs).publicInputs.flatMap toLeBytes ∧
      ∀ q ∈ (extract proof inputs).queries P, q ∈ Q

/-- The enabled pools have the depth of the circuit, and simulated calls are answered by them. -/
structure Honest (host : Pool.Host) (Q : Set Query) (deployment : Deployment)
    (simulate : Text → F → Except ReportError Retval) (chain : Text → State) : Prop where
  reachable : ∀ pool ∈ deployment.pools, pool.enabled = true →
    ∃ config, config.levels = 10 ∧ Reachable host config (chain pool.poolContractId)
  answers : ∀ poolContractId root b, simulate poolContractId root = .ok (.bool b) →
    ∃ ctx, Pool.isKnownRoot ctx root.val (chain poolContractId).ledger.pool = .ok b
  covered : ∀ pool ∈ deployment.pools, pool.enabled = true → ∀ j q,
    TreeQuery host.permutation ((inserted (chain pool.poolContractId).accepted).take (2 * j)) 10 q → q ∈ Q

/-- A leaf of the tree as it was when one of the last roots was made. -/
def RecentLeaf (x : State) (commitment : F) : Prop :=
  ∃ j index : Nat, j ≤ x.accepted.length ∧ x.accepted.length < j + MerkleWithHistory.rootHistorySize ∧
    ((inserted x.accepted).take (2 * j))[index]? = some commitment

/-- The prover can open the disclosed commitment, which is a recent leaf of the named pool, and the
context names the network of the deployment. -/
def Truthful (P : Permutation) (extract : Bytes → Bytes → DisclosureWitness) (deployment : Deployment)
    (chain : Text → State) (receipt : DisclosureReceipt) : Prop :=
  (∃ proof inputs, receipt.proofCompressedBytes = .ok proof ∧
    selectiveDisclosure1.publicInputsBytes receipt = .ok inputs ∧
    receipt.publicInputs.noteCommitments = [hash3 P ((extract proof inputs).inAmount ⟨0, Nat.zero_lt_one⟩)
      (keypair P ((extract proof inputs).inPrivateKey ⟨0, Nat.zero_lt_one⟩))
      ((extract proof inputs).inBlinding ⟨0, Nat.zero_lt_one⟩) 1]) ∧
  (∃ commitment, receipt.publicInputs.noteCommitments = [commitment] ∧
    RecentLeaf (chain receipt.context.poolAddress) commitment) ∧
  receipt.context.network = deployment.network

section
variable {deployment : Deployment} {simulate : Text → F → Except ReportError Retval} {sha256 : Bytes → Bytes}
  {verifyProof : Bytes → Bytes → Bytes → Except DisclosureError Bool} {vkBytes : Bytes}

variable {poolContractId : Text}

theorem enabledPoolFor_ok {pool : PoolEntry}
    (h : enabledPoolFor deployment poolContractId = .ok pool) :
    pool ∈ deployment.pools ∧ pool.enabled = true ∧ pool.poolContractId = poolContractId := by
  unfold enabledPoolFor at h
  split at h
  · rename_i found hfind
    cases h
    have hpool := find?_some hfind
    simp only [Bool.and_eq_true, decide_eq_true_eq] at hpool
    exact ⟨mem_of_find?_eq_some hfind, hpool⟩
  · cases h

theorem isPoolKnownRoot_ok {root : F} {b : Bool}
    (h : isPoolKnownRoot deployment simulate poolContractId root = .ok b) :
    ∃ pool ∈ deployment.pools, pool.enabled = true ∧ pool.poolContractId = poolContractId ∧
      simulate poolContractId root = .ok (.bool b) := by
  obtain ⟨pool, hpool, h⟩ := bind_eq_ok h
  obtain ⟨retval, hretval, h⟩ := bind_eq_ok h
  obtain ⟨hmem, henabled, hid⟩ := enabledPoolFor_ok hpool
  rw [hid] at hretval
  cases retval with
  | bool value =>
    cases h
    exact ⟨pool, hmem, henabled, hid, hretval⟩
  | other => cases h

variable {receipt : DisclosureReceipt}

theorem verifyReceiptProof_true {vkHash : Bytes}
    (h : verifyReceiptProof sha256 verifyProof receipt vkBytes vkHash = .ok true) :
    ∃ root commitment proof inputs, receipt.publicInputs.roots = [root] ∧
      receipt.publicInputs.noteCommitments = [commitment] ∧ receipt.proofCompressedBytes = .ok proof ∧
      selectiveDisclosure1.publicInputsBytes receipt = .ok inputs ∧ verifyProof vkBytes proof inputs = .ok true := by
  obtain ⟨_, -, h⟩ := bind_eq_ok h
  obtain ⟨circuit, hcircuit, h⟩ := bind_eq_ok h
  obtain ⟨rfl, -, root, commitment, hroot, hcommitment⟩ := validateRegisteredReceipt_ok hcircuit
  obtain ⟨proof, hproof, h⟩ := bind_eq_ok h
  obtain ⟨inputs, hinputs, h⟩ := bind_eq_ok h
  exact ⟨root, commitment, proof, inputs, hroot, hcommitment, hproof, hinputs, h⟩

theorem publicInputs_of_bytes {root commitment : F}
    (hroot : receipt.publicInputs.roots = [root]) (hcommitment : receipt.publicInputs.noteCommitments = [commitment])
    {w : DisclosureWitness}
    (h : selectiveDisclosure1.publicInputsBytes receipt = .ok (w.publicInputs.flatMap toLeBytes)) :
    w.roots 0 = root ∧ w.noteCommitments 0 = commitment := by
  rw [publicInputsBytes_eq hroot hcommitment] at h
  have hbytes := Except.ok.inj h
  simp only [DisclosureSignals.publicInputs, ofFn_succ, ofFn_zero, flatMap_append,
    flatMap_singleton, append_assoc] at hbytes
  obtain ⟨hroots, hbytes⟩ := append_inj hbytes (by rw [length_toLeBytes, length_toLeBytes])
  obtain ⟨hcommitments, -⟩ := append_inj hbytes (by rw [length_toLeBytes, length_toLeBytes])
  exact ⟨(toLeBytes_injective hroots).symm, (toLeBytes_injective hcommitments).symm⟩

theorem Honest.recentLeaf {host : Pool.Host} {Q : Set Query} {chain : Text → State}
    (h : Honest host Q deployment simulate chain) (hchain : ZeroesChain host.permutation)
    (hideal : Ideal host.permutation Q) {root : F}
    (hknown : isPoolKnownRoot deployment simulate poolContractId root = .ok true) {w : DisclosureWitness}
    (hw : SelectiveDisclosure host.permutation w) (hQ : ∀ q ∈ w.queries host.permutation, q ∈ Q)
    (hroot : w.roots 0 = root) : RecentLeaf (chain poolContractId) (w.noteCommitments 0) := by
  obtain ⟨pool, hmem, henabled, rfl, hanswer⟩ := isPoolKnownRoot_ok hknown
  obtain ⟨config, hlevels, hreachable⟩ := h.reachable pool hmem henabled
  obtain ⟨ctx, hcall⟩ := h.answers _ _ _ hanswer
  have hring := (hreachable.recorded hchain).tree.ring
  obtain ⟨j, hj, hrecent, heq⟩ := hring.of_isKnownRoot (Pool.liftMerkle_eq_ok hcall)
  rw [inserted_length, Nat.mul_div_cancel_left _ (by omega)] at hj hrecent
  rw [hlevels] at heq
  have htree := hroot.trans (ZMod.val_injective _ heq.symm)
  have hcovered : ∀ input ∈ treeInputs (compress host.permutation)
      (padded zeroLeaf ((inserted (chain pool.poolContractId).accepted).take (2 * j))) 10,
      .compress input.1 input.2 ∈ Q := fun input hin => h.covered pool hmem henabled j _ ⟨input, hin, rfl⟩
  have hleaf := hw.leaf hideal.collisionFree hQ hcovered htree
  refine ⟨j, (w.inPathIndices 0).val, hj, hrecent, ?_⟩
  by_cases hlt : (w.inPathIndices 0).val < ((inserted (chain pool.poolContractId).accepted).take (2 * j)).length
  · rw [hleaf, padded_lt hlt, getElem?_eq_getElem hlt]
  · -- Past the inserted leaves stands the zero leaf, which no commitment hashes to.
    rw [padded_ge (not_lt.mp hlt), hw.commitment] at hleaf
    exact absurd hleaf (hideal.nonzeroLeaf _ (hQ _ (w.commitment_mem_queries 0)))

theorem verifyDisclosureReceipt_full {vkHash : Bytes}
    {report : DisclosureVerificationReport}
    (h : verifyDisclosureReceipt deployment simulate sha256 (verifyDisclosureProof sha256 verifyProof vkBytes)
      receipt vkHash = .ok report) (hfull : report.isFullyVerified = true) :
    verifyReceiptProof sha256 verifyProof receipt vkBytes vkHash = .ok true ∧
      rootsKnown deployment simulate receipt.context.poolAddress receipt.publicInputs.roots = .ok true := by
  obtain ⟨proofVerified, hproof, h⟩ := bind_eq_ok h
  obtain ⟨contextVerified, -, h⟩ := bind_eq_ok h
  obtain ⟨knownRootStatus, hroots, h⟩ := bind_eq_ok h
  cases h
  simp only [DisclosureVerificationReport.isFullyVerified, Bool.and_eq_true] at hfull
  obtain ⟨⟨rfl, -⟩, rfl⟩ := hfull
  exact ⟨mapError_eq_ok hproof, hroots⟩

/-- What a fully verified receipt says about its note is true.  Its network is whatever the prover
wrote. -/
theorem verified_receipt_truthful {host : Pool.Host} {Q : Set Query} {chain : Text → State}
    {extract : Bytes → Bytes → DisclosureWitness} (hchain : ZeroesChain host.permutation)
    (hideal : Ideal host.permutation Q) (hsound : SoundProofs host.permutation Q verifyProof vkBytes extract)
    (hhonest : Honest host Q deployment simulate chain) (receipt : DisclosureReceipt) (vkHash : Bytes)
    (report : DisclosureVerificationReport)
    (hreport : verifyDisclosureReceipt deployment simulate sha256 (verifyDisclosureProof sha256 verifyProof vkBytes)
      receipt vkHash = .ok report) (hfull : report.isFullyVerified = true) :
    Truthful host.permutation extract deployment chain receipt ↔ receipt.context.network = deployment.network := by
  obtain ⟨hverified, hroots⟩ := verifyDisclosureReceipt_full hreport hfull
  obtain ⟨root, commitment, proof, inputs, hroot, hcommitment, hproof, hinputs, haccepted⟩ :=
    verifyReceiptProof_true hverified
  obtain ⟨hw, hbytes, hQ⟩ := hsound _ _ haccepted
  obtain ⟨hwroot, hwcommitment⟩ := publicInputs_of_bytes hroot hcommitment (hbytes ▸ hinputs)
  have hopens := hw.commitment 0
  rw [hroot] at hroots
  obtain ⟨isKnown, hknown, hrest⟩ := bind_eq_ok hroots
  have htrue : isKnown = true := by
    cases isKnown with
    | true => rfl
    | false => cases hrest
  rw [htrue] at hknown
  have hrecent := hhonest.recentLeaf hchain hideal hknown hw hQ hwroot
  rw [hwcommitment] at hrecent hopens
  refine ⟨fun h => h.2.2, fun hnetwork => ⟨⟨proof, inputs, hproof, hinputs, ?_⟩, ⟨commitment, hcommitment, hrecent⟩,
    hnetwork⟩⟩
  rw [hcommitment, hopens]
  rfl

end

/-! A receipt for the first note of the sample pool. -/

def notePath : Vector F 10 := ⟨(62 :: emptyNodes 1 9).toArray, rfl⟩

def noteRoot : F := treeRoot samplePermutation 10 [61, 62]

def noteSignals : DisclosureWitness where
  roots _ := noteRoot
  noteCommitments _ := 61
  extContextHash := 133
  inAmount _ := 5
  inPrivateKey _ := 1
  inBlinding _ := 8
  inPathIndices _ := 0
  inPathElements _ := notePath

def noteVerifier (_ _ inputs : Bytes) : Except DisclosureError Bool :=
  .ok (decide (inputs = noteSignals.publicInputs.flatMap toLeBytes))

noncomputable def noteSimulate (_ : Text) (root : F) : Except ReportError Retval :=
  match Pool.isKnownRoot System.sampleContext root.val sampleState.ledger.pool with
  | .ok b => .ok (.bool b)
  | .error _ => .error .simulation

def noteDeployment (network : Text) : Deployment where
  network
  pools := [⟨sampleContext.poolAddress, true⟩]

def noteVkHash : Bytes := ascii "0x" ++ List.replicate 64 48

def noteReceipt (root : F) : DisclosureReceipt :=
  { sampleReceipt sampleContext with
    circuit := selectiveDisclosure1.receiptMetadata noteVkHash
    publicInputs := { roots := [root], noteCommitments := [61], extContextHash := 133 } }

theorem note_commitment : noteSignals.inCommitment samplePermutation 0 = 61 := by
  change hash3 samplePermutation 5 (keypair samplePermutation 1) 8 1 = 61
  rw [sample_publicKey]
  exact sample_digest (by decide)

theorem note_disclosure : SelectiveDisclosure samplePermutation noteSignals where
  commitment ni := by
    rw [Subsingleton.elim ni 0]
    exact note_commitment.symm
  pathBits _ := by
    change Num2Bits 10 0
    decide
  root ni := by
    rw [Subsingleton.elim ni 0, DisclosureSignals.inTreeRoot, note_commitment]
    have hindex : (noteSignals.inPathIndices 0).val = 0 := ZMod.val_zero
    have hpath : notePath.toList = _ := sample_siblings.symm
    exact (merkleProof_complete hindex (by decide) hpath).symm

theorem note_queries : ∀ q ∈ noteSignals.queries samplePermutation, q ∈ sampleInputs := by
  intro q hq
  obtain ⟨ni, -, hq⟩ := mem_flatMap.mp hq
  obtain rfl : ni = 0 := Subsingleton.elim ni 0
  have hkey : noteSignals.publicKey samplePermutation 0 = 11 := sample_publicKey
  have hpath : (61, 140, notePath.toList) ∈ samplePaths :=
    show (61, 140, 62 :: emptyNodes 1 9) ∈ samplePaths by simp [samplePaths]
  simp only [DisclosureSignals.noteQueries, note_commitment, hkey, merkleProofQueries_eq, mem_append,
    mem_cons, not_mem_nil, or_false, mem_map] at hq
  rcases hq with (rfl | rfl) | ⟨input, hin, rfl⟩
  · exact sample_input (d := 11) (by decide)
  · exact sample_input (d := 61) (by decide)
  · exact sample_path hpath input (by simpa [noteSignals] using hin)

theorem note_inserted : inserted sampleState.accepted = [61, 62] := by
  rw [sampleState_accepted, inserted, flatMap_singleton]
  simp only [sampleTransaction, proofOf, Fin.zero_eta, Fin.mk_one, natCast_val, sample_commitments.1, sample_commitments.2]

theorem note_honest (network : Text) :
    Honest sampleHost sampleInputs (noteDeployment network) noteSimulate fun _ => sampleState where
  reachable _ _ _ := ⟨System.sampleConfig, rfl, sample_reachable⟩
  answers _ root b h := by
    refine ⟨System.sampleContext, ?_⟩
    unfold noteSimulate at h
    split at h
    · cases h
      assumption
    · cases h
  covered _ _ _ j q hq := by
    rw [note_inserted] at hq
    exact sample_treeQuery (( take_prefix _ _).trans (by decide)) (by simp; omega) hq

theorem note_sound : SoundProofs samplePermutation sampleInputs noteVerifier [] fun _ _ => noteSignals := by
  intro proof inputs h
  exact ⟨note_disclosure, of_decide_eq_true (Except.ok.inj h), note_queries⟩

theorem note_valid (root : F) :
    validateRegisteredReceipt (noteReceipt root) noteVkHash = .ok selectiveDisclosure1 ∧
      verifyReceiptContext countBytes (noteReceipt root) = .ok true := by
  change validateRegisteredReceipt (noteReceipt 0) noteVkHash = .ok selectiveDisclosure1 ∧
    verifyReceiptContext countBytes (noteReceipt 0) = .ok true
  decide +kernel

theorem note_proof : ∃ proof, ∀ root, (noteReceipt root).proofCompressedBytes = .ok proof := by
  cases h : (noteReceipt 0).proofCompressedBytes with
  | ok proof => exact ⟨proof, fun _ => h⟩
  | error =>
    have hok : (noteReceipt 0).proofCompressedBytes.isOk = true := by decide +kernel
    rw [h] at hok
    cases hok

theorem note_known : MerkleWithHistory.isKnownRoot 90 noteRoot.val sampleState.ledger.pool.merkle = .ok true := by
  have hinv := sample_reachable.inv sample_chain sample_sound
  have hknown := isKnownRoot_current hinv.tree (show MerkleWithHistory.rootHistorySize ≤ 90 by decide)
  rw [show sampleHost.permutation = samplePermutation from rfl, sampleState_leaves] at hknown
  exact hknown (treeRoot_ne_zero (fun _ => sample_treeQuery (by decide) rfl) sample_avoids_zero)

theorem note_verified (network : Text) :
    verifyDisclosureReceipt (noteDeployment network) noteSimulate countBytes
      (verifyDisclosureProof countBytes noteVerifier []) (noteReceipt noteRoot) noteVkHash =
        .ok ⟨true, true, true⟩ := by
  obtain ⟨hvalid, hcontext⟩ := note_valid noteRoot
  obtain ⟨proof, hproof⟩ := note_proof
  have hkey : validateVerifyingKeyHash countBytes [] noteVkHash = .ok true := by decide +kernel
  have hinputs := @publicInputsBytes_eq (noteReceipt noteRoot) _ _ rfl rfl
  have hverifier : noteVerifier [] proof (toLeBytes noteRoot ++ toLeBytes 61 ++ toLeBytes 133) = .ok true := by
    rw [noteVerifier]
    simp [DisclosureSignals.publicInputs, noteSignals]
  have hverified : verifyReceiptProof countBytes noteVerifier (noteReceipt noteRoot) [] noteVkHash = .ok true := by
    rw [verifyReceiptProof, hkey, ok_bind, hvalid, ok_bind, hproof, ok_bind, hinputs, ok_bind]
    exact hverifier
  have hroots : rootsKnown (noteDeployment network) noteSimulate (noteReceipt noteRoot).context.poolAddress
      (noteReceipt noteRoot).publicInputs.roots = .ok true := by
    have hpool : enabledPoolFor (noteDeployment network) sampleContext.poolAddress =
        .ok ⟨sampleContext.poolAddress, true⟩ := by
      simp [enabledPoolFor, noteDeployment]
    have hcall : noteSimulate sampleContext.poolAddress noteRoot = .ok (.bool true) := by
      rw [noteSimulate, Pool.isKnownRoot, show System.sampleContext.budget = 90 from rfl, note_known]
      rfl
    change rootsKnown (noteDeployment network) noteSimulate sampleContext.poolAddress [noteRoot] = _
    rw [rootsKnown, isPoolKnownRoot, hpool, ok_bind, hcall]
    rfl
  rw [verifyDisclosureReceipt, verifyDisclosureProof, hverified, hcontext, hroots]
  rfl

theorem verified_receipt_truthful_testnet :
    Truthful samplePermutation (fun _ _ => noteSignals) (noteDeployment sampleContext.network) (fun _ => sampleState)
      (noteReceipt noteRoot) :=
  (verified_receipt_truthful sample_chain sample_ideal note_sound (note_honest _) _ _ _ (note_verified _) rfl).mpr rfl

/-- The receipt of a testnet pool is verified against a deployment that calls itself another network. -/
theorem verified_receipt_elsewhere :
    ∃ network : Text, Ideal samplePermutation sampleInputs ∧
      SoundProofs samplePermutation sampleInputs noteVerifier [] (fun _ _ => noteSignals) ∧
      Honest sampleHost sampleInputs (noteDeployment network) noteSimulate (fun _ => sampleState) ∧
      verifyDisclosureReceipt (noteDeployment network) noteSimulate countBytes
        (verifyDisclosureProof countBytes noteVerifier []) (noteReceipt noteRoot) noteVkHash = .ok ⟨true, true, true⟩ ∧
      ¬Truthful samplePermutation (fun _ _ => noteSignals) (noteDeployment network) (fun _ => sampleState)
        (noteReceipt noteRoot) := by
  refine ⟨⟨ascii "mainnet", by decide +kernel⟩, sample_ideal, note_sound, note_honest _, note_verified _, ?_⟩
  rintro ⟨-, -, hnetwork⟩
  exact absurd (congrArg (fun network : Text => network.1) hnetwork) (by decide +kernel)

end PrivatePayments.Sdk.Disclosure

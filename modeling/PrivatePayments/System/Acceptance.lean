import PrivatePayments.System.Run

/-! When the pool accepts.  A transaction built from a satisfying assignment of
the circuit passes every check, as long as its nullifiers are fresh, the tree has
room and the tokens can move.  The proof system enters through soundness and
completeness; a verifier that looks for an assignment has both. -/
namespace PrivatePayments.System
open Contracts Contracts.Pool Contracts.Groth16Verifier Circuits Lib.BinaryTree Function

/-- Completeness of the proof system: every satisfying assignment has a proof. -/
def Complete (P : Permutation) (vk : VerificationKey) : Prop :=
  ∀ w : Witness, PolicyTransaction P w → ∃ proof, verify vk proof w.publicInputs = .ok true

def proofOf (groth : Groth16Proof) (w : Witness) : Proof where
  proof := groth
  root := w.root.val
  inputNullifiers := [(w.inputNullifier ⟨0, Nat.zero_lt_two⟩).val, (w.inputNullifier ⟨1, Nat.one_lt_two⟩).val]
  outputCommitment0 := (w.outputCommitment ⟨0, Nat.zero_lt_two⟩).val
  outputCommitment1 := (w.outputCommitment ⟨1, Nat.one_lt_two⟩).val
  publicAmount := w.publicAmount.val
  extDataHash := w.extDataHash.val
  aspMembershipRoot := (w.membershipRoots ⟨0, Nat.zero_lt_two⟩ ⟨0, Nat.zero_lt_one⟩).val
  aspNonMembershipRoot := (w.nonMembershipRoots ⟨0, Nat.zero_lt_two⟩ ⟨0, Nat.zero_lt_one⟩).val

structure PolicyProofs (P : Permutation) (pubkey nonMemberRoot : F) (member : MembershipProof 10)
    (nonMember : NonMembershipProof 10) : Prop where
  leaf : member.leaf = hash2 P pubkey member.blinding 1
  bits : Num2Bits 10 member.pathIndices
  key : nonMember.key = pubkey
  isOld0 : Num2Bits 1 nonMember.isOld0
  verified : SmtVerifier P (nonMember.signals nonMemberRoot)

def memberRoot (P : Permutation) (member : MembershipProof 10) : F :=
  merkleProof P member.leaf member.pathElements member.pathIndices

/-- A draft with the nullifiers and commitments that its private signals give. -/
def completed (P : Permutation) (draft : Witness) : Witness :=
  { draft with
    inputNullifier := draft.inNullifier P
    outputCommitment := draft.outCommitment P }

theorem completed_satisfied {P : Permutation} {draft : Witness}
    (hbits : ∀ slot, Num2Bits 10 (draft.inPathIndices slot))
    (hroot : ∀ slot, ForceEqualIfEnabled (draft.inAmount slot) draft.root (draft.inTreeRoot P slot))
    (hmember : ∀ slot, draft.membershipRoot P slot 0 = draft.membershipRoots slot 0)
    (hpolicy : ∀ slot, PolicyProofs P (draft.publicKey P slot) (draft.nonMembershipRoots slot 0)
      (draft.membershipProofs slot 0) (draft.nonMembershipProofs slot 0))
    (hrange : ∀ out, Num2Bits 248 (draft.outAmount out)) (hne : draft.inNullifier P 0 ≠ draft.inNullifier P 1)
    (hamounts : draft.inAmount 0 + draft.inAmount 1 + draft.publicAmount =
      draft.outAmount 0 + draft.outAmount 1) : PolicyTransaction P (completed P draft) := by
  have hone : ∀ i : Fin 1, i = 0 := fun i => Subsingleton.elim _ _
  refine ⟨fun slot => ⟨rfl, hbits slot, hroot slot, fun i => ?_, fun i => ?_, fun i => ?_,
    fun i => ?_, fun i => ?_, fun i => ?_⟩, fun out => ⟨rfl, hrange out⟩, ?_, ?_⟩
  · rw [hone i]
    exact (hpolicy slot).leaf
  · rw [hone i]
    exact (hpolicy slot).bits
  · rw [hone i]
    exact hmember slot
  · rw [hone i]
    exact (hpolicy slot).key
  · rw [hone i]
    exact (hpolicy slot).isOld0
  · rw [hone i]
    exact (hpolicy slot).verified
  · intro i j hij
    obtain ⟨rfl, rfl⟩ : i = 0 ∧ j = 1 := by omega
    exact if_neg hne
  · rw [Fin.sum_univ_two, Fin.sum_univ_two]
    exact hamounts

structure Acceptable (host : Host) (config : Config) (extract : Extractor) (ctx : Context)
    (ext : ExtData) (x : State) (w : Witness) : Prop where
  satisfied : PolicyTransaction host.permutation w
  root : w.root = treeRoot host.permutation config.levels
    (leaves host.permutation extract x.accepted)
  root_ne : w.root ≠ 0
  budget : MerkleWithHistory.rootHistorySize ≤ ctx.budget
  fresh : ∀ slot, (w.inputNullifier slot).val ∉ publishedNullifiers x.accepted
  extHash : w.extDataHash.val = hashExtData host ext
  amount_lt : |ext.extAmount| < 2 ^ 248
  amount_eq : w.publicAmount = ((ext.extAmount : Int) : F)
  membership : ∀ slot, getAspMembershipRoot ctx x.ledger.pool = .ok (w.membershipRoots slot 0).val
  nonMembership : ∀ slot,
    getAspNonMembershipRoot ctx x.ledger.pool = .ok (w.nonMembershipRoots slot 0).val

section Acceptance
variable {host : Host} {config : Config} {extract : Extractor} {ctx : Context} {ext : ExtData}
  {x : State} {w : Witness} {groth : Groth16Proof} {sender : Address}

theorem proofOf_canonical (groth : Groth16Proof) (w : Witness) : Canonical (proofOf groth w) := by
  refine ⟨val_lt _, val_lt _, ?_, val_lt _, val_lt _, val_lt _, val_lt _⟩
  intro n hn
  simp only [proofOf, List.mem_cons, List.not_mem_nil, or_false] at hn
  rcases hn with rfl | rfl <;> exact val_lt _

theorem proofOf_publicInputs (groth : Groth16Proof) (hmember : w.membershipRoots 1 0 = w.membershipRoots 0 0)
    (hnonMember : w.nonMembershipRoots 1 0 = w.nonMembershipRoots 0 0) :
    (proofOf groth w).publicInputs = w.publicInputs := by
  simp [Proof.publicInputs, Signals.publicInputs, proofOf, List.ofFn_succ, hmember, hnonMember]

theorem Acceptable.publicInputs (h : Acceptable host config extract ctx ext x w)
    (groth : Groth16Proof) : (proofOf groth w).publicInputs = w.publicInputs := by
  have hmember : w.membershipRoots 1 0 = w.membershipRoots 0 0 :=
    ZMod.val_injective _ (Except.ok.inj ((h.membership 1).symm.trans (h.membership 0)))
  have hnonMember : w.nonMembershipRoots 1 0 = w.nonMembershipRoots 0 0 :=
    ZMod.val_injective _ (Except.ok.inj ((h.nonMembership 1).symm.trans (h.nonMembership 0)))
  exact proofOf_publicInputs groth hmember hnonMember

theorem isKnownRoot_current {P : Permutation} {levels budget : Nat} {tree : List F}
    {merkle : MerkleWithHistory.Storage} (htree : MerkleWithHistory.Holds P levels tree merkle)
    (hbudget : MerkleWithHistory.rootHistorySize ≤ budget) (hne : treeRoot P levels tree ≠ 0) :
    MerkleWithHistory.isKnownRoot budget (treeRoot P levels tree).val merkle = .ok true := by
  have hring := htree.ring.isKnownRoot hbudget (treeRoot P levels tree).val
  have hknown : (treeRoot P levels tree).val ≠ 0 ∧ ∃ j, j ≤ tree.length / 2 ∧
      tree.length / 2 < j + MerkleWithHistory.rootHistorySize ∧
      (treeRoot P levels (tree.take (2 * j))).val = (treeRoot P levels tree).val := by
    have heven := htree.even
    refine ⟨fun hzero => hne ((ZMod.val_eq_zero _).mp hzero), _, le_refl _, ?_, ?_⟩
    · simp [MerkleWithHistory.rootHistorySize]
    · rw [List.take_of_length_le (by omega)]
  rw [decide_eq_true hknown] at hring
  exact hring

theorem Acceptable.checked (hinv : Inv host config extract x) (h : Acceptable host config extract ctx ext x w)
    (hverify : verify (host.verificationKey config.verifier) groth w.publicInputs = .ok true) :
    Checked host ctx (proofOf groth w) ext x.ledger.pool where
  known := by
    have hne := h.root_ne
    rw [h.root] at hne
    rw [show (proofOf groth w).root = w.root.val from rfl, h.root]
    exact isKnownRoot_current hinv.tree h.budget hne
  unspent := by
    refine (checkNullifiers_ok hinv.nullifiers).mpr fun n hn => ?_
    simp only [proofOf, List.mem_cons, List.not_mem_nil, or_false] at hn
    rcases hn with rfl | rfl
    · simp [h.fresh 0]
    · simp [h.fresh 1]
  extHash := h.extHash.symm
  amount := by
    rw [calculatePublicAmount_eq h.amount_lt, ← h.amount_eq]
    rfl
  memberRoot := h.membership 0
  nonMemberRoot := h.nonMembership 0
  verified := by
    rw [verifyProof_canonical hinv.verifier (proofOf_canonical groth w), h.publicInputs]
    exact congrArg unwrap hverify

theorem transact_accepted (hchain : ZeroesChain host.permutation) {tree : List F} {levels : Nat}
    (htree : MerkleWithHistory.Holds host.permutation levels tree x.ledger.pool.merkle)
    {nulls : U256 → Option Bool} (hnulls : x.ledger.pool.nullifiers = some nulls)
    {proof : Proof} (hauth : ctx.authorized sender = true)
    (hchecked : Checked host ctx proof ext x.ledger.pool) {l₁ l₂ : Ledger}
    (hdeposit : deposit host ctx ext sender x.ledger = .ok l₁) (hwithdraw : withdraw host ctx ext
      { l₁ with pool := markNullifiers proof.inputNullifiers l₁.pool } = .ok l₂)
    (hroom : tree.length + 2 ≤ 2 ^ levels) :
    ∃ l, transact host ctx proof ext sender x.ledger = .ok ((), l) := by
  obtain ⟨_, _, hpool₁, _⟩ := deposit_ok hdeposit
  obtain ⟨_, _, hpool₂, _⟩ := withdraw_ok hwithdraw
  obtain ⟨_, _, hcanonical, _⟩ := verifyProof_ok hchecked.verified
  obtain ⟨merkle, hinsert, -, -⟩ := htree.insert hchain
    (proof.outputCommitment0 : F) (proof.outputCommitment1 : F) hroom
  rw [val_natCast_of_lt hcanonical.outputCommitment0, val_natCast_of_lt hcanonical.outputCommitment1] at hinsert
  have hmerkle : l₂.pool.merkle = x.ledger.pool.merkle := by
    rw [hpool₂, hpool₁, markNullifiers_eq _ hnulls]
  rw [← hpool₁] at hchecked
  rw [transact, requireAuth, if_pos hauth, ok_bind, hdeposit, ok_bind, internalTransact,
    (checkTransact_ok (u := ())).mpr hchecked, ok_bind]
  dsimp only
  rw [hwithdraw, ok_bind, insertOutputs, hmerkle, hinsert]
  exact ⟨_, rfl⟩

end Acceptance

section Honest
variable {P : Permutation} {known : Set Witness}

instance : Nonempty Witness :=
  ⟨⟨0, 0, 0, fun _ => 0, fun _ => 0, fun _ _ => 0, fun _ _ => 0,
    fun _ _ => ⟨0, 0, .replicate 10 0, 0⟩, fun _ _ => ⟨0, .replicate 10 0, 0, 0, 0⟩,
    fun _ => 0, fun _ => 0, fun _ => 0, fun _ => 0, fun _ => .replicate 10 0,
    fun _ => 0, fun _ => 0, fun _ => 0⟩⟩

open scoped Classical in
noncomputable def honestKey (P : Permutation) : VerificationKey where
  icLength := 12
  pairingCheck _ publicInputs :=
    decide (publicInputs ∈ Signals.publicInputs '' { w : Witness | PolicyTransaction P w })

open scoped Classical in
/-- Finds an assignment for the public inputs, among the known ones if it can. -/
noncomputable def honestExtract (P : Permutation) (known : Set Witness) : Extractor :=
  fun _ publicInputs =>
    if publicInputs ∈ Signals.publicInputs '' known then
      invFunOn Signals.publicInputs known publicInputs
    else invFunOn Signals.publicInputs { w | PolicyTransaction P w } publicInputs

theorem publicInputs_length (w : Witness) : w.publicInputs.length = 11 := by
  simp [Signals.publicInputs, List.ofFn_succ]

theorem honestKey_pairingCheck {groth : Groth16Proof} {publicInputs : List F} :
    (honestKey P).pairingCheck groth publicInputs = true ↔
      publicInputs ∈ Signals.publicInputs '' { w : Witness | PolicyTransaction P w } := by
  simp only [honestKey, decide_eq_true_eq]

theorem honest_verify {w : Witness} (hw : PolicyTransaction P w) (groth : Groth16Proof) :
    verify (honestKey P) groth w.publicInputs = .ok true := by
  rw [verify, publicInputs_length, if_neg (by simp [checkedAdd, honestKey]), if_pos]
  exact honestKey_pairingCheck.mpr ⟨w, hw, rfl⟩

theorem honest_complete : Complete P (honestKey P) :=
  fun _ hw => ⟨⟨.replicate 64 0, .replicate 128 0, .replicate 64 0⟩, honest_verify hw _⟩

theorem honest_sound (hknown : ∀ w ∈ known, PolicyTransaction P w) :
    Sound P (honestKey P) (honestExtract P known) := by
  intro groth publicInputs h
  unfold honestExtract
  by_cases hinputs : publicInputs ∈ Signals.publicInputs '' known
  · rw [if_pos hinputs]
    exact ⟨invFunOn_eq hinputs, hknown _ (invFunOn_mem hinputs)⟩
  · rw [if_neg hinputs]
    have hmem : publicInputs ∈ Signals.publicInputs '' { w : Witness | PolicyTransaction P w } := by
      unfold verify at h
      split at h
      · cases h
      · split at h
        · rename_i haccepted
          exact honestKey_pairingCheck.mp haccepted
        · cases h
    exact ⟨invFunOn_eq hmem, invFunOn_mem hmem⟩

theorem honestExtract_known (hinj : Set.InjOn Signals.publicInputs known) {w : Witness}
    (hw : w ∈ known) (groth : Groth16Proof) : honestExtract P known groth w.publicInputs = w := by
  have hmem : w.publicInputs ∈ Signals.publicInputs '' known := ⟨w, hw, rfl⟩
  rw [honestExtract, if_pos hmem]
  exact hinj (invFunOn_mem hmem) hw (invFunOn_eq hmem)

end Honest

end PrivatePayments.System

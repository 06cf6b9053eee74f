import PrivatePayments.System.FullTree
import PrivatePayments.System.Log

/-! A pool whose verifier accepts every proof, so that its transactions can be chosen. -/
namespace PrivatePayments.System
open Contracts Contracts.Pool Contracts.Groth16Verifier Circuits Lib.BinaryTree

def openHost : Host where
  permutation := flatPermutation
  keccakXdr _ := 0
  this := ⟨0⟩
  verificationKey _ := ⟨12, fun _ _ => true⟩

def openContext : Context where
  authorized address := decide (address ≠ ⟨0⟩)
  aspMembershipRoot _ := some 0
  aspNonMembershipRoot _ := some 0
  refused _ _ _ _ := false
  budget := 90

/-- The transaction number `n`: two nullifiers of its own, two commitments with what is published
along with them, and no tokens. -/
def openTransaction (root : F) (n : Nat) (outputs : Fin 2 → F × List UInt8) : Transaction where
  proof :=
    { proof := ⟨.replicate 64 0, .replicate 128 0, .replicate 64 0⟩
      root := root.val
      inputNullifiers := [2 * n, 2 * n + 1]
      outputCommitment0 := (outputs ⟨0, Nat.zero_lt_two⟩).1.val
      outputCommitment1 := (outputs ⟨1, Nat.one_lt_two⟩).1.val
      publicAmount := 0
      extDataHash := 0
      aspMembershipRoot := 0
      aspNonMembershipRoot := 0 }
  ext := ⟨⟨6⟩, 0, (outputs ⟨0, Nat.zero_lt_two⟩).2, (outputs ⟨1, Nat.one_lt_two⟩).2⟩
  sender := ⟨6⟩

structure Opened (n : Nat) (x : State) : Prop where
  reachable : Reachable openHost sampleConfig x
  size : x.accepted.length = n
  fresh : ∃ nulls, x.ledger.pool.nullifiers = some nulls ∧ ∀ k : Nat, 2 * n ≤ k → nulls k = none

section
variable {n : Nat} {x : State}

theorem Opened.recorded (h : Opened n x) : Recorded openHost sampleConfig x := h.reachable.recorded flat_chain

theorem open_canonical {root : F} {outputs : Fin 2 → F × List UInt8} (hn : n < 512) :
    Canonical (openTransaction root n outputs).proof := by
  have hmodulus : 1024 < bn256Modulus := by decide
  refine ⟨val_lt root, ?_, ?_, val_lt (outputs 0).1, val_lt (outputs 1).1, ?_, ?_⟩
  · exact Nat.zero_lt_of_lt hmodulus
  · change ∀ k : Nat, k ∈ [2 * n, 2 * n + 1] → k < bn256Modulus
    intro k hk
    simp only [List.mem_cons, List.not_mem_nil, or_false] at hk
    omega
  · exact Nat.zero_lt_of_lt hmodulus
  · exact Nat.zero_lt_of_lt hmodulus

theorem Opened.checked (h : Opened n x) (hn : n < 512) {root : F}
    (hroot : treeRoot flatPermutation 10 (inserted x.accepted) = root) (outputs : Fin 2 → F × List UInt8) :
    Checked openHost openContext (openTransaction root n outputs).proof (openTransaction root n outputs).ext
      x.ledger.pool := by
  have hconfigured := h.reachable.configured flat_chain
  obtain ⟨nulls, hnulls, hfresh⟩ := h.fresh
  obtain ⟨aspMembership, hmember⟩ := hconfigured.aspMembership
  obtain ⟨aspNonMembership, hnonMember⟩ := hconfigured.aspNonMembership
  have hne : treeRoot flatPermutation 10 (inserted x.accepted) ≠ 0 := flat_compress_ne_zero _ _
  have hknown := @isKnownRoot_current flatPermutation 10 90 _ _ h.recorded.tree (by decide) hne
  rw [hroot] at hknown
  refine ⟨hknown, ?_, rfl, ?_, ?_, ?_, ?_⟩
  · refine (checkNullifiers_ok hnulls).mpr ?_
    change ∀ k : Nat, k ∈ [2 * n, 2 * n + 1] → (nulls k).getD false = false
    intro k hk
    simp only [List.mem_cons, List.not_mem_nil, or_false] at hk
    rw [hfresh k (by omega), Option.getD_none]
  · change calculatePublicAmount 0 = .ok 0
    decide
  · rw [getAspMembershipRoot, hmember]
    rfl
  · rw [getAspNonMembershipRoot, hnonMember]
    rfl
  · rw [verifyProof_canonical hconfigured.verifier (open_canonical hn)]
    rfl

theorem Opened.step (h : Opened n x) (hn : n < 512) {root : F}
    (hroot : treeRoot flatPermutation 10 (inserted x.accepted) = root) (outputs : Fin 2 → F × List UInt8) :
    ∃ l, transact openHost openContext (openTransaction root n outputs).proof
        (openTransaction root n outputs).ext (openTransaction root n outputs).sender x.ledger = .ok ((), l) ∧
      Opened (n + 1) ⟨l, x.accepted ++ [openTransaction root n outputs]⟩ := by
  set tx := openTransaction root n outputs with htx
  have hconfigured := h.reachable.configured flat_chain
  obtain ⟨nulls, hnulls, hfresh⟩ := h.fresh
  have hmarked := markNullifiers_eq tx.proof.inputNullifiers hnulls
  have hdeposit : deposit openHost openContext tx.ext tx.sender x.ledger = .ok x.ledger := by
    rw [deposit, hconfigured.token, okOr_some, ok_bind]
    rfl
  have hwithdraw : withdraw openHost openContext tx.ext
      { x.ledger with pool := markNullifiers tx.proof.inputNullifiers x.ledger.pool } =
        .ok { x.ledger with pool := markNullifiers tx.proof.inputNullifiers x.ledger.pool } := by
    rw [withdraw, hmarked]
    dsimp only
    rw [hconfigured.token, okOr_some, ok_bind]
    rfl
  have hroom : (inserted x.accepted).length + 2 ≤ 2 ^ 10 := by
    rw [inserted_length, h.size]
    omega
  obtain ⟨l, hcall⟩ := transact_accepted flat_chain h.recorded.tree hnulls (show openContext.authorized tx.sender = true from rfl)
    (h.checked hn hroot outputs) hdeposit hwithdraw hroom
  refine ⟨l, hcall, ?_, ?_, ?_⟩
  · obtain ⟨y, hdeployed, hsteps⟩ := h.reachable
    refine ⟨y, hdeployed, hsteps.tail ?_⟩
    rw [← State.invoke_transact hcall]
    exact .call _ _ (by decide)
  · rw [List.length_append, h.size]
    rfl
  · obtain ⟨index, merkle, -, hpool⟩ := (transact_ok hnulls hcall).inserted
    refine ⟨_, by rw [hpool]; rfl, fun k hk => ?_⟩
    rw [if_neg, hfresh k (by omega)]
    change k ∉ [2 * n, 2 * n + 1]
    simp only [List.mem_cons, List.not_mem_nil, or_false]
    omega

theorem opened_start : Opened 0 sampleStart :=
  ⟨⟨sampleStart, sample_deployed, .refl⟩, rfl, _, rfl, fun _ _ => rfl⟩

end

end PrivatePayments.System

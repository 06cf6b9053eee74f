import PrivatePayments.System.Acceptance

/-! Depositing.  A depositor spends two dummies, which need policy proofs like any
other input, and gets a note over the deposited amount. -/
namespace PrivatePayments.System
open Contracts Contracts.Pool Contracts.Groth16Verifier Circuits Lib.BinaryTree List

structure Deposit where
  amount : F
  privateKey : F
  inBlinding : Fin 2 → F
  outBlinding : Fin 2 → F
  member : MembershipProof 10
  nonMember : NonMembershipProof 10
  recipient : Address
  encryptedOutput : Fin 2 → List UInt8

namespace Deposit
variable (d : Deposit) (host : Host) (tree : List F) (nonMemberRoot : F)

def ext : ExtData where
  recipient := d.recipient
  extAmount := d.amount.val
  encryptedOutput0 := d.encryptedOutput ⟨0, Nat.zero_lt_two⟩
  encryptedOutput1 := d.encryptedOutput ⟨1, Nat.one_lt_two⟩

def draft : Witness where
  root := treeRoot host.permutation 10 tree
  publicAmount := d.amount
  extDataHash := (hashExtData host d.ext : F)
  inputNullifier _ := 0
  outputCommitment _ := 0
  membershipRoots _ _ := memberRoot host.permutation d.member
  nonMembershipRoots _ _ := nonMemberRoot
  membershipProofs _ _ := d.member
  nonMembershipProofs _ _ := d.nonMember
  inAmount _ := 0
  inPrivateKey _ := d.privateKey
  inBlinding := d.inBlinding
  inPathIndices _ := 0
  inPathElements _ := .replicate 10 0
  outAmount := ![d.amount, 0]
  outPubkey _ := keypair host.permutation d.privateKey
  outBlinding := d.outBlinding

def signals : Witness := completed host.permutation (d.draft host tree nonMemberRoot)

theorem inNullifier_draft_output (encryptedOutput : Fin 2 → List UInt8) (P : Permutation) (slot : Fin 2) :
    (({ d with encryptedOutput } : Deposit).draft host tree nonMemberRoot).inNullifier P slot =
      (d.draft host tree nonMemberRoot).inNullifier P slot := rfl

theorem signals_inNullifier (P : Permutation) (slot : Fin 2) : (d.signals host tree nonMemberRoot).inNullifier P slot =
    (d.draft host tree nonMemberRoot).inNullifier P slot := rfl

end Deposit

section Accepted
variable {d : Deposit} {host : Host} {config : Config} {extract : Extractor} {x : State}
  {ctx : Context} {sender : Address} {tree : List F} {nonMemberRoot : F}

theorem Deposit.satisfied
    (hpolicy : PolicyProofs host.permutation (keypair host.permutation d.privateKey) nonMemberRoot
      d.member d.nonMember) (hrange : d.amount.val < 2 ^ 248)
    (hne : (d.draft host tree nonMemberRoot).inNullifier host.permutation 0 ≠
      (d.draft host tree nonMemberRoot).inNullifier host.permutation 1) :
    PolicyTransaction host.permutation (d.signals host tree nonMemberRoot) := by
  apply completed_satisfied
  · intro slot
    change (0 : F).val < 2 ^ 10
    decide
  · intro slot hamount
    exact absurd rfl hamount
  · intro slot
    rfl
  · intro slot
    exact hpolicy
  · intro out
    fin_cases out
    · exact hrange
    · change (0 : F).val < 2 ^ 248
      decide
  · exact hne
  · simp [Deposit.draft]

/-- The circumstances of the call.  A deposit of nothing moves no tokens. -/
structure Depositable (host : Host) (config : Config) (ctx : Context) (sender : Address) (x : State)
    (d : Deposit) : Prop where
  auth : ctx.authorized sender = true
  budget : MerkleWithHistory.rootHistorySize ≤ ctx.budget
  limit : ∃ max, x.ledger.pool.maximumDepositAmount = some max ∧ d.amount.val ≤ max
  funds : d.amount.val ≤ x.ledger.balance config.token sender
  receive : d.amount ≠ 0 → x.ledger.balance config.token host.this + d.amount.val < 2 ^ 127
  refused : d.amount ≠ 0 → ctx.refused config.token sender host.this d.amount.val = false

theorem Depositable.amount_lt (h : Depositable host config ctx sender x d) : d.amount.val < 2 ^ 127 := by
  by_cases hzero : d.amount = 0
  · rw [hzero]
    decide
  · have hreceive := h.receive hzero
    omega

theorem Depositable.deposit (h : Depositable host config ctx sender x d)
    (htoken : x.ledger.pool.token = some config.token) :
    ∃ l, Pool.deposit host ctx d.ext sender x.ledger = .ok l := by
  obtain ⟨max, hmax, hle⟩ := h.limit
  rw [Pool.deposit, htoken, okOr_some, ok_bind]
  split
  · rename_i hpos
    have hne : d.amount ≠ 0 := by
      intro hzero
      simp [Deposit.ext, hzero] at hpos
    have hbelow : ¬d.ext.extAmount.toNat > max := by
      change ¬((d.amount.val : Nat) : Int).toNat > max
      omega
    rw [hmax, okOr_some, ok_bind, failIf_neg hbelow, ok_bind]
    change ∃ l, (i256ToI128Nonneg d.amount.val >>= fun amount => _) = .ok l
    rw [i256ToI128Nonneg_eq h.amount_lt, ok_bind]
    exact transfer_accepted (h.refused hne) h.funds (h.receive hne)
  · exact ⟨_, rfl⟩

theorem Deposit.withdraw_eq {token : Address} {l : Ledger} (htoken : l.pool.token = some token) :
    withdraw host ctx d.ext l = .ok l := by
  rw [withdraw, htoken, okOr_some, ok_bind, if_neg]
  · rfl
  · change ¬(d.amount.val : Int) < 0
    omega

/-- A deposit with policy proofs under the current roots and two new nullifiers
goes through as long as the tree has room. -/
theorem deposit_accepted (hchain : ZeroesChain host.permutation) (hinv : Inv host config extract x)
    (hlevels : config.levels = 10) (hroom : x.accepted.length < 512)
    (hpolicy : PolicyProofs host.permutation (keypair host.permutation d.privateKey) nonMemberRoot
      d.member d.nonMember)
    (hmember : getAspMembershipRoot ctx x.ledger.pool =
      .ok (memberRoot host.permutation d.member).val)
    (hnonMember : getAspNonMembershipRoot ctx x.ledger.pool = .ok nonMemberRoot.val)
    (hdepositable : Depositable host config ctx sender x d)
    (hroot : treeRoot host.permutation 10 (leaves host.permutation extract x.accepted) ≠ 0)
    (hne : (d.draft host tree nonMemberRoot).inNullifier host.permutation 0 ≠
      (d.draft host tree nonMemberRoot).inNullifier host.permutation 1)
    (hfresh : ∀ slot, ((d.draft host tree nonMemberRoot).inNullifier host.permutation slot).val ∉
      publishedNullifiers x.accepted)
    (htree : tree = leaves host.permutation extract x.accepted) {groth : Groth16Proof}
    (hverify : verify (host.verificationKey config.verifier) groth
      (d.signals host tree nonMemberRoot).publicInputs = .ok true) :
    ∃ l, transact host ctx (proofOf groth (d.signals host tree nonMemberRoot)) d.ext sender
      x.ledger = .ok ((), l) := by
  have hlt := hdepositable.amount_lt
  have hsat := Deposit.satisfied hpolicy (by omega) hne
  have hlength : (leaves host.permutation extract x.accepted).length = 2 * x.accepted.length := leaves_length x.accepted
  have hacceptable : Acceptable host config extract ctx d.ext x (d.signals host tree nonMemberRoot) := by
    refine ⟨hsat, ?_, ?_, hdepositable.budget, hfresh, ?_, ?_, ?_, fun _ => hmember, fun _ => hnonMember⟩
    · rw [hlevels, ← htree]
      rfl
    · rw [← htree] at hroot
      exact hroot
    · exact val_natCast_of_lt (Nat.mod_lt _ (by decide))
    · change |(d.amount.val : Int)| < 2 ^ 248
      rw [Nat.abs_cast]
      omega
    · change d.amount = (((d.amount.val : Nat) : Int) : F)
      rw [Int.cast_natCast, natCast_val]
  obtain ⟨deposited, hdeposit⟩ := hdepositable.deposit hinv.token
  obtain ⟨_, _, hpool, _⟩ := deposit_ok hdeposit
  have hmarked := markNullifiers_eq
    (proofOf groth (d.signals host tree nonMemberRoot)).inputNullifiers (hpool ▸ hinv.nullifiers)
  apply transact_accepted hchain hinv.tree hinv.nullifiers hdepositable.auth (hacceptable.checked hinv hverify) hdeposit
  · apply Deposit.withdraw_eq
    rw [hmarked]
    exact (congrArg Storage.token hpool).trans hinv.token
  · rw [hlevels]
    omega

end Accepted

end PrivatePayments.System

import PrivatePayments.System.Run

/-! What a pool has published and inserted, read off the accepted transactions.
Nothing here rests on the soundness of the proofs. -/
namespace PrivatePayments.System
open Contracts Contracts.Pool

def inserted (txs : List Transaction) : List F :=
  txs.flatMap fun tx => [(tx.proof.outputCommitment0 : F), (tx.proof.outputCommitment1 : F)]

theorem inserted_append (txs : List Transaction) (tx : Transaction) :
    inserted (txs ++ [tx]) = inserted txs ++
      [(tx.proof.outputCommitment0 : F), (tx.proof.outputCommitment1 : F)] := by
  simp [inserted]

theorem inserted_length (txs : List Transaction) : (inserted txs).length = 2 * txs.length := by
  simp [inserted, List.length_flatMap, Nat.mul_comm]

structure Recorded (host : Host) (config : Config) (x : State) : Prop where
  tree : MerkleWithHistory.Holds host.permutation config.levels (inserted x.accepted)
    x.ledger.pool.merkle
  nullifiers : ∃ nulls, x.ledger.pool.nullifiers = some nulls
  events : x.ledger.pool.events = events x.accepted
  canonical : ∀ tx ∈ x.accepted, Canonical tx.proof

section
variable {host : Host} {config : Config} {x y : State}

section
variable (hchain : ZeroesChain host.permutation)
include hchain

theorem Deployed.recorded (h : Deployed config x) :
    Recorded host config x := by
  obtain ⟨merkle, balance, hholds, -, -, rfl⟩ := h.start hchain
  exact ⟨hholds, ⟨_, rfl⟩, rfl, by simp⟩

theorem Recorded.transact (h : Recorded host config x)
    {ctx : Context} {tx : Transaction} {l : Ledger}
    (hcall : Pool.transact host ctx tx.proof tx.ext tx.sender x.ledger = .ok ((), l)) :
    Recorded host config ⟨l, x.accepted ++ [tx]⟩ := by
  obtain ⟨nulls, hnulls⟩ := h.nullifiers
  have haccepted := transact_ok hnulls hcall
  obtain ⟨index, merkle, hinsert, hpool⟩ := haccepted.inserted
  obtain ⟨-, -, -, rfl, hholds, -⟩ := h.tree.insert_ok hchain hinsert
  obtain ⟨_, -, hcanonical, -⟩ := verifyProof_ok haccepted.checked.verified
  refine ⟨?_, ⟨_, by rw [hpool]; rfl⟩, ?_, ?_⟩
  · simp only [hpool, recorded, inserted_append]
    exact hholds
  · simp only [hpool, recorded, h.events, events_append, txEvents, inserted_length, List.append_assoc]
  · intro t ht
    rcases List.mem_append.mp ht with ht | ht
    · exact h.canonical t ht
    · rw [List.mem_singleton.mp ht]
      exact hcanonical

theorem Recorded.step (h : Recorded host config x)
    (hstep : Step host x y) : Recorded host config y := by
  rcases hstep.cases with rfl | ⟨ctx, tx, l, -, hcall, rfl⟩ | ⟨_, _, _, rfl, -⟩ | ⟨_, -, rfl⟩
  · exact h
  · exact h.transact hchain hcall
  · exact ⟨h.tree, h.nullifiers, h.events, h.canonical⟩
  · exact ⟨h.tree, h.nullifiers, h.events, h.canonical⟩

theorem Reachable.recorded (h : Reachable host config x) :
    Recorded host config x := by
  obtain ⟨y, hdeployed, hsteps⟩ := h
  induction hsteps with
  | refl => exact hdeployed.recorded hchain
  | tail _ hstep ih => exact ih.step hchain hstep

end

structure Configured (config : Config) (x : State) : Prop where
  admin : ∃ admin, x.ledger.pool.admin = some admin
  token : x.ledger.pool.token = some config.token
  verifier : x.ledger.pool.verifier = some config.verifier
  aspMembership : ∃ address, x.ledger.pool.aspMembership = some address
  aspNonMembership : ∃ address, x.ledger.pool.aspNonMembership = some address
  maximum : x.ledger.pool.maximumDepositAmount = some config.maximumDepositAmount

theorem Deployed.configured (h : Deployed config x) : Configured config x := by
  obtain ⟨hdeploy, -⟩ := h
  obtain ⟨⟨_, merkle⟩, -, hpool⟩ := bind_eq_ok hdeploy
  obtain ⟨⟨pool, balance⟩, accepted⟩ := x
  cases hpool
  exact ⟨⟨_, rfl⟩, rfl, rfl, ⟨_, rfl⟩, ⟨_, rfl⟩, rfl⟩

theorem Configured.step (hrecorded : Recorded host config x) (h : Configured config x)
    (hstep : Step host x y) : Configured config y := by
  rcases hstep.cases with rfl | ⟨ctx, tx, l, -, hcall, rfl⟩ | ⟨_, _, _, rfl, hadmin, hmembership, hnonMembership⟩ |
    ⟨_, -, rfl⟩
  · exact h
  · obtain ⟨nulls, hnulls⟩ := hrecorded.nullifiers
    obtain ⟨index, merkle, -, hpool⟩ := (transact_ok hnulls hcall).inserted
    constructor <;> simp only [hpool, recorded]
    exacts [h.admin, h.token, h.verifier, h.aspMembership, h.aspNonMembership, h.maximum]
  · simp only [Option.isSome_iff_exists] at hadmin hmembership hnonMembership
    exact ⟨hadmin h.admin, h.token, h.verifier, hmembership h.aspMembership, hnonMembership h.aspNonMembership, h.maximum⟩
  · exact ⟨h.admin, h.token, h.verifier, h.aspMembership, h.aspNonMembership, h.maximum⟩

theorem Reachable.configured (hchain : ZeroesChain host.permutation) (h : Reachable host config x) :
    Configured config x := by
  obtain ⟨y, hdeployed, hsteps⟩ := h
  induction hsteps with
  | refl => exact hdeployed.configured
  | tail hbefore hstep ih => exact ih.step (Reachable.recorded hchain ⟨y, hdeployed, hbefore⟩) hstep

end

end PrivatePayments.System

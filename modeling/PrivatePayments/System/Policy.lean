import PrivatePayments.System.Spending
import PrivatePayments.Contracts.AspMembership
import PrivatePayments.Contracts.NonMembership.Map

/-! The policies of the association set provider hold for every input of every
accepted transaction, dummies included. -/
namespace PrivatePayments.System
open Contracts Contracts.Pool Circuits Lib.BinaryTree List

/-- The ASP addresses of the pool are those of two ASP contracts in the given
states. -/
structure Serves (ctx : Context) (s : Pool.Storage) (members : AspMembership.Storage)
    (blocked : AspNonMembership.Storage) : Prop where
  membership : ∃ address, s.aspMembership = some address ∧
    ctx.aspMembershipRoot address = (AspMembership.getRoot members).toOption
  nonMembership : ∃ address, s.aspNonMembership = some address ∧
    ctx.aspNonMembershipRoot address = (AspNonMembership.getRoot blocked).toOption

/-- Everything hashed by the two ASP contracts, by the circuit on one witness, and
for the empty subtrees. -/
def policyQueries (P : Permutation) (members : AspMembership.Storage)
    (blocked : AspNonMembership.Storage) (w : Witness) : Set Query :=
  { q | q ∈ members.hashed ∨ q ∈ blocked.hashed ∨ q ∈ w.queries P ∨
    ∃ i, i < 32 ∧ q = .compress (zeroAt i) (zeroAt i) }

section Roots
variable {ctx : Context} {s : Pool.Storage} {members : AspMembership.Storage}
  {blocked : AspNonMembership.Storage} {root value : Nat}

theorem trapNone_eq_ok {α : Type} {a : α} {value : Option α} (h : trapNone value = .ok a) : value = some a := by
  cases value <;> cases h
  rfl

theorem Serves.membership_root (h : Serves ctx s members blocked) (hroot : AspMembership.getRoot members = .ok value)
    (hget : getAspMembershipRoot ctx s = .ok root) : root = value := by
  obtain ⟨address, haddress, hctx⟩ := h.membership
  rw [getAspMembershipRoot, haddress, okOr_some, ok_bind, hctx, hroot] at hget
  exact (Option.some.inj (trapNone_eq_ok hget)).symm

theorem Serves.nonMembership_root (h : Serves ctx s members blocked)
    (hroot : AspNonMembership.getRoot blocked = .ok value)
    (hget : getAspNonMembershipRoot ctx s = .ok root) : root = value := by
  obtain ⟨address, haddress, hctx⟩ := h.nonMembership
  rw [getAspNonMembershipRoot, haddress, okOr_some, ok_bind, hctx, hroot] at hget
  exact (Option.some.inj (trapNone_eq_ok hget)).symm

end Roots

section Slots
variable {P : Permutation} {Q : Set Query} {w : Witness} (slot : Fin 2)

theorem membershipLeaf_mem {leaves : List F} (hideal : Ideal P Q) (hw : PolicyTransaction P w)
    (hcovers : Covers P Q w) (htree : ∀ input ∈ treeInputs (compress P) (padded zeroLeaf leaves) 10,
      .compress input.1 input.2 ∈ Q) (hroot : w.membershipRoots slot 0 = treeRoot P 10 leaves) :
    w.membershipLeaf P slot 0 ∈ leaves := by
  have hinput := hw.inputs slot
  have hleaf := merkleProof_sound hideal.collisionFree htree
    (fun q hq => hcovers.membershipPath slot 0 hq) (hinput.membershipBits 0)
    ((hinput.membershipRoot 0).trans hroot)
  rw [hinput.membershipLeaf 0] at hleaf
  by_cases hlt : (w.membershipProofs slot 0).pathIndices.val < leaves.length
  · rw [hleaf, padded_lt hlt]
    exact getElem_mem hlt
  · rw [padded_ge (not_lt.mp hlt)] at hleaf
    have hquery : .hash2 (w.publicKey P slot) (w.membershipProofs slot 0).blinding 1 ∈ Q :=
      hcovers.input slot (by simp [Signals.inputQueries])
    exact absurd hleaf (hideal.nonzeroLeaf _ hquery)

theorem publicKey_notMem {t : AspNonMembership.Tree} (hsafe : AspNonMembership.Safe P Q)
    (hw : PolicyTransaction P w) (hcovers : Covers P Q w)
    (hcanonical : Lib.SparseTree.Canonical AspNonMembership.smtBit 0 t) (hknown : AspNonMembership.Known P Q t)
    (hroot : w.nonMembershipRoots slot 0 = AspNonMembership.treeHash P t) : w.publicKey P slot ∉ t.keys := by
  have hinput := hw.inputs slot
  have hbit : Num2Bits 1 (num2Bits (w.nonMembershipProofs slot 0).isOld0 0) := by
    rw [num2Bits]
    split <;> decide
  have hkey := (hinput.nonMembership 0).notMem hsafe hbit rfl rfl
    (fun q hq => hcovers.nonMembership slot 0 hq) hcanonical hknown hroot
  rwa [show (w.nonMembershipVerifier slot 0).key = w.publicKey P slot from hinput.nonMembershipKey 0] at hkey

end Slots

section Policy
variable {host : Host} {config : Config} {extract : Extractor} {x : State} {ctx : Context}
  {members : AspMembership.Storage} {blocked : AspNonMembership.Storage} {tx : Transaction}
  {l : Ledger} {memberLeaves : List U256} {entries : List (F × F)}

/-- Whatever the histories of the two ASP contracts and whatever the prover
chose, the public key of each input slot of an accepted transaction has a leaf in
the membership tree and is not a key of the non-membership map. -/
theorem policy_enforced (hchain : ZeroesChain host.permutation)
    (hsound : Sound host.permutation (host.verificationKey config.verifier) extract)
    (hreach : Reachable host config x) (hmembers : AspMembership.History host.permutation 10 memberLeaves members)
    (hblocked : AspNonMembership.History host.permutation entries blocked)
    (hserves : Serves ctx x.ledger.pool members blocked) (hideal : Ideal host.permutation
      (policyQueries host.permutation members blocked (witness extract tx))) (hnonzero : Avoids host.permutation
      (policyQueries host.permutation members blocked (witness extract tx)) 0)
    (hcall : transact host ctx tx.proof tx.ext tx.sender x.ledger = .ok ((), l)) (slot : Fin 2) :
    (∃ blinding, (hash2 host.permutation ((witness extract tx).publicKey host.permutation slot)
      blinding 1).val ∈ memberLeaves) ∧
    (witness extract tx).publicKey host.permutation slot ∉ entries.map Prod.fst := by
  have h := hreach.inv hchain hsound
  have hchecked := (transact_ok h.nullifiers hcall).checked
  have hvalid := valid_of_checked hsound h.verifier hchecked
  have hcovers : Covers host.permutation
      (policyQueries host.permutation members blocked (witness extract tx)) (witness extract tx) :=
    fun q hq => .inr (.inr (.inl hq))
  have hsafe : AspNonMembership.Safe host.permutation
      (policyQueries host.permutation members blocked (witness extract tx)) :=
    ⟨hideal.collisionFree, hnonzero⟩
  constructor
  · obtain ⟨hholds, hfield⟩ := hmembers.holds hchain
    have hroot := hserves.membership_root hholds.getRoot hchecked.memberRoot
    have hmem := membershipLeaf_mem slot hideal hvalid.satisfied hcovers ?_
      (by rw [hvalid.agrees.membershipRoots, hroot, natCast_val])
    · obtain ⟨leaf, hleaf, heq⟩ := mem_map.mp hmem
      refine ⟨((witness extract tx).membershipProofs slot 0).blinding, ?_⟩
      have hval := congrArg ZMod.val heq
      rw [val_natCast_of_lt (hfield leaf hleaf)] at hval
      rw [Signals.membershipLeaf] at hval
      rwa [← hval]
    · intro input hin
      rcases hholds.logged input hin with hlogged | ⟨i, hi, rfl⟩
      · exact .inl hlogged
      · exact .inr (.inr (.inr ⟨i, by omega, rfl⟩))
  · obtain ⟨t, ht, hperm⟩ := hblocked.represents (hsafe.mono fun q hq => .inr (.inl hq))
    have hget : AspNonMembership.getRoot blocked =
        .ok (AspNonMembership.treeHash host.permutation t).val := by
      rw [AspNonMembership.getRoot, ht.root]
      rfl
    have hroot := hserves.nonMembership_root hget hchecked.nonMemberRoot
    rw [← AspNonMembership.mem_keys_iff hperm]
    exact publicKey_notMem slot hsafe hvalid.satisfied hcovers ht.canonical (ht.known.mono fun q hq => .inr (.inl hq))
      (by rw [hvalid.agrees.nonMembershipRoots, hroot, natCast_val])

end Policy

theorem sample_memberRoot :
    memberRoot samplePermutation sampleDeposit.member = treeRoot samplePermutation 10 [51] := by
  have hpath : sampleDeposit.member.pathElements.toList =
      siblingsOf (compress samplePermutation) (padded zeroLeaf [51]) 10 0 0 := by
    rw [siblingsOf_zero sample_chain (by omega) (by simp)]
    rfl
  exact @merkleProof_complete 10 samplePermutation 0 _ (padded zeroLeaf [51]) 0 rfl (by decide) hpath

theorem sample_members : ∃ members, AspMembership.History samplePermutation 10 [51] members ∧
    AspMembership.getRoot members = .ok (memberRoot samplePermutation sampleDeposit.member).val ∧
    ∀ q ∈ members.hashed, q ∈ sampleInputs := by
  obtain ⟨s, hdeploy, hholds⟩ := AspMembership.constructor_holds sample_chain ⟨1⟩ (show 1 ≤ 10 by omega) (by omega)
  have hauth : AspMembership.checkInsert (fun _ => true) s = .ok () := by
    cases hdeploy
    rfl
  obtain ⟨members, hinsert, hinserted, honly⟩ := hholds.insert sample_chain hauth 51 (by decide)
  refine ⟨members, .call (.start hdeploy) (show AspMembership.exec samplePermutation _ (.insertLeaf 51) s = _ from hinsert), ?_, ?_⟩
  · rw [hinserted.getRoot, sample_memberRoot]
    rfl
  · intro q hq
    rcases honly q hq with hold | hnew
    · cases hdeploy
      cases hold
    · rcases hnew.small sample_chain (by omega) (by simp) with ⟨i, hi, rfl⟩ | rfl | ⟨input, hin, rfl⟩
      · exact sample_zeroes hi
      · exact sample_zeroes (show 0 < 32 by omega)
      · rw [siblingsOf_zero sample_chain (by omega) (by simp)] at hin
        exact sample_path (k := 120) (by decide +kernel) input hin

/-- The sender of the deposit is a member, and another key is blocked. -/
theorem policy_enforced_sample : ∃ members blocked,
    AspMembership.History samplePermutation 10 [51] members ∧
    AspNonMembership.History samplePermutation [(2, 9)] blocked ∧
    Serves sampleContext sampleStart.ledger.pool members blocked ∧
    ∀ slot, (∃ blinding, (hash2 samplePermutation
      ((witness sampleExtract sampleTransaction).publicKey samplePermutation slot) blinding 1).val ∈ [51]) ∧
      (witness sampleExtract sampleTransaction).publicKey samplePermutation slot ≠ 2 := by
  obtain ⟨members, hmembers, hroot, hhashed⟩ := sample_members
  obtain ⟨blocked, hblocked, hqueries, hleaf⟩ : ∃ blocked,
      AspNonMembership.History samplePermutation [(2, 9)] blocked ∧ blocked.hashed = [.hash2 2 9 1] ∧
      AspNonMembership.getRoot blocked = .ok (hash2 samplePermutation 2 9 1).val :=
    ⟨_, .call (.start (show AspNonMembership.constructor ⟨1⟩ .fresh = _ from rfl))
      (show AspNonMembership.exec _ (fun _ => true) (.insertLeaf 2 9) _ = _ from rfl), rfl, rfl⟩
  have hserves : Serves sampleContext sampleStart.ledger.pool members blocked := by
    refine ⟨⟨⟨4⟩, rfl, ?_⟩, ⟨⟨5⟩, rfl, ?_⟩⟩
    · rw [hroot]
      rfl
    · have hdigest : hash2 samplePermutation 2 9 1 = 55 := sample_digest (by decide)
      rw [hleaf, hdigest]
      rfl
  have hsub : policyQueries samplePermutation members blocked (witness sampleExtract sampleTransaction) ⊆
      sampleInputs := by
    rintro q (hq | hq | hq | ⟨i, hi, rfl⟩)
    · exact hhashed q hq
    · rw [hqueries, mem_singleton] at hq
      rw [hq]
      exact sample_input (d := 55) (by decide)
    · rw [sample_witness] at hq
      exact sample_covers q hq
    · exact sample_zeroes hi
  obtain ⟨l, hcall⟩ := sample_accepted
  refine ⟨members, blocked, hmembers, hblocked, hserves, fun slot => ?_⟩
  have h := @policy_enforced sampleHost sampleConfig sampleExtract sampleStart sampleContext members blocked
    sampleTransaction l [51] [(2, 9)] sample_chain sample_sound ⟨_, sample_deployed, .refl⟩ hmembers hblocked
    hserves ⟨sample_collisionFree.mono hsub, sample_avoids_zeroLeaf.mono hsub⟩
    (sample_avoids_zero.mono hsub) hcall slot
  exact ⟨h.1, fun heq => h.2 (mem_singleton.mpr heq)⟩

end PrivatePayments.System

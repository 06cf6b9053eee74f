import PrivatePayments.System.Spending

/-! The pool is solvent: what has been paid in and not out again is the total of
the unspent notes.  Every check of `transact` is passed by an honest withdrawal of
an unspent note, so what can still stop it is a tree without room. -/
namespace PrivatePayments.System
open Contracts Contracts.Pool Contracts.Groth16Verifier Circuits Lib.BinaryTree List

def insertedCommitments (events : List Event) : List U256 :=
  events.filterMap fun
    | .newCommitment commitment _ _ => some commitment
    | .newNullifier _ => none

def amountAt (extract : Extractor) (txs : List Transaction) (index : Nat) : Nat :=
  (((notes extract txs)[index]?).map fun note => note.amount.val).getD 0

/-- The total amount of the inserted notes that no accepted transaction spends. -/
def unspentTotal (extract : Extractor) (txs : List Transaction) : Nat :=
  (((List.range (notes extract txs).length).filter (· ∉ spentIndexes extract txs)).map
    (amountAt extract txs)).sum

def inTotal (w : Witness) : Nat := ∑ slot, (w.inAmount slot).val

def outTotal (w : Witness) : Nat := ∑ out, (w.outAmount out).val

section Totals
variable {extract : Extractor} {txs : List Transaction}

theorem sum_amountAt :
    ((List.range (notes extract txs).length).map (amountAt extract txs)).sum =
      (txs.map fun tx => outTotal (witness extract tx)).sum := by
  have hlist : (List.range (notes extract txs).length).map (amountAt extract txs) =
      (notes extract txs).map fun note => note.amount.val := by
    apply ext_getElem (by simp)
    intro i hi hi'
    rw [length_map] at hi'
    simp [amountAt, getElem?_eq_getElem hi']
  rw [hlist, notes, map_flatMap]
  clear hlist
  induction txs with
  | nil => rfl
  | cons tx rest ih =>
    rw [flatMap_cons, sum_append, ih, map_cons, sum_cons]
    simp [outputNotes, outTotal]

theorem sum_spends :
    ((spends extract txs).map fun spend => ((witness extract spend.1).inAmount spend.2).val).sum =
      (txs.map fun tx => inTotal (witness extract tx)).sum := by
  induction txs with
  | nil => rfl
  | cons tx rest ih =>
    rw [map_cons, sum_cons, ← ih, spends, flatMap_cons, map_append, sum_append]
    congr 1
    by_cases h0 : (witness extract tx).inAmount 0 = 0 <;>
      by_cases h1 : (witness extract tx).inAmount 1 = 0 <;>
      simp [inTotal, finRange_succ, h0, h1]

theorem sum_filter_notMem {n : Nat} {indexes : List Nat} (hnodup : indexes.Nodup)
    (hlt : ∀ i ∈ indexes, i < n) (amount : Nat → Nat) :
    (((List.range n).filter (· ∉ indexes)).map amount).sum + (indexes.map amount).sum =
      ((List.range n).map amount).sum := by
  have hperm : ((List.range n).filter (· ∈ indexes)).Perm indexes := by
    rw [perm_ext_iff_of_nodup (nodup_range.filter _) hnodup]
    intro i
    simp only [mem_filter, mem_range, decide_eq_true_eq]
    exact ⟨fun h => h.2, fun h => ⟨hlt i h, h⟩⟩
  rw [← (hperm.map amount).sum_eq, Nat.add_comm, ← sum_append, ← map_append]
  have hsplit := filter_append_perm (fun i => decide (i ∈ indexes)) (List.range n)
  rw [← (hsplit.map amount).sum_eq]
  simp

end Totals

section Solvency
variable {host : Host} {config : Config} {extract : Extractor} {x : State} {Q : Set Query}

theorem extTotal_eq {txs : List Transaction}
    (hbalanced : ∀ tx ∈ txs, (inTotal (witness extract tx) : Int) + tx.ext.extAmount =
      outTotal (witness extract tx)) :
    ((txs.map fun tx => inTotal (witness extract tx)).sum : Int) + extTotal txs =
      (txs.map fun tx => outTotal (witness extract tx)).sum := by
  induction txs with
  | nil => rfl
  | cons tx rest ih =>
    obtain ⟨hhere, hrest⟩ := forall_mem_cons.mp hbalanced
    have ih := ih hrest
    simp only [extTotal, map_cons, sum_cons, Nat.cast_add] at ih ⊢
    omega

section
variable (h : Inv host config extract x) (hlevels : config.levels = 10)
  (hQ : runQueries host.permutation extract x ⊆ Q) (hideal : Ideal host.permutation Q)
include h hlevels hQ hideal

theorem Inv.spent_note {spend : Transaction × Fin 2} (hspend : spend ∈ spends extract x.accepted) :
    ∃ note, (notes extract x.accepted)[spentIndex extract spend]? = some note ∧
      note.amount = (witness extract spend.1).inAmount spend.2 := by
  obtain ⟨htx, hamount⟩ := mem_spends.mp hspend
  obtain ⟨j, hj⟩ := h.witness_root htx
  have hcovers := covers_of_mem hQ htx
  exact exists_note hQ hideal.collisionFree hcovers
    (h.opened hlevels hQ hideal (h.valid _ htx).satisfied hcovers hj hamount)

theorem Inv.inAmount_lt {tx : Transaction} (htx : tx ∈ x.accepted) (slot : Fin 2) :
    ((witness extract tx).inAmount slot).val < 2 ^ 248 := by
  by_cases hzero : (witness extract tx).inAmount slot = 0
  · rw [hzero, ZMod.val_zero]
    decide
  · obtain ⟨note, hnote, hamount⟩ := h.spent_note hlevels hQ hideal
      (mem_spends.mpr ⟨htx, hzero⟩ : (tx, slot) ∈ spends extract x.accepted)
    obtain ⟨origin, horigin, out, rfl⟩ := mem_notes.mp (mem_of_getElem? hnote)
    rw [← hamount]
    exact ((h.valid origin horigin).satisfied.outputs out).amountCheck

theorem Inv.balanced {tx : Transaction} (htx : tx ∈ x.accepted) :
    (inTotal (witness extract tx) : Int) + tx.ext.extAmount = outTotal (witness extract tx) := by
  have hvalid := h.valid tx htx
  have hsum := hvalid.satisfied.amounts_int (by decide) (h.inAmount_lt hlevels hQ hideal htx)
    hvalid.amount_lt hvalid.amount_eq
  rw [inTotal, outTotal]
  push_cast
  exact hsum

theorem Inv.sum_spent :
    ((spentIndexes extract x.accepted).map (amountAt extract x.accepted)).sum =
      (x.accepted.map fun tx => inTotal (witness extract tx)).sum := by
  rw [← sum_spends, spentIndexes, map_map]
  apply congrArg List.sum
  apply map_congr_left
  intro spend hspend
  obtain ⟨note, hnote, hamount⟩ := h.spent_note hlevels hQ hideal hspend
  simp [amountAt, hnote, hamount]

theorem Inv.extTotal_eq_unspentTotal
    : extTotal x.accepted = unspentTotal extract x.accepted := by
  have hlt : ∀ i ∈ spentIndexes extract x.accepted, i < (notes extract x.accepted).length := by
    intro i hi
    obtain ⟨spend, hspend, rfl⟩ := mem_map.mp hi
    obtain ⟨note, hnote, -⟩ := h.spent_note hlevels hQ hideal hspend
    exact (List.getElem?_eq_some_iff.mp hnote).1
  have hsplit := sum_filter_notMem (h.spentIndexes_nodup hlevels hQ hideal) hlt (amountAt extract x.accepted)
  rw [h.sum_spent hlevels hQ hideal, sum_amountAt] at hsplit
  have htotal := extTotal_eq fun tx htx => h.balanced hlevels hQ hideal htx
  rw [unspentTotal]
  omega

end

theorem insertedCommitments_events {txs : List Transaction} (hvalid : ∀ tx ∈ txs, Valid host.permutation extract tx) :
    (insertedCommitments (events txs)).map (fun c : Nat => (c : F)) = leaves host.permutation extract txs := by
  induction txs using List.reverseRecOn with
  | nil => rfl
  | append_singleton txs tx ih =>
    have htx := (hvalid tx (by simp)).leaves
    have ih := ih fun t ht => hvalid t (mem_append_left _ ht)
    rw [leaves_append, htx, events_append, ← ih, insertedCommitments, filterMap_append, map_append]
    congr 1
    simp [txEvents, filterMap_append, filterMap_map]

/-- In every reachable state the accepted external amounts sum, as integers, to
the total of the unspent notes, the pool holds at least that many tokens, and no
accepted transaction balances only modulo the field size. -/
theorem pool_solvent (hchain : ZeroesChain host.permutation)
    (hsound : Sound host.permutation (host.verificationKey config.verifier) extract)
    (hlevels : config.levels = 10) (hreach : Reachable host config x)
    (hideal : Ideal host.permutation (runQueries host.permutation extract x)) :
    (insertedCommitments x.ledger.pool.events).map (fun c : Nat => (c : F)) =
      (notes extract x.accepted).map (Note.commitment host.permutation) ∧
    extTotal x.accepted = unspentTotal extract x.accepted ∧
    unspentTotal extract x.accepted ≤ x.ledger.balance config.token host.this ∧
    ∀ tx ∈ x.accepted, (inTotal (witness extract tx) : Int) + tx.ext.extAmount = outTotal (witness extract tx) := by
  have h := hreach.inv hchain hsound
  have hQ : runQueries host.permutation extract x ⊆ runQueries host.permutation extract x := subset_rfl
  have htotal := h.extTotal_eq_unspentTotal hlevels hQ hideal
  refine ⟨?_, htotal, ?_, fun tx htx => h.balanced hlevels hQ hideal htx⟩
  · rw [h.events]
    exact insertedCommitments_events h.valid
  · have hfunds := h.funds
    omega

end Solvency

/-- The deposit has been paid out again. -/
theorem pool_solvent_sample :
    extTotal spentState.accepted = 0 ∧ unspentTotal sampleExtract spentState.accepted = 0 ∧
      inTotal (witness sampleExtract spendTransaction) = 5 := by
  have hideal : Ideal samplePermutation (runQueries samplePermutation sampleExtract spentState) :=
    ⟨sample_collisionFree.mono spent_runQueries, sample_avoids_zeroLeaf.mono spent_runQueries⟩
  obtain ⟨-, htotal, -, hbalanced⟩ := pool_solvent sample_chain sample_sound rfl spent_reachable hideal
  have hext : extTotal spentState.accepted = 0 := by
    rw [spentState_accepted]
    rfl
  have hspend := hbalanced spendTransaction (by rw [spentState_accepted]; simp)
  have hout : outTotal (witness sampleExtract spendTransaction) = 0 := by
    rw [spend_witness]
    rfl
  have hpaid : spendTransaction.ext.extAmount = -5 := rfl
  refine ⟨hext, ?_, ?_⟩ <;> omega

section Accepted
variable {r : Withdrawal} {host : Host} {config : Config} {extract : Extractor} {x : State}
  {ctx : Context} {sender : Address} {tree : List F} {nonMemberRoot : F} {Q : Set Query}

/-- The dummy has another commitment than the note, hence another nullifier. -/
theorem Withdrawal.nullifier_ne (hcf : CollisionFree host.permutation Q)
    (hcovers : Covers host.permutation Q (r.signals host tree nonMemberRoot)) (hamount : r.note.amount ≠ 0) :
    (r.signals host tree nonMemberRoot).inNullifier host.permutation 0 ≠
      (r.signals host tree nonMemberRoot).inNullifier host.permutation 1 := by
  intro heq
  have hcommitment := (leaf_of_nullifier_eq hcf hcovers hcovers heq).1
  exact hamount (opening_unique hcf hcovers hcovers hcommitment).1

section
variable (h : Inv host config extract x)
include h

theorem Inv.exists_slot {n : Nat} (hn : n ∈ publishedNullifiers x.accepted) :
    ∃ tx ∈ x.accepted, ∃ slot, (n : F) = (witness extract tx).inNullifier host.permutation slot := by
  obtain ⟨tx, htx, hmem⟩ := mem_flatMap.mp hn
  have hvalid := h.valid tx htx
  have hcast : (n : F) ∈ List.ofFn (witness extract tx).inputNullifier := by
    rw [← hvalid.agrees.nullifiers]
    exact mem_map_of_mem hmem
  obtain ⟨slot, hslot⟩ := (mem_ofFn' _ _).mp hcast
  exact ⟨tx, htx, slot, hslot.symm.trans (hvalid.satisfied.inputs slot).nullifier.symm⟩

theorem Inv.note_fresh
    (hQ : runQueries host.permutation extract x ⊆ Q) (hcf : CollisionFree host.permutation Q)
    {w : Witness} (hcovers : Covers host.permutation Q w) (slot : Fin 2) (hamount : w.inAmount slot ≠ 0)
    (hunspent : (w.inPathIndices slot).val ∉ spentIndexes extract x.accepted) :
    (w.inNullifier host.permutation slot).val ∉ publishedNullifiers x.accepted := by
  intro hmem
  obtain ⟨tx, htx, slot', heq⟩ := h.exists_slot hmem
  rw [natCast_val] at heq
  have htxcovers := covers_of_mem hQ htx
  obtain ⟨hcommitment, hindex⟩ := leaf_of_nullifier_eq hcf hcovers htxcovers heq
  have hsame := (opening_unique hcf hcovers htxcovers hcommitment).1
  apply hunspent
  rw [hindex]
  exact mem_map.mpr ⟨(tx, slot'), mem_spends.mpr ⟨htx, hsame ▸ hamount⟩, rfl⟩

theorem Inv.dummy_fresh
    (hQ : runQueries host.permutation extract x ⊆ Q) (hcf : CollisionFree host.permutation Q)
    {w : Witness} (hcovers : Covers host.permutation Q w) (slot : Fin 2)
    (hblinding : ∀ tx ∈ x.accepted, ∀ slot', (witness extract tx).inBlinding slot' ≠ w.inBlinding slot) :
    (w.inNullifier host.permutation slot).val ∉ publishedNullifiers x.accepted := by
  intro hmem
  obtain ⟨tx, htx, slot', heq⟩ := h.exists_slot hmem
  rw [natCast_val] at heq
  have htxcovers := covers_of_mem hQ htx
  have hcommitment := (leaf_of_nullifier_eq hcf hcovers htxcovers heq).1
  have hopening := hcf.hash3_inj (hcovers.commitment slot) (htxcovers.commitment slot') hcommitment
  exact hblinding tx htx slot' hopening.2.2.1.symm

end

theorem amount_le_unspentTotal {txs : List Transaction} {index : Nat} {note : Note}
    (hnote : (notes extract txs)[index]? = some note) (hunspent : index ∉ spentIndexes extract txs) :
    note.amount.val ≤ unspentTotal extract txs := by
  have hamount : amountAt extract txs index = note.amount.val := by simp [amountAt, hnote]
  rw [← hamount]
  apply le_sum_of_mem
  apply mem_map_of_mem
  rw [mem_filter, mem_range, decide_eq_true_eq]
  exact ⟨(List.getElem?_eq_some_iff.mp hnote).1, hunspent⟩

theorem Inv.root_ne_zero (h : Inv host config extract x)
    (hQ : runQueries host.permutation extract x ⊆ Q) (hnonzero : Avoids host.permutation Q 0)
    (hlevels : config.levels = 10) :
    treeRoot host.permutation 10 (leaves host.permutation extract x.accepted) ≠ 0 := by
  have heven := h.tree.even
  have htop := h.tree_subset hQ ((leaves host.permutation extract x.accepted).length / 2)
  rw [take_of_length_le (by omega), hlevels] at htop
  exact hnonzero _ (htop _ ⟨9, 0, by omega, by decide, rfl⟩)

theorem Inv.full_refuses (h : Inv host config extract x)
    (hfull : 2 * x.accepted.length = 2 ^ config.levels) (ctx : Context) (tx : Transaction) (l : Ledger) :
    Pool.transact host ctx tx.proof tx.ext tx.sender x.ledger ≠ .ok ((), l) := by
  intro hcall
  obtain ⟨index, merkle, hinsert, -⟩ := (transact_ok h.nullifiers hcall).inserted
  rw [h.tree.insert_full (by rwa [leaves_length])] at hinsert
  cases hinsert

/-- In a pool of ten levels with room for two more leaves, every unspent note
with an amount can be withdrawn: by its owner, with policy proofs under the
current roots of the ASP contracts and a new blinding for the dummy input, to any
recipient that can hold the amount.  Without that room no call is accepted. -/
theorem withdrawal_accepted (hchain : ZeroesChain host.permutation)
    (hsound : Sound host.permutation (host.verificationKey config.verifier) extract)
    (hcomplete : Complete host.permutation (host.verificationKey config.verifier))
    (hlevels : config.levels = 10) (hreach : Reachable host config x)
    (hnote : (notes extract x.accepted)[r.index]? = some r.note) (hamount : r.note.amount ≠ 0)
    (hunspent : r.index ∉ spentIndexes extract x.accepted)
    (howner : r.note.pubkey = keypair host.permutation r.privateKey)
    (hpolicy : PolicyProofs host.permutation r.note.pubkey nonMemberRoot r.member r.nonMember)
    (hmember : getAspMembershipRoot ctx x.ledger.pool = .ok (memberRoot host.permutation r.member).val)
    (hnonMember : getAspNonMembershipRoot ctx x.ledger.pool = .ok nonMemberRoot.val)
    (hblinding : ∀ tx ∈ x.accepted, ∀ slot, (witness extract tx).inBlinding slot ≠ r.dummyBlinding)
    (hpayable : Payable host config ctx sender x r) (hQ : runQueries host.permutation extract x ⊆ Q)
    (hcovers : Covers host.permutation Q (r.signals host (leaves host.permutation extract x.accepted) nonMemberRoot))
    (hideal : Ideal host.permutation Q) (hnonzero : Avoids host.permutation Q 0) :
    (x.accepted.length < 512 → ∃ groth l, transact host ctx
      (proofOf groth (r.signals host (leaves host.permutation extract x.accepted) nonMemberRoot))
      r.ext sender x.ledger = .ok ((), l)) ∧
    (512 ≤ x.accepted.length → ∀ (ctx : Context) (tx : Transaction) (l : Ledger),
      transact host ctx tx.proof tx.ext tx.sender x.ledger ≠ .ok ((), l)) := by
  have h := hreach.inv hchain hsound
  have hlength : (leaves host.permutation extract x.accepted).length = 2 * x.accepted.length := leaves_length x.accepted
  have hfits := h.tree.fits
  rw [hlevels] at hfits
  refine ⟨fun hroom => ?_, fun hfull => h.full_refuses (by rw [hlevels]; omega)⟩
  have hleaf : (leaves host.permutation extract x.accepted)[r.index]? =
      some (r.note.commitment host.permutation) := by
    rw [leaves, getElem?_map, hnote]
    rfl
  obtain ⟨hlt, hleafEq⟩ := List.getElem?_eq_some_iff.mp hleaf
  have hindex : r.index < 2 ^ 10 := by omega
  have hsat := Withdrawal.satisfied (Withdrawal.nullifier_ne hideal.collisionFree hcovers hamount) howner hpolicy
    hindex (by rw [padded_lt hlt, hleafEq])
  obtain ⟨groth, hverify⟩ := hcomplete _ hsat
  have hfunds : r.note.amount.val ≤ x.ledger.balance config.token host.this := by
    have htotal := h.extTotal_eq_unspentTotal hlevels hQ hideal
    have hbalance := h.funds
    have hcovered := amount_le_unspentTotal hnote hunspent
    omega
  have hreceive := hpayable.receive
  refine ⟨groth, Withdrawal.accepted hchain h hlevels hroom hamount hpayable hfunds ⟨hsat, by rw [hlevels]; rfl,
    h.root_ne_zero hQ hnonzero hlevels, hpayable.budget, ?_, ?_, ?_, ?_, fun _ => hmember, fun _ => hnonMember⟩
    hverify⟩
  · intro slot
    fin_cases slot
    · apply h.note_fresh hQ hideal.collisionFree hcovers 0 hamount
      change (r.index : F).val ∉ _
      rwa [Withdrawal.index_val hindex]
    · exact h.dummy_fresh hQ hideal.collisionFree hcovers 1 hblinding
  · exact val_natCast_of_lt (Nat.mod_lt _ (by decide))
  · change |-(r.note.amount.val : Int)| < 2 ^ 248
    rw [abs_neg, Nat.abs_cast]
    omega
  · change -r.note.amount = ((-(r.note.amount.val : Int) : Int) : F)
    rw [Int.cast_neg, Int.cast_natCast, natCast_val]

end Accepted

theorem withdrawal_accepted_sample : ∃ groth l, transact sampleHost sampleContext
    (proofOf groth (sampleWithdrawal.signals sampleHost [61, 62] 55)) sampleWithdrawal.ext ⟨6⟩
    sampleState.ledger = .ok ((), l) := by
  have hleaves : leaves sampleHost.permutation sampleExtract sampleState.accepted = [61, 62] := sampleState_leaves
  have hQ : runQueries samplePermutation sampleExtract sampleState ⊆ sampleInputs :=
    sample_runQueries sample_reachable (by rw [sampleState_accepted]; simp) (by rw [sampleState_leaves]; decide)
  have h := @withdrawal_accepted sampleWithdrawal sampleHost sampleConfig sampleExtract sampleState
    sampleContext ⟨6⟩ 55 sampleInputs sample_chain sample_sound honest_complete rfl sample_reachable ?_ (by decide) ?_
    sample_publicKey.symm sample_policy (by rw [getAspMembershipRoot, sample_config.1]; rfl)
    (by rw [getAspNonMembershipRoot, sample_config.2]; rfl) ?_ sample_payable hQ
    (by rw [hleaves]; exact spend_covers) sample_ideal sample_avoids_zero
  · rw [hleaves] at h
    exact h.1 (by rw [sampleState_accepted]; decide)
  · rw [sampleState_accepted, notes, flatMap_singleton, sample_witness, sample_outputNotes]
    rfl
  · rw [sampleState_accepted, spentIndexes, spends, flatMap_singleton, sample_witness]
    exact not_mem_nil
  · intro tx htx slot
    rw [sampleState_accepted, mem_singleton] at htx
    rw [htx, sample_witness]
    fin_cases slot <;> decide

end PrivatePayments.System

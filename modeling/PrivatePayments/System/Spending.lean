import PrivatePayments.System.Withdrawal

/-! Which leaves the accepted transactions spend.  Everything here is about the
final state of a run: no hash input of the run collides with another, so an
opening found by any prover, against any root the pool still knows, is an opening
of the leaf that was inserted at its index. -/
namespace PrivatePayments.System
open Contracts Contracts.Pool Circuits Lib.BinaryTree List

/-- Everything hashed in a run: by the contract, by the circuit on the witnesses
of accepted proofs, and for the empty subtrees. -/
def runQueries (P : Permutation) (extract : Extractor) (x : State) : Set Query :=
  { q | q ∈ x.ledger.pool.merkle.hashed ∨ (∃ tx ∈ x.accepted, q ∈ (witness extract tx).queries P) ∨
    ∃ i, i < 32 ∧ q = .compress (zeroAt i) (zeroAt i) }

/-- Poseidon2 behaves ideally on `Q`. -/
structure Ideal (P : Permutation) (Q : Set Query) : Prop where
  collisionFree : CollisionFree P Q
  nonzeroLeaf : Avoids P Q zeroLeaf

/-- The input slots of accepted transactions that spend a note.  A slot with
amount zero is a dummy. -/
def spends (extract : Extractor) (txs : List Transaction) : List (Transaction × Fin 2) :=
  txs.flatMap fun tx =>
    ((List.finRange 2).filter fun slot => (witness extract tx).inAmount slot ≠ 0).map fun slot =>
      (tx, slot)

def spentIndex (extract : Extractor) (spend : Transaction × Fin 2) : Nat :=
  ((witness extract spend.1).inPathIndices spend.2).val

def spentIndexes (extract : Extractor) (txs : List Transaction) : List Nat :=
  (spends extract txs).map (spentIndex extract)

variable {host : Host} {config : Config} {extract : Extractor} {x : State} {Q : Set Query}

variable {txs : List Transaction}

section Openings

theorem mem_spends {spend : Transaction × Fin 2} :
    spend ∈ spends extract txs ↔ spend.1 ∈ txs ∧ (witness extract spend.1).inAmount spend.2 ≠ 0 := by
  obtain ⟨tx, slot⟩ := spend
  simp [spends]

theorem covers_of_mem (hQ : runQueries host.permutation extract x ⊆ Q) {tx : Transaction}
    (htx : tx ∈ x.accepted) : Covers host.permutation Q (witness extract tx) :=
  fun _ hq => hQ (.inr (.inl ⟨tx, htx, hq⟩))

section
variable (h : Inv host config extract x)
include h

theorem Inv.tree_subset (hQ : runQueries host.permutation extract x ⊆ Q) (j : Nat) :
    ∀ input ∈ treeInputs (compress host.permutation)
        (padded zeroLeaf ((leaves host.permutation extract x.accepted).take (2 * j))) config.levels,
      .compress input.1 input.2 ∈ Q := by
  intro input hin
  have hle := h.tree.levels_le
  rcases h.logged j input hin with hlogged | ⟨i, hi, rfl⟩
  · exact hQ (.inl hlogged)
  · exact hQ (.inr (.inr ⟨i, by omega, rfl⟩))

/-- A witness whose root the pool has had opens, in each slot with an amount, the
leaf at the index of that slot. -/
theorem Inv.opened (hlevels : config.levels = 10)
    (hQ : runQueries host.permutation extract x ⊆ Q) (hideal : Ideal host.permutation Q)
    {w : Witness} (hw : PolicyTransaction host.permutation w) (hcovers : Covers host.permutation Q w)
    {j : Nat} (hroot : w.root = treeRoot host.permutation config.levels
      ((leaves host.permutation extract x.accepted).take (2 * j))) {slot : Fin 2} (hamount : w.inAmount slot ≠ 0) :
    (leaves host.permutation extract x.accepted)[(w.inPathIndices slot).val]? =
      some (w.inCommitment host.permutation slot) := by
  have hinput := hw.inputs slot
  have htree := h.tree_subset hQ j
  rw [hlevels] at htree hroot
  have hleaf := merkleProof_sound hideal.collisionFree htree (fun q hq => hcovers.path slot hq)
    hinput.pathBits ((hinput.checkRoot hamount).symm.trans hroot)
  by_cases hlt : (w.inPathIndices slot).val <
      ((leaves host.permutation extract x.accepted).take (2 * j)).length
  · rw [padded_lt hlt, getElem_take] at hleaf
    rw [getElem?_eq_getElem (lt_of_lt_of_le hlt (length_take_le' _ _)), hleaf]
  · -- Beyond the inserted leaves the tree holds the zero leaf, which opens to nothing.
    rw [padded_ge (not_lt.mp hlt)] at hleaf
    exact absurd hleaf (hideal.nonzeroLeaf _ (hcovers.commitment slot))

theorem Inv.witness_root {tx : Transaction} (htx : tx ∈ x.accepted) :
    ∃ j, (witness extract tx).root = treeRoot host.permutation config.levels
      ((leaves host.permutation extract x.accepted).take (2 * j)) := by
  obtain ⟨j, -, hroot⟩ := h.rooted tx htx
  refine ⟨j, ?_⟩
  rw [(h.valid tx htx).agrees.root, hroot]
  exact natCast_val _

theorem Inv.known_root {ctx : Context} {w : Witness}
    (hknown : Pool.isKnownRoot ctx w.root.val x.ledger.pool = .ok true) :
    ∃ j, w.root = treeRoot host.permutation config.levels
      ((leaves host.permutation extract x.accepted).take (2 * j)) := by
  obtain ⟨j, -, -, heq⟩ := h.tree.ring.of_isKnownRoot (liftMerkle_eq_ok hknown)
  exact ⟨j, ZMod.val_injective _ heq.symm⟩

end

theorem nullifier_eq_of_index (hcf : CollisionFree host.permutation Q)
    {w v : Witness} (hw : Covers host.permutation Q w) (hv : Covers host.permutation Q v) {slot slot' : Fin 2}
    (hopenw : (leaves host.permutation extract txs)[(w.inPathIndices slot).val]? =
      some (w.inCommitment host.permutation slot))
    (hopenv : (leaves host.permutation extract txs)[(v.inPathIndices slot').val]? =
      some (v.inCommitment host.permutation slot'))
    (hindex : (w.inPathIndices slot).val = (v.inPathIndices slot').val) :
    w.inNullifier host.permutation slot = v.inNullifier host.permutation slot' := by
  rw [hindex, hopenv] at hopenw
  exact nullifier_eq_of_leaf hcf hw hv (Option.some.inj hopenw).symm (ZMod.val_injective _ hindex)

theorem mem_notes {note : Note} :
    note ∈ notes extract txs ↔ ∃ tx ∈ txs, ∃ out, note = ⟨(witness extract tx).outAmount out,
      (witness extract tx).outPubkey out, (witness extract tx).outBlinding out⟩ := by
  simp only [notes, outputNotes, mem_flatMap, mem_ofFn, eq_comm]

theorem exists_note (hQ : runQueries host.permutation extract x ⊆ Q)
    (hcf : CollisionFree host.permutation Q) {w : Witness} (hcovers : Covers host.permutation Q w)
    {slot : Fin 2} (hopen : (leaves host.permutation extract x.accepted)[
      (w.inPathIndices slot).val]? = some (w.inCommitment host.permutation slot)) :
    ∃ note, (notes extract x.accepted)[(w.inPathIndices slot).val]? = some note ∧ note.amount = w.inAmount slot := by
  rw [leaves, getElem?_map, Option.map_eq_some_iff] at hopen
  obtain ⟨note, hnote, hcommitment⟩ := hopen
  obtain ⟨tx, htx, out, rfl⟩ := mem_notes.mp (mem_of_getElem? hnote)
  have houtput := (covers_of_mem hQ htx).output out
  exact ⟨_, hnote, (hcf.hash3_inj houtput (hcovers.commitment slot) hcommitment).1⟩

theorem spends_nullifiers_sublist (hvalid : ∀ tx ∈ txs, Valid host.permutation extract tx) :
    ((spends extract txs).map fun spend =>
        (witness extract spend.1).inNullifier host.permutation spend.2).Sublist
      ((publishedNullifiers txs).map fun n : Nat => (n : F)) := by
  induction txs with
  | nil => exact List.Sublist.refl _
  | cons tx rest ih =>
    obtain ⟨hhere, hrest⟩ := forall_mem_cons.mp hvalid
    simp only [spends, publishedNullifiers, flatMap_cons, map_append] at ih ⊢
    refine List.Sublist.append ?_ (ih hrest)
    rw [hhere.agrees.nullifiers, ofFn_eq_map, map_map]
    have hnullifier : (witness extract tx).inputNullifier =
        fun slot => (witness extract tx).inNullifier host.permutation slot :=
      funext fun slot => (hhere.satisfied.inputs slot).nullifier.symm
    rw [hnullifier]
    exact filter_sublist.map _

theorem Inv.nullifiers_cast_nodup (h : Inv host config extract x) :
    ((publishedNullifiers x.accepted).map fun n : Nat => (n : F)).Nodup := by
  have hlt : ∀ n ∈ publishedNullifiers x.accepted, n < bn256Modulus := by
    intro n hn
    obtain ⟨tx, htx, hmem⟩ := mem_flatMap.mp hn
    exact (h.valid tx htx).canonical.inputNullifiers n hmem
  apply h.nodup.map_on
  intro n hn m hm heq
  rw [← val_natCast_of_lt (hlt n hn), heq, val_natCast_of_lt (hlt m hm)]

theorem Inv.spentIndexes_nodup (h : Inv host config extract x) (hlevels : config.levels = 10)
    (hQ : runQueries host.permutation extract x ⊆ Q) (hideal : Ideal host.permutation Q) :
    (spentIndexes extract x.accepted).Nodup := by
  have hnodup := h.nullifiers_cast_nodup.sublist (spends_nullifiers_sublist h.valid)
  rw [spentIndexes, List.Nodup, pairwise_map]
  rw [List.Nodup, pairwise_map] at hnodup
  apply hnodup.imp_of_mem
  intro a b ha hb hne hindex
  obtain ⟨ha, haamount⟩ := mem_spends.mp ha
  obtain ⟨hb, hbamount⟩ := mem_spends.mp hb
  obtain ⟨i, hi⟩ := h.witness_root ha
  obtain ⟨j, hj⟩ := h.witness_root hb
  have hacovers := covers_of_mem hQ ha
  have hbcovers := covers_of_mem hQ hb
  exact hne (nullifier_eq_of_index hideal.collisionFree hacovers hbcovers
    (h.opened hlevels hQ hideal (h.valid _ ha).satisfied hacovers hi haamount)
    (h.opened hlevels hQ hideal (h.valid _ hb).satisfied hbcovers hj hbamount) hindex)

end Openings

section Nullifiers
variable {x y : State}

theorem mem_events_newNullifier {n : U256} :
    .newNullifier n ∈ events txs ↔ n ∈ publishedNullifiers txs := by
  rw [events, publishedNullifiers, mem_flatMap, mem_flatMap]
  constructor
  · rintro ⟨⟨tx, k⟩, htx, hn⟩
    exact ⟨tx, (mem_zipIdx htx).2.2 ▸ getElem_mem _, by simpa [txEvents] using hn⟩
  · rintro ⟨tx, htx, hn⟩
    obtain ⟨k, hk, rfl⟩ := getElem_of_mem htx
    exact ⟨(txs[k], k), mk_mem_zipIdx_iff_getElem?.mpr (getElem?_eq_getElem hk), by simpa [txEvents] using hn⟩

theorem Step.accepted_grows (h : Step host x y) : x.accepted <+: y.accepted := by
  cases h with
  | call ctx call _ =>
    rcases State.invoke_cases host ctx call x with hsame | ⟨l, _, heq⟩
    · rw [hsame]
    · rw [heq]
      exact prefix_append _ _
  | other => exact prefix_rfl

theorem steps_accepted_grows (h : Relation.ReflTransGen (Step host) x y) : x.accepted <+: y.accepted := by
  induction h with
  | refl => exact prefix_rfl
  | tail _ hstep ih => exact ih.trans hstep.accepted_grows

theorem publishedNullifiers_subset {txs txs' : List Transaction} (h : txs <+: txs') :
    publishedNullifiers txs ⊆ publishedNullifiers txs' := by
  obtain ⟨more, rfl⟩ := h
  rw [publishedNullifiers, publishedNullifiers, flatMap_append]
  exact subset_append_left _ _

end Nullifiers

section Main

theorem Inv.nullifiers_eq_events (h : Inv host config extract x) :
    x.ledger.pool.nullifiers = some fun n => if .newNullifier n ∈ x.ledger.pool.events then some true else none := by
  rw [h.nullifiers, h.events]
  simp only [mem_events_newNullifier]

/-- Every leaf is spent at most once.  The nullifiers of accepted transactions
are distinct within and across transactions; the map holds exactly the published
ones and only grows; and among all openings of leaves under known roots, accepted
or not, the nullifier is a function of the leaf index and an injective one. -/
theorem no_double_spend (hchain : ZeroesChain host.permutation)
    (hsound : Sound host.permutation (host.verificationKey config.verifier) extract)
    (hlevels : config.levels = 10) (hreach : Reachable host config x)
    (hQ : runQueries host.permutation extract x ⊆ Q) (hideal : Ideal host.permutation Q) :
    (publishedNullifiers x.accepted).Nodup ∧
    (spentIndexes extract x.accepted).Nodup ∧
    (∀ index ∈ spentIndexes extract x.accepted,
      ∃ note, (notes extract x.accepted)[index]? = some note ∧ note.amount ≠ 0) ∧
    (x.ledger.pool.nullifiers =
      some fun n => if .newNullifier n ∈ x.ledger.pool.events then some true else none) ∧
    (∀ y, Relation.ReflTransGen (Step host) x y → ∀ n,
      isSpent n x.ledger.pool = .ok true → isSpent n y.ledger.pool = .ok true) ∧
    (∀ (ctx : Context) (w v : Witness) (slot slot' : Fin 2),
      PolicyTransaction host.permutation w → PolicyTransaction host.permutation v →
      Covers host.permutation Q w → Covers host.permutation Q v →
      Pool.isKnownRoot ctx w.root.val x.ledger.pool = .ok true →
      Pool.isKnownRoot ctx v.root.val x.ledger.pool = .ok true →
      w.inAmount slot ≠ 0 → v.inAmount slot' ≠ 0 →
      ((w.inPathIndices slot).val = (v.inPathIndices slot').val ↔
        w.inputNullifier slot = v.inputNullifier slot')) := by
  have h := hreach.inv hchain hsound
  refine ⟨h.nodup, h.spentIndexes_nodup hlevels hQ hideal, ?_, h.nullifiers_eq_events, ?_, ?_⟩
  · intro index hindex
    obtain ⟨⟨tx, slot⟩, hspend, rfl⟩ := mem_map.mp hindex
    obtain ⟨htx, hamount⟩ := mem_spends.mp hspend
    obtain ⟨j, hj⟩ := h.witness_root htx
    have hcovers := covers_of_mem hQ htx
    obtain ⟨note, hnote, heq⟩ := exists_note hQ hideal.collisionFree hcovers
      (h.opened hlevels hQ hideal (h.valid tx htx).satisfied hcovers hj hamount)
    exact ⟨note, hnote, heq ▸ hamount⟩
  · intro y hsteps n hn
    have hy := h.steps hchain hsound hsteps
    rw [isSpent, h.nullifiers] at hn
    rw [isSpent, hy.nullifiers]
    have hmem : n ∈ publishedNullifiers x.accepted := by
      by_contra hnot
      simp [hnot, pure, Except.pure] at hn
    simp [publishedNullifiers_subset (steps_accepted_grows hsteps) hmem, pure, Except.pure]
  · intro ctx w v slot slot' hw hv hwcovers hvcovers hwroot hvroot hwamount hvamount
    obtain ⟨i, hi⟩ := h.known_root hwroot
    obtain ⟨j, hj⟩ := h.known_root hvroot
    have hwopen := h.opened hlevels hQ hideal hw hwcovers hi hwamount
    have hvopen := h.opened hlevels hQ hideal hv hvcovers hj hvamount
    rw [← (hw.inputs slot).nullifier, ← (hv.inputs slot').nullifier]
    constructor
    · exact nullifier_eq_of_index hideal.collisionFree hwcovers hvcovers hwopen hvopen
    · intro heq
      rw [(leaf_of_nullifier_eq hideal.collisionFree hwcovers hvcovers heq).2]

end Main

theorem sample_runQueries {x : State} (hreach : Reachable sampleHost sampleConfig x)
    (haccepted : x.accepted ⊆ [sampleTransaction, spendTransaction])
    (hleaves : leaves samplePermutation sampleExtract x.accepted <+: [61, 62, 63, 64]) :
    runQueries samplePermutation sampleExtract x ⊆ sampleInputs := by
  rintro q (hq | ⟨tx, htx, hq⟩ | ⟨i, hi, rfl⟩)
  · obtain ⟨j, hj⟩ := (hreach.inv sample_chain sample_sound).traced q hq
    refine sample_treeQuery (( take_prefix _ _).trans hleaves) ?_ hj
    rw [length_take, leaves_length]
    omega
  · rcases mem_pair.mp (haccepted htx) with rfl | rfl
    · rw [sample_witness] at hq
      exact sample_covers q hq
    · rw [spend_witness] at hq
      exact spend_covers q hq
  · exact sample_zeroes hi

theorem spent_runQueries : runQueries samplePermutation sampleExtract spentState ⊆ sampleInputs :=
  sample_runQueries spent_reachable (by rw [spentState_accepted]; exact Subset.refl _)
    (by rw [spentState_accepted, sample_leaves])

theorem sample_ideal : Ideal samplePermutation sampleInputs :=
  ⟨sample_collisionFree, sample_avoids_zeroLeaf⟩

/-- After a deposit and the withdrawal of its note the first leaf is spent. -/
theorem no_double_spend_sample :
    spentIndexes sampleExtract spentState.accepted = [0] ∧ (publishedNullifiers spentState.accepted).Nodup ∧
    (∃ note, (notes sampleExtract spentState.accepted)[0]? = some note ∧ note.amount ≠ 0) ∧
    spentState.ledger.pool.nullifiers =
      some fun n => if .newNullifier n ∈ spentState.ledger.pool.events then some true else none := by
  have h := no_double_spend sample_chain sample_sound rfl spent_reachable spent_runQueries sample_ideal
  have hindexes : spentIndexes sampleExtract spentState.accepted = [0] := by
    have hdeposit : (List.finRange 2).filter (fun slot => sampleWitness.inAmount slot ≠ 0) = [] := by decide +kernel
    have hspend : (List.finRange 2).filter (fun slot => spendWitness.inAmount slot ≠ 0) = [0] := by decide +kernel
    rw [spentState_accepted, spentIndexes, spends, flatMap_cons, flatMap_singleton, sample_witness, spend_witness,
      hdeposit, hspend]
    simp only [map_nil, nil_append, map_cons, spentIndex, spend_witness]
    rfl
  exact ⟨hindexes, h.1, h.2.2.1 0 (by rw [hindexes]; exact mem_singleton_self 0), h.2.2.2.1⟩

end PrivatePayments.System

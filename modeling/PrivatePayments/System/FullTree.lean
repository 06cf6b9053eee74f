import PrivatePayments.System.Solvency

/-! A pool that has run full.  Every accepted transaction appends two leaves, also
one that only withdraws, and nothing ever removes one.  Once the tree is full no
call is accepted any more, whatever notes are still unspent. -/
namespace PrivatePayments.System
open Contracts Contracts.Pool Contracts.Groth16Verifier Circuits Lib.BinaryTree List

/-! Deposits that fill a pool of ten levels.  The first is over one token, the
others over nothing; sums stand for digests, so that all nullifiers are known. -/

def flatPermutation : Permutation where
  t2 left right := (zeroesTable.lookup (.compress left right)).getD 1 - left
  t3 a b _ := a + b
  t4 a b c _ := a + b + c

theorem flat_compress (left right : F) : compress flatPermutation left right =
    (zeroesTable.lookup (.compress left right)).getD 1 := sub_add_cancel _ _

theorem flat_chain : ZeroesChain flatPermutation := by
  intro i hi
  change compress flatPermutation (zeroAt i) (zeroAt i) = zeroAt (i + 1)
  rw [flat_compress, zeroesTable_lookup hi]
  rfl

theorem flat_compress_ne_zero (left right : F) : compress flatPermutation left right ≠ 0 := by
  rw [flat_compress]
  cases h : zeroesTable.lookup (.compress left right) with
  | none => exact one_ne_zero
  | some digest =>
    have hall : ∀ entry ∈ zeroesTable, entry.2 ≠ 0 := by decide +kernel
    obtain ⟨before, after, heq, -⟩ := lookup_eq_some_iff.mp h
    exact hall (.compress left right, digest) (by rw [heq]; simp)

def fillMember : MembershipProof 10 := ⟨0, 0, .replicate 10 0, 0⟩

def fillNonMember : NonMembershipProof 10 := ⟨0, .replicate 10 0, 0, 0, 1⟩

def fillDeposit (i : Nat) : Deposit where
  amount := if i = 0 then 1 else 0
  privateKey := 0
  inBlinding := ![((2 * i : Nat) : F), ((2 * i + 1 : Nat) : F)]
  outBlinding _ := 0
  member := fillMember
  nonMember := fillNonMember
  recipient := ⟨6⟩
  encryptedOutput _ := []

noncomputable def fillHost : Host where
  permutation := flatPermutation
  keccakXdr _ := 0
  this := ⟨0⟩
  verificationKey _ := honestKey flatPermutation

def fillContext : Context where
  authorized address := decide (address ≠ ⟨0⟩)
  aspMembershipRoot _ := some (memberRoot flatPermutation fillMember).val
  aspNonMembershipRoot _ := some 0
  refused _ _ _ _ := false
  budget := 90

def fillTree (n : Nat) : List F := (List.range n).flatMap fun i => [(fillDeposit i).amount, 0]

noncomputable def fillWitness (i : Nat) : Witness := (fillDeposit i).signals fillHost (fillTree i) 0

noncomputable def fillTransaction (i : Nat) : Transaction where
  proof := proofOf ⟨.replicate 64 0, .replicate 128 0, .replicate 64 0⟩ (fillWitness i)
  ext := (fillDeposit i).ext
  sender := ⟨6⟩

noncomputable def fillExtract : Extractor :=
  honestExtract flatPermutation { w | ∃ i < 512, w = fillWitness i }

theorem fill_nullifier (i : Nat) (slot : Fin 2) :
    (fillWitness i).inNullifier flatPermutation slot = ((4 * i + 2 * slot.val : Nat) : F) := by
  fin_cases slot
  all_goals
    simp [Signals.inNullifier, Signals.inCommitment, Signals.inSignature, Signals.publicKey, keypair,
      signature, Query.digest, flatPermutation, fillWitness, Deposit.signals, completed,
      Deposit.draft, fillDeposit]
    ring

theorem fill_nullifier_val {i : Nat} (hi : i < 512) (slot : Fin 2) :
    ((fillWitness i).inNullifier flatPermutation slot).val = 4 * i + 2 * slot.val := by
  rw [fill_nullifier]
  apply val_natCast_of_lt
  have hmod : 4096 < bn256Modulus := by decide
  omega

theorem fill_nullifier_ne {i : Nat} (hi : i < 512) :
    (fillWitness i).inNullifier flatPermutation 0 ≠ (fillWitness i).inNullifier flatPermutation 1 := by
  intro heq
  have h := congrArg ZMod.val heq
  rw [fill_nullifier_val hi, fill_nullifier_val hi] at h
  simp at h

theorem fill_policy :
    PolicyProofs flatPermutation (keypair flatPermutation 0) 0 fillMember fillNonMember where
  leaf := by simp [keypair, Query.digest, flatPermutation, fillMember]
  bits := by decide
  key := by simp [keypair, Query.digest, flatPermutation, fillNonMember]
  isOld0 := by decide
  verified := SmtSignals.Shallow.verified ⟨rfl, rfl, rfl, .inl (by decide), by decide⟩

theorem fill_satisfied {i : Nat} (hi : i < 512) : PolicyTransaction flatPermutation (fillWitness i) := by
  change PolicyTransaction fillHost.permutation ((fillDeposit i).signals fillHost (fillTree i) 0)
  apply Deposit.satisfied
  · exact fill_policy
  · unfold fillDeposit
    dsimp only
    split <;> decide
  · exact fill_nullifier_ne hi

theorem fill_injOn : Set.InjOn Signals.publicInputs { w | ∃ i < 512, w = fillWitness i } := by
  rintro _ ⟨i, hi, rfl⟩ _ ⟨j, hj, rfl⟩ heq
  have hnullifier : (fillWitness i).inputNullifier 0 = (fillWitness j).inputNullifier 0 := by
    have h := congrArg (fun inputs => inputs[3]?) heq
    simpa [Signals.publicInputs, ofFn_succ] using h
  have h := congrArg ZMod.val hnullifier
  have hi0 := fill_nullifier_val hi 0
  have hj0 := fill_nullifier_val hj 0
  change ((fillWitness i).inNullifier flatPermutation 0).val =
    ((fillWitness j).inNullifier flatPermutation 0).val at h
  rw [hi0, hj0] at h
  rw [show i = j by omega]

theorem fill_sound : Sound flatPermutation (honestKey flatPermutation) fillExtract := by
  apply honest_sound
  rintro _ ⟨i, hi, rfl⟩
  exact fill_satisfied hi

theorem fill_witness {i : Nat} (hi : i < 512) : witness fillExtract (fillTransaction i) = fillWitness i := by
  rw [witness, fillTransaction, proofOf_publicInputs _ rfl rfl]
  exact honestExtract_known fill_injOn ⟨i, hi, rfl⟩ _

structure Filling (n : Nat) (x : State) : Prop where
  reachable : Reachable fillHost sampleConfig x
  accepted : x.accepted = (List.range n).map fillTransaction
  membership : x.ledger.pool.aspMembership = some ⟨4⟩
  nonMembership : x.ledger.pool.aspNonMembership = some ⟨5⟩
  maximum : x.ledger.pool.maximumDepositAmount = some 100
  funded : n = 0 → x.ledger.balance = fun _ _ => 100

section Filling
variable {n : Nat} {x : State}

section
variable (h : Filling n x)
include h

theorem Filling.inv : Inv fillHost sampleConfig fillExtract x :=
  h.reachable.inv flat_chain fill_sound

theorem Filling.notes (hn : n ≤ 512) : notes fillExtract x.accepted =
    (List.range n).flatMap fun i =>
      [⟨(fillDeposit i).amount, keypair flatPermutation 0, 0⟩, ⟨0, keypair flatPermutation 0, 0⟩] := by
  rw [h.accepted, System.notes, flatMap_map]
  apply flatMap_congr
  intro i hi
  rw [fill_witness (by have := mem_range.mp hi; omega), outputNotes]
  rfl

theorem Filling.leaves (hn : n ≤ 512) :
    leaves flatPermutation fillExtract x.accepted = fillTree n := by
  rw [System.leaves, h.notes hn, map_flatMap, fillTree]
  apply flatMap_congr
  intro i hi
  simp [Note.commitment, keypair, Query.digest, flatPermutation]

theorem Filling.nullifiers (hn : n ≤ 512) :
    ∀ m : Nat, m ∈ publishedNullifiers x.accepted → m < 4 * n := by
  intro m hm
  rw [h.accepted, publishedNullifiers, flatMap_map] at hm
  obtain ⟨i, hi, hm⟩ := mem_flatMap.mp hm
  have hi := mem_range.mp hi
  have hslot : ∃ slot : Fin 2, m = ((fillWitness i).inNullifier flatPermutation slot).val := by
    rcases mem_cons.mp hm with rfl | hm
    · exact ⟨0, rfl⟩
    · exact ⟨1, mem_singleton.mp hm⟩
  obtain ⟨slot, rfl⟩ := hslot
  have hlt := slot.isLt
  rw [fill_nullifier_val (by omega)]
  omega

theorem Filling.depositable :
    Depositable fillHost sampleConfig fillContext ⟨6⟩ x (fillDeposit n) := by
  have hrest : n ≠ 0 → (fillDeposit n).amount = 0 := fun hn => if_neg hn
  by_cases hn : n = 0
  · subst hn
    have hbalance := h.funded rfl
    refine ⟨by decide, by decide, ⟨100, h.maximum, by decide⟩, ?_, fun _ => ?_, fun _ => rfl⟩
    · rw [hbalance]
      decide
    · rw [hbalance]
      decide
  · have hzero := hrest hn
    have hval : (fillDeposit n).amount.val = 0 := by rw [hzero, ZMod.val_zero]
    exact ⟨by decide, by decide, ⟨100, h.maximum, by omega⟩, by omega,
      fun hne => absurd hzero hne, fun hne => absurd hzero hne⟩

theorem Filling.step (hn : n < 512) : ∃ y, Filling (n + 1) y := by
  have hcall : ∃ l, transact fillHost fillContext (fillTransaction n).proof (fillTransaction n).ext
      (fillTransaction n).sender x.ledger = .ok ((), l) := by
    apply deposit_accepted (d := fillDeposit n) flat_chain h.inv rfl
      (by rw [h.accepted]; simpa using hn) fill_policy
    · rw [getAspMembershipRoot, h.membership]
      rfl
    · rw [getAspNonMembershipRoot, h.nonMembership]
      rfl
    · exact h.depositable
    · rw [show fillHost.permutation = flatPermutation from rfl, h.leaves hn.le]
      exact flat_compress_ne_zero _ _
    · exact fill_nullifier_ne hn
    · intro slot hmem
      have hlt := h.nullifiers hn.le _ hmem
      change ((fillWitness n).inNullifier flatPermutation slot).val < 4 * n at hlt
      rw [fill_nullifier_val hn] at hlt
      omega
    · exact (h.leaves hn.le).symm
    · exact honest_verify (fill_satisfied hn) _
  obtain ⟨l, hcall⟩ := hcall
  obtain ⟨hmember, hnonMember, hmax⟩ := (transact_ok h.inv.nullifiers hcall).config
  refine ⟨⟨l, x.accepted ++ [fillTransaction n]⟩, ?_, ?_, hmember.trans h.membership,
    hnonMember.trans h.nonMembership, hmax.trans h.maximum, by omega⟩
  · obtain ⟨y, hdeployed, hsteps⟩ := h.reachable
    refine ⟨y, hdeployed, hsteps.tail ?_⟩
    rw [← State.invoke_transact hcall]
    exact .call _ _ (by decide)
  · rw [h.accepted, range_succ, map_append]
    rfl

end

theorem exists_filling (hn : n ≤ 512) : ∃ x, Filling n x := by
  induction n with
  | zero =>
    exact ⟨sampleStart, ⟨sampleStart, sample_deployed, .refl⟩, rfl, rfl, rfl, rfl, fun _ => rfl⟩
  | succ n ih =>
    obtain ⟨x, hx⟩ := ih (by omega)
    exact hx.step hn

theorem Filling.unspent (h : Filling n x) (hn : n ≤ 512) : spentIndexes fillExtract x.accepted = [] := by
  rw [spentIndexes, map_eq_nil_iff, eq_nil_iff_forall_not_mem]
  rintro ⟨tx, slot⟩ hspend
  obtain ⟨htx, hamount⟩ := mem_spends.mp hspend
  rw [h.accepted] at htx
  obtain ⟨i, hi, rfl⟩ := mem_map.mp htx
  rw [fill_witness (by have := mem_range.mp hi; omega)] at hamount
  exact hamount rfl

theorem Filling.first_note (h : Filling (n + 1) x) (hn : n + 1 ≤ 512) :
    (System.notes fillExtract x.accepted)[0]? = some ⟨1, keypair flatPermutation 0, 0⟩ := by
  rw [h.notes hn, range_succ_eq_map]
  rfl

theorem fill_extTotal (n : Nat) : extTotal ((List.range (n + 1)).map fillTransaction) = 1 := by
  induction n with
  | zero => rfl
  | succ n ih =>
    rw [range_succ, map_append, map_cons, map_nil, extTotal_append, ih]
    simp [fillTransaction, Deposit.ext, fillDeposit]

/-- The first note is never spent, the pool holds its token, its owner has policy
proofs under the current roots; and no transaction is accepted any more. -/
theorem full_tree_locks_notes : ∃ (host : Host) (config : Config) (extract : Extractor) (x : State)
    (note : Note) (privateKey : F),
    ZeroesChain host.permutation ∧
    Sound host.permutation (host.verificationKey config.verifier) extract ∧
    Complete host.permutation (host.verificationKey config.verifier) ∧
    config.levels = 10 ∧ Reachable host config x ∧
    (notes extract x.accepted)[0]? = some note ∧ note.amount ≠ 0 ∧
    0 ∉ spentIndexes extract x.accepted ∧
    note.pubkey = keypair host.permutation privateKey ∧
    (∃ (ctx : Context) (member : MembershipProof 10) (nonMember : NonMembershipProof 10),
      getAspMembershipRoot ctx x.ledger.pool = .ok (memberRoot host.permutation member).val ∧
      getAspNonMembershipRoot ctx x.ledger.pool = .ok 0 ∧
      PolicyProofs host.permutation note.pubkey 0 member nonMember) ∧
    note.amount.val ≤ x.ledger.balance config.token host.this ∧
    ∀ (ctx : Context) (tx : Transaction) (l : Ledger),
      transact host ctx tx.proof tx.ext tx.sender x.ledger ≠ .ok ((), l) := by
  obtain ⟨x, hx⟩ := exists_filling (n := 512) le_rfl
  refine ⟨fillHost, sampleConfig, fillExtract, x, ⟨1, keypair flatPermutation 0, 0⟩, 0, flat_chain,
    fill_sound, honest_complete, rfl, hx.reachable, ?_, one_ne_zero, ?_, rfl,
    ⟨fillContext, fillMember, fillNonMember, ?_, ?_, fill_policy⟩, ?_, ?_⟩
  · exact hx.first_note le_rfl
  · rw [hx.unspent le_rfl]
    exact not_mem_nil
  · rw [getAspMembershipRoot, hx.membership]
    rfl
  · rw [getAspNonMembershipRoot, hx.nonMembership]
    rfl
  · have hfunds := hx.inv.funds
    rw [hx.accepted, fill_extTotal 511] at hfunds
    rw [ZMod.val_one]
    exact_mod_cast hfunds
  · apply hx.inv.full_refuses
    rw [hx.accepted, length_map, length_range]
    rfl

end Filling

end PrivatePayments.System

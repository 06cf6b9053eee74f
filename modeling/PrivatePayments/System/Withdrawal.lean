import PrivatePayments.System.Deposit

/-! Withdrawing.  The owner of a note spends it beside a dummy, and gets two empty outputs. -/
namespace PrivatePayments.System
open Contracts Contracts.Pool Contracts.Groth16Verifier Circuits Lib.BinaryTree
open List hiding Vector

/-- What the owner of a note puts into its withdrawal. -/
structure Withdrawal where
  index : Nat
  note : Note
  privateKey : F
  dummyBlinding : F
  outBlinding : Fin 2 → F
  member : MembershipProof 10
  nonMember : NonMembershipProof 10
  recipient : Address
  encryptedOutput : Fin 2 → List UInt8

namespace Withdrawal
variable (r : Withdrawal) (host : Host) (P : Permutation) (tree : List F) (nonMemberRoot : F)

def ext : ExtData where
  recipient := r.recipient
  extAmount := -(r.note.amount.val : Int)
  encryptedOutput0 := r.encryptedOutput ⟨0, Nat.zero_lt_two⟩
  encryptedOutput1 := r.encryptedOutput ⟨1, Nat.one_lt_two⟩

def path : Vector F 10 :=
  ⟨(siblingsOf (compress P) (padded zeroLeaf tree) 10 0 r.index).toArray, by simp⟩

/-- The assignment without nullifiers and commitments: the note in the first
slot, a dummy in the second, and two empty outputs. -/
def draft : Witness where
  root := treeRoot host.permutation 10 tree
  publicAmount := -r.note.amount
  extDataHash := (hashExtData host r.ext : F)
  inputNullifier _ := 0
  outputCommitment _ := 0
  membershipRoots _ _ := memberRoot host.permutation r.member
  nonMembershipRoots _ _ := nonMemberRoot
  membershipProofs _ _ := r.member
  nonMembershipProofs _ _ := r.nonMember
  inAmount := ![r.note.amount, 0]
  inPrivateKey _ := r.privateKey
  inBlinding := ![r.note.blinding, r.dummyBlinding]
  inPathIndices := ![(r.index : F), 0]
  inPathElements _ := r.path host.permutation tree
  outAmount _ := 0
  outPubkey _ := r.note.pubkey
  outBlinding := r.outBlinding

def signals : Witness := completed host.permutation (r.draft host tree nonMemberRoot)

end Withdrawal

variable {w : Witness}

section Accepted
variable {r : Withdrawal} {host : Host} {config : Config} {extract : Extractor} {x : State}
  {ctx : Context} {sender : Address} {tree : List F} {nonMemberRoot : F}

theorem Withdrawal.inCommitment_eq (tree : List F) (nonMemberRoot : F)
    (howner : r.note.pubkey = keypair host.permutation r.privateKey) :
    (r.signals host tree nonMemberRoot).inCommitment host.permutation 0 = r.note.commitment host.permutation := by
  rw [Note.commitment, howner]
  rfl

theorem Withdrawal.index_val (hlt : r.index < 2 ^ 10) : ((r.index : F)).val = r.index :=
  val_natCast_of_lt (hlt.trans (by decide))

theorem Withdrawal.satisfied
    (hne : (r.signals host tree nonMemberRoot).inNullifier host.permutation 0 ≠
      (r.signals host tree nonMemberRoot).inNullifier host.permutation 1)
    (howner : r.note.pubkey = keypair host.permutation r.privateKey)
    (hpolicy : PolicyProofs host.permutation r.note.pubkey nonMemberRoot r.member r.nonMember)
    (hlt : r.index < 2 ^ 10) (hleaf : padded zeroLeaf tree r.index = r.note.commitment host.permutation) :
    PolicyTransaction host.permutation (r.signals host tree nonMemberRoot) := by
  apply completed_satisfied
  · intro slot
    fin_cases slot
    · change (r.index : F).val < 2 ^ 10
      rwa [Withdrawal.index_val hlt]
    · change (0 : F).val < 2 ^ 10
      decide
  · intro slot
    fin_cases slot
    · intro _
      have hroot : (r.signals host tree nonMemberRoot).inTreeRoot host.permutation 0 =
          merkleProof host.permutation (padded zeroLeaf tree r.index) (r.path host.permutation tree)
            (r.index : F) := by
        rw [hleaf, ← Withdrawal.inCommitment_eq tree nonMemberRoot howner]
        rfl
      refine Eq.trans ?_ hroot.symm
      exact (merkleProof_complete (Withdrawal.index_val hlt) hlt rfl).symm
    · intro hzero
      exact absurd rfl hzero
  · intro slot
    rfl
  · intro slot
    rw [howner] at hpolicy
    exact hpolicy
  · intro out
    change (0 : F).val < 2 ^ 248
    decide
  · exact hne
  · simp [Withdrawal.draft]

theorem Withdrawal.extAmount_neg (hamount : r.note.amount ≠ 0) : r.ext.extAmount < 0 := by
  have hpos : 0 < r.note.amount.val := Nat.pos_of_ne_zero fun hzero => hamount ((ZMod.val_eq_zero _).mp hzero)
  change -(r.note.amount.val : Int) < 0
  omega

variable {token : Address} {l : Ledger}

theorem Withdrawal.deposit_eq (htoken : l.pool.token = some token)
    (hamount : r.note.amount ≠ 0) : deposit host ctx r.ext sender l = .ok l := by
  have hneg := Withdrawal.extAmount_neg hamount
  rw [deposit, htoken, okOr_some, ok_bind, if_neg (by omega)]
  rfl

theorem Withdrawal.withdraw_accepted
    (htoken : l.pool.token = some token) (hamount : r.note.amount ≠ 0)
    (hfunds : r.note.amount.val ≤ l.balance token host.this)
    (hreceive : l.balance token r.recipient + r.note.amount.val < 2 ^ 127)
    (hrefused : ctx.refused token host.this r.recipient r.note.amount.val = false) :
    ∃ paid, withdraw host ctx r.ext l = .ok paid := by
  have habs : i256Neg r.ext.extAmount = .ok (r.note.amount.val : Int) := by
    rw [i256Neg, trapIf_neg]
    · exact congrArg Except.ok (neg_neg _)
    · change ¬-(r.note.amount.val : Int) = -2 ^ 255
      omega
  rw [withdraw, htoken, okOr_some, ok_bind, if_pos (Withdrawal.extAmount_neg hamount), habs, ok_bind,
    i256ToI128Nonneg_eq (by omega), ok_bind]
  exact transfer_accepted hrefused hfunds hreceive

/-- The circumstances of the call: the sender has signed, the budget suffices for
the root search, and the token pays the amount to the recipient. -/
structure Payable (host : Host) (config : Config) (ctx : Context) (sender : Address) (x : State)
    (r : Withdrawal) : Prop where
  auth : ctx.authorized sender = true
  budget : MerkleWithHistory.rootHistorySize ≤ ctx.budget
  receive : x.ledger.balance config.token r.recipient + r.note.amount.val < 2 ^ 127
  refused : ctx.refused config.token host.this r.recipient r.note.amount.val = false

theorem Withdrawal.accepted (hchain : ZeroesChain host.permutation) (hinv : Inv host config extract x)
    (hlevels : config.levels = 10) (hroom : x.accepted.length < 512) (hamount : r.note.amount ≠ 0)
    (hpayable : Payable host config ctx sender x r)
    (hfunds : r.note.amount.val ≤ x.ledger.balance config.token host.this)
    (hacceptable : Acceptable host config extract ctx r.ext x w) {groth : Groth16Proof}
    (hverify : verify (host.verificationKey config.verifier) groth w.publicInputs = .ok true) :
    ∃ l, transact host ctx (proofOf groth w) r.ext sender x.ledger = .ok ((), l) := by
  have hmarked := markNullifiers_eq (proofOf groth w).inputNullifiers hinv.nullifiers
  obtain ⟨paid, hpaid⟩ := Withdrawal.withdraw_accepted
    (l := { x.ledger with pool := markNullifiers _ x.ledger.pool }) (by rw [hmarked]; exact hinv.token)
    hamount hfunds hpayable.receive hpayable.refused
  exact transact_accepted hchain hinv.tree hinv.nullifiers hpayable.auth (hacceptable.checked hinv hverify)
    (Withdrawal.deposit_eq hinv.token hamount) hpaid (by rw [leaves_length, hlevels]; omega)

end Accepted

/-! The first deposit into a pool and the withdrawal of its note, with digests listed in a table. -/

def emptyNodes (level count : Nat) : List F := (List.range' level count).map zeroAt

def noteTable : List (Query × F) :=
  [(.hash2 1 0 3, 11), (.hash2 11 7 1, 51), (.hash2 0 0 1, 52), (.hash2 11 11 1, 53), (.compress 0 0, 54),
    (.hash2 2 9 1, 55), (.compress 63 64, 170),
    (.hash3 5 11 8 1, 61), (.hash3 0 11 9 1, 62), (.hash3 0 11 3 1, 63), (.hash3 0 11 4 1, 64),
    (.hash3 0 11 0 1, 21), (.hash3 1 21 0 4, 31), (.hash3 21 0 31 2, 41),
    (.hash3 0 11 1 1, 22), (.hash3 1 22 0 4, 32), (.hash3 22 0 32 2, 42),
    (.hash3 1 61 0 4, 33), (.hash3 61 0 33 2, 43),
    (.hash3 0 11 2 1, 24), (.hash3 1 24 0 4, 34), (.hash3 24 0 34 2, 44)]

def samplePaths : List (F × F × List F) :=
  [(21, 100, .replicate 10 0), (22, 110, .replicate 10 0), (51, 120, emptyNodes 0 10),
    (24, 130, 62 :: emptyNodes 1 9), (61, 140, 62 :: emptyNodes 1 9), (140, 150, 170 :: emptyNodes 2 8)]

def sampleTable : List (Query × F) :=
  zeroesTable ++ (noteTable ++ samplePaths.flatMap fun path => pathTable path.1 path.2.1 path.2.2)

abbrev samplePermutation : Permutation := tablePermutation sampleTable

def sampleInputs : Set Query := { q | q ∈ sampleTable.map Prod.fst }

theorem sampleTable_keys_nodup : (sampleTable.map Prod.fst).Nodup := by decide +kernel

theorem sampleTable_digests_nodup : (0 :: zeroLeaf :: sampleTable.map Prod.snd).Nodup := by
  decide +kernel

theorem sample_chain : ZeroesChain samplePermutation := zeroesChain_tablePermutation _

theorem sample_collisionFree : CollisionFree samplePermutation sampleInputs :=
  collisionFree_tablePermutation sampleTable_keys_nodup sampleTable_digests_nodup.of_cons.of_cons

theorem sample_avoids_zero : Avoids samplePermutation sampleInputs 0 := by
  apply avoids_tablePermutation sampleTable_keys_nodup
  have h := (nodup_cons.mp sampleTable_digests_nodup).1
  rw [mem_cons] at h
  exact fun hmem => h (.inr hmem)

theorem sample_avoids_zeroLeaf : Avoids samplePermutation sampleInputs zeroLeaf :=
  avoids_tablePermutation sampleTable_keys_nodup
    (nodup_cons.mp sampleTable_digests_nodup.of_cons).1

theorem sample_note {entry : Query × F} (h : entry ∈ noteTable) : entry ∈ sampleTable :=
  mem_append_right _ (mem_append_left _ h)

variable {q : Query}

theorem sample_digest {d : F} (h : (q, d) ∈ noteTable) : q.digest samplePermutation = d :=
  digest_of_mem sampleTable_keys_nodup (sample_note h)

theorem sample_input {d : F} (h : (q, d) ∈ noteTable) : q ∈ sampleInputs :=
  mem_map.mpr ⟨_, sample_note h, rfl⟩

theorem sample_zeroes {i : Nat} (hi : i < 32) : .compress (zeroAt i) (zeroAt i) ∈ sampleInputs :=
  mem_map.mpr ⟨(_, zeroAt (i + 1)), mem_append_left _ (mem_map.mpr ⟨i, mem_range.mpr hi, rfl⟩), rfl⟩

section
variable {start k : F} {elements : List F} (h : (start, k, elements) ∈ samplePaths)
include h

theorem sample_pathTable : ∀ entry ∈ pathTable start k elements, entry ∈ sampleTable := fun _ hentry =>
  mem_append_right _ (mem_append_right _ (mem_flatMap.mpr ⟨_, h, hentry⟩))

theorem sample_path :
    ∀ input ∈ walkInputs (compress samplePermutation) 0 start elements, .compress input.1 input.2 ∈ sampleInputs :=
  walkInputs_pathTable sampleTable_keys_nodup elements start k (sample_pathTable h)

end

def sampleDeposit : Deposit where
  amount := 5
  privateKey := 1
  inBlinding := ![0, 1]
  outBlinding := ![8, 9]
  member := ⟨51, 7, ⟨(emptyNodes 0 10).toArray, rfl⟩, 0⟩
  nonMember := ⟨11, .replicate 10 0, 2, 9, 0⟩
  recipient := ⟨6⟩
  encryptedOutput _ := []

theorem sample_publicKey : keypair samplePermutation 1 = 11 := by
  rw [keypair]
  exact sample_digest (by decide)

theorem sample_nonMember : (sampleDeposit.nonMember.signals 55).Shallow samplePermutation := by
  refine ⟨rfl, rfl, rfl, .inr (by decide), ?_⟩
  have hold : (Query.hash2 2 9 1).digest samplePermutation = 55 := sample_digest (by decide)
  change 55 = (Query.hash2 2 9 1).digest samplePermutation * (1 - num2Bits 0 0)
  rw [hold]
  decide

theorem sample_nonMember_queries :
    ∀ q ∈ (sampleDeposit.nonMember.signals 55).queries samplePermutation, q ∈ sampleInputs := by
  intro q hq
  rcases queries_of_zero rfl rfl rfl hq with rfl | rfl | rfl
  · exact sample_input (d := 55) (by decide)
  · exact sample_input (d := 53) (by decide)
  · exact sample_input (d := 54) (by decide)

theorem sample_policy : PolicyProofs samplePermutation (keypair samplePermutation 1) 55
    sampleDeposit.member sampleDeposit.nonMember where
  leaf := by
    rw [sample_publicKey]
    exact (sample_digest (q := .hash2 11 7 1) (by decide)).symm
  bits := by decide
  key := sample_publicKey.symm
  isOld0 := by decide
  verified := sample_nonMember.verified

theorem sample_slot {slot : Fin 2} {c s n k : F} (hkey : w.inPrivateKey slot = 1)
    (hindex : w.inPathIndices slot = 0) (hmember : w.membershipProofs slot 0 = sampleDeposit.member)
    (hnonMember : ∀ q ∈ (w.nonMembershipVerifier slot 0).queries samplePermutation, q ∈ sampleInputs)
    (hcommitment : (.hash3 (w.inAmount slot) 11 (w.inBlinding slot) 1, c) ∈ noteTable)
    (hsignature : (.hash3 1 c 0 4, s) ∈ noteTable) (hnullifier : (.hash3 c 0 s 2, n) ∈ noteTable)
    (hpath : (c, k, (w.inPathElements slot).toList) ∈ samplePaths) :
    w.inNullifier samplePermutation slot = n ∧ ∀ q ∈ w.inputQueries samplePermutation slot, q ∈ sampleInputs := by
  have hpublic : w.publicKey samplePermutation slot = 11 := by
    rw [Signals.publicKey, hkey, sample_publicKey]
  have hc : w.inCommitment samplePermutation slot = c := by
    rw [Signals.inCommitment, hpublic]
    exact sample_digest hcommitment
  have hs : w.inSignature samplePermutation slot = s := by
    rw [Signals.inSignature, hkey, hc, hindex]
    exact sample_digest hsignature
  refine ⟨?_, ?_⟩
  · rw [Signals.inNullifier, hc, hindex, hs]
    exact sample_digest hnullifier
  · have hmemberPath : (51, 120, emptyNodes 0 10) ∈ samplePaths := by simp [samplePaths]
    intro q hq
    simp only [Signals.inputQueries, hpublic, hc, hs, hkey, hindex, mem_append,
      mem_flatMap, mem_cons, not_mem_nil, or_false, merkleProofQueries_eq,
      mem_map] at hq
    rcases hq with (((rfl | rfl | rfl | rfl) | ⟨input, hin, rfl⟩) | ⟨i, -, hq⟩) | ⟨i, -, hq⟩
    · exact sample_input (d := 11) (by decide)
    · exact sample_input hcommitment
    · exact sample_input hsignature
    · exact sample_input hnullifier
    · exact sample_path hpath input (by simpa using hin)
    · obtain rfl : i = 0 := Subsingleton.elim _ _
      rw [hmember] at hq
      rcases hq with rfl | ⟨input, hin, rfl⟩
      · exact sample_input (d := 51) (by decide)
      · exact sample_path hmemberPath input hin
    · obtain rfl : i = 0 := Subsingleton.elim _ _
      exact hnonMember q hq

noncomputable def sampleHost : Host where
  permutation := samplePermutation
  keccakXdr _ := 0
  this := ⟨0⟩
  verificationKey _ := honestKey samplePermutation

def sampleConfig : Config where
  admin := ⟨1⟩
  token := ⟨2⟩
  verifier := ⟨3⟩
  aspMembership := ⟨4⟩
  aspNonMembership := ⟨5⟩
  maximumDepositAmount := 100
  levels := 10

def sampleContext : Context where
  authorized address := decide (address ≠ ⟨0⟩)
  aspMembershipRoot _ := some (memberRoot samplePermutation sampleDeposit.member).val
  aspNonMembershipRoot _ := some 55
  refused _ _ _ _ := false
  budget := 90

def sampleStart : State where
  ledger :=
    { pool := match constructor ⟨1⟩ ⟨2⟩ ⟨3⟩ ⟨4⟩ ⟨5⟩ 100 10 .fresh with
        | .ok (_, pool) => pool
        | .error _ => .fresh
      balance _ _ := 100 }
  accepted := []

noncomputable def sampleWitness : Witness := sampleDeposit.signals sampleHost [] 55

def sampleWithdrawal : Withdrawal where
  index := 0
  note := ⟨5, 11, 8⟩
  privateKey := 1
  dummyBlinding := 2
  outBlinding := ![3, 4]
  member := sampleDeposit.member
  nonMember := sampleDeposit.nonMember
  recipient := ⟨6⟩
  encryptedOutput _ := []

noncomputable def spendWitness : Witness := sampleWithdrawal.signals sampleHost [61, 62] 55

noncomputable def sampleTransaction : Transaction where
  proof := proofOf ⟨.replicate 64 0, .replicate 128 0, .replicate 64 0⟩ sampleWitness
  ext := sampleDeposit.ext
  sender := ⟨6⟩

noncomputable def spendTransaction : Transaction where
  proof := proofOf sampleTransaction.proof.proof spendWitness
  ext := sampleWithdrawal.ext
  sender := ⟨6⟩

noncomputable def sampleExtract : Extractor := honestExtract samplePermutation { sampleWitness, spendWitness }

noncomputable def sampleState : State :=
  sampleStart.invoke sampleHost sampleContext (.transact sampleTransaction)

noncomputable def spentState : State :=
  sampleState.invoke sampleHost sampleContext (.transact spendTransaction)

theorem sample_deployed : Deployed sampleConfig sampleStart := ⟨rfl, rfl⟩

theorem sample_slots (slot : Fin 2) :
    sampleWitness.inNullifier samplePermutation slot = ![41, 42] slot ∧
      ∀ q ∈ sampleWitness.inputQueries samplePermutation slot, q ∈ sampleInputs := by
  fin_cases slot
  · exact sample_slot (c := 21) (s := 31) (k := 100) rfl rfl rfl sample_nonMember_queries (by decide)
      (by decide) (by decide) (by decide)
  · exact sample_slot (c := 22) (s := 32) (k := 110) rfl rfl rfl sample_nonMember_queries (by decide)
      (by decide) (by decide) (by decide)

theorem sample_siblings :
    siblingsOf (compress samplePermutation) (padded zeroLeaf [61, 62]) 10 0 0 = 62 :: emptyNodes 1 9 := by
  rw [siblingsOf, siblingsOf_zero sample_chain (by omega) (by simp)]
  rfl

theorem spend_slots (slot : Fin 2) :
    spendWitness.inNullifier samplePermutation slot = ![43, 44] slot ∧
      ∀ q ∈ spendWitness.inputQueries samplePermutation slot, q ∈ sampleInputs := by
  have hpath : ∀ slot, (spendWitness.inPathElements slot).toList = 62 :: emptyNodes 1 9 := fun _ => sample_siblings
  fin_cases slot
  · exact sample_slot (c := 61) (s := 33) (k := 140) rfl rfl rfl sample_nonMember_queries (by decide)
      (by decide) (by decide) (by simp [hpath, samplePaths])
  · exact sample_slot (c := 24) (s := 34) (k := 130) rfl rfl rfl sample_nonMember_queries (by decide)
      (by decide) (by decide) (by simp [hpath, samplePaths])

theorem sample_nullifiers_ne : (sampleDeposit.draft sampleHost [] 55).inNullifier samplePermutation 0 ≠
    (sampleDeposit.draft sampleHost [] 55).inNullifier samplePermutation 1 := by
  intro heq
  rw [← Deposit.signals_inNullifier, ← Deposit.signals_inNullifier] at heq
  exact absurd ((sample_slots 0).1.symm.trans (heq.trans (sample_slots 1).1)) (by decide)

theorem sampleWitness_satisfied : PolicyTransaction samplePermutation sampleWitness :=
  @Deposit.satisfied sampleDeposit sampleHost [] 55 sample_policy (by decide) sample_nullifiers_ne

theorem spendWitness_satisfied : PolicyTransaction samplePermutation spendWitness := by
  apply @Withdrawal.satisfied sampleWithdrawal sampleHost [61, 62] 55 _ sample_publicKey.symm sample_policy (by decide)
  · exact (sample_digest (q := .hash3 5 11 8 1) (by decide)).symm
  · intro heq
    exact absurd ((spend_slots 0).1.symm.trans (heq.trans (spend_slots 1).1)) (by decide)

theorem sample_sound : Sound samplePermutation (honestKey samplePermutation) sampleExtract := by
  apply honest_sound
  rintro _ (rfl | rfl)
  · exact sampleWitness_satisfied
  · exact spendWitness_satisfied

theorem sample_inv : Inv sampleHost sampleConfig sampleExtract sampleStart :=
  sample_deployed.inv sample_chain

section Outputs
variable (outputs : Fin 2 → List UInt8)

def outputsDeposit : Deposit := { sampleDeposit with encryptedOutput := outputs }

noncomputable def outputsTransaction : Transaction :=
  { sampleTransaction with ext := (outputsDeposit outputs).ext }

theorem outputs_accepted : ∃ l, transact sampleHost sampleContext
    (outputsTransaction outputs).proof (outputsTransaction outputs).ext (outputsTransaction outputs).sender
      sampleStart.ledger = .ok ((), l) := by
  apply deposit_accepted (d := outputsDeposit outputs) sample_chain sample_inv rfl (by decide) sample_policy rfl rfl
  · have h : Depositable sampleHost sampleConfig sampleContext ⟨6⟩ sampleStart sampleDeposit :=
      ⟨by decide, by decide, ⟨100, rfl, by decide⟩, by decide, fun _ => by decide, fun _ => rfl⟩
    exact ⟨h.auth, h.budget, h.limit, h.funds, h.receive, h.refused⟩
  · intro hzero
    have hval := emptyRoot_eq sample_chain (show 10 ≤ 32 by omega)
    rw [show treeRoot samplePermutation 10 [] = 0 from hzero] at hval
    exact absurd hval (by decide)
  · rw [outputsDeposit, Deposit.inNullifier_draft_output, Deposit.inNullifier_draft_output]
    exact sample_nullifiers_ne
  · intro slot
    exact not_mem_nil
  · rfl
  · exact honest_verify sampleWitness_satisfied _

end Outputs

theorem sample_accepted : ∃ l, transact sampleHost sampleContext sampleTransaction.proof
    sampleTransaction.ext sampleTransaction.sender sampleStart.ledger = .ok ((), l) := by
  have hsame : outputsTransaction (fun _ => []) = sampleTransaction := rfl
  rw [← hsame]
  exact outputs_accepted _

theorem sampleState_accepted : sampleState.accepted = [sampleTransaction] := by
  obtain ⟨l, h⟩ := sample_accepted
  rw [sampleState, State.invoke_transact h]
  rfl

theorem sample_reachable : Reachable sampleHost sampleConfig sampleState :=
  ⟨sampleStart, sample_deployed, .single (.call _ _ (by decide))⟩

theorem sample_injOn : Set.InjOn Signals.publicInputs { sampleWitness, spendWitness } := by
  apply Set.injOn_pair.mpr
  intro heq
  have hamount : (5 : F) = -5 := (cons.inj (cons.inj heq).2).1
  exact absurd hamount (by decide)

theorem sample_witness : witness sampleExtract sampleTransaction = sampleWitness := by
  rw [witness, sampleTransaction, proofOf_publicInputs _ rfl rfl]
  exact honestExtract_known sample_injOn (.inl rfl) _

theorem spend_witness : witness sampleExtract spendTransaction = spendWitness := by
  rw [witness, spendTransaction, proofOf_publicInputs _ rfl rfl]
  exact honestExtract_known sample_injOn (.inr rfl) _

theorem sample_outputNotes : outputNotes sampleWitness = [⟨5, 11, 8⟩, ⟨0, 11, 9⟩] := by
  simp only [outputNotes, ofFn_succ, ofFn_zero]
  rw [show sampleWitness.outPubkey = fun _ => 11 from funext fun _ => sample_publicKey]
  rfl

theorem sample_leaves : leaves samplePermutation sampleExtract [sampleTransaction, spendTransaction] =
    [61, 62, 63, 64] := by
  rw [leaves, notes, flatMap_cons, flatMap_singleton, sample_witness, spend_witness, sample_outputNotes]
  decide +kernel

theorem sample_commitments : sampleWitness.outputCommitment 0 = 61 ∧ sampleWitness.outputCommitment 1 = 62 := by
  have hpubkey : ∀ out, sampleWitness.outPubkey out = 11 := fun _ => sample_publicKey
  constructor
  · change hash3 samplePermutation 5 (sampleWitness.outPubkey 0) 8 1 = 61
    rw [hpubkey]
    exact sample_digest (by decide)
  · change hash3 samplePermutation 0 (sampleWitness.outPubkey 1) 9 1 = 62
    rw [hpubkey]
    exact sample_digest (by decide)

theorem sample_treeQuery {tree : List F} (htree : tree <+: [61, 62, 63, 64])
    (heven : tree.length % 2 = 0) (hq : TreeQuery samplePermutation tree 10 q) : q ∈ sampleInputs := by
  have hfirst : (61, 140, 62 :: emptyNodes 1 9) ∈ samplePaths := by simp [samplePaths]
  have hsecond : (140, 150, 170 :: emptyNodes 2 8) ∈ samplePaths := by simp [samplePaths]
  have hcases : tree = [] ∨ tree = [61, 62] ∨ tree = [61, 62, 63, 64] := by
    have hle := htree.length_le
    rw [prefix_iff_eq_take.mp htree]
    generalize tree.length = n at heven hle
    rcases (show n = 0 ∨ n = 2 ∨ n = 4 by simp at hle; omega) with rfl | rfl | rfl <;> simp
  rcases hcases with rfl | rfl | rfl
  · obtain ⟨input, hin, rfl⟩ := hq
    obtain ⟨i, hi, rfl⟩ :=
      (Logged.empty sample_chain (show 10 ≤ 32 by omega) [] input hin).resolve_left not_mem_nil
    exact sample_zeroes (by omega)
  · rcases hq.small sample_chain (by decide) (by decide) with ⟨i, hi, rfl⟩ | rfl | ⟨input, hin, rfl⟩
    · exact sample_zeroes hi
    · exact sample_zeroes (show 0 < 32 by omega)
    · rw [sample_siblings] at hin
      exact sample_path hfirst input hin
  · rcases hq.small sample_chain (by decide) (by decide) with ⟨i, hi, rfl⟩ | rfl | ⟨input, hin, rfl⟩
    · exact sample_zeroes hi
    · exact sample_input (d := 170) (by decide)
    · have hnode : compress samplePermutation 61 62 = 140 :=
        digest_of_mem (q := .compress 61 62) sampleTable_keys_nodup (sample_pathTable hfirst _ mem_cons_self)
      have hnext : compress samplePermutation 63 64 = 170 := sample_digest (q := .compress 63 64) (by decide)
      have hpath : siblingsOf (compress samplePermutation) (padded zeroLeaf [61, 62, 63, 64]) 10 0 0 =
          62 :: 170 :: emptyNodes 2 8 := by
        rw [siblingsOf, siblingsOf, siblingsOf_zero sample_chain (by omega) (by simp), ← hnext]
        rfl
      rw [hpath, walkInputs_cons] at hin
      rcases mem_cons.mp hin with rfl | hin
      · exact sample_path hfirst (61, 62) mem_cons_self
      · exact sample_path hsecond input (hnode ▸ hin)

theorem sampleState_leaves : leaves samplePermutation sampleExtract sampleState.accepted = [61, 62] := by
  have h := sample_leaves
  rw [show [sampleTransaction, spendTransaction] = [sampleTransaction] ++ [spendTransaction] from rfl,
    leaves_append] at h
  rw [sampleState_accepted]
  exact (append_inj h (by rw [leaves_length]; rfl)).1

theorem sample_config : sampleState.ledger.pool.aspMembership = some ⟨4⟩ ∧
    sampleState.ledger.pool.aspNonMembership = some ⟨5⟩ := by
  obtain ⟨l, hcall⟩ := sample_accepted
  obtain ⟨hmember, hnonMember, -⟩ := (transact_ok sample_inv.nullifiers hcall).config
  rw [sampleState, State.invoke_transact hcall]
  exact ⟨hmember, hnonMember⟩

theorem sample_payable : Payable sampleHost sampleConfig sampleContext ⟨6⟩ sampleState sampleWithdrawal := by
  obtain ⟨l, hcall⟩ := sample_accepted
  have hle : l.balance ⟨2⟩ ⟨6⟩ ≤ 100 + 5 := transact_balance_le hcall ⟨2⟩ ⟨6⟩
  refine ⟨by decide, by decide, ?_, rfl⟩
  rw [sampleState, State.invoke_transact hcall]
  change l.balance ⟨2⟩ ⟨6⟩ + 5 < 2 ^ 127
  omega

theorem spend_accepted : ∃ l, transact sampleHost sampleContext spendTransaction.proof
    spendTransaction.ext spendTransaction.sender sampleState.ledger = .ok ((), l) := by
  have hinv := sample_reachable.inv sample_chain sample_sound
  have hfunds := hinv.funds
  rw [sampleState_accepted] at hfunds
  have hnulls : publishedNullifiers sampleState.accepted = [41, 42] := by
    rw [sampleState_accepted, publishedNullifiers, flatMap_singleton]
    simp only [sampleTransaction, proofOf, Fin.zero_eta, Fin.mk_one]
    rw [show sampleWitness.inputNullifier 0 = 41 from (sample_slots 0).1,
      show sampleWitness.inputNullifier 1 = 42 from (sample_slots 1).1]
    decide
  apply Withdrawal.accepted (r := sampleWithdrawal) sample_chain hinv rfl (by rw [sampleState_accepted]; decide)
    (by decide) sample_payable (Int.ofNat_le.mp hfunds) _ (honest_verify spendWitness_satisfied _)
  refine ⟨spendWitness_satisfied, ?_, ?_, by decide, ?_, rfl, by decide, by decide, fun _ => ?_, fun _ => ?_⟩
  · rw [show sampleHost.permutation = samplePermutation from rfl, sampleState_leaves]
    rfl
  · exact treeRoot_ne_zero (fun _ => sample_treeQuery (by decide) rfl) sample_avoids_zero
  · intro slot
    rw [hnulls, show spendWitness.inputNullifier slot = _ from (spend_slots slot).1]
    fin_cases slot <;> decide
  · rw [getAspMembershipRoot, sample_config.1]
    rfl
  · rw [getAspNonMembershipRoot, sample_config.2]
    rfl

theorem spentState_accepted : spentState.accepted = [sampleTransaction, spendTransaction] := by
  obtain ⟨l, h⟩ := spend_accepted
  rw [spentState, State.invoke_transact h]
  exact congrArg (· ++ [spendTransaction]) sampleState_accepted

theorem spent_reachable : Reachable sampleHost sampleConfig spentState :=
  ⟨sampleStart, sample_deployed, .tail (.single (.call _ _ (by decide))) (.call _ _ (by decide))⟩

theorem sample_covers : Covers samplePermutation sampleInputs sampleWitness := by
  refine covers_of (fun slot => (sample_slots slot).2) fun out => ?_
  have hpubkey : sampleWitness.outPubkey out = 11 := sample_publicKey
  rw [Signals.outputQuery, hpubkey]
  fin_cases out
  · exact sample_input (d := 61) (by decide)
  · exact sample_input (d := 62) (by decide)

theorem spend_covers : Covers samplePermutation sampleInputs spendWitness := by
  refine covers_of (fun slot => (spend_slots slot).2) fun out => ?_
  fin_cases out
  · exact sample_input (d := 63) (by decide)
  · exact sample_input (d := 64) (by decide)

end PrivatePayments.System

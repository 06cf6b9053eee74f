import PrivatePayments.Circuits.PolicyTransaction
import PrivatePayments.Contracts.Pool
import Mathlib.Logic.Relation

/-! Runs of a deployed pool.  Beside the ledger a run keeps the transactions
accepted so far; through the witnesses of their proofs they say which notes were
inserted and which were spent. -/
namespace PrivatePayments.System
open Contracts Contracts.Pool Contracts.Groth16Verifier Circuits Lib.BinaryTree List

/-- The signals of `policy_tx_2_2.circom`. -/
abbrev Witness := Signals 2 2 1 1 10 10

structure Transaction where
  proof : Proof
  ext : ExtData
  sender : Address

inductive Call where
  | transact (tx : Transaction)
  | updateAdmin (newAdmin : Address)
  | updateAspMembership (newAspMembership : Address)
  | updateAspNonMembership (newAspNonMembership : Address)

def exec (host : Host) (ctx : Context) : Call → Ledger → Result (Unit × Ledger)
  | .transact tx => transact host ctx tx.proof tx.ext tx.sender
  | .updateAdmin newAdmin => updateAdmin ctx newAdmin
  | .updateAspMembership newAspMembership => updateAspMembership ctx newAspMembership
  | .updateAspNonMembership newAspNonMembership => updateAspNonMembership ctx newAspNonMembership

def Call.transactions : Call → List Transaction
  | .transact tx => [tx]
  | .updateAdmin _ | .updateAspMembership _ | .updateAspNonMembership _ => []

structure State where
  ledger : Ledger
  accepted : List Transaction

/-- A call on the ledger.  One that fails changes nothing. -/
def State.invoke (host : Host) (ctx : Context) (call : Call) (x : State) : State :=
  match Contracts.invoke (exec host ctx call) x.ledger with
  | (.ok _, ledger) => ⟨ledger, x.accepted ++ call.transactions⟩
  | (.error _, ledger) => ⟨ledger, x.accepted⟩

structure Config where
  admin : Address
  token : Address
  verifier : Address
  aspMembership : Address
  aspNonMembership : Address
  maximumDepositAmount : U256
  levels : Nat

def Deployed (config : Config) (x : State) : Prop :=
  constructor config.admin config.token config.verifier config.aspMembership
    config.aspNonMembership config.maximumDepositAmount config.levels .fresh =
      .ok ((), x.ledger.pool) ∧ x.accepted = []

/-- Anyone may call the pool, whatever the other contracts answer; the pool
itself signs nothing.  What happens elsewhere never takes tokens from the pool. -/
inductive Step (host : Host) (x : State) : State → Prop where
  | call (ctx : Context) (call : Call) (hself : ctx.authorized host.this = false) :
      Step host x (x.invoke host ctx call)
  | other (balance : Address → Address → Nat)
      (hkept : ∀ token, x.ledger.balance token host.this ≤ balance token host.this) :
      Step host x { x with ledger := { x.ledger with balance } }

def Reachable (host : Host) (config : Config) (x : State) : Prop :=
  ∃ y, Deployed config y ∧ Relation.ReflTransGen (Step host) y x

abbrev Extractor := Groth16Proof → List F → Witness

/-- Knowledge soundness: from an accepted proof a witness can be extracted. -/
def Sound (P : Permutation) (vk : VerificationKey) (extract : Extractor) : Prop :=
  ∀ proof publicInputs, verify vk proof publicInputs = .ok true →
    (extract proof publicInputs).publicInputs = publicInputs ∧
      PolicyTransaction P (extract proof publicInputs)

def witness (extract : Extractor) (tx : Transaction) : Witness :=
  extract tx.proof.proof tx.proof.publicInputs

/-- The proof of a transaction carries the public signals of its witness. -/
structure Matches (w : Witness) (proof : Proof) : Prop where
  root : w.root = (proof.root : F)
  publicAmount : w.publicAmount = (proof.publicAmount : F)
  nullifiers : proof.inputNullifiers.map (fun n : Nat => (n : F)) = List.ofFn w.inputNullifier
  outputs : [(proof.outputCommitment0 : F), (proof.outputCommitment1 : F)] =
    List.ofFn w.outputCommitment
  membershipRoots : ∀ tx i, w.membershipRoots tx i = (proof.aspMembershipRoot : F)
  nonMembershipRoots : ∀ tx i, w.nonMembershipRoots tx i = (proof.aspNonMembershipRoot : F)

/-- Eleven public inputs leave room for exactly two nullifiers. -/
theorem matches_of_publicInputs {w : Witness} {proof : Proof}
    (h : w.publicInputs = proof.publicInputs) : Matches w proof := by
  have hlength := congrArg List.length h
  simp only [Signals.publicInputs, Proof.publicInputs, length_append, length_cons,
    length_nil, length_ofFn, length_flatten, length_map, length_replicate,
    map_ofFn] at hlength
  obtain ⟨n0, n1, hns⟩ : ∃ n0 n1, proof.inputNullifiers = [n0, n1] := by
    apply length_eq_two.mp
    simp [Function.comp_def] at hlength
    omega
  simp only [Signals.publicInputs, Proof.publicInputs, hns] at h
  simp [ofFn_succ] at h
  obtain ⟨hroot, hamount, -, hn0, hn1, hc0, hc1, hm0, hm1, hk0, hk1⟩ := h
  refine ⟨hroot, hamount, ?_, ?_, ?_, ?_⟩
  · simp [hns, ofFn_succ, hn0, hn1]
  · simp [ofFn_succ, hc0, hc1]
  · intro tx i
    fin_cases tx <;> fin_cases i <;> assumption
  · intro tx i
    fin_cases tx <;> fin_cases i <;> assumption

structure Note where
  amount : F
  pubkey : F
  blinding : F

def Note.commitment (P : Permutation) (note : Note) : F :=
  hash3 P note.amount note.pubkey note.blinding 1

def outputNotes (w : Witness) : List Note :=
  List.ofFn fun tx => ⟨w.outAmount tx, w.outPubkey tx, w.outBlinding tx⟩

def notes (extract : Extractor) (txs : List Transaction) : List Note :=
  txs.flatMap fun tx => outputNotes (witness extract tx)

def leaves (P : Permutation) (extract : Extractor) (txs : List Transaction) : List F :=
  (notes extract txs).map (Note.commitment P)

def publishedNullifiers (txs : List Transaction) : List U256 :=
  txs.flatMap fun tx => tx.proof.inputNullifiers

def txEvents (index : Nat) (tx : Transaction) : List Event :=
  tx.proof.inputNullifiers.map .newNullifier ++
    [.newCommitment tx.proof.outputCommitment0 index tx.ext.encryptedOutput0,
      .newCommitment tx.proof.outputCommitment1 (index + 1) tx.ext.encryptedOutput1]

def events (txs : List Transaction) : List Event :=
  txs.zipIdx.flatMap fun entry => txEvents (2 * entry.2) entry.1

def extTotal (txs : List Transaction) : Int := (txs.map fun tx => tx.ext.extAmount).sum

variable {P : Permutation} {extract : Extractor}

section Append
variable (txs : List Transaction) (tx : Transaction)

theorem notes_append : notes extract (txs ++ [tx]) = notes extract txs ++ outputNotes (witness extract tx) := by
  simp [notes]

theorem leaves_append : leaves P extract (txs ++ [tx]) =
    leaves P extract txs ++ (outputNotes (witness extract tx)).map (Note.commitment P) := by
  simp [leaves, notes_append]

theorem publishedNullifiers_append :
    publishedNullifiers (txs ++ [tx]) = publishedNullifiers txs ++ tx.proof.inputNullifiers := by
  simp [publishedNullifiers]

theorem events_append : events (txs ++ [tx]) = events txs ++ txEvents (2 * txs.length) tx := by
  simp [events, zipIdx_append]

theorem extTotal_append : extTotal (txs ++ [tx]) = extTotal txs + tx.ext.extAmount := by
  simp [extTotal]

theorem leaves_length : (leaves P extract txs).length = 2 * txs.length := by
  induction txs with
  | nil => rfl
  | cons tx rest ih =>
    simp only [leaves, notes, flatMap_cons, map_append, length_append, length_map] at ih ⊢
    rw [ih]
    simp [outputNotes]
    omega

end Append

/-- What the checks of the contract and the circuit say about one accepted
transaction. -/
structure Valid (P : Permutation) (extract : Extractor) (tx : Transaction) : Prop where
  satisfied : PolicyTransaction P (witness extract tx)
  agrees : Matches (witness extract tx) tx.proof
  canonical : Canonical tx.proof
  amount_lt : |tx.ext.extAmount| < 2 ^ 248
  amount_eq : (witness extract tx).publicAmount = ((tx.ext.extAmount : Int) : F)

variable {tx : Transaction}

section Valid

theorem Valid.leaves (h : Valid P extract tx) :
    (outputNotes (witness extract tx)).map (Note.commitment P) =
      [(tx.proof.outputCommitment0 : F), (tx.proof.outputCommitment1 : F)] := by
  rw [h.agrees.outputs, outputNotes, map_ofFn]
  exact congrArg List.ofFn (funext fun i => (h.satisfied.outputs i).commitment)

/-- The circuit compares the nullifiers of one transaction with each other. -/
theorem Valid.nullifiers_nodup (h : Valid P extract tx) : tx.proof.inputNullifiers.Nodup := by
  have hcast : (tx.proof.inputNullifiers.map fun n : Nat => (n : F)).Nodup := by
    rw [h.agrees.nullifiers, nodup_ofFn]
    exact h.satisfied.nullifier_injective
  exact hcast.of_map

theorem valid_of_checked {host : Host} {ctx : Context} {s : Storage} {verifier : Address}
    (hsound : Sound P (host.verificationKey verifier) extract) (hverifier : s.verifier = some verifier)
    (h : Checked host ctx tx.proof tx.ext s) : Valid P extract tx := by
  obtain ⟨v, hv, hcanonical, haccepted⟩ := verifyProof_ok h.verified
  obtain rfl : verifier = v := Option.some.inj (hverifier.symm.trans hv)
  obtain ⟨hpublic, hsat⟩ := hsound _ _ haccepted
  obtain ⟨hlt, hamount⟩ := calculatePublicAmount_ok h.amount
  have hmatches := matches_of_publicInputs hpublic
  exact ⟨hsat, hmatches, hcanonical, hlt, hmatches.publicAmount.trans hamount⟩

end Valid

structure Inv (host : Host) (config : Config) (extract : Extractor) (x : State) : Prop where
  token : x.ledger.pool.token = some config.token
  verifier : x.ledger.pool.verifier = some config.verifier
  tree : MerkleWithHistory.Holds host.permutation config.levels
    (leaves host.permutation extract x.accepted) x.ledger.pool.merkle
  logged : ∀ j, Logged host.permutation ((leaves host.permutation extract x.accepted).take (2 * j))
    config.levels x.ledger.pool.merkle.hashed
  traced : ∀ q ∈ x.ledger.pool.merkle.hashed, ∃ j, TreeQuery host.permutation
    ((leaves host.permutation extract x.accepted).take (2 * j)) config.levels q
  nullifiers : x.ledger.pool.nullifiers =
    some fun n => if n ∈ publishedNullifiers x.accepted then some true else none
  nodup : (publishedNullifiers x.accepted).Nodup
  events : x.ledger.pool.events = events x.accepted
  valid : ∀ tx ∈ x.accepted, Valid host.permutation extract tx
  rooted : ∀ tx ∈ x.accepted, ∃ j, 2 * j ≤ (leaves host.permutation extract x.accepted).length ∧
    tx.proof.root = (treeRoot host.permutation config.levels
      ((leaves host.permutation extract x.accepted).take (2 * j))).val
  funds : extTotal x.accepted ≤ x.ledger.balance config.token host.this

section Inv
variable {host : Host} {config : Config} {x y : State}

theorem State.invoke_cases (host : Host) (ctx : Context) (call : Call) (x : State) :
    x.invoke host ctx call = x ∨ ∃ l, exec host ctx call x.ledger = .ok ((), l) ∧
      x.invoke host ctx call = ⟨l, x.accepted ++ call.transactions⟩ := by
  unfold State.invoke Contracts.invoke
  cases exec host ctx call x.ledger with
  | error e => exact .inl rfl
  | ok result => exact .inr ⟨result.2, rfl, rfl⟩

variable {ctx : Context}

variable {l : Ledger}

theorem State.invoke_transact
    (h : Pool.transact host ctx tx.proof tx.ext tx.sender x.ledger = .ok ((), l)) :
    x.invoke host ctx (.transact tx) = ⟨l, x.accepted ++ [tx]⟩ := by
  rw [State.invoke, Contracts.invoke, exec, h]
  rfl

/-- What a call can do, or what happens elsewhere. -/
theorem Step.cases (h : Step host x y) : y = x ∨
    (∃ ctx tx l, ctx.authorized host.this = false ∧
      Pool.transact host ctx tx.proof tx.ext tx.sender x.ledger = .ok ((), l) ∧ y = ⟨l, x.accepted ++ [tx]⟩) ∨
    (∃ admin aspMembership aspNonMembership,
      y = ⟨{ x.ledger with pool := { x.ledger.pool with admin, aspMembership, aspNonMembership } }, x.accepted⟩ ∧
        (x.ledger.pool.admin.isSome → admin.isSome) ∧ (x.ledger.pool.aspMembership.isSome → aspMembership.isSome) ∧
        (x.ledger.pool.aspNonMembership.isSome → aspNonMembership.isSome)) ∨
    ∃ balance, (∀ token, x.ledger.balance token host.this ≤ balance token host.this) ∧
      y = { x with ledger := { x.ledger with balance } } := by
  cases h with
  | call ctx call hself =>
    rcases State.invoke_cases host ctx call x with hsame | ⟨l, hexec, heq⟩
    · exact .inl hsame
    · rw [heq]
      cases call with
      | transact tx => exact .inr (.inl ⟨ctx, tx, l, hself, hexec, rfl⟩)
      | updateAdmin newAdmin | updateAspMembership newAddress | updateAspNonMembership newAddress =>
        obtain ⟨_, _, hexec⟩ := bind_eq_ok hexec
        obtain ⟨_, _, hexec⟩ := bind_eq_ok hexec
        cases hexec
        exact .inr (.inr (.inl ⟨_, _, _, by rw [Call.transactions, append_nil], by simp⟩))
  | other balance hkept => exact .inr (.inr (.inr ⟨balance, hkept, rfl⟩))

section
variable (hchain : ZeroesChain host.permutation) (h : Deployed config x)
include hchain h

theorem Deployed.start : ∃ merkle balance,
    MerkleWithHistory.Holds host.permutation config.levels [] merkle ∧ config.levels ≤ 32 ∧ merkle.hashed = [] ∧
      x = ⟨⟨{ Storage.fresh with
        admin := some config.admin
        token := some config.token
        verifier := some config.verifier
        aspMembership := some config.aspMembership
        aspNonMembership := some config.aspNonMembership
        maximumDepositAmount := some config.maximumDepositAmount
        nullifiers := some fun _ => none
        merkle }, balance⟩, []⟩ := by
  obtain ⟨hdeploy, hnone⟩ := h
  obtain ⟨⟨_, merkle⟩, hinit, hpool⟩ := bind_eq_ok hdeploy
  have hinit : MerkleWithHistory.init config.levels .fresh = .ok ((), merkle) := liftMerkle_eq_ok hinit
  obtain ⟨hpos, hle⟩ := MerkleWithHistory.init_ok hinit
  obtain ⟨s, hs, hholds⟩ := MerkleWithHistory.init_holds hchain hpos hle
  cases hs.symm.trans hinit
  obtain ⟨⟨pool, balance⟩, accepted⟩ := x
  subst hnone
  cases hpool
  exact ⟨merkle, balance, hholds, hle, MerkleWithHistory.init_hashed hinit, rfl⟩

theorem Deployed.inv : Inv host config extract x := by
  obtain ⟨merkle, balance, hholds, hle, hhashed, rfl⟩ := h.start hchain
  refine ⟨rfl, rfl, hholds, ?_, ?_, rfl, nodup_nil, rfl, nofun, nofun, Int.natCast_nonneg _⟩
  · intro j
    rw [show leaves host.permutation extract [] = [] from rfl, take_nil]
    exact Logged.empty hchain hle _
  · intro q hq
    rw [hhashed] at hq
    cases hq

end

section
variable (h : Inv host config extract x) (hchecked : Checked host ctx tx.proof tx.ext x.ledger.pool)
include h hchecked

theorem Inv.root_eq :
    ∃ j, 2 * j ≤ (leaves host.permutation extract x.accepted).length ∧
      tx.proof.root = (treeRoot host.permutation config.levels
        ((leaves host.permutation extract x.accepted).take (2 * j))).val := by
  obtain ⟨j, hj, -, heq⟩ := h.tree.ring.of_isKnownRoot hchecked.known
  exact ⟨j, by omega, heq.symm⟩

theorem Inv.nullifiers_fresh
    :
    ∀ n ∈ tx.proof.inputNullifiers, n ∉ publishedNullifiers x.accepted := by
  intro n hn hmem
  have hunspent := (checkNullifiers_ok h.nullifiers).mp hchecked.unspent n hn
  simp [hmem] at hunspent

end

theorem Inv.transact (hchain : ZeroesChain host.permutation)
    (hsound : Sound host.permutation (host.verificationKey config.verifier) extract)
    (h : Inv host config extract x) (hself : ctx.authorized host.this = false)
    (hcall : Pool.transact host ctx tx.proof tx.ext tx.sender x.ledger = .ok ((), l)) :
    Inv host config extract ⟨l, x.accepted ++ [tx]⟩ := by
  have haccepted := transact_ok h.nullifiers hcall
  have hvalid := valid_of_checked hsound h.verifier haccepted.checked
  obtain ⟨index, merkle, hinsert, hpool⟩ := haccepted.inserted
  obtain ⟨-, -, -, rfl, hholds, hgrows, honly⟩ := h.tree.insert_ok hchain hinsert
  obtain ⟨jNew, hjNew, hrootNew⟩ := h.root_eq haccepted.checked
  have hfresh := h.nullifiers_fresh haccepted.checked
  have hleaves : leaves host.permutation extract (x.accepted ++ [tx]) =
      leaves host.permutation extract x.accepted ++
        [(tx.proof.outputCommitment0 : F), (tx.proof.outputCommitment1 : F)] := by
    rw [leaves_append, hvalid.leaves]
  have htake : ∀ j, 2 * j ≤ (leaves host.permutation extract x.accepted).length →
      (leaves host.permutation extract (x.accepted ++ [tx])).take (2 * j) =
        (leaves host.permutation extract x.accepted).take (2 * j) := by
    intro j hj
    rw [hleaves, take_append_of_le_length hj]
  have hsender : tx.sender ≠ host.this := by
    intro heq
    have hauth := haccepted.authorized
    rw [heq, hself] at hauth
    cases hauth
  obtain ⟨token, htoken, hpaid⟩ := haccepted.paid hsender
  obtain rfl : config.token = token := Option.some.inj (h.token.symm.trans htoken)
  refine ⟨?_, ?_, ?_, ?_, ?_, ?_, ?_, ?_, ?_, ?_, ?_⟩
  · simp only [hpool, recorded, h.token]
  · simp only [hpool, recorded, h.verifier]
  · simp only [hpool, recorded, hleaves]
    exact hholds
  · intro j
    simp only [hpool, recorded]
    by_cases hj : 2 * j ≤ (leaves host.permutation extract x.accepted).length
    · rw [htake j hj]
      exact (h.logged j).mono hgrows
    · have heven := h.tree.even
      rw [hleaves, take_of_length_le (by simp; omega)]
      exact hholds.logged
  · intro q hq
    simp only [hpool, recorded] at hq
    rcases honly q hq with hold | hnew
    · obtain ⟨j, hj⟩ := h.traced q hold
      by_cases hshort : 2 * j ≤ (leaves host.permutation extract x.accepted).length
      · exact ⟨j, by rwa [htake j hshort]⟩
      · rw [take_of_length_le (by omega)] at hj
        have heven := h.tree.even
        refine ⟨(leaves host.permutation extract x.accepted).length / 2, ?_⟩
        rwa [htake _ (by omega), take_of_length_le (by omega)]
    · refine ⟨(leaves host.permutation extract x.accepted).length + 2, ?_⟩
      rwa [hleaves, take_of_length_le (by simp)]
  · simp only [hpool, recorded, publishedNullifiers_append, mem_append]
    congr 1
    funext n
    by_cases hn : n ∈ tx.proof.inputNullifiers <;> simp [hn]
  · rw [publishedNullifiers_append]
    exact nodup_append.mpr ⟨h.nodup, hvalid.nullifiers_nodup, fun n hn m hm heq => hfresh m hm (heq ▸ hn)⟩
  · simp only [hpool, recorded, h.events, events_append, txEvents, leaves_length, append_assoc]
  · intro t ht
    rcases mem_append.mp ht with ht | ht
    · exact h.valid t ht
    · obtain rfl := mem_singleton.mp ht
      exact hvalid
  · have hroom : (leaves host.permutation extract x.accepted).length ≤
        (leaves host.permutation extract (x.accepted ++ [tx])).length := by
      simp [hleaves]
    intro t ht
    rcases mem_append.mp ht with ht | ht
    · obtain ⟨j, hj, hroot⟩ := h.rooted t ht
      exact ⟨j, hj.trans hroom, by rw [htake j hj, hroot]⟩
    · obtain rfl := mem_singleton.mp ht
      exact ⟨jNew, hjNew.trans hroom, by rw [htake jNew hjNew, hrootNew]⟩
  · have hfunds := h.funds
    rw [extTotal_append]
    exact (Int.add_le_add_right hfunds _).trans hpaid

section
variable (hchain : ZeroesChain host.permutation)
  (hsound : Sound host.permutation (host.verificationKey config.verifier) extract)
include hchain hsound

theorem Inv.step (h : Inv host config extract x) (hstep : Step host x y) : Inv host config extract y := by
  rcases hstep.cases with rfl | ⟨ctx, tx, l, hself, hcall, rfl⟩ | ⟨_, _, _, rfl, -⟩ | ⟨balance, hkept, rfl⟩
  · exact h
  · exact h.transact hchain hsound hself hcall
  · exact ⟨h.token, h.verifier, h.tree, h.logged, h.traced, h.nullifiers, h.nodup, h.events, h.valid, h.rooted, h.funds⟩
  · exact { h with funds := h.funds.trans (Int.ofNat_le.mpr (hkept config.token)) }

theorem Inv.steps
    (h : Inv host config extract x) (hsteps : Relation.ReflTransGen (Step host) x y) : Inv host config extract y := by
  induction hsteps with
  | refl => exact h
  | tail _ hstep ih => exact ih.step hchain hsound hstep

theorem Reachable.inv (h : Reachable host config x) : Inv host config extract x := by
  obtain ⟨y, hdeployed, hsteps⟩ := h
  exact (hdeployed.inv hchain).steps hchain hsound hsteps

end

end Inv

end PrivatePayments.System

import PrivatePayments.Sdk.CoinSelection
import PrivatePayments.Sdk.Flows

/-! `PrivatePool::execute` of `pool/src/pool.rs` with the plan of a spend (`pool/src/plan.rs`).

The state fetcher, the prover and what follows the proof (simulation, signature, submission and
confirmation, which move the pool) are parameters.  Nothing on the way writes to the storage. -/
namespace PrivatePayments.Sdk
open Contracts Lib.BinaryTree PrivatePayments.System

inductive PoolError where
  | spendSession (e : SpendSessionError)
  | membershipSync (status : AspMembershipSync)
  | other

structure TransactChainContext where
  poolRoot : F
  poolNextIndex : Nat
  poolMerkleLevels : Nat
  aspMembershipRoot : F
  aspMembershipContractId : String
  aspMembershipLedger : Nat
  nonMembershipProof : AspNonMembershipProof

structure PreparedTransaction where
  outputCommitments : F × F
  proof : Bytes

structure PreparedTransactionPlan where
  txCount : Nat
  currentTx : Nat
  session : SpendSession

namespace PreparedTransactionPlan
variable (plan : PreparedTransactionPlan)

def fromSession (session : SpendSession) : Except SpendSessionError PreparedTransactionPlan :=
  if session.len < 2 ^ 32 then .ok ⟨session.len, 0, session⟩ else .error .complete

def isComplete : Bool := plan.currentTx ≥ plan.txCount

def transactStep : Except PoolError Transact := do
  match ← plan.session.step.mapError .spendSession with
  | some step => return step
  | none => .error .other

def finishProvedTx (outputCommitments : F × F) : Except PoolError PreparedTransactionPlan := do
  let session ← (plan.session.completeStep outputCommitments).mapError .spendSession
  return { plan with session, currentTx := plan.currentTx + 1 }

end PreparedTransactionPlan

def transactRequestFromStep (step : Transact) (userAddress poolAddress : String) (chain : TransactChainContext) :
    TransactRequest where
  userAddress
  poolRoot := some chain.poolRoot
  poolNextIndex := chain.poolNextIndex
  poolAddress
  extRecipient := step.extRecipient
  extAmount := step.extAmount
  aspmemRoot := chain.aspMembershipRoot
  aspmemContractId := chain.aspMembershipContractId
  aspmemLedger := chain.aspMembershipLedger
  inputCommitments := step.inputCommitments
  outputAmounts := step.outputAmounts
  outRecipientNotePubkeys := step.outRecipientNotePubkeys
  outRecipientEncryptionPubkeys := step.outRecipientEncryptionPubkeys
  smtDepth := 10
  treeDepth := chain.poolMerkleLevels
  nonMembershipProof := chain.nonMembershipProof

def mapBuildParams : Except TransactError BuildTransactParams → Except PoolError TransactParams
  | .ok (.ready params) => .ok params
  | .ok (.membershipSync status) => .error (.membershipSync status)
  | .error _ => .error .other

/-- The attempts to prove something are numbered: each reads the chain once, at its own time, and
draws its own blinding factors. -/
structure PrivatePool where
  visit : Visit AspMembershipLeaf
  storage : Db
  userAddress : String
  poolContractId : String
  transactChainContext : Nat → State → Key → Except PoolError TransactChainContext
  proveTransact : TransactParams → Except PoolError PreparedTransaction
  send : State → PreparedTransaction → Except PoolError (State × String)
  random : Nat → Fin 2 → Option F

namespace PrivatePool
variable (pool : PrivatePool) (P : Permutation)

def fetchTransactChainContext (attempt : Nat) (x : State) : Except PoolError TransactChainContext :=
  match getUserKeys pool.storage pool.userAddress with
  | none => .error .other
  | some keys => pool.transactChainContext attempt x keys.noteKeypair.publicKey

def nextPreparedTransaction (attempt : Nat) (x : State) (plan : PreparedTransactionPlan) :
    Except PoolError (PreparedTransaction × PreparedTransactionPlan) :=
  if plan.isComplete then .error .other
  else do
    let chain ← pool.fetchTransactChainContext attempt x
    let step ← plan.transactStep
    let params ← mapBuildParams (buildTransactParams P pool.visit pool.storage (pool.random attempt)
      (transactRequestFromStep step pool.userAddress pool.poolContractId chain))
    let prepared ← pool.proveTransact params
    let plan ← plan.finishProvedTx prepared.outputCommitments
    return (prepared, plan)

/-- The attempts at one transaction, with the retries that are left after the first; the result
includes the number of the next attempt. -/
def proveRetrying (x : State) (plan : PreparedTransactionPlan) :
    Nat → Nat → Except PoolError (PreparedTransaction × PreparedTransactionPlan × Nat)
  | attempt, 0 => (pool.nextPreparedTransaction P attempt x plan).map fun result =>
      (result.1, result.2, attempt + 1)
  | attempt, retries + 1 =>
    match pool.nextPreparedTransaction P attempt x plan with
    | .error (.membershipSync (.syncRequired _)) => proveRetrying x plan (attempt + 1) retries
    | result => result.map fun result => (result.1, result.2, attempt + 1)

def executeSteps (x : State) (plan : PreparedTransactionPlan) : Nat → Nat → Except PoolError (List String)
  | _, 0 => .ok []
  | attempt, left + 1 => do
    let (prepared, plan, attempt) ← pool.proveRetrying P x plan attempt 30
    let (x, result) ← pool.send x prepared
    let results ← executeSteps x plan attempt left
    return result :: results

def execute (x : State) (plan : PreparedTransactionPlan) : Except PoolError (List String) :=
  pool.executeSteps P x plan 0 (plan.txCount - plan.currentTx)

end PrivatePool

def honestContext (host : Pool.Host) (config : Config) (x : State) (asp : String) (aspRoot : F)
    (ledger : Nat) (nonMembershipProof : AspNonMembershipProof) : TransactChainContext where
  poolRoot := treeRoot host.permutation config.levels (inserted x.accepted)
  poolNextIndex := (inserted x.accepted).length
  poolMerkleLevels := config.levels
  aspMembershipRoot := aspRoot
  aspMembershipContractId := asp
  aspMembershipLedger := ledger
  nonMembershipProof

/-- A synced wallet, an honest node, a prover that proves and nobody else in the pool.  Each attempt
may read a later ledger than the one before; up to the last indexed one the node and the storage
agree on the membership contract, and what is added to it later is left open.  The first transaction
that is sent is confirmed and adds one to the pool. -/
structure Undisturbed (pool : PrivatePool) (codec : Codec) (derive : DeriveNote) (chain : Chain) (host : Pool.Host)
    (config : Config) (x : State) (leaves : List U256) (s : AspMembership.Storage) (asp : String)
    (ledger : Nat → Nat) : Prop where
  run : ClientRun codec derive chain pool.storage
  all : ∀ entry ∈ chain.log, pool.storage.hasEvent entry.id = true ∧ pool.storage.unprocessed entry.id = false
  zeroes : ZeroesChain host.permutation
  reachable : Reachable host config x
  source : (pool.poolContractId, Source.pool x) ∈ chain.sources
  small : (inserted x.accepted).length < 2 ^ 32
  history : AspMembership.History host.permutation config.levels leaves s
  membership : (asp, Source.aspMembership s) ∈ chain.sources
  few : leaves.length < 2 ^ 32
  admitted : ∃ keys key, getUserKeys pool.storage pool.userAddress = some keys ∧
    tryFromLeBytes keys.noteKeypair.publicKey.1 = some key ∧
    aspMembershipLeaf host.permutation key keys.membershipBlinding ∈ (leaves.map Nat.cast : List F)
  later : Monotone ledger
  context : ∀ attempt y key, ∃ aspRoot proof, pool.transactChainContext attempt y key =
      .ok (honestContext host config y asp aspRoot (ledger attempt) proof) ∧
    (IndexedTo pool.storage asp (ledger attempt) →
      aspRoot = treeRoot host.permutation config.levels (leaves.map Nat.cast))
  proves : ∀ random req params, buildTransactParams host.permutation pool.visit pool.storage random req =
    .ok (.ready params) → ∃ prepared, pool.proveTransact params = .ok prepared
  confirmed : ∀ prepared, ∃ x' result tx, pool.send x prepared = .ok (x', result) ∧
    x'.accepted = x.accepted ++ [tx]
  random : ∀ attempt i, ∃ blinding, pool.random attempt i = some blinding

theorem materializeStep_ok {step : PlannedStep} {poolAddress : String} {target : SpendTarget}
    {inputs : List SpendableNote} {transact : Transact}
    (h : materializeStep step poolAddress target inputs = .ok transact) :
    transact.inputCommitments = inputs.map SpendableNote.commitment ∧
      ∀ i, (transact.outRecipientNotePubkeys i).isSome = (transact.outRecipientEncryptionPubkeys i).isSome := by
  cases step with
  | mk first second action =>
    cases action with
    | consolidate output =>
      cases h
      exact ⟨rfl, fun i => by fin_cases i <;> rfl⟩
    | final send change =>
      cases target with
      | transfer recipientNote recipientEnc =>
        cases h
        exact ⟨rfl, fun i => by cases change <;> fin_cases i <;> rfl⟩
      | withdraw recipient =>
        unfold materializeStep at h
        dsimp only at h
        split at h <;> cases h
        exact ⟨rfl, fun i => by fin_cases i <;> rfl⟩

theorem transactStep_inputs {plan : PreparedTransactionPlan} {transact : Transact} (h : plan.transactStep = .ok transact) :
    transact.inputCommitments ≠ [] := by
  obtain ⟨found, hfound, h⟩ := bind_eq_ok h
  cases found with
  | none => cases h
  | some step =>
    cases h
    have hstep := mapError_eq_ok hfound
    unfold SpendSession.step at hstep
    split at hstep
    · cases hstep
    · obtain ⟨resolved, hresolved, hstep⟩ := bind_eq_ok hstep
      obtain ⟨_, hmaterialize, hstep⟩ := bind_eq_ok hstep
      cases hstep
      rw [(materializeStep_ok hmaterialize).1]
      obtain ⟨first, -, hresolved⟩ := bind_eq_ok (mapError_eq_ok hresolved)
      split at hresolved
      · cases hresolved
        simp
      · obtain ⟨second, -, hresolved⟩ := bind_eq_ok hresolved
        cases hresolved
        simp

variable {pool : PrivatePool} {x : State}

section Execute
variable {P : Permutation} {plan plan' : PreparedTransactionPlan} {prepared : PreparedTransaction}
  {attempt : Nat}

theorem nextPreparedTransaction_ok (h : pool.nextPreparedTransaction P attempt x plan = .ok (prepared, plan')) :
    ∃ key chain step params, pool.transactChainContext attempt x key = .ok chain ∧
      plan.transactStep = .ok step ∧ buildTransactParams P pool.visit pool.storage (pool.random attempt)
        (transactRequestFromStep step pool.userAddress pool.poolContractId chain) = .ok (.ready params) := by
  unfold PrivatePool.nextPreparedTransaction at h
  split at h
  · cases h
  · obtain ⟨chain, hchain, h⟩ := bind_eq_ok h
    obtain ⟨step, hstep, h⟩ := bind_eq_ok h
    obtain ⟨params, hparams, -⟩ := bind_eq_ok h
    unfold PrivatePool.fetchTransactChainContext at hchain
    split at hchain
    · cases hchain
    · unfold mapBuildParams at hparams
      split at hparams
      · cases hparams
        exact ⟨_, _, _, _, hchain, hstep, ‹_›⟩
      · cases hparams
      · cases hparams

/-- Inputs are proved only while the storage is indexed to the ledger that was read and has as many
commitments as the pool. -/
theorem ready_synced {random : Fin 2 → Option F} {req : TransactRequest} {params : TransactParams}
    (hregistered : Registered pool.storage) (hinputs : req.inputCommitments ≠ [])
    (h : buildTransactParams P pool.visit pool.storage random req = .ok (.ready params)) :
    IndexedTo pool.storage req.aspmemContractId req.aspmemLedger ∧ ∃ leaves,
      getPoolCommitmentLeavesOrdered pool.storage req.poolAddress = .ok leaves ∧
      leaves.length = req.poolNextIndex := by
  obtain ⟨_, _, -, -, hproof, -, -, hcollected⟩ := buildTransactParams_ready h
  constructor
  · by_contra hbehind
    obtain ⟨_, _, _, _, _, -, hcheck, -⟩ := buildMembershipProof_ok hproof
    obtain ⟨gap, hgap⟩ := check_unindexed hregistered hbehind
    rw [hgap] at hcheck
    cases hcheck
  · unfold buildPoolInputs at hcollected
    rw [if_neg (by simpa using hinputs)] at hcollected
    obtain ⟨validated, hvalidated, hcollect⟩ := bind_eq_ok hcollected
    cases validated with
    | error status => cases hcollect
    | ok built =>
      obtain ⟨leaves, -, hleaves, hlength, -⟩ := buildValidatedPoolTree_ok hvalidated
      exact ⟨leaves, hleaves, hlength⟩

theorem map_eq_ok {α β ε : Type} {result : Except ε α} {f : α → β} {b : β} (h : result.map f = .ok b) :
    ∃ a, result = .ok a ∧ f a = b := by
  cases result with
  | error e => cases h
  | ok a =>
    cases h
    exact ⟨a, rfl, rfl⟩

theorem proveRetrying_ok {retries next : Nat} (h : pool.proveRetrying P x plan attempt retries = .ok (prepared, plan', next)) :
    ∃ last, pool.nextPreparedTransaction P last x plan = .ok (prepared, plan') := by
  induction retries generalizing attempt with
  | zero =>
    obtain ⟨result, hresult, heq⟩ := map_eq_ok h
    cases heq
    exact ⟨attempt, hresult⟩
  | succ retries ih =>
    unfold PrivatePool.proveRetrying at h
    split at h
    · exact ih h
    · obtain ⟨result, hresult, heq⟩ := map_eq_ok h
      cases heq
      exact ⟨attempt, hresult⟩

end Execute

theorem Chosen.single_step {wallet selected : List SpendableNote} {amount : Nat} {change : Option Nat}
    (h : Chosen wallet amount selected change) (hdistinct : (wallet.map SpendableNote.commitment).Nodup)
    (hfew : selected.length ≤ 2) : ∃ first second, plannedSteps amount change selected =
      [⟨first, second, .final amount change⟩] ∧
        (PlannedStep.mk first second (.final amount change)).resolve wallet = .ok selected := by
  have hheld : ∀ note ∈ selected, ∀ sibling, resolveInputNote (.fromSpendable note) wallet sibling = .ok note :=
    fun note hnote => resolve_spendable hdistinct (h.held.subset hnote)
  match selected with
  | [] => exact absurd rfl h.nonempty
  | [note] => exact ⟨_, _, rfl, by simp [PlannedStep.resolve, hheld note]⟩
  | [note, next] => exact ⟨_, _, rfl, by simp [PlannedStep.resolve, hheld note, hheld next]⟩
  | _ :: _ :: _ :: _ => simp at hfew

section Undisturbed
variable {codec : Codec} {derive : DeriveNote} {chain : Chain} {host : Pool.Host} {config : Config}
  {leaves : List U256} {s : AspMembership.Storage} {asp : String} {ledger : Nat → Nat}
  {plan : PreparedTransactionPlan} {attempt : Nat}
  (h : Undisturbed pool codec derive chain host config x leaves s asp ledger)
include h

theorem Undisturbed.prepared {transact : Transact} (hindexed : IndexedTo pool.storage asp (ledger attempt))
    (hincomplete : plan.isComplete = false)
    (htransact : plan.transactStep = .ok transact) (hfew : transact.inputCommitments.length ≤ 2)
    (hnotes : ∀ commitment ∈ transact.inputCommitments, ∃ leafIndex note,
      UnspentNote pool.storage pool.poolContractId pool.userAddress commitment leafIndex note)
    (hpaired : ∀ i, (transact.outRecipientNotePubkeys i).isSome = (transact.outRecipientEncryptionPubkeys i).isSome)
    (hfinish : ∀ outputs, ∃ plan', plan.finishProvedTx outputs = .ok plan') :
    ∃ result, pool.nextPreparedTransaction host.permutation attempt x plan = .ok result := by
  obtain ⟨keys, key, hkeys, hkey, hleaf⟩ := h.admitted
  obtain ⟨hworking, hregistered⟩ := h.run.invariant
  obtain ⟨proof, hproof⟩ := @Mirrored.membershipProof_complete _ _ _ _ _ _ pool.visit _ _ _ _ _ hworking.mirrored
    hregistered h.all h.zeroes h.history h.membership hindexed _ hkey hleaf h.few
  obtain ⟨inputs, hinputs⟩ := hworking.mirrored.inputs_complete h.all (h.reachable.recorded h.zeroes) h.source h.small
    hnotes
  obtain ⟨aspRoot, nonMember, hcontext, hroot⟩ := h.context attempt x keys.noteKeypair.publicKey
  rw [← hroot hindexed] at hproof
  obtain ⟨params, hparams⟩ := @buildTransactParams_succeeds _ _ _ _ _ pool.visit _ (pool.random attempt)
    (transactRequestFromStep transact pool.userAddress pool.poolContractId
      (honestContext host config x asp aspRoot (ledger attempt) nonMember)) hfew hkeys hproof rfl hinputs
    fun i => by
      obtain ⟨blinding, hblinding⟩ := h.random attempt i
      simp [buildOutput, transactRequestFromStep, hpaired i, hblinding]
  obtain ⟨prepared, hprepared⟩ := h.proves _ _ params hparams
  obtain ⟨plan', hplan'⟩ := hfinish prepared.outputCommitments
  refine ⟨(prepared, plan'), ?_⟩
  simp [PrivatePool.nextPreparedTransaction, hincomplete, PrivatePool.fetchTransactChainContext, hkeys, hcontext,
    htransact, hparams, mapBuildParams, hprepared, hplan', ok_bind]

theorem Undisturbed.synced {y : State} {prepared : PreparedTransaction} {plan' : PreparedTransactionPlan}
    (hnext : pool.nextPreparedTransaction host.permutation attempt y plan = .ok (prepared, plan')) :
    IndexedTo pool.storage asp (ledger attempt) ∧ (inserted x.accepted).length = (inserted y.accepted).length := by
  obtain ⟨key, context, step, params, hcontext, hstep, hparams⟩ := nextPreparedTransaction_ok hnext
  obtain ⟨_, _, hhonest, -⟩ := h.context attempt y key
  rw [hhonest] at hcontext
  cases hcontext
  obtain ⟨hindexed, stored, hstored, hlength⟩ := ready_synced h.run.invariant.2 (transactStep_inputs hstep) hparams
  rw [transactRequestFromStep, h.run.invariant.1.mirrored.leaves_ordered h.source h.all h.small] at hstored
  cases hstored
  exact ⟨hindexed, hlength⟩

theorem Undisturbed.first_indexed {left : Nat} {results : List String}
    (hok : pool.executeSteps host.permutation x plan 0 (left + 1) = .ok results) :
    IndexedTo pool.storage asp (ledger 0) := by
  obtain ⟨⟨prepared, plan₁, next⟩, hfirst, -⟩ := bind_eq_ok hok
  obtain ⟨last, hlast⟩ := proveRetrying_ok hfirst
  obtain ⟨row, hrow, hle⟩ := (h.synced hlast).1
  exact ⟨row, hrow, (h.later (Nat.zero_le last)).trans hle⟩

/-- A second transaction is never proved: the storage lacks the outputs of the first. -/
theorem Undisturbed.stuck (left : Nat) (results : List String) :
    pool.executeSteps host.permutation x plan attempt (left + 2) ≠ .ok results := by
  intro hok
  obtain ⟨⟨prepared, plan₁, next⟩, -, hok⟩ := bind_eq_ok hok
  obtain ⟨⟨x', result⟩, hsend, hok⟩ := bind_eq_ok hok
  obtain ⟨_, hok, -⟩ := bind_eq_ok hok
  obtain ⟨⟨_, _, _⟩, hsecond, -⟩ := bind_eq_ok hok
  obtain ⟨last, hlast⟩ := proveRetrying_ok hsecond
  obtain ⟨_, _, tx, hsend', haccepted⟩ := h.confirmed prepared
  rw [hsend'] at hsend
  cases hsend
  have hleaves := (h.synced hlast).2
  rw [haccepted, inserted_length, inserted_length, List.length_append] at hleaves
  simp at hleaves

end Undisturbed

section Sample

def fivesTransaction (x : State) (prepared : PreparedTransaction) : Transaction :=
  openTransaction (treeRoot flatPermutation 10 (inserted x.accepted)) x.accepted.length
    ![(prepared.outputCommitments.1, []), (prepared.outputCommitments.2, [])]

/-- A ledger closes with every attempt. -/
def fivesPool (db : Db) : PrivatePool where
  visit := .asStored _
  storage := db
  userAddress := "owner"
  poolContractId := "A"
  transactChainContext attempt x _ := .ok (honestContext openHost System.sampleConfig x "M"
    (treeRoot flatPermutation 10 [1]) (7 + attempt) ⟨1, 0, 0, true, [], 0⟩)
  proveTransact params :=
    let commitments := params.outputs.map (outputCommitment flatPermutation params)
    .ok ⟨(commitments.getD 0 0, commitments.getD 1 0), []⟩
  send x prepared :=
    let tx := fivesTransaction x prepared
    match Pool.transact openHost openContext tx.proof tx.ext tx.sender x.ledger with
    | .ok (_, ledger) => .ok (⟨ledger, x.accepted ++ [tx]⟩, "")
    | .error _ => .error .other
  random attempt _ := some attempt

theorem fives_undisturbed {s : AspMembership.Storage} {x : State} {chain : Chain} {db : Db}
    (h : FivesSynced 7 s x chain db) :
    Undisturbed (fivesPool db) unaryCodec fiveNotes chain openHost System.sampleConfig x [1] s "M" (7 + ·) where
  run := h.run
  all := h.all
  zeroes := flat_chain
  reachable := h.opened.reachable
  source := h.pool
  small := by rw [h.inserted]; decide
  history := h.history
  membership := h.membership
  few := by decide
  admitted := ⟨ownerAccount, 1, h.keys, by decide +kernel, by decide +kernel⟩
  later := fun _ _ => Nat.add_le_add_left (k := 7)
  context _ _ _ := ⟨_, _, rfl, fun _ => by simp; rfl⟩
  proves _ _ _ _ := ⟨_, rfl⟩
  confirmed prepared := by
    obtain ⟨l, hcall, -⟩ := h.opened.step (by decide) rfl
      ![(prepared.outputCommitments.1, []), (prepared.outputCommitments.2, [])]
    rw [← h.opened.size] at hcall
    exact ⟨⟨l, _⟩, "", fivesTransaction x prepared, by simp only [fivesPool, fivesTransaction, hcall], rfl⟩
  random _ _ := ⟨_, rfl⟩

def fivesWallet : List SpendableNote := [⟨16, 5⟩, ⟨26, 5⟩, ⟨36, 5⟩, ⟨46, 5⟩]

theorem exists_plan {amount count : Nat} (hlen : (SpendSession.setup .stable fivesWallet amount "A"
      (.withdraw "B")).toOption.map SpendSession.len = some count) (hcount : count < 2 ^ 32) :
    ∃ session, SpendSession.setup .stable fivesWallet amount "A" (.withdraw "B") = .ok session ∧
      session.len = count ∧ PreparedTransactionPlan.fromSession session = .ok ⟨count, 0, session⟩ := by
  cases hsetup : SpendSession.setup .stable fivesWallet amount "A" (.withdraw "B") with
  | error e =>
    rw [hsetup] at hlen
    cases hlen
  | ok session =>
    rw [hsetup] at hlen
    obtain rfl : session.len = count := Option.some.inj hlen
    exact ⟨session, rfl, rfl, if_pos hcount⟩

end Sample

end PrivatePayments.Sdk

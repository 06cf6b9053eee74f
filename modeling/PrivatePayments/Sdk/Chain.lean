import PrivatePayments.Contracts.AspMembership
import PrivatePayments.Contracts.PublicKeyRegistry
import PrivatePayments.Sdk.Events
import PrivatePayments.System.Log

/-! The events of several contracts on one chain. -/
namespace PrivatePayments.Sdk
open Contracts PrivatePayments.System List

/-- A contract with what it has done so far. -/
inductive Source where
  | pool (x : State)
  | aspMembership (s : AspMembership.Storage)
  | registry (s : PublicKeyRegistry.Storage)

namespace Published

def ofPool : Pool.Event → Published
  | .newNullifier nullifier => .newNullifier nullifier
  | .newCommitment commitment index encryptedOutput =>
      .newCommitment commitment index encryptedOutput

def ofLeaf (event : AspMembership.LeafAddedEvent) : Published :=
  .leafAdded event.leaf event.index event.root

def ofAccount (account : PublicKeyRegistry.Account) : Published :=
  .publicKey account.owner account.encryptionKey account.noteKey

def nullifier? : Published → Option F
  | newNullifier nullifier => some nullifier
  | _ => none

def commitment? : Published → Option F
  | newCommitment commitment _ _ => some commitment
  | _ => none

end Published

namespace Source

def published : Source → List Published
  | pool x => x.ledger.pool.events.map .ofPool
  | aspMembership s => s.events.map .ofLeaf
  | registry s => s.events.map .ofAccount

def commitments : Source → List F
  | pool x => inserted x.accepted
  | aspMembership _ | registry _ => []

def nullifiers : Source → List F
  | pool x => (publishedNullifiers x.accepted).map fun n : Nat => (n : F)
  | aspMembership _ | registry _ => []

/-- The contract came to this state by calls. -/
inductive Genuine : Source → Prop where
  | pool {host : Pool.Host} {config : Config} {x : State} (hchain : ZeroesChain host.permutation)
      (hreachable : Reachable host config x) : Genuine (.pool x)
  | aspMembership {P : Permutation} {levels : Nat} {leaves : List U256} {s : AspMembership.Storage}
      (hchain : ZeroesChain P) (hhistory : AspMembership.History P levels leaves s) :
      Genuine (.aspMembership s)
  | registry {s : PublicKeyRegistry.Storage} (hhistory : PublicKeyRegistry.History s) :
      Genuine (.registry s)

end Source

structure Entry where
  id : String
  ledger : Nat
  contractId : String
  event : Published

def Entry.contractEvent (codec : Codec) (entry : Entry) : ContractEvent :=
  entry.event.contractEvent codec entry.id entry.ledger entry.contractId

/-- Contracts at their addresses, and their events in the order of the chain. -/
structure Chain where
  sources : List (String × Source)
  log : List Entry
  genuine : ∀ source ∈ sources, source.2.Genuine
  ids : (log.map Entry.id).Nodup
  emitted : ∀ source ∈ sources,
    (log.filter (·.contractId == source.1)).map Entry.event = source.2.published
  known : ∀ entry ∈ log, ∃ source ∈ sources, source.1 = entry.contractId

section Pool
variable {txs : List Transaction}

theorem events_commitments (txs : List Transaction) :
    (events txs).filterMap (fun
      | .newCommitment commitment index _ => some ((commitment : F), index)
      | .newNullifier _ => none) = (inserted txs).zipIdx := by
  induction txs using List.reverseRecOn with
  | nil => rfl
  | append_singleton txs tx ih =>
    have hnullifiers : (tx.proof.inputNullifiers.map Pool.Event.newNullifier).filterMap (fun
        | .newCommitment commitment index _ => some ((commitment : F), index)
        | .newNullifier _ => none) = [] := by
      rw [filterMap_map]
      exact filterMap_eq_nil_iff.mpr fun _ _ => rfl
    rw [events_append, filterMap_append, ih, inserted_append, zipIdx_append, txEvents,
      filterMap_append, hnullifiers, inserted_length]
    simp

theorem events_nullifiers (txs : List Transaction) :
    (events txs).filterMap (fun
      | .newCommitment _ _ _ => none
      | .newNullifier nullifier => some (nullifier : F)) =
      (publishedNullifiers txs).map fun n : Nat => (n : F) := by
  induction txs using List.reverseRecOn with
  | nil => rfl
  | append_singleton txs tx ih =>
    have hnullifiers : (tx.proof.inputNullifiers.map Pool.Event.newNullifier).filterMap (fun
        | .newCommitment _ _ _ => none
        | .newNullifier nullifier => some (nullifier : F)) =
        tx.proof.inputNullifiers.map fun n : Nat => (n : F) := by
      rw [filterMap_map, ← filterMap_eq_map]
      rfl
    rw [events_append, filterMap_append, ih, publishedNullifiers_append, map_append,
      txEvents, filterMap_append, hnullifiers]
    simp

variable {event : Pool.Event}

theorem mem_events (h : event ∈ events txs) :
    ∃ tx ∈ txs, ∃ index, event ∈ txEvents index tx := by
  rw [events, mem_flatMap] at h
  obtain ⟨⟨tx, i⟩, hentry, hevent⟩ := h
  exact ⟨tx, fst_mem_of_mem_zipIdx hentry, _, hevent⟩

theorem pool_inRange {host : Pool.Host} {config : Config} {x : State} (h : Recorded host config x)
    (hevent : event ∈ x.ledger.pool.events) : (Published.ofPool event).InRange := by
  rw [h.events] at hevent
  obtain ⟨tx, htx, index, hmem⟩ := mem_events hevent
  have hcanonical := h.canonical tx htx
  cases event with
  | newNullifier nullifier =>
    rw [txEvents, mem_append] at hmem
    apply hcanonical.inputNullifiers
    simpa using hmem
  | newCommitment commitment i encryptedOutput =>
    have hvalue : commitment < bn256Modulus := by
      rw [txEvents, mem_append] at hmem
      simp only [mem_map, reduceCtorEq, and_false, exists_false, false_or, mem_cons,
        Pool.Event.newCommitment.injEq, not_mem_nil, or_false] at hmem
      rcases hmem with ⟨rfl, -⟩ | ⟨rfl, -⟩
      · exact hcanonical.outputCommitment0
      · exact hcanonical.outputCommitment1
    have hindex : ((commitment : F), i) ∈ (inserted x.accepted).zipIdx := by
      rw [← events_commitments]
      exact mem_filterMap.mpr ⟨_, hevent, rfl⟩
    have hlt := snd_lt_of_mem_zipIdx hindex
    have hfits := h.tree.fits
    have hpow : 2 ^ config.levels ≤ 2 ^ 32 := Nat.pow_le_pow_right (by omega) h.tree.levels_le
    exact ⟨hvalue, by omega⟩

end Pool

theorem aspMembership_inRange {P : Permutation} {levels : Nat} {leaves : List F}
    {s : AspMembership.Storage} (h : AspMembership.Holds P levels leaves s)
    {event : AspMembership.LeafAddedEvent} (hevent : event ∈ s.events) : (Published.ofLeaf event).InRange := by
  rw [h.events_eq, mem_map] at hevent
  obtain ⟨k, hk, rfl⟩ := hevent
  rw [mem_range] at hk
  have hfits := h.fits
  have hpow : 2 ^ levels ≤ 2 ^ 32 := Nat.pow_le_pow_right (by omega) h.levels_le
  simp only [Published.ofLeaf, AspMembership.eventAt, Published.InRange]
  exact ⟨ZMod.val_lt _, by omega, ZMod.val_lt _⟩

variable {source : Source}

theorem Source.Genuine.inRange (h : source.Genuine) {event : Published}
    (hevent : event ∈ source.published) : event.InRange := by
  cases h with
  | pool hchain hreachable =>
    obtain ⟨event, hmem, rfl⟩ := mem_map.mp hevent
    exact pool_inRange (hreachable.recorded hchain) hmem
  | aspMembership hchain hhistory =>
    obtain ⟨event, hmem, rfl⟩ := mem_map.mp hevent
    exact aspMembership_inRange (hhistory.holds hchain).1 hmem
  | registry hhistory =>
    obtain ⟨account, haccount, rfl⟩ := mem_map.mp hevent
    exact hhistory.key_length account haccount

theorem Source.Genuine.commitments (h : source.Genuine) :
    source.published.filterMap (fun
      | .newCommitment commitment index _ => some ((commitment : F), index)
      | _ => none) = source.commitments.zipIdx := by
  cases h with
  | @pool host config x hchain hreachable =>
    rw [Source.published, (hreachable.recorded hchain).events, Source.commitments,
      ← events_commitments, filterMap_map]
    apply filterMap_congr
    intro event _
    cases event <;> rfl
  | aspMembership | registry =>
    rw [Source.published, filterMap_map]
    exact filterMap_eq_nil_iff.mpr fun _ _ => rfl

theorem Source.Genuine.nullifiers (h : source.Genuine) :
    source.published.filterMap Published.nullifier? = source.nullifiers := by
  cases h with
  | @pool host config x hchain hreachable =>
    rw [Source.published, (hreachable.recorded hchain).events, Source.nullifiers,
      ← events_nullifiers, filterMap_map]
    apply filterMap_congr
    intro event _
    cases event <;> rfl
  | aspMembership | registry =>
    rw [Source.published, filterMap_map]
    exact filterMap_eq_nil_iff.mpr fun _ _ => rfl

theorem Source.Genuine.leaves_nodup (h : source.Genuine) :
    (source.published.filterMap fun
      | .leafAdded _ index _ => some index
      | _ => none).Nodup := by
  cases h with
  | pool | registry =>
    rw [Source.published, filterMap_map, filterMap_eq_nil_iff.mpr]
    · exact nodup_nil
    · intro event _
      cases event <;> rfl
  | @aspMembership P levels leaves s hchain hhistory =>
    have hindexes : (Source.aspMembership s).published.filterMap (fun
        | .leafAdded _ index _ => some index
        | _ => none) = List.range leaves.length := by
      rw [Source.published, (hhistory.holds hchain).1.events_eq, map_map, filterMap_map, length_map]
      exact filterMap_some
    rw [hindexes]
    exact nodup_range

section Chain
variable {chain : Chain} {entry other : Entry}

theorem Chain.inRange (h : entry ∈ chain.log) : entry.event.InRange := by
  obtain ⟨source, hsource, hid⟩ := chain.known entry h
  apply (chain.genuine source hsource).inRange
  rw [← chain.emitted source hsource]
  exact mem_map_of_mem (mem_filter.mpr ⟨h, by simp [hid]⟩)

theorem Chain.entry_eq (h : entry ∈ chain.log) (h' : other ∈ chain.log) (hid : entry.id = other.id) : entry = other :=
  inj_on_of_nodup_map chain.ids h h' hid

end Chain

end PrivatePayments.Sdk

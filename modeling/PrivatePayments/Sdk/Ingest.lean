import PrivatePayments.Sdk.Processor
import PrivatePayments.System.Withdrawal

/-! The wallet's tables against the chain: what `process_events` makes of the stored
events. -/
namespace PrivatePayments.Sdk
open Contracts Lib PrivatePayments.System List Function
open ProcessedEvent (nullifier? commitment? publicKey? leafAdded?)

structure Distinct (entries : List Entry) : Prop where
  commitments : (entries.filterMap fun entry => entry.event.commitment?).Nodup
  nullifiers : (entries.filterMap fun entry => entry.event.nullifier?).Nodup

def storedEntries (chain : Chain) (db : Db) : List Entry :=
  chain.log.filter fun entry => db.hasEvent entry.id

variable {chain : Chain}

variable {index : Nat}

section Chain
variable {entry other : Entry}

theorem Chain.nodup (chain : Chain) : chain.log.Nodup := chain.ids.of_map

theorem Chain.leaf_eq (h : entry ∈ chain.log) (h' : other ∈ chain.log)
    (hcontract : entry.contractId = other.contractId) {leaf leaf' root root' : U256}
    (hleaf : entry.event = .leafAdded leaf index root)
    (hleaf' : other.event = .leafAdded leaf' index root') : entry = other := by
  obtain ⟨source, hsource, hid⟩ := chain.known entry h
  have hnodup := (chain.genuine source hsource).leaves_nodup
  rw [← chain.emitted source hsource, filterMap_map] at hnodup
  apply (nodup_filterMap_iff (chain.nodup.filter _)).mp hnodup entry _ other _ index
  · rw [comp_apply, hleaf]
  · rw [comp_apply, hleaf']
  · exact mem_filter.mpr ⟨h, by simp [hid]⟩
  · exact mem_filter.mpr ⟨h', by simp [hid, hcontract]⟩

end Chain

theorem Published.commitment?_eq_some {event : Published} {commitment : F} (h : event.commitment? = some commitment) :
    ∃ n index output, event = .newCommitment n index output ∧ (n : F) = commitment := by
  cases event <;> cases h
  exact ⟨_, _, _, rfl, rfl⟩

theorem Published.nullifier?_eq_some {event : Published} {nullifier : F} (h : event.nullifier? = some nullifier) :
    ∃ n, event = .newNullifier n ∧ (n : F) = nullifier := by
  cases event <;> cases h
  exact ⟨_, rfl, rfl⟩

variable {codec : Codec} {limit : Nat}

section Processed
variable {db db' : Db} {batch : List Entry} {entry : Entry}

theorem nullifier?_value {event : NewNullifierEvent} (h : (entry.processed codec).nullifier? = some event) :
    entry.event.nullifier? = some event.nullifier := by
  obtain ⟨id, ledger, contractId, published⟩ := entry
  cases published <;> cases h
  rfl

theorem commitment?_value {event : NewCommitmentEvent} (h : (entry.processed codec).commitment? = some event) :
    entry.event.commitment? = some event.commitment := by
  obtain ⟨id, ledger, contractId, published⟩ := entry
  cases published <;> cases h
  rfl

variable {event : LeafAddedEvent}

theorem leafAdded?_event (h : (entry.processed codec).leafAdded? = some event) :
    ∃ leaf root, entry.event = .leafAdded leaf event.index root := by
  obtain ⟨id, ledger, contractId, published⟩ := entry
  cases published <;> cases h
  exact ⟨_, _, rfl⟩

theorem Mirrored.contractOf (h : Mirrored codec chain db) (hentry : entry ∈ chain.log)
    (hknown : db.hasEvent entry.id = true) :
    ∃ contractId, db.contractOf entry.id = some contractId ∧ db.address? contractId = some entry.contractId := by
  obtain ⟨row, hrow, hid⟩ := hasEvent_iff.mp hknown
  obtain ⟨entry', hentry', hid', -, haddress, -⟩ := h.events row hrow
  have heq : entry' = entry := chain.entry_eq hentry' hentry (hid'.symm.trans hid)
  refine ⟨row.contractId, ?_, heq ▸ haddress⟩
  rw [← hid, contractOf_of_mem hrow]

variable {ε ρ : Type} {select : ProcessedEvent → Option ε} {make : Nat → ε → ρ}

theorem exists_holder {clash : ρ → ε → Bool} {rows rows' : List ρ} {event : ε}
    (hrows : rows' = insertAll clash make rows (selected codec batch select))
    (hbacked : Backed codec chain db' select make rows')
    (hself : ∀ n event, clash (make n event) event = true) (hentry : entry ∈ batch)
    (hsome : select (entry.processed codec) = some event) :
    ∃ holder ∈ chain.log, db'.hasEvent holder.id = true ∧
      ∃ held, select (holder.processed codec) = some held ∧
        ∃ n, make n held ∈ rows' ∧ clash (make n held) event = true := by
  have hclash : ∃ row ∈ rows', clash row event = true := by
    rw [hrows]
    exact clash_insertAll hself (mem_selected.mpr ⟨entry, hentry, hsome⟩)
  obtain ⟨row, hrow, hclash⟩ := hclash
  obtain ⟨holder, hholder, hknown, held, hheld, n, rfl⟩ := hbacked row hrow
  exact ⟨holder, hholder, hknown, held, hheld, n, hrow, hclash⟩

/-- Events whose row no event of another value keeps out. -/
def Published.selfKeyed : Published → Bool
  | publicKey .. | leafAdded .. => true
  | newNullifier _ | newCommitment .. => false

section
variable (h : Mirrored codec chain db) (hbatch : Batch codec chain db limit batch)
  (hstored : Stored codec batch db db')
include h hbatch hstored

theorem Mirrored.processed_of_selfKeyed
    (hentry : entry ∈ batch) (hkeyed : entry.event.selfKeyed = true) : db'.unprocessed entry.id = false := by
  have hdb' := h.stored hbatch hstored
  have hlogged := hbatch.logged entry hentry
  obtain ⟨_, _, _, _, hframe⟩ := hstored.frame
  have hevents : ∀ id, db'.hasEvent id = db.hasEvent id := by
    rw [hframe]
    exact fun _ => rfl
  rw [← Bool.not_eq_true, unprocessed_iff]
  rintro ⟨-, hpublicKeys, hleaves, -⟩
  cases hevent : entry.event with
  | newNullifier nullifier =>
    rw [hevent] at hkeyed
    cases hkeyed
  | newCommitment commitment index output =>
    rw [hevent] at hkeyed
    cases hkeyed
  | publicKey owner encryptionKey noteKey =>
    have hsome : (entry.processed codec).publicKey? =
        some ⟨entry.id, Published.ownerText codec owner, encryptionKey, noteKey⟩ := by
      rw [Entry.processed, hevent]; rfl
    obtain ⟨_, -, -, _, -, n, hrow, hclash⟩ :=
      exists_holder hstored.publicKeys hdb'.publicKeys (fun _ _ => beq_self_eq_true _) hentry hsome
    exact hpublicKeys _ hrow (beq_iff_eq.mp hclash)
  | leafAdded leaf index root =>
    have hsome : (entry.processed codec).leafAdded? = some ⟨entry.id, leaf, index, root⟩ := by
      rw [Entry.processed, hevent]; rfl
    have hbacked : Backed codec chain db' leafAdded? (leafRow db)
        db'.aspMembershipLeaves.rows := by
      have hleaves' := hdb'.leaves
      rwa [show leafRow db' = leafRow db by rw [hframe]; rfl] at hleaves'
    obtain ⟨holder, hholder, hknown', held, hheld, n, hrow, hclash⟩ := exists_holder hstored.leaves
      hbacked (fun _ _ => by simp [sameLeaf, leafRow]) hentry hsome
    obtain ⟨hcontract, hindex⟩ : (db.contractOf held.id).getD 0 = (db.contractOf entry.id).getD 0 ∧
        held.index = index := by simpa [sameLeaf, leafRow] using hclash
    obtain ⟨c, hc, haddress⟩ := h.contractOf hlogged (hbatch.stored entry hentry)
    obtain ⟨c', hc', haddress'⟩ := h.contractOf hholder (hevents _ ▸ hknown')
    rw [leafAdded?_id holder held hheld, hc, hc', Option.getD_some, Option.getD_some] at hcontract
    rw [hcontract, haddress] at haddress'
    obtain ⟨leaf', root', hevent'⟩ := leafAdded?_event hheld
    rw [hindex] at hevent'
    have heq : holder = entry := Chain.leaf_eq hholder hlogged (Option.some.inj haddress').symm hevent' hevent
    exact hleaves _ hrow ((leafAdded?_id holder held hheld).trans (congrArg Entry.id heq))

theorem Mirrored.processed_of_stored
    (hdistinct : Distinct (storedEntries chain db)) (hentry : entry ∈ batch) : db'.unprocessed entry.id = false := by
  have hdb' := h.stored hbatch hstored
  have hlogged := hbatch.logged entry hentry
  have hentries : (storedEntries chain db).Nodup := chain.nodup.filter _
  obtain ⟨_, _, _, _, hframe⟩ := hstored.frame
  have hevents : ∀ id, db'.hasEvent id = db.hasEvent id := by
    rw [hframe]
    exact fun _ => rfl
  have hmem : ∀ e ∈ chain.log, db'.hasEvent e.id = true → e ∈ storedEntries chain db :=
    fun e he hknown => mem_filter.mpr ⟨he, hevents e.id ▸ hknown⟩
  have hknown : db'.hasEvent entry.id = true := hevents _ ▸ hbatch.stored entry hentry
  -- Whoever holds the key is the entry itself, so its row refers to the event.
  cases hevent : entry.event with
  | newNullifier nullifier =>
    rw [← Bool.not_eq_true, unprocessed_iff]
    rintro ⟨-, -, -, hnullifiers⟩
    have hsome : (entry.processed codec).nullifier? = some ⟨entry.id, nullifier⟩ := by
      rw [Entry.processed, hevent]; rfl
    obtain ⟨holder, hholder, hknown', held, hheld, n, hrow, hclash⟩ :=
      exists_holder hstored.nullifiers hdb'.nullifiers (fun _ _ => beq_self_eq_true _) hentry hsome
    have heq : holder = entry := by
      apply (nodup_filterMap_iff hentries).mp hdistinct.nullifiers _ (hmem _ hholder hknown') _
        (hmem _ hlogged hknown) _ (nullifier?_value hheld)
      rw [nullifier?_value hsome]
      exact congrArg some (beq_iff_eq.mp hclash).symm
    exact hnullifiers _ hrow ((nullifier?_id holder held hheld).trans (congrArg Entry.id heq))
  | newCommitment commitment index output =>
    rw [← Bool.not_eq_true, unprocessed_iff]
    rintro ⟨hcommitments, -⟩
    have hsome : (entry.processed codec).commitment? = some ⟨entry.id, commitment, index, output⟩ := by
      rw [Entry.processed, hevent]; rfl
    obtain ⟨holder, hholder, hknown', held, hheld, n, hrow, hclash⟩ :=
      exists_holder hstored.commitments hdb'.commitments (fun _ _ => beq_self_eq_true _) hentry hsome
    have heq : holder = entry := by
      apply (nodup_filterMap_iff hentries).mp hdistinct.commitments _ (hmem _ hholder hknown') _
        (hmem _ hlogged hknown) _ (commitment?_value hheld)
      rw [commitment?_value hsome]
      exact congrArg some (beq_iff_eq.mp hclash).symm
    exact hcommitments _ hrow ((commitment?_id holder held hheld).trans (congrArg Entry.id heq))
  | publicKey owner encryptionKey noteKey =>
    exact h.processed_of_selfKeyed hbatch hstored hentry (by rw [hevent]; rfl)
  | leafAdded leaf index root =>
    exact h.processed_of_selfKeyed hbatch hstored hentry (by rw [hevent]; rfl)

end

theorem Batch.eq_nil (hbatch : Batch codec chain db limit batch)
    (hprocessed : ∀ entry ∈ batch, db.unprocessed entry.id = false) : batch = [] := by
  apply eq_nil_iff_forall_not_mem.mpr
  intro entry hentry
  exact Bool.noConfusion ((hbatch.unprocessed entry hentry).symm.trans (hprocessed entry hentry))

theorem Mirrored.batch_eq_nil (h : Mirrored codec chain db) (hbatch : Batch codec chain db limit batch)
    (hstored : Stored codec batch db db) (hdistinct : Distinct (storedEntries chain db)) : batch = [] :=
  hbatch.eq_nil fun _ => h.processed_of_stored hbatch hstored hdistinct

theorem Batch.all_processed (hbatch : Batch codec chain db limit batch) (hnil : batch = [])
    (hlimit : 0 < limit) (hentry : entry ∈ storedEntries chain db) : db.unprocessed entry.id = false := by
  obtain ⟨row, hrow, hid⟩ := hasEvent_iff.mp (mem_filter.mp hentry).2
  rw [← hid]
  exact hbatch.complete hnil hlimit row hrow

theorem Mirrored.all_processed (h : Mirrored codec chain db) (hlimit : 0 < limit)
    (hdone : (processEvents codec limit db).2 = db) (hdistinct : Distinct (storedEntries chain db))
    (hentry : entry ∈ storedEntries chain db) : db.unprocessed entry.id = false := by
  obtain ⟨batch, db', hbatch, hresult, hstored⟩ := h.processes limit
  have hsame : db' = db := by
    rw [hresult] at hdone
    exact hdone
  subst hsame
  exact hbatch.all_processed (h.batch_eq_nil hbatch hstored hdistinct) hlimit hentry

section
variable {rows : List ρ} {eventId : ρ → String} {idOf : ε → String} {row : ρ}
  (h : Backed codec chain db select make rows)
  (hselect : ∀ entry event, select (Entry.processed codec entry) = some event → idOf event = entry.id)
  (hmake : ∀ n event, eventId (make n event) = idOf event)
include h hselect hmake

theorem Backed.of_eventId (hentry : entry ∈ chain.log) (hrow : row ∈ rows) (hid : eventId row = entry.id) :
    ∃ event, select (entry.processed codec) = some event ∧ ∃ n, row = make n event := by
  obtain ⟨entry', hentry', -, event, hsome, n, rfl⟩ := h row hrow
  rw [hmake, hselect entry' event hsome] at hid
  rw [← chain.entry_eq hentry' hentry hid]
  exact ⟨event, hsome, n, rfl⟩

theorem Backed.hasEvent (hrow : row ∈ rows) : db.hasEvent (eventId row) = true := by
  obtain ⟨entry, -, hknown, event, hsome, n, rfl⟩ := h row hrow
  rwa [hmake, hselect entry event hsome]

theorem Backed.length_le (hnodup : rows.Pairwise fun a b => eventId a ≠ eventId b) :
    rows.length ≤ db.rawContractEvents.rows.length := by
  have hsubset : rows.map eventId ⊆ db.rawContractEvents.rows.map RawContractEvent.id := by
    intro id hid
    obtain ⟨row, hrow, rfl⟩ := mem_map.mp hid
    exact mem_map.mpr (hasEvent_iff.mp (h.hasEvent hselect hmake hrow))
  simpa using (subperm_of_subset (pairwise_map.mpr hnodup) hsubset).length_le

end

theorem Mirrored.rows_of_processed (h : Mirrored codec chain db) (hentry : entry ∈ chain.log)
    (hprocessed : db.unprocessed entry.id = false) :
    (∃ event, (entry.processed codec).commitment? = some event ∧
        ∃ n, commitmentRow n event ∈ db.poolCommitments.rows) ∨
      (∃ event, (entry.processed codec).publicKey? = some event ∧
        ∃ n, publicKeyRow n event ∈ db.publicKeys.rows) ∨
      (∃ event, (entry.processed codec).leafAdded? = some event ∧
        ∃ n, leafRow db n event ∈ db.aspMembershipLeaves.rows) ∨
      ∃ event, (entry.processed codec).nullifier? = some event ∧
        ∃ n, nullifierRow n event ∈ db.poolNullifiers.rows := by
  rw [← Bool.not_eq_true, unprocessed_iff] at hprocessed
  by_contra hnone
  push Not at hnone
  obtain ⟨hcommitments, hpublicKeys, hleaves, hnullifiers⟩ := hnone
  apply hprocessed
  refine ⟨fun row hrow hid => ?_, fun row hrow hid => ?_, fun row hrow hid => ?_, fun row hrow hid => ?_⟩
  · obtain ⟨event, hsome, n, rfl⟩ := h.commitments.of_eventId commitment?_id (fun _ _ => rfl) hentry hrow hid
    exact hcommitments event hsome n hrow
  · obtain ⟨event, hsome, n, rfl⟩ := h.publicKeys.of_eventId publicKey?_id (fun _ _ => rfl) hentry hrow hid
    exact hpublicKeys event hsome n hrow
  · obtain ⟨event, hsome, n, rfl⟩ := h.leaves.of_eventId leafAdded?_id (fun _ _ => rfl) hentry hrow hid
    exact hleaves event hsome n hrow
  · obtain ⟨event, hsome, n, rfl⟩ := h.nullifiers.of_eventId nullifier?_id (fun _ _ => rfl) hentry hrow hid
    exact hnullifiers event hsome n hrow

section
variable (h : Mirrored codec chain db) (hentry : entry ∈ chain.log)
  (hprocessed : db.unprocessed entry.id = false)
include h hentry hprocessed

theorem Mirrored.commitment_row {commitment : U256} {output : Bytes}
    (hevent : entry.event = .newCommitment commitment index output) :
    ∃ n, commitmentRow n ⟨entry.id, commitment, index, output⟩ ∈ db.poolCommitments.rows := by
  simpa [Entry.processed, hevent, Published.processed, commitment?, publicKey?, leafAdded?, nullifier?]
    using h.rows_of_processed hentry hprocessed

theorem Mirrored.nullifier_row {nullifier : U256} (hevent : entry.event = .newNullifier nullifier) :
    ∃ n, nullifierRow n ⟨entry.id, nullifier⟩ ∈ db.poolNullifiers.rows := by
  simpa [Entry.processed, hevent, Published.processed, commitment?, publicKey?, leafAdded?, nullifier?]
    using h.rows_of_processed hentry hprocessed

theorem Mirrored.publicKey_row {event : PublicKeyEvent} (hsome : (entry.processed codec).publicKey? = some event) :
    ∃ n, publicKeyRow n event ∈ db.publicKeys.rows := by
  have hrows := h.rows_of_processed hentry hprocessed
  cases hkind : entry.processed codec <;> rw [hkind] at hsome hrows <;> cases hsome
  simpa [commitment?, publicKey?, leafAdded?, nullifier?] using hrows

theorem Mirrored.leaf_row (hsome : (entry.processed codec).leafAdded? = some event) :
    ∃ n, leafRow db n event ∈ db.aspMembershipLeaves.rows := by
  have hrows := h.rows_of_processed hentry hprocessed
  cases hkind : entry.processed codec <;> rw [hkind] at hsome hrows <;> cases hsome
  simpa [commitment?, publicKey?, leafAdded?, nullifier?] using hrows

end

end Processed

variable {rows : List PoolCommitment} {row : PoolCommitment} {leaves : List F}

theorem collectLeaves_cons {k : Nat}
    : collectLeaves k (row :: rows) = .ok leaves ↔
      row.leafIndex = k ∧ k + 1 < 2 ^ 32 ∧
        ∃ rest, collectLeaves (k + 1) rows = .ok rest ∧ row.commitment :: rest = leaves := by
  rw [collectLeaves]
  constructor
  · intro h
    split at h
    · cases h
    · rename_i hindex
      obtain ⟨next, hnext, h⟩ := bind_eq_ok h
      obtain ⟨rest, hrest, hleaves⟩ := bind_eq_ok h
      obtain ⟨hlt, rfl⟩ := checkedAdd_eq_some (orFail_eq_ok hnext)
      exact ⟨not_not.mp hindex, hlt, rest, hrest, Except.ok.inj hleaves⟩
  · rintro ⟨hindex, hlt, rest, hrest, rfl⟩
    rw [if_neg (not_not.mpr hindex), checkedAdd_eq hlt, orFail_some, ok_bind, hrest]
    rfl

/-- The loop succeeds on the leaves at their indexes, unless the last index is the last one
that there is. -/
theorem collectLeaves_eq_ok {k : Nat} :
    collectLeaves k rows = .ok leaves ↔
      rows.map (fun row => (row.commitment, row.leafIndex)) = leaves.zipIdx k ∧
        (leaves ≠ [] → k + leaves.length < 2 ^ 32) := by
  induction rows generalizing k leaves with
  | nil => cases leaves <;> simp [collectLeaves]
  | cons row rows ih =>
    rw [collectLeaves_cons]
    constructor
    · rintro ⟨hindex, hlt, rest, hrest, rfl⟩
      obtain ⟨hrows, hlength⟩ := ih.mp hrest
      rw [map_cons, hrows, hindex, zipIdx_cons, length_cons]
      refine ⟨rfl, fun _ => ?_⟩
      by_cases hnil : rest = []
      · simpa [hnil] using hlt
      · have := hlength hnil
        omega
    · rintro ⟨hrows, hlength⟩
      cases leaves with
      | nil => cases hrows
      | cons leaf rest =>
        have hlt := hlength (cons_ne_nil _ _)
        rw [map_cons, zipIdx_cons, List.cons.injEq, Prod.mk.injEq] at hrows
        obtain ⟨⟨rfl, hindex⟩, hrows⟩ := hrows
        rw [length_cons] at hlt
        exact ⟨hindex, by omega, rest, ih.mpr ⟨hrows, fun _ => by omega⟩, rfl⟩

variable {entry : Entry}

section Mirrors
variable {db : Db} {source : String × Source}

def nullifiersOf (db : Db) (address : String) : List F :=
  (db.poolNullifiers.rows.filter fun row =>
    (db.contractOf row.eventId).bind db.address? == some address).map PoolNullifier.nullifier

structure Mirrors (chain : Chain) (db : Db) : Prop where
  leaves : ∀ source ∈ chain.sources,
    getPoolCommitmentLeavesOrdered db source.1 = .ok source.2.commitments
  nullifiers : ∀ source ∈ chain.sources, (nullifiersOf db source.1).Perm source.2.nullifiers
  attributed : ∀ row ∈ db.poolNullifiers.rows,
    ∃ source ∈ chain.sources, (db.contractOf row.eventId).bind db.address? = some source.1

variable {index : Nat} {commitment : F}

theorem Chain.mem_commitments (hsource : source ∈ chain.sources) :
    (commitment, index) ∈ source.2.commitments.zipIdx ↔
      ∃ entry ∈ chain.log, entry.contractId = source.1 ∧
        ∃ n output, entry.event = .newCommitment n index output ∧ (n : F) = commitment := by
  rw [← (chain.genuine source hsource).commitments, ← chain.emitted source hsource,
    filterMap_map, mem_filterMap]
  constructor
  · rintro ⟨entry, hentry, hsome⟩
    obtain ⟨hlog, hcontract⟩ := mem_filter.mp hentry
    refine ⟨entry, hlog, beq_iff_eq.mp hcontract, ?_⟩
    rw [comp_apply] at hsome
    cases hevent : entry.event with
    | newCommitment n i output =>
      rw [hevent] at hsome
      cases hsome
      exact ⟨n, output, rfl, rfl⟩
    | _ =>
      rw [hevent] at hsome
      cases hsome
  · rintro ⟨entry, hlog, hcontract, n, output, hevent, rfl⟩
    refine ⟨entry, mem_filter.mpr ⟨hlog, beq_iff_eq.mpr hcontract⟩, ?_⟩
    rw [comp_apply, hevent]

theorem Chain.nullifiers_eq (hsource : source ∈ chain.sources) :
    (chain.log.filter (·.contractId == source.1)).filterMap (fun entry => entry.event.nullifier?) =
      source.2.nullifiers := by
  rw [← (chain.genuine source hsource).nullifiers, ← chain.emitted source hsource, filterMap_map]
  rfl

section
variable (h : Mirrored codec chain db)
include h

theorem Mirrored.attributed (hentry : entry ∈ chain.log)
    (hknown : db.hasEvent entry.id = true) : (db.contractOf entry.id).bind db.address? = some entry.contractId := by
  obtain ⟨contractId, hcontract, haddress⟩ := h.contractOf hentry hknown
  rw [hcontract]
  exact haddress

theorem Mirrored.mem_commitments (hsource : source ∈ chain.sources)
    (hrow : row ∈ db.poolCommitments.rows)
    (hbelongs : (db.contractOf row.eventId).bind db.address? = some source.1) :
    (row.commitment, row.leafIndex) ∈ source.2.commitments.zipIdx := by
  obtain ⟨entry, hentry, hknown, event, hsome, n, rfl⟩ := h.commitments row hrow
  rw [commitmentRow, commitment?_id entry event hsome, h.attributed hentry hknown] at hbelongs
  refine (Chain.mem_commitments hsource).mpr ⟨entry, hentry, Option.some.inj hbelongs, ?_⟩
  obtain ⟨id, ledger, contractId, published⟩ := entry
  cases published <;> cases hsome
  exact ⟨_, _, rfl, rfl⟩

theorem Mirrored.mem_nullifiers (hsource : source ∈ chain.sources)
    {row : PoolNullifier} (hrow : row ∈ db.poolNullifiers.rows)
    (hbelongs : (db.contractOf row.eventId).bind db.address? = some source.1) :
    row.nullifier ∈ source.2.nullifiers := by
  obtain ⟨entry, hentry, hknown, event, hsome, n, rfl⟩ := h.nullifiers row hrow
  rw [nullifierRow, nullifier?_id entry event hsome, h.attributed hentry hknown] at hbelongs
  rw [← Chain.nullifiers_eq hsource, mem_filterMap]
  exact ⟨entry, mem_filter.mpr ⟨hentry, by simpa using hbelongs⟩, nullifier?_value hsome⟩

end

theorem commitments_nodup (db : Db) : (db.poolCommitments.rows.map PoolCommitment.commitment).Nodup :=
  pairwise_map.mpr (db.poolCommitments.unique.imp fun hne heq => hne (.inl heq))

theorem nullifiers_nodup (db : Db) : (db.poolNullifiers.rows.map PoolNullifier.nullifier).Nodup :=
  pairwise_map.mpr (db.poolNullifiers.unique.imp fun hne heq => hne (.inl heq))

section
variable (h : Mirrored codec chain db) (hsource : source ∈ chain.sources)
  (hall : ∀ entry ∈ chain.log, db.hasEvent entry.id = true ∧ db.unprocessed entry.id = false)
include h hsource hall

theorem Mirrored.leaves_ordered (hlength : source.2.commitments.length < 2 ^ 32) :
    getPoolCommitmentLeavesOrdered db source.1 = .ok source.2.commitments := by
  apply collectLeaves_eq_ok.mpr
  refine ⟨?_, fun _ => by omega⟩
  apply insertionSort_of_perm_zipIdx
  apply (perm_ext_iff_of_nodup _ _).mpr
  · rintro ⟨commitment, index⟩
    constructor
    · intro hmem
      obtain ⟨row, hrow, heq⟩ := mem_map.mp hmem
      obtain ⟨hrow, hbelongs⟩ := mem_filter.mp hrow
      rw [← heq]
      exact h.mem_commitments hsource hrow (beq_iff_eq.mp hbelongs)
    · intro hmem
      obtain ⟨entry, hentry, hcontract, n, output, hevent, rfl⟩ := (Chain.mem_commitments hsource).mp hmem
      obtain ⟨hknown, hprocessed⟩ := hall entry hentry
      obtain ⟨id, hrow⟩ := h.commitment_row hentry hprocessed hevent
      refine mem_map.mpr ⟨_, mem_filter.mpr ⟨hrow, ?_⟩, rfl⟩
      rw [commitmentRow, h.attributed hentry hknown, hcontract]
      exact beq_self_eq_true _
  · apply List.Nodup.of_map Prod.fst
    rw [map_map]
    exact (commitments_nodup db).sublist (filter_sublist.map _)
  · exact (nodup_zipIdx_map_snd _).of_map

theorem Mirrored.nullifiers_perm
    (hdistinct : Distinct chain.log) : (nullifiersOf db source.1).Perm source.2.nullifiers := by
  apply (perm_ext_iff_of_nodup _ _).mpr
  · intro nullifier
    constructor
    · intro hmem
      obtain ⟨row, hrow, rfl⟩ := mem_map.mp hmem
      obtain ⟨hrow, hbelongs⟩ := mem_filter.mp hrow
      exact h.mem_nullifiers hsource hrow (beq_iff_eq.mp hbelongs)
    · intro hmem
      rw [← Chain.nullifiers_eq hsource, mem_filterMap] at hmem
      obtain ⟨entry, hentry, hvalue⟩ := hmem
      obtain ⟨hentry, hcontract⟩ := mem_filter.mp hentry
      obtain ⟨n, hevent, rfl⟩ := Published.nullifier?_eq_some hvalue
      obtain ⟨hknown, hprocessed⟩ := hall entry hentry
      obtain ⟨id, hrow⟩ := h.nullifier_row hentry hprocessed hevent
      refine mem_map.mpr ⟨_, mem_filter.mpr ⟨hrow, ?_⟩, rfl⟩
      rw [nullifierRow, h.attributed hentry hknown]
      simpa using hcontract
  · exact (nullifiers_nodup db).sublist (filter_sublist.map _)
  · rw [← Chain.nullifiers_eq hsource]
    exact hdistinct.nullifiers.sublist (filter_sublist.filterMap _)

end

theorem Mirrors.exists_commitment (h : Mirrors chain db) (hsource : source ∈ chain.sources)
    (hmem : (commitment, index) ∈ source.2.commitments.zipIdx) :
    ∃ row ∈ db.poolCommitments.rows, (db.contractOf row.eventId).bind db.address? = some source.1 ∧
      row.commitment = commitment ∧ row.leafIndex = index := by
  have hrows := (collectLeaves_eq_ok.mp (h.leaves source hsource)).1
  rw [← hrows] at hmem
  obtain ⟨row, hrow, heq⟩ := mem_map.mp hmem
  obtain ⟨hrow, hbelongs⟩ := mem_filter.mp ((mem_insertionSort _).mp hrow)
  rw [Prod.mk.injEq] at heq
  exact ⟨row, hrow, beq_iff_eq.mp hbelongs, heq⟩

theorem Chain.commitment_eq {entry other : Entry} (h : entry ∈ chain.log) (h' : other ∈ chain.log)
    (hcontract : entry.contractId = other.contractId) {n n' : U256} {output output' : Bytes}
    (hevent : entry.event = .newCommitment n index output)
    (hevent' : other.event = .newCommitment n' index output') (hvalue : (n : F) = n') : entry = other := by
  obtain ⟨source, hsource, hid⟩ := chain.known entry h
  have hnodup : source.2.commitments.zipIdx.Nodup := (nodup_zipIdx_map_snd _).of_map
  rw [← (chain.genuine source hsource).commitments, ← chain.emitted source hsource, filterMap_map] at hnodup
  apply (nodup_filterMap_iff (chain.nodup.filter _)).mp hnodup entry _ other _ ((n : F), index)
  · rw [comp_apply, hevent]
  · rw [comp_apply, hevent', hvalue]
  · exact mem_filter.mpr ⟨h, by simp [hid]⟩
  · exact mem_filter.mpr ⟨h', by simp [hid, hcontract]⟩

theorem Mirrors.commitments_distinct (h : Mirrors chain db) :
    (chain.log.filterMap fun entry => entry.event.commitment?).Nodup := by
  rw [nodup_filterMap_iff chain.nodup]
  intro entry hentry other hother value hvalue hvalue'
  have hrow : ∀ e ∈ chain.log, e.event.commitment? = some value →
      ∃ row ∈ db.poolCommitments.rows, row.commitment = value ∧
        (db.contractOf row.eventId).bind db.address? = some e.contractId ∧
        ∃ n output, e.event = .newCommitment n row.leafIndex output ∧ (n : F) = value := by
    intro e he hsome
    obtain ⟨source, hsource, hid⟩ := chain.known e he
    obtain ⟨n, index, output, hevent, hn⟩ := Published.commitment?_eq_some hsome
    obtain ⟨row, hrow, hbelongs, hcommitment, rfl⟩ := h.exists_commitment hsource
      ((Chain.mem_commitments hsource).mpr ⟨e, he, hid.symm, n, output, hevent, hn⟩)
    exact ⟨row, hrow, hcommitment, hid ▸ hbelongs, n, output, hevent, hn⟩
  obtain ⟨row, hmem, hcommitment, hbelongs, n, output, hevent, hn⟩ := hrow entry hentry hvalue
  obtain ⟨row', hmem', hcommitment', hbelongs', n', output', hevent', hn'⟩ := hrow other hother hvalue'
  have hsame : row = row' :=
    inj_on_of_nodup_map (commitments_nodup db) hmem hmem' (hcommitment.trans hcommitment'.symm)
  subst hsame
  rw [hbelongs] at hbelongs'
  exact Chain.commitment_eq hentry hother (Option.some.inj hbelongs') hevent hevent' (hn.trans hn'.symm)

theorem Mirrors.nullifiers_distinct (h : Mirrors chain db) :
    (chain.log.filterMap fun entry => entry.event.nullifier?).Nodup := by
  rw [nodup_filterMap_iff chain.nodup]
  intro entry hentry other hother value hvalue hvalue'
  have hrow : ∀ e ∈ chain.log, e.event.nullifier? = some value →
      ∃ row ∈ db.poolNullifiers.rows, row.nullifier = value ∧
        (db.contractOf row.eventId).bind db.address? = some e.contractId := by
    intro e he hsome
    obtain ⟨source, hsource, hid⟩ := chain.known e he
    have hmem : value ∈ source.2.nullifiers := by
      rw [← Chain.nullifiers_eq hsource]
      exact mem_filterMap.mpr ⟨e, mem_filter.mpr ⟨he, by simp [hid]⟩, hsome⟩
    obtain ⟨row, hrow, heq⟩ := mem_map.mp ((h.nullifiers source hsource).mem_iff.mpr hmem)
    obtain ⟨hrow, hbelongs⟩ := mem_filter.mp hrow
    exact ⟨row, hrow, heq, hid ▸ beq_iff_eq.mp hbelongs⟩
  obtain ⟨row, hmem, hnullifier, hbelongs⟩ := hrow entry hentry hvalue
  obtain ⟨row', hmem', hnullifier', hbelongs'⟩ := hrow other hother hvalue'
  have hsame : row = row' :=
    inj_on_of_nodup_map (nullifiers_nodup db) hmem hmem' (hnullifier.trans hnullifier'.symm)
  subst hsame
  rw [hbelongs] at hbelongs'
  obtain ⟨source, hsource, hid⟩ := chain.known entry hentry
  have hnodup : source.2.nullifiers.Nodup := (h.nullifiers source hsource).nodup_iff.mp
    ((nullifiers_nodup db).sublist (filter_sublist.map _))
  rw [← Chain.nullifiers_eq hsource] at hnodup
  apply (nodup_filterMap_iff (chain.nodup.filter _)).mp hnodup entry _ other _ value hvalue hvalue'
  · exact mem_filter.mpr ⟨hentry, by simp [hid]⟩
  · exact mem_filter.mpr ⟨hother, by simp [hid, Option.some.inj hbelongs']⟩

theorem Mirrors.length_lt (h : Mirrors chain db) (hsource : source ∈ chain.sources) :
    source.2.commitments.length < 2 ^ 32 := by
  by_cases hnil : source.2.commitments = []
  · simp [hnil]
  · have hlt := (collectLeaves_eq_ok.mp (h.leaves source hsource)).2 hnil
    omega

/-- The wallet stores events of the chain, in any batches and with repeats, and processes them,
with any limits. -/
inductive Ingested (codec : Codec) (chain : Chain) : Db → Prop where
  | fresh : Ingested codec chain Db.fresh
  | saveEvents {db : Db} (entries : List Entry) (hlogged : ∀ entry ∈ entries, entry ∈ chain.log)
      (h : Ingested codec chain db) :
      Ingested codec chain (saveEventsBatch (entries.map (Entry.contractEvent codec)) db).2
  | processEvents {db : Db} (limit : Nat) (h : Ingested codec chain db) :
      Ingested codec chain (processEvents codec limit db).2

theorem Mirrored.saveEvents (h : Mirrored codec chain db) {entries : List Entry}
    (hlogged : ∀ entry ∈ entries, entry ∈ chain.log) :
    Mirrored codec chain (saveEventsBatch (entries.map (Entry.contractEvent codec)) db).2 := by
  apply saveEventsBatch_keeps _ h
  intro db event hevent hdb
  obtain ⟨entry, hentry, rfl⟩ := mem_map.mp hevent
  exact hdb.saveEvent (hlogged entry hentry)

theorem Mirrored.processEvents (h : Mirrored codec chain db) (limit : Nat) :
    Mirrored codec chain (processEvents codec limit db).2 := by
  obtain ⟨batch, db', hbatch, hresult, hstored⟩ := h.processes limit
  rw [hresult]
  exact h.stored hbatch hstored

theorem mirrored_fresh (codec : Codec) (chain : Chain) : Mirrored codec chain Db.fresh := by
  constructor <;> simp [Db.fresh, Backed]

theorem Ingested.mirrored (h : Ingested codec chain db) : Mirrored codec chain db := by
  induction h with
  | fresh => exact mirrored_fresh codec chain
  | saveEvents entries hlogged _ ih => exact ih.saveEvents hlogged
  | processEvents limit _ ih => exact ih.processEvents limit

def rowCount (db : Db) : Nat :=
  db.poolNullifiers.rows.length + db.poolCommitments.rows.length + db.publicKeys.rows.length +
    db.aspMembershipLeaves.rows.length

theorem Stored.eq_or_lt {batch : List Entry} {db' : Db} (h : Stored codec batch db db') :
    db' = db ∨ rowCount db < rowCount db' := by
  obtain ⟨⟨n, c, p, l, rfl⟩, hn, hc, hp, hl⟩ := h
  have hn : db.poolNullifiers.rows <+: n.rows := hn ▸ prefix_insertAll
  have hc : db.poolCommitments.rows <+: c.rows := hc ▸ prefix_insertAll
  have hp : db.publicKeys.rows <+: p.rows := hp ▸ prefix_insertAll
  have hl : db.aspMembershipLeaves.rows <+: l.rows := hl ▸ prefix_insertAll
  have hlengths := And.intro (And.intro hn.length_le hc.length_le) (And.intro hp.length_le hl.length_le)
  by_cases hlt : rowCount db < rowCount
      { db with poolNullifiers := n, poolCommitments := c, publicKeys := p, aspMembershipLeaves := l }
  · exact .inr hlt
  · left
    simp only [rowCount] at hlt
    rw [← NumberedTable.eq_of_rows (hn.eq_of_length (by omega)),
      ← NumberedTable.eq_of_rows (hc.eq_of_length (by omega)),
      ← Table.eq_of_rows (hp.eq_of_length (by omega)), ← Table.eq_of_rows (hl.eq_of_length (by omega))]

theorem Mirrored.rowCount_le (h : Mirrored codec chain db) : rowCount db ≤ 4 * db.rawContractEvents.rows.length := by
  have hnullifiers := h.nullifiers.length_le nullifier?_id (fun _ _ => rfl)
    (db.poolNullifiers.unique.imp fun hne heq => hne (.inr heq))
  have hcommitments := h.commitments.length_le commitment?_id (fun _ _ => rfl)
    (db.poolCommitments.unique.imp fun hne heq => hne (.inr heq))
  have hpublicKeys := h.publicKeys.length_le publicKey?_id (fun _ _ => rfl) db.publicKeys.unique
  have hleaves := h.leaves.length_le leafAdded?_id (fun _ _ => rfl)
    (db.aspMembershipLeaves.unique.imp fun hne heq => hne (.inr heq))
  unfold rowCount
  omega

theorem Mirrored.exists_settled (limit : Nat) (h : Mirrored codec chain db) :
    ∃ db', Relation.ReflTransGen (fun d d' => d' = (Sdk.processEvents codec limit d).2) db db' ∧
      (∃ poolNullifiers poolCommitments publicKeys aspMembershipLeaves, db' =
        { db with poolNullifiers, poolCommitments, publicKeys, aspMembershipLeaves }) ∧
      (Sdk.processEvents codec limit db').2 = db' := by
  induction hroom : 4 * db.rawContractEvents.rows.length - rowCount db using Nat.strong_induction_on
    generalizing db with
  | _ room ih =>
    obtain ⟨batch, db', hbatch, hresult, hstored⟩ := h.processes limit
    have hnext := h.stored hbatch hstored
    obtain ⟨_, _, _, _, hframe⟩ := hstored.frame
    rcases hstored.eq_or_lt with rfl | hlt
    · exact ⟨db', .refl, ⟨_, _, _, _, rfl⟩, by rw [hresult]⟩
    · have hraw : db'.rawContractEvents = db.rawContractEvents := by rw [hframe]
      have hle := hnext.rowCount_le
      rw [hraw] at hle
      have hless : 4 * db'.rawContractEvents.rows.length - rowCount db' < room := by
        rw [hraw]
        omega
      obtain ⟨db'', hrun, ⟨n, c, p, l, hframe'⟩, hdone⟩ := ih _ hless hnext rfl
      refine ⟨db'', .head (by rw [hresult]) hrun, ⟨n, c, p, l, ?_⟩, hdone⟩
      rw [hframe', hframe]

theorem settles {p : Db → Prop} {db' : Db} (hstep : ∀ d, p d → p (processEvents codec limit d).2) (h : p db)
    (hrun : Relation.ReflTransGen (fun d d' => d' = (processEvents codec limit d).2) db db') : p db' := by
  induction hrun with
  | refl => exact h
  | tail _ heq ih =>
    rw [heq]
    exact hstep _ ih

theorem exists_ingested (codec : Codec) (chain : Chain) (limit : Nat) :
    ∃ db, Ingested codec chain db ∧ (∀ entry ∈ chain.log, db.hasEvent entry.id = true) ∧
      (processEvents codec limit db).2 = db := by
  have hsaved : Ingested codec chain
      (saveEventsBatch (chain.log.map (Entry.contractEvent codec)) Db.fresh).2 :=
    .saveEvents chain.log (fun _ h => h) .fresh
  obtain ⟨db, hrun, ⟨_, _, _, _, hframe⟩, hdone⟩ := hsaved.mirrored.exists_settled limit
  refine ⟨db, settles (fun _ => .processEvents limit) hsaved hrun, fun entry hentry => ?_, hdone⟩
  rw [hframe]
  exact hasEvent_saveEvents (mem_map_of_mem hentry) Db.fresh

/-- The wallet mirrors the pools if and only if no commitment and no nullifier occurs twice,
in one pool or in two, and no pool is filled to the last index. -/
theorem mirrors_iff (hrun : Ingested codec chain db)
    (hall : ∀ entry ∈ chain.log, db.hasEvent entry.id = true) (hlimit : 0 < limit)
    (hdone : (processEvents codec limit db).2 = db) :
    Mirrors chain db ↔ Distinct chain.log ∧ ∀ source ∈ chain.sources, source.2.commitments.length < 2 ^ 32 := by
  constructor
  · intro h
    exact ⟨⟨h.commitments_distinct, h.nullifiers_distinct⟩, fun _ => h.length_lt⟩
  · rintro ⟨hdistinct, hlength⟩
    have h := hrun.mirrored
    have hstored : storedEntries chain db = chain.log := filter_eq_self.mpr hall
    have hprocessed : ∀ entry ∈ chain.log,
        db.hasEvent entry.id = true ∧ db.unprocessed entry.id = false := by
      intro entry hentry
      refine ⟨hall entry hentry, ?_⟩
      apply h.all_processed hlimit hdone
      · rwa [hstored]
      · rwa [hstored]
    constructor
    · exact fun source hsource => h.leaves_ordered hsource hprocessed (hlength source hsource)
    · exact fun source hsource => h.nullifiers_perm hsource hprocessed hdistinct
    · intro row hrow
      obtain ⟨entry, hentry, hknown, event, hsome, n, rfl⟩ := h.nullifiers row hrow
      obtain ⟨source, hsource, hid⟩ := chain.known entry hentry
      refine ⟨source, hsource, ?_⟩
      rw [nullifierRow, nullifier?_id entry event hsome, h.attributed hentry hknown, hid]

end Mirrors

/-! A pool with one deposit, alone and beside another one with the same deposit. -/

section Sample
variable (outputs : Fin 2 → Bytes)

noncomputable def outputsState : State :=
  sampleStart.invoke sampleHost sampleContext (.transact (outputsTransaction outputs))

theorem outputsState_accepted : (outputsState outputs).accepted = [outputsTransaction outputs] := by
  obtain ⟨l, h⟩ := outputs_accepted outputs
  rw [outputsState, State.invoke_transact h]
  rfl

theorem outputs_reachable : Reachable sampleHost System.sampleConfig (outputsState outputs) :=
  ⟨sampleStart, sample_deployed, .single (.call _ _ (by decide))⟩

def outputsPublished : List Published :=
  [.newNullifier 41, .newNullifier 42, .newCommitment 61 0 (outputs ⟨0, Nat.zero_lt_two⟩),
    .newCommitment 62 1 (outputs ⟨1, Nat.one_lt_two⟩)]

theorem outputs_published : (Source.pool (outputsState outputs)).published = outputsPublished outputs := by
  have hfirst : sampleWitness.inputNullifier 0 = 41 := (sample_slots 0).1
  have hsecond : sampleWitness.inputNullifier 1 = 42 := (sample_slots 1).1
  have hproof : (outputsTransaction outputs).proof.inputNullifiers = [41, 42] ∧
      (outputsTransaction outputs).proof.outputCommitment0 = 61 ∧
      (outputsTransaction outputs).proof.outputCommitment1 = 62 := by
    simp only [outputsTransaction, sampleTransaction, proofOf, hfirst, hsecond,
      sample_commitments.1, sample_commitments.2]
    decide
  rw [Source.published, ((outputs_reachable outputs).recorded sample_chain).events, outputsState_accepted]
  simp only [events, txEvents, zipIdx_cons, zipIdx_nil, flatMap_cons,
    flatMap_nil, hproof.1, hproof.2.1, hproof.2.2]
  rfl

def outputsEntries (address : String) : List Entry :=
  [⟨address ++ "0", 1, address, .newNullifier 41⟩, ⟨address ++ "1", 1, address, .newNullifier 42⟩,
    ⟨address ++ "2", 1, address, .newCommitment 61 0 (outputs ⟨0, Nat.zero_lt_two⟩)⟩,
    ⟨address ++ "3", 1, address, .newCommitment 62 1 (outputs ⟨1, Nat.one_lt_two⟩)⟩]

theorem outputsEntries_contract {address : String}
    (h : entry ∈ outputsEntries outputs address) : entry.contractId = address := by
  simp only [outputsEntries, mem_cons, not_mem_nil, or_false] at h
  rcases h with rfl | rfl | rfl | rfl <;> rfl

theorem outputs_genuine : (Source.pool (outputsState outputs)).Genuine :=
  .pool sample_chain (outputs_reachable outputs)

noncomputable def onePool : Chain where
  sources := [("A", .pool (outputsState outputs))]
  log := outputsEntries outputs "A"
  genuine := by
    intro source hsource
    rw [mem_singleton.mp hsource]
    exact outputs_genuine outputs
  ids := by
    change ["A0", "A1", "A2", "A3"].Nodup
    decide
  emitted := by
    intro source hsource
    rw [mem_singleton.mp hsource, outputs_published]
    rfl
  known := by
    intro entry hentry
    exact ⟨_, mem_singleton.mpr rfl, (outputsEntries_contract outputs hentry).symm⟩

noncomputable def twoPools : Chain where
  sources := [("A", .pool (outputsState outputs)), ("B", .pool (outputsState outputs))]
  log := outputsEntries outputs "A" ++ outputsEntries outputs "B"
  genuine := by
    intro source hsource
    simp only [mem_cons, not_mem_nil, or_false] at hsource
    rcases hsource with rfl | rfl <;> exact outputs_genuine outputs
  ids := by
    change ["A0", "A1", "A2", "A3", "B0", "B1", "B2", "B3"].Nodup
    decide
  emitted := by
    intro source hsource
    simp only [mem_cons, not_mem_nil, or_false] at hsource
    rcases hsource with rfl | rfl <;> rw [outputs_published] <;> rfl
  known := by
    intro entry hentry
    rcases mem_append.mp hentry with hentry | hentry <;> simp [outputsEntries_contract outputs hentry]

noncomputable def unaryCodec : Codec :=
  letI := Encodable.ofCountable ScData
  { toXdrBase64 data := List.replicate (Encodable.encode data) 'A'
    fromXdrBase64 text := Encodable.decode text.length
    scAddress _ := .account []
    accountText _ := []
    contractText _ := []
    fromXdrBase64_toXdrBase64 data := by
      rw [length_replicate]
      exact Encodable.encodek data
    comma_notMem data := by simp
    scAddress_ne_other _ := nofun }

theorem mirrors_one_pool : ∃ db, Ingested unaryCodec (onePool fun _ => []) db ∧ Mirrors (onePool fun _ => []) db := by
  obtain ⟨db, hrun, hall, hdone⟩ := exists_ingested unaryCodec (onePool fun _ => []) 1
  refine ⟨db, hrun, (mirrors_iff hrun hall Nat.one_pos hdone).mpr ⟨⟨?_, ?_⟩, ?_⟩⟩
  · change [(61 : F), 62].Nodup
    decide
  · change [(41 : F), 42].Nodup
    decide
  · intro source hsource
    rw [mem_singleton.mp hsource, Source.commitments, outputsState_accepted]
    decide

/-- The first pool's commitments are kept out by those of the second, which are saved first. -/
theorem two_pools_not_mirrored : ∃ db, Ingested unaryCodec (twoPools fun _ => []) db ∧
    (∀ entry ∈ (twoPools fun _ => []).log, db.hasEvent entry.id = true) ∧
    (processEvents unaryCodec 50 db).2 = db ∧ ¬Mirrors (twoPools fun _ => []) db := by
  obtain ⟨db, hrun, hall, hdone⟩ := exists_ingested unaryCodec (twoPools fun _ => []) 50
  refine ⟨db, hrun, hall, hdone, fun hmirrors => ?_⟩
  have hnodup := hmirrors.commitments_distinct
  change [(61 : F), 62, 61, 62].Nodup at hnodup
  exact absurd hnodup (by decide)

end Sample

end PrivatePayments.Sdk

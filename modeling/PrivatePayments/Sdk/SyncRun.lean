import PrivatePayments.Sdk.Indexer
import PrivatePayments.Sdk.Ingest

/-! Sessions that fetch the events of a chain while the stored ones are processed. -/
namespace PrivatePayments.Sdk
open Contracts Lib List

/-- Ids of events grow with their place on the chain. -/
abbrev Entry.before (a b : Entry) : Prop := a.ledger < b.ledger ∨ a.ledger = b.ledger ∧ a.id < b.id

structure Ordered (chain : Chain) : Prop where
  sorted : chain.log.Pairwise Entry.before
  positive : ∀ entry ∈ chain.log, 0 < entry.ledger

def Chain.feed (chain : Chain) (codec : Codec) (h : Ordered chain) (place : String → Nat) : Feed where
  log := chain.log.map (Entry.contractEvent codec)
  ordered := by
    rw [pairwise_map]
    apply h.sorted.imp
    rintro a b (hlt | ⟨heq, -⟩)
    · exact hlt.le
    · exact heq.le
  ids := by
    rw [map_map]
    exact chain.ids
  positive := by
    intro event hevent
    obtain ⟨entry, hentry, rfl⟩ := mem_map.mp hevent
    exact h.positive entry hentry
  place

/-- Everything that happens to the database besides the sessions. -/
inductive Upkeep (codec : Codec) : Db → Db → Prop where
  | clearIndexingCursors (db : Db) : Upkeep codec db (clearIndexingCursors db).2
  | processEvents (limit : Nat) (db : Db) : Upkeep codec db (processEvents codec limit db).2
  | notes {db : Db} (accounts : Table String Eq) (keypairs : List AccountKeys)
      (userNotes : Table UserNote UserNote.conflict) (accountCommitmentScan : Nat → Nat → Option Nat)
      (nullifierScanState : Nat → Option Nat) :
      Upkeep codec db { db with accounts, keypairs, userNotes, accountCommitmentScan, nullifierScanState }

variable {chain : Chain} {entry entry' : Entry}

section Order

theorem Entry.before.asymm (h : entry.before entry') : ¬entry'.before entry := by
  rintro (hlt | ⟨heq, hlt⟩)
  · rcases h with hlt' | ⟨heq', -⟩
    · exact Nat.lt_asymm hlt hlt'
    · omega
  · rcases h with hlt' | ⟨-, hlt'⟩
    · omega
    · exact String.lt_asymm hlt hlt'

theorem Ordered.mem_take (h : Ordered chain) {n : Nat} (hentry : entry ∈ chain.log)
    (hentry' : entry' ∈ chain.log.take n) (hbefore : entry.before entry') : entry ∈ chain.log.take n := by
  have hsorted := h.sorted
  rw [← take_append_drop n chain.log] at hentry hsorted
  rcases mem_append.mp hentry with htake | hdrop
  · exact htake
  · exact absurd ((pairwise_append.mp hsorted).2.2 entry' hentry' entry hdrop) hbefore.asymm

end Order

variable {codec : Codec}

variable {id : String}

section Batch
variable {db db' : Db} {limit : Nat} {batch : List Entry}

theorem Batch.mem_of_before (hbatch : Batch codec chain db limit batch) (h : Mirrored codec chain db)
    (hentry' : entry' ∈ batch) (hentry : entry ∈ chain.log) (hknown : db.hasEvent entry.id = true)
    (hwaits : db.unprocessed entry.id = true) (hbefore : entry.before entry') : entry ∈ batch := by
  have htotal := before_total
  have htrans := before_trans
  obtain ⟨row, hrow, hid⟩ := hasEvent_iff.mp hknown
  obtain ⟨entry₁, hentry₁, hid₁, hledger, haddress, -⟩ := h.events row hrow
  obtain rfl : entry₁ = entry := chain.entry_eq hentry₁ hentry (hid₁.symm.trans hid)
  have hsorted := pairwise_insertionSort (fun a b : RawContractEvent × String => a.1.before b.1) (pendingRows db)
  have hpending : (row, entry₁.contractId) ∈ (pendingRows db).insertionSort fun a b => a.1.before b.1 := by
    rw [mem_insertionSort, mem_pendingRows]
    exact ⟨hrow, haddress, hid ▸ hwaits⟩
  have hevents := hbatch.events
  change (((pendingRows db).insertionSort fun a b => a.1.before b.1).take limit).map _ = _ at hevents
  generalize (pendingRows db).insertionSort (fun a b => a.1.before b.1) = sorted at *
  have hother : entry'.contractEvent codec ∈ batch.map (Entry.contractEvent codec) := mem_map_of_mem hentry'
  rw [← hevents, mem_map] at hother
  obtain ⟨pair, hpair, heq⟩ := hother
  have hpairid : pair.1.id = entry'.id := congrArg ContractEvent.id heq
  have hpairledger : pair.1.ledger = entry'.ledger := congrArg ContractEvent.ledger heq
  -- A row outside the batch would come after every row of it.
  have hfirst : (row, entry₁.contractId) ∈ sorted.take limit := by
    rw [← take_append_drop limit sorted] at hpending hsorted
    rcases mem_append.mp hpending with htake | hdrop
    · exact htake
    · exfalso
      have hafter := (pairwise_append.mp hsorted).2.2 pair hpair _ hdrop
      simp only [RawContractEvent.before, hpairid, hpairledger, hledger, hid₁] at hafter
      rcases hafter with hlt | ⟨heq', hle⟩ <;> rcases hbefore with hlt' | ⟨heq'', hlt'⟩
      · omega
      · omega
      · omega
      · exact String.not_le.mpr hlt' hle
  have hmem := mem_map_of_mem (f := fun entry : RawContractEvent × String =>
    ({ id := entry.1.id, ledger := entry.1.ledger, contractId := entry.2,
       topics := splitTopics entry.1.topics, value := entry.1.value } : ContractEvent)) hfirst
  rw [hevents, mem_map] at hmem
  obtain ⟨found, hfound, hsame⟩ := hmem
  have hfoundid : found.id = row.id := congrArg ContractEvent.id hsame
  rwa [← chain.entry_eq (hbatch.logged found hfound) hentry (hfoundid.trans hid)]

theorem Stored.processed_or_mem (hstored : Stored codec batch db db')
    (hprocessed : db'.unprocessed id = false) : db.unprocessed id = false ∨ ∃ entry ∈ batch, entry.id = id := by
  refine (Saved.processed_or_mem hstored hprocessed).imp_right ?_
  rintro ⟨event, hevent, hid⟩
  obtain ⟨entry, hentry, rfl⟩ := mem_map.mp hevent
  rw [id?_processed] at hid
  exact ⟨entry, mem_reverse.mp hentry, Option.some.inj hid⟩

theorem Stored.unprocessed_mono (hstored : Stored codec batch db db')
    (hprocessed : db.unprocessed id = false) : db'.unprocessed id = false := by
  rw [← Bool.not_eq_true, unprocessed_iff] at hprocessed ⊢
  rw [hstored.commitments, hstored.publicKeys, hstored.leaves, hstored.nullifiers]
  rintro ⟨hcommitments, hpublicKeys, hleaves, hnullifiers⟩
  exact hprocessed ⟨fun row hrow => hcommitments row (prefix_insertAll.subset hrow),
    fun row hrow => hpublicKeys row (prefix_insertAll.subset hrow),
    fun row hrow => hleaves row (prefix_insertAll.subset hrow),
    fun row hrow => hnullifiers row (prefix_insertAll.subset hrow)⟩

theorem Mirrored.hasEvent_of_processed (h : Mirrored codec chain db)
    (hprocessed : db.unprocessed id = false) : db.hasEvent id = true := by
  by_contra hunknown
  rw [← Bool.not_eq_true, unprocessed_iff] at hprocessed
  apply hprocessed
  refine ⟨fun row hrow hid => ?_, fun row hrow hid => ?_, fun row hrow hid => ?_, fun row hrow hid => ?_⟩
  · exact hunknown (hid ▸ h.commitments.hasEvent commitment?_id (fun _ _ => rfl) hrow)
  · exact hunknown (hid ▸ h.publicKeys.hasEvent publicKey?_id (fun _ _ => rfl) hrow)
  · exact hunknown (hid ▸ h.leaves.hasEvent leafAdded?_id (fun _ _ => rfl) hrow)
  · exact hunknown (hid ▸ h.nullifiers.hasEvent nullifier?_id (fun _ _ => rfl) hrow)

end Batch

/-- Of the contracts `ids`, from the ledger `base` on, the events are stored from the oldest on, and
those that get a row of their own are processed from the oldest on. -/
structure InOrder (chain : Chain) (ids : List String) (base : Nat) (db : Db) : Prop where
  stored : ∀ entry ∈ chain.log, ∀ entry' ∈ chain.log, entry.before entry' → entry.contractId ∈ ids →
    entry'.contractId ∈ ids → base ≤ entry.ledger → db.hasEvent entry'.id = true →
    db.hasEvent entry.id = true
  processed : ∀ entry ∈ chain.log, ∀ entry' ∈ chain.log, entry.before entry' → entry.contractId ∈ ids →
    entry'.contractId ∈ ids → base ≤ entry.ledger → entry.event.selfKeyed = true →
    db.unprocessed entry'.id = false → db.unprocessed entry.id = false

structure Synced (codec : Codec) (chain : Chain) (feed : Feed) (indexer : Indexer) (db : Db) : Prop where
  mirrored : Mirrored codec chain db
  indexed : Indexed feed (fun _ => indexer.contractIds) indexer.minPoolLedger db
  inOrder : InOrder chain indexer.contractIds indexer.minPoolLedger db

variable {indexer : Indexer}

section Keep
variable {ids : List String} {base limit : Nat} {db db' : Db}

theorem InOrder.processEvents (h : InOrder chain ids base db) (hmirrored : Mirrored codec chain db) :
    InOrder chain ids base (processEvents codec limit db).2 := by
  obtain ⟨batch, db', hbatch, hresult, hstored⟩ := hmirrored.processes limit
  rw [hresult]
  have hevents : db'.rawContractEvents = db.rawContractEvents := by
    obtain ⟨_, _, _, _, rfl⟩ := hstored.frame
    rfl
  have hhas : ∀ id, db'.hasEvent id = db.hasEvent id := fun id => by
    rw [Db.hasEvent, Db.hasEvent, hevents]
  constructor
  · intro entry hentry entry' hentry' hbefore hid hid' hbase
    rw [hhas, hhas]
    exact h.stored entry hentry entry' hentry' hbefore hid hid' hbase
  · intro entry hentry entry' hentry' hbefore hid hid' hbase hkeyed hprocessed'
    have hknown' : db.hasEvent entry'.id = true := by
      rw [← hhas]
      exact (hmirrored.stored hbatch hstored).hasEvent_of_processed hprocessed'
    by_cases hwaits : db.unprocessed entry.id = true
    · rcases hstored.processed_or_mem hprocessed' with hold | ⟨found, hfound, hsame⟩
      · have hdone := h.processed entry hentry entry' hentry' hbefore hid hid' hbase hkeyed hold
        rw [hwaits] at hdone
        cases hdone
      · obtain rfl : found = entry' := chain.entry_eq (hbatch.logged found hfound) hentry' hsame
        have hknown := h.stored entry hentry found hentry' hbefore hid hid' hbase hknown'
        have hmem := hbatch.mem_of_before hmirrored hfound hentry hknown hwaits hbefore
        exact hmirrored.processed_of_selfKeyed hbatch hstored hmem hkeyed
    · exact hstored.unprocessed_mono (by simpa using hwaits)

theorem InOrder.of_tables (h : InOrder chain ids base db) (hevents : db'.rawContractEvents = db.rawContractEvents)
    (hprocessed : ∀ id, db'.unprocessed id = db.unprocessed id) : InOrder chain ids base db' := by
  constructor
  · intro entry hentry entry' hentry'
    rw [Db.hasEvent, Db.hasEvent, hevents]
    exact h.stored entry hentry entry' hentry'
  · intro entry hentry entry' hentry'
    rw [hprocessed, hprocessed]
    exact h.processed entry hentry entry' hentry'

theorem Mirrored.of_contracts (h : Mirrored codec chain db) (hgrown : db.contracts.rows <+: db'.contracts.rows)
    (hsame : ∃ contracts indexingMetadata, db' = { db with contracts, indexingMetadata }) :
    Mirrored codec chain db' := by
  obtain ⟨contracts, indexingMetadata, rfl⟩ := hsame
  refine ⟨fun row hrow => ?_, h.nullifiers, h.commitments, h.publicKeys, h.leaves⟩
  obtain ⟨entry, hentry, hid, hledger, haddress, hrest⟩ := h.events row hrow
  exact ⟨entry, hentry, hid, hledger, getElem?_of_isPrefix hgrown haddress, hrest⟩

theorem hasEvent_saveEvents_or {events : List ContractEvent}
    (h : (saveEventsBatch events db).2.hasEvent id = true) :
    db.hasEvent id = true ∨ ∃ event ∈ events, event.id = id := by
  revert h
  apply saveEventsBatch_keeps (I := fun d => d.hasEvent id = true →
    db.hasEvent id = true ∨ ∃ event ∈ events, event.id = id)
  · intro d event hevent ih hknown
    obtain ⟨row, hrow, hid⟩ := hasEvent_iff.mp hknown
    rcases saveEvent_rows d event with ⟨hrows, -⟩ | ⟨-, hrows⟩
    · exact ih (hasEvent_iff.mpr ⟨row, hrows ▸ hrow, hid⟩)
    · rw [hrows, mem_append, mem_singleton] at hrow
      rcases hrow with hold | rfl
      · exact ih (hasEvent_iff.mpr ⟨row, hold, hid⟩)
      · exact .inr ⟨event, hevent, hid⟩
  · exact .inl

theorem unprocessed_saveEvents (events : List ContractEvent) (id : String) :
    (saveEventsBatch events db).2.unprocessed id = db.unprocessed id := by
  apply saveEventsBatch_keeps (I := fun d => d.unprocessed id = db.unprocessed id)
  · intro d event _ ih
    exact ih
  · rfl

theorem saveSyncProgress_frame (metadata : List SyncMetadata) (fullyIndexed : Bool) (db : Db) :
    db.contracts.rows <+: (saveSyncProgress metadata fullyIndexed db).2.contracts.rows ∧
      ∃ contracts indexingMetadata,
        (saveSyncProgress metadata fullyIndexed db).2 = { db with contracts, indexingMetadata } := by
  apply saveSyncProgress_keeps (I := fun d => db.contracts.rows <+: d.contracts.rows ∧
    ∃ contracts indexingMetadata, d = { db with contracts, indexingMetadata })
  · rintro d entry - ⟨hgrown, _, _, rfl⟩
    exact ⟨hgrown.trans (Table.prefix_insertOrIgnore _ _), _, _, rfl⟩
  · exact ⟨prefix_refl _, _, _, rfl⟩

variable {hordered : Ordered chain} {place : String → Nat}

variable {start : EventStart} {answer : Page}

theorem Feed.Answers.entries
    (h : (chain.feed codec hordered place).Answers ids start answer) :
    ∃ entries : List Entry, answer.events = entries.map (Entry.contractEvent codec) ∧
      ∀ entry ∈ entries, entry ∈ chain.log.take (place answer.cursor) := by
  refine ⟨((chain.log.take (place answer.cursor)).drop
    ((chain.feed codec hordered place).startPlace start)).filter fun entry => ids.contains entry.contractId,
    ?_, fun entry hentry => mem_of_mem_drop (mem_of_mem_filter hentry)⟩
  rw [h.events, Chain.feed, ← map_take, ← map_drop, filter_map]
  rfl

theorem InOrder.saveEvents (h : InOrder chain ids base db)
    (hanswers : (chain.feed codec hordered place).Answers ids start answer)
    (hreached : (chain.feed codec hordered place).Reached ids base db
      ((chain.feed codec hordered place).startPlace start)) :
    InOrder chain ids base (saveEventsBatch answer.events db).2 := by
  have hgrown := (saveEventsBatch_isPrefix answer.events db).2.1
  have hpage := hanswers.reached (hreached.mono hgrown) fun event hevent => hasEvent_saveEvents hevent db
  constructor
  · intro entry hentry entry' hentry' hbefore hid hid' hbase hknown'
    rcases hasEvent_saveEvents_or hknown' with hold | ⟨event, hevent, hsame⟩
    · exact hasEvent_of_isPrefix hgrown (h.stored entry hentry entry' hentry' hbefore hid hid' hbase hold)
    · obtain ⟨entries, heq, hentries⟩ := hanswers.entries
      rw [heq, mem_map] at hevent
      obtain ⟨found, hfound, rfl⟩ := hevent
      have hearly := hentries found hfound
      obtain rfl : found = entry' := chain.entry_eq (mem_of_mem_take hearly) hentry' hsame
      have htake := hordered.mem_take hentry hearly hbefore
      apply hpage (entry.contractEvent codec) _ hid hbase
      rw [Chain.feed, ← map_take]
      exact mem_map_of_mem htake
  · intro entry hentry entry' hentry'
    rw [unprocessed_saveEvents, unprocessed_saveEvents]
    exact h.processed entry hentry entry' hentry'

theorem synced_fresh (codec : Codec) (chain : Chain) (feed : Feed) (indexer : Indexer) :
    Synced codec chain feed indexer Db.fresh :=
  ⟨mirrored_fresh codec chain, indexed_fresh _ _ _, nofun, nofun⟩

theorem Synced.step {phase phase' : Phase} (h : Synced codec chain (chain.feed codec hordered place) indexer db)
    (hplaced : Placed (chain.feed codec hordered place) indexer indexer.minPoolLedger db phase)
    (hstep : Step (chain.feed codec hordered place) indexer (db, phase) (db', phase')) :
    Synced codec chain (chain.feed codec hordered place) indexer db' := by
  have hindexed := (hstep.keeps (fun _ _ => List.Subset.refl _) h.indexed hplaced
    fun networkTip _ _ => h.indexed.resume networkTip).1
  cases hstep with
  | getLatestLedger => exact h
  | getSyncState => exact h
  | getContractEvents => exact h
  | rpcAhead => exact h
  | saveEvents startLedger page mayHaveMore answer =>
    obtain ⟨start, hanswers, hreached⟩ := hplaced
    refine ⟨?_, hindexed, h.inOrder.saveEvents hanswers hreached⟩
    obtain ⟨entries, heq, hentries⟩ := hanswers.entries
    rw [heq]
    exact h.mirrored.saveEvents fun entry hentry => mem_of_mem_take (hentries entry hentry)
  | saveProgress startLedger page mayHaveMore answer =>
    obtain ⟨hgrown, hframe⟩ := saveSyncProgress_frame (indexer.progress answer) answer.events.isEmpty db
    refine ⟨h.mirrored.of_contracts hgrown hframe, hindexed, ?_⟩
    obtain ⟨_, _, heq⟩ := hframe
    rw [heq]
    exact h.inOrder.of_tables rfl fun _ => rfl
  | fail => exact h

theorem Synced.upkeep {feed : Feed} (h : Synced codec chain feed indexer db) (hupkeep : Upkeep codec db db') :
    Synced codec chain feed indexer db' ∧ db.rawContractEvents.rows <+: db'.rawContractEvents.rows := by
  cases hupkeep with
  | clearIndexingCursors =>
    refine ⟨⟨?_, h.indexed.clear, h.inOrder.of_tables rfl fun _ => rfl⟩, prefix_refl _⟩
    exact h.mirrored.of_contracts (prefix_refl _) ⟨_, _, rfl⟩
  | processEvents limit =>
    have hmirrored := h.mirrored.processEvents limit
    have hinOrder := @InOrder.processEvents _ _ _ _ limit _ h.inOrder h.mirrored
    obtain ⟨batch, db', -, hresult, hstored⟩ := h.mirrored.processes limit
    rw [hresult] at hmirrored hinOrder ⊢
    obtain ⟨_, _, _, _, rfl⟩ := hstored.frame
    exact ⟨⟨hmirrored, h.indexed.of_isPrefix (prefix_refl _) (prefix_refl _) rfl, hinOrder⟩,
      prefix_refl _⟩
  | notes accounts keypairs userNotes accountCommitmentScan nullifierScanState =>
    refine ⟨⟨?_, ?_, h.inOrder.of_tables rfl fun _ => rfl⟩, prefix_refl _⟩
    · exact ⟨h.mirrored.events, h.mirrored.nullifiers, h.mirrored.commitments, h.mirrored.publicKeys, h.mirrored.leaves⟩
    · exact h.indexed.of_isPrefix (prefix_refl _) (prefix_refl _) rfl

end Keep

def SyncRun (codec : Codec) (feed : Feed) (indexer : Indexer) (db : Db) : Prop :=
  ∃ phases : Nat → Phase, Relation.ReflTransGen
    (Interleave (fun _ => Step feed indexer) (Upkeep codec)) (Db.fresh, fun _ => .ready none) (db, phases)

theorem SyncRun.synced {codec : Codec} {chain : Chain} {hordered : Ordered chain} {place : String → Nat}
    {indexer : Indexer} {db : Db} (hrun : SyncRun codec (chain.feed codec hordered place) indexer db) :
    Synced codec chain (chain.feed codec hordered place) indexer db := by
  obtain ⟨phases, hrun⟩ := hrun
  have hinvariant := Interleave.invariant (I := Synced codec chain (chain.feed codec hordered place) indexer)
    (L := fun _ => Placed (chain.feed codec hordered place) indexer indexer.minPoolLedger)
    (G := fun db db' => db.rawContractEvents.rows <+: db'.rawContractEvents.rows)
    (fun _ _ _ _ _ hI hL hstep => ⟨hI.step hL hstep, (hstep.keeps (fun _ _ => List.Subset.refl _)
      hI.indexed hL fun networkTip _ _ => hI.indexed.resume networkTip).2⟩)
    (fun _ _ hI henvironment => hI.upkeep henvironment) (fun _ _ _ _ hgrows hL => hL.mono hgrows)
    hrun (synced_fresh _ _ _ _) fun _ => trivial
  exact hinvariant.1

section Reach
variable {feed : Feed} {db db' : Db}

theorem SyncRun.processed {limit : Nat} (h : SyncRun codec feed indexer db)
    (hrun : Relation.ReflTransGen (fun d d' => d' = (processEvents codec limit d).2) db db') :
    SyncRun codec feed indexer db' := by
  refine settles (fun d ⟨phases, hd⟩ => ?_) h hrun
  exact ⟨phases, hd.tail (.environment (.processEvents limit d))⟩

/-- The contracts, and no others, count as indexed up to a ledger. -/
structure AllIndexed (indexer : Indexer) (latest : Nat) (db : Db) : Prop where
  known : ∀ address ∈ indexer.contractIds, ∃ row, db.metadata? address = some row
  latest : ∀ address row, db.metadata? address = some row →
    row.lastIndexedLedger = latest ∧ row.lastFullyIndexedLedger = latest

theorem exists_allStored (codec : Codec) (indexer : Indexer) (hordered : Ordered chain) (hne : chain.log ≠ [])
    (hids : ∀ entry ∈ chain.log, entry.contractId ∈ indexer.contractIds)
    (hbase : ∀ entry ∈ chain.log, indexer.minPoolLedger ≤ entry.ledger) (latest : Nat) :
    ∃ place db, SyncRun codec (chain.feed codec hordered place) indexer db ∧
      (∀ entry ∈ chain.log, db.hasEvent entry.id = true) ∧ (∀ id, db.unprocessed id = true) ∧
      AllIndexed indexer latest db := by
  let feed := chain.feed codec hordered fun _ => chain.log.length
  let events := chain.log.map (Entry.contractEvent codec)
  let first : Page := ⟨"end", events, latest⟩
  let empty : Page := ⟨"end", [], latest⟩
  let start := indexer.startLedger [] latest
  have hcontracts : ∀ event ∈ events, indexer.contractIds.contains event.contractId = true := by
    intro event hevent
    obtain ⟨entry, hentry, rfl⟩ := mem_map.mp hevent
    exact contains_iff_mem.mpr (hids entry hentry)
  have hstart : feed.startPlace (.ledger start) = 0 := by
    have hle : start ≤ indexer.minPoolLedger := startLedger_nil latest
    change (events.takeWhile fun event => decide (event.ledger < start)).length = 0
    rw [length_eq_zero_iff, eq_nil_iff_forall_not_mem]
    intro event hevent
    have hlt := of_decide_eq_true (all_eq_true.mp all_takeWhile event hevent)
    obtain ⟨entry, hentry, rfl⟩ := mem_map.mp (( takeWhile_prefix _).subset hevent)
    exact absurd hlt (Nat.not_lt.mpr (hle.trans (hbase entry hentry)))
  have hfirst : feed.Answers indexer.contractIds (Indexer.eventStart start none) first := by
    constructor
    · change events = ((events.take chain.log.length).drop (feed.startPlace (.ledger start))).filter _
      rw [hstart, drop_zero, take_of_length_le (by simp [events])]
      exact (filter_eq_self.mpr hcontracts).symm
    · intro hnil
      exact absurd (map_eq_nil_iff.mp hnil) hne
  have hempty : feed.Answers indexer.contractIds (Indexer.eventStart start (some "end")) empty := by
    have hdrop : events.drop chain.log.length = [] := drop_of_length_le (by simp [events])
    constructor
    · change [] = ((events.take chain.log.length).drop chain.log.length).filter _
      rw [drop_take, hdrop]
      simp
    · intro _ event hevent
      change event ∈ events.drop chain.log.length at hevent
      rw [hdrop] at hevent
      cases hevent
  let stored := (saveEventsBatch events Db.fresh).2
  let noted := (saveSyncProgress (indexer.progress first) false stored).2
  have hsome : first.events.isEmpty = false := by
    rw [isEmpty_eq_false_iff]
    exact fun hnil => hne (map_eq_nil_iff.mp hnil)
  have hpage : Relation.ReflTransGen (Step feed indexer) (Db.fresh, .ready none)
      (noted, .paging start (some "end") 1 true) := by
    have hsaved : Step feed indexer (stored, .saved start 0 false first)
        (noted, .paging start (some "end") 1 true) := by
      have hstep := @Step.saveProgress feed indexer stored start 0 false first
      rw [Phase.next, hsome] at hstep
      exact hstep
    exact .tail (.tail (.tail (.tail (.single (.getLatestLedger none latest)) (.getSyncState latest))
      (.getContractEvents start none 0 false first hfirst)) (.saveEvents start 0 false first)) hsaved
  have hrun : Relation.ReflTransGen (Step feed indexer) (Db.fresh, .ready none)
      ((saveSyncProgress (indexer.progress empty) true noted).2, .ready (some (.ok true))) :=
    .tail (.tail (.tail hpage (.getContractEvents start (some "end") 1 true empty hempty))
      (.saveEvents start 1 true empty)) (.saveProgress start 1 true empty)
  have hinterleaved := @Interleave.solo Nat Db Phase _ (fun _ => Step feed indexer) (Upkeep codec) 0
    (fun _ => .ready none) _ _ _ hrun
  obtain ⟨-, _, _, hframe⟩ := saveSyncProgress_frame (indexer.progress empty) true noted
  obtain ⟨-, _, _, hframe'⟩ := saveSyncProgress_frame (indexer.progress first) false stored
  refine ⟨_, _, ⟨_, hinterleaved⟩, fun entry hentry => ?_, fun id => ?_, ?_⟩
  · rw [hframe, show noted = _ from hframe']
    exact hasEvent_saveEvents (mem_map_of_mem hentry) Db.fresh
  · rw [hframe, show noted = _ from hframe']
    exact unprocessed_saveEvents events id
  · have hstored : Registered stored := registered_fresh.of_isPrefix (saveEventsBatch_isPrefix events Db.fresh).1
        (saveEventsBatch_isPrefix events Db.fresh).2.2
    have hregistered : Registered noted := saveSyncProgress_keeps (fun _ _ _ hdb => hdb.saveSyncEntry _ _) hstored
    have hsame : ∀ entry ∈ indexer.progress empty, entry.lastIndexedLedger = latest := by
      intro entry hentry
      obtain ⟨_, -, rfl⟩ := mem_map.mp hentry
      rfl
    have hmap : ∀ page, (indexer.progress page).map SyncMetadata.contractId = indexer.contractIds := by
      intro page
      rw [Indexer.progress, map_map]
      exact map_id _
    have hrow : ∀ address ∈ indexer.contractIds, ∃ row,
        (saveSyncProgress (indexer.progress empty) true noted).2.metadata? address = some row ∧
          row.lastIndexedLedger = latest ∧ row.lastFullyIndexedLedger = latest :=
      fun address haddress => metadata?_saveSyncProgress hregistered hsame (hmap empty ▸ haddress)
    constructor
    · intro address haddress
      obtain ⟨row, hrow, -⟩ := hrow address haddress
      exact ⟨row, hrow⟩
    · intro address row hsome
      by_cases haddress : address ∈ indexer.contractIds
      · obtain ⟨row', hrow', hlatest⟩ := hrow address haddress
        rw [Option.some.inj (hsome.symm.trans hrow')]
        exact hlatest
      · rw [metadata?_saveSyncProgress_of_notMem hregistered (by rwa [hmap]),
          metadata?_saveSyncProgress_of_notMem hstored (by rwa [hmap])] at hsome
        cases (metadata?_of_isPrefix registered_fresh (saveEventsBatch_isPrefix events Db.fresh).1
          (saveEventsBatch_isPrefix events Db.fresh).2.2 address).symm.trans hsome

theorem exists_allProcessed (codec : Codec) (indexer : Indexer) (hordered : Ordered chain) (hne : chain.log ≠ [])
    (hids : ∀ entry ∈ chain.log, entry.contractId ∈ indexer.contractIds)
    (hbase : ∀ entry ∈ chain.log, indexer.minPoolLedger ≤ entry.ledger)
    (hdistinct : Distinct chain.log) (latest : Nat) :
    ∃ place db, SyncRun codec (chain.feed codec hordered place) indexer db ∧
      (∀ entry ∈ chain.log, db.unprocessed entry.id = false) ∧ AllIndexed indexer latest db := by
  obtain ⟨place, db, hrun, hall, -, hindexed⟩ := exists_allStored codec indexer hordered hne hids hbase latest
  obtain ⟨db', hsteps, ⟨_, _, _, _, hframe⟩, hdone⟩ := hrun.synced.mirrored.exists_settled 1
  have hrun' := hrun.processed hsteps
  refine ⟨place, db', hrun', fun entry hentry => ?_, ?_⟩
  · have hstored : storedEntries chain db' = chain.log := by
      rw [hframe]
      exact filter_eq_self.mpr hall
    apply hrun'.synced.mirrored.all_processed Nat.one_pos hdone
    · rwa [hstored]
    · rwa [hstored]
  · rw [hframe]
    exact ⟨hindexed.known, hindexed.latest⟩

end Reach

end PrivatePayments.Sdk

import PrivatePayments.Lib.Interleave
import PrivatePayments.Sdk.Sync

/-! `stellar/src/indexer.rs`: rounds that fetch pages of events into the database.
`getEvents` is not part of the repository; `Feed` says what it answers. -/
namespace PrivatePayments.Sdk
open Lib List Relation

structure PoolConfigEntry where
  poolContractId : String
  deploymentLedger : Nat
  enabled : Bool
deriving DecidableEq

structure ContractConfig where
  aspMembership : String
  publicKeyRegistry : String
  pools : List PoolConfigEntry
deriving DecidableEq

namespace ContractConfig

def enabledPools (config : ContractConfig) : List PoolConfigEntry := config.pools.filter (·.enabled)

def allContractIds (config : ContractConfig) : List String :=
  config.enabledPools.map (·.poolContractId) ++ [config.aspMembership, config.publicKeyRegistry]

def minDeploymentLedger (config : ContractConfig) : Option Nat :=
  (config.enabledPools.map (·.deploymentLedger)).min?

end ContractConfig

inductive RpcError where
  | syncGap (oldest : Nat)
  | ahead (newest : Nat)
  | other
deriving DecidableEq

inductive IndexerError where
  | noPoolEnabled
  | rpc (e : RpcError)
  | noCursor
  | storage
deriving DecidableEq

inductive EventStart where
  | ledger (l : Nat)
  | cursor (c : String)
deriving DecidableEq

structure Page where
  cursor : String
  events : List ContractEvent
  latestLedger : Nat

structure Indexer where
  contractIds : List String
  minPoolLedger : Nat
deriving DecidableEq

namespace Indexer

def activeSync (contractIds : List String) (existingSync : List SyncMetadata) : List SyncMetadata :=
  existingSync.filter fun sync => contractIds.contains sync.contractId

/-- `probe` is what the RPC node says to a request for one event from that ledger on. -/
def init (config : ContractConfig) (existingSync : List SyncMetadata)
    (probe : List String → Nat → Except RpcError Unit) : Except IndexerError Indexer :=
  match config.minDeploymentLedger with
  | none => .error .noPoolEnabled
  | some minPoolLedger =>
    let contractIds := config.allContractIds
    let probeLedger := (((activeSync contractIds existingSync).map (·.lastIndexedLedger)).filter
      fun ledger => decide (0 < ledger)).min?.getD minPoolLedger
    match probe contractIds probeLedger with
    | .ok _ | .error (.ahead _) => .ok { contractIds, minPoolLedger }
    | .error e => .error (.rpc e)

def startLedger (indexer : Indexer) (active : List SyncMetadata) (networkTip : Nat) : Nat :=
  min ((active.map (·.lastIndexedLedger)).min?.getD indexer.minPoolLedger) networkTip

def cursor? (sync : SyncMetadata) : Option String := if sync.cursor = "" then none else some sync.cursor

def resumeCursor (active : List SyncMetadata) : Option String :=
  if (active.filterMap cursor?).dedup.length ≤ 1 then active.head?.bind cursor? else none

def eventStart (startLedger : Nat) : Option String → EventStart
  | some cursor => .cursor cursor
  | none => .ledger startLedger

def progressLedger (answer : Page) : Nat :=
  if answer.events.isEmpty then answer.latestLedger
  else (answer.events.map (·.ledger)).max?.getD answer.latestLedger

def progress (indexer : Indexer) (answer : Page) : List SyncMetadata :=
  indexer.contractIds.map fun contractId =>
    { contractId
      cursor := answer.cursor
      lastIndexedLedger := progressLedger answer
      lastFullyIndexedLedger := 0 }

end Indexer

def maxPagesPerRound : Nat := 10

/-- Where a session stands: between two rounds, with what the last one returned, or between
two awaits of `fetch_contract_events_round`. -/
inductive Phase where
  | ready (last : Option (Except IndexerError Bool))
  | tipKnown (networkTip : Nat)
  | paging (startLedger : Nat) (cursor : Option String) (page : Nat) (mayHaveMore : Bool)
  | fetched (startLedger page : Nat) (mayHaveMore : Bool) (answer : Page)
  | saved (startLedger page : Nat) (mayHaveMore : Bool) (answer : Page)

namespace Phase

def resume (indexer : Indexer) (networkTip : Nat) (existingSync : List SyncMetadata) : Phase :=
  let active := Indexer.activeSync indexer.contractIds existingSync
  .paging (indexer.startLedger active networkTip) (Indexer.resumeCursor active) 0 false

def next (startLedger page : Nat) (mayHaveMore : Bool) (answer : Page) : Phase :=
  if answer.events.isEmpty then .ready (some (.ok mayHaveMore))
  else if page + 1 < maxPagesPerRound then .paging startLedger (some answer.cursor) (page + 1) true
  else .ready (some (.ok true))

end Phase

/-- The events of the chain in their order, ledgers numbered from one, and how many of them
lie before a cursor. -/
structure Feed where
  log : List ContractEvent
  ordered : log.Pairwise fun a b => a.ledger ≤ b.ledger
  ids : (log.map ContractEvent.id).Nodup
  positive : ∀ event ∈ log, 0 < event.ledger
  place : String → Nat

namespace Feed

def startPlace (feed : Feed) : EventStart → Nat
  | .ledger l => (feed.log.takeWhile fun event => decide (event.ledger < l)).length
  | .cursor c => feed.place c

/-- A page holds the events of the contracts from the start up to the new cursor, and is empty
only if there are none up to the latest ledger of the node. -/
structure Answers (feed : Feed) (contractIds : List String) (start : EventStart) (answer : Page) : Prop where
  events : answer.events =
    ((feed.log.take (feed.place answer.cursor)).drop (feed.startPlace start)).filter
      fun event => contractIds.contains event.contractId
  caughtUp : answer.events = [] → ∀ event ∈ feed.log.drop (feed.startPlace start),
    event.contractId ∈ contractIds → answer.latestLedger < event.ledger

end Feed

inductive Step (feed : Feed) (indexer : Indexer) : Db × Phase → Db × Phase → Prop where
  | getLatestLedger {db : Db} (last : Option (Except IndexerError Bool)) (networkTip : Nat) :
      Step feed indexer (db, .ready last) (db, .tipKnown networkTip)
  | getSyncState {db : Db} (networkTip : Nat) :
      Step feed indexer (db, .tipKnown networkTip)
        (db, .resume indexer networkTip (getSyncMetadata db))
  | getContractEvents {db : Db} (startLedger : Nat) (cursor : Option String) (page : Nat)
      (mayHaveMore : Bool) (answer : Page)
      (h : feed.Answers indexer.contractIds (Indexer.eventStart startLedger cursor) answer) :
      Step feed indexer (db, .paging startLedger cursor page mayHaveMore)
        (db, .fetched startLedger page mayHaveMore answer)
  | rpcAhead {db : Db} (startLedger : Nat) (cursor : Option String) (page : Nat) (mayHaveMore : Bool) :
      Step feed indexer (db, .paging startLedger cursor page mayHaveMore)
        (db, .ready (some (.ok false)))
  | saveEvents {db : Db} (startLedger page : Nat) (mayHaveMore : Bool) (answer : Page) :
      Step feed indexer (db, .fetched startLedger page mayHaveMore answer)
        ((saveEventsBatch answer.events db).2, .saved startLedger page mayHaveMore answer)
  | saveProgress {db : Db} (startLedger page : Nat) (mayHaveMore : Bool) (answer : Page) :
      Step feed indexer (db, .saved startLedger page mayHaveMore answer)
        ((saveSyncProgress (indexer.progress answer) answer.events.isEmpty db).2,
          .next startLedger page mayHaveMore answer)
  | fail {db : Db} (phase : Phase) (e : IndexerError) :
      Step feed indexer (db, phase) (db, .ready (some (.error e)))

variable {feed : Feed} {db db' : Db}

namespace Feed

/-- The events of the contracts before the place, from a ledger on, are stored. -/
def Reached (feed : Feed) (contractIds : List String) (base : Nat) (db : Db) (n : Nat) : Prop :=
  ∀ event ∈ feed.log.take n, event.contractId ∈ contractIds → base ≤ event.ledger →
    db.hasEvent event.id = true

/-- The events of the contracts that a row of `indexing_metadata` claims are stored. -/
structure Covers (feed : Feed) (contractIds : List String) (base : Nat) (db : Db)
    (row : IndexingMetadata) : Prop where
  cursor : ∀ cursor, row.lastCursor = some cursor → feed.Reached contractIds base db (feed.place cursor)
  indexed : ∀ event ∈ feed.log, event.contractId ∈ contractIds → base ≤ event.ledger →
    event.ledger < row.lastIndexedLedger → db.hasEvent event.id = true
  fully : ∀ event ∈ feed.log, event.contractId ∈ contractIds → base ≤ event.ledger →
    event.ledger ≤ row.lastFullyIndexedLedger → db.hasEvent event.id = true

section
variable {contractIds contractIds' : List String} {base base' n : Nat} {row : IndexingMetadata}
  {start : EventStart} {answer : Page} {event : ContractEvent}

theorem Reached.mono (h : feed.Reached contractIds base db n)
    (hevents : db.rawContractEvents.rows <+: db'.rawContractEvents.rows) : feed.Reached contractIds base db' n :=
  fun event hevent hid hbase => hasEvent_of_isPrefix hevents (h event hevent hid hbase)

theorem Covers.mono (h : feed.Covers contractIds base db row)
    (hevents : db.rawContractEvents.rows <+: db'.rawContractEvents.rows) :
    feed.Covers contractIds base db' row where
  cursor cursor hcursor := (h.cursor cursor hcursor).mono hevents
  indexed event hevent hid hbase hle := hasEvent_of_isPrefix hevents (h.indexed event hevent hid hbase hle)
  fully event hevent hid hbase hle := hasEvent_of_isPrefix hevents (h.fully event hevent hid hbase hle)

theorem Covers.restrict (h : feed.Covers contractIds base db row) (hids : contractIds' ⊆ contractIds)
    (hbase : base ≤ base') : feed.Covers contractIds' base' db row where
  cursor cursor hcursor event hevent hid hle :=
    h.cursor cursor hcursor event hevent (hids hid) (hbase.trans hle)
  indexed event hevent hid hle := h.indexed event hevent (hids hid) (hbase.trans hle)
  fully event hevent hid hle := h.fully event hevent (hids hid) (hbase.trans hle)

theorem ledger_lt_of_mem_take {l : Nat} (h : event ∈ feed.log.take (feed.startPlace (.ledger l))) :
    event.ledger < l := by
  rw [startPlace, ← prefix_iff_eq_take.mp <| takeWhile_prefix _] at h
  exact of_decide_eq_true (all_eq_true.mp all_takeWhile event h)

theorem mem_take_of_ledger_lt {last : ContractEvent} (hlast : last ∈ feed.log.take n)
    (hevent : event ∈ feed.log) (hlt : event.ledger < last.ledger) : event ∈ feed.log.take n := by
  have hordered := feed.ordered
  rw [← take_append_drop n feed.log] at hevent hordered
  rcases mem_append.mp hevent with hbefore | hafter
  · exact hbefore
  · have hle := (pairwise_append.mp hordered).2.2 last hlast event hafter
    omega

section
variable (h : feed.Answers contractIds start answer)
include h

theorem Answers.reached (hreached : feed.Reached contractIds base db (feed.startPlace start))
    (hstored : ∀ event ∈ answer.events, db.hasEvent event.id = true) :
    feed.Reached contractIds base db (feed.place answer.cursor) := by
  intro event hevent hid hbase
  rw [← take_append_drop (feed.startPlace start) (feed.log.take _), mem_append] at hevent
  rcases hevent with hbefore | hpage
  · rw [take_take, Nat.min_comm, ← take_take] at hbefore
    exact hreached event (mem_of_mem_take hbefore) hid hbase
  · apply hstored
    rw [h.events, mem_filter]
    exact ⟨hpage, contains_iff_mem.mpr hid⟩

theorem Answers.latest (hempty : answer.events = [])
    (hreached : feed.Reached contractIds base db (feed.startPlace start)) (hevent : event ∈ feed.log)
    (hid : event.contractId ∈ contractIds) (hbase : base ≤ event.ledger)
    (hle : event.ledger ≤ answer.latestLedger) : db.hasEvent event.id = true := by
  rw [← take_append_drop (feed.startPlace start) feed.log, mem_append] at hevent
  rcases hevent with hbefore | hafter
  · exact hreached event hbefore hid hbase
  · have hlt := h.caughtUp hempty event hafter hid
    omega

section
variable (hreached : feed.Reached contractIds base db (feed.startPlace start))
  (hstored : ∀ event ∈ answer.events, db.hasEvent event.id = true)
include hreached hstored

theorem Answers.below
    (hevent : event ∈ feed.log)
    (hid : event.contractId ∈ contractIds) (hbase : base ≤ event.ledger)
    (hlt : event.ledger < Indexer.progressLedger answer) : db.hasEvent event.id = true := by
  unfold Indexer.progressLedger at hlt
  split at hlt
  · rename_i hempty
    exact h.latest (List.isEmpty_iff.mp hempty) hreached hevent hid hbase hlt.le
  · rename_i hsome
    cases hmax : (answer.events.map (·.ledger)).max? with
    | none =>
      rw [max?_eq_none_iff, map_eq_nil_iff] at hmax
      exact absurd (List.isEmpty_iff.mpr hmax) hsome
    | some ledger =>
      rw [hmax, Option.getD_some] at hlt
      obtain ⟨last, hlast, rfl⟩ := mem_map.mp (max?_mem hmax)
      have hpage := hlast
      rw [h.events, mem_filter] at hpage
      have hbefore := mem_take_of_ledger_lt (mem_of_mem_drop hpage.1) hevent hlt
      exact h.reached hreached hstored event hbefore hid hbase

theorem Answers.covers
    (hids : contractIds' ⊆ contractIds)
    {old : Option IndexingMetadata} (hold : ∀ row, old = some row → feed.Covers contractIds' base db row)
    (address : String) :
    feed.Covers contractIds' base db (.advance old
      ⟨address, answer.cursor, Indexer.progressLedger answer, 0⟩ answer.events.isEmpty) where
  cursor := by
    rintro cursor ⟨⟩ event hevent hid
    exact h.reached hreached hstored event hevent (hids hid)
  indexed event hevent hid hbase hlt := h.below hreached hstored hevent (hids hid) hbase hlt
  fully event hevent hid hbase hle := by
    unfold IndexingMetadata.advance Indexer.progressLedger at hle
    cases hempty : answer.events.isEmpty with
    | true =>
      rw [hempty] at hle
      exact h.latest (List.isEmpty_iff.mp hempty) hreached hevent (hids hid) hbase hle
    | false =>
      rw [hempty] at hle
      cases old with
      | none =>
        have hpositive := feed.positive event hevent
        change event.ledger ≤ 0 at hle
        omega
      | some row => exact (hold row rfl).fully event hevent hid hbase hle

end

end

end

end Feed

/-- Every row covers its contract, or whatever `scope` adds to it. -/
structure Indexed (feed : Feed) (scope : String → List String) (base : Nat) (db : Db) : Prop where
  registered : Registered db
  covers : ∀ address row, db.metadata? address = some row → feed.Covers (scope address) base db row

def Placed (feed : Feed) (indexer : Indexer) (base : Nat) (db : Db) : Phase → Prop
  | .ready _ | .tipKnown _ => True
  | .paging startLedger cursor _ _ => feed.Reached indexer.contractIds base db
      (feed.startPlace (Indexer.eventStart startLedger cursor))
  | .fetched _ _ _ answer => ∃ start, feed.Answers indexer.contractIds start answer ∧
      feed.Reached indexer.contractIds base db (feed.startPlace start)
  | .saved _ _ _ answer => ∃ start, feed.Answers indexer.contractIds start answer ∧
      feed.Reached indexer.contractIds base db (feed.startPlace start) ∧
      ∀ event ∈ answer.events, db.hasEvent event.id = true

variable {indexer : Indexer}

variable {sync : SyncMetadata} {active : List SyncMetadata}

variable {row : IndexingMetadata} {cursor : String}

section
variable {scope : String → List String} {base : Nat} {phase phase' : Phase}

theorem indexed_fresh (feed : Feed) (scope : String → List String) (base : Nat) :
    Indexed feed scope base Db.fresh := ⟨registered_fresh, nofun⟩

theorem Placed.mono (h : Placed feed indexer base db phase)
    (hevents : db.rawContractEvents.rows <+: db'.rawContractEvents.rows) : Placed feed indexer base db' phase := by
  cases phase with
  | ready last => trivial
  | tipKnown networkTip => trivial
  | paging startLedger cursor page mayHaveMore => exact h.mono hevents
  | fetched startLedger page mayHaveMore answer =>
    obtain ⟨start, hanswers, hreached⟩ := h
    exact ⟨start, hanswers, hreached.mono hevents⟩
  | saved startLedger page mayHaveMore answer =>
    obtain ⟨start, hanswers, hreached, hstored⟩ := h
    exact ⟨start, hanswers, hreached.mono hevents,
      fun event hevent => hasEvent_of_isPrefix hevents (hstored event hevent)⟩

theorem Indexed.of_isPrefix (h : Indexed feed scope base db) (hcontracts : db.contracts.rows <+: db'.contracts.rows)
    (hevents : db.rawContractEvents.rows <+: db'.rawContractEvents.rows)
    (hsame : db'.indexingMetadata = db.indexingMetadata) : Indexed feed scope base db' := by
  refine ⟨h.registered.of_isPrefix hcontracts hsame, fun address row hrow => ?_⟩
  rw [metadata?_of_isPrefix h.registered hcontracts hsame] at hrow
  exact (h.covers address row hrow).mono hevents

theorem Indexed.clear (h : Indexed feed scope base db) : Indexed feed scope base (clearIndexingCursors db).2 := by
  refine ⟨h.registered.clear, fun address row hrow => ?_⟩
  rw [metadata?_clear] at hrow
  obtain ⟨old, hold, rfl⟩ := Option.map_eq_some_iff.mp hrow
  have hcovers := h.covers address old hold
  exact ⟨nofun, hcovers.indexed, hcovers.fully⟩

theorem saveEventsBatch_isPrefix (events : List ContractEvent) (db : Db) :
    db.contracts.rows <+: (saveEventsBatch events db).2.contracts.rows ∧
      db.rawContractEvents.rows <+: (saveEventsBatch events db).2.rawContractEvents.rows ∧
      (saveEventsBatch events db).2.indexingMetadata = db.indexingMetadata := by
  apply saveEventsBatch_keeps (I := fun d => db.contracts.rows <+: d.contracts.rows ∧
    db.rawContractEvents.rows <+: d.rawContractEvents.rows ∧ d.indexingMetadata = db.indexingMetadata)
  · rintro d event - ⟨hcontracts, hevents, hsame⟩
    exact ⟨hcontracts.trans (d.contracts.prefix_insertOrIgnore _), hevents.trans (saveEvent_isPrefix d event), hsame⟩
  · exact ⟨prefix_refl _, prefix_refl _, rfl⟩

theorem Indexed.saveProgress (h : Indexed feed scope base db) {answer : Page} {start : EventStart}
    (hscope : ∀ address ∈ indexer.contractIds, scope address ⊆ indexer.contractIds)
    (hanswers : feed.Answers indexer.contractIds start answer)
    (hreached : feed.Reached indexer.contractIds base db (feed.startPlace start))
    (hstored : ∀ event ∈ answer.events, db.hasEvent event.id = true) :
    Indexed feed scope base (saveSyncProgress (indexer.progress answer) answer.events.isEmpty db).2 ∧
      (saveSyncProgress (indexer.progress answer) answer.events.isEmpty db).2.rawContractEvents =
        db.rawContractEvents := by
  apply saveSyncProgress_keeps (I := fun d => Indexed feed scope base d ∧ d.rawContractEvents = db.rawContractEvents)
  · rintro d entry hentry ⟨hindexed, hevents⟩
    obtain ⟨contractId, hid, rfl⟩ := mem_map.mp hentry
    have hraw : db.rawContractEvents.rows <+: d.rawContractEvents.rows := by rw [hevents]
    refine ⟨⟨hindexed.registered.saveSyncEntry _ _, fun address row hrow => ?_⟩, hevents⟩
    rw [metadata?_saveSyncEntry hindexed.registered] at hrow
    split at hrow
    · rename_i heq
      cases hrow
      subst heq
      have hnew := hanswers.covers (hreached.mono hraw)
        (fun event hevent => hasEvent_of_isPrefix hraw (hstored event hevent)) (hscope _ hid)
        (hindexed.covers _) address
      exact hnew.mono (prefix_refl _)
    · exact (hindexed.covers address row hrow).mono (prefix_refl _)
  · exact ⟨h, rfl⟩

theorem Step.keeps (hstep : Step feed indexer (db, phase) (db', phase'))
    (hscope : ∀ address ∈ indexer.contractIds, scope address ⊆ indexer.contractIds)
    (h : Indexed feed scope base db) (hplaced : Placed feed indexer base db phase)
    (hresume : ∀ networkTip, phase = .tipKnown networkTip →
      phase' = .resume indexer networkTip (getSyncMetadata db) →
      Placed feed indexer base db (.resume indexer networkTip (getSyncMetadata db))) :
    Indexed feed scope base db' ∧ Placed feed indexer base db' phase' ∧
      db.rawContractEvents.rows <+: db'.rawContractEvents.rows := by
  cases hstep with
  | getLatestLedger last networkTip => exact ⟨h, trivial, prefix_refl _⟩
  | getSyncState networkTip => exact ⟨h, hresume networkTip rfl rfl, prefix_refl _⟩
  | getContractEvents startLedger cursor page mayHaveMore answer hanswers =>
    exact ⟨h, ⟨_, hanswers, hplaced⟩, prefix_refl _⟩
  | rpcAhead startLedger cursor page mayHaveMore => exact ⟨h, trivial, prefix_refl _⟩
  | saveEvents startLedger page mayHaveMore answer =>
    obtain ⟨start, hanswers, hreached⟩ := hplaced
    obtain ⟨hcontracts, hevents, hsame⟩ := saveEventsBatch_isPrefix answer.events db
    exact ⟨h.of_isPrefix hcontracts hevents hsame, ⟨start, hanswers, hreached.mono hevents,
      fun event hevent => hasEvent_saveEvents hevent db⟩, hevents⟩
  | saveProgress startLedger page mayHaveMore answer =>
    obtain ⟨start, hanswers, hreached, hstored⟩ := hplaced
    obtain ⟨hindexed, hevents⟩ := h.saveProgress hscope hanswers hreached hstored
    have hraw : db.rawContractEvents.rows <+: (saveSyncProgress (indexer.progress answer)
      answer.events.isEmpty db).2.rawContractEvents.rows := by rw [hevents]
    refine ⟨hindexed, ?_, hraw⟩
    unfold Phase.next
    split
    · trivial
    · split
      · exact (hanswers.reached hreached hstored).mono hraw
      · trivial
  | fail phase e => exact ⟨h, trivial, prefix_refl _⟩

theorem mem_activeSync (hregistered : Registered db)
    (h : sync ∈ Indexer.activeSync indexer.contractIds (getSyncMetadata db)) :
    sync.contractId ∈ indexer.contractIds ∧
      ∃ row, db.metadata? sync.contractId = some row ∧ sync = row.sync sync.contractId := by
  obtain ⟨hmem, hactive⟩ := mem_filter.mp h
  exact ⟨contains_iff_mem.mp hactive, (mem_getSyncMetadata hregistered).mp hmem⟩

theorem cursor?_eq_some (h : Indexer.cursor? sync = some cursor) :
    sync.cursor = cursor ∧ cursor ≠ "" := by
  unfold Indexer.cursor? at h
  split at h
  · cases h
  · cases h
    exact ⟨rfl, ‹_›⟩

theorem sync_cursor {address cursor : String}
    (h : (row.sync address).cursor = cursor) (hne : cursor ≠ "") : row.lastCursor = some cursor := by
  unfold IndexingMetadata.sync at h
  cases hcursor : row.lastCursor with
  | none =>
    rw [hcursor] at h
    exact absurd h.symm hne
  | some c =>
    rw [hcursor] at h
    exact congrArg some h

variable {networkTip : Nat}

theorem startLedger_le
    (h : sync ∈ active) : indexer.startLedger active networkTip ≤ sync.lastIndexedLedger := by
  exact (Nat.min_le_left _ _).trans (min?_getD_le_of_mem (mem_map_of_mem h))

theorem startLedger_nil (networkTip : Nat) :
    indexer.startLedger [] networkTip ≤ indexer.minPoolLedger := Nat.min_le_left _ _

theorem exists_of_lt_startLedger {networkTip ledger : Nat}
    (hbase : indexer.minPoolLedger ≤ ledger) (hlt : ledger < indexer.startLedger active networkTip) :
    ∃ sync, sync ∈ active := by
  cases active with
  | nil => exact absurd (hlt.trans_le (startLedger_nil networkTip)) (not_lt.mpr hbase)
  | cons sync rest => exact ⟨sync, mem_cons_self⟩

theorem Placed.resume
    (hcursor : ∀ sync ∈ Indexer.activeSync indexer.contractIds (getSyncMetadata db), ∀ cursor,
      Indexer.resumeCursor (Indexer.activeSync indexer.contractIds (getSyncMetadata db)) = some cursor →
      Indexer.cursor? sync = some cursor → feed.Reached indexer.contractIds base db (feed.place cursor))
    (hledger : ∀ event ∈ feed.log, event.contractId ∈ indexer.contractIds → base ≤ event.ledger →
      event.ledger < indexer.startLedger
        (Indexer.activeSync indexer.contractIds (getSyncMetadata db)) networkTip →
      db.hasEvent event.id = true) :
    Placed feed indexer base db (.resume indexer networkTip (getSyncMetadata db)) := by
  unfold Phase.resume
  generalize Indexer.activeSync indexer.contractIds (getSyncMetadata db) = active at *
  change feed.Reached _ _ _ _
  cases hresume : Indexer.resumeCursor active with
  | none =>
    intro event hevent hid hbase
    exact hledger event (mem_of_mem_take hevent) hid hbase (Feed.ledger_lt_of_mem_take hevent)
  | some cursor =>
    have hhead := hresume
    unfold Indexer.resumeCursor at hhead
    split at hhead
    · obtain ⟨sync, hsync, hfirst⟩ := Option.bind_eq_some_iff.mp hhead
      exact hcursor sync (mem_of_head? hsync) cursor hresume hfirst
    · cases hhead

/-- Changes of the database that are none of the indexer's. -/
inductive Elsewhere : Db → Db → Prop where
  | clearIndexingCursors (db : Db) : Elsewhere db (clearIndexingCursors db).2
  | other {db db' : Db} (hcontracts : db'.contracts = db.contracts)
      (hevents : db'.rawContractEvents = db.rawContractEvents)
      (hmetadata : db'.indexingMetadata = db.indexingMetadata) : Elsewhere db db'

theorem Elsewhere.keeps (h : Elsewhere db db') (hindexed : Indexed feed scope base db) :
    Indexed feed scope base db' ∧ db.rawContractEvents.rows <+: db'.rawContractEvents.rows := by
  cases h with
  | clearIndexingCursors => exact ⟨hindexed.clear, prefix_refl _⟩
  | other hcontracts hevents hmetadata =>
    have hraw : db.rawContractEvents.rows <+: db'.rawContractEvents.rows := by rw [hevents]
    refine ⟨hindexed.of_isPrefix ?_ hraw hmetadata, hraw⟩
    rw [hcontracts]

/-- Where each row covers all contracts of the set, a session resumes without a gap. -/
theorem Indexed.resume (h : Indexed feed (fun _ => indexer.contractIds) indexer.minPoolLedger db)
    (networkTip : Nat) : Placed feed indexer indexer.minPoolLedger db
      (.resume indexer networkTip (getSyncMetadata db)) := by
  apply Placed.resume
  · intro sync hsync cursor _ hcursor
    obtain ⟨hvalue, hne⟩ := cursor?_eq_some hcursor
    obtain ⟨-, row, hrow, heq⟩ := mem_activeSync h.registered hsync
    rw [heq] at hvalue
    exact (h.covers _ row hrow).cursor cursor (sync_cursor hvalue hne)
  · intro event hevent hid hbase hlt
    obtain ⟨sync, hsync⟩ := exists_of_lt_startLedger hbase hlt
    obtain ⟨-, row, hrow, heq⟩ := mem_activeSync h.registered hsync
    apply (h.covers _ row hrow).indexed event hevent hid hbase
    have hle := hlt.trans_le (startLedger_le hsync)
    rwa [heq] at hle

/-- Any number of sessions for one set of contracts, whatever fails and whatever the order. -/
theorem indexing_complete {phases : Nat → Phase}
    (hrun : ReflTransGen (Interleave (fun _ => Step feed indexer) Elsewhere)
      (Db.fresh, fun _ => .ready none) (db, phases)) {address : String} {row : IndexingMetadata}
    (hrow : db.metadata? address = some row) : feed.Covers indexer.contractIds indexer.minPoolLedger db row := by
  have hinvariant := Interleave.invariant (I := Indexed feed (fun _ => indexer.contractIds) indexer.minPoolLedger)
    (L := fun _ => Placed feed indexer indexer.minPoolLedger)
    (G := fun db db' => db.rawContractEvents.rows <+: db'.rawContractEvents.rows)
    (fun _ _ _ _ _ hI hL hstep => hstep.keeps (fun _ _ => List.Subset.refl _) hI hL
      fun networkTip _ _ => hI.resume networkTip)
    (fun _ _ hI henvironment => henvironment.keeps hI) (fun _ _ _ _ hgrows hL => hL.mono hgrows)
    hrun (indexed_fresh _ _ _) fun _ => trivial
  exact hinvariant.1.covers address row hrow

end

/-! Sessions one after the other, for contracts that change. -/

/-- The states that sessions reach which read the metadata only where `reads` allows it and
whose configurations follow each other as `switches` says. -/
inductive SessionRun (feed : Feed) (reads : Indexer → Db → Prop) (switches : Indexer → Indexer → Prop) :
    Indexer → Phase → Db → Prop where
  | start {indexer : Indexer} (config : ContractConfig) (probe : List String → Nat → Except RpcError Unit)
      (hinit : Indexer.init config (getSyncMetadata Db.fresh) probe = .ok indexer) :
      SessionRun feed reads switches indexer (.ready none) Db.fresh
  | step {indexer : Indexer} {phase phase' : Phase} {db db' : Db}
      (hrun : SessionRun feed reads switches indexer phase db)
      (hstep : Step feed indexer (db, phase) (db', phase'))
      (hreads : ∀ networkTip, phase = .tipKnown networkTip →
        phase' = .resume indexer networkTip (getSyncMetadata db) → reads indexer db) :
      SessionRun feed reads switches indexer phase' db'
  | elsewhere {indexer : Indexer} {phase : Phase} {db db' : Db}
      (hrun : SessionRun feed reads switches indexer phase db) (h : Elsewhere db db') :
      SessionRun feed reads switches indexer phase db'
  | configure {indexer indexer' : Indexer} {phase : Phase} {db : Db}
      (hrun : SessionRun feed reads switches indexer phase db) (config : ContractConfig)
      (probe : List String → Nat → Except RpcError Unit)
      (hinit : Indexer.init config (getSyncMetadata db) probe = .ok indexer')
      (hswitches : switches indexer indexer') :
      SessionRun feed reads switches indexer' (.ready none) db

/-- The configured contracts that have metadata have all a cursor or all none, and a contract
that has none yet has no events before what the others have been indexed to. -/
structure Aligned (feed : Feed) (indexer : Indexer) (db : Db) : Prop where
  cursors : ∀ sync ∈ Indexer.activeSync indexer.contractIds (getSyncMetadata db),
    ∀ sync' ∈ Indexer.activeSync indexer.contractIds (getSyncMetadata db),
      sync'.cursor = "" → sync.cursor = ""
  added : ∀ address ∈ indexer.contractIds, db.metadata? address = none →
    ∀ event ∈ feed.log, event.contractId = address → indexer.minPoolLedger ≤ event.ledger →
      ∀ sync ∈ Indexer.activeSync indexer.contractIds (getSyncMetadata db),
        sync.lastIndexedLedger ≤ event.ledger ∧
          (sync.cursor ≠ "" → event ∉ feed.log.take (feed.place sync.cursor))

section
variable {db : Db} {phase : Phase}

theorem sync_mem_active (hregistered : Registered db) {address : String}
    (hid : address ∈ indexer.contractIds) (hrow : db.metadata? address = some row) :
    row.sync address ∈ Indexer.activeSync indexer.contractIds (getSyncMetadata db) :=
  mem_filter.mpr ⟨(mem_getSyncMetadata hregistered).mpr ⟨row, hrow, rfl⟩, contains_iff_mem.mpr hid⟩

theorem cursor_unique
    (h : Indexer.resumeCursor active = some cursor) (hsync : sync ∈ active) (hne : sync.cursor ≠ "") :
    sync.cursor = cursor := by
  unfold Indexer.resumeCursor at h
  split at h
  · rename_i hunique
    obtain ⟨first, hfirst, hcursor⟩ := Option.bind_eq_some_iff.mp h
    have hmem : cursor ∈ (active.filterMap Indexer.cursor?).dedup :=
      mem_dedup.mpr (mem_filterMap.mpr ⟨first, mem_of_head? hfirst, hcursor⟩)
    have hmem' : sync.cursor ∈ (active.filterMap Indexer.cursor?).dedup :=
      mem_dedup.mpr (mem_filterMap.mpr ⟨sync, hsync, if_neg hne⟩)
    obtain ⟨value, hvalue⟩ := length_eq_one_iff.mp (le_antisymm hunique (length_pos_of_mem hmem))
    rw [hvalue, mem_singleton] at hmem hmem'
    rw [hmem, hmem']
  · cases h

theorem Aligned.resume (haligned : Aligned feed indexer db)
    (h : Indexed feed (fun address => [address]) indexer.minPoolLedger db) (networkTip : Nat) :
    Placed feed indexer indexer.minPoolLedger db (.resume indexer networkTip (getSyncMetadata db)) := by
  apply Placed.resume
  · intro first hfirst cursor hresume hcursor event hevent hid hbase
    obtain ⟨hvalue, hne⟩ := cursor?_eq_some hcursor
    have hnonempty : first.cursor ≠ "" := hvalue ▸ hne
    cases hrow : db.metadata? event.contractId with
    | none =>
      have hafter := (haligned.added _ hid hrow event (mem_of_mem_take hevent) rfl hbase first hfirst).2 hnonempty
      rw [hvalue] at hafter
      exact absurd hevent hafter
    | some row =>
      have hsync := sync_mem_active h.registered hid hrow
      have hown : (row.sync event.contractId).cursor = cursor :=
        cursor_unique hresume hsync fun hempty => hnonempty (haligned.cursors first hfirst _ hsync hempty)
      exact (h.covers _ row hrow).cursor cursor (sync_cursor hown hne) event hevent (mem_singleton.mpr rfl) hbase
  · intro event hevent hid hbase hlt
    cases hrow : db.metadata? event.contractId with
    | some row =>
      have hle := hlt.trans_le (startLedger_le (sync_mem_active h.registered hid hrow))
      exact (h.covers _ row hrow).indexed event hevent (mem_singleton.mpr rfl) hbase hle
    | none =>
      obtain ⟨sync, hsync⟩ := exists_of_lt_startLedger hbase hlt
      have hle := (haligned.added _ hid hrow event hevent rfl hbase sync hsync).1
      exact absurd (hlt.trans_le (startLedger_le hsync)) (not_lt.mpr hle)

theorem SessionRun.indexed (hrun : SessionRun feed (Aligned feed)
    (fun old new => old.minPoolLedger ≤ new.minPoolLedger) indexer phase db) :
    Indexed feed (fun address => [address]) indexer.minPoolLedger db ∧
      Placed feed indexer indexer.minPoolLedger db phase := by
  induction hrun with
  | start config probe hinit => exact ⟨indexed_fresh _ _ _, trivial⟩
  | step hrun hstep hreads ih =>
    have hkeeps := hstep.keeps (fun _ hid => cons_subset.mpr ⟨hid, nil_subset _⟩) ih.1 ih.2
      fun networkTip hphase hnext => (hreads networkTip hphase hnext).resume ih.1 networkTip
    exact ⟨hkeeps.1, hkeeps.2.1⟩
  | elsewhere hrun h ih =>
    obtain ⟨hindexed, hevents⟩ := h.keeps ih.1
    exact ⟨hindexed, ih.2.mono hevents⟩
  | configure hrun config probe hinit hswitches ih =>
    refine ⟨⟨ih.1.registered, fun address row hrow => ?_⟩, trivial⟩
    exact (ih.1.covers address row hrow).restrict (List.Subset.refl _) hswitches

/-- What is said to be fully indexed is stored. -/
theorem fully_indexed_of_aligned (hrun : SessionRun feed (Aligned feed)
    (fun old new => old.minPoolLedger ≤ new.minPoolLedger) indexer phase db) {address : String}
    {row : IndexingMetadata} (hrow : db.metadata? address = some row) :
    ∀ event ∈ feed.log, event.contractId = address → indexer.minPoolLedger ≤ event.ledger →
      event.ledger ≤ row.lastFullyIndexedLedger → db.hasEvent event.id = true := by
  intro event hevent hid hbase hle
  exact (hrun.indexed.1.covers address row hrow).fully event hevent (mem_singleton.mpr hid) hbase hle

end

/-! A pool that is enabled after the others have been indexed. -/

section Sample

def sampleFeed : Feed where
  log := [⟨"a", 3, "A", [], []⟩, ⟨"b", 5, "B", [], []⟩]
  ordered := by decide
  ids := by decide
  positive := by decide
  place cursor := if cursor = "end" then 2 else 0

def sampleConfig (enabled : Bool) : ContractConfig where
  aspMembership := "M"
  publicKeyRegistry := "K"
  pools := [⟨"A", 1, true⟩, ⟨"B", 1, enabled⟩]

def sampleIndexer (enabled : Bool) : Indexer where
  contractIds := (sampleConfig enabled).allContractIds
  minPoolLedger := 1

def firstPage (enabled : Bool) : Page := ⟨"end", sampleFeed.log.take (if enabled then 2 else 1), 10⟩

def emptyPage : Page := ⟨"end", [], 10⟩

theorem sample_init (enabled : Bool) (existingSync : List SyncMetadata) :
    Indexer.init (sampleConfig enabled) existingSync (fun _ _ => .ok ()) = .ok (sampleIndexer enabled) := by
  cases enabled <;> rfl

theorem first_answers (enabled : Bool) :
    sampleFeed.Answers (sampleIndexer enabled).contractIds (.ledger 1) (firstPage enabled) := by
  cases enabled <;> exact ⟨rfl, nofun⟩

theorem empty_answers (enabled : Bool) :
    sampleFeed.Answers (sampleIndexer enabled).contractIds (.cursor "end") emptyPage :=
  ⟨by cases enabled <;> rfl, fun _ _ hevent => nomatch hevent⟩

def afterFirst (enabled : Bool) (db : Db) : Db :=
  (saveSyncProgress ((sampleIndexer enabled).progress (firstPage enabled)) false
    (saveEventsBatch (firstPage enabled).events db).2).2

def afterEmpty (enabled : Bool) (db : Db) : Db :=
  (saveSyncProgress ((sampleIndexer enabled).progress emptyPage) true (saveEventsBatch emptyPage.events db).2).2

theorem first_steps (enabled : Bool) (db : Db) : ReflTransGen (Step sampleFeed (sampleIndexer enabled))
    (db, .paging 1 none 0 false) (afterFirst enabled db, .paging 1 (some "end") 1 true) := by
  have hfetched : Step sampleFeed (sampleIndexer enabled) (db, .paging 1 none 0 false)
      (db, .fetched 1 0 false (firstPage enabled)) := .getContractEvents 1 none 0 false _ (first_answers enabled)
  cases enabled <;>
    exact .tail (.tail (.single hfetched) (.saveEvents 1 0 false _)) (.saveProgress 1 0 false _)

/-- Two sessions that read the sync state before either of them has saved anything. -/
theorem indexing_complete_sample : sampleFeed.Covers (sampleIndexer true).contractIds 1
    (afterFirst true (afterFirst true Db.fresh)) ⟨some "end", 5, 0⟩ := by
  have hread : ReflTransGen (Step sampleFeed (sampleIndexer true)) (Db.fresh, .ready none)
      (Db.fresh, .paging 1 none 0 false) := .tail (.single (.getLatestLedger none 10)) (.getSyncState 10)
  have hrun : ReflTransGen (Interleave (fun _ : Nat => Step sampleFeed (sampleIndexer true)) Elsewhere)
      (Db.fresh, fun _ => .ready none) (afterFirst true (afterFirst true Db.fresh), _) :=
    (Interleave.solo (i := 0) hread).trans <| (Interleave.solo (i := 1) hread).trans <|
      (Interleave.solo (i := 0) (first_steps true _)).trans (Interleave.solo (i := 1) (first_steps true _))
  exact @indexing_complete _ _ _ _ hrun "B" _ (by decide +kernel)

section
variable {reads : Indexer → Db → Prop} {switches : Indexer → Indexer → Prop} {enabled : Bool}

theorem sample_session (hreads : reads (sampleIndexer enabled) Db.fresh) :
    SessionRun sampleFeed reads switches (sampleIndexer enabled) (.ready (some (.ok true)))
      (afterEmpty enabled (afterFirst enabled Db.fresh)) := by
  have hread : SessionRun sampleFeed reads switches (sampleIndexer enabled) (.paging 1 none 0 false)
      Db.fresh :=
    .step (.step (.start (sampleConfig enabled) (fun _ _ => .ok ()) (sample_init enabled _))
      (.getLatestLedger none 10) nofun) (.getSyncState 10) fun _ _ _ => hreads
  have hfetched := SessionRun.step hread (.getContractEvents 1 none 0 false _ (first_answers enabled)) nofun
  have hfirst : SessionRun sampleFeed reads switches (sampleIndexer enabled)
      (.paging 1 (some "end") 1 true) (afterFirst enabled Db.fresh) := by
    cases enabled <;>
      exact .step (.step hfetched (.saveEvents 1 0 false _) nofun) (.saveProgress 1 0 false _) nofun
  exact .step (.step (.step hfirst (.getContractEvents 1 (some "end") 1 true emptyPage (empty_answers enabled)) nofun)
    (.saveEvents 1 1 true emptyPage) nofun) (.saveProgress 1 1 true emptyPage) nofun

/-- The second pool is enabled, or disabled, between two sessions. -/
theorem sample_sessions (hreads : reads (sampleIndexer enabled) Db.fresh)
    (hswitches : switches (sampleIndexer enabled) (sampleIndexer !enabled))
    (hreads' : reads (sampleIndexer !enabled) (afterEmpty enabled (afterFirst enabled Db.fresh))) :
    SessionRun sampleFeed reads switches (sampleIndexer !enabled) (.ready (some (.ok false)))
      (afterEmpty (!enabled) (afterEmpty enabled (afterFirst enabled Db.fresh))) := by
  have hresume : Phase.resume (sampleIndexer !enabled) 10
      (getSyncMetadata (afterEmpty enabled (afterFirst enabled Db.fresh))) = .paging 10 (some "end") 0 false := by
    cases enabled <;> rfl
  have hread := SessionRun.step (.step (.configure (sample_session hreads) (sampleConfig !enabled)
    (fun _ _ => .ok ()) (sample_init _ _) hswitches) (.getLatestLedger none 10) nofun) (.getSyncState 10)
    fun _ _ _ => hreads'
  rw [hresume] at hread
  exact .step (.step (.step hread (.getContractEvents 10 (some "end") 0 false emptyPage (empty_answers _)) nofun)
    (.saveEvents 10 0 false emptyPage) nofun) (.saveProgress 10 0 false emptyPage) nofun

end

/-- The pool that is disabled afterwards was fully indexed before, and still is. -/
theorem fully_indexed_sample : ∃ phase db,
    SessionRun sampleFeed (Aligned sampleFeed) (fun old new => old.minPoolLedger ≤ new.minPoolLedger)
      (sampleIndexer false) phase db ∧ db.metadata? "B" = some ⟨some "end", 10, 10⟩ ∧ db.hasEvent "b" = true := by
  have hknown : ∀ address ∈ (sampleIndexer false).contractIds,
      (afterEmpty true (afterFirst true Db.fresh)).metadata? address ≠ none := by decide +kernel
  have hrun := @sample_sessions (Aligned sampleFeed) (fun old new => old.minPoolLedger ≤ new.minPoolLedger) true
    ⟨nofun, nofun⟩ (by decide) ⟨by decide +kernel, fun address hid hnone => absurd hnone (hknown address hid)⟩
  have hrow : (afterEmpty false (afterEmpty true (afterFirst true Db.fresh))).metadata? "B" =
      some ⟨some "end", 10, 10⟩ := by
    decide +kernel
  exact ⟨_, _, hrun, hrow, fully_indexed_of_aligned hrun hrow ⟨"b", 5, "B", [], []⟩
    (mem_of_getElem? (i := 1) rfl) rfl (by decide) (by decide)⟩

/-- The second pool is said to be fully indexed, but its event is missing. -/
theorem added_pool_incomplete : ∃ phase db row,
    SessionRun sampleFeed (fun _ _ => True) (fun _ _ => True) (sampleIndexer true) phase db ∧
    "B" ∈ (sampleIndexer true).contractIds ∧ db.metadata? "B" = some row ∧
    ∃ event ∈ sampleFeed.log, event.contractId = "B" ∧
      (sampleIndexer true).minPoolLedger ≤ event.ledger ∧
      event.ledger ≤ row.lastFullyIndexedLedger ∧ db.hasEvent event.id = false :=
  ⟨_, _, ⟨some "end", 10, 10⟩, @sample_sessions _ _ false trivial trivial trivial, by decide,
    by decide +kernel, ⟨"b", 5, "B", [], []⟩, mem_of_getElem? (i := 1) rfl, rfl, by decide, by decide,
    by decide +kernel⟩

end Sample

end PrivatePayments.Sdk

import PrivatePayments.Sdk.Indexer

/-! `tools/bootnode`: an indexer that caches pages of `getEvents` of an upstream node, the
handler that serves them, and a client that follows the cursors. -/
namespace PrivatePayments.Bootnode
open Sdk (ContractEvent Feed Page EventStart)

def saturatingMul (a b : Nat) : Nat := min (a * b) (2 ^ 32 - 1)

def cutoffLedgers (redirectDays ledgerSeconds : Nat) : Nat :=
  saturatingMul (saturatingMul (saturatingMul redirectDays 24) 60) 60 / max ledgerSeconds 1

structure Config where
  redirectDays : Nat
  ledgerSeconds : Nat
  maxPagesPerRound : Nat
  pageSize : Nat
  initialLedgerTip : Nat
  contractIds : List String
  minDeploymentLedger : Nat

def Config.cutoffLedgers (cfg : Config) : Nat := Bootnode.cutoffLedgers cfg.redirectDays cfg.ledgerSeconds

def Config.cutoffLedger (cfg : Config) (tip : Nat) : Nat := tip - cfg.cutoffLedgers

/-! `messages.rs` -/

structure ContractEventFilter where
  filterType : String
  topics : List (List String)
  contractIds : List String

structure GetEventsParams where
  filters : List ContractEventFilter
  limit : Option Nat
  cursor : Option String
  startLedger : Option Nat
  endLedger : Option Nat
  xdrFormat : Option String

namespace GetEventsParams

/-- Exactly one of the two starts. -/
def parsed (params : GetEventsParams) : Except String EventStart :=
  match params.startLedger, params.cursor with
  | some _, some _ => .error "getEvents params must include either startLedger or pagination.cursor, not both"
  | none, none => .error "getEvents params must include either startLedger or pagination.cursor"
  | some startLedger, none => .ok (.ledger startLedger)
  | none, some cursor => .ok (.cursor cursor)

def sorted (ids : List String) : List String := ids.insertionSort (· ≤ ·)

def isAllowedFilters (params : GetEventsParams) (allowedContractIds : List String) : Bool :=
  match params.filters.head? with
  | none => false
  | some first =>
    first.filterType == "contract" && first.topics == [["**"]] &&
      sorted first.contractIds == sorted allowedContractIds

def forContracts (contractIds : List String) (startLedger : Option Nat) (cursor : Option String)
    (limit : Nat) : GetEventsParams where
  filters := [{ filterType := "contract", topics := [["**"]], contractIds }]
  limit := some limit
  cursor
  startLedger
  endLedger := none
  xdrFormat := none

end GetEventsParams

/-! `storage` -/

structure Storage where
  lastCursor : Option String
  lastFullyIndexedLedger : Nat
  ledgerTip : Nat
  inSync : Bool
  cacheByCursorIn : String → Option Page
  cacheByStartLedger : Nat → Option Page
  ledgerByCursorOut : String → Option Nat

namespace Storage

def fresh : Storage where
  lastCursor := none
  lastFullyIndexedLedger := 0
  ledgerTip := 0
  inSync := false
  cacheByCursorIn _ := none
  cacheByStartLedger _ := none
  ledgerByCursorOut _ := none

def updateCursor (cursor : String) (s : Storage) : Storage := { s with lastCursor := some cursor }

def setLastFullyIndexedLedger (ledger : Nat) (s : Storage) : Storage :=
  { s with lastFullyIndexedLedger := ledger }

def setLedgerTip (ledgerTip : Nat) (s : Storage) : Storage := { s with ledgerTip }

def setInSync (inSync : Bool) (s : Storage) : Storage := { s with inSync }

def getCached (s : Storage) : EventStart → Option Page
  | .ledger startLedger => s.cacheByStartLedger startLedger
  | .cursor cursor => s.cacheByCursorIn cursor

def cache (start : EventStart) (page : Page) (s : Storage) : Storage :=
  match start with
  | .ledger startLedger =>
    { s with cacheByStartLedger := Function.update s.cacheByStartLedger startLedger (some page) }
  | .cursor cursor => { s with cacheByCursorIn := Function.update s.cacheByCursorIn cursor (some page) }

def setCursorLedger (page : Page) (s : Storage) : Storage :=
  match page.events.getLast? with
  | some event =>
    { s with ledgerByCursorOut := Function.update s.ledgerByCursorOut page.cursor (some event.ledger) }
  | none => s

def storeGetEventsPage (start : EventStart) (page : Page) (s : Storage) : Storage :=
  (s.cache start page).setCursorLedger page

/-- Pages are never replaced. -/
def insertGetEventsPage (start : EventStart) (page : Page) (s : Storage) : Storage :=
  if page.events.isEmpty then s
  else if (s.getCached start).isSome then s
  else s.storeGetEventsPage start page

end Storage

/-! `indexer.rs`, between two awaits of `run_round`.  `pages` is the number of requests that the
round may still make. -/

inductive Round where
  | idle
  | tip (sequence : Nat)
  | loading
  | request (start : EventStart) (pages : Nat)
  | fetched (start : EventStart) (pages : Nat) (answer : Page)
  | insert (start : EventStart) (pages : Nat) (answer : Page)
  | advance (pages : Nat) (answer : Page)
  | caughtUp (answer : Page)
  | indexed

namespace Round

def paging (start : EventStart) : Nat → Round
  | 0 => .idle
  | pages + 1 => .request start pages

/-- The next call of the storage.  `mark_caught_up` makes three. -/
def await (cfg : Config) : Round → Storage → Round × Storage
  | .tip sequence, s => (.loading, s.setLedgerTip sequence)
  | .loading, s => (.paging (Sdk.Indexer.eventStart cfg.minDeploymentLedger s.lastCursor) cfg.maxPagesPerRound, s)
  | .fetched start pages answer, s =>
    if answer.events.isEmpty then (.caughtUp answer, s.updateCursor answer.cursor)
    else (.insert start pages answer, s.setInSync false)
  | .insert start pages answer, s => (.advance pages answer, s.insertGetEventsPage start answer)
  | .advance pages answer, s => (.paging (.cursor answer.cursor) pages, s.updateCursor answer.cursor)
  | .caughtUp answer, s => (.indexed, s.setLastFullyIndexedLedger answer.latestLedger)
  | .indexed, s => (.idle, s.setInSync true)
  | round, s => (round, s)

end Round

/-! `rpc.rs` -/

inductive ErrorObject where
  | invalidParams (message : String)
  | cacheMiss (message : String)
  | retentionHandoff (fromLedger : Nat)
deriving DecidableEq

def cacheMissForTip (tip : Nat) : ErrorObject :=
  if tip = 0 then .cacheMiss "bootnode warming up; retry later"
  else .cacheMiss "cache miss; indexer may still be catching up"

/-- Between two awaits of `get_events_handler`, which has read the tip at its start. -/
inductive Serving where
  | lookup (cursor : String) (tip : Nat)
  | reading (start : EventStart) (tip : Nat)
  | missed (start : EventStart) (tip : Nat)
  | answered (result : Except ErrorObject Page)

namespace Serving

def handoff (cfg : Config) (tip : Nat) : Serving := .answered (.error (.retentionHandoff (cfg.cutoffLedger tip)))

def getEventsHandler (cfg : Config) (tip : Nat) (params : GetEventsParams) : Serving :=
  match params.parsed with
  | .error message => .answered (.error (.invalidParams message))
  | .ok start =>
    if params.isAllowedFilters cfg.contractIds = false then
      .answered (.error (.invalidParams "unsupported filters"))
    else
      match start with
      | .cursor cursor => .lookup cursor tip
      | .ledger startLedger =>
        if 0 < tip ∧ cfg.cutoffLedger tip ≤ startLedger then handoff cfg tip
        else .reading (.ledger startLedger) tip

def getEvents (cfg : Config) (tip : Nat) (params : GetEventsParams) : Serving :=
  if params.endLedger.isSome then
    .answered (.error (.invalidParams "endLedger is not supported by bootnode"))
  else if params.xdrFormat.isSome then
    .answered (.error (.invalidParams "xdrFormat is not supported by bootnode"))
  else getEventsHandler cfg tip params

def afterLookup (cfg : Config) (cursor : String) (tip : Nat) : Option Nat → Serving
  | some lastEventLedger =>
    if 0 < tip ∧ cfg.cutoffLedger tip ≤ lastEventLedger then handoff cfg tip else .reading (.cursor cursor) tip
  | none => .reading (.cursor cursor) tip

/-- The next call of the storage; the last one is that of `cache_miss_or_handoff`. -/
def await (cfg : Config) (s : Storage) : Serving → Serving
  | .lookup cursor tip => afterLookup cfg cursor tip (s.ledgerByCursorOut cursor)
  | .reading start tip =>
    match s.getCached start with
    | some page => .answered (.ok page)
    | none => if tip = 0 then .answered (.error (cacheMissForTip tip)) else .missed start tip
  | .missed _ tip => if s.inSync then handoff cfg tip else .answered (.error (cacheMissForTip tip))
  | .answered result => .answered result

end Serving

structure Client where
  received : List ContractEvent
  next : EventStart
  serving : Option Serving
  fromLedger : Option Nat

namespace Client

def request (contractIds : List String) (limit : Nat) : EventStart → GetEventsParams
  | .ledger startLedger => .forContracts contractIds (some startLedger) none limit
  | .cursor cursor => .forContracts contractIds none (some cursor) limit

/-- A page moves the client to its cursor; a handoff ends the sync; other errors are retried. -/
def receive (client : Client) : Except ErrorObject Page → Client
  | .ok page =>
    { client with received := client.received ++ page.events, next := .cursor page.cursor, serving := none }
  | .error (.retentionHandoff fromLedger) => { client with fromLedger := some fromLedger, serving := none }
  | .error _ => { client with serving := none }

end Client

structure State where
  ledgerTip : Nat
  storage : Storage
  round : Round
  client : Client

def State.serve (x : State) (serving : Option Serving) : State :=
  { x with client := { x.client with serving } }

/-- `Bootnode::setup` on what was saved. -/
def setup (cfg : Config) (storage : Storage) (client : Client) : State where
  ledgerTip := max cfg.initialLedgerTip storage.ledgerTip
  storage
  round := .idle
  client := { client with serving := none }

/-- A node that starts on an empty storage, and a client that starts at the first deployment. -/
def initial (cfg : Config) : State :=
  setup cfg .fresh
    { received := [], next := .ledger cfg.minDeploymentLedger, serving := none, fromLedger := none }

/-- What upstream answers: at most `limit` events, in order, with a cursor behind them; a page
that is not full was searched up to the latest ledger. -/
structure Serves (feed : Feed) (cfg : Config) (start : EventStart) (answer : Page) : Prop where
  answers : feed.Answers cfg.contractIds start answer
  limit : answer.events.length ≤ cfg.pageSize
  cursor : feed.startPlace start ≤ feed.place answer.cursor
  searched : answer.events.length < cfg.pageSize →
    ∀ event ∈ feed.log.drop (feed.place answer.cursor), answer.latestLedger < event.ledger
  closed : ∀ event ∈ feed.log.take (feed.place answer.cursor), event.ledger ≤ answer.latestLedger

inductive Step (cfg : Config) (feed : Feed) (x : State) : State → Prop where
  | getLatestLedger (sequence : Nat) (h : x.round = .idle) :
      Step cfg feed x { x with ledgerTip := sequence, round := .tip sequence }
  | getEvents (start : EventStart) (pages : Nat) (answer : Page) (h : x.round = .request start pages)
      (hserves : Serves feed cfg start answer) : Step cfg feed x { x with round := .fetched start pages answer }
  | store : Step cfg feed x
      { x with round := (x.round.await cfg x.storage).1, storage := (x.round.await cfg x.storage).2 }
  | fail : Step cfg feed x { x with round := .idle }
  | restart : Step cfg feed x (setup cfg x.storage x.client)
  | ask (limit : Nat) (hserving : x.client.serving = none) (hfrom : x.client.fromLedger = none) :
      Step cfg feed x
        (x.serve (some (.getEvents cfg x.ledgerTip (Client.request cfg.contractIds limit x.client.next))))
  | await (serving : Serving) (h : x.client.serving = some serving) :
      Step cfg feed x (x.serve (some (serving.await cfg x.storage)))
  | receive (result : Except ErrorObject Page) (h : x.client.serving = some (.answered result)) :
      Step cfg feed x { x with client := x.client.receive result }
  | lost : Step cfg feed x (x.serve none)

/-- Every event of the contracts from the first deployment on and below the ledger. -/
def Delivered (feed : Feed) (cfg : Config) (fromLedger : Nat) (received : List ContractEvent) : Prop :=
  ∀ event ∈ feed.log, event.contractId ∈ cfg.contractIds → cfg.minDeploymentLedger ≤ event.ledger →
    event.ledger < fromLedger → event ∈ received

end PrivatePayments.Bootnode

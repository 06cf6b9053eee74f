import PrivatePayments.Lib.Method
import PrivatePayments.Lib.Table
import PrivatePayments.Sdk.Events

/-! `state/src/storage.rs` and `schema.sql`: the wallet's database.  Nothing is ever
deleted from these tables, so a new rowid is the number of rows plus one. -/
namespace PrivatePayments.Sdk
open Lib List Contracts

abbrev Key := { bytes : Bytes // bytes.length = 32 }

structure NoteKeyPair where
  privateKey : Key
  publicKey : Key
deriving DecidableEq

structure EncryptionKeyPair where
  privateKey : Key
  publicKey : Key
deriving DecidableEq

structure AccountKeys where
  accountId : Nat
  noteKeypair : NoteKeyPair
  encryptionKeypair : EncryptionKeyPair
  membershipBlinding : F
deriving DecidableEq

structure IndexingMetadata where
  lastCursor : Option String
  lastIndexedLedger : Nat
  lastFullyIndexedLedger : Nat
deriving DecidableEq

structure RawContractEvent where
  id : String
  ledger : Nat
  contractId : Nat
  topics : Text
  value : Text
deriving DecidableEq

structure PoolNullifier where
  id : Nat
  nullifier : F
  eventId : String
deriving DecidableEq

structure PoolCommitment where
  id : Nat
  commitment : F
  leafIndex : Nat
  encryptedOutput : Bytes
  eventId : String
deriving DecidableEq

structure PublicKeyRow where
  owner : Text
  encryptionKey : Bytes
  noteKey : Bytes
  eventId : String
deriving DecidableEq

structure AspMembershipLeaf where
  contractId : Nat
  leafIndex : Nat
  leaf : F
  root : F
  eventId : String
deriving DecidableEq

structure UserNote where
  id : F
  accountId : Nat
  commitmentId : Nat
  nullifierId : Option Nat
  expectedNullifier : F
  blinding : F
  amount : Nat
deriving DecidableEq

/-! The primary keys and `UNIQUE` columns other than rowids. -/

abbrev RawContractEvent.conflict (a b : RawContractEvent) : Prop := a.id = b.id

abbrev PoolNullifier.conflict (a b : PoolNullifier) : Prop :=
  a.nullifier = b.nullifier ∨ a.eventId = b.eventId

abbrev PoolCommitment.conflict (a b : PoolCommitment) : Prop :=
  a.commitment = b.commitment ∨ a.eventId = b.eventId

abbrev PublicKeyRow.conflict (a b : PublicKeyRow) : Prop := a.eventId = b.eventId

abbrev AspMembershipLeaf.conflict (a b : AspMembershipLeaf) : Prop :=
  a.contractId = b.contractId ∧ a.leafIndex = b.leafIndex ∨ a.eventId = b.eventId

abbrev UserNote.conflict (a b : UserNote) : Prop :=
  a.id = b.id ∨ a.commitmentId = b.commitmentId ∨
    a.nullifierId.isSome ∧ a.nullifierId = b.nullifierId

/-- The tables.  Contracts and accounts are addresses in the order of their ids. -/
structure Db where
  contracts : Table String Eq
  indexingMetadata : Nat → Option IndexingMetadata
  rawContractEvents : Table RawContractEvent RawContractEvent.conflict
  accounts : Table String Eq
  keypairs : List AccountKeys
  poolNullifiers : NumberedTable PoolNullifier PoolNullifier.id PoolNullifier.conflict
  poolCommitments : NumberedTable PoolCommitment PoolCommitment.id PoolCommitment.conflict
  publicKeys : Table PublicKeyRow PublicKeyRow.conflict
  aspMembershipLeaves : Table AspMembershipLeaf AspMembershipLeaf.conflict
  userNotes : Table UserNote UserNote.conflict
  accountCommitmentScan : Nat → Nat → Option Nat
  nullifierScanState : Nat → Option Nat

def Db.fresh : Db where
  contracts := .empty
  indexingMetadata _ := none
  rawContractEvents := .empty
  accounts := .empty
  keypairs := []
  poolNullifiers := .empty
  poolCommitments := .empty
  publicKeys := .empty
  aspMembershipLeaves := .empty
  userNotes := .empty
  accountCommitmentScan _ _ := none
  nullifierScanState _ := none

/-- What goes wrong when a note is derived from a commitment. -/
inductive NoteError where
  | encryptedDataTooShort
  | wrongPlaintextLength (length : Nat)
  | fieldOutOfRange
deriving DecidableEq

inductive StorageError where
  | unique
  | foreignKey
  | noRows
  | gap (expected index : Nat)
  | indexOverflow
  | poolCount
  | derive (e : NoteError)
deriving DecidableEq

abbrev Wallet := Method StorageError Db

def orFail {α : Type} (value : Option α) (e : StorageError) : Except StorageError α :=
  match value with
  | some a => .ok a
  | none => .error e

namespace Db

def hasEvent (db : Db) (id : String) : Bool := db.rawContractEvents.rows.any (·.id == id)

def event? (db : Db) (id : String) : Option RawContractEvent :=
  db.rawContractEvents.rows.find? (·.id == id)

/-- `JOIN raw_contract_events r ON r.id = event_id`, down to the contract. -/
def contractOf (db : Db) (eventId : String) : Option Nat := (db.event? eventId).map (·.contractId)

def address? (db : Db) (contractId : Nat) : Option String := db.contracts.rows[contractId - 1]?

def commitment? (db : Db) (id : Nat) : Option PoolCommitment :=
  db.poolCommitments.rows.find? (·.id == id)

/-- No derived table refers to the event. -/
def unprocessed (db : Db) (id : String) : Bool :=
  !(db.poolCommitments.rows.any (·.eventId == id) || db.publicKeys.rows.any (·.eventId == id) ||
    db.aspMembershipLeaves.rows.any (·.eventId == id) ||
    db.poolNullifiers.rows.any (·.eventId == id))

end Db

def joinTopics (topics : List Text) : Text := List.intercalate [','] topics

def splitTopics (topics : Text) : List Text := topics.splitOn ','

abbrev RawContractEvent.before (a b : RawContractEvent) : Prop :=
  a.ledger < b.ledger ∨ a.ledger = b.ledger ∧ a.id ≤ b.id

def getUnprocessedEvents (db : Db) (limit : Nat) : List ContractEvent :=
  let rows := db.rawContractEvents.rows.filterMap fun row => do
    let address ← db.address? row.contractId
    if db.unprocessed row.id then some (row, address) else none
  ((rows.insertionSort fun a b => a.1.before b.1).take limit).map fun entry =>
    { id := entry.1.id
      ledger := entry.1.ledger
      contractId := entry.2
      topics := splitTopics entry.1.topics
      value := entry.1.value }

def collectLeaves : Nat → List PoolCommitment → Except StorageError (List F)
  | _, [] => .ok []
  | expectedIndex, row :: rest =>
      if row.leafIndex ≠ expectedIndex then .error (.gap expectedIndex row.leafIndex)
      else do
        let next ← orFail (checkedAdd 32 expectedIndex 1) .indexOverflow
        let leaves ← collectLeaves next rest
        return row.commitment :: leaves

def getPoolCommitmentLeavesOrdered (db : Db) (poolContractId : String) :
    Except StorageError (List F) :=
  let rows := db.poolCommitments.rows.filter fun row =>
    (db.contractOf row.eventId).bind db.address? == some poolContractId
  collectLeaves 0 (rows.insertionSort fun a b => a.leafIndex ≤ b.leafIndex)

/-- The accounts with their keys, of several the latest. -/
def getAccountsWithLatestKeypairs (db : Db) : List AccountKeys :=
  (List.range db.accounts.rows.length).filterMap fun i =>
    (db.keypairs.filter (·.accountId == i + 1)).getLast?

structure UserNoteSummary where
  id : F
  poolContractId : String
  amount : Nat
  leafIndex : Nat
  createdAtLedger : Nat
  spent : Bool

def listUnspentUserNotes (db : Db) (poolContractId address : String) : List UserNoteSummary :=
  let rows := db.userNotes.rows.filterMap fun note => do
    let owner ← db.accounts.rows[note.accountId - 1]?
    let commitment ← db.commitment? note.commitmentId
    let event ← db.event? commitment.eventId
    let pool ← db.address? event.contractId
    if owner = address ∧ pool = poolContractId ∧ note.nullifierId = none then
      some
        { id := note.id
          poolContractId := pool
          amount := note.amount
          leafIndex := commitment.leafIndex
          createdAtLedger := event.ledger
          spent := false }
    else none
  rows.insertionSort fun a b => b.createdAtLedger ≤ a.createdAtLedger

/-- The order in which SQLite visits the rows of a query that asks for none. -/
structure Visit (α : Type) where
  order : List α → List α
  perm : ∀ rows, (order rows).Perm rows

def Visit.asStored (α : Type) : Visit α := ⟨id, fun _ => .refl _⟩

/-- An address that is not there yet gets the next id. -/
def getOrCreateContractId (db : Db) (address : String) : Nat × Db :=
  (db.contracts.rows.idxOf address + 1, { db with contracts := db.contracts.insertOrIgnore address })

def getOrCreateAccount (db : Db) (address : String) : Nat × Db :=
  (db.accounts.rows.idxOf address + 1, { db with accounts := db.accounts.insertOrIgnore address })

def saveEvent (db : Db) (event : ContractEvent) : Db :=
  let (contractId, db) := getOrCreateContractId db event.contractId
  { db with
    rawContractEvents := db.rawContractEvents.insertOrIgnore
      { id := event.id
        ledger := event.ledger
        contractId
        topics := joinTopics event.topics
        value := event.value } }

def saveEventsBatch (events : List ContractEvent) : Wallet Unit :=
  Method.transaction fun db => .ok ((), events.foldl saveEvent db)

def saveEncryptionAndNoteKeypairs (address : String) (noteKeypair : NoteKeyPair)
    (encryptionKeypair : EncryptionKeyPair) (membershipBlinding : F) : Wallet Unit :=
  Method.transaction fun db =>
    let (accountId, db) := getOrCreateAccount db address
    .ok ((), { db with
      keypairs := db.keypairs ++ [{ accountId, noteKeypair, encryptionKeypair, membershipBlinding }] })

/-- `INSERT .. ON CONFLICT(column) DO NOTHING` of a row that refers to a raw event:
any other conflict is an error. -/
def insertUnlessPresent {τ : Type} (present known : Bool) (inserted : Option τ) (table : τ) :
    Except StorageError τ :=
  if present then .ok table
  else if known then orFail inserted .unique
  else .error .foreignKey

def saveNullifierEvent (db : Db) (event : NewNullifierEvent) : Except StorageError Db := do
  let poolNullifiers ← insertUnlessPresent
    (db.poolNullifiers.rows.any (·.nullifier == event.nullifier)) (db.hasEvent event.id)
    (db.poolNullifiers.insert? (fun id => { id, nullifier := event.nullifier, eventId := event.id })
      fun _ => rfl) db.poolNullifiers
  return { db with poolNullifiers }

def saveCommitmentEvent (db : Db) (event : NewCommitmentEvent) : Except StorageError Db := do
  let poolCommitments ← insertUnlessPresent
    (db.poolCommitments.rows.any (·.commitment == event.commitment)) (db.hasEvent event.id)
    (db.poolCommitments.insert? (fun id =>
      { id
        commitment := event.commitment
        leafIndex := event.index
        encryptedOutput := event.encryptedOutput
        eventId := event.id }) fun _ => rfl) db.poolCommitments
  return { db with poolCommitments }

def savePublicKeyEvent (db : Db) (event : PublicKeyEvent) : Except StorageError Db := do
  let publicKeys ← insertUnlessPresent
    (db.publicKeys.rows.any (·.eventId == event.id)) (db.hasEvent event.id)
    (db.publicKeys.insert?
      { owner := event.owner
        encryptionKey := event.encryptionKey
        noteKey := event.noteKey
        eventId := event.id }) db.publicKeys
  return { db with publicKeys }

/-- `INSERT OR IGNORE .. SELECT`: without the raw event there is nothing to insert. -/
def saveLeafAddedEvent (db : Db) (event : LeafAddedEvent) : Except StorageError Db :=
  match db.contractOf event.id with
  | none => .ok db
  | some contractId =>
      .ok { db with
        aspMembershipLeaves := db.aspMembershipLeaves.insertOrIgnore
          { contractId
            leafIndex := event.index
            leaf := event.leaf
            root := event.root
            eventId := event.id } }

def saveBatch {ε : Type} (save : Db → ε → Except StorageError Db) (events : List ε) : Wallet Unit :=
  Method.transaction fun db => do
    let db ← events.foldlM save db
    return ((), db)

def saveNullifierEventsBatch := saveBatch saveNullifierEvent

def saveCommitmentEventsBatch := saveBatch saveCommitmentEvent

def savePublicKeyEventsBatch := saveBatch savePublicKeyEvent

def saveLeafAddedEventsBatch := saveBatch saveLeafAddedEvent

@[simp] theorem orFail_some {α : Type} (a : α) (e : StorageError) : orFail (some a) e = .ok a := rfl

theorem orFail_eq_ok {α : Type} {value : Option α} {e : StorageError} {a : α}
    (h : orFail value e = .ok a) : value = some a := by
  cases value with
  | none => cases h
  | some b => cases h; rfl

theorem insertUnlessPresent_ok {τ : Type} {present known : Bool} {inserted : Option τ} {table t : τ}
    (h : insertUnlessPresent present known inserted table = .ok t) :
    (present = true ∧ t = table) ∨ (present = false ∧ known = true ∧ inserted = some t) := by
  unfold insertUnlessPresent at h
  split at h
  · rename_i hpresent
    cases h
    exact .inl ⟨hpresent, rfl⟩
  · rename_i hpresent
    split at h
    · rename_i hknown
      exact .inr ⟨by simpa using hpresent, hknown, orFail_eq_ok h⟩
    · cases h

variable {events : List ContractEvent}

section Save
variable {db db' : Db}

theorem saveNullifierEvent_ok {event : NewNullifierEvent} (h : saveNullifierEvent db event = .ok db') :
    db' = db ∨ db.hasEvent event.id = true ∧ ∃ poolNullifiers,
      poolNullifiers.rows = db.poolNullifiers.rows ++
          [⟨db.poolNullifiers.rows.length + 1, event.nullifier, event.id⟩] ∧
        db' = { db with poolNullifiers } := by
  obtain ⟨poolNullifiers, hinsert, h⟩ := bind_eq_ok h
  cases h
  rcases insertUnlessPresent_ok hinsert with ⟨-, rfl⟩ | ⟨-, hknown, hrows⟩
  · exact .inl rfl
  · exact .inr ⟨hknown, _, (NumberedTable.insert?_eq_some hrows).2, rfl⟩

theorem saveCommitmentEvent_ok {event : NewCommitmentEvent} (h : saveCommitmentEvent db event = .ok db') :
    db' = db ∨ db.hasEvent event.id = true ∧ ∃ poolCommitments,
      poolCommitments.rows = db.poolCommitments.rows ++
          [⟨db.poolCommitments.rows.length + 1, event.commitment, event.index, event.encryptedOutput, event.id⟩] ∧
        db' = { db with poolCommitments } := by
  obtain ⟨poolCommitments, hinsert, h⟩ := bind_eq_ok h
  cases h
  rcases insertUnlessPresent_ok hinsert with ⟨-, rfl⟩ | ⟨-, hknown, hrows⟩
  · exact .inl rfl
  · exact .inr ⟨hknown, _, (NumberedTable.insert?_eq_some hrows).2, rfl⟩

variable {I : Db → Prop}

theorem saveBatch_keeps {ε : Type} {save : Db → ε → Except StorageError Db} {events : List ε}
    (hsave : ∀ db event db', event ∈ events → save db event = .ok db' → I db → I db')
    (h : I db) : I (saveBatch save events db).2 := by
  have hfold : ∀ (todo : List ε) (db db' : Db), (∀ event ∈ todo, event ∈ events) →
      todo.foldlM save db = .ok db' → I db → I db' := by
    intro todo
    induction todo with
    | nil =>
      intro db db' _ hfold hdb
      cases hfold
      exact hdb
    | cons event rest ih =>
      intro db db' hsub hfold hdb
      rw [foldlM_cons] at hfold
      obtain ⟨db₁, hfirst, hrest⟩ := bind_eq_ok hfold
      exact ih db₁ db' (fun e he => hsub e (mem_cons_of_mem _ he)) hrest
        (hsave db event db₁ (hsub _ mem_cons_self) hfirst hdb)
  unfold saveBatch
  rcases hbody : events.foldlM save db with e | db'
  · rw [Method.transaction_of_error (by rw [hbody]; rfl)]
    exact h
  · rw [Method.transaction_of_ok (show _ = Except.ok ((), db') by rw [hbody]; rfl)]
    exact hfold events db db' (fun _ he => he) hbody h

theorem saveEventsBatch_eq (events : List ContractEvent) (db : Db) :
    saveEventsBatch events db = (.ok (), events.foldl saveEvent db) := rfl

theorem saveEventsBatch_keeps
    (hsave : ∀ db, ∀ event ∈ events, I db → I (saveEvent db event)) (h : I db) : I (saveEventsBatch events db).2 := by
  rw [saveEventsBatch_eq]
  induction events generalizing db with
  | nil => exact h
  | cons event rest ih =>
    exact ih (fun db e he => hsave db e (mem_cons_of_mem _ he)) (hsave db event mem_cons_self h)

end Save

section Contracts
variable {db : Db} {id : String} {contractId : Nat}

theorem hasEvent_iff : db.hasEvent id = true ↔ ∃ row ∈ db.rawContractEvents.rows, row.id = id := by
  simp [Db.hasEvent]

variable {db' : Db}

theorem hasEvent_of_isPrefix (h : db.rawContractEvents.rows <+: db'.rawContractEvents.rows)
    (hid : db.hasEvent id = true) : db'.hasEvent id = true := by
  obtain ⟨row, hrow, hrowid⟩ := hasEvent_iff.mp hid
  exact hasEvent_iff.mpr ⟨row, h.subset hrow, hrowid⟩

variable {row : RawContractEvent}

theorem event?_of_mem (h : row ∈ db.rawContractEvents.rows) :
    db.event? row.id = some row := by
  apply find?_of_unique h (beq_self_eq_true row.id)
  intro r hr hid
  exact db.rawContractEvents.eq_of_conflict (fun _ _ => Eq.symm) hr h (beq_iff_eq.mp hid)

theorem contractOf_of_mem (h : row ∈ db.rawContractEvents.rows) :
    db.contractOf row.id = some row.contractId := by
  rw [Db.contractOf, event?_of_mem h]
  rfl

theorem exists_contractOf (h : db.hasEvent id = true) : ∃ contractId, db.contractOf id = some contractId := by
  obtain ⟨row, hrow, rfl⟩ := hasEvent_iff.mp h
  exact ⟨_, contractOf_of_mem hrow⟩

theorem saveEvent_rows (db : Db) (event : ContractEvent) :
    ((saveEvent db event).rawContractEvents.rows = db.rawContractEvents.rows ∧
        db.hasEvent event.id = true) ∨
      db.hasEvent event.id = false ∧ (saveEvent db event).rawContractEvents.rows =
        db.rawContractEvents.rows ++
          [⟨event.id, event.ledger, db.contracts.rows.idxOf event.contractId + 1,
            joinTopics event.topics, event.value⟩] := by
  rcases db.rawContractEvents.insertOrIgnore_cases ⟨event.id, event.ledger,
    db.contracts.rows.idxOf event.contractId + 1, joinTopics event.topics, event.value⟩ with
    ⟨hsame, hpresent⟩ | ⟨hfresh, hrows⟩
  · exact .inl ⟨congrArg Table.rows hsame, hasEvent_iff.mpr hpresent⟩
  · refine .inr ⟨?_, hrows⟩
    rw [← Bool.not_eq_true, hasEvent_iff]
    rintro ⟨row, hrow, hid⟩
    exact hfresh row hrow hid

theorem saveEvent_isPrefix (db : Db) (event : ContractEvent) :
    db.rawContractEvents.rows <+: (saveEvent db event).rawContractEvents.rows := by
  rcases saveEvent_rows db event with ⟨hrows, -⟩ | ⟨-, hrows⟩
  · rw [hrows]
  · rw [hrows]
    exact prefix_append _ _

theorem hasEvent_saveEvent (db : Db) (event : ContractEvent) : (saveEvent db event).hasEvent event.id = true := by
  rw [hasEvent_iff]
  rcases saveEvent_rows db event with ⟨hrows, hevent⟩ | ⟨-, hrows⟩
  · rw [hrows]
    exact hasEvent_iff.mp hevent
  · rw [hrows]
    exact ⟨_, mem_append_right _ (mem_singleton.mpr rfl), rfl⟩

theorem hasEvent_saveEvents {event : ContractEvent}
    (h : event ∈ events) (db : Db) : (saveEventsBatch events db).2.hasEvent event.id = true := by
  rw [saveEventsBatch_eq]
  induction events generalizing db with
  | nil => cases h
  | cons first rest ih =>
    rcases mem_cons.mp h with rfl | hrest
    · have hkept : (saveEventsBatch rest (saveEvent db event)).2.hasEvent event.id = true :=
        saveEventsBatch_keeps (fun db e _ => hasEvent_of_isPrefix (saveEvent_isPrefix db e))
          (hasEvent_saveEvent db event)
      exact hkept
    · exact ih hrest (saveEvent db first)

theorem event?_of_isPrefix
    (hgrows : db.rawContractEvents.rows <+: db'.rawContractEvents.rows)
    (h : db.event? id = some row) : db'.event? id = some row := by
  have hmem := mem_of_find?_eq_some h
  have hid : row.id = id := by simpa using find?_some h
  rw [← hid]
  exact event?_of_mem (hgrows.subset hmem)

theorem contractOf_of_isPrefix (hgrows : db.rawContractEvents.rows <+: db'.rawContractEvents.rows)
    (h : db.contractOf id = some contractId) : db'.contractOf id = some contractId := by
  obtain ⟨row, hrow, rfl⟩ := Option.map_eq_some_iff.mp h
  rw [Db.contractOf, event?_of_isPrefix hgrows hrow]
  rfl

theorem commitment?_of_mem {row : PoolCommitment} (h : row ∈ db.poolCommitments.rows) :
    db.commitment? row.id = some row := by
  apply find?_of_unique h (beq_self_eq_true row.id)
  intro r hr hid
  exact db.poolCommitments.rowid_inj hr h (beq_iff_eq.mp hid)

end Contracts

end PrivatePayments.Sdk

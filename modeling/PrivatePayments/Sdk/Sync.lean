import Mathlib.Data.List.MinMax
import PrivatePayments.Sdk.Storage

/-! `state/src/storage.rs`: how far the contracts have been indexed. -/
namespace PrivatePayments.Sdk
open Lib List Function

structure SyncMetadata where
  contractId : String
  cursor : String
  lastIndexedLedger : Nat
  lastFullyIndexedLedger : Nat
deriving DecidableEq

def IndexingMetadata.sync (row : IndexingMetadata) (address : String) : SyncMetadata where
  contractId := address
  cursor := row.lastCursor.getD ""
  lastIndexedLedger := row.lastIndexedLedger
  lastFullyIndexedLedger := row.lastFullyIndexedLedger

def getSyncMetadata (db : Db) : List SyncMetadata :=
  (db.contracts.rows.zipIdx 1).filterMap fun entry =>
    (db.indexingMetadata entry.2).map (·.sync entry.1)

def networkTipLedger (db : Db) : Nat :=
  ((getSyncMetadata db).map fun entry => max entry.lastIndexedLedger entry.lastFullyIndexedLedger).max?.getD 0

/-- The inserted row, or the row that was there, with the new progress. -/
def IndexingMetadata.advance (row : Option IndexingMetadata) (entry : SyncMetadata) (fullyIndexed : Bool) :
    IndexingMetadata where
  lastCursor := some entry.cursor
  lastIndexedLedger := entry.lastIndexedLedger
  lastFullyIndexedLedger :=
    if fullyIndexed then entry.lastIndexedLedger else (row.map (·.lastFullyIndexedLedger)).getD 0

def saveSyncEntry (fullyIndexed : Bool) (db : Db) (entry : SyncMetadata) : Db :=
  let (contractId, db) := getOrCreateContractId db entry.contractId
  { db with
    indexingMetadata := update db.indexingMetadata contractId
      (some (.advance (db.indexingMetadata contractId) entry fullyIndexed)) }

def saveSyncProgress (metadata : List SyncMetadata) (fullyIndexed : Bool) : Wallet Unit :=
  Method.transaction fun db => .ok ((), metadata.foldl (saveSyncEntry fullyIndexed) db)

def clearIndexingCursors : Wallet Unit := fun db =>
  (.ok (), { db with
    indexingMetadata := fun id => (db.indexingMetadata id).map fun row => { row with lastCursor := none } })

def Db.metadata? (db : Db) (address : String) : Option IndexingMetadata :=
  db.indexingMetadata (db.contracts.rows.idxOf address + 1)

def Registered (db : Db) : Prop := ∀ id, db.contracts.rows.length < id → db.indexingMetadata id = none

section
variable {db db' : Db} {address : String} {row : IndexingMetadata} {entry : SyncMetadata}
  {fullyIndexed : Bool}

theorem registered_fresh : Registered Db.fresh := fun _ _ => rfl

theorem contracts_nodup (db : Db) : db.contracts.rows.Nodup := db.contracts.unique

theorem metadata?_of_notMem (h : Registered db) (habsent : address ∉ db.contracts.rows) :
    db.metadata? address = none := by
  apply h
  rw [idxOf_eq_length habsent]
  exact Nat.lt_succ_self _

section
variable (h : Registered db) (hgrown : db.contracts.rows <+: db'.contracts.rows)
  (hsame : db'.indexingMetadata = db.indexingMetadata)
include h hgrown hsame

theorem metadata?_of_isPrefix (address : String) : db'.metadata? address = db.metadata? address := by
  by_cases hmem : address ∈ db.contracts.rows
  · obtain ⟨rest, hrest⟩ := hgrown
    rw [Db.metadata?, Db.metadata?, hsame, ← hrest, idxOf_append_of_mem hmem]
  · rw [metadata?_of_notMem h hmem, Db.metadata?, hsame]
    apply h
    have hle := hgrown.length_le
    by_cases hmem' : address ∈ db'.contracts.rows
    · obtain ⟨rest, hrest⟩ := hgrown
      rw [← hrest, idxOf_append_of_notMem hmem]
      omega
    · rw [idxOf_eq_length hmem']
      omega

theorem Registered.of_isPrefix : Registered db' := by
  intro id hid
  rw [hsame]
  exact h id (hgrown.length_le.trans_lt hid)

end

theorem mem_getSyncMetadata (h : Registered db) {sync : SyncMetadata} :
    sync ∈ getSyncMetadata db ↔ ∃ row, db.metadata? sync.contractId = some row ∧ sync = row.sync sync.contractId := by
  unfold getSyncMetadata
  rw [mem_filterMap]
  constructor
  · rintro ⟨⟨address, id⟩, hmem, hsync⟩
    obtain ⟨row, hrow, rfl⟩ := Option.map_eq_some_iff.mp hsync
    refine ⟨row, ?_, rfl⟩
    rw [mk_mem_zipIdx_iff_le_and_getElem?_sub] at hmem
    obtain ⟨hle, hget⟩ := hmem
    obtain ⟨hlt, rfl⟩ := List.getElem?_eq_some_iff.mp hget
    change db.indexingMetadata (db.contracts.rows.idxOf db.contracts.rows[id - 1] + 1) = some row
    rwa [(contracts_nodup db).idxOf_getElem _ hlt, Nat.sub_add_cancel hle]
  · rintro ⟨row, hrow, hsync⟩
    have hmem : sync.contractId ∈ db.contracts.rows := by
      by_contra habsent
      rw [metadata?_of_notMem h habsent] at hrow
      cases hrow
    refine ⟨(sync.contractId, db.contracts.rows.idxOf sync.contractId + 1), ?_, ?_⟩
    · rw [mk_mem_zipIdx_iff_le_and_getElem?_sub]
      exact ⟨Nat.le_add_left _ _, getElem?_idxOf hmem⟩
    · rw [hsync]
      exact congrArg (Option.map _) hrow

theorem find_getSyncMetadata (h : Registered db) (address : String) :
    (getSyncMetadata db).find? (·.contractId == address) = (db.metadata? address).map (·.sync address) := by
  cases hfind : (getSyncMetadata db).find? (·.contractId == address) with
  | none =>
    cases hrow : db.metadata? address with
    | none => rfl
    | some row =>
      have hmem : row.sync address ∈ getSyncMetadata db := (mem_getSyncMetadata h).mpr ⟨row, hrow, rfl⟩
      exact absurd (beq_self_eq_true address) (find?_eq_none.mp hfind _ hmem)
  | some sync =>
    obtain ⟨row, hrow, heq⟩ := (mem_getSyncMetadata h).mp (mem_of_find?_eq_some hfind)
    obtain rfl : sync.contractId = address := by simpa using find?_some hfind
    rw [hrow, heq]
    rfl

theorem saveSyncEntry_contracts (fullyIndexed : Bool) (db : Db) (entry : SyncMetadata) :
    (saveSyncEntry fullyIndexed db entry).contracts = db.contracts.insertOrIgnore entry.contractId := rfl

theorem saveSyncEntry_metadata (fullyIndexed : Bool) (db : Db) (entry : SyncMetadata) :
    (saveSyncEntry fullyIndexed db entry).indexingMetadata =
      update db.indexingMetadata (db.contracts.rows.idxOf entry.contractId + 1)
        (some (.advance (db.metadata? entry.contractId) entry fullyIndexed)) := rfl

theorem metadata?_saveSyncEntry (h : Registered db) (address : String) :
    (saveSyncEntry fullyIndexed db entry).metadata? address =
      if address = entry.contractId then
        some (.advance (db.metadata? entry.contractId) entry fullyIndexed) else db.metadata? address := by
  rw [Db.metadata?, saveSyncEntry_contracts, saveSyncEntry_metadata,
    ← db.contracts.idxOf_insertOrIgnore entry.contractId]
  have hmem := mem_of_getElem? (db.contracts.getElem?_insertOrIgnore entry.contractId)
  split
  · rename_i heq
    rw [heq, update_self]
  · rename_i hne
    have hplace : (db.contracts.insertOrIgnore entry.contractId).rows.idxOf address + 1 ≠
        (db.contracts.insertOrIgnore entry.contractId).rows.idxOf entry.contractId + 1 := by
      intro heq
      exact hne ((idxOf_inj hmem).mp (Nat.succ.inj heq).symm).symm
    rw [update_of_ne hplace]
    exact @metadata?_of_isPrefix db { db with
      contracts := db.contracts.insertOrIgnore entry.contractId } h
      (db.contracts.prefix_insertOrIgnore _) rfl address

theorem Registered.saveSyncEntry (h : Registered db) (fullyIndexed : Bool) (entry : SyncMetadata) :
    Registered (saveSyncEntry fullyIndexed db entry) := by
  intro id hid
  obtain ⟨hlt, -⟩ := List.getElem?_eq_some_iff.mp (db.contracts.getElem?_insertOrIgnore entry.contractId)
  rw [saveSyncEntry_contracts] at hid
  rw [saveSyncEntry_metadata, update_of_ne (by omega)]
  exact h id ((db.contracts.prefix_insertOrIgnore _).length_le.trans_lt hid)

variable {metadata : List SyncMetadata}

theorem saveSyncProgress_keeps {I : Db → Prop}
    (hsave : ∀ db, ∀ entry ∈ metadata, I db → I (Sdk.saveSyncEntry fullyIndexed db entry)) (h : I db) :
    I (saveSyncProgress metadata fullyIndexed db).2 := by
  change I (metadata.foldl _ db)
  induction metadata generalizing db with
  | nil => exact h
  | cons entry rest ih =>
    exact ih (fun db e he => hsave db e (mem_cons_of_mem _ he)) (hsave db entry mem_cons_self h)

theorem metadata?_saveSyncProgress_of_notMem (h : Registered db)
    (habsent : address ∉ metadata.map SyncMetadata.contractId) :
    (saveSyncProgress metadata fullyIndexed db).2.metadata? address = db.metadata? address := by
  change (metadata.foldl (Sdk.saveSyncEntry fullyIndexed) db).metadata? address = _
  induction metadata generalizing db with
  | nil => rfl
  | cons entry rest ih =>
    rw [map_cons, mem_cons, not_or] at habsent
    rw [foldl_cons, ih (h.saveSyncEntry _ _) habsent.2, metadata?_saveSyncEntry h, if_neg habsent.1]

theorem metadata?_saveSyncProgress {ledger : Nat} (h : Registered db)
    (hsame : ∀ entry ∈ metadata, entry.lastIndexedLedger = ledger)
    (hmem : address ∈ metadata.map SyncMetadata.contractId) :
    ∃ row, (saveSyncProgress metadata true db).2.metadata? address = some row ∧
      row.lastIndexedLedger = ledger ∧ row.lastFullyIndexedLedger = ledger := by
  change ∃ row, (metadata.foldl (Sdk.saveSyncEntry true) db).metadata? _ = some row ∧ _
  induction metadata using List.reverseRecOn with
  | nil => cases hmem
  | append_singleton rest last ih =>
    have hregistered : Registered (rest.foldl (Sdk.saveSyncEntry true) db) :=
      saveSyncProgress_keeps (fun _ _ _ hdb => hdb.saveSyncEntry _ _) h
    have hlast := hsame last (mem_append_right _ (mem_singleton.mpr rfl))
    rw [foldl_append, foldl_cons, foldl_nil, metadata?_saveSyncEntry hregistered]
    by_cases heq : address = last.contractId
    · rw [if_pos heq]
      exact ⟨_, rfl, hlast, hlast⟩
    · rw [if_neg heq]
      rw [map_append, mem_append, map_singleton, mem_singleton] at hmem
      exact ih (fun e he => hsame e (mem_append_left _ he)) (hmem.resolve_right heq)

theorem networkTipLedger_eq {ledger : Nat} (h : Registered db) (hrow : db.metadata? address = some row)
    (hall : ∀ address row, db.metadata? address = some row →
      row.lastIndexedLedger = ledger ∧ row.lastFullyIndexedLedger = ledger) : networkTipLedger db = ledger := by
  have hvalues : (getSyncMetadata db).map (fun entry => max entry.lastIndexedLedger entry.lastFullyIndexedLedger) =
      List.replicate (getSyncMetadata db).length ledger := by
    rw [← map_const']
    apply map_congr_left
    intro entry hentry
    obtain ⟨row, hrow, heq⟩ := (mem_getSyncMetadata h).mp hentry
    obtain ⟨hindexed, hfully⟩ := hall _ row hrow
    rw [heq, IndexingMetadata.sync, hindexed, hfully, Nat.max_self]
  have hmem : row.sync address ∈ getSyncMetadata db := (mem_getSyncMetadata h).mpr ⟨row, hrow, rfl⟩
  rw [networkTipLedger, hvalues, max?_replicate, if_neg]
  · rfl
  · exact (length_pos_of_mem hmem).ne'

theorem metadata?_clear (db : Db) (address : String) :
    (clearIndexingCursors db).2.metadata? address =
      (db.metadata? address).map fun row => { row with lastCursor := none } := rfl

theorem Registered.clear (h : Registered db) : Registered (clearIndexingCursors db).2 := by
  intro id hid
  change (db.indexingMetadata id).map _ = none
  rw [h id hid]
  rfl

end

end PrivatePayments.Sdk

import Mathlib.Data.Finset.Max
import PrivatePayments.Sdk.SyncRun

/-! `state/src/storage.rs`: the keys that a recipient has registered. -/
namespace PrivatePayments.Sdk
open Contracts Lib List

structure PublicKeyEntry where
  address : Text
  encryptionKey : Bytes
  noteKey : Bytes
  ledger : Nat
deriving DecidableEq

structure RecipientLookup where
  entry : Option PublicKeyEntry
  registryFullySynced : Bool
  networkTipLedger : Nat
  registryLastFullyIndexedLedger : Nat

/-- `JOIN raw_contract_events .. WHERE p.owner = ?1`. -/
def registrationsOf (db : Db) (address : Text) : List PublicKeyEntry :=
  db.publicKeys.rows.filterMap fun row => do
    let event ← db.event? row.eventId
    if row.owner = address then some ⟨row.owner, row.encryptionKey, row.noteKey, event.ledger⟩ else none

/-- `MAX(r.ledger)` takes the other columns from a row with the largest ledger; of several it may
be any. -/
def lookupPublicKeyByAddress (visit : Visit PublicKeyEntry) (db : Db) (address : Text) :
    Option PublicKeyEntry :=
  let rows := visit.order (registrationsOf db address)
  rows.find? fun entry => rows.all fun other => decide (other.ledger ≤ entry.ledger)

def recipientLookup (visit : Visit PublicKeyEntry) (db : Db) (address : Text)
    (publicKeyRegistryContractId : String) : RecipientLookup :=
  let registryLastFullyIndexedLedger :=
    (((getSyncMetadata db).find? (·.contractId == publicKeyRegistryContractId)).map
      (·.lastFullyIndexedLedger)).getD 0
  { entry := lookupPublicKeyByAddress visit db address
    registryFullySynced :=
      decide (0 < networkTipLedger db) && decide (networkTipLedger db ≤ registryLastFullyIndexedLedger)
    networkTipLedger := networkTipLedger db
    registryLastFullyIndexedLedger }

def Entry.registration? (codec : Codec) (entry : Entry) : Option PublicKeyEntry :=
  match entry.event with
  | .publicKey owner encryptionKey noteKey =>
      some ⟨Published.ownerText codec owner, encryptionKey, noteKey, entry.ledger⟩
  | _ => none

def lastRegistration (codec : Codec) (chain : Chain) (registry : String) (address : Text) (ledger : Nat) :
    Option PublicKeyEntry :=
  (((chain.log.filter fun entry => entry.contractId == registry && decide (entry.ledger ≤ ledger)).filterMap
    (Entry.registration? codec)).filter fun entry => decide (entry.address = address)).getLast?

/-- A registration of the address, with whichever registry, that has been processed. -/
def ProcessedRegistration (codec : Codec) (chain : Chain) (db : Db) (address : Text)
    (registration : PublicKeyEntry) : Prop :=
  ∃ entry ∈ chain.log, entry.registration? codec = some registration ∧ registration.address = address ∧
    db.unprocessed entry.id = false

/-- The last registration is processed, and whatever else is processed of the address is from an
older ledger or says the same. -/
structure UpToDate (codec : Codec) (chain : Chain) (db : Db) (registry : String) (address : Text)
    (ledger : Nat) : Prop where
  processed : ∀ last, lastRegistration codec chain registry address ledger = some last →
    ProcessedRegistration codec chain db address last
  newest : ∀ registration, ProcessedRegistration codec chain db address registration →
    ∃ last, lastRegistration codec chain registry address ledger = some last ∧
      (registration.ledger < last.ledger ∨ registration = last)

def Visit.first {α : Type} [DecidableEq α] (a : α) : Visit α where
  order rows := if a ∈ rows then a :: rows.erase a else rows
  perm rows := by
    split
    · rename_i hmem
      exact (perm_cons_erase hmem).symm
    · exact .refl _

section Lookup
variable {codec : Codec} {chain : Chain} {db : Db} {registry : String} {address : Text} {ledger : Nat}
  {visit : Visit PublicKeyEntry} {entry : PublicKeyEntry}

theorem lookup_some (h : lookupPublicKeyByAddress visit db address = some entry) :
    entry ∈ registrationsOf db address ∧ ∀ other ∈ registrationsOf db address, other.ledger ≤ entry.ledger := by
  have hperm := visit.perm (registrationsOf db address)
  have hmax := find?_some h
  rw [all_eq_true] at hmax
  refine ⟨hperm.subset (mem_of_find?_eq_some h), fun other hother => ?_⟩
  exact of_decide_eq_true (hmax other (hperm.mem_iff.mpr hother))

theorem lookup_first (hentry : entry ∈ registrationsOf db address)
    (hmax : ∀ other ∈ registrationsOf db address, other.ledger ≤ entry.ledger) :
    lookupPublicKeyByAddress (.first entry) db address = some entry := by
  have hperm := (Visit.first entry).perm (registrationsOf db address)
  have horder : (Visit.first entry).order (registrationsOf db address) =
      entry :: (registrationsOf db address).erase entry := if_pos hentry
  have hall : ((Visit.first entry).order (registrationsOf db address)).all
      (fun other => decide (other.ledger ≤ entry.ledger)) = true := by
    rw [all_eq_true]
    intro other hother
    exact decide_eq_true (hmax other (hperm.subset hother))
  unfold lookupPublicKeyByAddress
  rw [horder] at hall ⊢
  exact find?_cons_of_pos hall

theorem exists_newest (h : registrationsOf db address ≠ []) : ∃ entry ∈ registrationsOf db address,
    ∀ other ∈ registrationsOf db address, other.ledger ≤ entry.ledger := by
  obtain ⟨entry, hentry⟩ := exists_mem_of_ne_nil _ h
  obtain ⟨newest, hnewest, hmax⟩ := Finset.exists_max_image (registrationsOf db address).toFinset
    PublicKeyEntry.ledger ⟨entry, mem_toFinset.mpr hentry⟩
  exact ⟨newest, mem_toFinset.mp hnewest, fun other hother => hmax other (mem_toFinset.mpr hother)⟩

theorem lookup_none (h : lookupPublicKeyByAddress visit db address = none) : registrationsOf db address = [] := by
  by_contra hne
  obtain ⟨newest, hnewest, hmax⟩ := exists_newest hne
  have hperm := visit.perm (registrationsOf db address)
  apply find?_eq_none.mp h newest (hperm.mem_iff.mpr hnewest)
  rw [all_eq_true]
  intro other hother
  exact decide_eq_true (hmax other (hperm.subset hother))

theorem Mirrored.mem_registrationsOf (h : Mirrored codec chain db) :
    entry ∈ registrationsOf db address ↔ ProcessedRegistration codec chain db address entry := by
  unfold registrationsOf
  rw [mem_filterMap]
  constructor
  · rintro ⟨row, hrow, hsome⟩
    obtain ⟨event, hevent, hsome⟩ := Option.bind_eq_some_iff.mp hsome
    split at hsome
    · rename_i howner
      cases hsome
      obtain ⟨source, hsource, -, published, hpublished, n, rfl⟩ := h.publicKeys row hrow
      have hid := publicKey?_id source published hpublished
      have hstored := mem_of_find?_eq_some hevent
      have hstoredid : event.id = source.id := by
        have hfound : event.id = published.id := by simpa [publicKeyRow] using find?_some hevent
        exact hfound.trans hid
      obtain ⟨source', hsource', hid', hledger, -⟩ := h.events event hstored
      obtain rfl : source' = source := chain.entry_eq hsource' hsource (hid'.symm.trans hstoredid)
      refine ⟨source', hsource, ?_, howner, ?_⟩
      · obtain ⟨id, ledger, contractId, what⟩ := source'
        cases what <;> cases hpublished
        rw [hledger]
        rfl
      · rw [← Bool.not_eq_true, unprocessed_iff]
        rintro ⟨-, hkeys, -, -⟩
        exact hkeys _ hrow hid
    · cases hsome
  · rintro ⟨source, hsource, hregistration, howner, hprocessed⟩
    obtain ⟨event, hevent, hid⟩ := hasEvent_iff.mp (h.hasEvent_of_processed hprocessed)
    obtain ⟨source', hsource', hid', hledger, -⟩ := h.events event hevent
    obtain rfl : source' = source := chain.entry_eq hsource' hsource (hid'.symm.trans hid)
    obtain ⟨published, hpublished⟩ : ∃ published, (source'.processed codec).publicKey? = some published := by
      obtain ⟨id, ledger, contractId, what⟩ := source'
      cases what <;> cases hregistration
      exact ⟨_, rfl⟩
    obtain ⟨n, hrow⟩ := h.publicKey_row hsource hprocessed hpublished
    refine ⟨_, hrow, ?_⟩
    have hfound : db.event? (publicKeyRow n published).eventId = some event := by
      rw [publicKeyRow, publicKey?_id source' published hpublished, ← hid]
      exact event?_of_mem hevent
    have hentry : (⟨published.owner, published.encryptionKey, published.noteKey, event.ledger⟩ :
        PublicKeyEntry) = entry := by
      rw [hledger]
      obtain ⟨id, ledger, contractId, what⟩ := source'
      cases what <;> cases hregistration
      cases hpublished
      rfl
    rw [hfound, ← hentry]
    exact if_pos ((congrArg PublicKeyEntry.address hentry).trans howner)

theorem recipientLookup_ledger (h : Registered db) :
    (recipientLookup visit db address registry).registryLastFullyIndexedLedger =
      ((db.metadata? registry).map (·.lastFullyIndexedLedger)).getD 0 := by
  unfold recipientLookup
  dsimp only
  rw [find_getSyncMetadata h]
  cases db.metadata? registry <;> rfl

theorem recipientLookup_synced (h : Registered db) :
    (recipientLookup visit db address registry).registryFullySynced = true ↔
      0 < networkTipLedger db ∧ ∃ row, db.metadata? registry = some row ∧
        networkTipLedger db ≤ row.lastFullyIndexedLedger := by
  have hledger := @recipientLookup_ledger _ registry address visit h
  unfold recipientLookup at hledger ⊢
  dsimp only at hledger ⊢
  rw [hledger, Bool.and_eq_true, decide_eq_true_iff, decide_eq_true_iff]
  cases db.metadata? registry with
  | none => simpa using Nat.ne_of_gt
  | some row => simp

theorem lookup_eq_iff (h : Mirrored codec chain db) :
    (∀ visit, lookupPublicKeyByAddress visit db address =
        lastRegistration codec chain registry address ledger) ↔ UpToDate codec chain db registry address ledger := by
  constructor
  · intro hlookup
    constructor
    · intro last hlast
      exact h.mem_registrationsOf.mp (lookup_some ((hlookup (.asStored _)).trans hlast)).1
    · intro registration hprocessed
      have hmem := h.mem_registrationsOf.mpr hprocessed
      obtain ⟨newest, hnewest, hmax⟩ := exists_newest (ne_nil_of_mem hmem)
      refine ⟨newest, (hlookup _).symm.trans (lookup_first hnewest hmax), ?_⟩
      rcases Nat.lt_or_eq_of_le (hmax registration hmem) with hlt | heq
      · exact .inl hlt
      · right
        have hfirst := lookup_first hmem fun other hother => heq ▸ hmax other hother
        have hother := lookup_first hnewest hmax
        rw [hlookup] at hfirst hother
        exact Option.some.inj (hfirst.symm.trans hother)
  · intro hcurrent visit
    cases hlookup : lookupPublicKeyByAddress visit db address with
    | none =>
      cases hlast : lastRegistration codec chain registry address ledger with
      | none => rfl
      | some last =>
        have hmem := h.mem_registrationsOf.mpr (hcurrent.processed last hlast)
        rw [lookup_none hlookup] at hmem
        cases hmem
    | some entry =>
      obtain ⟨hmem, hmax⟩ := lookup_some hlookup
      obtain ⟨last, hlast, hlt | rfl⟩ := hcurrent.newest entry (h.mem_registrationsOf.mp hmem)
      · have hle := hmax last (h.mem_registrationsOf.mpr (hcurrent.processed last hlast))
        omega
      · exact hlast.symm

/-- What is found when the registry is reported as synced is the current registration if and only
if the processed registrations are up to date then. -/
theorem recipient_lookup_iff {hordered : Ordered chain} {place : String → Nat} {indexer : Indexer}
    (hrun : SyncRun codec (chain.feed codec hordered place) indexer db) :
    (∀ visit, (recipientLookup visit db address registry).registryFullySynced = true →
      (recipientLookup visit db address registry).entry = lastRegistration codec chain registry address
        (recipientLookup visit db address registry).registryLastFullyIndexedLedger) ↔
      ∀ row, db.metadata? registry = some row → 0 < networkTipLedger db →
        networkTipLedger db ≤ row.lastFullyIndexedLedger →
        UpToDate codec chain db registry address row.lastFullyIndexedLedger := by
  have hregistered := hrun.synced.indexed.registered
  constructor
  · intro hlookup row hrow hpos hle
    rw [← lookup_eq_iff hrun.synced.mirrored]
    intro visit
    have hentry := hlookup visit ((recipientLookup_synced hregistered).mpr ⟨hpos, row, hrow, hle⟩)
    rw [recipientLookup_ledger hregistered, hrow] at hentry
    exact hentry
  · intro hcurrent visit hsynced
    obtain ⟨hpos, row, hrow, hle⟩ := (recipientLookup_synced hregistered).mp hsynced
    rw [recipientLookup_ledger hregistered, hrow]
    exact (lookup_eq_iff hrun.synced.mirrored).mpr (hcurrent row hrow hpos hle) visit

end Lookup

section Sample

def registeredAccount : PublicKeyRegistry.Account :=
  ⟨⟨0⟩, List.replicate 32 1, List.replicate 32 2⟩

def registryStorage : PublicKeyRegistry.Storage where
  registration := Function.update (fun _ => none) ⟨0⟩ (some (List.replicate 32 1, List.replicate 32 2))
  events := [registeredAccount]

theorem registry_history : PublicKeyRegistry.History registryStorage := by
  have hcall : PublicKeyRegistry.register (fun _ => true) registeredAccount .fresh =
      .ok ((), registryStorage) := rfl
  exact .call .start hcall

def registryChain : Chain where
  sources := [("K", .registry registryStorage)]
  log := [⟨"a", 1, "K", .ofAccount registeredAccount⟩]
  genuine := by
    intro source hsource
    rw [mem_singleton.mp hsource]
    exact .registry registry_history
  ids := by decide
  emitted := by
    intro source hsource
    rw [mem_singleton.mp hsource]
    rfl
  known := by
    intro entry hentry
    rw [mem_singleton.mp hentry]
    exact ⟨_, mem_singleton.mpr rfl, rfl⟩

theorem registryChain_ordered : Ordered registryChain where
  sorted := pairwise_singleton _ _
  positive := by
    intro entry hentry
    rw [mem_singleton.mp hentry]
    exact Nat.one_pos

def registryIndexer : Indexer := ⟨["K"], 1⟩

def registeredOwner (codec : Codec) : Text := Published.ownerText codec ⟨0⟩

def currentKeys (codec : Codec) : PublicKeyEntry :=
  ⟨registeredOwner codec, List.replicate 32 1, List.replicate 32 2, 1⟩

theorem registryChain_current (codec : Codec) :
    lastRegistration codec registryChain "K" (registeredOwner codec) 1 = some (currentKeys codec) := by
  change ([currentKeys codec].filter fun entry =>
    decide (entry.address = registeredOwner codec)).getLast? = some (currentKeys codec)
  simp [currentKeys]

theorem registryChain_entries : ∀ entry ∈ registryChain.log, entry.contractId ∈ registryIndexer.contractIds ∧
    registryIndexer.minPoolLedger ≤ entry.ledger := by
  intro entry hentry
  rw [mem_singleton.mp hentry]
  exact ⟨mem_singleton.mpr rfl, Nat.le_refl 1⟩

theorem registryChain_distinct : Distinct registryChain.log := ⟨nodup_nil, nodup_nil⟩

theorem registry_synced {place : String → Nat} {db : Db}
    (hrun : SyncRun unaryCodec (registryChain.feed unaryCodec registryChain_ordered place) registryIndexer db)
    (hindexed : AllIndexed registryIndexer 1 db) (visit : Visit PublicKeyEntry) (owner : Text) :
    (recipientLookup visit db owner "K").registryFullySynced = true ∧
      (recipientLookup visit db owner "K").registryLastFullyIndexedLedger = 1 := by
  have hregistered := hrun.synced.indexed.registered
  obtain ⟨row, hrow⟩ := hindexed.known "K" (mem_singleton.mpr rfl)
  have hfully := (hindexed.latest "K" row hrow).2
  have htip := networkTipLedger_eq hregistered hrow hindexed.latest
  refine ⟨(recipientLookup_synced hregistered).mpr ⟨by omega, row, hrow, by omega⟩, ?_⟩
  rw [recipientLookup_ledger hregistered, hrow]
  exact hfully

/-- The registry is reported as synced, and the processed registration is found. -/
theorem recipient_lookup_sample : ∃ db, ∀ visit,
    (recipientLookup visit db (registeredOwner unaryCodec) "K").registryFullySynced = true ∧
      (recipientLookup visit db (registeredOwner unaryCodec) "K").entry = some (currentKeys unaryCodec) := by
  obtain ⟨place, db, hrun, hprocessed, hindexed⟩ := exists_allProcessed unaryCodec registryIndexer
    registryChain_ordered (cons_ne_nil _ _) (fun entry hentry => (registryChain_entries entry hentry).1)
    (fun entry hentry => (registryChain_entries entry hentry).2) registryChain_distinct 1
  refine ⟨db, fun visit => ?_⟩
  obtain ⟨hsynced, hledger⟩ := registry_synced hrun hindexed visit (registeredOwner unaryCodec)
  refine ⟨hsynced, ((recipient_lookup_iff hrun).mpr (fun row hrow _ _ => ?_) visit hsynced).trans
    (hledger.symm ▸ registryChain_current unaryCodec)⟩
  rw [(hindexed.latest "K" row hrow).2]
  constructor
  · intro last hlast
    rw [← Option.some.inj ((registryChain_current unaryCodec).symm.trans hlast)]
    exact ⟨_, mem_singleton.mpr rfl, rfl, rfl, hprocessed _ (mem_singleton.mpr rfl)⟩
  · rintro registration ⟨entry, hentry, hregistration, -, -⟩
    rw [mem_singleton.mp hentry] at hregistration
    refine ⟨_, registryChain_current unaryCodec, .inr ?_⟩
    exact (Option.some.inj hregistration).symm

/-- The registration is stored, the registry is reported as synced, and nothing is found. -/
theorem waiting_registration_missed : ∃ place db,
    SyncRun unaryCodec (registryChain.feed unaryCodec registryChain_ordered place) registryIndexer db ∧
    ∀ visit, (recipientLookup visit db (registeredOwner unaryCodec) "K").registryFullySynced = true ∧
      (recipientLookup visit db (registeredOwner unaryCodec) "K").registryLastFullyIndexedLedger = 1 ∧
      (recipientLookup visit db (registeredOwner unaryCodec) "K").entry = none ∧
      lastRegistration unaryCodec registryChain "K" (registeredOwner unaryCodec) 1 =
        some (currentKeys unaryCodec) := by
  obtain ⟨place, db, hrun, -, hwaiting, hindexed⟩ := exists_allStored unaryCodec registryIndexer
    registryChain_ordered (cons_ne_nil _ _) (fun entry hentry => (registryChain_entries entry hentry).1)
    (fun entry hentry => (registryChain_entries entry hentry).2) 1
  refine ⟨place, db, hrun, fun visit => ?_⟩
  obtain ⟨hsynced, hledger⟩ := registry_synced hrun hindexed visit (registeredOwner unaryCodec)
  refine ⟨hsynced, hledger, ?_, registryChain_current unaryCodec⟩
  change lookupPublicKeyByAddress visit db _ = none
  cases hlookup : lookupPublicKeyByAddress visit db (registeredOwner unaryCodec) with
  | none => rfl
  | some found =>
    obtain ⟨entry, -, -, -, hprocessed⟩ := hrun.synced.mirrored.mem_registrationsOf.mp (lookup_some hlookup).1
    exact Bool.noConfusion ((hwaiting entry.id).symm.trans hprocessed)

end Sample

end PrivatePayments.Sdk

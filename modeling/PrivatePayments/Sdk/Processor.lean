import PrivatePayments.Sdk.Chain
import PrivatePayments.Sdk.Encryption
import PrivatePayments.Sdk.Wallet

/-! `state/src/processor.rs` and `pool/src/core/state.rs`: raw events become rows, and
rows become notes. -/
namespace PrivatePayments.Sdk
open Contracts Lib List

namespace ProcessedEvent

def nullifier? : ProcessedEvent → Option NewNullifierEvent
  | nullifier ev => some ev
  | _ => none

def commitment? : ProcessedEvent → Option NewCommitmentEvent
  | commitment ev => some ev
  | _ => none

def publicKey? : ProcessedEvent → Option PublicKeyEvent
  | publicKey ev => some ev
  | _ => none

def leafAdded? : ProcessedEvent → Option LeafAddedEvent
  | leafAdded ev => some ev
  | _ => none

/-- The raw event, of the kinds that are stored. -/
def id? : ProcessedEvent → Option String
  | nullifier ev => some ev.id
  | commitment ev => some ev.id
  | publicKey ev => some ev.id
  | leafAdded ev => some ev.id
  | _ => none

section
variable {parsed : ProcessedEvent}

theorem id?_of_nullifier {ev : NewNullifierEvent} (h : parsed.nullifier? = some ev) : parsed.id? = some ev.id := by
  cases parsed <;> cases h
  rfl

theorem id?_of_commitment {ev : NewCommitmentEvent} (h : parsed.commitment? = some ev) : parsed.id? = some ev.id := by
  cases parsed <;> cases h
  rfl

theorem id?_of_publicKey {ev : PublicKeyEvent} (h : parsed.publicKey? = some ev) : parsed.id? = some ev.id := by
  cases parsed <;> cases h
  rfl

theorem id?_of_leafAdded {ev : LeafAddedEvent} (h : parsed.leafAdded? = some ev) : parsed.id? = some ev.id := by
  cases parsed <;> cases h
  rfl

end

end ProcessedEvent

open ProcessedEvent (nullifier? commitment? publicKey? leafAdded? id?_of_nullifier id?_of_commitment id?_of_publicKey id?_of_leafAdded)

/-- The events are popped, the last one first; those that cannot be parsed are left. -/
def parseEvents (codec : Codec) (events : List ContractEvent) : List ProcessedEvent :=
  events.reverse.filterMap fun event => (parseEvent codec event).toOption

def saveProcessed (parsed : List ProcessedEvent) : Wallet Bool := do
  saveNullifierEventsBatch (parsed.filterMap nullifier?)
  saveCommitmentEventsBatch (parsed.filterMap commitment?)
  savePublicKeyEventsBatch (parsed.filterMap publicKey?)
  saveLeafAddedEventsBatch (parsed.filterMap leafAdded?)
  return true

def processEvents (codec : Codec) (limit : Nat) : Wallet Bool := fun db =>
  match getUnprocessedEvents db limit with
  | [] => (.ok false, db)
  | unprocessed => saveProcessed (parseEvents codec unprocessed) db

def processRun (codec : Codec) (limit : Nat) (db : Db) (n : Nat) : Db :=
  (fun d => (processEvents codec limit d).2)^[n] db

theorem processRun_succ (codec : Codec) (limit : Nat) (db : Db) (n : Nat) :
    processRun codec limit db (n + 1) = (processEvents codec limit (processRun codec limit db n)).2 :=
  Function.iterate_succ_apply' _ _ _

def processNotes (limit : Nat) (derive : DeriveNote) : Wallet Bool := do
  let scanned ← scanCommitmentsForUserNotes limit derive
  let reconciled ← reconcileNullifiers limit
  return scanned || reconciled

def processFetchLimit : Nat := 50

/-- With the function that derives notes as a parameter. -/
def processLocalStateBatch (codec : Codec) (derive : DeriveNote) : Wallet Bool := do
  let didRaw ← processEvents codec processFetchLimit
  let didNotes ← processNotes processFetchLimit derive
  return didRaw || didNotes

/-! What the rows are made of, and which of them keep an event out. -/

def nullifierRow (id : Nat) (event : NewNullifierEvent) : PoolNullifier :=
  ⟨id, event.nullifier, event.id⟩

def commitmentRow (id : Nat) (event : NewCommitmentEvent) : PoolCommitment :=
  ⟨id, event.commitment, event.index, event.encryptedOutput, event.id⟩

def publicKeyRow (_ : Nat) (event : PublicKeyEvent) : PublicKeyRow :=
  ⟨event.owner, event.encryptionKey, event.noteKey, event.id⟩

def leafRow (db : Db) (_ : Nat) (event : LeafAddedEvent) : AspMembershipLeaf :=
  ⟨(db.contractOf event.id).getD 0, event.index, event.leaf, event.root, event.id⟩

def sameNullifier (row : PoolNullifier) (event : NewNullifierEvent) : Bool :=
  row.nullifier == event.nullifier

def sameCommitment (row : PoolCommitment) (event : NewCommitmentEvent) : Bool :=
  row.commitment == event.commitment

def samePublicKey (row : PublicKeyRow) (event : PublicKeyEvent) : Bool := row.eventId == event.id

def sameLeaf (db : Db) (row : AspMembershipLeaf) (event : LeafAddedEvent) : Bool :=
  row.contractId == (db.contractOf event.id).getD 0 && row.leafIndex == event.index

variable {ε ρ : Type} {id : String} {rows : List ρ} {event : NewCommitmentEvent}
  {save : Db → ε → Except StorageError Db} {eventId : ρ → String} {idOf : ε → String} {clash : ρ → ε → Bool}
  {make : Nat → ε → ρ} {select : ProcessedEvent → Option ε}

section Save
variable {db : Db}

theorem saveBatch_stores {rows : Db → List ρ} {P : Db → Prop} (events : List ε)
    (hstep : ∀ d, P d → ∀ event ∈ events, (∀ row ∈ rows d, eventId row ≠ idOf event) →
      ∃ d', save d event = .ok d' ∧ rows d' = insertNew clash make (rows d) event ∧ P d')
    (hmake : ∀ n event, eventId (make n event) = idOf event) (hnodup : (events.map idOf).Nodup)
    (hfresh : ∀ event ∈ events, ∀ row ∈ rows db, eventId row ≠ idOf event) (h : P db) :
    ∃ db', saveBatch save events db = (.ok (), db') ∧ rows db' = insertAll clash make (rows db) events ∧ P db' := by
  have hfold : ∃ db', events.foldlM save db = .ok db' ∧
      rows db' = insertAll clash make (rows db) events ∧ P db' := by
    induction events generalizing db with
    | nil => exact ⟨db, rfl, rfl, h⟩
    | cons event rest ih =>
      obtain ⟨d, hsave, hrows, hd⟩ := hstep db h event mem_cons_self (hfresh event mem_cons_self)
      rw [map_cons, nodup_cons] at hnodup
      have hrest : ∀ e ∈ rest, ∀ row ∈ rows d, eventId row ≠ idOf e := by
        intro e he row hrow
        have hone : rows d = insertAll clash make (rows db) [event] := hrows
        rw [hone] at hrow
        rcases mem_insertAll hrow with hold | ⟨first, hfirst, n, rfl⟩
        · exact hfresh e (mem_cons_of_mem _ he) row hold
        · rw [hmake, mem_singleton.mp hfirst]
          intro heq
          exact hnodup.1 (heq ▸ mem_map_of_mem he)
      obtain ⟨db', hfold, hrows', hdb'⟩ := ih
        (fun d hd e he => hstep d hd e (mem_cons_of_mem _ he)) hnodup.2 hrest hd
      refine ⟨db', ?_, ?_, hdb'⟩
      · rw [foldlM_cons, hsave]
        exact hfold
      · rw [hrows', hrows]
        rfl
  obtain ⟨db', hfold, hrows, hdb'⟩ := hfold
  refine ⟨db', Method.transaction_of_ok ?_, hrows, hdb'⟩
  rw [hfold]
  rfl

theorem insertUnlessPresent_of_known {τ : Type} {present known : Bool} {inserted : Option τ} {table : τ}
    (hknown : known = true) (hinserted : present = false → ∃ t, inserted = some t) :
    ∃ t, insertUnlessPresent present known inserted table = .ok t ∧
      ((present = true ∧ t = table) ∨ present = false ∧ inserted = some t) := by
  cases present with
  | true => exact ⟨table, rfl, .inl ⟨rfl, rfl⟩⟩
  | false =>
    obtain ⟨t, ht⟩ := hinserted rfl
    refine ⟨t, ?_, .inr ⟨rfl, ht⟩⟩
    rw [insertUnlessPresent, if_neg Bool.false_ne_true, if_pos hknown, ht, orFail_some]

theorem numbered_stores {rowid : ρ → Nat} {conflict : ρ → ρ → Prop} [DecidableRel conflict]
    {known : Bool} {table : NumberedTable ρ rowid conflict} {event : ε}
    {hnumber : ∀ n, rowid (make n event) = n} (hknown : known = true)
    (hconflict : ∀ row ∈ table.rows, ∀ n, conflict row (make n event) → clash row event = true) :
    ∃ t, insertUnlessPresent (table.rows.any (clash · event)) known (table.insert? (make · event) hnumber) table = .ok t ∧
      t.rows = insertNew clash make table.rows event := by
  have hinserted : table.rows.any (clash · event) = false → ∃ t, table.insert? (make · event) hnumber = some t := by
    intro habsent
    apply NumberedTable.insert?_of_fresh
    intro row hrow hsame
    exact any_eq_false.mp habsent row hrow (hconflict row hrow _ hsame)
  obtain ⟨t, hinsert, hcases⟩ := insertUnlessPresent_of_known hknown hinserted
  refine ⟨t, hinsert, ?_⟩
  rw [insertNew]
  rcases hcases with ⟨hpresent, rfl⟩ | ⟨habsent, hrows⟩
  · rw [if_pos hpresent]
  · rw [if_neg (by simp [habsent]), (NumberedTable.insert?_eq_some hrows).2]

theorem saveNullifierEvent_stores {event : NewNullifierEvent} (hevent : db.hasEvent event.id = true)
    (hfresh : ∀ row ∈ db.poolNullifiers.rows, row.eventId ≠ event.id) :
    ∃ poolNullifiers, saveNullifierEvent db event = .ok { db with poolNullifiers } ∧
      poolNullifiers.rows = insertNew sameNullifier nullifierRow db.poolNullifiers.rows event := by
  obtain ⟨t, hinsert, hrows⟩ := @numbered_stores _ _ sameNullifier nullifierRow _ _ _ _ db.poolNullifiers event
    (fun _ => rfl) hevent fun row hrow _ hsame => beq_iff_eq.mpr (hsame.resolve_right (hfresh row hrow))
  refine ⟨t, ?_, hrows⟩
  rw [saveNullifierEvent]
  exact hinsert ▸ rfl

theorem saveCommitmentEvent_stores (hevent : db.hasEvent event.id = true)
    (hfresh : ∀ row ∈ db.poolCommitments.rows, row.eventId ≠ event.id) :
    ∃ poolCommitments, saveCommitmentEvent db event = .ok { db with poolCommitments } ∧
      poolCommitments.rows = insertNew sameCommitment commitmentRow db.poolCommitments.rows event := by
  obtain ⟨t, hinsert, hrows⟩ := @numbered_stores _ _ sameCommitment commitmentRow _ _ _ _ db.poolCommitments event
    (fun _ => rfl) hevent fun row hrow _ hsame => beq_iff_eq.mpr (hsame.resolve_right (hfresh row hrow))
  refine ⟨t, ?_, hrows⟩
  rw [saveCommitmentEvent]
  exact hinsert ▸ rfl

theorem savePublicKeyEvent_stores {event : PublicKeyEvent} (hevent : db.hasEvent event.id = true)
    (hfresh : ∀ row ∈ db.publicKeys.rows, row.eventId ≠ event.id) :
    ∃ publicKeys, savePublicKeyEvent db event = .ok { db with publicKeys } ∧
      publicKeys.rows = insertNew samePublicKey publicKeyRow db.publicKeys.rows event := by
  have hinserted : db.publicKeys.rows.any (·.eventId == event.id) = false →
      ∃ t, db.publicKeys.insert? (publicKeyRow 0 event) = some t :=
    fun _ => Table.insert?_of_fresh hfresh
  obtain ⟨t, hinsert, hcases⟩ := insertUnlessPresent_of_known hevent hinserted
  refine ⟨t, ?_, ?_⟩
  · rw [savePublicKeyEvent]
    exact hinsert ▸ rfl
  · unfold insertNew samePublicKey
    rcases hcases with ⟨hpresent, rfl⟩ | ⟨habsent, hrows⟩
    · rw [if_pos hpresent]
    · rw [if_neg (by simp [habsent]), (Table.insert?_eq_some hrows).2]
      rfl

theorem saveLeafAddedEvent_stores {event : LeafAddedEvent} (hevent : db.hasEvent event.id = true)
    (hfresh : ∀ row ∈ db.aspMembershipLeaves.rows, row.eventId ≠ event.id) :
    ∃ aspMembershipLeaves, saveLeafAddedEvent db event = .ok { db with aspMembershipLeaves } ∧
      aspMembershipLeaves.rows = insertNew (sameLeaf db) (leafRow db) db.aspMembershipLeaves.rows event := by
  obtain ⟨contractId, hcontract⟩ := exists_contractOf hevent
  have hmake : leafRow db (db.aspMembershipLeaves.rows.length + 1) event =
      ⟨contractId, event.index, event.leaf, event.root, event.id⟩ := by
    rw [leafRow, hcontract]
    rfl
  refine ⟨db.aspMembershipLeaves.insertOrIgnore ⟨contractId, event.index, event.leaf, event.root, event.id⟩, ?_, ?_⟩
  · rw [saveLeafAddedEvent, hcontract]
  · unfold insertNew sameLeaf
    rw [hmake, hcontract, Option.getD_some]
    rcases db.aspMembershipLeaves.insertOrIgnore_cases ⟨contractId, event.index, event.leaf, event.root, event.id⟩ with
      ⟨hsame, row, hrow, hconflict⟩ | ⟨hnew, hrows⟩
    · have htaken := hconflict.resolve_right (hfresh row hrow)
      rw [hsame, if_pos]
      exact any_eq_true.mpr ⟨row, hrow, by simpa using htaken⟩
    · rw [hrows, if_neg]
      intro hany
      obtain ⟨row, hrow, htaken⟩ := any_eq_true.mp hany
      exact hnew row hrow (.inl (by simpa using htaken))

theorem unprocessed_iff : db.unprocessed id = true ↔
    (∀ row ∈ db.poolCommitments.rows, row.eventId ≠ id) ∧
      (∀ row ∈ db.publicKeys.rows, row.eventId ≠ id) ∧
      (∀ row ∈ db.aspMembershipLeaves.rows, row.eventId ≠ id) ∧ ∀ row ∈ db.poolNullifiers.rows, row.eventId ≠ id := by
  simp [Db.unprocessed, and_assoc]

/-- Events of the raw table that have no rows yet. -/
structure Unsaved (db : Db) (parsed : List ProcessedEvent) : Prop where
  stored : ∀ event ∈ parsed, ∀ id, event.id? = some id → db.hasEvent id = true
  unprocessed : ∀ event ∈ parsed, ∀ id, event.id? = some id → db.unprocessed id = true
  ids : (parsed.filterMap ProcessedEvent.id?).Nodup

structure Saved (parsed : List ProcessedEvent) (db db' : Db) : Prop where
  frame : ∃ poolNullifiers poolCommitments publicKeys aspMembershipLeaves, db' =
    { db with poolNullifiers, poolCommitments, publicKeys, aspMembershipLeaves }
  nullifiers : db'.poolNullifiers.rows = insertAll sameNullifier nullifierRow db.poolNullifiers.rows
    (parsed.filterMap nullifier?)
  commitments : db'.poolCommitments.rows = insertAll sameCommitment commitmentRow db.poolCommitments.rows
    (parsed.filterMap commitment?)
  publicKeys : db'.publicKeys.rows = insertAll samePublicKey publicKeyRow db.publicKeys.rows
    (parsed.filterMap publicKey?)
  leaves : db'.aspMembershipLeaves.rows = insertAll (sameLeaf db) (leafRow db) db.aspMembershipLeaves.rows
    (parsed.filterMap leafAdded?)

variable {parsed : List ProcessedEvent}

theorem eventId_insertAll_ne
    (hselect : ∀ {p event}, select p = some event → p.id? = some (idOf event))
    (hmake : ∀ n event, eventId (make n event) = idOf event) (hold : ∀ row ∈ rows, eventId row ≠ id)
    (hnew : ¬∃ event ∈ parsed, event.id? = some id) :
    ∀ row ∈ insertAll clash make rows (parsed.filterMap select), eventId row ≠ id := by
  intro row hrow hid
  rcases mem_insertAll hrow with hrow | ⟨event, hevent, n, rfl⟩
  · exact hold row hrow hid
  · obtain ⟨p, hp, hsome⟩ := mem_filterMap.mp hevent
    exact hnew ⟨p, hp, (hselect hsome).trans (congrArg some ((hmake n event).symm.trans hid))⟩

theorem Saved.processed_or_mem {db' : Db} (h : Saved parsed db db')
    (hprocessed : db'.unprocessed id = false) :
    db.unprocessed id = false ∨ ∃ event ∈ parsed, event.id? = some id := by
  by_contra hnone
  rw [not_or, Bool.not_eq_false, unprocessed_iff] at hnone
  obtain ⟨⟨hcommitments, hpublicKeys, hleaves, hnullifiers⟩, hnew⟩ := hnone
  rw [← Bool.not_eq_true, unprocessed_iff, h.commitments, h.publicKeys, h.leaves, h.nullifiers] at hprocessed
  exact hprocessed ⟨eventId_insertAll_ne id?_of_commitment (fun _ _ => rfl) hcommitments hnew,
    eventId_insertAll_ne id?_of_publicKey (fun _ _ => rfl) hpublicKeys hnew,
    eventId_insertAll_ne id?_of_leafAdded (fun _ _ => rfl) hleaves hnew,
    eventId_insertAll_ne id?_of_nullifier (fun _ _ => rfl) hnullifiers hnew⟩

namespace Unsaved

theorem saveTable {τ : Type} (h : Unsaved db parsed)
    (set : τ → Db) (rows : Db → List ρ) (hevents : ∀ t, (set t).rawContractEvents = db.rawContractEvents)
    (hselect : ∀ {p event}, select p = some event → p.id? = some (idOf event))
    (hstores : ∀ t event, (set t).hasEvent (idOf event) = true → (∀ row ∈ rows (set t), eventId row ≠ idOf event) →
      ∃ t', save (set t) event = .ok (set t') ∧ rows (set t') = insertNew clash make (rows (set t)) event)
    (hmake : ∀ n event, eventId (make n event) = idOf event) (start : τ)
    (hfresh : ∀ id, db.unprocessed id = true → ∀ row ∈ rows (set start), eventId row ≠ id) :
    ∃ t, saveBatch save (parsed.filterMap select) (set start) = (.ok (), set t) ∧
      rows (set t) = insertAll clash make (rows (set start)) (parsed.filterMap select) := by
  have hids : ((parsed.filterMap select).map idOf).Nodup := by
    rw [List.Nodup, pairwise_map, pairwise_filterMap]
    apply List.Pairwise.imp _ (pairwise_filterMap.mp h.ids)
    intro a b hne e he f hf
    exact hne _ (hselect he) _ (hselect hf)
  have hparsed : ∀ event ∈ parsed.filterMap select,
      db.hasEvent (idOf event) = true ∧ db.unprocessed (idOf event) = true := by
    intro event hevent
    obtain ⟨p, hp, hsome⟩ := mem_filterMap.mp hevent
    exact ⟨h.stored p hp _ (hselect hsome), h.unprocessed p hp _ (hselect hsome)⟩
  have hstep : ∀ d, (∃ t, d = set t) → ∀ event ∈ parsed.filterMap select,
      (∀ row ∈ rows d, eventId row ≠ idOf event) →
      ∃ d', save d event = .ok d' ∧ rows d' = insertNew clash make (rows d) event ∧ ∃ t, d' = set t := by
    rintro d ⟨t, rfl⟩ event hevent hrows
    obtain ⟨t', hsave, ht'⟩ := hstores t event (by rw [Db.hasEvent, hevents]; exact (hparsed event hevent).1) hrows
    exact ⟨_, hsave, ht', t', rfl⟩
  obtain ⟨d', hsave, hrows, t, rfl⟩ := saveBatch_stores _ hstep hmake hids
    (fun event hevent => hfresh _ (hparsed event hevent).2) ⟨start, rfl⟩
  exact ⟨t, hsave, hrows⟩

theorem saveProcessed (h : Unsaved db parsed) :
    ∃ db', Sdk.saveProcessed parsed db = (.ok true, db') ∧ Saved parsed db db' := by
  obtain ⟨n, hnullifiers, hn⟩ := h.saveTable (fun t => { db with poolNullifiers := t }) (·.poolNullifiers.rows)
    (fun _ => rfl) id?_of_nullifier (fun _ _ => saveNullifierEvent_stores) (fun _ _ => rfl) db.poolNullifiers
    fun id hid => (unprocessed_iff.mp hid).2.2.2
  obtain ⟨c, hcommitments, hc⟩ := h.saveTable (fun t => { db with poolNullifiers := n, poolCommitments := t })
    (·.poolCommitments.rows) (fun _ => rfl) id?_of_commitment (fun _ _ => saveCommitmentEvent_stores)
    (fun _ _ => rfl) db.poolCommitments fun id hid => (unprocessed_iff.mp hid).1
  obtain ⟨p, hpublicKeys, hp⟩ := h.saveTable
    (fun t => { db with poolNullifiers := n, poolCommitments := c, publicKeys := t }) (·.publicKeys.rows)
    (fun _ => rfl) id?_of_publicKey (fun _ _ => savePublicKeyEvent_stores) (fun _ _ => rfl) db.publicKeys
    fun id hid => (unprocessed_iff.mp hid).2.1
  obtain ⟨l, hleaves, hl⟩ := @saveTable _ _ saveLeafAddedEvent _ _ (sameLeaf db) (leafRow db) _ db parsed _ h
    (fun t => { db with poolNullifiers := n, poolCommitments := c, publicKeys := p, aspMembershipLeaves := t })
    (·.aspMembershipLeaves.rows) (fun _ => rfl) id?_of_leafAdded (fun _ _ => saveLeafAddedEvent_stores)
    (fun _ _ => rfl) db.aspMembershipLeaves fun id hid => (unprocessed_iff.mp hid).2.2.1
  refine ⟨_, ?_, ⟨n, c, p, l, rfl⟩, hn, hc, hp, hl⟩
  calc Sdk.saveProcessed parsed db
    _ = _ := Method.bind_of_ok hnullifiers
    _ = _ := Method.bind_of_ok hcommitments
    _ = _ := Method.bind_of_ok hpublicKeys
    _ = _ := Method.bind_of_ok hleaves

end Unsaved

end Save

/-! A wallet that has stored nothing but events of the chain. -/

def Entry.processed (codec : Codec) (entry : Entry) : ProcessedEvent :=
  entry.event.processed codec entry.id

def Backed {ε ρ : Type} (codec : Codec) (chain : Chain) (db : Db) (select : ProcessedEvent → Option ε)
    (make : Nat → ε → ρ) (rows : List ρ) : Prop :=
  ∀ row ∈ rows, ∃ entry ∈ chain.log, db.hasEvent entry.id = true ∧
    ∃ event, select (entry.processed codec) = some event ∧ ∃ n, row = make n event

structure Mirrored (codec : Codec) (chain : Chain) (db : Db) : Prop where
  events : ∀ row ∈ db.rawContractEvents.rows, ∃ entry ∈ chain.log, row.id = entry.id ∧
    row.ledger = entry.ledger ∧ db.address? row.contractId = some entry.contractId ∧
    row.topics = joinTopics (entry.contractEvent codec).topics ∧
    row.value = (entry.contractEvent codec).value
  nullifiers : Backed codec chain db nullifier? nullifierRow db.poolNullifiers.rows
  commitments : Backed codec chain db commitment? commitmentRow db.poolCommitments.rows
  publicKeys : Backed codec chain db publicKey? publicKeyRow db.publicKeys.rows
  leaves : Backed codec chain db leafAdded? (leafRow db) db.aspMembershipLeaves.rows

structure Batch (codec : Codec) (chain : Chain) (db : Db) (limit : Nat) (batch : List Entry) : Prop where
  events : getUnprocessedEvents db limit = batch.map (Entry.contractEvent codec)
  logged : ∀ entry ∈ batch, entry ∈ chain.log
  stored : ∀ entry ∈ batch, db.hasEvent entry.id = true
  unprocessed : ∀ entry ∈ batch, db.unprocessed entry.id = true
  ids : (batch.map Entry.id).Nodup
  length_le : batch.length ≤ limit
  complete : batch = [] → 0 < limit → ∀ row ∈ db.rawContractEvents.rows, db.unprocessed row.id = false

section Parse
variable {codec : Codec}

theorem parseEventMetadata_id {event : ContractEvent} {parsed : ParsedContractEvent}
    (h : parseEventMetadata codec event = .ok parsed) : parsed.id = event.id := by
  unfold parseEventMetadata at h
  split at h
  · cases h
  · iterate 5 obtain ⟨_, -, h⟩ := bind_eq_ok h
    cases h
    rfl

namespace ParsedContractEvent
variable {parsed : ParsedContractEvent}

theorem parseNewNullifierEvent_id {event : NewNullifierEvent}
    (h : parsed.parseNewNullifierEvent = .ok event) : event.id = parsed.id := by
  iterate 3 obtain ⟨_, -, h⟩ := bind_eq_ok h
  cases h
  rfl

theorem parseNewCommitmentEvent_id
    (h : parsed.parseNewCommitmentEvent = .ok event) : event.id = parsed.id := by
  iterate 7 obtain ⟨_, -, h⟩ := bind_eq_ok h
  cases h
  rfl

theorem parsePublicKeyEvent_id {event : PublicKeyEvent}
    (h : parsed.parsePublicKeyEvent codec = .ok event) : event.id = parsed.id := by
  iterate 4 obtain ⟨_, -, h⟩ := bind_eq_ok h
  cases h
  rfl

theorem parseLeafAdded_id {event : LeafAddedEvent} (h : parsed.parseLeafAdded = .ok event) :
    event.id = parsed.id := by
  iterate 3 obtain ⟨_, -, h⟩ := bind_eq_ok h
  split at h
  · iterate 2 obtain ⟨_, -, h⟩ := bind_eq_ok h
    cases h
    rfl
  · cases h

end ParsedContractEvent

theorem parseEvent_id {event : ContractEvent} {parsed : ProcessedEvent}
    (h : parseEvent codec event = .ok parsed) (hid : parsed.id? = some id) : id = event.id := by
  obtain ⟨metadata, hmetadata, h⟩ := bind_eq_ok h
  rw [← parseEventMetadata_id hmetadata]
  dsimp only at h
  -- the kinds that are not stored have no id
  split_ifs at h <;> obtain ⟨ev, hev, h⟩ := bind_eq_ok h <;> cases h <;> cases hid
  · exact ParsedContractEvent.parseNewNullifierEvent_id hev
  · exact ParsedContractEvent.parseNewCommitmentEvent_id hev
  · exact ParsedContractEvent.parsePublicKeyEvent_id hev
  · exact ParsedContractEvent.parseLeafAdded_id hev

end Parse

section Mirrored
variable {codec : Codec} {chain : Chain} {db : Db} {limit : Nat} {batch : List Entry}

theorem splitTopics_contractEvent (codec : Codec) (entry : Entry) :
    splitTopics (joinTopics (entry.contractEvent codec).topics) = (entry.contractEvent codec).topics := by
  apply splitOn_intercalate
  · intro topic htopic hcomma
    obtain ⟨data, -, rfl⟩ := mem_map.mp htopic
    exact codec.comma_notMem _ hcomma
  · exact cons_ne_nil _ _

def pendingRows (db : Db) : List (RawContractEvent × String) :=
  db.rawContractEvents.rows.filterMap fun row => do
    let address ← db.address? row.contractId
    if db.unprocessed row.id then some (row, address) else none

theorem mem_pendingRows {entry : RawContractEvent × String} : entry ∈ pendingRows db ↔
    entry.1 ∈ db.rawContractEvents.rows ∧ db.address? entry.1.contractId = some entry.2 ∧
      db.unprocessed entry.1.id = true := by
  obtain ⟨row, address⟩ := entry
  rw [pendingRows, mem_filterMap]
  constructor
  · rintro ⟨r, hr, hsome⟩
    obtain ⟨a, ha, hif⟩ := Option.bind_eq_some_iff.mp hsome
    split at hif
    · rename_i hunprocessed
      cases hif
      exact ⟨hr, ha, hunprocessed⟩
    · cases hif
  · rintro ⟨hrow, haddress, hunprocessed⟩
    refine ⟨row, hrow, Option.bind_eq_some_iff.mpr ⟨address, haddress, ?_⟩⟩
    rw [if_pos hunprocessed]

theorem pendingRows_ids (db : Db) : ((pendingRows db).map (·.1.id)).Nodup := by
  rw [List.Nodup, pairwise_map]
  apply List.Pairwise.filterMap _ _ db.rawContractEvents.unique
  intro a b hne p hp q hq hid
  obtain ⟨_, -, hp⟩ := Option.bind_eq_some_iff.mp hp
  obtain ⟨_, -, hq⟩ := Option.bind_eq_some_iff.mp hq
  split at hp <;> cases hp
  split at hq <;> cases hq
  exact hne hid

theorem before_total : Std.Total fun a b : RawContractEvent × String => a.1.before b.1 := by
  constructor
  intro a b
  rcases Nat.lt_trichotomy a.1.ledger b.1.ledger with hlt | heq | hlt
  · exact .inl (.inl hlt)
  · exact (String.le_total a.1.id b.1.id).imp (fun hle => .inr ⟨heq, hle⟩) fun hle => .inr ⟨heq.symm, hle⟩
  · exact .inr (.inl hlt)

theorem before_trans : IsTrans (RawContractEvent × String) fun a b => a.1.before b.1 := by
  constructor
  rintro a b c (hab | ⟨hab, hid⟩) (hbc | ⟨hbc, hid'⟩)
  · exact .inl (hab.trans hbc)
  · exact .inl (hbc ▸ hab)
  · exact .inl (hab ▸ hbc)
  · exact .inr ⟨hab.trans hbc, String.le_trans hid hid'⟩

theorem Mirrored.exists_batch (h : Mirrored codec chain db) (limit : Nat) :
    ∃ batch, Batch codec chain db limit batch := by
  have hnonempty : Nonempty Entry := ⟨⟨"", 0, "", .newNullifier 0⟩⟩
  have hrows : ∀ row ∈ db.rawContractEvents.rows, ∃ entry ∈ chain.log, row.id = entry.id ∧
      row.ledger = entry.ledger ∧ db.address? row.contractId = some entry.contractId ∧
      row.topics = joinTopics (entry.contractEvent codec).topics ∧
      row.value = (entry.contractEvent codec).value := h.events
  choose! entryOf hentry using hrows
  let rows := ((pendingRows db).insertionSort fun a b => a.1.before b.1).take limit
  have hpending : ∀ pair ∈ rows, pair ∈ pendingRows db := fun pair hpair =>
    (mem_insertionSort _).mp (mem_of_mem_take hpair)
  have hids : (rows.map fun pair => entryOf pair.1).map Entry.id = rows.map (·.1.id) := by
    rw [map_map]
    apply map_congr_left
    intro pair hpair
    exact (hentry pair.1 (mem_pendingRows.mp (hpending pair hpair)).1).2.1.symm
  refine ⟨rows.map fun pair => entryOf pair.1, ?_, ?_, ?_, ?_, ?_, ?_, ?_⟩
  · rw [map_map]
    apply map_congr_left
    intro pair hpair
    obtain ⟨hrow, haddress, -⟩ := mem_pendingRows.mp (hpending pair hpair)
    obtain ⟨-, hid, hledger, haddress', htopics, hvalue⟩ := hentry pair.1 hrow
    have hcontract : pair.2 = (entryOf pair.1).contractId := by
      rw [haddress] at haddress'
      exact Option.some.inj haddress'
    rw [htopics, splitTopics_contractEvent, hid, hledger, hvalue, hcontract]
    rfl
  · intro entry hmem
    obtain ⟨pair, hpair, rfl⟩ := mem_map.mp hmem
    exact (hentry pair.1 (mem_pendingRows.mp (hpending pair hpair)).1).1
  · intro entry hmem
    obtain ⟨pair, hpair, rfl⟩ := mem_map.mp hmem
    have hrow := (mem_pendingRows.mp (hpending pair hpair)).1
    exact hasEvent_iff.mpr ⟨pair.1, hrow, (hentry pair.1 hrow).2.1⟩
  · intro entry hmem
    obtain ⟨pair, hpair, rfl⟩ := mem_map.mp hmem
    obtain ⟨hrow, -, hunprocessed⟩ := mem_pendingRows.mp (hpending pair hpair)
    rwa [← (hentry pair.1 hrow).2.1]
  · rw [hids]
    apply List.Nodup.sublist ((take_sublist _ _).map _)
    exact ((perm_insertionSort _ _).map _).nodup_iff.mpr (pendingRows_ids db)
  · rw [length_map]
    exact length_take_le _ _
  · intro hnil hlimit row hrow
    by_contra hunprocessed
    have hpair : (row, (entryOf row).contractId) ∈ pendingRows db :=
      mem_pendingRows.mpr ⟨hrow, (hentry row hrow).2.2.2.1, by simpa using hunprocessed⟩
    have hsorted := (mem_insertionSort fun a b => a.1.before b.1).mpr hpair
    rcases take_eq_nil_iff.mp (map_eq_nil_iff.mp hnil) with hzero | hempty
    · omega
    · rw [hempty] at hsorted
      cases hsorted

abbrev selected {ε : Type} (codec : Codec) (batch : List Entry) (select : ProcessedEvent → Option ε) : List ε :=
  (batch.reverse.map (Entry.processed codec)).filterMap select

theorem mem_selected {ε : Type} {select : ProcessedEvent → Option ε} {event : ε} :
    event ∈ selected codec batch select ↔ ∃ entry ∈ batch, select (entry.processed codec) = some event := by
  simp [selected]

theorem Batch.parse (h : Batch codec chain db limit batch) :
    parseEvents codec (getUnprocessedEvents db limit) = batch.reverse.map (Entry.processed codec) := by
  rw [h.events, parseEvents, ← map_reverse, filterMap_map, ← filterMap_eq_map]
  apply filterMap_congr
  intro entry hentry
  have hparse := parseEvent_published codec (chain.inRange (h.logged entry (mem_reverse.mp hentry)))
    entry.id entry.ledger entry.contractId
  rw [Function.comp_apply, Entry.contractEvent, hparse]
  rfl

abbrev Stored (codec : Codec) (batch : List Entry) (db db' : Db) : Prop :=
  Saved (batch.reverse.map (Entry.processed codec)) db db'

section
variable (entry : Entry)
include entry

theorem id?_processed : (entry.processed codec).id? = some entry.id := by
  obtain ⟨id, ledger, contractId, published⟩ := entry
  cases published <;> rfl

theorem nullifier?_id (event : NewNullifierEvent)
    (h : (entry.processed codec).nullifier? = some event) : event.id = entry.id :=
  Option.some.inj ((id?_of_nullifier h).symm.trans (id?_processed entry))

theorem commitment?_id (event : NewCommitmentEvent)
    (h : (entry.processed codec).commitment? = some event) : event.id = entry.id :=
  Option.some.inj ((id?_of_commitment h).symm.trans (id?_processed entry))

theorem publicKey?_id (event : PublicKeyEvent)
    (h : (entry.processed codec).publicKey? = some event) : event.id = entry.id :=
  Option.some.inj ((id?_of_publicKey h).symm.trans (id?_processed entry))

theorem leafAdded?_id (event : LeafAddedEvent)
    (h : (entry.processed codec).leafAdded? = some event) : event.id = entry.id :=
  Option.some.inj ((id?_of_leafAdded h).symm.trans (id?_processed entry))

end

theorem mem_parseEvents {events : List ContractEvent} {parsed : ProcessedEvent} :
    parsed ∈ parseEvents codec events ↔ ∃ event ∈ events, parseEvent codec event = .ok parsed := by
  simp only [parseEvents, mem_filterMap, mem_reverse]
  refine exists_congr fun event => and_congr_right fun _ => ?_
  cases parseEvent codec event <;> simp [Except.toOption]

def fetched (entry : RawContractEvent × String) : ContractEvent where
  id := entry.1.id
  ledger := entry.1.ledger
  contractId := entry.2
  topics := splitTopics entry.1.topics
  value := entry.1.value

theorem unsaved_batch (codec : Codec) (db : Db) (limit : Nat) :
    Unsaved db (parseEvents codec (getUnprocessedEvents db limit)) := by
  set rows := ((pendingRows db).insertionSort fun a b => a.1.before b.1).take limit with hrows
  have hfetched : getUnprocessedEvents db limit = rows.map fetched := rfl
  have hid : ∀ parsed ∈ parseEvents codec (getUnprocessedEvents db limit), ∀ id, parsed.id? = some id →
      ∃ entry ∈ pendingRows db, id = entry.1.id := by
    intro parsed hparsed id hsome
    obtain ⟨event, hevent, hparse⟩ := mem_parseEvents.mp hparsed
    obtain ⟨entry, hentry, rfl⟩ := mem_map.mp (hfetched ▸ hevent)
    exact ⟨entry, (mem_insertionSort _).mp (mem_of_mem_take hentry), parseEvent_id hparse hsome⟩
  constructor
  · intro parsed hparsed id hsome
    obtain ⟨entry, hentry, rfl⟩ := hid parsed hparsed id hsome
    exact hasEvent_iff.mpr ⟨entry.1, (mem_pendingRows.mp hentry).1, rfl⟩
  · intro parsed hparsed id hsome
    obtain ⟨entry, hentry, rfl⟩ := hid parsed hparsed id hsome
    exact (mem_pendingRows.mp hentry).2.2
  · have hdistinct : rows.reverse.Pairwise fun a b => a.1.id ≠ b.1.id := by
      have hsorted := (((pendingRows db).perm_insertionSort fun a b => a.1.before b.1).map (·.1.id)).nodup_iff.mpr
        (pendingRows_ids db)
      apply pairwise_map.mp
      rw [map_reverse]
      exact nodup_reverse.mpr (hsorted.sublist ((take_sublist _ _).map _))
    rw [hfetched, parseEvents, ← map_reverse, filterMap_map, List.Nodup, pairwise_filterMap,
      pairwise_filterMap]
    apply hdistinct.imp
    intro a b hne p hp q hq i hi j hj heq
    have hparse : ∀ {entry parsed}, ((fun event => (parseEvent codec event).toOption) ∘ fetched) entry = some parsed →
        parseEvent codec (fetched entry) = .ok parsed := by
      intro entry parsed h
      rw [Function.comp_apply] at h
      cases hresult : parseEvent codec (fetched entry) <;> rw [hresult] at h <;> cases h
      rfl
    exact hne ((parseEvent_id (hparse hp) hi).symm.trans (heq.trans (parseEvent_id (hparse hq) hj)))

theorem processEvents_saved (codec : Codec) (limit : Nat) (db : Db) :
    (processEvents codec limit db).1 = .ok (!(getUnprocessedEvents db limit).isEmpty) ∧
      Saved (parseEvents codec (getUnprocessedEvents db limit)) db (processEvents codec limit db).2 := by
  obtain ⟨db', hsave, hsaved⟩ := (unsaved_batch codec db limit).saveProcessed
  unfold processEvents
  split
  · rename_i hnone
    rw [hnone]
    exact ⟨rfl, ⟨_, _, _, _, rfl⟩, rfl, rfl, rfl, rfl⟩
  · rename_i hsome
    rw [hsave]
    exact ⟨by simpa using hsome, hsaved⟩

theorem Mirrored.processes (h : Mirrored codec chain db) (limit : Nat) :
    ∃ batch db', Batch codec chain db limit batch ∧
      processEvents codec limit db = (.ok !batch.isEmpty, db') ∧ Stored codec batch db db' := by
  obtain ⟨batch, hbatch⟩ := h.exists_batch limit
  obtain ⟨hresult, hsaved⟩ := processEvents_saved codec limit db
  rw [hbatch.parse] at hsaved
  rw [hbatch.events, isEmpty_map] at hresult
  exact ⟨batch, _, hbatch, Prod.ext hresult rfl, hsaved⟩

theorem Backed.mono {make' : Nat → ε → ρ} {db' : Db} (h : Backed codec chain db select make rows)
    (hevents : ∀ id, db.hasEvent id = true → db'.hasEvent id = true)
    (hmake : ∀ entry ∈ chain.log, db.hasEvent entry.id = true → ∀ event,
      select (entry.processed codec) = some event → ∀ n, make n event = make' n event) :
    Backed codec chain db' select make' rows := by
  intro row hrow
  obtain ⟨entry, hentry, hknown, event, hsome, n, hn⟩ := h row hrow
  exact ⟨entry, hentry, hevents _ hknown, event, hsome, n, hn.trans (hmake entry hentry hknown event hsome n)⟩

theorem Backed.insertAll (h : Backed codec chain db select make rows)
    (hbatch : Batch codec chain db limit batch) (clash : ρ → ε → Bool) :
    Backed codec chain db select make (insertAll clash make rows (selected codec batch select)) := by
  intro row hrow
  rcases mem_insertAll hrow with hold | ⟨event, hevent, n, hn⟩
  · exact h row hold
  · obtain ⟨entry, hentry, hsome⟩ := mem_selected.mp hevent
    exact ⟨entry, hbatch.logged entry hentry, hbatch.stored entry hentry, event, hsome, n, hn⟩

theorem Mirrored.stored {db' : Db} (h : Mirrored codec chain db)
    (hbatch : Batch codec chain db limit batch) (hstored : Stored codec batch db db') : Mirrored codec chain db' := by
  obtain ⟨⟨n, c, p, l, rfl⟩, hn, hc, hp, hl⟩ := hstored
  have hnullifiers := h.nullifiers.insertAll hbatch sameNullifier
  have hcommitments := h.commitments.insertAll hbatch sameCommitment
  have hpublicKeys := h.publicKeys.insertAll hbatch samePublicKey
  have hleaves := h.leaves.insertAll hbatch (sameLeaf db)
  rw [← hn] at hnullifiers
  rw [← hc] at hcommitments
  rw [← hp] at hpublicKeys
  rw [← hl] at hleaves
  exact ⟨h.events, hnullifiers, hcommitments, hpublicKeys, hleaves⟩

theorem Mirrored.saveEvent (h : Mirrored codec chain db) {entry : Entry} (hentry : entry ∈ chain.log) :
    Mirrored codec chain (saveEvent db (entry.contractEvent codec)) := by
  have hgrows := saveEvent_grows db (entry.contractEvent codec)
  have hevents := fun id => @Grows.hasEvent _ _ id hgrows
  constructor
  · intro row hrow
    have hold : row ∈ db.rawContractEvents.rows → ∃ entry' ∈ chain.log, row.id = entry'.id ∧
        row.ledger = entry'.ledger ∧
        (Sdk.saveEvent db (entry.contractEvent codec)).address? row.contractId =
          some entry'.contractId ∧
        row.topics = joinTopics (entry'.contractEvent codec).topics ∧
        row.value = (entry'.contractEvent codec).value := by
      intro hmem
      obtain ⟨entry', hentry', hid, hledger, haddress, hrest⟩ := h.events row hmem
      exact ⟨entry', hentry', hid, hledger, getElem?_of_isPrefix hgrows.contracts haddress, hrest⟩
    rcases saveEvent_rows db (entry.contractEvent codec) with ⟨hrows, -⟩ | ⟨-, hrows⟩
    · exact hold (hrows ▸ hrow)
    · rw [hrows, mem_append, mem_singleton] at hrow
      rcases hrow with hmem | rfl
      · exact hold hmem
      · exact ⟨entry, hentry, rfl, rfl, db.contracts.getElem?_insertOrIgnore entry.contractId, rfl, rfl⟩
  · exact h.nullifiers.mono hevents fun _ _ _ _ _ _ => rfl
  · exact h.commitments.mono hevents fun _ _ _ _ _ _ => rfl
  · exact h.publicKeys.mono hevents fun _ _ _ _ _ _ => rfl
  · apply h.leaves.mono hevents
    intro entry' _ hknown event hsome n
    rw [leafRow, leafRow, leafAdded?_id entry' event hsome, hgrows.contractOf hknown]

end Mirrored

end PrivatePayments.Sdk

import PrivatePayments.Lib.Backlog
import PrivatePayments.Sdk.Ingest

/-! `process_events` called over and over: which of the raw events get their rows. -/
namespace PrivatePayments.Sdk
open Contracts Lib List
open ProcessedEvent (nullifier? commitment? publicKey? leafAdded? id?_of_leafAdded)

/-- Of the events with one key, one is stored. -/
inductive EventKey where
  | nullifier (nullifier : F)
  | commitment (commitment : F)
  | publicKey (id : String)
  | leaf (id : String)
deriving DecidableEq

def ProcessedEvent.key? : ProcessedEvent → Option EventKey
  | nullifier ev => some (.nullifier ev.nullifier)
  | commitment ev => some (.commitment ev.commitment)
  | publicKey ev => some (.publicKey ev.id)
  | leafAdded ev => some (.leaf ev.id)
  | _ => none

/-- The event is in its table, or repeats a nullifier or a commitment that is. -/
def ProcessedEvent.StoredIn (db : Db) : ProcessedEvent → Prop
  | nullifier ev => ∃ row ∈ db.poolNullifiers.rows, row.eventId = ev.id ∨ row.nullifier = ev.nullifier
  | commitment ev => ∃ row ∈ db.poolCommitments.rows, row.eventId = ev.id ∨ row.commitment = ev.commitment
  | publicKey ev => ∃ row ∈ db.publicKeys.rows, row.eventId = ev.id
  | leafAdded ev => ∃ row ∈ db.aspMembershipLeaves.rows, row.eventId = ev.id
  | _ => True

def joinedRows (db : Db) : List (RawContractEvent × String) :=
  db.rawContractEvents.rows.filterMap fun row => (db.address? row.contractId).map fun address => (row, address)

def orderedRows (db : Db) : List (RawContractEvent × String) :=
  (joinedRows db).insertionSort fun a b => a.1.before b.1

def keyOf (codec : Codec) (entry : RawContractEvent × String) : Option EventKey :=
  (parseEvent codec (fetched entry)).toOption.bind ProcessedEvent.key?

def hasRow (db : Db) (entry : RawContractEvent × String) : Bool := !db.unprocessed entry.1.id

def AllStored (codec : Codec) (db : Db) : Prop :=
  ∀ entry ∈ joinedRows db, ∀ parsed, parseEvent codec (fetched entry) = .ok parsed → parsed.StoredIn db

/-- Of two leaves at one index of a contract the second is ignored. -/
def DistinctLeaves (codec : Codec) (db : Db) : Prop :=
  ∀ a ∈ joinedRows db, ∀ b ∈ joinedRows db, ∀ leaf leaf', parseEvent codec (fetched a) = .ok (.leafAdded leaf) →
    parseEvent codec (fetched b) = .ok (.leafAdded leaf') → a.1.contractId = b.1.contractId →
    leaf.index = leaf'.index → a = b

/-- Fewer than `limit` of the events ahead of one that brings something new are unreadable,
of a kind that is not stored, or repeat another. -/
def Unblocked (codec : Codec) (limit : Nat) (db : Db) : Prop :=
  Backlog.Unblocked (keyOf codec) (orderedRows db) limit (hasRow db)

/-- Any events may have been saved, and processed with any limits. -/
inductive Fed (codec : Codec) : Db → Prop
  | fresh : Fed codec .fresh
  | saved {db : Db} (events : List ContractEvent) (h : Fed codec db) : Fed codec (saveEventsBatch events db).2
  | processed {db : Db} (limit : Nat) (h : Fed codec db) : Fed codec (processEvents codec limit db).2

variable {codec : Codec} {db db' : Db} {limit : Nat}

variable {k : EventKey}

section Queue
variable {entry : RawContractEvent × String}

theorem mem_joinedRows : entry ∈ joinedRows db ↔
    entry.1 ∈ db.rawContractEvents.rows ∧ db.address? entry.1.contractId = some entry.2 := by
  obtain ⟨row, address⟩ := entry
  simp [joinedRows]

theorem joinedRows_inj {a b : RawContractEvent × String} (ha : a ∈ joinedRows db) (hb : b ∈ joinedRows db)
    (h : a.1.id = b.1.id) : a = b := by
  rw [mem_joinedRows] at ha hb
  have hrow : a.1 = b.1 := db.rawContractEvents.eq_of_conflict (fun _ _ => Eq.symm) ha.1 hb.1 h
  have haddress := ha.2
  rw [hrow, hb.2] at haddress
  exact Prod.ext hrow (Option.some.inj haddress).symm

theorem joinedRows_nodup (db : Db) : (joinedRows db).Nodup := by
  apply List.Pairwise.filterMap _ _ db.rawContractEvents.unique
  intro a b hne p hp q hq heq
  obtain ⟨_, -, rfl⟩ := Option.map_eq_some_iff.mp hp
  obtain ⟨_, -, rfl⟩ := Option.map_eq_some_iff.mp hq
  exact hne (congrArg (·.1.id) heq)

theorem mem_orderedRows : entry ∈ orderedRows db ↔ entry ∈ joinedRows db := mem_insertionSort _

theorem orderedRows_nodup (db : Db) : (orderedRows db).Nodup :=
  ((joinedRows db).perm_insertionSort _).nodup_iff.mpr (joinedRows_nodup db)

theorem pendingRows_eq (db : Db) : pendingRows db = (joinedRows db).filter fun entry => !hasRow db entry := by
  unfold pendingRows joinedRows
  rw [filter_filterMap]
  apply filterMap_congr
  intro row _
  cases db.address? row.contractId with
  | none => rfl
  | some address => simp [hasRow, Option.filter]

theorem getUnprocessedEvents_eq (db : Db) (limit : Nat) : getUnprocessedEvents db limit =
    (Backlog.batch (orderedRows db) limit (hasRow db)).map fetched := by
  have htotal := before_total
  have htrans := before_trans
  have hantisymm : ∀ a ∈ joinedRows db, ∀ b ∈ joinedRows db, a.1.before b.1 → b.1.before a.1 → a = b := by
    intro a ha b hb hab hba
    apply joinedRows_inj ha hb
    rcases hab with hab | ⟨hab, hab'⟩ <;> rcases hba with hba | ⟨hba, hba'⟩
    · omega
    · omega
    · omega
    · exact String.le_antisymm hab' hba'
  have hsorted : (pendingRows db).insertionSort (fun a b => a.1.before b.1) =
      Backlog.waiting (orderedRows db) (hasRow db) := by
    rw [pendingRows_eq, insertionSort_filter hantisymm]
    rfl
  unfold Backlog.batch
  rw [← hsorted]
  rfl

theorem keyOf_eq_some : keyOf codec entry = some k ↔
    ∃ parsed, parseEvent codec (fetched entry) = .ok parsed ∧ parsed.key? = some k := by
  unfold keyOf
  cases parseEvent codec (fetched entry) <;> simp [Except.toOption]

theorem mem_parse_batch {parsed : ProcessedEvent} :
    parsed ∈ parseEvents codec (getUnprocessedEvents db limit) ↔
      ∃ entry ∈ Backlog.batch (orderedRows db) limit (hasRow db), parseEvent codec (fetched entry) = .ok parsed := by
  simp [mem_parseEvents, getUnprocessedEvents_eq]

theorem mem_batch (h : entry ∈ Backlog.batch (orderedRows db) limit (hasRow db)) :
    entry ∈ joinedRows db ∧ db.unprocessed entry.1.id = true := by
  have hwaiting := Backlog.mem_waiting.mp (mem_of_mem_take h)
  exact ⟨mem_orderedRows.mp hwaiting.1, by simpa [hasRow] using hwaiting.2⟩

end Queue

def Db.records (db : Db) : List (String × EventKey) :=
  db.poolNullifiers.rows.map (fun row => (row.eventId, .nullifier row.nullifier)) ++
    db.poolCommitments.rows.map (fun row => (row.eventId, .commitment row.commitment)) ++
    db.publicKeys.rows.map (fun row => (row.eventId, .publicKey row.eventId)) ++
    db.aspMembershipLeaves.rows.map fun row => (row.eventId, .leaf row.eventId)

variable {entry : RawContractEvent × String}

section Records
variable {db : Db} {id other : String}

@[simp] theorem mem_records_nullifier {nullifier : F} : (id, .nullifier nullifier) ∈ db.records ↔
    ∃ row ∈ db.poolNullifiers.rows, row.eventId = id ∧ row.nullifier = nullifier := by
  simp [Db.records]

@[simp] theorem mem_records_commitment {commitment : F} : (id, .commitment commitment) ∈ db.records ↔
    ∃ row ∈ db.poolCommitments.rows, row.eventId = id ∧ row.commitment = commitment := by
  simp [Db.records]

@[simp] theorem mem_records_publicKey : (id, .publicKey other) ∈ db.records ↔
    ∃ row ∈ db.publicKeys.rows, row.eventId = id ∧ row.eventId = other := by
  simp [Db.records]

@[simp] theorem mem_records_leaf : (id, .leaf other) ∈ db.records ↔
    ∃ row ∈ db.aspMembershipLeaves.rows, row.eventId = id ∧ row.eventId = other := by
  simp [Db.records]

theorem hasRow_iff :
    hasRow db entry = true ↔ ∃ k, (entry.1.id, k) ∈ db.records := by
  constructor
  · intro h
    simp only [hasRow, Db.unprocessed, Bool.not_not, Bool.or_eq_true, any_eq_true, beq_iff_eq] at h
    rcases h with ((⟨row, hrow, hid⟩ | ⟨row, hrow, hid⟩) | ⟨row, hrow, hid⟩) | ⟨row, hrow, hid⟩
    · exact ⟨_, mem_records_commitment.mpr ⟨row, hrow, hid, rfl⟩⟩
    · exact ⟨_, mem_records_publicKey.mpr ⟨row, hrow, hid, rfl⟩⟩
    · exact ⟨_, mem_records_leaf.mpr ⟨row, hrow, hid, rfl⟩⟩
    · exact ⟨_, mem_records_nullifier.mpr ⟨row, hrow, hid, rfl⟩⟩
  · rintro ⟨k, hk⟩
    cases k <;> simp at hk <;> simp [hasRow, Db.unprocessed] <;> grind

theorem records_inj (h : (id, k) ∈ db.records) (h' : (other, k) ∈ db.records) : id = other := by
  cases k with
  | nullifier nullifier =>
    obtain ⟨row, hrow, rfl, hsame⟩ := mem_records_nullifier.mp h
    obtain ⟨row', hrow', rfl, rfl⟩ := mem_records_nullifier.mp h'
    exact congrArg _ (db.poolNullifiers.eq_of_conflict (fun _ _ => Or.imp Eq.symm Eq.symm) hrow hrow' (.inl hsame))
  | commitment commitment =>
    obtain ⟨row, hrow, rfl, hsame⟩ := mem_records_commitment.mp h
    obtain ⟨row', hrow', rfl, rfl⟩ := mem_records_commitment.mp h'
    exact congrArg _ (db.poolCommitments.eq_of_conflict (fun _ _ => Or.imp Eq.symm Eq.symm) hrow hrow' (.inl hsame))
  | publicKey event =>
    obtain ⟨_, -, hid, hevent⟩ := mem_records_publicKey.mp h
    obtain ⟨_, -, hid', hevent'⟩ := mem_records_publicKey.mp h'
    exact (hid.symm.trans hevent).trans (hevent'.symm.trans hid')
  | leaf event =>
    obtain ⟨_, -, hid, hevent⟩ := mem_records_leaf.mp h
    obtain ⟨_, -, hid', hevent'⟩ := mem_records_leaf.mp h'
    exact (hid.symm.trans hevent).trans (hevent'.symm.trans hid')

end Records

def ReadFrom {ε ρ : Type} (codec : Codec) (db : Db) (select : ProcessedEvent → Option ε)
    (make : Nat → ε → ρ) (rows : List ρ) : Prop :=
  ∀ row ∈ rows, ∃ entry ∈ joinedRows db, ∃ parsed, parseEvent codec (fetched entry) = .ok parsed ∧
    ∃ event, select parsed = some event ∧ ∃ n, row = make n event

structure Traced (codec : Codec) (db : Db) : Prop where
  nullifiers : ReadFrom codec db nullifier? nullifierRow db.poolNullifiers.rows
  commitments : ReadFrom codec db commitment? commitmentRow db.poolCommitments.rows
  publicKeys : ReadFrom codec db publicKey? publicKeyRow db.publicKeys.rows
  leaves : ReadFrom codec db leafAdded? (leafRow db) db.aspMembershipLeaves.rows

variable {parsed : List ProcessedEvent} {ε ρ : Type} {select : ProcessedEvent → Option ε} {make : Nat → ε → ρ}
  {rows : List ρ}

section Traced

theorem ReadFrom.mono {make' : Nat → ε → ρ} (h : ReadFrom codec db select make rows)
    (hjoined : ∀ entry ∈ joinedRows db, entry ∈ joinedRows db')
    (hmake : ∀ entry ∈ joinedRows db, ∀ parsed, parseEvent codec (fetched entry) = .ok parsed → ∀ event,
      select parsed = some event → ∀ n, make n event = make' n event) : ReadFrom codec db' select make' rows := by
  intro row hrow
  obtain ⟨entry, hentry, parsed, hparse, event, hsome, n, hn⟩ := h row hrow
  exact ⟨entry, hjoined entry hentry, parsed, hparse, event, hsome, n,
    hn.trans (hmake entry hentry parsed hparse event hsome n)⟩

theorem ReadFrom.insertAll (h : ReadFrom codec db select make rows) (limit : Nat) (clash : ρ → ε → Bool) :
    ReadFrom codec db select make (Lib.insertAll clash make rows
      ((parseEvents codec (getUnprocessedEvents db limit)).filterMap select)) := by
  intro row hrow
  rcases mem_insertAll hrow with hold | ⟨event, hevent, n, hn⟩
  · exact h row hold
  · obtain ⟨parsed, hparsed, hsome⟩ := mem_filterMap.mp hevent
    obtain ⟨entry, hentry, hparse⟩ := mem_parse_batch.mp hparsed
    exact ⟨entry, (mem_batch hentry).1, parsed, hparse, event, hsome, n, hn⟩

theorem Saved.joinedRows_eq (h : Saved parsed db db') : joinedRows db' = joinedRows db := by
  obtain ⟨n, c, p, l, rfl⟩ := h.frame
  rfl

namespace Traced

theorem fresh : Traced codec .fresh :=
  ⟨nofun, nofun, nofun, nofun⟩

theorem processed (h : Traced codec db) (limit : Nat) : Traced codec (processEvents codec limit db).2 := by
  have hsaved := (processEvents_saved codec limit db).2
  obtain ⟨⟨n, c, p, l, hdb⟩, hn, hc, hp, hl⟩ := hsaved
  rw [hdb] at hn hc hp hl ⊢
  have hnullifiers := h.nullifiers.insertAll limit sameNullifier
  have hcommitments := h.commitments.insertAll limit sameCommitment
  have hpublicKeys := h.publicKeys.insertAll limit samePublicKey
  have hleaves := h.leaves.insertAll limit (sameLeaf db)
  rw [← hn] at hnullifiers
  rw [← hc] at hcommitments
  rw [← hp] at hpublicKeys
  rw [← hl] at hleaves
  exact ⟨hnullifiers, hcommitments, hpublicKeys, hleaves⟩

theorem saveEvent (h : Traced codec db) (event : ContractEvent) : Traced codec (saveEvent db event) := by
  have hgrows := saveEvent_grows db event
  have hjoined : ∀ entry ∈ joinedRows db, entry ∈ joinedRows (Sdk.saveEvent db event) := by
    intro entry hentry
    rw [mem_joinedRows] at hentry ⊢
    exact ⟨hgrows.events.subset hentry.1, getElem?_of_isPrefix hgrows.contracts hentry.2⟩
  constructor
  · exact h.nullifiers.mono hjoined fun _ _ _ _ _ _ _ => rfl
  · exact h.commitments.mono hjoined fun _ _ _ _ _ _ _ => rfl
  · exact h.publicKeys.mono hjoined fun _ _ _ _ _ _ _ => rfl
  · apply h.leaves.mono hjoined
    intro entry hentry parsed hparse leaf hsome n
    have hid := parseEvent_id hparse (id?_of_leafAdded hsome)
    have hknown : db.hasEvent leaf.id = true := hasEvent_iff.mpr ⟨entry.1, (mem_joinedRows.mp hentry).1, hid.symm⟩
    rw [leafRow, leafRow, hgrows.contractOf hknown]

theorem of_fed (h : Fed codec db) : Traced codec db := by
  induction h with
  | fresh => exact fresh
  | saved events _ ih => exact saveEventsBatch_keeps (fun _ event _ h => h.saveEvent event) ih
  | processed limit _ ih => exact ih.processed limit

section
variable (h : Traced codec db)
include h

theorem record {id : String} (hk : (id, k) ∈ db.records) :
    ∃ entry ∈ joinedRows db, entry.1.id = id ∧ keyOf codec entry = some k := by
  cases k
  case' nullifier =>
    obtain ⟨row, hrow, rfl, rfl⟩ := mem_records_nullifier.mp hk
    have hsource := h.nullifiers row hrow
  case' commitment =>
    obtain ⟨row, hrow, rfl, rfl⟩ := mem_records_commitment.mp hk
    have hsource := h.commitments row hrow
  case' publicKey =>
    obtain ⟨row, hrow, rfl, rfl⟩ := mem_records_publicKey.mp hk
    have hsource := h.publicKeys row hrow
  case' leaf =>
    obtain ⟨row, hrow, rfl, rfl⟩ := mem_records_leaf.mp hk
    have hsource := h.leaves row hrow
  all_goals
    obtain ⟨entry, hentry, parsed, hparse, event, hsome, n, rfl⟩ := hsource
    cases parsed <;> cases hsome
    exact ⟨entry, hentry, (parseEvent_id hparse rfl).symm, keyOf_eq_some.mpr ⟨_, hparse, rfl⟩⟩

theorem hasRow_iff (hentry : entry ∈ joinedRows db) :
    hasRow db entry = true ↔ ∃ k, keyOf codec entry = some k ∧ (entry.1.id, k) ∈ db.records := by
  rw [Sdk.hasRow_iff]
  constructor
  · rintro ⟨k, hk⟩
    obtain ⟨other, hother, hid, hkey⟩ := h.record hk
    rw [joinedRows_inj hother hentry hid] at hkey
    exact ⟨k, hkey, hk⟩
  · rintro ⟨k, -, hk⟩
    exact ⟨k, hk⟩

theorem valid : Backlog.Valid (keyOf codec) (orderedRows db) (hasRow db) := by
  constructor
  · intro x hx hrow
    obtain ⟨k, hk, -⟩ := (h.hasRow_iff (mem_orderedRows.mp hx)).mp hrow
    exact ⟨k, hk⟩
  · intro x hx y hy hxrow hyrow heq
    rw [mem_orderedRows] at hx hy
    obtain ⟨k, hk, hxk⟩ := (h.hasRow_iff hx).mp hxrow
    obtain ⟨j, hj, hyj⟩ := (h.hasRow_iff hy).mp hyrow
    rw [hk, hj] at heq
    cases heq
    exact joinedRows_inj hx hy (records_inj hxk hyj)

theorem mem_kept :
    k ∈ Backlog.kept (keyOf codec) (orderedRows db) (hasRow db) ↔ ∃ id, (id, k) ∈ db.records := by
  rw [Backlog.mem_kept]
  constructor
  · rintro ⟨entry, hentry, hrow, hkey⟩
    obtain ⟨j, hj, hrecord⟩ := (h.hasRow_iff (mem_orderedRows.mp hentry)).mp hrow
    rw [hkey] at hj
    cases hj
    exact ⟨_, hrecord⟩
  · rintro ⟨id, hrecord⟩
    obtain ⟨entry, hentry, rfl, hkey⟩ := h.record hrecord
    exact ⟨entry, mem_orderedRows.mpr hentry, Sdk.hasRow_iff.mpr ⟨k, hrecord⟩, hkey⟩

end

end Traced

end Traced

section Calls

theorem Saved.records_subset (h : Saved parsed db db') : db.records ⊆ db'.records := by
  rintro ⟨id, k⟩ hk
  cases k <;> simp only [mem_records_nullifier, mem_records_commitment, mem_records_publicKey, mem_records_leaf,
    h.nullifiers, h.commitments, h.publicKeys, h.leaves] at hk ⊢ <;>
    exact hk.imp fun row => And.imp_left fun hrow => prefix_insertAll.subset hrow

theorem Saved.hasRow_of_new (h : Saved parsed db db') (hrow : hasRow db' entry = true) :
    hasRow db entry = true ∨ ∃ event ∈ parsed, event.id? = some entry.1.id := by
  rw [hasRow, Bool.not_eq_true'] at hrow ⊢
  exact h.processed_or_mem hrow

theorem exists_clash {clash : ρ → ε → Bool} {rows' : List ρ} {events : List ProcessedEvent} {parsed : ProcessedEvent} {event : ε}
    (hrows : rows' = insertAll clash make rows (events.filterMap select))
    (hmake : ∀ n event, clash (make n event) event = true) (hparsed : parsed ∈ events)
    (hsome : select parsed = some event) : ∃ row ∈ rows', clash row event = true := by
  rw [hrows]
  exact clash_insertAll hmake (mem_filterMap.mpr ⟨parsed, hparsed, hsome⟩)

namespace Traced

section
variable (h : Traced codec db)
include h

theorem leaf {row : AspMembershipLeaf} (hrow : row ∈ db.aspMembershipLeaves.rows) :
    ∃ entry ∈ joinedRows db, ∃ event, parseEvent codec (fetched entry) = .ok (.leafAdded event) ∧
      row.eventId = entry.1.id ∧ row.contractId = entry.1.contractId ∧ row.leafIndex = event.index := by
  obtain ⟨entry, hentry, parsed, hparse, event, hsome, n, rfl⟩ := h.leaves row hrow
  have hid : event.id = entry.1.id := parseEvent_id hparse (id?_of_leafAdded hsome)
  cases parsed <;> cases hsome
  refine ⟨entry, hentry, event, hparse, hid, ?_, rfl⟩
  rw [leafRow, hid, contractOf_of_mem (mem_joinedRows.mp hentry).1]
  rfl

theorem recorded (hdistinct : DistinctLeaves codec db)
    (hentry : entry ∈ Backlog.batch (orderedRows db) limit (hasRow db))
    (hk : keyOf codec entry = some k) : ∃ id, (id, k) ∈ (processEvents codec limit db).2.records := by
  have hsaved := (processEvents_saved codec limit db).2
  obtain ⟨parsed, hparse, hkey⟩ := keyOf_eq_some.mp hk
  have hparsed := mem_parse_batch.mpr ⟨entry, hentry, hparse⟩
  cases parsed <;> cases hkey
  case nullifier event =>
    obtain ⟨row, hrow, hclash⟩ := exists_clash hsaved.nullifiers (fun _ _ => beq_self_eq_true _) hparsed rfl
    exact ⟨_, mem_records_nullifier.mpr ⟨row, hrow, rfl, beq_iff_eq.mp hclash⟩⟩
  case commitment event =>
    obtain ⟨row, hrow, hclash⟩ := exists_clash hsaved.commitments (fun _ _ => beq_self_eq_true _) hparsed rfl
    exact ⟨_, mem_records_commitment.mpr ⟨row, hrow, rfl, beq_iff_eq.mp hclash⟩⟩
  case publicKey event =>
    obtain ⟨row, hrow, hclash⟩ := exists_clash hsaved.publicKeys (fun _ _ => beq_self_eq_true _) hparsed rfl
    exact ⟨_, mem_records_publicKey.mpr ⟨row, hrow, rfl, beq_iff_eq.mp hclash⟩⟩
  case leafAdded event =>
    obtain ⟨row, hrow, hclash⟩ := exists_clash hsaved.leaves (fun _ _ => by simp [sameLeaf, leafRow]) hparsed rfl
    -- the row at the slot is that of an event with the same slot, so of this one
    obtain ⟨other, hother, event', hparse', hid, hcontract, hindex⟩ := (h.processed limit).leaf hrow
    rw [hsaved.joinedRows_eq] at hother
    have hmem := (mem_batch hentry).1
    have hevent : event.id = entry.1.id := parseEvent_id hparse rfl
    simp only [sameLeaf, hevent, contractOf_of_mem (mem_joinedRows.mp hmem).1, Option.getD_some, Bool.and_eq_true,
      beq_iff_eq] at hclash
    have hsame := hdistinct other hother entry hmem event' event hparse' hparse (hcontract.symm.trans hclash.1)
      (hindex.symm.trans hclash.2)
    exact ⟨_, mem_records_leaf.mpr ⟨row, hrow, rfl, by rw [hid, hsame, hevent]⟩⟩

theorem serves (hdistinct : DistinctLeaves codec db) (limit : Nat) :
    Backlog.Serves (keyOf codec) (orderedRows db) limit (hasRow db) (hasRow (processEvents codec limit db).2) := by
  have hsaved := (processEvents_saved codec limit db).2
  have hordered : orderedRows (processEvents codec limit db).2 = orderedRows db := by
    unfold orderedRows
    rw [hsaved.joinedRows_eq]
  constructor
  · intro x hx hrow
    obtain ⟨k, hk⟩ := Sdk.hasRow_iff.mp hrow
    exact Sdk.hasRow_iff.mpr ⟨k, hsaved.records_subset hk⟩
  · intro x hx hrow
    rcases hsaved.hasRow_of_new hrow with hold | ⟨parsed, hparsed, hid⟩
    · exact .inl hold
    · obtain ⟨entry, hentry, hparse⟩ := mem_parse_batch.mp hparsed
      have hsame := joinedRows_inj (mem_orderedRows.mp hx) (mem_batch hentry).1 (parseEvent_id hparse hid)
      exact .inr (hsame ▸ hentry)
  · intro x hx k hk
    rw [← hordered, (h.processed limit).mem_kept]
    exact h.recorded hdistinct hx hk

theorem finished (hall : AllStored codec db) : Backlog.Finished (keyOf codec) (orderedRows db) (hasRow db) := by
  intro entry hentry k hk
  obtain ⟨parsed, hparse, hkey⟩ := keyOf_eq_some.mp hk
  have hid : ∀ {id}, parsed.id? = some id → id = entry.1.id := fun hid => parseEvent_id hparse hid
  have hstored := hall entry (mem_orderedRows.mp hentry) parsed hparse
  have hown : hasRow db entry = true → k ∈ Backlog.kept (keyOf codec) (orderedRows db) (hasRow db) := fun hrow =>
    Backlog.mem_kept.mpr ⟨entry, hentry, hrow, hk⟩
  cases parsed <;> cases hkey
  case nullifier event =>
    obtain ⟨row, hrow, hevent | hsame⟩ := hstored
    · exact hown (Sdk.hasRow_iff.mpr ⟨_, mem_records_nullifier.mpr ⟨row, hrow, hevent.trans (hid rfl), rfl⟩⟩)
    · exact h.mem_kept.mpr ⟨_, mem_records_nullifier.mpr ⟨row, hrow, rfl, hsame⟩⟩
  case commitment event =>
    obtain ⟨row, hrow, hevent | hsame⟩ := hstored
    · exact hown (Sdk.hasRow_iff.mpr ⟨_, mem_records_commitment.mpr ⟨row, hrow, hevent.trans (hid rfl), rfl⟩⟩)
    · exact h.mem_kept.mpr ⟨_, mem_records_commitment.mpr ⟨row, hrow, rfl, hsame⟩⟩
  case publicKey event =>
    obtain ⟨row, hrow, hevent⟩ := hstored
    exact h.mem_kept.mpr ⟨_, mem_records_publicKey.mpr ⟨row, hrow, rfl, hevent⟩⟩
  case leafAdded event =>
    obtain ⟨row, hrow, hevent⟩ := hstored
    exact h.mem_kept.mpr ⟨_, mem_records_leaf.mpr ⟨row, hrow, rfl, hevent⟩⟩

theorem allStored (hfinished : Backlog.Finished (keyOf codec) (orderedRows db) (hasRow db)) : AllStored codec db := by
  intro entry hentry parsed hparse
  have hrecord : ∀ k, parsed.key? = some k → ∃ id, (id, k) ∈ db.records := fun k hk =>
    h.mem_kept.mp (hfinished entry (mem_orderedRows.mpr hentry) k (keyOf_eq_some.mpr ⟨parsed, hparse, hk⟩))
  cases parsed with
  | nullifier event =>
    obtain ⟨id, hid⟩ := hrecord _ rfl
    obtain ⟨row, hrow, -, hsame⟩ := mem_records_nullifier.mp hid
    exact ⟨row, hrow, .inr hsame⟩
  | commitment event =>
    obtain ⟨id, hid⟩ := hrecord _ rfl
    obtain ⟨row, hrow, -, hsame⟩ := mem_records_commitment.mp hid
    exact ⟨row, hrow, .inr hsame⟩
  | publicKey event =>
    obtain ⟨id, hid⟩ := hrecord _ rfl
    obtain ⟨row, hrow, -, hsame⟩ := mem_records_publicKey.mp hid
    exact ⟨row, hrow, hsame⟩
  | leafAdded event =>
    obtain ⟨id, hid⟩ := hrecord _ rfl
    obtain ⟨row, hrow, -, hsame⟩ := mem_records_leaf.mp hid
    exact ⟨row, hrow, hsame⟩
  | leafInserted => trivial
  | leafUpdated => trivial
  | leafDeleted => trivial

theorem distinctLeaves (hall : AllStored codec db) : DistinctLeaves codec db := by
  intro a ha b hb leaf leaf' hleaf hleaf' hcontract hindex
  -- the row of a leaf event holds its slot
  have hslot : ∀ entry ∈ joinedRows db, ∀ event, parseEvent codec (fetched entry) = .ok (.leafAdded event) →
      ∃ row ∈ db.aspMembershipLeaves.rows, row.eventId = entry.1.id ∧ row.contractId = entry.1.contractId ∧
        row.leafIndex = event.index := by
    intro entry hentry event hparse
    obtain ⟨row, hrow, hevent⟩ := hall entry hentry _ hparse
    obtain ⟨other, hother, event', hparse', hid, hcontract, hindex⟩ := h.leaf hrow
    have hown : row.eventId = entry.1.id := hevent.trans (parseEvent_id hparse rfl)
    have hsame := joinedRows_inj hother hentry (hid.symm.trans hown)
    rw [hsame] at hparse' hcontract
    rw [hparse] at hparse'
    cases hparse'
    exact ⟨row, hrow, hown, hcontract, hindex⟩
  obtain ⟨row, hrow, hid, hc, hi⟩ := hslot a ha leaf hleaf
  obtain ⟨row', hrow', hid', hc', hi'⟩ := hslot b hb leaf' hleaf'
  have hrows : row = row' := by
    apply db.aspMembershipLeaves.eq_of_conflict _ hrow hrow'
    · exact .inl ⟨by rw [hc, hc', hcontract], by rw [hi, hi', hindex]⟩
    · exact fun _ _ => Or.imp (And.imp Eq.symm Eq.symm) Eq.symm
  exact joinedRows_inj ha hb (by rw [← hid, ← hid', hrows])

end

end Traced

theorem joinedRows_processRun (codec : Codec) (limit : Nat) (db : Db) (n : Nat) :
    joinedRows (processRun codec limit db n) = joinedRows db := by
  induction n with
  | zero => rfl
  | succ n ih =>
    rw [processRun_succ, (processEvents_saved codec limit _).2.joinedRows_eq, ih]

theorem Traced.processRun (h : Traced codec db) (limit n : Nat) : Traced codec (processRun codec limit db n) := by
  induction n with
  | zero => exact h
  | succ n ih =>
    rw [processRun_succ]
    exact ih.processed limit

/-- Calling `process_events` again and again stores every readable event exactly when no
event that could be stored stands behind too many that cannot. -/
theorem all_stored_iff (h : Fed codec db) (limit : Nat) :
    (∃ n, AllStored codec (processRun codec limit db n)) ↔ DistinctLeaves codec db ∧ Unblocked codec limit db := by
  have htraced := fun n => (Traced.of_fed h).processRun limit n
  have hordered : ∀ n, orderedRows (processRun codec limit db n) = orderedRows db := fun n => by
    rw [orderedRows, joinedRows_processRun]
    rfl
  have hleaves : ∀ n, DistinctLeaves codec (processRun codec limit db n) ↔ DistinctLeaves codec db := fun n => by
    rw [DistinctLeaves, joinedRows_processRun]
    rfl
  have hrun : DistinctLeaves codec db → ((∃ n, AllStored codec (processRun codec limit db n)) ↔
      Unblocked codec limit db) := by
    intro hdistinct
    have hstep : ∀ n, Backlog.Serves (keyOf codec) (orderedRows db) limit (hasRow (processRun codec limit db n))
        (hasRow (processRun codec limit db (n + 1))) := by
      intro n
      rw [processRun_succ, ← hordered n]
      exact (htraced n).serves ((hleaves n).mpr hdistinct) limit
    have hvalid : ∀ n, Backlog.Valid (keyOf codec) (orderedRows db) (hasRow (processRun codec limit db n)) := by
      intro n
      rw [← hordered n]
      exact (htraced n).valid
    have hfinished : (∃ n, Backlog.Finished (keyOf codec) (orderedRows db) (hasRow (processRun codec limit db n))) ↔
        Unblocked codec limit db := Backlog.finished_iff_unblocked hstep hvalid (orderedRows_nodup db)
    rw [← hfinished]
    refine exists_congr fun n => ?_
    rw [← hordered n]
    exact ⟨(htraced n).finished, (htraced n).allStored⟩
  constructor
  · rintro ⟨n, hall⟩
    have hdistinct := (hleaves n).mp ((htraced n).distinctLeaves hall)
    exact ⟨hdistinct, (hrun hdistinct).mp ⟨n, hall⟩⟩
  · rintro ⟨hdistinct, hopen⟩
    exact (hrun hdistinct).mpr hopen

end Calls

/-! An event that lacks its topic, in front of one that is complete. -/

section Sample
variable (codec : Codec)

def bareEvent : ContractEvent where
  id := "0"
  ledger := 0
  contractId := "pool"
  topics := [codec.toXdrBase64 (.val (.symbol .new_nullifier_event))]
  value := codec.toXdrBase64 (.val .void)

def fullEvent : ContractEvent := (Published.newNullifier 7).contractEvent codec "1" 1 "pool"

def queued : Db := (saveEventsBatch [bareEvent codec, fullEvent codec] .fresh).2

theorem queued_fed : Fed codec (queued codec) := .saved _ .fresh

def keptRow (event : ContractEvent) : RawContractEvent × String :=
  (⟨event.id, event.ledger, 1, joinTopics event.topics, event.value⟩, "pool")

theorem joinedRows_queued : joinedRows (queued codec) = [keptRow (bareEvent codec), keptRow (fullEvent codec)] := rfl

theorem waiting_queued : Backlog.waiting (orderedRows (queued codec)) (hasRow (queued codec)) =
    [keptRow (bareEvent codec), keptRow (fullEvent codec)] := rfl

theorem parse_bareEvent : parseEvent codec (fetched (keptRow (bareEvent codec))) =
    .error (.missingTopic .new_nullifier_event) := by
  have htopics : splitTopics (joinTopics (bareEvent codec).topics) = (bareEvent codec).topics := by
    apply splitOn_intercalate
    · intro topic htopic
      rw [mem_singleton.mp htopic]
      exact codec.comma_notMem _
    · exact cons_ne_nil _ _
  have hmetadata : parseEventMetadata codec (fetched (keptRow (bareEvent codec))) =
      .ok { id := "0", name := .new_nullifier_event, topics := [], values := fun _ => none } := by
    simp only [parseEventMetadata, fetched, keptRow, htopics]
    simp only [bareEvent, codec.fromXdrBase64_toXdrBase64]
    rfl
  rw [parseEvent, hmetadata]
  rfl

theorem parse_fullEvent :
    parseEvent codec (fetched (keptRow (fullEvent codec))) = .ok (.nullifier ⟨"1", (7 : Nat)⟩) := by
  have htopics : splitTopics (joinTopics (fullEvent codec).topics) = (fullEvent codec).topics :=
    splitTopics_contractEvent codec ⟨"1", 1, "pool", .newNullifier 7⟩
  have hfetched : fetched (keptRow (fullEvent codec)) = fullEvent codec := by
    simp only [fetched, keptRow, htopics]
    rfl
  have hrange : (Published.newNullifier 7).InRange := by
    change 7 < bn256Modulus
    decide
  rw [hfetched]
  exact parseEvent_published codec hrange "1" 1 "pool"

theorem not_allStored_queued : ¬AllStored codec (queued codec) := by
  intro hall
  have hmem : keptRow (fullEvent codec) ∈ joinedRows (queued codec) := by simp [joinedRows_queued]
  obtain ⟨row, hrow, -⟩ := hall _ hmem _ (parse_fullEvent codec)
  cases hrow

theorem processRun_queued (n : Nat) : processRun codec 1 (queued codec) n = queued codec := by
  have hparse : parseEvents codec (getUnprocessedEvents (queued codec) 1) = [] := by
    rw [eq_nil_iff_forall_not_mem]
    intro parsed hparsed
    obtain ⟨entry, hentry, hparse⟩ := mem_parse_batch.mp hparsed
    rw [Backlog.batch, waiting_queued] at hentry
    rw [mem_singleton.mp hentry, parse_bareEvent] at hparse
    cases hparse
  have hcall : (processEvents codec 1 (queued codec)).2 = queued codec := by
    unfold processEvents
    split
    · rfl
    · rw [hparse]
      rfl
  induction n with
  | zero => rfl
  | succ n ih => rw [processRun_succ, ih, hcall]

end Sample

theorem unreadable_event_blocks : ∃ db, Fed unaryCodec db ∧
    ¬∃ n, AllStored unaryCodec (processRun unaryCodec 1 db n) := by
  refine ⟨queued unaryCodec, queued_fed unaryCodec, ?_⟩
  rintro ⟨n, hall⟩
  rw [processRun_queued] at hall
  exact not_allStored_queued unaryCodec hall

theorem all_stored_two : Fed unaryCodec (queued unaryCodec) ∧
    ∃ n, AllStored unaryCodec (processRun unaryCodec 2 (queued unaryCodec) n) := by
  refine ⟨queued_fed unaryCodec, (all_stored_iff (queued_fed unaryCodec) 2).mpr ⟨?_, ?_⟩⟩
  · intro a ha b hb leaf leaf' hleaf
    rw [joinedRows_queued, mem_pair] at ha
    rcases ha with rfl | rfl
    · rw [parse_bareEvent] at hleaf
      cases hleaf
    · rw [parse_fullEvent] at hleaf
      cases hleaf
  · intro ahead x behind hsplit _
    have hlength := congrArg List.length (waiting_queued unaryCodec)
    rw [hsplit, length_append] at hlength
    simp at hlength
    omega

end PrivatePayments.Sdk

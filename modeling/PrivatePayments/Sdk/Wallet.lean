import PrivatePayments.Sdk.Scan

/-! Calls on the wallet's database in any order, and what always holds between its
tables. -/
namespace PrivatePayments.Sdk
open Lib Relation List

inductive Call where
  | saveEvents (events : List ContractEvent)
  | saveKeypairs (address : String) (noteKeypair : NoteKeyPair)
      (encryptionKeypair : EncryptionKeyPair) (membershipBlinding : F)
  | saveCommitments (events : List NewCommitmentEvent)
  | saveNullifiers (events : List NewNullifierEvent)
  | scan (totalLimit : Nat) (derive : DeriveNote)
  | reconcile (limit : Nat)

def Call.run : Call → Db → Db
  | .saveEvents events, db => (saveEventsBatch events db).2
  | .saveKeypairs address noteKeypair encryptionKeypair membershipBlinding, db =>
      (saveEncryptionAndNoteKeypairs address noteKeypair encryptionKeypair membershipBlinding db).2
  | .saveCommitments events, db => (saveCommitmentEventsBatch events db).2
  | .saveNullifiers events, db => (saveNullifierEventsBatch events db).2
  | .scan totalLimit derive, db => (scanCommitmentsForUserNotes totalLimit derive db).2
  | .reconcile limit, db => (reconcileNullifiers limit db).2

structure Grows (db db' : Db) : Prop where
  contracts : db.contracts.rows <+: db'.contracts.rows
  events : db.rawContractEvents.rows <+: db'.rawContractEvents.rows
  accounts : db.accounts.rows <+: db'.accounts.rows
  nullifiers : db.poolNullifiers.rows <+: db'.poolNullifiers.rows
  commitments : db.poolCommitments.rows <+: db'.poolCommitments.rows

structure Linked (db : Db) : Prop where
  contract : ∀ row ∈ db.rawContractEvents.rows, ∃ address, db.address? row.contractId = some address
  nullifier : ∀ row ∈ db.poolNullifiers.rows, db.hasEvent row.eventId = true
  commitment : ∀ row ∈ db.poolCommitments.rows, db.hasEvent row.eventId = true
  account : ∀ note ∈ db.userNotes.rows,
    ∃ address, db.accounts.rows[note.accountId - 1]? = some address
  note : ∀ note ∈ db.userNotes.rows, ∃ row ∈ db.poolCommitments.rows, row.id = note.commitmentId

section
variable {db db' : Db}

theorem Grows.refl (db : Db) : Grows db db :=
  ⟨prefix_refl _, prefix_refl _, prefix_refl _, prefix_refl _, prefix_refl _⟩

theorem Grows.trans {db'' : Db} (h : Grows db db') (h' : Grows db' db'') : Grows db db'' :=
  ⟨h.contracts.trans h'.contracts, h.events.trans h'.events, h.accounts.trans h'.accounts,
    h.nullifiers.trans h'.nullifiers, h.commitments.trans h'.commitments⟩

theorem getElem?_of_isPrefix {α : Type} {xs ys : List α} (h : xs <+: ys) {i : Nat} {a : α}
    (ha : xs[i]? = some a) : ys[i]? = some a := by
  obtain ⟨rest, rfl⟩ := h
  rw [getElem?_append_left (List.getElem?_eq_some_iff.mp ha).1, ha]

variable {id : String}

theorem Grows.hasEvent (h : Grows db db') (hid : db.hasEvent id = true) :
    db'.hasEvent id = true := hasEvent_of_isPrefix h.events hid

theorem Grows.contractOf (h : Grows db db') (hid : db.hasEvent id = true) :
    db'.contractOf id = db.contractOf id := by
  obtain ⟨contractId, hcontract⟩ := exists_contractOf hid
  rw [hcontract, contractOf_of_isPrefix h.events hcontract]

theorem Linked.grow (h : Linked db) (hgrows : Grows db db')
    (hevents : ∀ row ∈ db'.rawContractEvents.rows, row ∈ db.rawContractEvents.rows ∨
      ∃ address, db'.address? row.contractId = some address)
    (hnullifiers : ∀ row ∈ db'.poolNullifiers.rows, row ∈ db.poolNullifiers.rows ∨
      db'.hasEvent row.eventId = true)
    (hcommitments : ∀ row ∈ db'.poolCommitments.rows, row ∈ db.poolCommitments.rows ∨
      db'.hasEvent row.eventId = true) (hnotes : ∀ note' ∈ db'.userNotes.rows, (∃ note ∈ db.userNotes.rows,
        note.accountId = note'.accountId ∧ note.commitmentId = note'.commitmentId) ∨
      (∃ address, db'.accounts.rows[note'.accountId - 1]? = some address) ∧
        ∃ row ∈ db'.poolCommitments.rows, row.id = note'.commitmentId) : Linked db' where
  contract row hrow := by
    rcases hevents row hrow with hold | hnew
    · obtain ⟨address, haddress⟩ := h.contract row hold
      exact ⟨address, getElem?_of_isPrefix hgrows.contracts haddress⟩
    · exact hnew
  nullifier row hrow := (hnullifiers row hrow).elim (fun hold => hgrows.hasEvent (h.nullifier row hold)) id
  commitment row hrow :=
    (hcommitments row hrow).elim (fun hold => hgrows.hasEvent (h.commitment row hold)) id
  account note' hnote' := by
    rcases hnotes note' hnote' with ⟨note, hnote, haccount, -⟩ | ⟨hnew, -⟩
    · obtain ⟨address, haddress⟩ := h.account note hnote
      exact ⟨address, getElem?_of_isPrefix hgrows.accounts (haccount ▸ haddress)⟩
    · exact hnew
  note note' hnote' := by
    rcases hnotes note' hnote' with ⟨note, hnote, -, hcommitment⟩ | ⟨-, hnew⟩
    · obtain ⟨row, hrow, hid⟩ := h.note note hnote
      exact ⟨row, hgrows.commitments.subset hrow, hid.trans hcommitment⟩
    · exact hnew

theorem mem_or_of_append {α : Type} {rows rows' : List α} {a : α} {p : α → Prop}
    (h : rows' = rows ++ [a]) (ha : p a) : ∀ row ∈ rows', row ∈ rows ∨ p row := by
  intro row hrow
  rw [h, mem_append, mem_singleton] at hrow
  rcases hrow with hold | rfl
  · exact .inl hold
  · exact .inr ha

theorem saveEvent_grows (db : Db) (event : ContractEvent) : Grows db (saveEvent db event) :=
  ⟨db.contracts.prefix_insertOrIgnore _, saveEvent_isPrefix db event, prefix_refl _,
    prefix_refl _, prefix_refl _⟩

theorem Linked.saveEvent (h : Linked db) (event : ContractEvent) : Linked (saveEvent db event) := by
  refine h.grow (saveEvent_grows db event) ?_ (fun _ => .inl) (fun _ => .inl)
    fun note hnote => .inl ⟨note, hnote, rfl, rfl⟩
  intro row hrow
  rcases saveEvent_rows db event with ⟨hrows, -⟩ | ⟨-, hrows⟩
  · exact .inl (hrows ▸ hrow)
  · apply mem_or_of_append hrows _ row hrow
    exact ⟨event.contractId, db.contracts.getElem?_insertOrIgnore event.contractId⟩

theorem saveNullifierEvent_grows {event : NewNullifierEvent}
    (h : saveNullifierEvent db event = .ok db') : Grows db db' := by
  rcases saveNullifierEvent_ok h with rfl | ⟨-, t, hrows, rfl⟩
  · exact .refl _
  · refine ⟨prefix_refl _, prefix_refl _, prefix_refl _, ?_, prefix_refl _⟩
    rw [hrows]
    exact prefix_append _ _

theorem Linked.saveNullifierEvent (h : Linked db) {event : NewNullifierEvent}
    (hsave : saveNullifierEvent db event = .ok db') : Linked db' := by
  have hgrows := saveNullifierEvent_grows hsave
  rcases saveNullifierEvent_ok hsave with rfl | ⟨hknown, t, hrows, rfl⟩
  · exact h
  · refine h.grow hgrows (fun _ => .inl) ?_ (fun _ => .inl) fun note hnote => .inl ⟨note, hnote, rfl, rfl⟩
    exact mem_or_of_append hrows hknown

variable {event : NewCommitmentEvent}

theorem saveCommitmentEvent_grows
    (h : saveCommitmentEvent db event = .ok db') : Grows db db' := by
  rcases saveCommitmentEvent_ok h with rfl | ⟨-, t, hrows, rfl⟩
  · exact .refl _
  · refine ⟨prefix_refl _, prefix_refl _, prefix_refl _, prefix_refl _, ?_⟩
    rw [hrows]
    exact prefix_append _ _

theorem Linked.saveCommitmentEvent (h : Linked db)
    (hsave : saveCommitmentEvent db event = .ok db') : Linked db' := by
  have hgrows := saveCommitmentEvent_grows hsave
  rcases saveCommitmentEvent_ok hsave with rfl | ⟨hknown, t, hrows, rfl⟩
  · exact h
  · refine h.grow hgrows (fun _ => .inl) (fun _ => .inl) ?_ fun note hnote => .inl ⟨note, hnote, rfl, rfl⟩
    exact mem_or_of_append hrows hknown

theorem saveKeypairs_grows (db : Db) (address : String) (noteKeypair : NoteKeyPair)
    (encryptionKeypair : EncryptionKeyPair) (membershipBlinding : F) :
    Grows db (saveEncryptionAndNoteKeypairs address noteKeypair encryptionKeypair membershipBlinding db).2 :=
  ⟨prefix_refl _, prefix_refl _, db.accounts.prefix_insertOrIgnore _, prefix_refl _,
    prefix_refl _⟩

theorem getElem?_account {account : AccountKeys} (h : account ∈ getAccountsWithLatestKeypairs db) :
    ∃ address, db.accounts.rows[account.accountId - 1]? = some address := by
  obtain ⟨i, hi, hlast⟩ := mem_filterMap.mp h
  have hid : account.accountId = i + 1 := by
    have hmem := mem_of_mem_getLast? hlast
    simpa using (mem_filter.mp hmem).2
  rw [hid, Nat.add_sub_cancel]
  exact ⟨_, getElem?_eq_getElem (mem_range.mp hi)⟩

variable {accounts : List AccountKeys} {derive : DeriveNote}

theorem ScanStep.grows
    (h : ScanStep derive accounts db db') : Grows db db' := by
  obtain ⟨_, _, rfl⟩ := h.frame
  exact ⟨prefix_refl _, prefix_refl _, prefix_refl _, prefix_refl _, prefix_refl _⟩

theorem Linked.scanStep (h : Linked db)
    (hstep : ScanStep derive accounts db db') (haccounts : ∀ account ∈ accounts,
      ∃ address, db.accounts.rows[account.accountId - 1]? = some address) : Linked db' := by
  have hnotes := hstep.mem_notes
  have hgrows := hstep.grows
  obtain ⟨_, _, rfl⟩ := hstep.frame
  refine h.grow hgrows (fun _ => .inl) (fun _ => .inl) (fun _ => .inl) ?_
  intro note hnote
  rcases hnotes note hnote with hold | ⟨pool, account, hmem, row, hrow, derived, -, -, rfl⟩
  · exact .inl ⟨note, hold, rfl, rfl⟩
  · exact .inr ⟨haccounts account hmem, row, hrow, rfl⟩

variable {limit : Nat}

theorem ReconcileStep.grows (h : ReconcileStep limit db db') : Grows db db' := by
  obtain ⟨_, _, rfl⟩ := h.frame
  exact ⟨prefix_refl _, prefix_refl _, prefix_refl _, prefix_refl _, prefix_refl _⟩

theorem Linked.reconcileStep (h : Linked db) (hstep : ReconcileStep limit db db') : Linked db' := by
  have hgrows := hstep.grows
  have horigin := hstep.origin
  obtain ⟨_, _, rfl⟩ := hstep.frame
  refine h.grow hgrows (fun _ => .inl) (fun _ => .inl) (fun _ => .inl) fun note' hnote' => ?_
  obtain ⟨note, hnote, hbecomes⟩ := horigin note' hnote'
  exact .inl ⟨note, hnote, hbecomes.same⟩

theorem Linked.run (h : Linked db) (call : Call) : Linked (call.run db) := by
  cases call with
  | saveEvents events =>
    exact saveEventsBatch_keeps (fun _ event _ hdb => hdb.saveEvent event) h
  | saveKeypairs =>
    exact h.grow (saveKeypairs_grows db _ _ _ _)
      (fun _ => .inl) (fun _ => .inl) (fun _ => .inl) fun note hnote => .inl ⟨note, hnote, rfl, rfl⟩
  | saveCommitments events =>
    exact saveBatch_keeps (fun _ _ _ _ hsave hdb => hdb.saveCommitmentEvent hsave) h
  | saveNullifiers events =>
    exact saveBatch_keeps (fun _ _ _ _ hsave hdb => hdb.saveNullifierEvent hsave) h
  | scan totalLimit derive =>
    exact scan_keeps (fun _ _ _ hstep hdb => hdb.scanStep hstep fun _ => getElem?_account) h
  | reconcile limit => exact reconcile_keeps (fun _ _ hstep hdb => hdb.reconcileStep hstep) h

theorem linked_fresh : Linked Db.fresh := by
  constructor <;> simp [Db.fresh]

end

end PrivatePayments.Sdk

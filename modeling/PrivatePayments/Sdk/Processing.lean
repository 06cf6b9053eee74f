import PrivatePayments.Sdk.Ingest
import PrivatePayments.Sdk.Progress

/-! `process_local_state`: batches until one reports that nothing was left. -/
namespace PrivatePayments.Sdk
open Lib Relation List Method

def Sourced (derive : DeriveNote) (db : Db) : Prop :=
  ∀ note ∈ db.userNotes.rows, ∃ account ∈ db.keypairs, ∃ row ∈ db.poolCommitments.rows, ∃ derived,
    OpenedBy derive note account row derived

structure Working (codec : Codec) (chain : Chain) (derive : DeriveNote) (db : Db) : Prop where
  mirrored : Mirrored codec chain db
  tracked : Tracked db
  sourced : Sourced derive db
  numbered : ∀ row ∈ db.rawContractEvents.rows, 0 < row.contractId

variable {codec : Codec} {chain : Chain} {derive : DeriveNote} {db db' : Db} {limit : Nat}
  {batch : List Entry}

variable {account : AccountKeys}

section Working

theorem Sourced.grow (h : Sourced derive db) (hnotes : db'.userNotes = db.userNotes)
    (hkeys : db.keypairs <+: db'.keypairs)
    (hcommitments : db.poolCommitments.rows <+: db'.poolCommitments.rows) : Sourced derive db' := by
  intro note hnote
  rw [hnotes] at hnote
  obtain ⟨account, haccount, row, hrow, derived, hopened⟩ := h note hnote
  exact ⟨account, hkeys.subset haccount, row, hcommitments.subset hrow, derived, hopened⟩

theorem mem_keypairs (h : account ∈ getAccountsWithLatestKeypairs db) :
    account ∈ db.keypairs :=
  (mem_filter.mp (mem_of_mem_getLast? (mem_accounts.mp h).2.2)).1

theorem Stored.grows (h : Stored codec batch db db') : Grows db db' := by
  obtain ⟨⟨n, c, p, l, rfl⟩, hn, hc, -, -⟩ := h
  exact ⟨prefix_refl _, prefix_refl _, prefix_refl _, hn ▸ prefix_insertAll, hc ▸ prefix_insertAll⟩

theorem Mirrored.hasEvent_nullifier (h : Mirrored codec chain db) {row : PoolNullifier}
    (hrow : row ∈ db.poolNullifiers.rows) : db.hasEvent row.eventId = true :=
  h.nullifiers.hasEvent nullifier?_id (fun _ _ => rfl) hrow

theorem Mirrored.hasEvent_commitment (h : Mirrored codec chain db) {row : PoolCommitment}
    (hrow : row ∈ db.poolCommitments.rows) : db.hasEvent row.eventId = true :=
  h.commitments.hasEvent commitment?_id (fun _ _ => rfl) hrow

theorem Working.stored (h : Working codec chain derive db) (hbatch : Batch codec chain db limit batch)
    (hstored : Stored codec batch db db') : Working codec chain derive db' := by
  have hmirrored := h.mirrored.stored hbatch hstored
  have hgrows := hstored.grows
  have hlinked : Linked db' := by
    have hnotes : db'.userNotes = db.userNotes := by
      obtain ⟨_, _, _, _, rfl⟩ := hstored.frame
      rfl
    refine h.tracked.linked.grow hgrows ?_ (fun _ hrow => .inr (hmirrored.hasEvent_nullifier hrow))
      (fun _ hrow => .inr (hmirrored.hasEvent_commitment hrow)) ?_
    · obtain ⟨_, _, _, _, rfl⟩ := hstored.frame
      exact fun _ => .inl
    · intro note hnote
      exact .inl ⟨note, hnotes ▸ hnote, rfl, rfl⟩
  obtain ⟨n, c, p, l, rfl⟩ := hstored.frame
  refine ⟨hmirrored, ?_, ?_, h.numbered⟩
  · exact h.tracked.grow hlinked hgrows rfl rfl fun _ => NumberedTable.mem_of_isPrefix hgrows.nullifiers
  · exact h.sourced.grow rfl (prefix_refl _) hgrows.commitments

theorem Mirrored.of_notes (h : Mirrored codec chain db) (hsame : ∃ userNotes accountCommitmentScan nullifierScanState,
      db' = { db with userNotes, accountCommitmentScan, nullifierScanState }) :
    Mirrored codec chain db' := by
  obtain ⟨_, _, _, rfl⟩ := hsame
  exact ⟨h.events, h.nullifiers, h.commitments, h.publicKeys, h.leaves⟩

section
variable (h : Working codec chain derive db)
include h

theorem Working.scan (totalLimit : Nat) :
    Working codec chain derive (scanCommitmentsForUserNotes totalLimit derive db).2 := by
  have htracked : Tracked (scanCommitmentsForUserNotes totalLimit derive db).2 :=
    h.tracked.run (.scan totalLimit derive)
  have hsourced : Sourced derive (scanCommitmentsForUserNotes totalLimit derive db).2 := by
    apply scan_keeps _ h.sourced
    intro userNotes scan db' hstep hdb note hnote
    have hnotes := hstep.mem_notes note hnote
    obtain ⟨_, _, rfl⟩ := hstep.frame
    rcases hnotes with hold | ⟨pool, account, haccount, row, hrow, derived, -, hderive, rfl⟩
    · exact hdb note hold
    · exact ⟨account, mem_keypairs haccount, row, hrow, derived, hderive, rfl, rfl, rfl, rfl, rfl, rfl⟩
  obtain ⟨_, _, hframe⟩ := scan_frame totalLimit derive db
  rw [hframe] at htracked hsourced ⊢
  exact ⟨h.mirrored.of_notes ⟨_, _, _, rfl⟩, htracked, hsourced, h.numbered⟩

theorem Working.reconcile (limit : Nat) :
    Working codec chain derive (reconcileNullifiers limit db).2 := by
  have htracked : Tracked (reconcileNullifiers limit db).2 := h.tracked.run (.reconcile limit)
  have hsourced : Sourced derive (reconcileNullifiers limit db).2 := by
    apply reconcile_keeps _ h.sourced
    intro db db' hstep hdb note' hnote'
    obtain ⟨note, hnote, hbecomes⟩ := hstep.origin note' hnote'
    obtain ⟨account, haccount, row, hrow, derived, hopened⟩ := hdb note hnote
    obtain ⟨_, _, rfl⟩ := hstep.frame
    exact ⟨account, haccount, row, hrow, derived, hopened.becomes hbecomes⟩
  obtain ⟨_, _, hframe⟩ := reconcile_frame limit db
  rw [hframe] at htracked hsourced ⊢
  exact ⟨h.mirrored.of_notes ⟨_, _, _, rfl⟩, htracked, hsourced, h.numbered⟩

theorem Working.processEvents (limit : Nat) :
    Working codec chain derive (processEvents codec limit db).2 := by
  obtain ⟨batch, db', hbatch, hresult, hstored⟩ := h.mirrored.processes limit
  rw [hresult]
  exact h.stored hbatch hstored

end

theorem Working.keeps_processNotes (limit : Nat) :
    Keeps (Working codec chain derive) (processNotes limit derive) := by
  apply Keeps.bind
  · exact fun _ h => h.scan limit
  · intro scanned
    exact Keeps.bind (fun _ h => h.reconcile limit) fun _ => keeps_pure _

theorem Working.keeps_processLocalStateBatch :
    Keeps (Working codec chain derive) (processLocalStateBatch codec derive) := by
  apply Keeps.bind
  · exact fun _ h => h.processEvents processFetchLimit
  · intro didRaw
    exact Keeps.bind (Working.keeps_processNotes processFetchLimit) fun _ => keeps_pure _

structure SameInputs (db db' : Db) : Prop where
  contracts : db'.contracts = db.contracts
  events : db'.rawContractEvents = db.rawContractEvents
  accounts : db'.accounts = db.accounts
  keypairs : db'.keypairs = db.keypairs

section
variable (h : SameInputs db db')
include h

theorem SameInputs.trans {db'' : Db} (h' : SameInputs db' db'') : SameInputs db db'' :=
  ⟨h'.contracts.trans h.contracts, h'.events.trans h.events, h'.accounts.trans h.accounts,
    h'.keypairs.trans h.keypairs⟩

theorem SameInputs.symm : SameInputs db' db :=
  ⟨h.contracts.symm, h.events.symm, h.accounts.symm, h.keypairs.symm⟩

theorem SameInputs.stored_eq : storedEntries chain db' = storedEntries chain db := by
  unfold storedEntries Db.hasEvent
  rw [h.events]

theorem SameInputs.latest :
    getAccountsWithLatestKeypairs db' = getAccountsWithLatestKeypairs db := by
  unfold getAccountsWithLatestKeypairs
  rw [h.accounts, h.keypairs]

end

theorem Saved.sameInputs {parsed : List ProcessedEvent} (h : Saved parsed db db') : SameInputs db db' := by
  obtain ⟨_, _, _, _, rfl⟩ := h.frame
  exact ⟨rfl, rfl, rfl, rfl⟩

/-- Everything that `process_events` reads or writes agrees. -/
structure SameTables (db db' : Db) : Prop extends SameInputs db db' where
  nullifiers : db'.poolNullifiers.rows = db.poolNullifiers.rows
  commitments : db'.poolCommitments.rows = db.poolCommitments.rows
  publicKeys : db'.publicKeys.rows = db.publicKeys.rows
  leaves : db'.aspMembershipLeaves.rows = db.aspMembershipLeaves.rows

theorem SameTables.trans {db'' : Db} (h : SameTables db db') (h' : SameTables db' db'') : SameTables db db'' :=
  ⟨h.toSameInputs.trans h'.toSameInputs, h'.nullifiers.trans h.nullifiers, h'.commitments.trans h.commitments,
    h'.publicKeys.trans h.publicKeys, h'.leaves.trans h.leaves⟩

theorem SameTables.symm (h : SameTables db db') : SameTables db' db :=
  ⟨h.toSameInputs.symm, h.nullifiers.symm, h.commitments.symm, h.publicKeys.symm, h.leaves.symm⟩

theorem SameTables.processEvents (h : SameTables db db') (codec : Codec) (limit : Nat) :
    SameTables (processEvents codec limit db).2 (processEvents codec limit db').2 := by
  have hfetched : getUnprocessedEvents db' limit = getUnprocessedEvents db limit := by
    unfold getUnprocessedEvents Db.unprocessed Db.address?
    rw [h.events, h.contracts, h.nullifiers, h.commitments, h.publicKeys, h.leaves]
  have hcontract : db'.contractOf = db.contractOf := by
    unfold Db.contractOf Db.event?
    rw [h.events]
  have hsaved := (processEvents_saved codec limit db).2
  have hsaved' := (processEvents_saved codec limit db').2
  rw [hfetched] at hsaved'
  refine ⟨(hsaved.sameInputs.symm.trans h.toSameInputs).trans hsaved'.sameInputs, ?_, ?_, ?_, ?_⟩
  · rw [hsaved.nullifiers, hsaved'.nullifiers, h.nullifiers]
  · rw [hsaved.commitments, hsaved'.commitments, h.commitments]
  · rw [hsaved.publicKeys, hsaved'.publicKeys, h.publicKeys]
  · rw [hsaved.leaves, hsaved'.leaves, h.leaves]
    unfold sameLeaf leafRow
    rw [hcontract]

theorem processNotes_sameTables (limit : Nat) (derive : DeriveNote) (db : Db) :
    SameTables db (processNotes limit derive db).2 := by
  obtain ⟨_, _, _, hframe⟩ := processNotes_frame limit derive db
  rw [hframe]
  exact ⟨⟨rfl, rfl, rfl, rfl⟩, rfl, rfl, rfl, rfl⟩

theorem processNotes_sameInputs (h : (processNotes limit derive db).2 = db') : SameInputs db db' :=
  h ▸ (processNotes_sameTables limit derive db).toSameInputs

/-- The notes have no part in what the events become. -/
theorem batch_sameTables (codec : Codec) (derive : DeriveNote) (db : Db) :
    SameTables (Sdk.processEvents codec processFetchLimit db).2 (processLocalStateBatch codec derive db).2 := by
  have hok := (processEvents_saved codec processFetchLimit db).1
  have hkeeps : Keeps (SameTables (Sdk.processEvents codec processFetchLimit db).2)
      (processNotes processFetchLimit derive >>= fun didNotes =>
        pure (!(getUnprocessedEvents db processFetchLimit).isEmpty || didNotes)) :=
    Keeps.bind (fun d hd => hd.trans (processNotes_sameTables _ derive d)) fun _ => keeps_pure _
  have heq : processLocalStateBatch codec derive db = _ := bind_of_ok (Prod.ext hok rfl)
  rw [heq]
  exact hkeeps _ ⟨⟨rfl, rfl, rfl, rfl⟩, rfl, rfl, rfl, rfl⟩

theorem batch_sameInputs (codec : Codec) (derive : DeriveNote) (db : Db) :
    SameInputs db (processLocalStateBatch codec derive db).2 :=
  (processEvents_saved codec processFetchLimit db).2.sameInputs.trans (batch_sameTables codec derive db).toSameInputs

theorem Mirrored.processLocalStateBatch (h : Mirrored codec chain db) (derive : DeriveNote) :
    ∃ batch db₁, Batch codec chain db processFetchLimit batch ∧ Stored codec batch db db₁ ∧
      processLocalStateBatch codec derive db =
        (processNotes processFetchLimit derive >>= fun didNotes =>
          pure (!batch.isEmpty || didNotes)) db₁ := by
  obtain ⟨batch, db₁, hbatch, hresult, hstored⟩ := h.processes processFetchLimit
  exact ⟨batch, db₁, hbatch, hstored, bind_of_ok hresult⟩

end Working

/-! What the ciphertexts and the hash function have to do with it. -/

def Decryptable (cipher : Cipher) (accounts : List AccountKeys) (entries : List Entry) : Prop :=
  ∀ account ∈ accounts, ∀ entry ∈ entries, ∀ commitment index output,
    entry.event = .newCommitment commitment index output →
      Legible cipher account.encryptionKeypair.privateKey output

def poolAddresses (entries : List Entry) : List String :=
  ((entries.filter fun entry => entry.event.commitment?.isSome).map Entry.contractId).dedup

def nullifierQuery (P : Permutation) (privateKey : Key) (commitment : F) (leafIndex : Nat) : Query :=
  .hash3 commitment (leafIndex : F)
    (hash3 P (fromLeBytesModOrder privateKey.1) commitment (leafIndex : F) 4) 2

/-- The inputs of the expected nullifiers of all notes that could be opened are in `Q`. -/
def NullifierInputs (P : Permutation) (Q : Set Query) (keys : List AccountKeys) (entries : List Entry) :
    Prop :=
  ∀ account ∈ keys, ∀ entry ∈ entries, ∀ commitment index output,
    entry.event = .newCommitment commitment index output →
      nullifierQuery P account.noteKeypair.privateKey (commitment : F) index ∈ Q

variable {P : Permutation} {cipher : Cipher} {Q : Set Query}

section Serviceable
variable {account : AccountKeys} {row : PoolCommitment}

theorem deriveUserNote_ok {derived : DerivedUserNote} (h : deriveUserNote P cipher account row = .ok (some derived)) :
    derived.amount ≠ 0 ∧ hash3 P (derived.amount : F) (fromLeBytesModOrder account.noteKeypair.publicKey.1)
        derived.blinding 1 = row.commitment ∧ derived.expectedNullifier =
      (nullifierQuery P account.noteKeypair.privateKey row.commitment row.leafIndex).digest P := by
  obtain ⟨note, -, h⟩ := Contracts.bind_eq_ok h
  cases note with
  | none => cases h
  | some pair =>
    dsimp only at h
    split at h
    · cases h
    · split at h
      · cases h
      · cases h
        exact ⟨‹_›, not_not.mp ‹_›, rfl⟩

theorem Mirrored.commitment_entry (h : Mirrored codec chain db) (hrow : row ∈ db.poolCommitments.rows) :
    ∃ entry ∈ storedEntries chain db, ∃ n, db.contractOf row.eventId = db.contractOf entry.id ∧
      entry.event = .newCommitment n row.leafIndex row.encryptedOutput ∧ (n : F) = row.commitment := by
  obtain ⟨entry, hentry, hknown, event, hsome, n, rfl⟩ := h.commitments row hrow
  refine ⟨entry, mem_filter.mpr ⟨hentry, hknown⟩, ?_⟩
  obtain ⟨id, ledger, contractId, published⟩ := entry
  cases published <;> cases hsome
  exact ⟨_, rfl, rfl, rfl⟩

theorem Working.separate (h : Working codec chain (deriveUserNote P cipher) db)
    (hfree : CollisionFree P Q) (hinputs : NullifierInputs P Q db.keypairs (storedEntries chain db)) :
    Separate db db.userNotes.rows := by
  have hquery : ∀ note ∈ db.userNotes.rows, ∃ key index,
      nullifierQuery P key note.id index ∈ Q ∧
        note.expectedNullifier = (nullifierQuery P key note.id index).digest P := by
    intro note hnote
    obtain ⟨account, haccount, row, hrow, derived, hopened⟩ := h.sourced note hnote
    obtain ⟨entry, hentry, n, -, hevent, hvalue⟩ := h.mirrored.commitment_entry hrow
    refine ⟨account.noteKeypair.privateKey, row.leafIndex, ?_, ?_⟩
    · rw [hopened.id, ← hvalue]
      exact hinputs account haccount entry hentry _ _ _ hevent
    · rw [hopened.expectedNullifier, hopened.id]
      exact (deriveUserNote_ok hopened.opens).2.2
  intro note hnote other hother pool _ _ hsame
  obtain ⟨key, index, hmem, hexpected⟩ := hquery note hnote
  obtain ⟨key', index', hmem', hexpected'⟩ := hquery other hother
  exact (hfree.hash3_inj hmem hmem' (hexpected.symm.trans (hsame.trans hexpected'))).1

theorem Working.contractOf_eq (h : Working codec chain derive db) {entry : Entry}
    (hentry : entry ∈ storedEntries chain db) :
    db.contractOf entry.id = some (db.contracts.rows.idxOf entry.contractId + 1) := by
  obtain ⟨hlogged, hknown⟩ := mem_filter.mp hentry
  obtain ⟨contractId, hcontract, haddress⟩ := h.mirrored.contractOf hlogged hknown
  have hpos : 0 < contractId := by
    obtain ⟨event, hevent, hid⟩ := hasEvent_iff.mp hknown
    rw [← hid, contractOf_of_mem hevent] at hcontract
    exact Option.some.inj hcontract ▸ h.numbered event hevent
  have hnodup : db.contracts.rows.Nodup := db.contracts.unique
  obtain ⟨hlt, hget⟩ := List.getElem?_eq_some_iff.mp haddress
  have hplace : db.contracts.rows.idxOf entry.contractId = contractId - 1 := by
    rw [← hget]
    exact hnodup.idxOf_getElem _ hlt
  rw [hcontract, hplace, Nat.sub_add_cancel hpos]

theorem mem_poolAddresses {entries : List Entry} {address : String} :
    address ∈ poolAddresses entries ↔
      ∃ entry ∈ entries, entry.event.commitment?.isSome ∧ entry.contractId = address := by
  simp [poolAddresses, and_assoc]

theorem Working.poolIds_length_le (h : Working codec chain derive db) :
    (scanPoolIds db).length ≤
      (poolAddresses (storedEntries chain db)).length := by
  have hnodup : (scanPoolIds db).Nodup :=
    (perm_insertionSort _ _).nodup_iff.mpr (nodup_dedup _)
  have hsubset : scanPoolIds db ⊆
      (poolAddresses (storedEntries chain db)).map fun address => db.contracts.rows.idxOf address + 1 := by
    intro pool hpool
    obtain ⟨eventId, hmem, hcontract⟩ := mem_poolIds.mp hpool
    obtain ⟨row, hrow, rfl⟩ := mem_map.mp hmem
    obtain ⟨entry, hentry, n, hsame, hevent, -⟩ := h.mirrored.commitment_entry hrow
    rw [hsame, h.contractOf_eq hentry] at hcontract
    refine mem_map.mpr ⟨entry.contractId, ?_, Option.some.inj hcontract⟩
    refine mem_poolAddresses.mpr ⟨entry, hentry, ?_, rfl⟩
    rw [hevent]
    rfl
  simpa using (subperm_of_subset hnodup hsubset).length_le

/-- The condition under which processing gets on: what was published can be decrypted, and
the number of pools fits. -/
structure Serviceable (cipher : Cipher) (chain : Chain) (db : Db) : Prop where
  decryptable : Decryptable cipher (getAccountsWithLatestKeypairs db) (storedEntries chain db)
  pools : getAccountsWithLatestKeypairs db = [] ∨
    (poolAddresses (storedEntries chain db)).length < 2 ^ 32

theorem SameInputs.serviceable (h : SameInputs db db') (hs : Serviceable cipher chain db) :
    Serviceable cipher chain db' := by
  constructor
  · rw [h.latest, h.stored_eq]
    exact hs.decryptable
  · rw [h.latest, h.stored_eq]
    exact hs.pools

/-- The same of the rows that came of the published events. -/
structure Decipherable (cipher : Cipher) (db : Db) : Prop where
  legible : ∀ account ∈ getAccountsWithLatestKeypairs db, ∀ row ∈ db.poolCommitments.rows,
    Legible cipher account.encryptionKeypair.privateKey row.encryptedOutput
  pools : getAccountsWithLatestKeypairs db = [] ∨
    (scanPoolIds db).length < 2 ^ 32

theorem Serviceable.decipherable (hs : Serviceable cipher chain db)
    (h : Working codec chain derive db) : Decipherable cipher db := by
  refine ⟨fun account haccount row hrow => ?_, hs.pools.imp_right h.poolIds_length_le.trans_lt⟩
  obtain ⟨entry, hentry, n, -, hevent, -⟩ := h.mirrored.commitment_entry hrow
  exact hs.decryptable account haccount entry hentry _ _ _ hevent

theorem SameTables.poolIds_eq (h : SameTables db db') : scanPoolIds db' = scanPoolIds db := by
  unfold scanPoolIds poolIds Db.contractOf Db.event?
  rw [h.events, h.commitments]

theorem SameTables.decipherable (h : SameTables db db') (hd : Decipherable cipher db) : Decipherable cipher db' := by
  constructor
  · rw [h.latest, h.commitments]
    exact hd.legible
  · rw [h.latest, h.poolIds_eq]
    exact hd.pools

theorem SameInputs.nullifierInputs (h : SameInputs db db')
    (hinputs : NullifierInputs P Q db.keypairs (storedEntries chain db)) :
    NullifierInputs P Q db'.keypairs (storedEntries chain db') := by
  rw [h.keypairs, h.stored_eq]
  exact hinputs

theorem Working.batch_step (h : Working codec chain (deriveUserNote P cipher) db)
    (hd : Decipherable cipher (Sdk.processEvents codec processFetchLimit db).2) (hfree : CollisionFree P Q)
    (hinputs : NullifierInputs P Q db.keypairs (storedEntries chain db)) :
    ∃ batch db₁ didNotes db', Batch codec chain db processFetchLimit batch ∧
      Stored codec batch db db₁ ∧
      processNotes processFetchLimit (deriveUserNote P cipher) db₁ = (.ok didNotes, db') ∧
      processLocalStateBatch codec (deriveUserNote P cipher) db =
        (.ok (!batch.isEmpty || didNotes), db') := by
  obtain ⟨batch, db₁, hbatch, hresult, hstored⟩ := h.mirrored.processes processFetchLimit
  rw [hresult] at hd
  have h₁ := h.stored hbatch hstored
  have hinputs₁ := hstored.sameInputs.nullifierInputs hinputs
  have hnotes : ∃ didNotes db',
      processNotes processFetchLimit (deriveUserNote P cipher) db₁ = (.ok didNotes, db') := by
    apply processNotes_total
    · exact fun account haccount row hrow => deriveUserNote_ok_iff.mpr (hd.legible account haccount row hrow)
    · exact hd.pools
    · rintro _ rfl
      have h₂ := h₁.scan processFetchLimit
      refine ⟨h₂.separate hfree ?_, h₂.tracked.spent⟩
      obtain ⟨_, _, hframe⟩ := scan_frame processFetchLimit (deriveUserNote P cipher) db₁
      rw [hframe]
      exact hinputs₁
  obtain ⟨didNotes, db', hnotes⟩ := hnotes
  refine ⟨batch, db₁, didNotes, db', hbatch, hstored, hnotes, ?_⟩
  calc processLocalStateBatch codec (deriveUserNote P cipher) db
    _ = _ := bind_of_ok hresult
    _ = _ := bind_of_ok hnotes

end Serviceable

/-- `process_local_state` returns: some call reports that nothing was left, and all before
it that there may be more. -/
inductive Finishes (codec : Codec) (derive : DeriveNote) : Db → Prop where
  | done {db db' : Db} (h : processLocalStateBatch codec derive db = (.ok false, db')) :
      Finishes codec derive db
  | more {db db' : Db} (h : processLocalStateBatch codec derive db = (.ok true, db'))
      (hrest : Finishes codec derive db') : Finishes codec derive db

def room (db : Db) : Nat := 4 * db.rawContractEvents.rows.length - rowCount db

section Finishes
variable {db db' db₁ : Db} {did : Bool}

theorem processNotes_rowCount (h : (processNotes limit derive db).2 = db') : rowCount db' = rowCount db := by
  obtain ⟨_, _, _, hframe⟩ := processNotes_frame limit derive db
  rw [← h, hframe]
  rfl

theorem Working.batch_measure (h : Working codec chain derive db)
    (hbatch : Batch codec chain db limit batch) (hstored : Stored codec batch db db₁)
    (hnotes : processNotes limit derive db₁ = (.ok did, db')) :
    room db' < room db ∨ db₁ = db ∧ room db' = room db ∧
      (did = true → todo (getAccountsWithLatestKeypairs db) db' < todo (getAccountsWithLatestKeypairs db) db) := by
  have hrows := processNotes_rowCount (congrArg Prod.snd hnotes)
  have hraw := (processNotes_sameInputs (congrArg Prod.snd hnotes)).events
  have hraw₁ := hstored.sameInputs.events
  rcases hstored.eq_or_lt with rfl | hlt
  · right
    refine ⟨rfl, ?_, (processNotes_todo hnotes).2⟩
    unfold room
    rw [hrows, hraw]
  · left
    have hle := (h.mirrored.stored hbatch hstored).rowCount_le
    unfold room
    rw [hrows, hraw, hraw₁]
    rw [hraw₁] at hle
    omega

theorem Working.processes (h : Working codec chain derive db)
    (hresult : (processLocalStateBatch codec derive db).2 = db') : Working codec chain derive db' := by
  rw [← hresult]
  exact Working.keeps_processLocalStateBatch db h

end Finishes

structure Vetted (derive : DeriveNote) (db : Db) : Prop where
  bounded : ∀ pool accountId, position db pool accountId ≤ db.poolCommitments.rows.length
  passed : ∀ account ∈ getAccountsWithLatestKeypairs db, ∀ row ∈ db.poolCommitments.rows, ∀ pool,
    db.contractOf row.eventId = some pool → row.id ≤ position db pool account.accountId →
      ∃ derived, derive account row = .ok derived

section Vetted

theorem scanRows_readable {pool : Nat} {rows : List PoolCommitment}
    {notes notes' : Table UserNote UserNote.conflict} (h : scanRows derive db pool account rows notes = .ok notes') :
    ∀ row ∈ rows, ∃ derived, derive account row = .ok derived := by
  induction rows generalizing notes with
  | nil => simp
  | cons first rest ih =>
    intro row hrow
    unfold scanRows at h
    split at h
    · cases h
    · rename_i hnone
      rcases mem_cons.mp hrow with rfl | hrest
      · exact ⟨_, hnone⟩
      · exact ih h row hrest
    · rename_i derived hsome
      rcases mem_cons.mp hrow with rfl | hrest
      · exact ⟨_, hsome⟩
      · exact ih h row hrest

section
variable (h : Vetted derive db)
include h

theorem Vetted.stored (hstored : Stored codec batch db db') : Vetted derive db' := by
  have hgrows := hstored.grows
  obtain ⟨n, c, p, l, rfl⟩ := hstored.frame
  refine ⟨fun pool accountId => (h.bounded pool accountId).trans hgrows.commitments.length_le, ?_⟩
  intro account haccount row hrow pool hcontract hle
  rcases NumberedTable.mem_of_isPrefix hgrows.commitments hrow with hold | hlater
  · exact h.passed account haccount row hold pool hcontract hle
  · exact absurd (hlater.trans_le hle) (not_lt.mpr (h.bounded pool account.accountId))

theorem Vetted.scanStep
    (hstep : ScanStep derive (getAccountsWithLatestKeypairs db) db db') : Vetted derive db' := by
  cases hstep with
  | opened hmem =>
    constructor
    · intro pool accountId
      rw [position_openScan]
      exact h.bounded pool accountId
    · intro account haccount row hrow pool hcontract hle
      rw [position_openScan] at hle
      exact h.passed account haccount row hrow pool hcontract hle
  | @scanned pool quota count account _ hmem hscan =>
    obtain ⟨-, -, userNotes, hrows, rfl⟩ := scanAccount_ok hscan
    constructor
    · intro pool' accountId
      rw [position_setScan]
      split
      · rcases highest_cases (position db pool account.accountId) (nextCommitments db pool quota account) with
          hlast | ⟨row, hrow, hid⟩
        · exact hlast.trans_le (h.bounded pool account.accountId)
        · exact hid.trans_le (db.poolCommitments.rowid_le (mem_of_mem_page hrow).1).2
      · exact h.bounded pool' accountId
    · intro other hother row hrow pool' hcontract hle
      rw [position_setScan] at hle
      split at hle
      · rename_i hsame
        obtain rfl : other = account := account_inj hother hmem hsame.2
        have hselect : inPool db pool row = true := beq_iff_eq.mpr (hsame.1 ▸ hcontract)
        rcases mem_page_of_le db.poolCommitments.sorted hrow hselect hle with hbefore | hpage
        · exact h.passed other hother row hrow pool' hcontract (hsame.1 ▸ hbefore)
        · exact scanRows_readable hrows row hpage
      · exact h.passed other hother row hrow pool' hcontract hle

theorem Vetted.scan (totalLimit : Nat) :
    Vetted derive (scanCommitmentsForUserNotes totalLimit derive db).2 :=
  scan_keeps (fun _ _ _ hstep hdb => hdb.scanStep hstep) h

theorem Vetted.reconcile (limit : Nat) : Vetted derive (reconcileNullifiers limit db).2 := by
  obtain ⟨_, _, hframe⟩ := reconcile_frame limit db
  rw [hframe]
  exact ⟨h.bounded, h.passed⟩

theorem Vetted.processNotes (limit : Nat) :
    Vetted derive (processNotes limit derive db).2 := by
  have hkeeps : Keeps (Vetted derive) (Sdk.processNotes limit derive) :=
    Keeps.bind (fun _ hd => hd.scan limit) fun _ =>
      Keeps.bind (fun _ hd => hd.reconcile limit) fun _ => keeps_pure _
  exact hkeeps db h

end

theorem keeps_vetted : Keeps (fun d => Working codec chain derive d ∧ Vetted derive d ∧
    SameInputs db d) (processLocalStateBatch codec derive) := by
  rintro d ⟨hworking, hvetted, hsame⟩
  refine ⟨hworking.processes rfl, ?_, hsame.trans (batch_sameInputs codec derive d)⟩
  obtain ⟨batch, d₁, hbatch, hstored, heq⟩ := hworking.mirrored.processLocalStateBatch derive
  have hkeeps : Keeps (Vetted derive) (Sdk.processNotes processFetchLimit derive >>= fun didNotes =>
      pure (!batch.isEmpty || didNotes)) :=
    Keeps.bind (fun _ hd => hd.processNotes _) fun _ => keeps_pure _
  rw [heq]
  exact hkeeps d₁ (hvetted.stored hstored)

theorem Finishes.exists_last {I : Db → Prop} (h : Finishes codec derive db)
    (hkeeps : Keeps I (processLocalStateBatch codec derive)) (hI : I db) :
    ∃ last db', I last ∧ processLocalStateBatch codec derive last = (.ok false, db') := by
  induction h with
  | done h => exact ⟨_, _, hI, h⟩
  | @more db db' h _ ih =>
    apply ih
    have hnext := hkeeps db hI
    rwa [h] at hnext

end Vetted

end PrivatePayments.Sdk

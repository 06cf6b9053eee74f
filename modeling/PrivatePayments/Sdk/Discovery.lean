import PrivatePayments.Sdk.Encryption
import PrivatePayments.Sdk.Spent

/-! Which notes a wallet finds.  The scan keeps one position for an account in a pool
and stores at most one note for a commitment. -/
namespace PrivatePayments.Sdk
open Lib Relation List

section Accounts
variable {db : Db} {account other : AccountKeys}

def latestKeypair (db : Db) (accountId : Nat) : Option AccountKeys :=
  (db.keypairs.filter (·.accountId == accountId)).getLast?

theorem latestKeypair_accountId {accountId : Nat} (h : latestKeypair db accountId = some account) :
    account.accountId = accountId := by
  have hmem := (mem_filter.mp (mem_of_mem_getLast? h)).2
  simpa using hmem

theorem mem_accounts : account ∈ getAccountsWithLatestKeypairs db ↔
    0 < account.accountId ∧ account.accountId ≤ db.accounts.rows.length ∧
      latestKeypair db account.accountId = some account := by
  unfold getAccountsWithLatestKeypairs
  rw [mem_filterMap]
  constructor
  · rintro ⟨i, hi, hlatest⟩
    have hid : account.accountId = i + 1 := latestKeypair_accountId hlatest
    rw [mem_range] at hi
    refine ⟨by omega, by omega, ?_⟩
    rw [hid]
    exact hlatest
  · rintro ⟨hpos, hle, hlatest⟩
    refine ⟨account.accountId - 1, mem_range.mpr (by omega), ?_⟩
    rw [Nat.sub_add_cancel hpos]
    exact hlatest

theorem account_inj (h : account ∈ getAccountsWithLatestKeypairs db)
    (h' : other ∈ getAccountsWithLatestKeypairs db) (hid : account.accountId = other.accountId) :
    account = other := by
  have hlatest := (mem_accounts.mp h).2.2
  rw [hid, (mem_accounts.mp h').2.2] at hlatest
  exact (Option.some.inj hlatest).symm

variable {address : String} {noteKeypair : NoteKeyPair} {encryptionKeypair : EncryptionKeyPair}
  {membershipBlinding : F}

def accountIdOf (db : Db) (address : String) : Nat := db.accounts.rows.idxOf address + 1

theorem mem_accounts_saveKeypairs :
    account ∈ getAccountsWithLatestKeypairs
        (Call.run (.saveKeypairs address noteKeypair encryptionKeypair membershipBlinding) db) ↔
      account = ⟨accountIdOf db address, noteKeypair, encryptionKeypair, membershipBlinding⟩ ∨
        account.accountId ≠ accountIdOf db address ∧ account ∈ getAccountsWithLatestKeypairs db := by
  have hlatest (id : Nat) : latestKeypair
      (Call.run (.saveKeypairs address noteKeypair encryptionKeypair membershipBlinding) db) id =
      if id = accountIdOf db address then
        some ⟨accountIdOf db address, noteKeypair, encryptionKeypair, membershipBlinding⟩
      else latestKeypair db id := by
    change ((db.keypairs ++ [_]).filter _).getLast? = _
    rw [filter_append]
    split
    · rename_i hid
      simp [hid, accountIdOf]
    · rename_i hid
      have hne : accountIdOf db address ≠ id := fun h => hid h.symm
      simp [latestKeypair, accountIdOf] at hne ⊢
      simp [hne]
  have hrows : (Call.run (.saveKeypairs address noteKeypair encryptionKeypair membershipBlinding)
      db).accounts.rows = (db.accounts.insertOrIgnore address).rows := rfl
  have hlength := (db.accounts.prefix_insertOrIgnore address).length_le
  have hnew := (List.getElem?_eq_some_iff.mp (db.accounts.getElem?_insertOrIgnore address)).1
  rw [mem_accounts, mem_accounts, hlatest, hrows]
  constructor
  · rintro ⟨hpos, hle, hkeys⟩
    split at hkeys
    · exact .inl (Option.some.inj hkeys).symm
    · rename_i hid
      refine .inr ⟨hid, hpos, ?_, hkeys⟩
      rcases db.accounts.insertOrIgnore_cases address with ⟨hsame, -⟩ | ⟨hfresh, happend⟩
      · rwa [hsame] at hle
      · have habsent : address ∉ db.accounts.rows := fun hmem => hfresh address hmem rfl
        rw [accountIdOf, idxOf_eq_length habsent] at hid
        rw [happend, length_append, length_singleton] at hle
        omega
  · rintro (rfl | ⟨hid, hpos, hle, hkeys⟩)
    · exact ⟨Nat.succ_pos _, hnew, if_pos rfl⟩
    · exact ⟨hpos, hle.trans hlength, (if_neg hid).trans hkeys⟩

end Accounts

def HasNote (db : Db) (account : AccountKeys) (row : PoolCommitment) : Prop :=
  ∃ note ∈ db.userNotes.rows, note.accountId = account.accountId ∧ note.commitmentId = row.id

/-- No commitment opens for two accounts, and no two commitments of a pool that open
have one nullifier. -/
def Exclusive (derive : DeriveNote) (db : Db) : Prop :=
  ∀ account ∈ getAccountsWithLatestKeypairs db, ∀ other ∈ getAccountsWithLatestKeypairs db,
    ∀ row ∈ db.poolCommitments.rows, ∀ row' ∈ db.poolCommitments.rows, ∀ derived derived',
      derive account row = .ok (some derived) → derive other row' = .ok (some derived') →
        (row = row' ∨ db.contractOf row.eventId = db.contractOf row'.eventId ∧
          derived.expectedNullifier = derived'.expectedNullifier) → account = other ∧ row = row'

structure OpenedBy (derive : DeriveNote) (note : UserNote) (account : AccountKeys)
    (row : PoolCommitment) (derived : DerivedUserNote) : Prop where
  opens : derive account row = .ok (some derived)
  accountId : note.accountId = account.accountId
  commitmentId : note.commitmentId = row.id
  id : note.id = row.commitment
  expectedNullifier : note.expectedNullifier = derived.expectedNullifier
  amount : note.amount = derived.amount
  blinding : note.blinding = derived.blinding

variable {account : AccountKeys} {derive : DeriveNote}

theorem OpenedBy.becomes {note note' : UserNote}
    {row : PoolCommitment} {derived : DerivedUserNote} (h : OpenedBy derive note account row derived)
    (hbecomes : note.Becomes note') : OpenedBy derive note' account row derived := by
  rcases hbecomes with rfl | ⟨-, _, rfl⟩
  · exact h
  · exact ⟨h.opens, h.accountId, h.commitmentId, h.id, h.expectedNullifier, h.amount, h.blinding⟩

def Derived (derive : DeriveNote) (db : Db) (note : UserNote) : Prop :=
  ∃ account ∈ getAccountsWithLatestKeypairs db, ∃ row ∈ db.poolCommitments.rows, ∃ derived,
    OpenedBy derive note account row derived ∧
      ∃ pool, db.contractOf row.eventId = some pool ∧ row.id ≤ position db pool account.accountId

structure Discovered (derive : DeriveNote) (db : Db) : Prop where
  tracked : Tracked db
  bounded : ∀ pool accountId, position db pool accountId ≤ db.poolCommitments.rows.length
  known : ∀ pool accountId, position db pool accountId ≠ 0 →
    ∃ account ∈ getAccountsWithLatestKeypairs db, account.accountId = accountId
  found : ∀ account ∈ getAccountsWithLatestKeypairs db, ∀ row ∈ db.poolCommitments.rows,
    ∀ pool, db.contractOf row.eventId = some pool → row.id ≤ position db pool account.accountId →
      ∀ derived, derive account row = .ok (some derived) → HasNote db account row
  origin : ∀ note ∈ db.userNotes.rows, Derived derive db note

section
variable {derive : DeriveNote} {db db' : Db}

theorem discovered_fresh (derive : DeriveNote) : Discovered derive Db.fresh where
  tracked := tracked_fresh
  bounded _ _ := Nat.zero_le _
  known pool accountId h := absurd rfl h
  found account haccount := by
    rw [mem_accounts] at haccount
    simp [Db.fresh] at haccount
    omega
  origin := by simp [Db.fresh]

section
variable (h : Discovered derive db) (htracked : Tracked db') (hgrows : Grows db db')
  (hkeys : getAccountsWithLatestKeypairs db' = getAccountsWithLatestKeypairs db)
  (hscan : db'.accountCommitmentScan = db.accountCommitmentScan)
  (hnew : ∀ row ∈ db'.poolCommitments.rows, row ∈ db.poolCommitments.rows ∨
    db.poolCommitments.rows.length < row.id)
include h htracked hgrows hkeys hscan hnew

theorem Discovered.grow
    (hnotes : ∀ note' ∈ db'.userNotes.rows, ∃ note ∈ db.userNotes.rows, note.Becomes note')
    (hkept : ∀ note ∈ db.userNotes.rows, ∃ note' ∈ db'.userNotes.rows, note.Becomes note') :
    Discovered derive db' := by
  have hposition : position db' = position db := by
    unfold position
    rw [hscan]
  refine ⟨htracked, ?_, ?_, ?_, ?_⟩
  · intro pool accountId
    rw [hposition]
    exact (h.bounded pool accountId).trans hgrows.commitments.length_le
  · intro pool accountId
    rw [hposition, hkeys]
    exact h.known pool accountId
  · intro account haccount row hrow pool hcontract hle derived hderive
    rw [hposition] at hle
    rw [hkeys] at haccount
    rcases hnew row hrow with hold | hlater
    · rw [hgrows.contractOf (h.tracked.linked.commitment row hold)] at hcontract
      obtain ⟨note, hnote, haccountId, hcommitmentId⟩ :=
        h.found account haccount row hold pool hcontract hle derived hderive
      obtain ⟨note', hnote', hbecomes⟩ := hkept note hnote
      exact ⟨note', hnote', hbecomes.same.1.symm.trans haccountId, hbecomes.same.2.symm.trans hcommitmentId⟩
    · exact absurd (hlater.trans_le hle) (not_lt.mpr (h.bounded pool account.accountId))
  · intro note' hnote'
    obtain ⟨note, hnote, hbecomes⟩ := hnotes note' hnote'
    obtain ⟨account, haccount, row, hrow, derived, hopened, pool, hpool, hle⟩ := h.origin note hnote
    refine ⟨account, hkeys ▸ haccount, row, hgrows.commitments.subset hrow, derived, hopened.becomes hbecomes, pool,
      ?_, ?_⟩
    · rw [hgrows.contractOf (h.tracked.linked.commitment row hrow), hpool]
    · rwa [hposition]

theorem Discovered.grow_same (hnotes : db'.userNotes = db.userNotes) : Discovered derive db' := by
  refine h.grow htracked hgrows hkeys hscan hnew ?_ ?_ <;>
    exact fun note hnote => ⟨note, hnotes ▸ hnote, .inl rfl⟩

end

theorem Discovered.saveCommitmentEvent (h : Discovered derive db) {event : NewCommitmentEvent}
    (hsave : saveCommitmentEvent db event = .ok db') : Discovered derive db' := by
  have hgrows := saveCommitmentEvent_grows hsave
  have htracked := h.tracked.saveCommitmentEvent hsave
  rcases saveCommitmentEvent_ok hsave with rfl | ⟨-, t, hrows, rfl⟩
  · exact h
  · refine h.grow_same htracked hgrows rfl rfl ?_ rfl
    exact mem_or_of_append hrows (Nat.lt_succ_self _)

theorem Discovered.reconcileStep {limit : Nat} (h : Discovered derive db)
    (hstep : ReconcileStep limit db db') : Discovered derive db' := by
  have htracked := h.tracked.reconcileStep hstep
  have hgrows := hstep.grows
  have hnotes := hstep.origin
  have hkept := hstep.kept
  obtain ⟨_, _, rfl⟩ := hstep.frame
  exact h.grow htracked hgrows rfl rfl (fun _ => .inl) hnotes hkept

variable {pool : Nat}

theorem Exclusive.same_note (hexclusive : Exclusive derive db)
    {account other : AccountKeys} {row row' : PoolCommitment} {derived derived' : DerivedUserNote}
    {note : UserNote} (haccount : account ∈ getAccountsWithLatestKeypairs db)
    (hrow : row ∈ db.poolCommitments.rows) (hpool : db.contractOf row.eventId = some pool)
    (hderive : derive account row = .ok (some derived))
    (hother : other ∈ getAccountsWithLatestKeypairs db) (hrow' : row' ∈ db.poolCommitments.rows)
    (hopened : OpenedBy derive note other row' derived')
    (hspent : ∀ id, note.nullifierId = some id → ∃ spender ∈ db.poolNullifiers.rows,
      spender.id = id ∧ spender.nullifier = note.expectedNullifier ∧
        db.contractOf spender.eventId = db.contractOf row'.eventId)
    (hconflict : UserNote.conflict note (userNote db pool account row derived)) :
    note.accountId = account.accountId ∧ note.commitmentId = row.id := by
  have hsame : row' = row ∨ db.contractOf row'.eventId = db.contractOf row.eventId ∧
      derived'.expectedNullifier = derived.expectedNullifier := by
    rcases hconflict with hid | hcommitment | ⟨hsome, hnullifier⟩
    · exact .inl (db.poolCommitments.eq_of_conflict (fun _ _ => Or.imp Eq.symm Eq.symm) hrow' hrow
        (.inl (hopened.id.symm.trans hid)))
    · exact .inl (db.poolCommitments.rowid_inj hrow' hrow
        (hopened.commitmentId.symm.trans hcommitment))
    · right
      obtain ⟨id, hid⟩ := Option.isSome_iff_exists.mp hsome
      obtain ⟨spender, hspender, hspenderId, hnull, hcontract⟩ := hspent id hid
      rcases spentBy_cases db pool derived.expectedNullifier with
        ⟨spender', hspender', hnull', hcontract', hspentBy⟩ | ⟨hnone, -⟩
      · have hids : some spender.id = some spender'.id := by
          rw [hspenderId, ← hid, hnullifier]
          exact hspentBy
        obtain rfl := db.poolNullifiers.rowid_inj hspender hspender' (Option.some.inj hids)
        rw [hpool, ← hcontract', hcontract]
        exact ⟨rfl, hopened.expectedNullifier.symm.trans (hnull.symm.trans hnull')⟩
      · rw [hid] at hnullifier
        exact absurd (hnullifier.trans hnone) (by simp)
  obtain ⟨rfl, rfl⟩ := hexclusive other hother account haccount row' hrow' row hrow derived' derived
    hopened.opens hderive hsame
  exact ⟨hopened.accountId, hopened.commitmentId⟩

section
variable (h : Discovered derive db)
include h

theorem Discovered.opened
    (htracked : Tracked (openScan pool db account)) : Discovered derive (openScan pool db account) where
  tracked := htracked
  bounded pool' accountId := by
    rw [position_openScan]
    exact h.bounded pool' accountId
  known pool' accountId := by
    rw [position_openScan]
    exact h.known pool' accountId
  found other hother row hrow pool' hcontract hle := by
    rw [position_openScan] at hle
    exact h.found other hother row hrow pool' hcontract hle
  origin note hnote := by
    obtain ⟨other, hother, row, hrow, derived, hopened, pool', hpool, hle⟩ := h.origin note hnote
    refine ⟨other, hother, row, hrow, derived, hopened, pool', hpool, ?_⟩
    rwa [position_openScan]

theorem Discovered.scanned (hexclusive : Exclusive derive db)
    {pool quota count : Nat} (haccount : account ∈ getAccountsWithLatestKeypairs db)
    (hscan : scanAccount derive pool quota account db = .ok (count, db')) (htracked : Tracked db') :
    Discovered derive db' := by
  have hadvance := (ScanStep.scanned haccount hscan).position_le
  obtain ⟨-, -, userNotes, hrows, rfl⟩ := scanAccount_ok hscan
  set next := nextCommitments db pool quota account with hnext
  set mark := highest PoolCommitment.id (position db pool account.accountId) next with hmark
  set db' : Db := { db with
    userNotes, accountCommitmentScan := setScan db.accountCommitmentScan pool account.accountId mark }
    with hdb'
  have hposition := position_setScan db userNotes pool account.accountId mark
  have horigin : ∀ note ∈ userNotes.rows, Derived derive db' note := by
    intro note hnote
    rcases mem_scanRows hrows note hnote with hold | ⟨row, hrow, derived, hderive, rfl⟩
    · obtain ⟨other, hother, row, hrow, derived, hopened, pool', hpool, hle⟩ := h.origin note hold
      exact ⟨other, hother, row, hrow, derived, hopened, pool', hpool, hle.trans (hadvance pool' other.accountId)⟩
    · obtain ⟨hmem, hselect, -⟩ := mem_of_mem_page hrow
      refine ⟨account, haccount, row, hmem, derived, ⟨hderive, rfl, rfl, rfl, rfl, rfl, rfl⟩, pool, beq_iff_eq.mp hselect, ?_⟩
      rw [hposition, if_pos ⟨rfl, rfl⟩]
      exact key_le_highest hrow
  refine ⟨htracked, ?_, ?_, ?_, horigin⟩
  · intro pool' accountId
    rw [hposition]
    split
    · rcases highest_cases (position db pool account.accountId) next with hlast | ⟨row, hrow, hid⟩
      · exact hlast.trans_le (h.bounded pool account.accountId)
      · exact hid.trans_le (db.poolCommitments.rowid_le (mem_of_mem_page hrow).1).2
    · exact h.bounded pool' accountId
  · intro pool' accountId hne
    rw [hposition] at hne
    split at hne
    · rename_i hsame
      exact ⟨account, haccount, hsame.2.symm⟩
    · exact h.known pool' accountId hne
  · intro other hother row hrow pool' hcontract hle derived hderive
    rw [hposition] at hle
    have hkept : row.id ≤ position db pool' other.accountId → HasNote db' other row := by
      intro hbefore
      obtain ⟨note, hnote, hids⟩ := h.found other hother row hrow pool' hcontract hbefore derived hderive
      exact ⟨note, (scanRows_isPrefix hrows).subset hnote, hids⟩
    split at hle
    · rename_i hsame
      obtain ⟨rfl, hid⟩ := hsame
      obtain rfl := account_inj hother haccount hid
      have hselect : inPool db pool' row = true := beq_iff_eq.mpr hcontract
      rcases mem_page_of_le db.poolCommitments.sorted hrow hselect hle with hbefore | hpage
      · exact hkept hbefore
      · obtain ⟨note, hnote, hconflict⟩ := scanRows_stored hrows row hpage derived hderive
        obtain ⟨owner, howner, row', hrow', derived', hopened, -⟩ := horigin note hnote
        refine ⟨note, hnote, hexclusive.same_note haccount hrow hcontract hderive howner hrow' hopened ?_ hconflict⟩
        intro id hid
        obtain ⟨spender, hspender, hspenderId, hnull, pool'', hspenderPool, hnotePool⟩ :=
          htracked.spent note hnote id hid
        refine ⟨spender, hspender, hspenderId, hnull, hspenderPool.trans (hnotePool.symm.trans ?_)⟩
        rw [notePool, hopened.commitmentId]
        exact congrArg (Option.bind · _) (commitment?_of_mem hrow')
    · exact hkept hle

theorem Discovered.scan (hexclusive : Exclusive derive db)
    (totalLimit : Nat) : Discovered derive (Call.run (.scan totalLimit derive) db) := by
  apply scan_keeps _ h
  intro userNotes accountCommitmentScan db' hstep hdb
  have htracked := hdb.tracked.scanStep hstep (hdb.tracked.linked.scanStep hstep fun _ => getElem?_account)
  cases hstep with
  | opened hmem => exact hdb.opened htracked
  | scanned hmem hscan => exact hdb.scanned hexclusive hmem hscan htracked

end

/-- The notes depend on the keys, not on the membership blinding. -/
def KeysOnly (derive : DeriveNote) : Prop :=
  ∀ account other row, account.noteKeypair = other.noteKeypair →
    account.encryptionKeypair = other.encryptionKeypair → derive account row = derive other row

/-- The keys that an account already has, or an account for which nothing was scanned. -/
def SafeKeys (db : Db) (address : String) (noteKeypair : NoteKeyPair)
    (encryptionKeypair : EncryptionKeyPair) : Prop :=
  ∀ account ∈ getAccountsWithLatestKeypairs db, account.accountId = accountIdOf db address →
    (account.noteKeypair = noteKeypair ∧ account.encryptionKeypair = encryptionKeypair) ∨
      ∀ pool, position db pool account.accountId = 0

theorem Discovered.saveKeypairs (h : Discovered derive db) (hkeysOnly : KeysOnly derive)
    {address : String} {noteKeypair : NoteKeyPair} {encryptionKeypair : EncryptionKeyPair}
    (hsafe : SafeKeys db address noteKeypair encryptionKeypair) (membershipBlinding : F) :
    Discovered derive (Call.run (.saveKeypairs address noteKeypair encryptionKeypair membershipBlinding) db) := by
  set call : Call := .saveKeypairs address noteKeypair encryptionKeypair membershipBlinding with hcall
  -- Either nothing was scanned for the account, or the new keys open what the old ones did.
  have hbefore : ∀ pool, position db pool (accountIdOf db address) ≠ 0 →
      ∃ account ∈ getAccountsWithLatestKeypairs db, account.accountId = accountIdOf db address ∧
        account.noteKeypair = noteKeypair ∧ account.encryptionKeypair = encryptionKeypair := by
    intro pool hne
    obtain ⟨account, haccount, hid⟩ := h.known pool _ hne
    rcases hsafe account haccount hid with hkeys | hzero
    · exact ⟨account, haccount, hid, hkeys⟩
    · exact absurd (hid ▸ hzero pool) hne
  have hnew : (⟨accountIdOf db address, noteKeypair, encryptionKeypair, membershipBlinding⟩ :
      AccountKeys) ∈ getAccountsWithLatestKeypairs (call.run db) :=
    mem_accounts_saveKeypairs.mpr (.inl rfl)
  refine ⟨h.tracked.run call, h.bounded, ?_, ?_, ?_⟩
  · intro pool accountId hne
    by_cases hid : accountId = accountIdOf db address
    · exact ⟨_, hnew, hid.symm⟩
    · obtain ⟨account, haccount, haccountId⟩ := h.known pool accountId hne
      exact ⟨account, mem_accounts_saveKeypairs.mpr (.inr ⟨haccountId ▸ hid, haccount⟩), haccountId⟩
  · intro account haccount row hrow pool hcontract hle derived hderive
    have hle : row.id ≤ position db pool account.accountId := hle
    rcases mem_accounts_saveKeypairs.mp haccount with rfl | ⟨-, hold⟩
    · have hpos := (db.poolCommitments.rowid_le hrow).1
      obtain ⟨old, hold, hid, hnote, hencryption⟩ := hbefore pool (by
        dsimp only at hle
        omega)
      rw [← hkeysOnly old _ row hnote hencryption] at hderive
      obtain ⟨note, hnote, haccountId, hcommitmentId⟩ :=
        h.found old hold row hrow pool hcontract (hid ▸ hle) derived hderive
      exact ⟨note, hnote, haccountId.trans hid, hcommitmentId⟩
    · exact h.found account hold row hrow pool hcontract hle derived hderive
  · intro note hnote
    obtain ⟨account, haccount, row, hrow, derived, hopened, pool, hpool, hle⟩ := h.origin note hnote
    by_cases hid : account.accountId = accountIdOf db address
    · have hpos := (db.poolCommitments.rowid_le hrow).1
      obtain ⟨old, hold, hid', hnote, hencryption⟩ := hbefore pool (by
        rw [← hid]
        omega)
      obtain rfl := account_inj haccount hold (hid.trans hid'.symm)
      refine ⟨_, hnew, row, hrow, derived, ⟨?_, hopened.accountId.trans hid, hopened.commitmentId,
        hopened.id, hopened.expectedNullifier, hopened.amount, hopened.blinding⟩, pool, hpool, hid ▸ hle⟩
      rw [← hopened.opens]
      exact (hkeysOnly account _ row hnote hencryption).symm
    · exact ⟨account, mem_accounts_saveKeypairs.mpr (.inr ⟨hid, haccount⟩), row, hrow, derived,
        hopened, pool, hpool, hle⟩

/-- What a call must respect for no note to be missed. -/
def Orderly (derive : DeriveNote) (call : Call) (db : Db) : Prop :=
  match call with
  | .saveKeypairs address noteKeypair encryptionKeypair _ =>
      SafeKeys db address noteKeypair encryptionKeypair
  | .scan _ derive' => derive' = derive ∧ Exclusive derive db
  | _ => True

inductive OrderlyRun (derive : DeriveNote) : Db → Prop where
  | start : OrderlyRun derive .fresh
  | call {db : Db} (before : OrderlyRun derive db) (call : Call) (horderly : Orderly derive call db) :
      OrderlyRun derive (call.run db)

theorem OrderlyRun.discovered (hkeysOnly : KeysOnly derive) (h : OrderlyRun derive db) : Discovered derive db := by
  induction h with
  | start => exact discovered_fresh derive
  | @call db before call horderly ih =>
    cases call with
    | saveEvents events =>
      apply saveEventsBatch_keeps _ ih
      intro db event _ hdb
      have htracked : Tracked (saveEvent db event) := hdb.tracked.run (.saveEvents [event])
      exact hdb.grow_same htracked (saveEvent_grows db event) rfl rfl (fun _ => .inl) rfl
    | saveKeypairs => exact ih.saveKeypairs hkeysOnly horderly _
    | saveCommitments events =>
      exact saveBatch_keeps (fun _ _ _ _ hsave hdb => hdb.saveCommitmentEvent hsave) ih
    | saveNullifiers events =>
      apply saveBatch_keeps _ ih
      intro db event db' _ hsave hdb
      have htracked := hdb.tracked.saveNullifierEvent hsave
      have hgrows := saveNullifierEvent_grows hsave
      rcases saveNullifierEvent_ok hsave with rfl | ⟨-, t, -, rfl⟩
      · exact hdb
      · exact hdb.grow_same htracked hgrows rfl rfl (fun _ => .inl) rfl
    | scan totalLimit derive' =>
      obtain ⟨rfl, hexclusive⟩ := horderly
      exact ih.scan hexclusive totalLimit
    | reconcile limit => exact reconcile_keeps (fun _ _ hstep hdb => hdb.reconcileStep hstep) ih

theorem keysOnly_deriveUserNote (P : Permutation) (cipher : Cipher) : KeysOnly (deriveUserNote P cipher) := by
  intro account other row hnote hencryption
  rw [deriveUserNote, deriveUserNote, hnote, hencryption]

/-- After a scan that reports no progress every account has a note for every commitment
that its keys open. -/
theorem discovery_complete {P : Permutation} {cipher : Cipher} {totalLimit : Nat}
    (hrun : OrderlyRun (deriveUserNote P cipher) db)
    (horderly : Orderly (deriveUserNote P cipher) (.scan totalLimit (deriveUserNote P cipher)) db)
    (hlimit : 0 < totalLimit)
    (hfalse : (scanCommitmentsForUserNotes totalLimit (deriveUserNote P cipher) db).1 = .ok false)
    (hafter : (scanCommitmentsForUserNotes totalLimit (deriveUserNote P cipher) db).2 = db') :
    ∀ account ∈ getAccountsWithLatestKeypairs db', ∀ row ∈ db'.poolCommitments.rows,
      ∀ amount blinding,
        decryptOutputNote cipher account.encryptionKeypair.privateKey row.encryptedOutput =
          .ok (some (amount, blinding)) →
        amount ≠ 0 →
        hash3 P (amount : F) (fromLeBytesModOrder account.noteKeypair.publicKey.1) blinding 1 =
          row.commitment →
        ∃ note ∈ db'.userNotes.rows, note.accountId = account.accountId ∧ note.commitmentId = row.id := by
  intro account haccount row hrow amount blinding hdecrypt hamount hcommitment
  have hdiscovered := (OrderlyRun.call hrun _ horderly).discovered (keysOnly_deriveUserNote P cipher)
  have hscanned := scan_false hlimit hfalse
  have haccounts : getAccountsWithLatestKeypairs db' = getAccountsWithLatestKeypairs db := by
    rw [← hafter]
    apply scan_keeps (I := fun db₁ =>
      getAccountsWithLatestKeypairs db₁ = getAccountsWithLatestKeypairs db) _ rfl
    intro _ _ db₁ hstep hsame
    obtain ⟨_, _, rfl⟩ := hstep.frame
    exact hsame
  change Discovered _ (scanCommitmentsForUserNotes totalLimit (deriveUserNote P cipher) db).2
    at hdiscovered
  rw [hafter] at hdiscovered hscanned
  obtain ⟨pool, hpool⟩ := exists_contractOf (hdiscovered.tracked.linked.commitment row hrow)
  exact hdiscovered.found account haccount row hrow pool hpool
    (hscanned account (haccounts ▸ haccount) row hrow pool hpool) _
    (deriveUserNote_eq_some hdecrypt hamount hcommitment)

end

/-! One commitment to a note of amount one, which only the zero key opens. -/

def notePermutation : Permutation := tablePermutation [(.hash3 1 0 0 1, 77)]

def sampleCipher : Cipher := fun privateKey _ _ _ =>
  if privateKey = List.replicate 32 0 then some (1 :: List.replicate 47 0) else none

def otherKey : Key := ⟨List.replicate 32 1, by rfl⟩

abbrev sampleNotes : DeriveNote := deriveUserNote notePermutation sampleCipher

def saveKey (address : String) (key : Key) : Call := .saveKeypairs address ⟨key, key⟩ ⟨key, key⟩ 0

def sampleArrival : List Call :=
  [.saveEvents [⟨"1", 1, "pool", [], []⟩], .saveCommitments [⟨"1", 77, 0, List.replicate 120 0⟩]]

def afterCalls (calls : List Call) : Db := calls.foldl (fun db call => call.run db) .fresh

theorem exclusive_single {db : Db} (account : AccountKeys)
    (row : PoolCommitment) (haccounts : getAccountsWithLatestKeypairs db = [account])
    (hrows : db.poolCommitments.rows = [row]) : Exclusive derive db := by
  intro a ha b hb r hr r' hr' _ _ _ _ _
  rw [haccounts, mem_singleton] at ha hb
  rw [hrows, mem_singleton] at hr hr'
  exact ⟨ha.trans hb.symm, hr.trans hr'.symm⟩

def sampleAccount : AccountKeys := ⟨1, ⟨sampleKey, sampleKey⟩, ⟨sampleKey, sampleKey⟩, 0⟩

def sampleRow : PoolCommitment := ⟨1, 77, 0, List.replicate 120 0, "1"⟩

def sampleArrived : Db := afterCalls (saveKey "owner" sampleKey :: sampleArrival)

def sampleScanned : Db := Call.run (.scan 50 sampleNotes) sampleArrived

def sampleRescanned : Db := (scanCommitmentsForUserNotes 50 sampleNotes sampleScanned).2

theorem discovery_complete_sample :
    ∃ note ∈ sampleRescanned.userNotes.rows,
      note.accountId = sampleAccount.accountId ∧ note.commitmentId = sampleRow.id := by
  have hempty : SafeKeys Db.fresh "owner" ⟨sampleKey, sampleKey⟩ ⟨sampleKey, sampleKey⟩ := by
    intro account haccount
    cases haccount
  have harrived : OrderlyRun sampleNotes sampleArrived :=
    .call (.call (.call .start (saveKey "owner" sampleKey) hempty) (.saveEvents _) trivial)
      (.saveCommitments _) trivial
  have hfirst : Exclusive sampleNotes sampleArrived :=
    exclusive_single sampleAccount sampleRow (by decide +kernel) (by decide +kernel)
  have hsecond : Exclusive sampleNotes sampleScanned :=
    exclusive_single sampleAccount sampleRow (by decide +kernel) (by decide +kernel)
  have hscanned : OrderlyRun sampleNotes sampleScanned :=
    .call harrived (.scan 50 sampleNotes) ⟨rfl, hfirst⟩
  have hfalse : (scanCommitmentsForUserNotes 50 sampleNotes sampleScanned).1 = .ok false := by
    decide +kernel
  have hafter : (scanCommitmentsForUserNotes 50 sampleNotes sampleScanned).2 = sampleRescanned := rfl
  exact discovery_complete hscanned ⟨rfl, hsecond⟩ (by omega) hfalse hafter sampleAccount
    (by decide +kernel) sampleRow (by decide +kernel) 1 0 (by decide +kernel) one_ne_zero
    (by decide +kernel)

abbrev Missed (calls : List Call) : Prop :=
  (scanCommitmentsForUserNotes 50 sampleNotes (afterCalls calls)).1 = .ok false ∧
    ∃ account ∈ getAccountsWithLatestKeypairs (scanCommitmentsForUserNotes 50 sampleNotes (afterCalls calls)).2,
      ∃ row ∈ (scanCommitmentsForUserNotes 50 sampleNotes (afterCalls calls)).2.poolCommitments.rows,
        sampleNotes account row = .ok (some ⟨1, 0, 0⟩) ∧
        ∀ note ∈ (scanCommitmentsForUserNotes 50 sampleNotes (afterCalls calls)).2.userNotes.rows,
          ¬(note.accountId = account.accountId ∧ note.commitmentId = row.id)

/-- Notes are missed for keys that come after the scan, and for the second of two
accounts with the same keys. -/
theorem notes_missed :
    Missed (saveKey "owner" otherKey :: sampleArrival ++ [.scan 50 sampleNotes, saveKey "owner" sampleKey]) ∧
      Missed ([saveKey "first" sampleKey, saveKey "owner" sampleKey] ++ sampleArrival ++ [.scan 50 sampleNotes]) := by
  decide +kernel

end PrivatePayments.Sdk

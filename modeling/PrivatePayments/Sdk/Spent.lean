import PrivatePayments.Sdk.Wallet

/-! Which notes are marked as spent: a note looks for its nullifier when it is
stored, and reconciliation looks for the notes of the nullifiers behind its mark. -/
namespace PrivatePayments.Sdk
open Lib Relation List

def notePool (db : Db) (note : UserNote) : Option Nat :=
  (db.commitment? note.commitmentId).bind fun row => db.contractOf row.eventId

/-- The note's nullifier was published by the note's own pool. -/
def SeenSpent (db : Db) (note : UserNote) : Prop :=
  ∃ row ∈ db.poolNullifiers.rows, row.nullifier = note.expectedNullifier ∧
    ∃ pool, db.contractOf row.eventId = some pool ∧ notePool db note = some pool

/-- An unmarked note can only be spent by a nullifier behind the mark of its pool. -/
structure Tracked (db : Db) : Prop where
  linked : Linked db
  bounded : ∀ pool, reconciled db pool ≤ db.poolNullifiers.rows.length
  spent : ∀ note ∈ db.userNotes.rows, ∀ id, note.nullifierId = some id →
    ∃ row ∈ db.poolNullifiers.rows, row.id = id ∧ row.nullifier = note.expectedNullifier ∧
      ∃ pool, db.contractOf row.eventId = some pool ∧ notePool db note = some pool
  unspent : ∀ note ∈ db.userNotes.rows, note.nullifierId = none →
    ∀ row ∈ db.poolNullifiers.rows, row.nullifier = note.expectedNullifier →
      ∀ pool, db.contractOf row.eventId = some pool → notePool db note = some pool →
        reconciled db pool < row.id

section
variable {db db' : Db}

theorem Grows.notePool (h : Grows db db') (hlinked : Linked db) {note : UserNote}
    (hnote : note ∈ db.userNotes.rows) : notePool db' note = notePool db note := by
  obtain ⟨row, hrow, hid⟩ := hlinked.note note hnote
  unfold Sdk.notePool
  rw [← hid, commitment?_of_mem hrow, commitment?_of_mem (h.commitments.subset hrow)]
  exact h.contractOf (hlinked.commitment row hrow)

theorem tracked_fresh : Tracked Db.fresh where
  linked := linked_fresh
  bounded pool := Nat.zero_le _
  spent := by simp [Db.fresh]
  unspent := by simp [Db.fresh]

theorem Tracked.grow (h : Tracked db) (hlinked : Linked db') (hgrows : Grows db db')
    (hnotes : db'.userNotes = db.userNotes) (hstate : db'.nullifierScanState = db.nullifierScanState)
    (hnew : ∀ row ∈ db'.poolNullifiers.rows, row ∈ db.poolNullifiers.rows ∨
      db.poolNullifiers.rows.length < row.id) : Tracked db' where
  linked := hlinked
  bounded pool := by
    unfold reconciled
    rw [hstate]
    exact (h.bounded pool).trans hgrows.nullifiers.length_le
  spent note hnote id hid := by
    rw [hnotes] at hnote
    obtain ⟨row, hrow, hrowid, hnullifier, pool, hcontract, hpool⟩ := h.spent note hnote id hid
    refine ⟨row, hgrows.nullifiers.subset hrow, hrowid, hnullifier, pool, ?_, ?_⟩
    · rw [hgrows.contractOf (h.linked.nullifier row hrow), hcontract]
    · rw [hgrows.notePool h.linked hnote, hpool]
  unspent note hnote hnone row hrow hnullifier pool hcontract hpool := by
    rw [hnotes] at hnote
    unfold reconciled
    rw [hstate]
    rcases hnew row hrow with hold | hlater
    · rw [hgrows.contractOf (h.linked.nullifier row hold)] at hcontract
      rw [hgrows.notePool h.linked hnote] at hpool
      exact h.unspent note hnote hnone row hold hnullifier pool hcontract hpool
    · exact (h.bounded pool).trans_lt hlater

theorem Tracked.saveNullifierEvent (h : Tracked db) {event : NewNullifierEvent}
    (hsave : saveNullifierEvent db event = .ok db') : Tracked db' := by
  have hgrows := saveNullifierEvent_grows hsave
  have hlinked := h.linked.saveNullifierEvent hsave
  rcases saveNullifierEvent_ok hsave with rfl | ⟨-, t, hrows, rfl⟩
  · exact h
  · refine h.grow hlinked hgrows rfl rfl ?_
    exact mem_or_of_append hrows (Nat.lt_succ_self _)

theorem Tracked.saveCommitmentEvent (h : Tracked db) {event : NewCommitmentEvent}
    (hsave : saveCommitmentEvent db event = .ok db') : Tracked db' := by
  have hgrows := saveCommitmentEvent_grows hsave
  have hlinked := h.linked.saveCommitmentEvent hsave
  rcases saveCommitmentEvent_ok hsave with rfl | ⟨-, t, -, rfl⟩
  · exact h
  · exact h.grow hlinked hgrows rfl rfl fun _ => .inl

theorem spentBy_cases (db : Db) (pool : Nat) (nullifier : F) :
    (∃ row ∈ db.poolNullifiers.rows, row.nullifier = nullifier ∧
        db.contractOf row.eventId = some pool ∧ spentBy db pool nullifier = some row.id) ∨
      spentBy db pool nullifier = none ∧ ∀ row ∈ db.poolNullifiers.rows,
        row.nullifier = nullifier → db.contractOf row.eventId ≠ some pool := by
  unfold spentBy
  cases hfind : db.poolNullifiers.rows.find? fun row =>
      db.contractOf row.eventId == some pool && row.nullifier == nullifier with
  | some row =>
    have hrow := find?_some hfind
    rw [Bool.and_eq_true, beq_iff_eq, beq_iff_eq] at hrow
    exact .inl ⟨row, mem_of_find?_eq_some hfind, hrow.2, hrow.1, rfl⟩
  | none =>
    rw [find?_eq_none] at hfind
    refine .inr ⟨rfl, fun row hrow hnullifier hcontract => hfind row hrow ?_⟩
    rw [hcontract, hnullifier]
    simp

theorem notePool_userNote {pool : Nat} {row : PoolCommitment} (hrow : row ∈ db.poolCommitments.rows)
    (hpool : db.contractOf row.eventId = some pool) (account : AccountKeys)
    (derived : DerivedUserNote) : notePool db (userNote db pool account row derived) = some pool := by
  rw [notePool, userNote, commitment?_of_mem hrow, Option.bind_some, hpool]

theorem Tracked.scanStep {derive : DeriveNote} {accounts : List AccountKeys} (h : Tracked db)
    (hstep : ScanStep derive accounts db db') (hlinked : Linked db') : Tracked db' := by
  have hnotes := hstep.mem_notes
  obtain ⟨userNotes, accountCommitmentScan, rfl⟩ := hstep.frame
  refine ⟨hlinked, h.bounded, ?_, ?_⟩
  · intro note hnote id hid
    rcases hnotes note hnote with hold | ⟨pool, account, -, row, hrow, derived, hpool, -, rfl⟩
    · exact h.spent note hold id hid
    · rcases spentBy_cases db pool derived.expectedNullifier with
        ⟨spender, hspender, hnullifier, hcontract, hspentBy⟩ | ⟨hnone, -⟩
      · exact ⟨spender, hspender, Option.some.inj (hspentBy.symm.trans hid), hnullifier, pool,
          hcontract, notePool_userNote hrow hpool account derived⟩
      · rw [userNote, hnone] at hid
        cases hid
  · intro note hnote hnone spender hspender hnullifier pool' hcontract hnotePool
    rcases hnotes note hnote with hold | ⟨pool, account, -, row, hrow, derived, hpool, -, rfl⟩
    · exact h.unspent note hold hnone spender hspender hnullifier pool' hcontract hnotePool
    · obtain rfl : pool = pool' := Option.some.inj ((notePool_userNote hrow hpool account derived).symm.trans hnotePool)
      rcases spentBy_cases db pool derived.expectedNullifier with ⟨_, -, -, -, hsome⟩ | ⟨-, hno⟩
      · rw [userNote, hsome] at hnone
        cases hnone
      · exact absurd hcontract (hno spender hspender hnullifier)

theorem spends_iff {pool : Nat} {nullifier : PoolNullifier} {note : UserNote} :
    spends db pool nullifier note = true ↔ note.nullifierId = none ∧
      note.expectedNullifier = nullifier.nullifier ∧ notePool db note = some pool := by
  unfold spends notePool inPool
  cases db.commitment? note.commitmentId <;> simp [and_assoc]

theorem Tracked.reconcileStep {limit : Nat} (h : Tracked db) (hstep : ReconcileStep limit db db') : Tracked db' := by
  have hlinked := h.linked.reconcileStep hstep
  obtain ⟨pool, did, hpool⟩ := hstep
  obtain ⟨-, userNotes, hfold, rfl⟩ := reconcilePool_ok hpool
  refine ⟨hlinked, ?_, ?_, ?_⟩
  · intro pool'
    by_cases hsame : pool' = pool
    · subst hsame
      simp only [reconciled, Function.update_self, Option.getD_some]
      rcases highest_cases (reconciled db pool') (nextNullifiers db limit pool') with
        hlast | ⟨row, hrow, hrowid⟩
      · exact hlast.trans_le (h.bounded pool')
      · exact hrowid.trans_le (db.poolNullifiers.rowid_le (mem_of_mem_page hrow).1).2
    · simpa [reconciled, hsame] using h.bounded pool'
  · intro note' hnote' id hid
    rcases (markSpent_fold hfold hnote').1 with hold | ⟨note, hnote, row, hrow, hspends, rfl⟩
    · exact h.spent note' hold id hid
    · obtain ⟨hmem, hselect, -⟩ := mem_of_mem_page hrow
      obtain ⟨-, hexpected, hnotePool⟩ := spends_iff.mp hspends
      exact ⟨row, hmem, Option.some.inj hid, hexpected.symm, pool, beq_iff_eq.mp hselect, hnotePool⟩
  · intro note' hnote' hnone row hrow hnullifier pool' hcontract hnotePool
    obtain ⟨hfrom, hunspent⟩ := markSpent_fold hfold hnote'
    have hnotePool : notePool db note' = some pool' := hnotePool
    have hold : note' ∈ db.userNotes.rows := by
      rcases hfrom with hold | ⟨_, -, _, -, -, rfl⟩
      · exact hold
      · cases hnone
    have hbehind := h.unspent note' hold hnone row hrow hnullifier pool' hcontract hnotePool
    by_cases hsame : pool' = pool
    · subst hsame
      simp only [reconciled, Function.update_self, Option.getD_some]
      by_contra hle
      have hselect : (fun row : PoolNullifier => db.contractOf row.eventId == some pool') row = true :=
        beq_iff_eq.mpr hcontract
      rcases mem_page_of_le db.poolNullifiers.sorted hrow hselect (not_lt.mp hle) with hbefore | hpage
      · exact absurd hbehind (not_lt.mpr hbefore)
      · have hspends : spends db pool' row note' = true := spends_iff.mpr ⟨hnone, hnullifier.symm, hnotePool⟩
        rw [hunspent hnone row hpage] at hspends
        cases hspends
    · simpa [reconciled, hsame] using hbehind

theorem Tracked.run (h : Tracked db) (call : Call) : Tracked (call.run db) := by
  cases call with
  | saveEvents events =>
    apply saveEventsBatch_keeps _ h
    intro db event _ hdb
    exact hdb.grow (hdb.linked.saveEvent event) (saveEvent_grows db event) rfl rfl fun _ => .inl
  | saveKeypairs => exact h.grow (h.linked.run _) (saveKeypairs_grows db _ _ _ _) rfl rfl fun _ => .inl
  | saveCommitments events =>
    exact saveBatch_keeps (fun _ _ _ _ hsave hdb => hdb.saveCommitmentEvent hsave) h
  | saveNullifiers events =>
    exact saveBatch_keeps (fun _ _ _ _ hsave hdb => hdb.saveNullifierEvent hsave) h
  | scan totalLimit derive =>
    apply scan_keeps _ h
    intro _ _ db' hstep hdb
    exact hdb.scanStep hstep (hdb.linked.scanStep hstep fun _ => getElem?_account)
  | reconcile limit => exact reconcile_keeps (fun _ _ hstep hdb => hdb.reconcileStep hstep) h

/-- While no nullifier is saved, nothing comes up for reconciliation. -/
theorem Reconciled.grow (h : Reconciled db) (hlinked : Linked db) (hgrows : Grows db db')
    (hrows : db'.poolNullifiers.rows = db.poolNullifiers.rows)
    (hstate : db'.nullifierScanState = db.nullifierScanState) : Reconciled db' := by
  intro row hrow pool hcontract
  rw [hrows] at hrow
  rw [hgrows.contractOf (hlinked.nullifier row hrow)] at hcontract
  unfold reconciled
  rw [hstate]
  exact h row hrow pool hcontract

end

/-- Whether `reconcile_nullifiers` has returned false, with a limit of at least
`least`, since the last nullifier was saved. -/
def settledAfter (least : Nat) (call : Call) (settled : Bool) (db : Db) : Bool :=
  match call with
  | .reconcile limit =>
      settled || decide (least ≤ limit) &&
        match (reconcileNullifiers limit db).1 with
        | .ok false => true
        | _ => false
  | .saveNullifiers _ =>
      settled &&
        decide ((call.run db).poolNullifiers.rows.length = db.poolNullifiers.rows.length)
  | _ => settled

inductive Run (least : Nat) : Bool → Db → Prop where
  | start : Run least false .fresh
  | call {settled : Bool} {db : Db} (before : Run least settled db) (call : Call) :
      Run least (settledAfter least call settled db) (call.run db)

section
variable {db : Db} {settled : Bool}

theorem Run.tracked {least : Nat} (h : Run least settled db) : Tracked db := by
  induction h with
  | start => exact tracked_fresh
  | call _ call ih => exact ih.run call

theorem Grows.saveNullifiers (events : List NewNullifierEvent) (db : Db) :
    Grows db (Call.run (.saveNullifiers events) db) := by
  apply saveBatch_keeps (I := Grows db) _ (.refl db)
  intro db₁ event db₂ _ hsave hgrows
  exact hgrows.trans (saveNullifierEvent_grows hsave)

theorem Run.reconciled (h : Run 1 settled db) : settled = true → Reconciled db := by
  induction h with
  | start => simp
  | @call settled db before call ih =>
    intro hsettled
    have hlinked := before.tracked.linked
    cases call with
    | saveEvents events =>
      refine (saveEventsBatch_keeps (I := fun db => Linked db ∧ Reconciled db) ?_ ⟨hlinked, ih hsettled⟩).2
      intro db event _ hdb
      exact ⟨hdb.1.saveEvent event, hdb.2.grow hdb.1 (saveEvent_grows db event) rfl rfl⟩
    | saveKeypairs => exact (ih hsettled).grow hlinked (saveKeypairs_grows db _ _ _ _) rfl rfl
    | saveCommitments events =>
      refine (saveBatch_keeps (I := fun db => Linked db ∧ Reconciled db) ?_ ⟨hlinked, ih hsettled⟩).2
      intro db event db' _ hsave hdb
      refine ⟨hdb.1.saveCommitmentEvent hsave, ?_⟩
      have hgrows := saveCommitmentEvent_grows hsave
      rcases saveCommitmentEvent_ok hsave with rfl | ⟨-, t, -, rfl⟩
      · exact hdb.2
      · exact hdb.2.grow hdb.1 hgrows rfl rfl
    | saveNullifiers events =>
      rw [settledAfter, Bool.and_eq_true, decide_eq_true_eq] at hsettled
      have hgrows := Grows.saveNullifiers events db
      refine (ih hsettled.1).grow hlinked hgrows (hgrows.nullifiers.eq_of_length hsettled.2.symm).symm ?_
      apply saveBatch_keeps (I := fun db' => db'.nullifierScanState = db.nullifierScanState) _ rfl
      intro db₁ event db₂ _ hsave hsame
      rcases saveNullifierEvent_ok hsave with rfl | ⟨-, t, -, rfl⟩ <;> exact hsame
    | scan totalLimit derive =>
      apply scan_keeps _ (ih hsettled)
      intro _ _ db' hstep hdb
      obtain ⟨_, _, rfl⟩ := hstep.frame
      exact hdb
    | reconcile limit =>
      rw [settledAfter, Bool.or_eq_true, Bool.and_eq_true, decide_eq_true_eq] at hsettled
      rcases hsettled with hold | ⟨hlimit, hfalse⟩
      · exact reconcile_keeps (fun _ _ hstep hdb => hdb.step hstep) (ih hold)
      · apply reconcile_false hlimit
        split at hfalse
        · assumption
        · cases hfalse

theorem Tracked.exact (h : Tracked db) (hreconciled : Reconciled db) {note : UserNote}
    (hnote : note ∈ db.userNotes.rows) : note.nullifierId.isSome ↔ SeenSpent db note := by
  constructor
  · intro hsome
    obtain ⟨id, hid⟩ := Option.isSome_iff_exists.mp hsome
    obtain ⟨row, hrow, -, hspent⟩ := h.spent note hnote id hid
    exact ⟨row, hrow, hspent⟩
  · rintro ⟨row, hrow, hnullifier, pool, hcontract, hpool⟩
    by_contra hno
    have hnone : note.nullifierId = none := by simpa using hno
    have hbehind := h.unspent note hnote hnone row hrow hnullifier pool hcontract hpool
    exact absurd hbehind (not_lt.mpr (hreconciled row hrow pool hcontract))

def noteOwner (db : Db) (note : UserNote) : Option String := db.accounts.rows[note.accountId - 1]?

def notePoolAddress (db : Db) (note : UserNote) : Option String :=
  (notePool db note).bind db.address?

instance (db : Db) (note : UserNote) : Decidable (SeenSpent db note) :=
  decidable_of_iff (∃ row ∈ db.poolNullifiers.rows, row.nullifier = note.expectedNullifier ∧
    (db.contractOf row.eventId).isSome ∧ notePool db note = db.contractOf row.eventId) (by
      refine exists_congr fun row => and_congr_right fun _ => and_congr_right fun _ => ?_
      cases db.contractOf row.eventId <;> simp)

theorem listUnspent_perm (h : Linked db) (pool address : String) :
    ((listUnspentUserNotes db pool address).map (·.id)).Perm
      ((db.userNotes.rows.filter fun note => noteOwner db note = some address ∧
        notePoolAddress db note = some pool ∧ note.nullifierId = none).map (·.id)) := by
  unfold listUnspentUserNotes
  refine ((perm_insertionSort _ _).map _).trans (List.Perm.of_eq ?_)
  rw [map_filterMap, ← filterMap_eq_map, filterMap_filter]
  apply filterMap_congr
  intro note hnote
  obtain ⟨owner, howner⟩ := h.account note hnote
  obtain ⟨row, hrow, hid⟩ := h.note note hnote
  obtain ⟨event, hevent, hevent'⟩ := hasEvent_iff.mp (h.commitment row hrow)
  obtain ⟨poolAddress, hpool⟩ := h.contract event hevent
  have hcommitment : db.commitment? note.commitmentId = some row := hid ▸ commitment?_of_mem hrow
  have hfound : db.event? row.eventId = some event := hevent' ▸ event?_of_mem hevent
  have hnotePool : notePoolAddress db note = some poolAddress := by
    rw [notePoolAddress, notePool, hcommitment, Option.bind_some, Db.contractOf, hfound]
    exact hpool
  rw [hnotePool]
  simp only [noteOwner, howner, hcommitment, hfound, hpool, Option.bind_eq_bind, Option.bind_some]
  simp only [Option.some.injEq]
  split <;> rename_i hcond <;> simp [hcond]

/-- Once reconciliation has come to an end, exactly the notes whose nullifier their
own pool has published are marked, and exactly the others are listed. -/
theorem spent_status_exact (h : Run 1 true db) :
    (∀ note ∈ db.userNotes.rows, note.nullifierId.isSome ↔ SeenSpent db note) ∧
      ∀ pool address, ((listUnspentUserNotes db pool address).map (·.id)).Perm
        ((db.userNotes.rows.filter fun note => noteOwner db note = some address ∧
          notePoolAddress db note = some pool ∧ ¬SeenSpent db note).map (·.id)) := by
  have hexact : ∀ note ∈ db.userNotes.rows, note.nullifierId.isSome ↔ SeenSpent db note :=
    fun note hnote => h.tracked.exact (h.reconciled rfl) hnote
  refine ⟨hexact, fun pool address => ?_⟩
  have hfilter : (db.userNotes.rows.filter fun note => noteOwner db note = some address ∧
      notePoolAddress db note = some pool ∧ ¬SeenSpent db note) =
      db.userNotes.rows.filter fun note => noteOwner db note = some address ∧
        notePoolAddress db note = some pool ∧ note.nullifierId = none := by
    apply filter_congr
    intro note hnote
    simp [← hexact note hnote]
  rw [hfilter]
  exact listUnspent_perm h.tracked.linked pool address

end

def sampleKey : Key := ⟨List.replicate 32 0, by rfl⟩

def sampleEvents : List ContractEvent :=
  [⟨"1", 1, "pool", [], []⟩, ⟨"2", 1, "pool", [], []⟩, ⟨"3", 2, "pool", [], []⟩]

def sampleDerive : DeriveNote := fun _ row => .ok (some ⟨1, 0, row.commitment + 100⟩)

def sampleCalls : List Call :=
  [.saveKeypairs "owner" ⟨sampleKey, sampleKey⟩ ⟨sampleKey, sampleKey⟩ 0, .saveEvents sampleEvents,
    .saveCommitments [⟨"1", 5, 0, []⟩, ⟨"2", 6, 1, []⟩], .scan 50 sampleDerive,
    .saveNullifiers [⟨"3", 105⟩]]

def runAll (least : Nat) (calls : List Call) : Bool × Db :=
  calls.foldl (fun state call => (settledAfter least call state.1 state.2, call.run state.2))
    (false, .fresh)

theorem run_runAll (least : Nat) (calls : List Call) : Run least (runAll least calls).1 (runAll least calls).2 := by
  induction calls using List.reverseRecOn with
  | nil => exact .start
  | append_singleton calls call ih =>
    rw [runAll, foldl_append, foldl_cons, foldl_nil]
    exact .call ih call

theorem spent_status_exact_sample :
    ∃ db, db.userNotes.rows.map (·.nullifierId) = [some 1, none] ∧
      (∀ note ∈ db.userNotes.rows, note.nullifierId.isSome ↔ SeenSpent db note) ∧
      ((listUnspentUserNotes db "pool" "owner").map (·.id)).Perm
        ((db.userNotes.rows.filter fun note => noteOwner db note = some "owner" ∧
          notePoolAddress db note = some "pool" ∧ ¬SeenSpent db note).map (·.id)) := by
  have hrun := run_runAll 1 (sampleCalls ++ [.reconcile 50, .reconcile 50])
  have hsettled : (runAll 1 (sampleCalls ++ [.reconcile 50, .reconcile 50])).1 = true := by
    decide +kernel
  rw [hsettled] at hrun
  have hexact := spent_status_exact hrun
  exact ⟨_, by decide +kernel, hexact.1, hexact.2 "pool" "owner"⟩

/-- A call with limit zero returns false without having looked at anything. -/
theorem limit_zero_settles_nothing : ∃ db, Run 0 true db ∧
    (∃ note ∈ db.userNotes.rows, note.nullifierId = none ∧ SeenSpent db note) ∧
    (listUnspentUserNotes db "pool" "owner").map (·.id) = [5, 6] := by
  have hrun := run_runAll 0 (sampleCalls ++ [.reconcile 0])
  have hsettled : (runAll 0 (sampleCalls ++ [.reconcile 0])).1 = true := by decide +kernel
  rw [hsettled] at hrun
  exact ⟨_, hrun, by decide +kernel, by decide +kernel⟩

end PrivatePayments.Sdk

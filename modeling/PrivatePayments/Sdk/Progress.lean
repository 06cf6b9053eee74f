import Mathlib.Algebra.Order.BigOperators.Group.List
import PrivatePayments.Sdk.Discovery
import PrivatePayments.Sdk.Processor

/-! Scanning and reconciling get on: when they succeed, and what becomes less with
each call that reports progress. -/
namespace PrivatePayments.Sdk
open Lib Relation List Method Contracts

def Readable (derive : DeriveNote) (accounts : List AccountKeys) (db : Db) : Prop :=
  ∀ account ∈ accounts, ∀ row ∈ db.poolCommitments.rows,
    ∃ derived, derive account row = .ok derived

variable {derive : DeriveNote} {accounts : List AccountKeys} {db db' : Db}

section Scan
variable {pool quota : Nat} {account : AccountKeys}

theorem scanRows_total {rows : List PoolCommitment} (h : ∀ row ∈ rows, ∃ derived, derive account row = .ok derived)
    (notes : Table UserNote UserNote.conflict) :
    ∃ notes', scanRows derive db pool account rows notes = .ok notes' := by
  induction rows generalizing notes with
  | nil => exact ⟨notes, rfl⟩
  | cons row rest ih =>
    have hrest := fun r hr => h r (mem_cons_of_mem _ hr)
    obtain ⟨derived, hderive⟩ := h row mem_cons_self
    unfold scanRows
    rw [hderive]
    cases derived with
    | none => exact ih hrest notes
    | some derived => exact ih hrest _

theorem setScan_isSome {scan : Nat → Nat → Option Nat} {accountId accountId' position : Nat}
    (h : accountId' = accountId ∨ (scan pool accountId').isSome) :
    (setScan scan pool accountId position pool accountId').isSome := by
  by_cases hsame : accountId' = accountId
  · simp [hsame]
  · rw [setScan_other _ (.inr hsame)]
    exact h.resolve_left hsame

/-- The positions of a pool are there, and nothing fails to be derived. -/
structure ScanReady (derive : DeriveNote) (accounts : List AccountKeys) (pool : Nat) (db : Db) : Prop where
  readable : Readable derive accounts db
  opened : ∀ account ∈ accounts, (db.accountCommitmentScan pool account.accountId).isSome

theorem ScanReady.scanAccount (h : ScanReady derive accounts pool db) (haccount : account ∈ accounts)
    (quota : Nat) : ∃ scanned db', scanAccount derive pool quota account db = .ok (scanned, db') ∧
      ScanReady derive accounts pool db' := by
  obtain ⟨last, hlast⟩ := Option.isSome_iff_exists.mp (h.opened account haccount)
  have hnext : ∀ row ∈ nextCommitments db pool quota account,
      ∃ derived, derive account row = .ok derived :=
    fun row hrow => h.readable account haccount row (mem_of_mem_page hrow).1
  obtain ⟨userNotes, hrows⟩ := scanRows_total hnext db.userNotes
  obtain ⟨db', hscan⟩ := scanAccount_of_rows hlast hrows
  refine ⟨_, db', hscan, ?_⟩
  obtain ⟨-, -, _, -, rfl⟩ := scanAccount_ok hscan
  exact ⟨h.readable, fun other hother => setScan_isSome (.inr (h.opened other hother))⟩

variable {todo : List AccountKeys}

theorem ScanReady.scanCycle (hsub : ∀ account ∈ todo, account ∈ accounts)
    (h : ScanReady derive accounts pool db) (quota : Nat) (progressed : Bool) :
    ∃ quota' progressed' db', scanCycle derive pool todo quota progressed db =
      .ok (quota', progressed', db') ∧ ScanReady derive accounts pool db' := by
  induction todo generalizing quota progressed db with
  | nil => exact ⟨quota, progressed, db, rfl, h⟩
  | cons account rest ih =>
    unfold Sdk.scanCycle
    split
    · exact ⟨quota, progressed, db, rfl, h⟩
    · obtain ⟨scanned, db₁, hscan, h₁⟩ := h.scanAccount (hsub _ mem_cons_self) quota
      rw [hscan, ok_bind]
      exact ih (fun a ha => hsub a (mem_cons_of_mem _ ha)) h₁ _ _

theorem ScanReady.scanLoop (h : ScanReady derive accounts pool db) (rounds quota : Nat) (did : Bool) :
    ∃ did' db', scanLoop derive accounts pool rounds quota did db = .ok (did', db') ∧
      ScanReady derive accounts pool db' := by
  induction rounds generalizing quota did db with
  | zero => exact ⟨did, db, rfl, h⟩
  | succ rounds ih =>
    unfold Sdk.scanLoop
    split
    · exact ⟨did, db, rfl, h⟩
    · obtain ⟨quota₁, progressed, db₁, hcycle, h₁⟩ := h.scanCycle (fun _ ha => ha) quota false
      rw [hcycle, ok_bind]
      dsimp only
      split
      · exact ih h₁ quota₁ true
      · exact ⟨did, db₁, rfl, h₁⟩

theorem openScans_isSome {accountId : Nat}
    (h : (∃ account ∈ todo, accountId = account.accountId) ∨ (db.accountCommitmentScan pool accountId).isSome) :
    ((todo.foldl (openScan pool) db).accountCommitmentScan pool accountId).isSome := by
  induction todo generalizing db with
  | nil => simpa using h
  | cons first rest ih =>
    apply ih
    rcases h with ⟨account, hmem, hid⟩ | hold
    · rcases mem_cons.mp hmem with rfl | hrest
      · exact .inr (setScan_isSome (.inl hid))
      · exact .inl ⟨account, hrest, hid⟩
    · exact .inr (setScan_isSome (.inr hold))

theorem scanPools_total (h : Readable derive accounts db) (pools : List (Nat × Nat)) :
    ∃ did db', scanPools derive accounts pools db = (.ok did, db') := by
  induction pools generalizing db with
  | nil => exact ⟨false, db, rfl⟩
  | cons entry rest ih =>
    obtain ⟨pool, quota⟩ := entry
    unfold scanPools
    split
    · exact ih h
    · have hready : ScanReady derive accounts pool (accounts.foldl (openScan pool) db) := by
        refine ⟨?_, fun account haccount => openScans_isSome (.inl ⟨account, haccount, rfl⟩)⟩
        obtain ⟨_, hframe⟩ := openScans_frame accounts db pool
        rw [hframe]
        exact h
      obtain ⟨did, db₁, hloop, h₁⟩ := hready.scanLoop quota quota false
      have hpool : scanPool derive accounts pool quota db = .ok (did, db₁) := hloop
      rw [bind_of_ok (transaction_of_ok hpool)]
      obtain ⟨more, db₂, hrest⟩ := ih h₁.readable
      rw [bind_of_ok hrest]
      exact ⟨_, _, rfl⟩

theorem scan_total (totalLimit : Nat) (h : Readable derive (getAccountsWithLatestKeypairs db) db)
    (hcount : getAccountsWithLatestKeypairs db = [] ∨
      (scanPoolIds db).length < 2 ^ 32) :
    ∃ did db', scanCommitmentsForUserNotes totalLimit derive db = (.ok did, db') := by
  unfold scanCommitmentsForUserNotes
  dsimp only
  split
  · exact ⟨false, db, rfl⟩
  · rename_i hsome
    push Not at hsome
    rw [if_neg (by have := hcount.resolve_left hsome.1; omega)]
    exact scanPools_total h _

def poolOf (db : Db) (eventId : String) : Nat := (db.contractOf eventId).getD 0

def unscannedBy (db : Db) (account : AccountKeys) : Nat :=
  remaining PoolCommitment.id (fun row => position db (poolOf db row.eventId) account.accountId)
    db.poolCommitments.rows

def unscanned (accounts : List AccountKeys) (db : Db) : Nat := (accounts.map (unscannedBy db)).sum

theorem ScanStep.unscannedBy_le (h : ScanStep derive accounts db db') (account : AccountKeys) :
    unscannedBy db' account ≤ unscannedBy db account := by
  have hposition := h.position_le
  obtain ⟨_, _, rfl⟩ := h.frame
  exact remaining_le fun row _ => hposition _ _

theorem steps_unscanned_le (h : ReflTransGen (ScanStep derive accounts) db db') :
    unscanned accounts db' ≤ unscanned accounts db := by
  induction h with
  | refl => exact le_refl _
  | tail _ hstep ih => exact (sum_le_sum fun account _ => hstep.unscannedBy_le account).trans ih

theorem scanAccount_unscanned_lt {scanned : Nat} (haccount : account ∈ accounts)
    (h : scanAccount derive pool quota account db = .ok (scanned, db')) (hscanned : scanned ≠ 0) :
    unscanned accounts db' < unscanned accounts db := by
  have hstep : ScanStep derive accounts db db' := .scanned haccount h
  apply sum_lt_sum _ _ fun other _ => hstep.unscannedBy_le other
  refine ⟨account, haccount, ?_⟩
  have hposition := hstep.position_le
  obtain ⟨hlength, -, userNotes, -, rfl⟩ := scanAccount_ok h
  obtain ⟨row, hrow⟩ := exists_mem_of_length_pos (Nat.pos_of_ne_zero (hlength ▸ hscanned))
  obtain ⟨hmem, hselect, hbehind⟩ := mem_of_mem_page hrow
  have hpool : poolOf db row.eventId = pool := by
    rw [poolOf, beq_iff_eq.mp hselect]
    rfl
  refine remaining_lt (fun r _ => hposition _ _) hmem ?_ ?_
  · rwa [hpool]
  · change row.id ≤ position _ (poolOf db row.eventId) _
    rw [position_setScan, hpool, if_pos ⟨rfl, rfl⟩]
    exact key_le_highest hrow

theorem scanCycle_unscanned (hsub : ∀ account ∈ todo, account ∈ accounts)
    {quota' : Nat} {progressed progressed' : Bool}
    (h : scanCycle derive pool todo quota progressed db = .ok (quota', progressed', db'))
    (hprogressed : progressed' = true) : progressed = true ∨ unscanned accounts db' < unscanned accounts db := by
  induction todo generalizing quota progressed db with
  | nil =>
    cases h
    exact .inl hprogressed
  | cons account rest ih =>
    have hrest : ∀ a ∈ rest, a ∈ accounts := fun a ha => hsub a (mem_cons_of_mem _ ha)
    unfold scanCycle at h
    split at h
    · cases h
      exact .inl hprogressed
    · obtain ⟨⟨scanned, db₁⟩, hscan, htail⟩ := bind_eq_ok h
      have haccount := hsub _ mem_cons_self
      have hle : unscanned accounts db₁ ≤ unscanned accounts db :=
        steps_unscanned_le (.single (.scanned haccount hscan))
      rcases ih hrest htail with hflag | hlt
      · rcases (Bool.or_eq_true _ _).mp hflag with hbefore | hscanned
        · exact .inl hbefore
        · have hlt := scanAccount_unscanned_lt haccount hscan (by simpa using hscanned)
          have hle' := steps_unscanned_le (scanCycle_steps hrest htail)
          exact .inr (hle'.trans_lt hlt)
      · exact .inr (hlt.trans_le hle)

theorem scanLoop_unscanned {rounds : Nat} {did did' : Bool}
    (h : scanLoop derive accounts pool rounds quota did db = .ok (did', db')) (hdid : did' = true) :
    did = true ∨ unscanned accounts db' < unscanned accounts db := by
  cases rounds with
  | zero =>
    cases h
    exact .inl hdid
  | succ rounds =>
    unfold scanLoop at h
    split at h
    · cases h
      exact .inl hdid
    · obtain ⟨⟨quota₁, progressed, db₁⟩, hcycle, htail⟩ := bind_eq_ok h
      dsimp only at htail
      split at htail
      · rename_i hprogressed
        have hlt := (scanCycle_unscanned (fun _ ha => ha) hcycle hprogressed).resolve_left (by simp)
        exact .inr ((steps_unscanned_le (scanLoop_steps htail)).trans_lt hlt)
      · cases htail
        exact .inl hdid

theorem scanPools_unscanned {pools : List (Nat × Nat)} {did : Bool}
    (h : scanPools derive accounts pools db = (.ok did, db')) (hdid : did = true) :
    unscanned accounts db' < unscanned accounts db := by
  induction pools generalizing db did with
  | nil =>
    obtain ⟨rfl, -⟩ := pure_eq_ok h
    cases hdid
  | cons entry rest ih =>
    obtain ⟨pool, quota⟩ := entry
    unfold scanPools at h
    split at h
    · exact ih h hdid
    · obtain ⟨didPool, db₁, hpool, h⟩ := bind_eq_ok h
      obtain ⟨more, db₂, hrest, h⟩ := bind_eq_ok h
      obtain ⟨hor, rfl⟩ := pure_eq_ok h
      have hloop := transaction_eq_ok hpool
      unfold scanPool at hloop
      have hopening : ReflTransGen (ScanStep derive accounts) db (accounts.foldl (openScan pool) db) :=
        openScan_steps fun _ ha => ha
      have hopened := steps_unscanned_le hopening
      have hle : unscanned accounts db₁ ≤ unscanned accounts db :=
        (steps_unscanned_le (scanLoop_steps hloop)).trans hopened
      have hle' : unscanned accounts db₂ ≤ unscanned accounts db₁ := by
        have hsteps : ReflTransGen (ScanStep derive accounts) db₁ (scanPools derive accounts rest db₁).2 :=
          scanPools_steps rest db₁
        rw [hrest] at hsteps
        exact steps_unscanned_le hsteps
      rcases (Bool.or_eq_true _ _).mp (hor.trans hdid) with hfirst | hmore
      · have hlt := (scanLoop_unscanned hloop hfirst).resolve_left (by simp)
        exact hle'.trans_lt (hlt.trans_le hopened)
      · exact (ih hrest hmore).trans_le hle

theorem scan_unscanned {totalLimit : Nat} (h : scanCommitmentsForUserNotes totalLimit derive db = (.ok true, db')) :
    unscanned (getAccountsWithLatestKeypairs db) db' < unscanned (getAccountsWithLatestKeypairs db) db := by
  unfold scanCommitmentsForUserNotes at h
  dsimp only at h
  split at h
  · cases congrArg Prod.fst h
  · split at h
    · cases congrArg Prod.fst h
    · exact scanPools_unscanned h rfl

end Scan

section Reconcile
variable {limit pool : Nat}

/-- Notes of one pool with one nullifier are the same note. -/
def Separate (db : Db) (notes : List UserNote) : Prop :=
  ∀ note ∈ notes, ∀ other ∈ notes, ∀ pool, notePool db note = some pool →
    notePool db other = some pool → note.expectedNullifier = other.expectedNullifier → note.id = other.id

/-- The mark of a note is the nullifier that its own pool has published. -/
def Marked (db : Db) (notes : List UserNote) : Prop :=
  ∀ note ∈ notes, ∀ id, note.nullifierId = some id →
    ∃ row ∈ db.poolNullifiers.rows, row.id = id ∧ row.nullifier = note.expectedNullifier ∧
      ∃ pool, db.contractOf row.eventId = some pool ∧ notePool db note = some pool

variable {notes : Table UserNote UserNote.conflict}

theorem markSpent_total {nullifier : PoolNullifier}
    (hseparate : Separate db notes.rows) (hmarked : Marked db notes.rows)
    (hnullifier : nullifier ∈ db.poolNullifiers.rows) (hpool : db.contractOf nullifier.eventId = some pool) :
    ∃ notes', markSpent db pool notes nullifier = .ok notes' ∧ Separate db notes'.rows ∧ Marked db notes'.rows := by
  set mark : UserNote → UserNote := fun note =>
    if spends db pool nullifier note then { note with nullifierId := some nullifier.id } else note
    with hmark
  have hkept : ∀ note, (mark note).id = note.id ∧ (mark note).commitmentId = note.commitmentId ∧
      (mark note).expectedNullifier = note.expectedNullifier := by
    intro note
    simp only [hmark]
    split <;> exact ⟨rfl, rfl, rfl⟩
  have hnotePool : ∀ note, notePool db (mark note) = notePool db note := by
    intro note
    rw [notePool, notePool, (hkept note).2.1]
  have hmarked' : Marked db (notes.rows.map mark) := by
    intro note' hnote' id hid
    obtain ⟨note, hnote, rfl⟩ := mem_map.mp hnote'
    rw [hnotePool, (hkept note).2.2]
    by_cases hspends : spends db pool nullifier note = true
    · obtain ⟨-, hexpected, hpool'⟩ := spends_iff.mp hspends
      simp only [hmark, if_pos hspends, Option.some.injEq] at hid
      exact ⟨nullifier, hnullifier, hid, hexpected.symm, pool, hpool, hpool'⟩
    · simp only [hmark, if_neg hspends] at hid
      exact hmarked note hnote id hid
  have hseparate' : Separate db (notes.rows.map mark) := by
    intro note' hnote' other' hother' pool'
    obtain ⟨note, hnote, rfl⟩ := mem_map.mp hnote'
    obtain ⟨other, hother, rfl⟩ := mem_map.mp hother'
    rw [hnotePool, hnotePool, (hkept note).2.2, (hkept other).2.2, (hkept note).1, (hkept other).1]
    exact hseparate note hnote other hother pool'
  -- Two notes with one mark have the nullifier and the pool of the marking row.
  have hunique : (notes.rows.map mark).Pairwise fun a b => ¬UserNote.conflict a b := by
    rw [pairwise_map]
    apply notes.unique.imp_of_mem
    intro a b ha hb hne hconflict
    apply hne
    rw [UserNote.conflict, (hkept a).1, (hkept a).2.1, (hkept b).1, (hkept b).2.1] at hconflict
    rcases hconflict with hid | hcommitment | ⟨hsome, hsame⟩
    · exact .inl hid
    · exact .inr (.inl hcommitment)
    · obtain ⟨id, hid⟩ := Option.isSome_iff_exists.mp hsome
      obtain ⟨row, hrow, hrowid, hvalue, pool₁, hcontract, hpool₁⟩ := hmarked' (mark a) (mem_map_of_mem ha) id hid
      obtain ⟨row', hrow', hrowid', hvalue', pool₂, hcontract', hpool₂⟩ :=
        hmarked' (mark b) (mem_map_of_mem hb) id (hsame ▸ hid)
      obtain rfl := db.poolNullifiers.rowid_inj hrow hrow' (hrowid.trans hrowid'.symm)
      obtain rfl : pool₁ = pool₂ := Option.some.inj (hcontract.symm.trans hcontract')
      rw [hnotePool] at hpool₁ hpool₂
      rw [(hkept a).2.2] at hvalue
      rw [(hkept b).2.2] at hvalue'
      exact .inl (hseparate a ha b hb pool₁ hpool₁ hpool₂ (hvalue.symm.trans hvalue'))
  refine ⟨⟨notes.rows.map mark, hunique⟩, ?_, hseparate', hmarked'⟩
  rw [markSpent, Table.update?, dif_pos hunique, orFail_some]

theorem markSpents_total {nullifiers : List PoolNullifier}
    (hseparate : Separate db notes.rows) (hmarked : Marked db notes.rows)
    (hnullifiers : ∀ nullifier ∈ nullifiers, nullifier ∈ db.poolNullifiers.rows ∧
      db.contractOf nullifier.eventId = some pool) :
    ∃ notes', nullifiers.foldlM (markSpent db pool) notes = .ok notes' ∧
      Separate db notes'.rows ∧ Marked db notes'.rows := by
  induction nullifiers generalizing notes with
  | nil => exact ⟨notes, rfl, hseparate, hmarked⟩
  | cons nullifier rest ih =>
    obtain ⟨hmem, hpool⟩ := hnullifiers nullifier mem_cons_self
    obtain ⟨notes₁, hfirst, hseparate₁, hmarked₁⟩ := markSpent_total hseparate hmarked hmem hpool
    obtain ⟨notes', hrest, hboth⟩ := ih hseparate₁ hmarked₁ fun n hn => hnullifiers n (mem_cons_of_mem _ hn)
    refine ⟨notes', ?_, hboth⟩
    rw [foldlM_cons, hfirst]
    exact hrest

theorem reconcilePools_total (hseparate : Separate db db.userNotes.rows)
    (hmarked : Marked db db.userNotes.rows) (limit : Nat) (pools : List Nat) :
    ∃ did db', reconcilePools limit pools db = (.ok did, db') := by
  induction pools generalizing db with
  | nil => exact ⟨false, db, rfl⟩
  | cons pool rest ih =>
    have hnullifiers : ∀ nullifier ∈ nextNullifiers db limit pool,
        nullifier ∈ db.poolNullifiers.rows ∧ db.contractOf nullifier.eventId = some pool := by
      intro nullifier hmem
      obtain ⟨hrow, hselect, -⟩ := mem_of_mem_page hmem
      exact ⟨hrow, beq_iff_eq.mp hselect⟩
    obtain ⟨notes', hfold, hseparate', hmarked'⟩ := markSpents_total hseparate hmarked hnullifiers
    have hpool := reconcilePool_eq limit pool db
    rw [hfold, ok_bind] at hpool
    unfold reconcilePools
    rw [bind_of_ok (transaction_of_ok hpool)]
    set db₁ : Db := { db with
      userNotes := notes'
      nullifierScanState := Function.update db.nullifierScanState pool
        (some (highest PoolNullifier.id (reconciled db pool) (nextNullifiers db limit pool))) }
    have hnext : ∃ did db', reconcilePools limit rest db₁ = (.ok did, db') := ih hseparate' hmarked'
    obtain ⟨more, db₂, hrest⟩ := hnext
    rw [bind_of_ok hrest]
    exact ⟨_, _, rfl⟩

def unreconciled (db : Db) : Nat :=
  remaining PoolNullifier.id (fun row => reconciled db (poolOf db row.eventId)) db.poolNullifiers.rows

theorem ReconcileStep.unreconciled_le (h : ReconcileStep limit db db') : unreconciled db' ≤ unreconciled db := by
  have hreconciled := h.reconciled_le
  obtain ⟨_, _, rfl⟩ := h.frame
  exact remaining_le fun row _ => hreconciled _

theorem steps_unreconciled_le (h : ReflTransGen (ReconcileStep limit) db db') :
    unreconciled db' ≤ unreconciled db := by
  induction h with
  | refl => exact le_refl _
  | tail _ hstep ih => exact hstep.unreconciled_le.trans ih

theorem reconcilePool_unreconciled (h : reconcilePool limit pool db = .ok (true, db')) :
    unreconciled db' < unreconciled db := by
  have hreconciled := ReconcileStep.reconciled_le ⟨pool, true, h⟩
  obtain ⟨hdid, userNotes, -, rfl⟩ := reconcilePool_ok h
  have hne : nextNullifiers db limit pool ≠ [] := by simpa using hdid.symm
  obtain ⟨row, hrow⟩ := exists_mem_of_ne_nil _ hne
  obtain ⟨hmem, hselect, hbehind⟩ := mem_of_mem_page hrow
  have hpool : poolOf db row.eventId = pool := by
    rw [poolOf, beq_iff_eq.mp hselect]
    rfl
  refine remaining_lt (fun r _ => hreconciled _) hmem ?_ ?_
  · rwa [hpool]
  · change row.id ≤ reconciled _ (poolOf db row.eventId)
    simp only [hpool, reconciled, Function.update_self, Option.getD_some]
    exact key_le_highest hrow

theorem reconcilePools_unreconciled {pools : List Nat} {did : Bool}
    (h : reconcilePools limit pools db = (.ok did, db')) (hdid : did = true) :
    unreconciled db' < unreconciled db := by
  induction pools generalizing db did with
  | nil =>
    obtain ⟨rfl, -⟩ := pure_eq_ok h
    cases hdid
  | cons pool rest ih =>
    obtain ⟨didPool, db₁, hpool, h⟩ := bind_eq_ok h
    obtain ⟨more, db₂, hrest, h⟩ := bind_eq_ok h
    obtain ⟨hor, rfl⟩ := pure_eq_ok h
    have hstep := transaction_eq_ok hpool
    rcases (Bool.or_eq_true _ _).mp (hor.trans hdid) with rfl | hmore
    · have hsteps := reconcilePools_steps limit rest db₁
      rw [hrest] at hsteps
      exact (steps_unreconciled_le hsteps).trans_lt (reconcilePool_unreconciled hstep)
    · exact (ih hrest hmore).trans_le (ReconcileStep.unreconciled_le ⟨pool, didPool, hstep⟩)

theorem reconcile_total (hseparate : Separate db db.userNotes.rows)
    (hmarked : Marked db db.userNotes.rows) (limit : Nat) :
    ∃ did db', reconcileNullifiers limit db = (.ok did, db') := by
  unfold reconcileNullifiers
  split
  · exact ⟨false, db, rfl⟩
  · exact reconcilePools_total hseparate hmarked limit _

theorem reconcile_unreconciled (h : reconcileNullifiers limit db = (.ok true, db')) :
    unreconciled db' < unreconciled db := by
  unfold reconcileNullifiers at h
  split at h
  · cases congrArg Prod.fst h
  · exact reconcilePools_unreconciled h rfl

end Reconcile

section Notes
variable {limit : Nat} {did : Bool}

theorem scan_frame (totalLimit : Nat) (derive : DeriveNote) (db : Db) :
    ∃ userNotes accountCommitmentScan, (scanCommitmentsForUserNotes totalLimit derive db).2 =
      { db with userNotes, accountCommitmentScan } := by
  refine scan_keeps (I := fun d => ∃ userNotes accountCommitmentScan,
    d = { db with userNotes, accountCommitmentScan }) ?_ ⟨_, _, rfl⟩
  rintro _ _ db' hstep ⟨_, _, hdb⟩
  obtain ⟨_, _, rfl⟩ := hstep.frame
  exact ⟨_, _, rfl⟩

theorem reconcile_frame (limit : Nat) (db : Db) :
    ∃ userNotes nullifierScanState, (reconcileNullifiers limit db).2 =
      { db with userNotes, nullifierScanState } := by
  refine reconcile_keeps (I := fun d => ∃ userNotes nullifierScanState,
    d = { db with userNotes, nullifierScanState }) ?_ ⟨_, _, rfl⟩
  rintro _ db' hstep ⟨_, _, rfl⟩
  obtain ⟨_, _, rfl⟩ := hstep.frame
  exact ⟨_, _, rfl⟩

theorem processNotes_frame (limit : Nat) (derive : DeriveNote) (db : Db) :
    ∃ userNotes accountCommitmentScan nullifierScanState, (processNotes limit derive db).2 =
      { db with userNotes, accountCommitmentScan, nullifierScanState } := by
  have hkeeps : Keeps (fun d => ∃ userNotes accountCommitmentScan nullifierScanState,
      d = { db with userNotes, accountCommitmentScan, nullifierScanState }) (processNotes limit derive) := by
    apply Keeps.bind
    · rintro d ⟨_, _, _, rfl⟩
      obtain ⟨_, _, hframe⟩ := scan_frame limit derive _
      exact ⟨_, _, _, hframe⟩
    · intro scanned
      apply Keeps.bind
      · rintro d ⟨_, _, _, rfl⟩
        obtain ⟨_, _, hframe⟩ := reconcile_frame limit _
        exact ⟨_, _, _, hframe⟩
      · exact fun _ => keeps_pure _
  exact hkeeps db ⟨_, _, _, rfl⟩

def todo (accounts : List AccountKeys) (db : Db) : Nat := unscanned accounts db + unreconciled db

theorem processNotes_todo (h : processNotes limit derive db = (.ok did, db')) :
    todo (getAccountsWithLatestKeypairs db) db' ≤ todo (getAccountsWithLatestKeypairs db) db ∧
      (did = true → todo (getAccountsWithLatestKeypairs db) db' < todo (getAccountsWithLatestKeypairs db) db) := by
  obtain ⟨scanned, db₁, hscan, h⟩ := bind_eq_ok h
  obtain ⟨reconciled, db₂, hreconcile, h⟩ := bind_eq_ok h
  obtain ⟨hor, rfl⟩ := pure_eq_ok h
  have hunscanned := steps_unscanned_le (scan_steps limit derive db)
  have hunreconciled := steps_unreconciled_le (reconcile_steps limit db₁)
  have hless : scanned = true → unscanned (getAccountsWithLatestKeypairs db) db₁ <
      unscanned (getAccountsWithLatestKeypairs db) db := fun hyes => scan_unscanned (hyes ▸ hscan)
  have hless' : reconciled = true → unreconciled db₂ < unreconciled db₁ :=
    fun hyes => reconcile_unreconciled (hyes ▸ hreconcile)
  obtain ⟨_, _, hscanned⟩ := scan_frame limit derive db
  obtain ⟨_, _, hreconciled⟩ := reconcile_frame limit db₁
  rw [hscan] at hunscanned hscanned
  rw [hreconcile] at hunreconciled hreconciled
  have hsame : unreconciled db₁ = unreconciled db := by
    rw [show db₁ = _ from hscanned]
    rfl
  have hsame' : unscanned (getAccountsWithLatestKeypairs db) db₂ =
      unscanned (getAccountsWithLatestKeypairs db) db₁ := by
    rw [show db₂ = _ from hreconciled]
    rfl
  dsimp only at hunscanned hunreconciled
  unfold todo
  refine ⟨by omega, fun hdid => ?_⟩
  rcases (Bool.or_eq_true _ _).mp (hor.trans hdid) with hyes | hyes
  · have := hless hyes
    omega
  · have := hless' hyes
    omega

theorem processNotes_false (hlimit : 0 < limit) (h : processNotes limit derive db = (.ok false, db')) :
    Scanned (getAccountsWithLatestKeypairs db) db' ∧ Reconciled db' := by
  obtain ⟨scanned, db₁, hscan, h⟩ := bind_eq_ok h
  obtain ⟨reconciled, db₂, hreconcile, h⟩ := bind_eq_ok h
  obtain ⟨hor, rfl⟩ := pure_eq_ok h
  obtain ⟨rfl, rfl⟩ := Bool.or_eq_false_iff.mp hor
  have hscanned := scan_false hlimit (congrArg Prod.fst hscan)
  have hreconciled := reconcile_false hlimit (congrArg Prod.fst hreconcile)
  obtain ⟨_, _, hframe⟩ := reconcile_frame limit db₁
  rw [hscan] at hscanned
  rw [hreconcile] at hreconciled hframe
  refine ⟨?_, hreconciled⟩
  rw [show db₂ = _ from hframe]
  exact hscanned

theorem processNotes_total (hreadable : Readable derive (getAccountsWithLatestKeypairs db) db)
    (hcount : getAccountsWithLatestKeypairs db = [] ∨
      (scanPoolIds db).length < 2 ^ 32)
    (hscanned : ∀ db₁, (scanCommitmentsForUserNotes limit derive db).2 = db₁ →
      Separate db₁ db₁.userNotes.rows ∧ Marked db₁ db₁.userNotes.rows) :
    ∃ did db', processNotes limit derive db = (.ok did, db') := by
  obtain ⟨scanned, db₁, hscan⟩ := scan_total limit hreadable hcount
  obtain ⟨hseparate, hmarked⟩ := hscanned db₁ (by rw [hscan])
  obtain ⟨reconciled, db₂, hreconcile⟩ := reconcile_total hseparate hmarked limit
  refine ⟨scanned || reconciled, db₂, ?_⟩
  calc processNotes limit derive db
    _ = _ := bind_of_ok hscan
    _ = _ := bind_of_ok hreconcile

end Notes

end PrivatePayments.Sdk

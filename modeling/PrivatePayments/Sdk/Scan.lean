import PrivatePayments.Sdk.Storage

/-! `scan_commitments_for_user_notes` and `reconcile_nullifiers` of
`state/src/storage.rs`. -/
namespace PrivatePayments.Sdk
open Lib List Function Method Contracts

structure DerivedUserNote where
  amount : Nat
  blinding : F
  expectedNullifier : F
deriving DecidableEq

abbrev DeriveNote := AccountKeys → PoolCommitment → Except NoteError (Option DerivedUserNote)

def accountChunk : Nat := 4

def poolIds (db : Db) (eventIds : List String) : List Nat :=
  (eventIds.filterMap db.contractOf).dedup.insertionSort (· ≤ ·)

/-- The remainder goes round-robin. -/
def distribute (count : Nat) : Nat → Nat → List Nat → List Nat
  | 0, _, quotas => quotas
  | remainder + 1, nextPool, quotas =>
      distribute count remainder ((nextPool + 1) % count) (quotas.modify nextPool (· + 1))

def quotas (totalLimit count : Nat) : List Nat :=
  let baseQuota := if totalLimit ≥ count then totalLimit / count else 1
  distribute count (totalLimit - baseQuota * count) 0 (List.replicate count baseQuota)

def setScan (scan : Nat → Nat → Option Nat) (pool accountId position : Nat) :
    Nat → Nat → Option Nat :=
  update scan pool (update (scan pool) accountId (some position))

/-- A position that is not there yet starts at zero. -/
def openScan (pool : Nat) (db : Db) (account : AccountKeys) : Db :=
  { db with
    accountCommitmentScan := setScan db.accountCommitmentScan pool account.accountId
      ((db.accountCommitmentScan pool account.accountId).getD 0) }

def spentBy (db : Db) (pool : Nat) (nullifier : F) : Option Nat :=
  (db.poolNullifiers.rows.find? fun row =>
    db.contractOf row.eventId == some pool && row.nullifier == nullifier).map (·.id)

def userNote (db : Db) (pool : Nat) (account : AccountKeys) (row : PoolCommitment)
    (derived : DerivedUserNote) : UserNote where
  id := row.commitment
  accountId := account.accountId
  commitmentId := row.id
  nullifierId := spentBy db pool derived.expectedNullifier
  expectedNullifier := derived.expectedNullifier
  blinding := derived.blinding
  amount := derived.amount

/-- Only the notes change while rows are scanned. -/
def scanRows (derive : DeriveNote) (db : Db) (pool : Nat) (account : AccountKeys) :
    List PoolCommitment → Table UserNote UserNote.conflict →
      Except StorageError (Table UserNote UserNote.conflict)
  | [], notes => .ok notes
  | row :: rest, notes =>
      match derive account row with
      | .error e => .error (.derive e)
      | .ok none => scanRows derive db pool account rest notes
      | .ok (some derived) =>
          scanRows derive db pool account rest
            (notes.insertOrIgnore (userNote db pool account row derived))

def inPool (db : Db) (pool : Nat) (row : PoolCommitment) : Bool :=
  db.contractOf row.eventId == some pool

def scanAccount (derive : DeriveNote) (pool : Nat) (quota : Nat) (account : AccountKeys) (db : Db) :
    Except StorageError (Nat × Db) := do
  let lastCommitmentId ← orFail (db.accountCommitmentScan pool account.accountId) .noRows
  let commitments := page PoolCommitment.id (inPool db pool) lastCommitmentId
    (min quota accountChunk) db.poolCommitments.rows
  if commitments.isEmpty then return (0, db)
  let userNotes ← scanRows derive db pool account commitments db.userNotes
  return (commitments.length, { db with
    userNotes
    accountCommitmentScan := setScan db.accountCommitmentScan pool account.accountId
      (highest PoolCommitment.id lastCommitmentId commitments) })

/-- One round over the accounts: the quota left, and whether there was anything. -/
def scanCycle (derive : DeriveNote) (pool : Nat) :
    List AccountKeys → Nat → Bool → Db → Except StorageError (Nat × Bool × Db)
  | [], quota, progressed, db => .ok (quota, progressed, db)
  | account :: rest, quota, progressed, db =>
      if quota = 0 then .ok (quota, progressed, db)
      else do
        let (scanned, db) ← scanAccount derive pool quota account db
        scanCycle derive pool rest (quota - scanned) (progressed || scanned != 0) db

/-- A round with progress lowers the quota, so there are at most as many rounds as
the quota allows rows. -/
def scanLoop (derive : DeriveNote) (accounts : List AccountKeys) (pool : Nat) :
    Nat → Nat → Bool → Db → Except StorageError (Bool × Db)
  | 0, _, didProgress, db => .ok (didProgress, db)
  | rounds + 1, quota, didProgress, db =>
      if quota = 0 then .ok (didProgress, db)
      else do
        let (quota, progressed, db) ← scanCycle derive pool accounts quota false db
        if progressed then scanLoop derive accounts pool rounds quota true db
        else return (didProgress, db)

def scanPool (derive : DeriveNote) (accounts : List AccountKeys) (pool quota : Nat) (db : Db) :
    Except StorageError (Bool × Db) :=
  scanLoop derive accounts pool quota quota false (accounts.foldl (openScan pool) db)

def scanPools (derive : DeriveNote) (accounts : List AccountKeys) : List (Nat × Nat) → Wallet Bool
  | [] => pure false
  | (pool, quota) :: rest =>
      if quota = 0 then scanPools derive accounts rest
      else do
        let didProgress ← transaction (scanPool derive accounts pool quota)
        let didAny ← scanPools derive accounts rest
        return didProgress || didAny

abbrev scanPoolIds (db : Db) : List Nat := poolIds db (db.poolCommitments.rows.map (·.eventId))

def scanCommitmentsForUserNotes (totalLimit : Nat) (derive : DeriveNote) : Wallet Bool := fun db =>
  let accounts := getAccountsWithLatestKeypairs db
  let pools := scanPoolIds db
  if accounts = [] ∨ totalLimit = 0 ∨ pools = [] then (.ok false, db)
  else if pools.length ≥ 2 ^ 32 then (.error .poolCount, db)
  else scanPools derive accounts (pools.zip (quotas totalLimit pools.length)) db

def spends (db : Db) (pool : Nat) (nullifier : PoolNullifier) (note : UserNote) : Bool :=
  note.nullifierId == none && note.expectedNullifier == nullifier.nullifier &&
    (db.commitment? note.commitmentId).any (inPool db pool)

def markSpent (db : Db) (pool : Nat) (notes : Table UserNote UserNote.conflict)
    (nullifier : PoolNullifier) : Except StorageError (Table UserNote UserNote.conflict) :=
  orFail (notes.update? fun note =>
    if spends db pool nullifier note then { note with nullifierId := some nullifier.id } else note)
    .unique

def openReconcile (pool : Nat) (db : Db) : Db :=
  { db with
    nullifierScanState := update db.nullifierScanState pool
      (some ((db.nullifierScanState pool).getD 0)) }

def reconcilePool (limit pool : Nat) (db : Db) : Except StorageError (Bool × Db) := do
  let db := openReconcile pool db
  let lastNullifierId ← orFail (db.nullifierScanState pool) .noRows
  let nullifiers := page PoolNullifier.id (fun row => db.contractOf row.eventId == some pool)
    lastNullifierId limit db.poolNullifiers.rows
  let userNotes ← nullifiers.foldlM (markSpent db pool) db.userNotes
  return (!nullifiers.isEmpty, { db with
    userNotes
    nullifierScanState := update db.nullifierScanState pool
      (some (highest PoolNullifier.id lastNullifierId nullifiers)) })

def reconcilePools (limit : Nat) : List Nat → Wallet Bool
  | [] => pure false
  | pool :: rest => do
      let didPool ← transaction (reconcilePool limit pool)
      let didAny ← reconcilePools limit rest
      return didPool || didAny

def reconcileNullifiers (limit : Nat) : Wallet Bool := fun db =>
  if limit = 0 then (.ok false, db)
  else reconcilePools limit (poolIds db (db.poolNullifiers.rows.map (·.eventId))) db

theorem mem_poolIds {db : Db} {eventIds : List String} {pool : Nat} :
    pool ∈ poolIds db eventIds ↔ ∃ id ∈ eventIds, db.contractOf id = some pool := by
  simp [poolIds]

@[simp] theorem setScan_same (scan : Nat → Nat → Option Nat) (pool accountId position : Nat) :
    setScan scan pool accountId position pool accountId = some position := by
  simp [setScan]

theorem setScan_other (scan : Nat → Nat → Option Nat) {pool accountId pool' accountId' : Nat}
    (h : pool' ≠ pool ∨ accountId' ≠ accountId) (position : Nat) :
    setScan scan pool accountId position pool' accountId' = scan pool' accountId' := by
  by_cases hpool : pool' = pool
  · subst hpool
    have hne := h.resolve_left (by simp)
    simp [setScan, hne]
  · simp [setScan, hpool]

theorem setScan_self {scan : Nat → Nat → Option Nat} {pool accountId position : Nat}
    (h : scan pool accountId = some position) : setScan scan pool accountId position = scan := by
  rw [setScan, ← h, update_eq_self, update_eq_self]

def position (db : Db) (pool accountId : Nat) : Nat :=
  (db.accountCommitmentScan pool accountId).getD 0

theorem position_setScan (db : Db) (userNotes : Table UserNote UserNote.conflict)
    (pool accountId mark pool' accountId' : Nat) :
    position { db with
      userNotes, accountCommitmentScan := setScan db.accountCommitmentScan pool accountId mark }
        pool' accountId' =
      if pool' = pool ∧ accountId' = accountId then mark else position db pool' accountId' := by
  unfold position
  split
  · rename_i hsame
    simp [hsame.1, hsame.2]
  · rename_i hother
    dsimp only
    rw [setScan_other _ (by tauto)]

def reconciled (db : Db) (pool : Nat) : Nat := (db.nullifierScanState pool).getD 0

variable {db db' : Db} {notes notes' : Table UserNote UserNote.conflict}

variable {pools : List Nat} {I : Db → Prop}

section Scan
variable {derive : DeriveNote} {pool quota scanned : Nat} {account : AccountKeys}
  {accounts : List AccountKeys}

def nextCommitments (db : Db) (pool quota : Nat) (account : AccountKeys) : List PoolCommitment :=
  page PoolCommitment.id (inPool db pool) (position db pool account.accountId)
    (min quota accountChunk) db.poolCommitments.rows

variable {last : Nat}

theorem nextCommitments_at (hposition : db.accountCommitmentScan pool account.accountId = some last) :
    nextCommitments db pool quota account = page PoolCommitment.id (inPool db pool) last (min quota accountChunk)
      db.poolCommitments.rows := by
  rw [nextCommitments, position, hposition]
  rfl

theorem scanAccount_ok (h : scanAccount derive pool quota account db = .ok (scanned, db')) :
    scanned = (nextCommitments db pool quota account).length ∧
      (db.accountCommitmentScan pool account.accountId).isSome ∧
      ∃ userNotes, scanRows derive db pool account (nextCommitments db pool quota account)
          db.userNotes = .ok userNotes ∧
        db' = { db with
          userNotes
          accountCommitmentScan := setScan db.accountCommitmentScan pool account.accountId
            (highest PoolCommitment.id (position db pool account.accountId)
              (nextCommitments db pool quota account)) } := by
  unfold scanAccount at h
  obtain ⟨last, hlast, h⟩ := bind_eq_ok h
  have hposition := orFail_eq_ok hlast
  rw [← nextCommitments_at hposition] at h
  have hgetD : position db pool account.accountId = last := by
    rw [position, hposition]
    rfl
  rw [hposition, hgetD]
  dsimp only at h
  split at h
  · rename_i hempty
    cases h
    rw [List.isEmpty_iff.mp hempty]
    exact ⟨rfl, rfl, db.userNotes, rfl, by rw [highest, foldl_nil, setScan_self hposition]⟩
  · obtain ⟨userNotes, hrows, h⟩ := bind_eq_ok h
    cases h
    exact ⟨rfl, rfl, userNotes, hrows, rfl⟩

theorem scanAccount_of_rows {userNotes : Table UserNote UserNote.conflict}
    (hposition : db.accountCommitmentScan pool account.accountId = some last)
    (hrows : scanRows derive db pool account (nextCommitments db pool quota account)
      db.userNotes = .ok userNotes) :
    ∃ db', scanAccount derive pool quota account db = .ok ((nextCommitments db pool quota account).length, db') := by
  unfold scanAccount
  rw [hposition, orFail_some, ok_bind, ← nextCommitments_at hposition]
  dsimp only
  split
  · rename_i hempty
    rw [List.isEmpty_iff.mp hempty]
    exact ⟨db, rfl⟩
  · rw [hrows]
    exact ⟨_, rfl⟩

/-- One step of a scan: a position is opened, or an account scans its next chunk. -/
inductive ScanStep (derive : DeriveNote) (accounts : List AccountKeys) (db : Db) : Db → Prop where
  | opened {pool : Nat} {account : AccountKeys} (hmem : account ∈ accounts) :
      ScanStep derive accounts db (openScan pool db account)
  | scanned {pool quota count : Nat} {account : AccountKeys} {db' : Db} (hmem : account ∈ accounts)
      (hscan : scanAccount derive pool quota account db = .ok (count, db')) :
      ScanStep derive accounts db db'

open Relation

variable {todo : List AccountKeys} {quota' : Nat}

theorem scanCycle_steps {progressed progressed' : Bool}
    (hsub : ∀ account ∈ todo, account ∈ accounts)
    (h : scanCycle derive pool todo quota progressed db = .ok (quota', progressed', db')) :
    ReflTransGen (ScanStep derive accounts) db db' := by
  induction todo generalizing quota progressed db with
  | nil =>
    cases h
    exact .refl
  | cons account rest ih =>
    unfold scanCycle at h
    split at h
    · cases h
      exact .refl
    · obtain ⟨⟨scanned, db₁⟩, hscan, h⟩ := bind_eq_ok h
      exact .head (.scanned (hsub _ mem_cons_self) hscan) (ih (fun a ha => hsub a (mem_cons_of_mem _ ha)) h)

variable {rounds : Nat}

theorem scanLoop_steps {did did' : Bool}
    (h : scanLoop derive accounts pool rounds quota did db = .ok (did', db')) :
    ReflTransGen (ScanStep derive accounts) db db' := by
  induction rounds generalizing quota did db with
  | zero =>
    cases h
    exact .refl
  | succ rounds ih =>
    unfold scanLoop at h
    split at h
    · cases h
      exact .refl
    · obtain ⟨⟨quota₁, progressed, db₁⟩, hcycle, h⟩ := bind_eq_ok h
      have hsteps := scanCycle_steps (fun _ ha => ha) hcycle
      dsimp only at h
      split at h
      · exact hsteps.trans (ih h)
      · cases h
        exact hsteps

theorem openScan_steps (hsub : ∀ account ∈ todo, account ∈ accounts) :
    ReflTransGen (ScanStep derive accounts) db (todo.foldl (openScan pool) db) := by
  induction todo generalizing db with
  | nil => exact .refl
  | cons account rest ih =>
    exact .head (.opened (hsub _ mem_cons_self)) (ih fun a ha => hsub a (mem_cons_of_mem _ ha))

theorem scanPools_steps (pools : List (Nat × Nat)) :
    Steps (ScanStep derive accounts) (scanPools derive accounts pools) := by
  induction pools with
  | nil => exact steps_pure false
  | cons entry rest ih =>
    unfold scanPools
    split
    · exact ih
    · apply Steps.bind
      · apply steps_transaction
        intro db did db' h
        exact (openScan_steps fun _ ha => ha).trans (scanLoop_steps h)
      · intro did
        exact ih.bind fun _ => steps_pure _

theorem scan_steps (totalLimit : Nat) (derive : DeriveNote) (db : Db) :
    ReflTransGen (ScanStep derive (getAccountsWithLatestKeypairs db)) db
      (scanCommitmentsForUserNotes totalLimit derive db).2 := by
  unfold scanCommitmentsForUserNotes
  dsimp only
  split
  · exact .refl
  · split
    · exact .refl
    · exact scanPools_steps _ db

variable {rows : List PoolCommitment}

theorem scanRows_keeps {J : Table UserNote UserNote.conflict → Prop}
    (hinsert : ∀ row ∈ rows, ∀ derived, derive account row = .ok (some derived) →
      ∀ notes, J notes → J (notes.insertOrIgnore (userNote db pool account row derived)))
    (h : scanRows derive db pool account rows notes = .ok notes') (hJ : J notes) : J notes' := by
  induction rows generalizing notes with
  | nil =>
    cases h
    exact hJ
  | cons row rest ih =>
    have hrest := fun r hr => hinsert r (mem_cons_of_mem _ hr)
    unfold scanRows at h
    split at h
    · cases h
    · exact ih hrest h hJ
    · rename_i derived hderive
      exact ih hrest h (hinsert row mem_cons_self derived hderive notes hJ)

section
variable (h : scanRows derive db pool account rows notes = .ok notes')
include h

theorem mem_scanRows :
    ∀ note ∈ notes'.rows, note ∈ notes.rows ∨ ∃ row ∈ rows, ∃ derived,
      derive account row = .ok (some derived) ∧ note = userNote db pool account row derived := by
  refine scanRows_keeps (J := fun t => ∀ note ∈ t.rows, note ∈ notes.rows ∨ ∃ row ∈ rows,
    ∃ derived, derive account row = .ok (some derived) ∧
      note = userNote db pool account row derived) ?_ h fun note hnote => .inl hnote
  intro row hrow derived hderive t ht note hnote
  rcases t.insertOrIgnore_cases (userNote db pool account row derived) with
    ⟨hsame, -⟩ | ⟨-, hrows⟩
  · exact ht note (hsame ▸ hnote)
  · rw [hrows, mem_append, mem_singleton] at hnote
    rcases hnote with hold | rfl
    · exact ht note hold
    · exact .inr ⟨row, hrow, derived, hderive, rfl⟩

theorem scanRows_isPrefix
    : notes.rows <+: notes'.rows := by
  refine scanRows_keeps (J := fun t => notes.rows <+: t.rows) ?_ h (prefix_refl _)
  intro row _ derived _ t ht
  exact ht.trans (t.prefix_insertOrIgnore _)

theorem scanRows_stored :
    ∀ row ∈ rows, ∀ derived, derive account row = .ok (some derived) →
      ∃ note ∈ notes'.rows, UserNote.conflict note (userNote db pool account row derived) := by
  induction rows generalizing notes with
  | nil => simp
  | cons first rest ih =>
    intro row hrow derived hderive
    unfold scanRows at h
    split at h
    · cases h
    · rename_i hnone
      rcases mem_cons.mp hrow with rfl | hrow
      · rw [hnone] at hderive
        cases hderive
      · exact ih h row hrow derived hderive
    · rename_i firstDerived hfirst
      rcases mem_cons.mp hrow with rfl | hrow
      · rw [hfirst] at hderive
        cases hderive
        rcases notes.insertOrIgnore_cases (userNote db pool account row derived) with
          ⟨hsame, note, hnote, hconflict⟩ | ⟨-, hrows⟩
        · rw [hsame] at h
          exact ⟨note, (scanRows_isPrefix h).subset hnote, hconflict⟩
        · refine ⟨_, (scanRows_isPrefix h).subset ?_, .inl rfl⟩
          rw [hrows]
          simp
      · exact ih h row hrow derived hderive

end

theorem ScanStep.mem_notes (h : ScanStep derive accounts db db') :
    ∀ note ∈ db'.userNotes.rows, note ∈ db.userNotes.rows ∨
      ∃ pool, ∃ account ∈ accounts, ∃ row ∈ db.poolCommitments.rows, ∃ derived,
        db.contractOf row.eventId = some pool ∧ derive account row = .ok (some derived) ∧
          note = userNote db pool account row derived := by
  cases h with
  | opened hmem => exact fun note hnote => .inl hnote
  | @scanned pool quota count account db' hmem hscan =>
    obtain ⟨-, -, userNotes, hrows, rfl⟩ := scanAccount_ok hscan
    intro note hnote
    rcases mem_scanRows hrows note hnote with hold | ⟨row, hrow, derived, hderive, rfl⟩
    · exact .inl hold
    · obtain ⟨hmem', hpool, -⟩ := mem_of_mem_page hrow
      exact .inr ⟨pool, account, hmem, row, hmem', derived, by simpa [inPool] using hpool, hderive, rfl⟩

theorem ScanStep.frame (h : ScanStep derive accounts db db') :
    ∃ userNotes accountCommitmentScan, db' = { db with userNotes, accountCommitmentScan } := by
  cases h with
  | opened hmem => exact ⟨_, _, rfl⟩
  | scanned hmem hscan =>
    obtain ⟨-, -, userNotes, -, rfl⟩ := scanAccount_ok hscan
    exact ⟨_, _, rfl⟩

variable {totalLimit : Nat}

theorem scan_keeps (hstep : ∀ userNotes accountCommitmentScan db',
      ScanStep derive (getAccountsWithLatestKeypairs db) { db with userNotes, accountCommitmentScan } db' →
        I { db with userNotes, accountCommitmentScan } → I db')
    (h : I db) : I (scanCommitmentsForUserNotes totalLimit derive db).2 := by
  have hsteps := scan_steps totalLimit derive db
  generalize (scanCommitmentsForUserNotes totalLimit derive db).2 = db' at hsteps
  have hboth : I db' ∧
      ∃ userNotes accountCommitmentScan, db' = { db with userNotes, accountCommitmentScan } := by
    induction hsteps with
    | refl => exact ⟨h, _, _, rfl⟩
    | tail _ hlast ih =>
      obtain ⟨hI, userNotes, accountCommitmentScan, rfl⟩ := ih
      have hnext := hstep _ _ _ hlast hI
      obtain ⟨_, _, rfl⟩ := hlast.frame
      exact ⟨hnext, _, _, rfl⟩
  exact hboth.1

theorem distribute_length (count remainder nextPool : Nat) (quotas : List Nat) :
    (distribute count remainder nextPool quotas).length = quotas.length := by
  induction remainder generalizing nextPool quotas with
  | zero => rfl
  | succ remainder ih => rw [distribute, ih, length_modify]

theorem distribute_pos (count remainder nextPool : Nat) {quotas : List Nat} (h : ∀ q ∈ quotas, 0 < q) :
    ∀ q ∈ distribute count remainder nextPool quotas, 0 < q := by
  induction remainder generalizing nextPool quotas with
  | zero => exact h
  | succ remainder ih =>
    apply ih
    intro q hq
    obtain ⟨i, hi, rfl⟩ := getElem_of_mem hq
    rw [length_modify] at hi
    have hpos := h _ (getElem_mem hi)
    rw [getElem_modify]
    split <;> omega

theorem quotas_length (totalLimit count : Nat) : (quotas totalLimit count).length = count := by
  rw [quotas, distribute_length, length_replicate]

theorem quotas_pos (totalLimit count : Nat) : ∀ q ∈ quotas totalLimit count, 0 < q := by
  apply distribute_pos
  intro q hq
  obtain ⟨hcount, rfl⟩ := mem_replicate.mp hq
  split
  · exact Nat.div_pos (by assumption) (Nat.pos_of_ne_zero hcount)
  · exact Nat.one_pos

theorem exists_quota (totalLimit : Nat) (h : pool ∈ pools) :
    ∃ quota, (pool, quota) ∈ pools.zip (quotas totalLimit pools.length) := by
  rw [← map_fst_zip (quotas_length totalLimit pools.length).ge, mem_map] at h
  obtain ⟨⟨_, quota⟩, hzip, rfl⟩ := h
  exact ⟨quota, hzip⟩

theorem scanAccount_idle (h : scanAccount derive pool quota account db = .ok (0, db')) :
    db' = db ∧ nextCommitments db pool quota account = [] := by
  obtain ⟨hlength, hopen, userNotes, hrows, rfl⟩ := scanAccount_ok h
  have hnil := length_eq_zero_iff.mp hlength.symm
  obtain ⟨last, hlast⟩ := Option.isSome_iff_exists.mp hopen
  rw [hnil] at hrows ⊢
  cases hrows
  have hself : setScan db.accountCommitmentScan pool account.accountId
      (highest PoolCommitment.id (position db pool account.accountId) []) =
      db.accountCommitmentScan := by
    apply setScan_self
    rw [position, hlast]
    rfl
  rw [hself]
  exact ⟨rfl, rfl⟩

theorem scanCycle_progressed {progressed' : Bool}
    (h : scanCycle derive pool todo quota true db = .ok (quota', progressed', db')) : progressed' = true := by
  induction todo generalizing quota db with
  | nil =>
    cases h
    rfl
  | cons account rest ih =>
    unfold scanCycle at h
    split at h
    · cases h
      rfl
    · obtain ⟨⟨scanned, db₁⟩, -, h⟩ := bind_eq_ok h
      exact ih h

theorem scanCycle_idle (hquota : 0 < quota)
    (h : scanCycle derive pool todo quota false db = .ok (quota', false, db')) :
    db' = db ∧ ∀ account ∈ todo, nextCommitments db pool quota account = [] := by
  induction todo with
  | nil =>
    cases h
    exact ⟨rfl, by simp⟩
  | cons account rest ih =>
    unfold scanCycle at h
    rw [if_neg (by omega)] at h
    obtain ⟨⟨scanned, db₁⟩, hscan, htail⟩ := bind_eq_ok h
    by_cases hzero : scanned = 0
    · subst hzero
      obtain ⟨hkept, hnil⟩ := scanAccount_idle hscan
      rw [hkept] at htail
      obtain ⟨hsame, hrest⟩ := ih htail
      refine ⟨hsame, fun a ha => ?_⟩
      rcases mem_cons.mp ha with rfl | ha
      · exact hnil
      · exact hrest a ha
    · have hflag : (false || scanned != 0) = true := by simpa using hzero
      dsimp only at htail
      rw [hflag] at htail
      cases scanCycle_progressed htail

theorem scanLoop_progressed {did : Bool}
    (h : scanLoop derive accounts pool rounds quota true db = .ok (did, db')) : did = true := by
  induction rounds generalizing quota db with
  | zero =>
    cases h
    rfl
  | succ rounds ih =>
    unfold scanLoop at h
    split at h
    · cases h
      rfl
    · obtain ⟨⟨quota₁, progressed, db₁⟩, -, h⟩ := bind_eq_ok h
      dsimp only at h
      split at h
      · exact ih h
      · cases h
        rfl

theorem scanLoop_idle (hrounds : 0 < rounds) (hquota : 0 < quota)
    (h : scanLoop derive accounts pool rounds quota false db = .ok (false, db')) :
    db' = db ∧ ∀ account ∈ accounts, nextCommitments db pool quota account = [] := by
  obtain ⟨rounds, rfl⟩ : ∃ r, rounds = r + 1 := ⟨rounds - 1, by omega⟩
  unfold scanLoop at h
  rw [if_neg (by omega)] at h
  obtain ⟨⟨quota₁, progressed, db₁⟩, hcycle, h⟩ := bind_eq_ok h
  cases progressed with
  | true => cases scanLoop_progressed h
  | false =>
    cases h
    exact scanCycle_idle hquota hcycle

@[simp] theorem position_openScan (db : Db) (pool pool' accountId : Nat) (account : AccountKeys) :
    position (openScan pool db account) pool' accountId = position db pool' accountId := by
  by_cases h : pool' ≠ pool ∨ accountId ≠ account.accountId
  · simp only [position, openScan]
    rw [setScan_other _ h]
  · push Not at h
    obtain ⟨rfl, rfl⟩ := h
    simp [position, openScan]

theorem ScanStep.position_le (h : ScanStep derive accounts db db') (pool accountId : Nat) :
    position db pool accountId ≤ position db' pool accountId := by
  cases h with
  | opened hmem => rw [position_openScan]
  | scanned hmem hscan =>
    obtain ⟨-, -, userNotes, -, rfl⟩ := scanAccount_ok hscan
    rw [position_setScan]
    split
    · rename_i hsame
      rw [hsame.1, hsame.2]
      exact last_le_highest _ _
    · exact le_refl _

theorem position_openScans (todo : List AccountKeys) (db : Db) (pool pool' accountId : Nat) :
    position (todo.foldl (openScan pool) db) pool' accountId = position db pool' accountId := by
  induction todo generalizing db with
  | nil => rfl
  | cons account rest ih => rw [foldl_cons, ih, position_openScan]

theorem openScans_frame (todo : List AccountKeys) (db : Db) (pool : Nat) :
    ∃ accountCommitmentScan, todo.foldl (openScan pool) db = { db with accountCommitmentScan } := by
  induction todo generalizing db with
  | nil => exact ⟨_, rfl⟩
  | cons account rest ih =>
    obtain ⟨scan, hscan⟩ := ih (openScan pool db account)
    exact ⟨scan, hscan⟩

def Scanned (accounts : List AccountKeys) (db : Db) : Prop :=
  ∀ account ∈ accounts, ∀ row ∈ db.poolCommitments.rows, ∀ pool,
    db.contractOf row.eventId = some pool → row.id ≤ position db pool account.accountId

theorem scanPools_false {pools : List (Nat × Nat)} (hpos : ∀ entry ∈ pools, 0 < entry.2)
    (h : scanPools derive accounts pools db = (.ok false, db')) :
    (∀ account ∈ accounts, ∀ row ∈ db.poolCommitments.rows, ∀ entry ∈ pools,
        db.contractOf row.eventId = some entry.1 →
          row.id ≤ position db entry.1 account.accountId) ∧
      (∃ accountCommitmentScan, db' = { db with accountCommitmentScan }) ∧
      ∀ pool accountId, position db' pool accountId = position db pool accountId := by
  induction pools generalizing db db' with
  | nil =>
    obtain ⟨-, rfl⟩ := pure_eq_ok h
    exact ⟨by simp, ⟨_, rfl⟩, fun _ _ => rfl⟩
  | cons entry rest ih =>
    obtain ⟨pool, quota⟩ := entry
    have hquota : 0 < quota := hpos _ mem_cons_self
    unfold scanPools at h
    rw [if_neg (by omega)] at h
    obtain ⟨did, db₁, hpool, h⟩ := bind_eq_ok h
    obtain ⟨more, db₂, hrest, h⟩ := bind_eq_ok h
    obtain ⟨hnone, rfl⟩ := pure_eq_ok h
    obtain ⟨rfl, rfl⟩ := Bool.or_eq_false_iff.mp hnone
    have hloop := transaction_eq_ok hpool
    unfold scanPool at hloop
    obtain ⟨rfl, hidle⟩ := scanLoop_idle hquota hquota hloop
    obtain ⟨scan, hopened⟩ := openScans_frame accounts db pool
    have hposition := fun pool' => position_openScans accounts db pool pool'
    obtain ⟨hscanned, ⟨scan', rfl⟩, hsame⟩ := ih (fun e he => hpos e (mem_cons_of_mem _ he)) hrest
    rw [hopened] at hscanned hsame hidle hposition ⊢
    refine ⟨?_, ⟨scan', rfl⟩, fun pool' accountId => (hsame pool' accountId).trans (hposition pool' accountId)⟩
    intro account haccount row hrow entry hentry hcontract
    rcases mem_cons.mp hentry with rfl | hentry
    · rw [← hposition]
      exact page_eq_nil (by unfold accountChunk; omega) (hidle account haccount) hrow (beq_iff_eq.mpr hcontract)
    · rw [← hposition]
      exact hscanned account haccount row hrow entry hentry hcontract

theorem scan_false (hlimit : 0 < totalLimit)
    (h : (scanCommitmentsForUserNotes totalLimit derive db).1 = .ok false) :
    Scanned (getAccountsWithLatestKeypairs db) (scanCommitmentsForUserNotes totalLimit derive db).2 := by
  unfold scanCommitmentsForUserNotes at h ⊢
  dsimp only at h ⊢
  split at h
  · rename_i hnone
    rw [if_pos hnone]
    intro account haccount row hrow pool hcontract
    rcases hnone with hempty | hzero | hpools
    · rw [hempty] at haccount
      cases haccount
    · omega
    · have hmem : pool ∈ scanPoolIds db :=
        mem_poolIds.mpr ⟨row.eventId, mem_map_of_mem hrow, hcontract⟩
      rw [hpools] at hmem
      cases hmem
  · rename_i hsome
    rw [if_neg hsome]
    split at h
    · cases h
    · rename_i hcount
      rw [if_neg hcount]
      generalize hpools : scanPoolIds db = pools at h ⊢
      generalize hresult : scanPools derive (getAccountsWithLatestKeypairs db)
        (pools.zip (quotas totalLimit pools.length)) db = result at h ⊢
      obtain ⟨outcome, db'⟩ := result
      obtain rfl : outcome = .ok false := h
      have hpos : ∀ entry ∈ pools.zip (quotas totalLimit pools.length), 0 < entry.2 :=
        fun entry hentry => quotas_pos _ _ _ (of_mem_zip hentry).2
      obtain ⟨hscanned, ⟨scan, rfl⟩, hsame⟩ := scanPools_false hpos hresult
      intro account haccount row hrow pool hcontract
      rw [hsame]
      have hmem : pool ∈ pools := hpools ▸ mem_poolIds.mpr ⟨row.eventId, mem_map_of_mem hrow, hcontract⟩
      obtain ⟨quota, hzip⟩ := exists_quota totalLimit hmem
      exact hscanned account haccount row hrow _ hzip hcontract

end Scan

section Reconcile
variable {limit pool : Nat} {did : Bool}
open Relation

def nextNullifiers (db : Db) (limit pool : Nat) : List PoolNullifier :=
  page PoolNullifier.id (fun row => db.contractOf row.eventId == some pool) (reconciled db pool)
    limit db.poolNullifiers.rows

theorem reconcilePool_eq (limit pool : Nat) (db : Db) :
    reconcilePool limit pool db = do
      let userNotes ← (nextNullifiers db limit pool).foldlM (markSpent db pool) db.userNotes
      return (!(nextNullifiers db limit pool).isEmpty, { db with
        userNotes
        nullifierScanState := update db.nullifierScanState pool
          (some (highest PoolNullifier.id (reconciled db pool) (nextNullifiers db limit pool))) }) := by
  unfold reconcilePool openReconcile
  dsimp only
  rw [update_self, orFail_some, ok_bind, update_idem]
  rfl

theorem reconcilePool_ok (h : reconcilePool limit pool db = .ok (did, db')) :
    did = !(nextNullifiers db limit pool).isEmpty ∧
      ∃ userNotes, (nextNullifiers db limit pool).foldlM (markSpent db pool) db.userNotes =
          .ok userNotes ∧
        db' = { db with
          userNotes
          nullifierScanState := update db.nullifierScanState pool
            (some (highest PoolNullifier.id (reconciled db pool)
              (nextNullifiers db limit pool))) } := by
  rw [reconcilePool_eq] at h
  obtain ⟨userNotes, hfold, h⟩ := bind_eq_ok h
  cases h
  exact ⟨rfl, userNotes, hfold, rfl⟩


variable {nullifier : PoolNullifier}

theorem markSpent_ok
    (h : markSpent db pool notes nullifier = .ok notes') :
    notes'.rows = notes.rows.map fun note =>
      if spends db pool nullifier note then { note with nullifierId := some nullifier.id }
      else note :=
  Table.update?_eq_some (orFail_eq_ok h)

variable {nullifiers : List PoolNullifier}

/-- A note comes out as it went in, or marked by a nullifier that spends it; one that
comes out unmarked is spent by none. -/
theorem markSpent_fold
    (h : nullifiers.foldlM (markSpent db pool) notes = .ok notes') {note' : UserNote} (hnote' : note' ∈ notes'.rows) :
    (note' ∈ notes.rows ∨ ∃ note ∈ notes.rows, ∃ nullifier ∈ nullifiers,
        spends db pool nullifier note = true ∧
          note' = { note with nullifierId := some nullifier.id }) ∧
      (note'.nullifierId = none → ∀ nullifier ∈ nullifiers,
        spends db pool nullifier note' = false) := by
  induction nullifiers generalizing notes with
  | nil =>
    cases h
    exact ⟨.inl hnote', by simp⟩
  | cons nullifier rest ih =>
    rw [foldlM_cons] at h
    obtain ⟨notes₁, hfirst, hrest⟩ := bind_eq_ok h
    have hrows := markSpent_ok hfirst
    obtain ⟨hfrom, hunspent⟩ := ih hrest
    constructor
    · rcases hfrom with hsame | ⟨note₁, hnote₁, n, hn, hspends, rfl⟩
      · rw [hrows, mem_map] at hsame
        obtain ⟨note, hnote, rfl⟩ := hsame
        split
        · rename_i hspends
          exact .inr ⟨note, hnote, nullifier, mem_cons_self, hspends, rfl⟩
        · exact .inl hnote
      · rw [hrows, mem_map] at hnote₁
        obtain ⟨note, hnote, rfl⟩ := hnote₁
        split at hspends
        · simp [spends] at hspends
        · rename_i hno
          rw [if_neg hno]
          exact .inr ⟨note, hnote, n, mem_cons_of_mem _ hn, hspends, rfl⟩
    · intro hnone n hn
      rcases mem_cons.mp hn with rfl | hn
      · rcases hfrom with hsame | ⟨note₁, -, _, -, -, rfl⟩
        · rw [hrows, mem_map] at hsame
          obtain ⟨note, -, rfl⟩ := hsame
          split at hnone
          · cases hnone
          · rename_i hno
            rw [if_neg hno]
            simpa using hno
        · cases hnone
      · exact hunspent hnone n hn

/-- A note that has no mark may get one. -/
def UserNote.Becomes (note note' : UserNote) : Prop :=
  note' = note ∨ note.nullifierId = none ∧ ∃ id, note' = { note with nullifierId := some id }

theorem UserNote.Becomes.trans {a b c : UserNote} (h : a.Becomes b) (h' : b.Becomes c) : a.Becomes c := by
  rcases h with rfl | ⟨hnone, id, rfl⟩
  · exact h'
  · rcases h' with rfl | ⟨hsome, -⟩
    · exact .inr ⟨hnone, id, rfl⟩
    · cases hsome

theorem UserNote.Becomes.same {note note' : UserNote} (h : note.Becomes note') :
    note.accountId = note'.accountId ∧ note.commitmentId = note'.commitmentId := by
  rcases h with rfl | ⟨-, _, rfl⟩ <;> exact ⟨rfl, rfl⟩

theorem becomes_of_spends {note : UserNote} (h : spends db pool nullifier note = true) :
    note.Becomes { note with nullifierId := some nullifier.id } := by
  simp only [spends, Bool.and_eq_true, beq_iff_eq] at h
  exact .inr ⟨h.1.1, _, rfl⟩

theorem markSpent_kept (h : nullifiers.foldlM (markSpent db pool) notes = .ok notes') :
    ∀ note ∈ notes.rows, ∃ note' ∈ notes'.rows, note.Becomes note' := by
  induction nullifiers generalizing notes with
  | nil =>
    cases h
    exact fun note hnote => ⟨note, hnote, .inl rfl⟩
  | cons nullifier rest ih =>
    rw [foldlM_cons] at h
    obtain ⟨notes₁, hfirst, hrest⟩ := bind_eq_ok h
    intro note hnote
    have hmem := mem_map_of_mem (f := fun note =>
      if spends db pool nullifier note then { note with nullifierId := some nullifier.id }
      else note) hnote
    rw [← markSpent_ok hfirst] at hmem
    obtain ⟨note', hnote', hlater⟩ := ih hrest _ hmem
    refine ⟨note', hnote', UserNote.Becomes.trans ?_ hlater⟩
    split
    · exact becomes_of_spends ‹_›
    · exact .inl rfl

def ReconcileStep (limit : Nat) (db db' : Db) : Prop :=
  ∃ pool did, reconcilePool limit pool db = .ok (did, db')

section
variable (h : ReconcileStep limit db db')
include h

theorem ReconcileStep.frame :
    ∃ userNotes nullifierScanState, db' = { db with userNotes, nullifierScanState } := by
  obtain ⟨pool, did, h⟩ := h
  obtain ⟨-, userNotes, -, rfl⟩ := reconcilePool_ok h
  exact ⟨_, _, rfl⟩

theorem ReconcileStep.origin :
    ∀ note' ∈ db'.userNotes.rows, ∃ note ∈ db.userNotes.rows, note.Becomes note' := by
  obtain ⟨pool, did, h⟩ := h
  obtain ⟨-, userNotes, hfold, rfl⟩ := reconcilePool_ok h
  intro note' hnote'
  rcases (markSpent_fold hfold hnote').1 with hold | ⟨note, hnote, _, -, hspends, rfl⟩
  · exact ⟨note', hold, .inl rfl⟩
  · exact ⟨note, hnote, becomes_of_spends hspends⟩

theorem ReconcileStep.kept :
    ∀ note ∈ db.userNotes.rows, ∃ note' ∈ db'.userNotes.rows, note.Becomes note' := by
  obtain ⟨pool, did, h⟩ := h
  obtain ⟨-, userNotes, hfold, rfl⟩ := reconcilePool_ok h
  exact markSpent_kept hfold

theorem ReconcileStep.reconciled_le (pool : Nat) :
    reconciled db pool ≤ reconciled db' pool := by
  obtain ⟨pool', did, h⟩ := h
  obtain ⟨-, userNotes, -, rfl⟩ := reconcilePool_ok h
  by_cases hpool : pool = pool'
  · subst hpool
    simp only [reconciled, update_self, Option.getD_some]
    exact last_le_highest _ _
  · simp [reconciled, hpool]

end

theorem reconcilePools_steps (limit : Nat) (pools : List Nat) :
    Steps (ReconcileStep limit) (reconcilePools limit pools) := by
  induction pools with
  | nil => exact steps_pure false
  | cons pool rest ih =>
    apply Steps.bind
    · apply steps_transaction
      intro db did db' h
      exact .single ⟨pool, did, h⟩
    · intro did
      exact ih.bind fun _ => steps_pure _

theorem reconcile_steps (limit : Nat) : Steps (ReconcileStep limit) (reconcileNullifiers limit) := by
  intro db
  unfold reconcileNullifiers
  split
  · exact .refl
  · exact reconcilePools_steps limit _ db

theorem reconcile_keeps (hstep : ∀ db db', ReconcileStep limit db db' → I db → I db') (h : I db) :
    I (reconcileNullifiers limit db).2 := by
  have hsteps := reconcile_steps limit db
  generalize (reconcileNullifiers limit db).2 = db' at hsteps
  induction hsteps with
  | refl => exact h
  | tail _ hlast ih => exact hstep _ _ hlast ih

def Reconciled (db : Db) : Prop :=
  ∀ row ∈ db.poolNullifiers.rows, ∀ pool, db.contractOf row.eventId = some pool →
    row.id ≤ reconciled db pool

theorem Reconciled.step (h : Reconciled db) (hstep : ReconcileStep limit db db') : Reconciled db' := by
  intro row hrow pool hcontract
  have hle := hstep.reconciled_le pool
  obtain ⟨_, _, rfl⟩ := hstep.frame
  exact (h row hrow pool hcontract).trans hle

theorem reconcilePools_false (hlimit : 0 < limit)
    (h : reconcilePools limit pools db = (.ok false, db')) :
    ∀ row ∈ db.poolNullifiers.rows, ∀ pool ∈ pools, db.contractOf row.eventId = some pool →
      row.id ≤ reconciled db pool := by
  induction pools generalizing db db' with
  | nil => simp
  | cons pool rest ih =>
    obtain ⟨did, db₁, hpool, h⟩ := bind_eq_ok h
    obtain ⟨more, db₂, hrest, h⟩ := bind_eq_ok h
    obtain ⟨hnone, rfl⟩ := pure_eq_ok h
    obtain ⟨rfl, rfl⟩ := Bool.or_eq_false_iff.mp hnone
    obtain ⟨hdid, userNotes, -, rfl⟩ := reconcilePool_ok (transaction_eq_ok hpool)
    have hpage : nextNullifiers db limit pool = [] := by simpa using hdid.symm
    intro row hrow pool' hmem hcontract
    rcases mem_cons.mp hmem with rfl | hmem
    · exact page_eq_nil hlimit hpage hrow (by simpa using hcontract)
    · have hle := ih hrest row hrow pool' hmem hcontract
      rw [hpage] at hle
      by_cases hsame : pool' = pool
      · subst hsame
        simpa [reconciled, highest] using hle
      · simpa [reconciled, hsame] using hle

theorem reconcile_false (hlimit : 0 < limit) (h : (reconcileNullifiers limit db).1 = .ok false) :
    Reconciled (reconcileNullifiers limit db).2 := by
  apply reconcile_keeps fun _ _ hstep hdb => hdb.step hstep
  intro row hrow pool hcontract
  rw [reconcileNullifiers, if_neg (by omega)] at h
  exact reconcilePools_false hlimit (Prod.ext h rfl) row hrow pool
    (mem_poolIds.mpr ⟨row.eventId, mem_map_of_mem hrow, hcontract⟩) hcontract

end Reconcile

end PrivatePayments.Sdk

import PrivatePayments.Sdk.Progress

/-! What `scan_commitments_for_user_notes` derives: how much in one call, in which order,
and what over many calls. -/
namespace PrivatePayments.Sdk
open Lib List Method Contracts

structure Derivation where
  pool : Nat
  accountId : Nat
  row : PoolCommitment
deriving DecidableEq

/-- The rows up to the first that cannot be derived. -/
def attempted (derive : DeriveNote) (account : AccountKeys) : List PoolCommitment → List PoolCommitment
  | [] => []
  | row :: rest =>
      match derive account row with
      | .error _ => [row]
      | .ok _ => row :: attempted derive account rest

/-! The calls of `derive`, function by function along the control flow of the scan. -/

def accountCalls (derive : DeriveNote) (pool quota : Nat) (account : AccountKeys) (db : Db) : List Derivation :=
  match db.accountCommitmentScan pool account.accountId with
  | none => []
  | some lastCommitmentId =>
      (attempted derive account (page PoolCommitment.id (inPool db pool) lastCommitmentId
        (min quota accountChunk) db.poolCommitments.rows)).map fun row => ⟨pool, account.accountId, row⟩

def cycleCalls (derive : DeriveNote) (pool : Nat) : List AccountKeys → Nat → Db → List Derivation
  | [], _, _ => []
  | account :: rest, quota, db =>
      if quota = 0 then []
      else accountCalls derive pool quota account db ++
        match scanAccount derive pool quota account db with
        | .error _ => []
        | .ok (scanned, db) => cycleCalls derive pool rest (quota - scanned) db

def loopCalls (derive : DeriveNote) (accounts : List AccountKeys) (pool : Nat) : Nat → Nat → Db → List Derivation
  | 0, _, _ => []
  | rounds + 1, quota, db =>
      if quota = 0 then []
      else cycleCalls derive pool accounts quota db ++
        match scanCycle derive pool accounts quota false db with
        | .error _ => []
        | .ok (quota, progressed, db) => if progressed then loopCalls derive accounts pool rounds quota db else []

def poolCalls (derive : DeriveNote) (accounts : List AccountKeys) (pool quota : Nat) (db : Db) : List Derivation :=
  loopCalls derive accounts pool quota quota (accounts.foldl (openScan pool) db)

def poolsCalls (derive : DeriveNote) (accounts : List AccountKeys) : List (Nat × Nat) → Db → List Derivation
  | [], _ => []
  | (pool, quota) :: rest, db =>
      if quota = 0 then poolsCalls derive accounts rest db
      else poolCalls derive accounts pool quota db ++
        match scanPool derive accounts pool quota db with
        | .error _ => []
        | .ok (_, db) => poolsCalls derive accounts rest db

def poolsKept (derive : DeriveNote) (accounts : List AccountKeys) : List (Nat × Nat) → Db → List Derivation
  | [], _ => []
  | (pool, quota) :: rest, db =>
      if quota = 0 then poolsKept derive accounts rest db
      else match scanPool derive accounts pool quota db with
        | .error _ => []
        | .ok (_, db') => poolCalls derive accounts pool quota db ++ poolsKept derive accounts rest db'

def scanPlan (totalLimit : Nat) (db : Db) : List (Nat × Nat) :=
  if getAccountsWithLatestKeypairs db = [] ∨ totalLimit = 0 ∨ scanPoolIds db = [] then []
  else if (scanPoolIds db).length ≥ 2 ^ 32 then []
  else (scanPoolIds db).zip (quotas totalLimit (scanPoolIds db).length)

def scanCalls (totalLimit : Nat) (derive : DeriveNote) (db : Db) : List Derivation :=
  poolsCalls derive (getAccountsWithLatestKeypairs db) (scanPlan totalLimit db) db

def scanKept (totalLimit : Nat) (derive : DeriveNote) (db : Db) : List Derivation :=
  poolsKept derive (getAccountsWithLatestKeypairs db) (scanPlan totalLimit db) db

/-- The commitments of a pool that an account has still to scan, in the order of their ids. -/
def unscannedRows (db : Db) (pool accountId : Nat) : List PoolCommitment :=
  db.poolCommitments.rows.filter fun row => inPool db pool row && decide (position db pool accountId < row.id)

def derivedIn (calls : List Derivation) (pool accountId : Nat) : List PoolCommitment :=
  (calls.filter fun call => call.pool == pool && call.accountId == accountId).map (·.row)

@[simp] theorem derivedIn_nil (pool accountId : Nat) : derivedIn [] pool accountId = [] := rfl

@[simp] theorem derivedIn_append (calls more : List Derivation) (pool accountId : Nat) :
    derivedIn (calls ++ more) pool accountId = derivedIn calls pool accountId ++ derivedIn more pool accountId := by
  simp [derivedIn]

theorem derivedIn_map (rows : List PoolCommitment) (pool accountId pool' accountId' : Nat) :
    derivedIn (rows.map fun row => ⟨pool, accountId, row⟩) pool' accountId' =
      if pool' = pool ∧ accountId' = accountId then rows else [] := by
  unfold derivedIn
  split
  · rename_i h
    simp [h.1, h.2, filter_map, Function.comp_def]
  · rename_i h
    have hnone : ¬(pool = pool' ∧ accountId = accountId') := fun hsame => h ⟨hsame.1.symm, hsame.2.symm⟩
    simp [filter_map, Function.comp_def, hnone]

/-- The calls are made in the order of the ids, from the position on, and none is left out. -/
def Advances (db : Db) (calls : List Derivation) : Prop :=
  ∀ pool accountId, derivedIn calls pool accountId <+: unscannedRows db pool accountId

def Moves (db : Db) (calls : List Derivation) (db' : Db) : Prop :=
  ∀ pool accountId,
    unscannedRows db pool accountId = derivedIn calls pool accountId ++ unscannedRows db' pool accountId

section Order
variable {db db' db'' : Db} {calls more : List Derivation}

theorem Moves.refl (db : Db) : Moves db [] db := fun _ _ => rfl

theorem Moves.trans (h : Moves db calls db') (h' : Moves db' more db'') : Moves db (calls ++ more) db'' := by
  intro pool accountId
  rw [h, h', derivedIn_append, append_assoc]

theorem Moves.advances (h : Moves db calls db') : Advances db calls := by
  intro pool accountId
  rw [h]
  exact prefix_append _ _

theorem Moves.append (h : Moves db calls db') (h' : Advances db' more) : Advances db (calls ++ more) := by
  intro pool accountId
  rw [h, derivedIn_append]
  exact (prefix_append_right_inj _).mpr (h' pool accountId)

end Order

variable {derive : DeriveNote} {db db' : Db}

section Calls
variable {accounts : List AccountKeys} {account : AccountKeys} {pool quota scanned : Nat}

theorem attempted_isPrefix (rows : List PoolCommitment) : attempted derive account rows <+: rows := by
  induction rows with
  | nil => exact prefix_refl _
  | cons row rest ih =>
    unfold attempted
    split
    · simp
    · exact cons_prefix_cons.mpr ⟨rfl, ih⟩

variable {rows : List PoolCommitment}

theorem attempted_of_ok {notes notes' : Table UserNote UserNote.conflict}
    (h : scanRows derive db pool account rows notes = .ok notes') : attempted derive account rows = rows := by
  induction rows generalizing notes with
  | nil => rfl
  | cons row rest ih =>
    unfold scanRows at h
    unfold attempted
    split at h
    · cases h
    · rename_i hderive
      rw [hderive, ih h]
    · rename_i hderive
      rw [hderive, ih h]

variable {e : StorageError}

theorem attempted_of_error {notes : Table UserNote UserNote.conflict}
    (h : scanRows derive db pool account rows notes = .error e) :
    attempted derive account rows ≠ [] := by
  cases rows with
  | nil => cases h
  | cons row rest =>
    unfold attempted
    split <;> exact cons_ne_nil _ _

theorem accountCalls_eq {last : Nat} (h : db.accountCommitmentScan pool account.accountId = some last) :
    accountCalls derive pool quota account db =
      (attempted derive account (nextCommitments db pool quota account)).map
        fun row => ⟨pool, account.accountId, row⟩ := by
  unfold accountCalls nextCommitments position
  rw [h]
  rfl

theorem nextCommitments_eq (db : Db) (pool quota : Nat) (account : AccountKeys) :
    nextCommitments db pool quota account =
      (unscannedRows db pool account.accountId).take (min quota accountChunk) := rfl

theorem moves_chunk (db : Db) (userNotes : Table UserNote UserNote.conflict) (pool quota : Nat)
    (account : AccountKeys) :
    Moves db ((nextCommitments db pool quota account).map fun row => ⟨pool, account.accountId, row⟩)
      { db with
        userNotes
        accountCommitmentScan := setScan db.accountCommitmentScan pool account.accountId
          (highest PoolCommitment.id (position db pool account.accountId)
            (nextCommitments db pool quota account)) } := by
  intro pool' accountId'
  rw [derivedIn_map]
  unfold unscannedRows
  rw [position_setScan]
  split
  · rename_i h
    rw [h.1, h.2]
    exact filter_page db.poolCommitments.sorted
  · rfl

theorem accountCalls_ok (h : scanAccount derive pool quota account db = .ok (scanned, db')) :
    (accountCalls derive pool quota account db).length = scanned ∧ scanned ≤ quota ∧
      Moves db (accountCalls derive pool quota account db) db' ∧
      ∀ accountId, (db.accountCommitmentScan pool accountId).isSome →
        (db'.accountCommitmentScan pool accountId).isSome := by
  obtain ⟨hscanned, hopen, userNotes, hrows, rfl⟩ := scanAccount_ok h
  obtain ⟨last, hlast⟩ := Option.isSome_iff_exists.mp hopen
  rw [accountCalls_eq hlast, attempted_of_ok hrows, length_map]
  refine ⟨hscanned.symm, ?_, moves_chunk db userNotes pool quota account, fun _ hsome => setScan_isSome (.inr hsome)⟩
  rw [hscanned, nextCommitments_eq]
  exact (length_take_le _ _).trans (Nat.min_le_left _ _)

/-- What a part of a scan does when it fails: it has derived something, and rolls back. -/
structure Failed (db : Db) (calls : List Derivation) (quota : Nat) : Prop where
  length_le : calls.length ≤ quota
  ne_nil : calls ≠ []
  advances : Advances db calls

theorem accountCalls_error (hopen : (db.accountCommitmentScan pool account.accountId).isSome)
    (h : scanAccount derive pool quota account db = .error e) :
    Failed db (accountCalls derive pool quota account db) quota := by
  obtain ⟨last, hlast⟩ := Option.isSome_iff_exists.mp hopen
  have hattempted : attempted derive account (nextCommitments db pool quota account) <+:
      nextCommitments db pool quota account := attempted_isPrefix _
  rw [accountCalls_eq hlast]
  constructor
  · have hlength := hattempted.length_le
    rw [nextCommitments_eq] at hlength
    rw [length_map]
    exact (hlength.trans (length_take_le _ _)).trans (Nat.min_le_left _ _)
  · rw [Ne, map_eq_nil_iff]
    cases hrows : scanRows derive db pool account (nextCommitments db pool quota account) db.userNotes with
    | error e => exact attempted_of_error hrows
    | ok notes =>
      obtain ⟨db', hok⟩ := scanAccount_of_rows hlast hrows
      rw [h] at hok
      cases hok
  · intro pool' accountId'
    rw [derivedIn_map]
    split
    · rename_i hsame
      rw [hsame.1, hsame.2]
      exact hattempted.trans <| take_prefix _ _
    · exact nil_prefix

variable {call : Derivation}

theorem mem_accountCalls (h : call ∈ accountCalls derive pool quota account db) :
    call.accountId = account.accountId := by
  unfold accountCalls at h
  split at h
  · cases h
  · obtain ⟨row, -, rfl⟩ := mem_map.mp h
    rfl

theorem Failed.after {calls more : List Derivation} {quota' : Nat} (h : Failed db' more quota')
    (hmoves : Moves db calls db') (hquota : quota' + calls.length ≤ quota) : Failed db (calls ++ more) quota where
  length_le := by
    have hlength := h.length_le
    rw [length_append]
    omega
  ne_nil := by simp [h.ne_nil]
  advances := hmoves.append h.advances

variable {todo : List AccountKeys}

theorem cycleCalls_ok {quota' : Nat} {progressed progressed' : Bool}
    (h : scanCycle derive pool todo quota progressed db = .ok (quota', progressed', db')) :
    quota' + (cycleCalls derive pool todo quota db).length = quota ∧
      progressed' = (progressed || !(cycleCalls derive pool todo quota db).isEmpty) ∧
      Moves db (cycleCalls derive pool todo quota db) db' ∧
      ∀ accountId, (db.accountCommitmentScan pool accountId).isSome →
        (db'.accountCommitmentScan pool accountId).isSome := by
  induction todo generalizing quota progressed db with
  | nil =>
    cases h
    exact ⟨rfl, by simp [cycleCalls], .refl _, fun _ => id⟩
  | cons account rest ih =>
    unfold scanCycle at h
    unfold cycleCalls
    split at h
    · rename_i hzero
      cases h
      rw [if_pos hzero]
      exact ⟨rfl, by simp, .refl _, fun _ => id⟩
    · rename_i hpos
      obtain ⟨⟨scanned, db₁⟩, hscan, h⟩ := bind_eq_ok h
      obtain ⟨hlength, hle, hmoves, hopen⟩ := accountCalls_ok hscan
      obtain ⟨hquota, hflag, hmoves', hopen'⟩ := ih h
      rw [if_neg hpos, hscan]
      dsimp only
      refine ⟨?_, ?_, hmoves.trans hmoves', fun accountId hsome => hopen' _ (hopen _ hsome)⟩
      · rw [length_append]
        omega
      · rw [hflag]
        cases hcalls : accountCalls derive pool quota account db with
        | nil => simp [← hlength, hcalls]
        | cons first others => simp [← hlength, hcalls]

theorem cycleCalls_error {progressed : Bool}
    (hopen : ∀ account ∈ todo, (db.accountCommitmentScan pool account.accountId).isSome)
    (h : scanCycle derive pool todo quota progressed db = .error e) :
    Failed db (cycleCalls derive pool todo quota db) quota := by
  induction todo generalizing quota progressed db with
  | nil => cases h
  | cons account rest ih =>
    unfold scanCycle at h
    unfold cycleCalls
    split at h
    · cases h
    · rename_i hpos
      rw [if_neg hpos]
      cases hscan : scanAccount derive pool quota account db with
      | error e' =>
        rw [append_nil]
        exact accountCalls_error (hopen _ mem_cons_self) hscan
      | ok result =>
        obtain ⟨scanned, db₁⟩ := result
        rw [hscan] at h
        obtain ⟨hlength, hle, hmoves, hkept⟩ := accountCalls_ok hscan
        have hrest := ih (fun a ha => hkept _ (hopen a (mem_cons_of_mem _ ha))) h
        exact hrest.after hmoves (by omega)

variable {rounds : Nat}

theorem loopCalls_ok {did did' : Bool} (hrounds : quota ≤ rounds)
    (h : scanLoop derive accounts pool rounds quota did db = .ok (did', db')) :
    (loopCalls derive accounts pool rounds quota db).length ≤ quota ∧
      did' = (did || !(loopCalls derive accounts pool rounds quota db).isEmpty) ∧
      Moves db (loopCalls derive accounts pool rounds quota db) db' := by
  induction rounds generalizing quota did db with
  | zero =>
    cases h
    exact ⟨Nat.zero_le _, by simp [loopCalls], .refl _⟩
  | succ rounds ih =>
    unfold scanLoop at h
    unfold loopCalls
    split at h
    · rename_i hzero
      cases h
      rw [if_pos hzero]
      exact ⟨Nat.zero_le _, by simp, .refl _⟩
    · rename_i hpos
      obtain ⟨⟨quota₁, progressed, db₁⟩, hcycle, h⟩ := bind_eq_ok h
      obtain ⟨hquota, hflag, hmoves, -⟩ := cycleCalls_ok hcycle
      rw [if_neg hpos, hcycle]
      dsimp only at h ⊢
      split at h
      · rename_i hprogressed
        have hsome : cycleCalls derive pool accounts quota db ≠ [] := by simpa [hprogressed] using hflag
        have hpositive := length_pos_iff.mpr hsome
        obtain ⟨hlength, hdid, hmoves'⟩ := ih (by omega) h
        rw [if_pos hprogressed]
        refine ⟨?_, ?_, hmoves.trans hmoves'⟩
        · rw [length_append]
          omega
        · simp [hdid, hsome]
      · rename_i hidle
        cases h
        rw [if_neg hidle, append_nil]
        have hnil : cycleCalls derive pool accounts quota db = [] := by simpa [hidle] using hflag
        rw [hnil]
        rw [hnil] at hmoves
        exact ⟨Nat.zero_le _, by simp, hmoves⟩

theorem loopCalls_error {did : Bool}
    (hopen : ∀ account ∈ accounts, (db.accountCommitmentScan pool account.accountId).isSome)
    (h : scanLoop derive accounts pool rounds quota did db = .error e) :
    Failed db (loopCalls derive accounts pool rounds quota db) quota := by
  induction rounds generalizing quota did db with
  | zero => cases h
  | succ rounds ih =>
    unfold scanLoop at h
    unfold loopCalls
    split at h
    · cases h
    · rename_i hpos
      rw [if_neg hpos]
      cases hcycle : scanCycle derive pool accounts quota false db with
      | error e' =>
        dsimp only
        rw [append_nil]
        exact cycleCalls_error hopen hcycle
      | ok result =>
        obtain ⟨quota₁, progressed, db₁⟩ := result
        rw [hcycle] at h
        obtain ⟨hquota, -, hmoves, hkept⟩ := cycleCalls_ok hcycle
        replace h : (if progressed then scanLoop derive accounts pool rounds quota₁ true db₁
          else pure (did, db₁)) = .error e := h
        split at h
        · rename_i hprogressed
          dsimp only
          rw [if_pos hprogressed]
          exact (ih (fun a ha => hkept _ (hopen a ha)) h).after hmoves (by omega)
        · cases h

theorem moves_openScans (accounts : List AccountKeys) (pool : Nat) (db : Db) :
    Moves db [] (accounts.foldl (openScan pool) db) := by
  intro pool' accountId
  have hposition := position_openScans accounts db pool pool' accountId
  obtain ⟨scan, hscan⟩ := openScans_frame accounts db pool
  unfold unscannedRows
  rw [hposition, hscan]
  rfl

theorem poolCalls_ok {did : Bool} (h : scanPool derive accounts pool quota db = .ok (did, db')) :
    (poolCalls derive accounts pool quota db).length ≤ quota ∧
      did = !(poolCalls derive accounts pool quota db).isEmpty ∧
      Moves db (poolCalls derive accounts pool quota db) db' := by
  obtain ⟨hlength, hdid, hmoves⟩ := loopCalls_ok (le_refl quota) h
  exact ⟨hlength, hdid, (moves_openScans accounts pool db).trans hmoves⟩

theorem poolCalls_error (h : scanPool derive accounts pool quota db = .error e) :
    Failed db (poolCalls derive accounts pool quota db) quota := by
  have hfailed := loopCalls_error (fun account haccount => openScans_isSome (.inl ⟨account, haccount, rfl⟩)) h
  exact hfailed.after (moves_openScans accounts pool db) (le_refl _)

/-- What a scan over pools does, whether it succeeds or not. -/
structure ScanSpec (db : Db) (calls kept : List Derivation) (budget : Nat) (result : Except StorageError Bool × Db) :
    Prop where
  length_le : calls.length ≤ budget
  advances : Advances db calls
  moves : Moves db kept result.2
  ok : ∀ did, result.1 = .ok did → kept = calls ∧ did = !calls.isEmpty
  error : ∀ e, result.1 = .error e → calls ≠ []

theorem scanPools_spec (derive : DeriveNote) (accounts : List AccountKeys) (pools : List (Nat × Nat)) (db : Db) :
    ScanSpec db (poolsCalls derive accounts pools db) (poolsKept derive accounts pools db)
      (pools.map Prod.snd).sum (scanPools derive accounts pools db) := by
  induction pools generalizing db with
  | nil =>
    refine ⟨Nat.zero_le _, (Moves.refl db).advances, .refl db, ?_, ?_⟩
    · intro did h
      cases h
      exact ⟨rfl, rfl⟩
    · intro e h
      cases h
  | cons entry rest ih =>
    obtain ⟨pool, quota⟩ := entry
    unfold poolsCalls poolsKept scanPools
    rw [map_cons, sum_cons]
    split
    · rename_i hzero
      rw [hzero, zero_add]
      exact ih db
    · cases hpool : scanPool derive accounts pool quota db with
      | error e =>
        have hfailed := poolCalls_error hpool
        rw [bind_of_error (transaction_of_error hpool)]
        dsimp only
        rw [append_nil]
        refine ⟨hfailed.length_le.trans (Nat.le_add_right _ _), hfailed.advances, .refl db, fun _ h => ?_,
          fun _ _ => hfailed.ne_nil⟩
        cases h
      | ok result =>
        obtain ⟨did, db₁⟩ := result
        obtain ⟨hlength, hdid, hmoves⟩ := poolCalls_ok hpool
        have hrest := ih db₁
        have hbudget := hrest.length_le
        rw [bind_of_ok (transaction_of_ok hpool)]
        dsimp only
        cases hscan : scanPools derive accounts rest db₁ with
        | mk outcome db₂ =>
          rw [hscan] at hrest
          have hle : (poolCalls derive accounts pool quota db ++ poolsCalls derive accounts rest db₁).length ≤
              quota + (rest.map Prod.snd).sum := by
            rw [length_append]
            omega
          cases outcome with
          | error e =>
            rw [bind_of_error hscan]
            refine ⟨hle, hmoves.append hrest.advances, hmoves.trans hrest.moves, fun _ h => ?_, fun _ _ => ?_⟩
            · cases h
            · simp [hrest.error e rfl]
          | ok more =>
            rw [bind_of_ok hscan]
            refine ⟨hle, hmoves.append hrest.advances, hmoves.trans hrest.moves, fun did' h => ?_, fun _ h => ?_⟩
            · cases h
              obtain ⟨hkept, hmore⟩ := hrest.ok more rfl
              rw [hkept, hdid, hmore]
              cases poolCalls derive accounts pool quota db <;> exact ⟨rfl, rfl⟩
            · cases h

theorem mem_cycleCalls
    (h : call ∈ cycleCalls derive pool todo quota db) : ∃ account ∈ todo, call.accountId = account.accountId := by
  induction todo generalizing quota db with
  | nil => cases h
  | cons account rest ih =>
    unfold cycleCalls at h
    split at h
    · cases h
    · rcases mem_append.mp h with hfirst | hrest
      · exact ⟨account, mem_cons_self, mem_accountCalls hfirst⟩
      · split at hrest
        · cases hrest
        · obtain ⟨other, hother, hid⟩ := ih hrest
          exact ⟨other, mem_cons_of_mem _ hother, hid⟩

theorem mem_loopCalls (h : call ∈ loopCalls derive accounts pool rounds quota db) :
    ∃ account ∈ accounts, call.accountId = account.accountId := by
  induction rounds generalizing quota db with
  | zero => cases h
  | succ rounds ih =>
    unfold loopCalls at h
    split at h
    · cases h
    · rcases mem_append.mp h with hfirst | hrest
      · exact mem_cycleCalls hfirst
      · split at hrest
        · cases hrest
        · split at hrest
          · exact ih hrest
          · cases hrest

theorem mem_poolsCalls {pools : List (Nat × Nat)}
    (h : call ∈ poolsCalls derive accounts pools db) : ∃ account ∈ accounts, call.accountId = account.accountId := by
  induction pools generalizing db with
  | nil => cases h
  | cons entry rest ih =>
    obtain ⟨pool, quota⟩ := entry
    unfold poolsCalls at h
    split at h
    · exact ih h
    · rcases mem_append.mp h with hfirst | hrest
      · exact mem_loopCalls hfirst
      · split at hrest
        · cases hrest
        · exact ih hrest

end Calls

theorem sum_modify {quotas : List Nat} {i : Nat} (h : i < quotas.length) :
    (quotas.modify i (· + 1)).sum = quotas.sum + 1 := by
  induction quotas generalizing i with
  | nil => cases h
  | cons quota rest ih =>
    cases i with
    | zero =>
      rw [modify_zero_cons, sum_cons, sum_cons]
      omega
    | succ i =>
      rw [modify_succ_cons, sum_cons, sum_cons, ih (Nat.lt_of_succ_lt_succ h)]
      omega

theorem distribute_sum {count : Nat} (remainder : Nat) {nextPool : Nat} {quotas : List Nat}
    (hlength : quotas.length = count) (hnext : nextPool < count) :
    (distribute count remainder nextPool quotas).sum = quotas.sum + remainder := by
  induction remainder generalizing nextPool quotas with
  | zero => rfl
  | succ remainder ih =>
    have hmod : (nextPool + 1) % count < count := Nat.mod_lt _ (by omega)
    rw [distribute, ih ((length_modify _ _ _).trans hlength) hmod, sum_modify (by omega)]
    omega

theorem quotas_sum (totalLimit : Nat) {count : Nat} (hcount : 0 < count) :
    (quotas totalLimit count).sum = max totalLimit count := by
  unfold quotas
  dsimp only
  rw [distribute_sum _ length_replicate hcount, sum_replicate, smul_eq_mul]
  split
  · rename_i hle
    have hbase : totalLimit / count * count ≤ totalLimit := Nat.div_mul_le_self _ _
    rw [mul_comm count, Nat.add_sub_cancel' hbase]
    omega
  · omega

variable {call : Derivation}

section Scan
variable {totalLimit : Nat}

theorem scan_eq (hcount : getAccountsWithLatestKeypairs db = [] ∨ (scanPoolIds db).length < 2 ^ 32) :
    scanCommitmentsForUserNotes totalLimit derive db =
      scanPools derive (getAccountsWithLatestKeypairs db) (scanPlan totalLimit db) db := by
  unfold scanCommitmentsForUserNotes scanPlan
  unfold scanPoolIds at hcount ⊢
  dsimp only
  split
  · rfl
  · rename_i hsome
    push Not at hsome
    have hlt := hcount.resolve_left hsome.1
    rw [if_neg (by omega), if_neg (by omega)]

theorem scan_tooMany (hlimit : 0 < totalLimit) (haccounts : getAccountsWithLatestKeypairs db ≠ [])
    (hcount : 2 ^ 32 ≤ (scanPoolIds db).length) :
    scanCommitmentsForUserNotes totalLimit derive db = (.error .poolCount, db) ∧ scanPlan totalLimit db = [] := by
  have hsome : ¬(getAccountsWithLatestKeypairs db = [] ∨ totalLimit = 0 ∨ scanPoolIds db = []) := by
    rintro (h | h | h)
    · exact haccounts h
    · omega
    · rw [h] at hcount
      cases hcount
  constructor
  · unfold scanCommitmentsForUserNotes
    unfold scanPoolIds at hsome hcount
    dsimp only
    rw [if_neg hsome, if_pos hcount]
  · rw [scanPlan, if_neg hsome, if_pos hcount]

theorem scanPlan_budget (totalLimit : Nat) (db : Db) :
    ((scanPlan totalLimit db).map Prod.snd).sum ≤ max totalLimit (scanPoolIds db).length := by
  unfold scanPlan
  split
  · exact Nat.zero_le _
  · rename_i hsome
    push Not at hsome
    split
    · exact Nat.zero_le _
    · rw [map_snd_zip (quotas_length _ _).le, quotas_sum totalLimit (length_pos_iff.mpr hsome.2.2)]

theorem scan_spec (totalLimit : Nat) (derive : DeriveNote)
    (hcount : getAccountsWithLatestKeypairs db = [] ∨ (scanPoolIds db).length < 2 ^ 32) :
    ScanSpec db (scanCalls totalLimit derive db) (scanKept totalLimit derive db)
      (max totalLimit (scanPoolIds db).length) (scanCommitmentsForUserNotes totalLimit derive db) := by
  have hspec := scanPools_spec derive (getAccountsWithLatestKeypairs db) (scanPlan totalLimit db) db
  rw [scan_eq hcount]
  exact ⟨hspec.length_le.trans (scanPlan_budget totalLimit db), hspec.advances, hspec.moves, hspec.ok, hspec.error⟩

theorem mem_unscannedRows {calls : List Derivation} (h : Advances db calls) (hcall : call ∈ calls) :
    call.row ∈ unscannedRows db call.pool call.accountId := by
  apply (h call.pool call.accountId).subset
  exact mem_map.mpr ⟨call, mem_filter.mpr ⟨hcall, by simp⟩, rfl⟩

theorem scan_false_iff (hlimit : 0 < totalLimit) :
    (scanCommitmentsForUserNotes totalLimit derive db).1 = .ok false ↔
      (∀ account ∈ getAccountsWithLatestKeypairs db, ∀ pool, unscannedRows db pool account.accountId = []) ∧
        (getAccountsWithLatestKeypairs db = [] ∨ (scanPoolIds db).length < 2 ^ 32) := by
  by_cases hcount : getAccountsWithLatestKeypairs db = [] ∨ (scanPoolIds db).length < 2 ^ 32
  · have hspec := scan_spec totalLimit derive hcount
    rw [and_iff_left hcount]
    constructor
    · intro hfalse account haccount pool
      obtain ⟨hkept, hempty⟩ := hspec.ok false hfalse
      have hnil : scanKept totalLimit derive db = [] := by simpa [← hkept] using hempty
      have hmoves := hspec.moves pool account.accountId
      rw [hnil, derivedIn_nil, nil_append] at hmoves
      rw [hmoves, unscannedRows, filter_eq_nil_iff]
      intro row hrow hbehind
      rw [Bool.and_eq_true, decide_eq_true_iff] at hbehind
      have hle := scan_false hlimit hfalse account haccount row hrow pool (beq_iff_eq.mp hbehind.1)
      omega
    · intro hnone
      have hcalls : scanCalls totalLimit derive db = [] := by
        rw [eq_nil_iff_forall_not_mem]
        intro call hcall
        have hrow := mem_unscannedRows hspec.advances hcall
        obtain ⟨account, haccount, hid⟩ := mem_poolsCalls hcall
        rw [hid, hnone account haccount] at hrow
        cases hrow
      cases hresult : (scanCommitmentsForUserNotes totalLimit derive db).1 with
      | error e => exact absurd hcalls (hspec.error e hresult)
      | ok did =>
        rw [(hspec.ok did hresult).2, hcalls]
        rfl
  · rw [iff_false_right (fun h => hcount h.2)]
    push Not at hcount
    rw [(scan_tooMany hlimit hcount.1 hcount.2).1]
    exact nofun

theorem scan_moves (totalLimit : Nat) (derive : DeriveNote) (db : Db) :
    Moves db (scanKept totalLimit derive db) (scanCommitmentsForUserNotes totalLimit derive db).2 ∧
      Advances db (scanCalls totalLimit derive db) ∧
      (scanCalls totalLimit derive db).length ≤ max totalLimit (scanPoolIds db).length := by
  by_cases hcount : getAccountsWithLatestKeypairs db = [] ∨ (scanPoolIds db).length < 2 ^ 32
  · have hspec := scan_spec totalLimit derive hcount
    exact ⟨hspec.moves, hspec.advances, hspec.length_le⟩
  · have hidle : (scanCommitmentsForUserNotes totalLimit derive db).2 = db ∧ scanPlan totalLimit db = [] := by
      push Not at hcount
      rcases Nat.eq_zero_or_pos totalLimit with rfl | hlimit
      · simp [scanCommitmentsForUserNotes, scanPlan]
      · rw [(scan_tooMany hlimit hcount.1 hcount.2).1]
        exact ⟨rfl, (@scan_tooMany derive _ _ hlimit hcount.1 hcount.2).2⟩
    rw [hidle.1, scanKept, scanCalls, hidle.2]
    exact ⟨.refl db, (Moves.refl db).advances, Nat.zero_le _⟩

end Scan

def Call.kept : Call → Db → List Derivation
  | .scan totalLimit derive, db => scanKept totalLimit derive db
  | _, _ => []

def keptOver : List Call → Db → List Derivation
  | [], _ => []
  | call :: rest, db => call.kept db ++ keptOver rest (call.run db)

section Run
variable {kept : List Derivation}

/-- Positions move on, and events stay with their contracts. -/
structure Onward (db db' : Db) : Prop where
  positions : ∀ pool accountId, position db pool accountId ≤ position db' pool accountId
  events : db.rawContractEvents.rows <+: db'.rawContractEvents.rows

theorem Onward.of_eq (hscan : db'.accountCommitmentScan = db.accountCommitmentScan)
    (hevents : db.rawContractEvents.rows <+: db'.rawContractEvents.rows) : Onward db db' := by
  refine ⟨fun pool accountId => ?_, hevents⟩
  rw [position, position, hscan]

theorem Onward.trans {db'' : Db} (h : Onward db db') (h' : Onward db' db'') : Onward db db'' :=
  ⟨fun pool accountId => (h.positions pool accountId).trans (h'.positions pool accountId), h.events.trans h'.events⟩

theorem Call.onward (call : Call) (db : Db) : Onward db (call.run db) := by
  have hrefl : Onward db db := .of_eq rfl (prefix_refl _)
  cases call with
  | saveEvents events =>
    exact saveEventsBatch_keeps (fun d event _ h => h.trans (.of_eq rfl (saveEvent_isPrefix d event))) hrefl
  | saveKeypairs => exact .of_eq rfl (prefix_refl _)
  | saveCommitments events =>
    refine saveBatch_keeps (fun d event d' _ hsave h => h.trans ?_) hrefl
    obtain rfl | ⟨-, _, -, rfl⟩ := saveCommitmentEvent_ok hsave <;> exact .of_eq rfl (prefix_refl _)
  | saveNullifiers events =>
    refine saveBatch_keeps (fun d event d' _ hsave h => h.trans ?_) hrefl
    obtain rfl | ⟨-, _, -, rfl⟩ := saveNullifierEvent_ok hsave <;> exact .of_eq rfl (prefix_refl _)
  | scan totalLimit derive =>
    refine scan_keeps (fun _ _ d' hstep h => h.trans ⟨hstep.position_le, ?_⟩) hrefl
    obtain ⟨_, _, rfl⟩ := hstep.frame
    exact prefix_refl _
  | reconcile limit =>
    obtain ⟨_, _, hframe⟩ := reconcile_frame limit db
    rw [Call.run, hframe]
    exact .of_eq rfl (prefix_refl _)

structure FromHere (db : Db) (kept : List Derivation) : Prop where
  distinct : kept.Pairwise fun a b => (a.accountId, a.row) ≠ (b.accountId, b.row)
  behind : ∀ call ∈ kept, position db call.pool call.accountId < call.row.id
  pool : ∀ call ∈ kept, ∀ pool, db.contractOf call.row.eventId = some pool → pool = call.pool

theorem unscannedRows_sorted (db : Db) (pool accountId : Nat) :
    (unscannedRows db pool accountId).Pairwise fun a b => a.id < b.id :=
  db.poolCommitments.sorted.filter _

theorem Advances.mem (h : Advances db kept) (hcall : call ∈ kept) :
    call.row ∈ db.poolCommitments.rows ∧ db.contractOf call.row.eventId = some call.pool ∧
      position db call.pool call.accountId < call.row.id := by
  have hrow := mem_filter.mp (mem_unscannedRows h hcall)
  rw [Bool.and_eq_true, decide_eq_true_iff] at hrow
  exact ⟨hrow.1, beq_iff_eq.mp hrow.2.1, hrow.2.2⟩

theorem Advances.fromHere (h : Advances db kept) : FromHere db kept := by
  refine ⟨?_, fun call hcall => (h.mem hcall).2.2, ?_⟩
  · rw [pairwise_iff_forall_sublist]
    intro a b hsub hsame
    obtain ⟨haccount, hrow⟩ := Prod.mk.inj hsame
    have hpools : a.pool = b.pool := by
      have ha := (h.mem (hsub.subset (show a ∈ [a, b] by simp))).2.1
      rw [hrow, (h.mem (hsub.subset (show b ∈ [a, b] by simp))).2.1] at ha
      exact (Option.some.inj ha).symm
    -- both stand in the list of one pool and account, which is sorted
    have hpair : [a.row, b.row].Sublist (derivedIn kept b.pool b.accountId) := by
      have hfilter := (hsub.filter fun call => call.pool == b.pool && call.accountId == b.accountId).map (·.row)
      simpa [derivedIn, hpools, haccount] using hfilter
    have hsorted := (unscannedRows_sorted db b.pool b.accountId).sublist (hpair.trans (h b.pool b.accountId).sublist)
    rw [pairwise_pair, hrow] at hsorted
    omega
  · intro call hcall pool hcontract
    rw [(h.mem hcall).2.1] at hcontract
    exact (Option.some.inj hcontract).symm

theorem Moves.le_position (h : Moves db kept db') (hrows : db'.poolCommitments = db.poolCommitments)
    (hevents : db'.rawContractEvents = db.rawContractEvents) (hcall : call ∈ kept) :
    call.row.id ≤ position db' call.pool call.accountId := by
  obtain ⟨hmem, hcontract, -⟩ := h.advances.mem hcall
  have hderived : call.row ∈ derivedIn kept call.pool call.accountId :=
    mem_map.mpr ⟨call, mem_filter.mpr ⟨hcall, by simp⟩, rfl⟩
  have hsorted := unscannedRows_sorted db call.pool call.accountId
  rw [h, pairwise_append] at hsorted
  by_contra hlt
  have hstill : call.row ∈ unscannedRows db' call.pool call.accountId := by
    have hcontract' : db'.contractOf call.row.eventId = some call.pool := by
      rwa [Db.contractOf, Db.event?, hevents]
    rw [unscannedRows, mem_filter, hrows, inPool, hcontract']
    exact ⟨hmem, by simpa using hlt⟩
  have hself := hsorted.2.2 call.row hderived call.row hstill
  omega

theorem Call.kept_spec (call : Call) (db : Db) : Advances db (call.kept db) ∧
    ∀ derivation ∈ call.kept db, derivation.row.id ≤ position (call.run db) derivation.pool derivation.accountId := by
  cases call with
  | scan totalLimit derive =>
    have hmoves := (scan_moves totalLimit derive db).1
    obtain ⟨_, _, hframe⟩ := scan_frame totalLimit derive db
    exact ⟨hmoves.advances, fun _ => hmoves.le_position (by rw [hframe]) (by rw [hframe])⟩
  | _ => exact ⟨(Moves.refl db).advances, nofun⟩

theorem keptOver_fromHere (calls : List Call) (db : Db) : FromHere db (keptOver calls db) := by
  induction calls generalizing db with
  | nil => exact (Moves.refl db).advances.fromHere
  | cons call rest ih =>
    have hnow := call.kept_spec db
    have hfirst := hnow.1.fromHere
    have hrest := ih (call.run db)
    have honward := call.onward db
    refine ⟨pairwise_append.mpr ⟨hfirst.distinct, hrest.distinct, ?_⟩, ?_, ?_⟩
    · intro a ha b hb hsame
      obtain ⟨haccount, hrow⟩ := Prod.mk.inj hsame
      have hcontract := contractOf_of_isPrefix honward.events (hnow.1.mem ha).2.1
      rw [hrow] at hcontract
      have hpool := hrest.pool b hb a.pool hcontract
      have hle := hnow.2 a ha
      have hlt := hrest.behind b hb
      rw [haccount, hrow, hpool] at hle
      omega
    · intro derivation hmem
      rcases mem_append.mp hmem with hmem | hmem
      · exact hfirst.behind derivation hmem
      · exact (honward.positions _ _).trans_lt (hrest.behind derivation hmem)
    · intro derivation hmem pool hcontract
      rcases mem_append.mp hmem with hmem | hmem
      · exact hfirst.pool derivation hmem pool hcontract
      · exact hrest.pool derivation hmem pool (contractOf_of_isPrefix honward.events hcontract)

/-- One call stays within its budget, derives what is behind the positions in the order of the
ids and moves the positions over it, and reports no progress exactly where there is nothing to
derive; over all calls no pair of account and commitment is derived twice in transactions that
are committed. -/
theorem scan_budget_and_progress {totalLimit : Nat} (hlimit : 0 < totalLimit) (derive : DeriveNote) (db : Db) :
    (scanCalls totalLimit derive db).length ≤ max totalLimit (scanPoolIds db).length ∧
      (∀ pool accountId, derivedIn (scanCalls totalLimit derive db) pool accountId <+:
        unscannedRows db pool accountId) ∧
      (∀ pool accountId, unscannedRows db pool accountId =
        derivedIn (scanKept totalLimit derive db) pool accountId ++
          unscannedRows (scanCommitmentsForUserNotes totalLimit derive db).2 pool accountId) ∧
      ((scanCommitmentsForUserNotes totalLimit derive db).1 = .ok false ↔
        (∀ account ∈ getAccountsWithLatestKeypairs db, ∀ pool, unscannedRows db pool account.accountId = []) ∧
          (getAccountsWithLatestKeypairs db = [] ∨ (scanPoolIds db).length < 2 ^ 32)) ∧
      (∀ did, (scanCommitmentsForUserNotes totalLimit derive db).1 = .ok did →
        scanKept totalLimit derive db = scanCalls totalLimit derive db) ∧
      ∀ calls, ((keptOver calls .fresh).map fun call => (call.accountId, call.row)).Nodup := by
  obtain ⟨hmoves, hadvances, hlength⟩ := scan_moves totalLimit derive db
  refine ⟨hlength, hadvances, hmoves, scan_false_iff hlimit, ?_, ?_⟩
  · intro did hok
    by_cases hcount : getAccountsWithLatestKeypairs db = [] ∨ (scanPoolIds db).length < 2 ^ 32
    · exact ((scan_spec totalLimit derive hcount).ok did hok).1
    · push Not at hcount
      rw [(scan_tooMany hlimit hcount.1 hcount.2).1] at hok
      cases hok
  · intro calls
    exact pairwise_map.mpr (keptOver_fromHere calls .fresh).distinct

end Run

/-! A derivation that fails is made again, and a wallet may have too many pools. -/

section Sample

def unreadable : DeriveNote := fun _ _ => .error .encryptedDataTooShort

def poolName (i : Nat) : String := String.ofList (List.replicate i 'p')

theorem poolName_inj {i j : Nat} (h : poolName i = poolName j) : i = j := by
  simpa using congrArg List.length (String.ofList_injective h)

def manyEvents (n : Nat) : Table RawContractEvent RawContractEvent.conflict where
  rows := (List.range n).map fun i => ⟨poolName i, 0, i + 1, [], []⟩
  unique := by
    rw [pairwise_map]
    exact nodup_range.imp fun hne hname => hne (poolName_inj hname)

def manyCommitments (n : Nat) (hn : n ≤ bn256Modulus) :
    NumberedTable PoolCommitment PoolCommitment.id PoolCommitment.conflict where
  rows := (List.range n).map fun i => ⟨i + 1, (i : F), 0, [], poolName i⟩
  unique := by
    rw [pairwise_map]
    apply nodup_range.imp_of_mem
    rintro i j hi hj hne (hsame | hname)
    · rw [mem_range] at hi hj
      have hval := congrArg ZMod.val hsame
      rw [val_natCast_of_lt (by omega), val_natCast_of_lt (by omega)] at hval
      exact hne hval
    · exact hne (poolName_inj hname)
  numbered := by
    simp [range'_eq_map_range, Function.comp_def, add_comm]

/-- One commitment in each of `n` pools, all of them scanned. -/
def manyPools (n : Nat) (hn : n ≤ bn256Modulus) : Db :=
  { sampleArrived with
    rawContractEvents := manyEvents n
    poolCommitments := manyCommitments n hn
    accountCommitmentScan := fun _ _ => some n }

def noNotes : DeriveNote := fun _ _ => .ok none

def arrivedPools : Db := { manyPools 3 (by decide) with accountCommitmentScan := fun _ _ => none }

/-- A budget of one is raised to the number of the pools, and all that has arrived is derived. -/
theorem scan_budget_sample : (scanCalls 1 noNotes arrivedPools).length ≤ 3 ∧
    (scanCommitmentsForUserNotes 1 noNotes arrivedPools).1 = .ok true ∧
    (derivedIn (scanKept 1 noNotes arrivedPools) 3 1).map PoolCommitment.id = [3] ∧
    unscannedRows (scanCommitmentsForUserNotes 1 noNotes arrivedPools).2 3 1 = [] := by
  obtain ⟨hlength, -, hmoves, -, hkept, -⟩ := scan_budget_and_progress Nat.one_pos noNotes arrivedPools
  have hpools : (scanPoolIds arrivedPools).length = 3 := by decide +kernel
  have hok : (scanCommitmentsForUserNotes 1 noNotes arrivedPools).1 = .ok true := by decide +kernel
  have hderived : (derivedIn (scanCalls 1 noNotes arrivedPools) 3 1).map PoolCommitment.id = [3] := by
    decide +kernel
  have hrows : (unscannedRows arrivedPools 3 1).length = 1 := by decide +kernel
  rw [hpools] at hlength
  rw [← hkept true hok] at hderived
  refine ⟨hlength, hok, hderived, length_eq_zero_iff.mp ?_⟩
  rw [hmoves 3 1, length_append, ← length_map, hderived] at hrows
  exact Nat.succ.inj ((add_comm _ _).trans hrows)

section
variable (n : Nat) (hn : n ≤ bn256Modulus)
include n hn

theorem scanPoolIds_manyPools : (scanPoolIds (manyPools n hn)).length = n := by
  have hcontracts : (((manyPools n hn).poolCommitments.rows.map (·.eventId)).filterMap
      (manyPools n hn).contractOf) = (List.range n).map (· + 1) := by
    change (((List.range n).map _).map _).filterMap _ = _
    rw [map_map, filterMap_map, ← filterMap_eq_map]
    apply filterMap_congr
    intro i hi
    have hrow : (⟨poolName i, 0, i + 1, [], []⟩ : RawContractEvent) ∈ (manyPools n hn).rawContractEvents.rows :=
      mem_map_of_mem hi
    exact contractOf_of_mem hrow
  have hnodup : ((List.range n).map (· + 1)).Nodup := nodup_range.map (add_left_injective 1)
  unfold scanPoolIds poolIds
  rw [length_insertionSort, hcontracts, hnodup.dedup, length_map, length_range]

theorem unscannedRows_manyPools (pool accountId : Nat) :
    unscannedRows (manyPools n hn) pool accountId = [] := by
  rw [unscannedRows, filter_eq_nil_iff]
  intro row hrow
  have hle : row.id ≤ n := by
    simpa [manyPools, manyCommitments] using ((manyPools n hn).poolCommitments.rowid_le hrow).2
  have hposition : position (manyPools n hn) pool accountId = n := rfl
  simp [hposition, hle]

theorem scan_manyPools (hmany : 2 ^ 32 ≤ n) :
    (scanCommitmentsForUserNotes 50 unreadable (manyPools n hn)).1 = .error .poolCount := by
  have haccounts : getAccountsWithLatestKeypairs (manyPools n hn) ≠ [] := by
    change getAccountsWithLatestKeypairs sampleArrived ≠ []
    decide +kernel
  rw [(scan_tooMany (by decide) haccounts (hmany.trans (scanPoolIds_manyPools n hn).ge)).1]

end

end Sample

theorem derived_again_and_too_many_pools :
    (∃ call ∈ scanCalls 50 unreadable sampleArrived,
        call ∈ scanCalls 50 unreadable (scanCommitmentsForUserNotes 50 unreadable sampleArrived).2) ∧
      ∃ db, (∀ account ∈ getAccountsWithLatestKeypairs db, ∀ pool,
          unscannedRows db pool account.accountId = []) ∧
        (scanCommitmentsForUserNotes 50 unreadable db).1 = .error .poolCount := by
  have hn : 2 ^ 32 ≤ bn256Modulus := by decide
  exact ⟨⟨⟨1, 1, sampleRow⟩, by decide +kernel, by decide +kernel⟩, manyPools (2 ^ 32) hn,
    fun _ _ pool => unscannedRows_manyPools _ hn pool _, scan_manyPools _ hn (le_refl _)⟩

end PrivatePayments.Sdk

import PrivatePayments.Sdk.Processing

/-! When `process_local_state` ends, and when ciphertexts stand in its way. -/
namespace PrivatePayments.Sdk
open Contracts Lib PrivatePayments.System List Method

variable {codec : Codec} {chain : Chain} {P : Permutation} {cipher : Cipher} {derive : DeriveNote}
  {db db' : Db}

section Last

theorem Mirrored.distinct (h : Mirrored codec chain db)
    (hprocessed : ∀ entry ∈ storedEntries chain db, db.unprocessed entry.id = false) :
    Distinct (storedEntries chain db) := by
  have hentries : (storedEntries chain db).Nodup := chain.nodup.filter _
  have hlogged : ∀ entry ∈ storedEntries chain db, entry ∈ chain.log :=
    fun entry hentry => (mem_filter.mp hentry).1
  constructor <;> rw [nodup_filterMap_iff hentries] <;>
    intro entry hentry other hother value hvalue hvalue'
  · have hrow : ∀ e ∈ storedEntries chain db, e.event.commitment? = some value →
        ∃ row ∈ db.poolCommitments.rows, row.commitment = value ∧ row.eventId = e.id := by
      intro e he hsome
      obtain ⟨n, index, output, hevent, rfl⟩ := Published.commitment?_eq_some hsome
      obtain ⟨id, hmem⟩ := h.commitment_row (hlogged e he) (hprocessed e he) hevent
      exact ⟨_, hmem, rfl, rfl⟩
    obtain ⟨row, hmem, hcommitment, hid⟩ := hrow entry hentry hvalue
    obtain ⟨row', hmem', hcommitment', hid'⟩ := hrow other hother hvalue'
    obtain rfl := inj_on_of_nodup_map (commitments_nodup db) hmem hmem' (hcommitment.trans hcommitment'.symm)
    exact chain.entry_eq (hlogged entry hentry) (hlogged other hother) (hid.symm.trans hid')
  · have hrow : ∀ e ∈ storedEntries chain db, e.event.nullifier? = some value →
        ∃ row ∈ db.poolNullifiers.rows, row.nullifier = value ∧ row.eventId = e.id := by
      intro e he hsome
      obtain ⟨n, hevent, rfl⟩ := Published.nullifier?_eq_some hsome
      obtain ⟨id, hmem⟩ := h.nullifier_row (hlogged e he) (hprocessed e he) hevent
      exact ⟨_, hmem, rfl, rfl⟩
    obtain ⟨row, hmem, hnullifier, hid⟩ := hrow entry hentry hvalue
    obtain ⟨row', hmem', hnullifier', hid'⟩ := hrow other hother hvalue'
    obtain rfl := inj_on_of_nodup_map (nullifiers_nodup db) hmem hmem' (hnullifier.trans hnullifier'.symm)
    exact chain.entry_eq (hlogged entry hentry) (hlogged other hother) (hid.symm.trans hid')

theorem scan_pools_lt {totalLimit : Nat} {did : Bool} (hlimit : totalLimit ≠ 0)
    (haccounts : getAccountsWithLatestKeypairs db ≠ [])
    (h : scanCommitmentsForUserNotes totalLimit derive db = (.ok did, db')) :
    (scanPoolIds db).length < 2 ^ 32 := by
  unfold scanCommitmentsForUserNotes at h
  dsimp only at h
  split at h
  · rename_i hnone
    rw [(hnone.resolve_left haccounts).resolve_left hlimit]
    decide
  · split at h
    · cases congrArg Prod.fst h
    · omega

theorem Working.poolAddresses_length_le (h : Working codec chain derive db)
    (hprocessed : ∀ entry ∈ storedEntries chain db, db.unprocessed entry.id = false) :
    (poolAddresses (storedEntries chain db)).length ≤
      (scanPoolIds db).length := by
  have hknown : ∀ address ∈ poolAddresses (storedEntries chain db), address ∈ db.contracts.rows := by
    intro address haddress
    obtain ⟨entry, hentry, -, rfl⟩ := mem_poolAddresses.mp haddress
    obtain ⟨hlogged, hstored⟩ := mem_filter.mp hentry
    obtain ⟨_, -, hplace⟩ := h.mirrored.contractOf hlogged hstored
    exact mem_of_getElem? hplace
  have hnodup : ((poolAddresses (storedEntries chain db)).map
      fun address => db.contracts.rows.idxOf address + 1).Nodup := by
    apply List.Nodup.map_on _ (nodup_dedup _)
    intro a ha b hb heq
    exact (idxOf_inj (hknown a ha)).mp (Nat.succ.inj heq)
  have hsubset : (poolAddresses (storedEntries chain db)).map
      (fun address => db.contracts.rows.idxOf address + 1) ⊆
      scanPoolIds db := by
    intro pool hpool
    obtain ⟨address, haddress, rfl⟩ := mem_map.mp hpool
    obtain ⟨entry, hentry, hsome, rfl⟩ := mem_poolAddresses.mp haddress
    obtain ⟨value, hvalue⟩ := Option.isSome_iff_exists.mp hsome
    obtain ⟨n, index, output, hevent, -⟩ := Published.commitment?_eq_some hvalue
    obtain ⟨id, hmem⟩ := h.mirrored.commitment_row (mem_filter.mp hentry).1 (hprocessed entry hentry) hevent
    exact mem_poolIds.mpr ⟨entry.id, mem_map.mpr ⟨_, hmem, rfl⟩, h.contractOf_eq hentry⟩
  simpa using (subperm_of_subset hnodup hsubset).length_le

theorem Stored.eq_of_nil (h : Stored codec [] db db') : db' = db := by
  apply h.eq_or_lt.resolve_right
  unfold rowCount
  rw [h.nullifiers, h.commitments, h.publicKeys, h.leaves]
  exact Nat.lt_irrefl _

theorem serviceable_of_last (h : Working codec chain (deriveUserNote P cipher) db)
    (hvetted : Vetted (deriveUserNote P cipher) db)
    (hlast : processLocalStateBatch codec (deriveUserNote P cipher) db = (.ok false, db')) :
    Distinct (storedEntries chain db) ∧ Serviceable cipher chain db := by
  obtain ⟨batch, db₁, hbatch, hstored, heq⟩ := h.mirrored.processLocalStateBatch (deriveUserNote P cipher)
  rw [hlast] at heq
  obtain ⟨didNotes, db₂, hnotes, hpure⟩ := bind_eq_ok heq.symm
  obtain ⟨hnone, rfl⟩ := pure_eq_ok hpure
  obtain ⟨hempty, rfl⟩ := Bool.or_eq_false_iff.mp hnone
  have hnil : batch = [] := by simpa using hempty
  have hprocessed : ∀ entry ∈ storedEntries chain db, db.unprocessed entry.id = false :=
    fun _ => hbatch.all_processed hnil (by decide)
  subst hnil
  obtain rfl := hstored.eq_of_nil
  have hscanned := (processNotes_false (by decide) hnotes).1
  have hpassed := hvetted.processNotes processFetchLimit
  obtain ⟨_, _, _, hframe⟩ := processNotes_frame processFetchLimit (deriveUserNote P cipher) db₁
  rw [hnotes] at hpassed hframe
  obtain rfl : db₂ = _ := hframe
  refine ⟨h.mirrored.distinct hprocessed, ?_, ?_⟩
  · intro account haccount entry hentry commitment index output hevent
    obtain ⟨id, hmem⟩ := h.mirrored.commitment_row (mem_filter.mp hentry).1 (hprocessed entry hentry) hevent
    have hcontract := h.contractOf_eq hentry
    have hle := hscanned account haccount _ hmem _ hcontract
    exact deriveUserNote_ok_iff.mp (hpassed.passed account haccount _ hmem _ hcontract hle)
  · by_cases haccounts : getAccountsWithLatestKeypairs db₁ = []
    · exact .inl haccounts
    · right
      obtain ⟨scanned, db₃, hscan, -⟩ := bind_eq_ok hnotes
      have hlt := scan_pools_lt (by decide) haccounts hscan
      exact (h.poolAddresses_length_le hprocessed).trans_lt hlt

end Last

/-- Events of the chain and keys of accounts, with nothing processed yet. -/
inductive Loaded (codec : Codec) (chain : Chain) : Db → Prop where
  | fresh : Loaded codec chain Db.fresh
  | saveEvents {db : Db} (entries : List Entry) (hlogged : ∀ entry ∈ entries, entry ∈ chain.log)
      (h : Loaded codec chain db) :
      Loaded codec chain (saveEventsBatch (entries.map (Entry.contractEvent codec)) db).2
  | saveKeypairs {db : Db} (address : String) (noteKeypair : NoteKeyPair)
      (encryptionKeypair : EncryptionKeyPair) (membershipBlinding : F) (h : Loaded codec chain db) :
      Loaded codec chain
        (saveEncryptionAndNoteKeypairs address noteKeypair encryptionKeypair membershipBlinding db).2

/-- The wallet stores events and keys and processes them, in any order. -/
inductive WalletRun (codec : Codec) (derive : DeriveNote) (chain : Chain) : Db → Prop where
  | fresh : WalletRun codec derive chain Db.fresh
  | saveEvents {db : Db} (entries : List Entry) (hlogged : ∀ entry ∈ entries, entry ∈ chain.log)
      (h : WalletRun codec derive chain db) : WalletRun codec derive chain
        (saveEventsBatch (entries.map (Entry.contractEvent codec)) db).2
  | saveKeypairs {db : Db} (address : String) (noteKeypair : NoteKeyPair)
      (encryptionKeypair : EncryptionKeyPair) (membershipBlinding : F)
      (h : WalletRun codec derive chain db) : WalletRun codec derive chain
        (saveEncryptionAndNoteKeypairs address noteKeypair encryptionKeypair membershipBlinding db).2
  | processLocalState {db : Db} (h : WalletRun codec derive chain db) :
      WalletRun codec derive chain (processLocalStateBatch codec derive db).2

variable {Q : Set Query}

section Loaded
variable {db : Db}

theorem working_fresh (codec : Codec) (chain : Chain) (derive : DeriveNote) : Working codec chain derive Db.fresh :=
  ⟨mirrored_fresh codec chain, tracked_fresh, by simp [Sourced, Db.fresh], by simp [Db.fresh]⟩

section
variable (h : Working codec chain derive db)
include h

theorem Working.saveEvent {entry : Entry} (hentry : entry ∈ chain.log) :
    Working codec chain derive (saveEvent db (entry.contractEvent codec)) := by
  have hgrows := saveEvent_grows db (entry.contractEvent codec)
  refine ⟨h.mirrored.saveEvent hentry, ?_, ?_, ?_⟩
  · exact h.tracked.grow (h.tracked.linked.saveEvent _) hgrows rfl rfl fun _ => .inl
  · exact h.sourced.grow rfl (prefix_refl _) hgrows.commitments
  · intro row hrow
    rcases saveEvent_rows db (entry.contractEvent codec) with ⟨hrows, -⟩ | ⟨-, hrows⟩
    · exact h.numbered row (hrows ▸ hrow)
    · rw [hrows, mem_append, mem_singleton] at hrow
      rcases hrow with hold | rfl
      · exact h.numbered row hold
      · exact Nat.succ_pos _

theorem Working.saveEvents {entries : List Entry}
    (hlogged : ∀ entry ∈ entries, entry ∈ chain.log) :
    Working codec chain derive (saveEventsBatch (entries.map (Entry.contractEvent codec)) db).2 := by
  apply saveEventsBatch_keeps _ h
  intro db event hevent hdb
  obtain ⟨entry, hentry, rfl⟩ := mem_map.mp hevent
  exact hdb.saveEvent (hlogged entry hentry)

theorem Working.saveKeypairs (address : String)
    (noteKeypair : NoteKeyPair) (encryptionKeypair : EncryptionKeyPair) (membershipBlinding : F) :
    Working codec chain derive
      (saveEncryptionAndNoteKeypairs address noteKeypair encryptionKeypair membershipBlinding db).2 := by
  have htracked := h.tracked.run (.saveKeypairs address noteKeypair encryptionKeypair membershipBlinding)
  have hmirrored := h.mirrored
  refine ⟨⟨hmirrored.events, hmirrored.nullifiers, hmirrored.commitments, hmirrored.publicKeys,
    hmirrored.leaves⟩, htracked, ?_, h.numbered⟩
  exact h.sourced.grow rfl (prefix_append _ _) (prefix_refl _)

end

theorem WalletRun.working (h : WalletRun codec derive chain db) : Working codec chain derive db := by
  induction h with
  | fresh => exact working_fresh codec chain derive
  | saveEvents entries hlogged _ ih => exact ih.saveEvents hlogged
  | saveKeypairs _ _ _ _ _ ih => exact ih.saveKeypairs _ _ _ _
  | processLocalState _ ih => exact ih.processes rfl

section
variable (h : Loaded codec chain db)
include h

theorem Loaded.walletRun (derive : DeriveNote) : WalletRun codec derive chain db := by
  induction h with
  | fresh => exact .fresh
  | saveEvents entries hlogged _ ih => exact .saveEvents entries hlogged ih
  | saveKeypairs _ _ _ _ _ ih => exact .saveKeypairs _ _ _ _ ih

theorem Loaded.working (derive : DeriveNote) : Working codec chain derive db :=
  (h.walletRun derive).working

theorem Loaded.untouched :
    db.poolCommitments.rows = [] ∧ ∀ pool accountId, position db pool accountId = 0 := by
  induction h with
  | fresh => exact ⟨rfl, fun _ _ => rfl⟩
  | saveEvents entries hlogged _ ih =>
    exact saveEventsBatch_keeps (I := fun d => d.poolCommitments.rows = [] ∧
      ∀ pool accountId, position d pool accountId = 0) (fun _ _ _ hdb => hdb) ih
  | saveKeypairs _ _ _ _ _ ih => exact ih

theorem Loaded.vetted (derive : DeriveNote) : Vetted derive db := by
  obtain ⟨hrows, hposition⟩ := h.untouched
  constructor
  · intro pool accountId
    rw [hposition]
    exact Nat.zero_le _
  · intro account _ row hrow
    rw [hrows] at hrow
    cases hrow

end

theorem Loaded.of_finishes (hloaded : Loaded codec chain db) (h : Finishes codec (deriveUserNote P cipher) db) :
    Distinct (storedEntries chain db) ∧ Serviceable cipher chain db := by
  obtain ⟨last, db', ⟨hworking, hvetted, hsame⟩, hlast⟩ := h.exists_last keeps_vetted
    ⟨hloaded.working _, hloaded.vetted _, rfl, rfl, rfl, rfl⟩
  obtain ⟨hdistinct, hserviceable⟩ := serviceable_of_last hworking hvetted hlast
  rw [hsame.stored_eq] at hdistinct
  exact ⟨hdistinct, hsame.symm.serviceable hserviceable⟩

end Loaded

/-! Batch after batch, whether events are left over or not. -/

def afterBatches (codec : Codec) (derive : DeriveNote) (n : Nat) (db : Db) : Db :=
  (fun d => (processLocalStateBatch codec derive d).2)^[n] db

section Batches
variable {accounts : List AccountKeys}

theorem poolOf_eq_iff {id : String} (hid : db.hasEvent id = true) (pool : Nat) :
    db.contractOf id = some pool ↔ poolOf db id = pool := by
  obtain ⟨contractId, hcontract⟩ := exists_contractOf hid
  simp [poolOf, hcontract]

section
variable (h : Mirrored codec chain db)
include h

theorem Mirrored.scanned_iff : unscanned accounts db = 0 ↔ Scanned accounts db := by
  rw [unscanned, sum_eq_zero_iff, forall_mem_map]
  refine forall₂_congr fun account _ => ?_
  rw [unscannedBy, remaining_eq_zero]
  refine forall₂_congr fun row hrow => ?_
  simp only [poolOf_eq_iff (h.hasEvent_commitment hrow), forall_eq']

theorem Mirrored.reconciled_iff : unreconciled db = 0 ↔ Reconciled db := by
  rw [unreconciled, remaining_eq_zero]
  refine forall₂_congr fun row hrow => ?_
  simp only [poolOf_eq_iff (h.hasEvent_nullifier hrow), forall_eq']

theorem Mirrored.todo_eq_zero :
    todo accounts db = 0 ↔ Scanned accounts db ∧ Reconciled db := by
  rw [todo, Nat.add_eq_zero_iff, h.scanned_iff, h.reconciled_iff]

end

theorem afterBatches_succ (n : Nat) (db : Db) : afterBatches codec derive (n + 1) db =
    (processLocalStateBatch codec derive (afterBatches codec derive n db)).2 :=
  Function.iterate_succ_apply' _ n db

theorem afterBatches_add (n k : Nat) (db : Db) : afterBatches codec derive (n + k) db =
    afterBatches codec derive n (afterBatches codec derive k db) :=
  Function.iterate_add_apply _ n k db

theorem afterBatches_keeps {I : Db → Prop} (hkeeps : Keeps I (processLocalStateBatch codec derive))
    (h : I db) (n : Nat) : I (afterBatches codec derive n db) := by
  induction n with
  | zero => exact h
  | succ n ih =>
    rw [afterBatches_succ]
    exact hkeeps _ ih

theorem afterBatches_sameInputs (n : Nat) (db : Db) : SameInputs db (afterBatches codec derive n db) :=
  afterBatches_keeps (fun d hd => hd.trans (batch_sameInputs codec derive d)) ⟨rfl, rfl, rfl, rfl⟩ n

theorem afterBatches_sameTables (n : Nat) (db : Db) :
    SameTables (processRun codec processFetchLimit db n) (afterBatches codec derive n db) := by
  induction n with
  | zero => exact ⟨⟨rfl, rfl, rfl, rfl⟩, rfl, rfl, rfl, rfl⟩
  | succ n ih =>
    rw [processRun_succ, afterBatches_succ]
    exact (ih.processEvents codec processFetchLimit).trans (batch_sameTables codec derive _)

theorem afterBatches_isPrefix {n m : Nat} (h : n ≤ m) (db : Db) :
    (afterBatches codec derive n db).poolCommitments.rows <+:
      (afterBatches codec derive m db).poolCommitments.rows := by
  induction m, h using Nat.le_induction with
  | base => exact prefix_refl _
  | succ m _ ih =>
    apply ih.trans
    rw [afterBatches_succ, (batch_sameTables codec derive _).commitments,
      (processEvents_saved codec processFetchLimit _).2.commitments]
    exact prefix_insertAll

structure Ready (P : Permutation) (cipher : Cipher) (Q : Set Query) (codec : Codec) (chain : Chain)
    (db : Db) : Prop where
  working : Working codec chain (deriveUserNote P cipher) db
  decipherable : ∀ n, Decipherable cipher (afterBatches codec (deriveUserNote P cipher) n db)
  inputs : NullifierInputs P Q db.keypairs (storedEntries chain db)

theorem Ready.of_serviceable (hworking : Working codec chain (deriveUserNote P cipher) db)
    (hserviceable : Serviceable cipher chain db)
    (hinputs : NullifierInputs P Q db.keypairs (storedEntries chain db)) : Ready P cipher Q codec chain db := by
  refine ⟨hworking, fun n => ?_, hinputs⟩
  exact ((afterBatches_sameInputs n db).serviceable hserviceable).decipherable
    (afterBatches_keeps Working.keeps_processLocalStateBatch hworking n)

section
variable (h : Ready P cipher Q codec chain db)
include h

theorem Ready.processes (hsame : SameInputs db db')
    (hresult : (processLocalStateBatch codec (deriveUserNote P cipher) db).2 = db') :
    Ready P cipher Q codec chain db' :=
  ⟨h.working.processes hresult, fun n => hresult ▸ h.decipherable (n + 1), hsame.nullifierInputs h.inputs⟩

theorem Ready.decipherable_events :
    Decipherable cipher (processEvents codec processFetchLimit db).2 :=
  (batch_sameTables codec (deriveUserNote P cipher) db).symm.decipherable (h.decipherable 1)

/-- A batch of a wallet that can go on either stores new rows, or leaves less to do, or finds
that nothing was left to do. -/
theorem Ready.batch (hfree : CollisionFree P Q) :
    ∃ did didNotes db', processLocalStateBatch codec (deriveUserNote P cipher) db = (.ok did, db') ∧
      SameInputs db db' ∧ (room db' < room db ∨ room db' = room db ∧
        processNotes processFetchLimit (deriveUserNote P cipher) db = (.ok didNotes, db') ∧
        (Distinct (storedEntries chain db) → ∀ entry ∈ storedEntries chain db, db.unprocessed entry.id = false)) := by
  obtain ⟨batch, db₁, didNotes, db', hbatch, hstored, hnotes, hresult⟩ :=
    h.working.batch_step h.decipherable_events hfree h.inputs
  refine ⟨_, didNotes, db', hresult, hstored.sameInputs.trans (processNotes_sameInputs (congrArg Prod.snd hnotes)), ?_⟩
  rcases h.working.batch_measure hbatch hstored hnotes with hroom | ⟨rfl, hroom, -⟩
  · exact .inl hroom
  · refine .inr ⟨hroom, hnotes, fun hdistinct entry hentry => ?_⟩
    have hnil := h.working.mirrored.batch_eq_nil hbatch hstored hdistinct
    exact hbatch.all_processed hnil (by decide) hentry

theorem Ready.after (hfree : CollisionFree P Q) (n : Nat) :
    Ready P cipher Q codec chain (afterBatches codec (deriveUserNote P cipher) n db) ∧
      SameInputs db (afterBatches codec (deriveUserNote P cipher) n db) ∧
      room (afterBatches codec (deriveUserNote P cipher) n db) ≤ room db := by
  induction n with
  | zero => exact ⟨h, ⟨rfl, rfl, rfl, rfl⟩, le_refl _⟩
  | succ n ih =>
    obtain ⟨hready, hsame, hroom⟩ := ih
    obtain ⟨did, didNotes, db', hresult, hsame', hmeasure⟩ := hready.batch hfree
    rw [afterBatches_succ, hresult]
    refine ⟨hready.processes hsame' (congrArg Prod.snd hresult), hsame.trans hsame', ?_⟩
    rcases hmeasure with hlt | ⟨heq, -⟩
    · exact hlt.le.trans hroom
    · exact heq.le.trans hroom

end

theorem exists_todo_zero {f : Nat → Nat} {did : Nat → Bool} (hless : ∀ k, did k = true → f (k + 1) < f k)
    (hle : ∀ k, f (k + 1) ≤ f k) (hdone : ∀ k, did k = false → f (k + 1) = 0) : ∃ n, ∀ m, n ≤ m → f m = 0 := by
  have hzero : ∃ n, f n = 0 := by
    induction hf : f 0 using Nat.strong_induction_on generalizing f did with
    | _ bound ih =>
      cases hdid : did 0 with
      | false => exact ⟨1, hdone 0 hdid⟩
      | true =>
        obtain ⟨n, hn⟩ := @ih (f 1) (hf ▸ hless 0 hdid) (fun k => f (k + 1)) (fun k => did (k + 1))
          (fun k => hless (k + 1)) (fun k => hle (k + 1)) (fun k => hdone (k + 1)) rfl
        exact ⟨n + 1, hn⟩
  obtain ⟨n, hn⟩ := hzero
  refine ⟨n, fun m hm => ?_⟩
  induction m, hm using Nat.le_induction with
  | base => exact hn
  | succ m _ ih => exact Nat.le_zero.mp (ih ▸ hle m)

section
variable (h : Ready P cipher Q codec chain db) (hfree : CollisionFree P Q)
include h hfree

theorem Ready.settles :
    ∃ n, ∀ m, n ≤ m → todo (getAccountsWithLatestKeypairs db)
        (afterBatches codec (deriveUserNote P cipher) m db) = 0 ∧
      (Distinct (storedEntries chain db) → ∀ entry ∈ storedEntries chain db,
        (afterBatches codec (deriveUserNote P cipher) m db).unprocessed entry.id = false) := by
  induction hroom : room db using Nat.strong_induction_on generalizing db with
  | _ bound ih =>
    subst hroom
    by_cases hlt : ∃ k, room (afterBatches codec (deriveUserNote P cipher) k db) < room db
    · obtain ⟨k, hk⟩ := hlt
      obtain ⟨hready, hsame, -⟩ := h.after hfree k
      obtain ⟨n, hn⟩ := ih _ hk hready rfl
      refine ⟨n + k, fun m hm => ?_⟩
      obtain ⟨j, rfl⟩ : ∃ j, m = j + k := ⟨m - k, by omega⟩
      have hj := hn j (by omega)
      rwa [← afterBatches_add, hsame.latest, hsame.stored_eq] at hj
    · push Not at hlt
      -- From here on every batch only scans and reconciles.
      have hstep : ∀ k, ∃ did, processNotes processFetchLimit (deriveUserNote P cipher)
            (afterBatches codec (deriveUserNote P cipher) k db) =
              (.ok did, afterBatches codec (deriveUserNote P cipher) (k + 1) db) ∧
          (Distinct (storedEntries chain db) → ∀ entry ∈ storedEntries chain db,
            (afterBatches codec (deriveUserNote P cipher) k db).unprocessed entry.id = false) := by
        intro k
        obtain ⟨hready, hsame, hle⟩ := h.after hfree k
        obtain ⟨did, didNotes, db', hresult, -, hmeasure⟩ := hready.batch hfree
        have hnext : afterBatches codec (deriveUserNote P cipher) (k + 1) db = db' := by
          rw [afterBatches_succ, hresult]
        rcases hmeasure with hless | ⟨-, hnotes, hprocessed⟩
        · have hroom := hlt (k + 1)
          rw [hnext] at hroom
          omega
        · rw [hsame.stored_eq] at hprocessed
          exact ⟨didNotes, hnext ▸ hnotes, hprocessed⟩
      choose did hnotes hprocessed using hstep
      have hlatest : ∀ k, getAccountsWithLatestKeypairs
          (afterBatches codec (deriveUserNote P cipher) k db) = getAccountsWithLatestKeypairs db :=
        fun k => (h.after hfree k).2.1.latest
      have htodo : ∃ n, ∀ m, n ≤ m → todo (getAccountsWithLatestKeypairs db)
          (afterBatches codec (deriveUserNote P cipher) m db) = 0 := by
        apply @exists_todo_zero _ did
        · intro k hdid
          rw [← hlatest k]
          exact (processNotes_todo (hnotes k)).2 hdid
        · intro k
          rw [← hlatest k]
          exact (processNotes_todo (hnotes k)).1
        · intro k hdid
          have hfalse := hnotes k
          rw [hdid] at hfalse
          rw [← hlatest k, ((h.after hfree (k + 1)).1.working.mirrored).todo_eq_zero]
          exact processNotes_false (by decide) hfalse
      obtain ⟨n, hn⟩ := htodo
      exact ⟨n, fun m hm => ⟨hn m hm, hprocessed m⟩⟩

theorem Ready.answers (n : Nat) :
    ∃ did, (processLocalStateBatch codec (deriveUserNote P cipher)
      (afterBatches codec (deriveUserNote P cipher) n db)).1 = .ok did := by
  obtain ⟨did, didNotes, db', hresult, -⟩ := (h.after hfree n).1.batch hfree
  exact ⟨did, congrArg Prod.fst hresult⟩

end

theorem Working.finishes (h : Working codec chain derive db) (hanswers : ∀ n, ∃ did,
      (processLocalStateBatch codec derive (afterBatches codec derive n db)).1 = .ok did)
    (hdistinct : Distinct (storedEntries chain db)) : Finishes codec derive db := by
  generalize hmeasure : toLex (room db, todo (getAccountsWithLatestKeypairs db) db) = measure
  induction measure using WellFoundedLT.induction generalizing db with
  | _ measure ih =>
    obtain ⟨batch, db₁, hbatch, hstored, heq⟩ := h.mirrored.processLocalStateBatch derive
    obtain ⟨did, hdid⟩ := hanswers 0
    have hresult : processLocalStateBatch codec derive db =
        (.ok did, afterBatches codec derive 1 db) := Prod.ext hdid rfl
    obtain ⟨didNotes, db', hnotes, hpure⟩ := bind_eq_ok (heq.symm.trans hresult)
    obtain ⟨hor, hafter⟩ := pure_eq_ok hpure
    cases did with
    | false => exact .done hresult
    | true =>
      rw [← hafter] at hresult
      have hsame : SameInputs db db' := hstored.sameInputs.trans (processNotes_sameInputs (congrArg Prod.snd hnotes))
      refine .more hresult (ih _ ?_ (h.processes (congrArg Prod.snd hresult)) (fun n => ?_)
        (hsame.stored_eq ▸ hdistinct) rfl)
      · rw [← hmeasure, hsame.latest, Prod.Lex.toLex_lt_toLex]
        rcases h.batch_measure hbatch hstored hnotes with hroom | ⟨rfl, hroom, htodo⟩
        · exact .inl hroom
        · refine .inr ⟨hroom, htodo ?_⟩
          simpa [h.mirrored.batch_eq_nil hbatch hstored hdistinct] using hor
      · rw [hafter, ← afterBatches_add]
        exact hanswers (n + 1)

/-- Processing comes to an end if and only if no commitment and no nullifier was stored twice,
every output can be read with the keys of every account, and the pools can be counted. -/
theorem finishes_iff (hloaded : Loaded codec chain db) (hfree : CollisionFree P Q)
    (hinputs : NullifierInputs P Q db.keypairs (storedEntries chain db)) :
    Finishes codec (deriveUserNote P cipher) db ↔
      Distinct (storedEntries chain db) ∧ Serviceable cipher chain db := by
  constructor
  · exact hloaded.of_finishes
  · rintro ⟨hdistinct, hserviceable⟩
    have hready := Ready.of_serviceable (hloaded.working _) hserviceable hinputs
    exact hready.working.finishes (hready.answers hfree) hdistinct

/-- No batch fails, and from some batch on every commitment is scanned for every account and
every nullifier is reconciled. -/
structure Discovers (codec : Codec) (derive : DeriveNote) (db : Db) : Prop where
  answers : ∀ n, ∃ did, (processLocalStateBatch codec derive (afterBatches codec derive n db)).1 = .ok did
  settles : ∃ n, ∀ m, n ≤ m → Scanned (getAccountsWithLatestKeypairs db) (afterBatches codec derive m db) ∧
    Reconciled (afterBatches codec derive m db)

theorem Ready.discovers (h : Ready P cipher Q codec chain db) (hfree : CollisionFree P Q) :
    Discovers codec (deriveUserNote P cipher) db := by
  obtain ⟨n, hn⟩ := h.settles hfree
  refine ⟨h.answers hfree, n, fun m hm => ?_⟩
  exact (h.after hfree m).1.working.mirrored.todo_eq_zero.mp (hn m hm).1

/-- However saving and processing went before: bytes that can be read stop nobody. -/
theorem WalletRun.discovers (hrun : WalletRun codec (deriveUserNote P cipher) chain db)
    (hserviceable : Serviceable cipher chain db) (hfree : CollisionFree P Q)
    (hinputs : NullifierInputs P Q db.keypairs (storedEntries chain db)) : Discovers codec (deriveUserNote P cipher) db :=
  (Ready.of_serviceable hrun.working hserviceable hinputs).discovers hfree

theorem Finishes.of_after (n : Nat) (h : Finishes codec derive (afterBatches codec derive n db))
    (hanswers : ∀ n, ∃ did, (processLocalStateBatch codec derive (afterBatches codec derive n db)).1 = .ok did) :
    Finishes codec derive db := by
  induction n with
  | zero => exact h
  | succ n ih =>
    apply ih
    rw [afterBatches_succ] at h
    obtain ⟨did, hdid⟩ := hanswers n
    cases did with
    | false => exact .done (Prod.ext hdid rfl)
    | true => exact .more (Prod.ext hdid rfl) h

theorem answered_pools {did : Bool} (h : (processLocalStateBatch codec derive db).1 = .ok did) :
    getAccountsWithLatestKeypairs db = [] ∨
      (scanPoolIds (processLocalStateBatch codec derive db).2).length < 2 ^ 32 := by
  have hsaved := processEvents_saved codec processFetchLimit db
  rw [(batch_sameTables codec derive db).poolIds_eq, ← hsaved.2.sameInputs.latest]
  have heq : processLocalStateBatch codec derive db = _ := bind_of_ok (Prod.ext hsaved.1 rfl)
  obtain ⟨didNotes, db₁, hnotes, -⟩ := bind_eq_ok (heq.symm.trans (Prod.ext h rfl))
  obtain ⟨scanned, db₂, hscan, -⟩ := bind_eq_ok hnotes
  rw [or_iff_not_imp_left]
  exact fun haccounts => scan_pools_lt (by decide) haccounts hscan

theorem Discovers.decipherable (h : Discovers codec (deriveUserNote P cipher) db)
    (hloaded : Loaded codec chain db) (n : Nat) :
    Decipherable cipher (afterBatches codec (deriveUserNote P cipher) n db) := by
  have hlatest := (@afterBatches_sameInputs codec (deriveUserNote P cipher) n db).latest
  constructor
  · intro account haccount row hrow
    obtain ⟨k, hk⟩ := h.settles
    obtain ⟨hworking, hvetted, hsame⟩ := afterBatches_keeps keeps_vetted
      ⟨hloaded.working (deriveUserNote P cipher), hloaded.vetted _, rfl, rfl, rfl, rfl⟩ (max n k)
    have hmem := (afterBatches_isPrefix (le_max_left n k) db).subset hrow
    obtain ⟨pool, hpool⟩ := exists_contractOf (hworking.mirrored.hasEvent_commitment hmem)
    rw [hlatest] at haccount
    have hscanned := (hk _ (le_max_right n k)).1 account haccount row hmem pool hpool
    exact deriveUserNote_ok_iff.mp (hvetted.passed account (hsame.latest ▸ haccount) row hmem pool hpool hscanned)
  · cases n with
    | zero =>
      refine .inr ?_
      change (scanPoolIds db).length < 2 ^ 32
      rw [scanPoolIds, hloaded.untouched.1]
      exact Nat.two_pow_pos 32
    | succ n =>
      obtain ⟨did, hdid⟩ := h.answers n
      rw [hlatest, ← (@afterBatches_sameInputs codec (deriveUserNote P cipher) n db).latest, afterBatches_succ]
      exact answered_pools hdid

end Batches

/-! One account, for which none of the published outputs is. -/

section Sample

def ownerKey : Key := ⟨1 :: List.replicate 31 0, by rfl⟩

def ownerAccount : AccountKeys := ⟨1, ⟨ownerKey, ownerKey⟩, ⟨ownerKey, ownerKey⟩, 0⟩

def ownerDb : Db :=
  (saveEncryptionAndNoteKeypairs "owner" ⟨ownerKey, ownerKey⟩ ⟨ownerKey, ownerKey⟩ 0 Db.fresh).2

noncomputable def ownerWallet (chain : Chain) : Db :=
  (saveEventsBatch (chain.log.map (Entry.contractEvent unaryCodec)) ownerDb).2

def closedCipher : Cipher := fun _ _ _ _ => none

abbrev closedDerive : DeriveNote := deriveUserNote samplePermutation closedCipher

def longOutputs : Fin 2 → Bytes := fun _ => List.replicate 120 0

theorem ownerWallet_loaded (chain : Chain) : Loaded unaryCodec chain (ownerWallet chain) :=
  .saveEvents chain.log (fun _ h => h) (.saveKeypairs _ _ _ _ .fresh)

theorem ownerWallet_stored (chain : Chain) : storedEntries chain (ownerWallet chain) = chain.log :=
  filter_eq_self.mpr fun _ hentry => hasEvent_saveEvents (mem_map_of_mem hentry) ownerDb

theorem ownerWallet_keypairs (chain : Chain) : (ownerWallet chain).keypairs = [ownerAccount] ∧
    getAccountsWithLatestKeypairs (ownerWallet chain) = [ownerAccount] := by
  apply saveEventsBatch_keeps (I := fun d => d.keypairs = [ownerAccount] ∧
    getAccountsWithLatestKeypairs d = [ownerAccount])
  · intro db event _ hdb
    exact hdb
  · decide +kernel

def ownerQueries : Set Query :=
  { nullifierQuery samplePermutation ownerKey 61 0, nullifierQuery samplePermutation ownerKey 62 1 }

theorem ownerQueries_free : CollisionFree samplePermutation ownerQueries := by
  have hfirst : (nullifierQuery samplePermutation ownerKey 61 0).digest samplePermutation = 43 := by
    decide +kernel
  have hsecond : (nullifierQuery samplePermutation ownerKey 62 1).digest samplePermutation = 0 := by
    decide +kernel
  have hne : (43 : F) ≠ 0 := by decide
  intro q hq q' hq' heq
  rcases hq with rfl | rfl <;> rcases hq' with rfl | rfl <;> simp_all

theorem mem_outputsPublished {outputs : Fin 2 → Bytes} {commitment : Nat} {index : Nat} {output : Bytes}
    (h : .newCommitment commitment index output ∈ outputsPublished outputs) :
    commitment = 61 ∧ index = 0 ∧ output = outputs 0 ∨ commitment = 62 ∧ index = 1 ∧ output = outputs 1 := by
  simpa [outputsPublished] using h

theorem ownerWallet_inputs {outputs : Fin 2 → Bytes}
    (hlog : ∀ entry ∈ chain.log, entry.event ∈ outputsPublished outputs) :
    NullifierInputs samplePermutation ownerQueries (ownerWallet chain).keypairs
      (storedEntries chain (ownerWallet chain)) := by
  intro account haccount entry hentry commitment index output hevent
  rw [(ownerWallet_keypairs chain).1, mem_singleton] at haccount
  rw [ownerWallet_stored] at hentry
  have hmem := hlog entry hentry
  rw [hevent] at hmem
  rw [haccount]
  rcases mem_outputsPublished hmem with ⟨rfl, rfl, -⟩ | ⟨rfl, rfl, -⟩
  · left
    rfl
  · right
    rfl

theorem ownerWallet_serviceable (hlog : ∀ entry ∈ chain.log, entry.event ∈ outputsPublished longOutputs)
    (hpools : (poolAddresses chain.log).length < 2 ^ 32) : Serviceable closedCipher chain (ownerWallet chain) := by
  refine ⟨?_, .inr ?_⟩
  · intro account _ entry hentry commitment index output hevent
    rw [ownerWallet_stored] at hentry
    have hmem := hlog entry hentry
    rw [hevent] at hmem
    rcases mem_outputsPublished hmem with ⟨-, -, rfl⟩ | ⟨-, -, rfl⟩ <;> simp [Legible, longOutputs, closedCipher]
  · rwa [ownerWallet_stored]

section
variable (outputs : Fin 2 → Bytes)
include outputs

theorem onePool_log :
    ∀ entry ∈ (onePool outputs).log, entry.event ∈ outputsPublished outputs := by
  intro entry hentry
  exact mem_map_of_mem hentry

theorem twoPools_log :
    ∀ entry ∈ (twoPools outputs).log, entry.event ∈ outputsPublished outputs := by
  intro entry hentry
  rcases mem_append.mp hentry with h | h <;> exact mem_map_of_mem h

theorem onePool_distinct : Distinct (onePool outputs).log := by
  constructor
  · change [(61 : F), 62].Nodup
    decide
  · change [(41 : F), 42].Nodup
    decide

theorem twoPools_not_distinct : ¬Distinct (twoPools outputs).log := by
  intro hdistinct
  have hnodup : [(61 : F), 62, 61, 62].Nodup := hdistinct.commitments
  exact absurd hnodup (by decide)

end

theorem finishes_one_pool : Finishes unaryCodec closedDerive
    (ownerWallet (onePool longOutputs)) := by
  apply (finishes_iff (ownerWallet_loaded _) ownerQueries_free (ownerWallet_inputs (onePool_log longOutputs))).mpr
  rw [ownerWallet_stored]
  refine ⟨onePool_distinct _, ownerWallet_serviceable (onePool_log longOutputs) ?_⟩
  decide

/-- Two pools with the same commitments keep the wallet busy for ever: every batch returns true. -/
theorem two_pools_never_finish : ∃ db, Loaded unaryCodec (twoPools longOutputs) db ∧
    ¬Finishes unaryCodec closedDerive db ∧
    ∀ n, (processLocalStateBatch unaryCodec closedDerive
      (afterBatches unaryCodec closedDerive n db)).1 = .ok true := by
  have hloaded := ownerWallet_loaded (twoPools longOutputs)
  have hready : Ready samplePermutation closedCipher ownerQueries unaryCodec (twoPools longOutputs)
      (ownerWallet (twoPools longOutputs)) :=
    .of_serviceable (hloaded.working _) (ownerWallet_serviceable (twoPools_log longOutputs) (by decide))
      (ownerWallet_inputs (twoPools_log longOutputs))
  have hnot : ¬Finishes unaryCodec closedDerive
      (ownerWallet (twoPools longOutputs)) := by
    intro hfinishes
    have hdistinct := (hloaded.of_finishes hfinishes).1
    rw [ownerWallet_stored] at hdistinct
    exact twoPools_not_distinct longOutputs hdistinct
  refine ⟨_, hloaded, hnot, fun n => ?_⟩
  obtain ⟨did, hdid⟩ := hready.answers ownerQueries_free n
  cases did with
  | true => exact hdid
  | false =>
    exact absurd (Finishes.of_after n (.done (Prod.ext hdid rfl)) (hready.answers ownerQueries_free)) hnot

end Sample

end PrivatePayments.Sdk

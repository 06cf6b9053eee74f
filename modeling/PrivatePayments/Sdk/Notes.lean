import PrivatePayments.Sdk.Client

/-! The notes that a wallet has once everything is processed. -/
namespace PrivatePayments.Sdk
open Contracts Lib Relation

/-! A wallet with one account finds everything that its keys open. -/

section Solo
variable {codec : Codec} {chain : Chain} {P : Permutation} {cipher : Cipher} {Q : Set Query}
  {derive : DeriveNote} {account : AccountKeys} {db db' : Db}

theorem Working.exclusive (h : Working codec chain (deriveUserNote P cipher) db) (hfree : CollisionFree P Q)
    (hinputs : NullifierInputs P Q db.keypairs (storedEntries chain db))
    (hsolo : getAccountsWithLatestKeypairs db = [account]) : Exclusive (deriveUserNote P cipher) db := by
  have hquery : ∀ a ∈ getAccountsWithLatestKeypairs db, ∀ row ∈ db.poolCommitments.rows,
      nullifierQuery P a.noteKeypair.privateKey row.commitment row.leafIndex ∈ Q := by
    intro a ha row hrow
    obtain ⟨entry, hentry, n, -, hevent, hvalue⟩ := h.mirrored.commitment_entry hrow
    rw [← hvalue]
    exact hinputs a (mem_keypairs ha) entry hentry _ _ _ hevent
  intro a ha b hb row hrow row' hrow' derived derived' hderive hderive' hsame
  refine ⟨account_inj ha hb ?_, ?_⟩
  · rw [hsolo, List.mem_singleton] at ha hb
    rw [ha, hb]
  · rcases hsame with rfl | ⟨-, hnullifier⟩
    · rfl
    · rw [(deriveUserNote_ok hderive).2.2, (deriveUserNote_ok hderive').2.2] at hnullifier
      have hcommitment := (hfree.hash3_inj (hquery a ha row hrow) (hquery b hb row' hrow') hnullifier).1
      exact List.inj_on_of_nodup_map (commitments_nodup db) hrow hrow' hcommitment

theorem Discovered.stored (h : Discovered derive db) (htracked : Tracked db')
    {batch : List Entry} (hstored : Stored codec batch db db') : Discovered derive db' := by
  have hgrows := hstored.grows
  have hkeys := hstored.sameInputs.latest
  obtain ⟨_, _, _, _, rfl⟩ := hstored.frame
  exact h.grow_same htracked hgrows hkeys rfl (fun _ => NumberedTable.mem_of_isPrefix hgrows.commitments) rfl

theorem Discovered.reconcile (h : Discovered derive db) (limit : Nat) :
    Discovered derive (reconcileNullifiers limit db).2 :=
  reconcile_keeps (fun _ _ hstep hdb => hdb.reconcileStep hstep) h

theorem Loaded.discovered (h : Loaded codec chain db) (derive : DeriveNote) : Discovered derive db := by
  obtain ⟨hrows, hposition⟩ := h.untouched
  have htracked := (h.working derive).tracked
  refine ⟨htracked, ?_, ?_, ?_, ?_⟩
  · intro pool accountId
    rw [hposition]
    exact Nat.zero_le _
  · intro pool accountId hne
    exact absurd (hposition pool accountId) hne
  · intro account _ row hrow
    rw [hrows] at hrow
    cases hrow
  · intro note hnote
    obtain ⟨row, hrow, -⟩ := htracked.linked.note note hnote
    rw [hrows] at hrow
    cases hrow

structure Solo (P : Permutation) (cipher : Cipher) (Q : Set Query) (codec : Codec) (chain : Chain)
    (account : AccountKeys) (db : Db) : Prop where
  ready : Ready P cipher Q codec chain db
  discovered : Discovered (deriveUserNote P cipher) db
  account : getAccountsWithLatestKeypairs db = [account]

section
variable (h : Solo P cipher Q codec chain account db) (hfree : CollisionFree P Q)
include h hfree

theorem Solo.batch :
    Solo P cipher Q codec chain account (processLocalStateBatch codec (deriveUserNote P cipher) db).2 := by
  have hworking := h.ready.working
  obtain ⟨batch, db₁, did, db', hbatch, hstored, hnotes, hresult⟩ :=
    hworking.batch_step h.ready.decipherable_events hfree h.ready.inputs
  have hsame : SameInputs db db' := hstored.sameInputs.trans (processNotes_sameInputs (congrArg Prod.snd hnotes))
  obtain ⟨scanned, db₂, hscan, hrest⟩ := Method.bind_eq_ok hnotes
  obtain ⟨reconciled, db₃, hreconcile, hpure⟩ := Method.bind_eq_ok hrest
  obtain ⟨-, rfl⟩ := Method.pure_eq_ok hpure
  have h₁ := hworking.stored hbatch hstored
  have hexclusive := h₁.exclusive hfree (hstored.sameInputs.nullifierInputs h.ready.inputs)
    (hstored.sameInputs.latest.trans h.account)
  have hfound := ((h.discovered.stored h₁.tracked hstored).scan hexclusive processFetchLimit).reconcile
    processFetchLimit
  rw [Call.run, hscan, hreconcile] at hfound
  rw [hresult]
  exact ⟨h.ready.processes hsame (congrArg Prod.snd hresult), hfound, hsame.latest.trans h.account⟩

theorem Solo.after (n : Nat) :
    Solo P cipher Q codec chain account (afterBatches codec (deriveUserNote P cipher) n db) := by
  induction n with
  | zero => exact h
  | succ n ih =>
    rw [afterBatches_succ]
    exact ih.batch hfree

theorem Solo.settles (hdistinct : Distinct (storedEntries chain db)) :
    ∃ n db', afterBatches codec (deriveUserNote P cipher) n db = db' ∧ SameInputs db db' ∧
      Solo P cipher Q codec chain account db' ∧
      (∀ entry ∈ storedEntries chain db, db'.unprocessed entry.id = false) ∧
      ∀ row ∈ db'.poolCommitments.rows, ∀ derived, deriveUserNote P cipher account row = .ok (some derived) →
        HasNote db' account row := by
  obtain ⟨n, hn⟩ := h.ready.settles hfree
  obtain ⟨htodo, hprocessed⟩ := hn n (le_refl n)
  have hafter := h.after hfree n
  refine ⟨n, _, rfl, (h.ready.after hfree n).2.1, hafter, hprocessed hdistinct, ?_⟩
  intro row hrow derived hderive
  have hscanned := (hafter.ready.working.mirrored.todo_eq_zero.mp htodo).1
  have hmem : account ∈ getAccountsWithLatestKeypairs
      (afterBatches codec (deriveUserNote P cipher) n db) := by
    rw [hafter.account]
    exact List.mem_singleton_self account
  obtain ⟨pool, hpool⟩ := exists_contractOf (hafter.discovered.tracked.linked.commitment row hrow)
  refine hafter.discovered.found account hmem row hrow pool hpool (hscanned account ?_ row hrow pool hpool)
    derived hderive
  rw [h.account]
  exact List.mem_singleton_self account

end

theorem Discovered.unspent (h : Discovered derive db) (haccount : account ∈ getAccountsWithLatestKeypairs db)
    {row : PoolCommitment} (hrow : row ∈ db.poolCommitments.rows) {derived : DerivedUserNote}
    (hderive : derive account row = .ok (some derived)) {note : UserNote} (hnote : note ∈ db.userNotes.rows)
    (hid : note.accountId = account.accountId) (hcommitment : note.commitmentId = row.id)
    (hunpublished : ∀ published ∈ db.poolNullifiers.rows, published.nullifier ≠ derived.expectedNullifier) :
    note.nullifierId = none := by
  cases hmark : note.nullifierId with
  | none => rfl
  | some id =>
    obtain ⟨published, hmem, -, hnullifier, -⟩ := h.tracked.spent note hnote id hmark
    obtain ⟨account', haccount', row', hrow', derived', hopened, -⟩ := h.origin note hnote
    obtain rfl := account_inj haccount' haccount (hopened.accountId.symm.trans hid)
    obtain rfl := db.poolCommitments.rowid_inj hrow' hrow (hopened.commitmentId.symm.trans hcommitment)
    obtain rfl : derived' = derived := by
      rw [hopened.opens] at hderive
      exact Option.some.inj (Except.ok.inj hderive)
    exact absurd (hnullifier.trans hopened.expectedNullifier) (hunpublished published hmem)

end Solo

end PrivatePayments.Sdk

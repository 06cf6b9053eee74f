import PrivatePayments.Sdk.Transact

/-! What the notes of a wallet are, whatever the client has done. -/
namespace PrivatePayments.Sdk
open Lib Relation Method

variable {codec : Codec} {chain : Chain} {derive : DeriveNote} {db db' : Db}

/-- Whatever a client does, each of its notes opens, to one of its keys, a commitment that a pool has published. -/
theorem client_notes_open {P : Permutation} {cipher : Cipher} (h : ClientRun codec (deriveUserNote P cipher) chain db)
    {note : UserNote} (hnote : note ∈ db.userNotes.rows) :
    ∃ account ∈ db.keypairs, ∃ entry ∈ chain.log, ∃ commitment index output,
      entry.event = .newCommitment commitment index output ∧ note.accountId = account.accountId ∧ note.amount ≠ 0 ∧
      hash3 P (note.amount : F) (fromLeBytesModOrder account.noteKeypair.publicKey.1) note.blinding 1 = commitment ∧
      note.expectedNullifier = expectedNullifier P account.noteKeypair.privateKey commitment index := by
  obtain ⟨account, haccount, row, hrow, derived, hopened⟩ := h.invariant.1.sourced note hnote
  obtain ⟨entry, hentry, commitment, -, hevent, hvalue⟩ := h.invariant.1.mirrored.commitment_entry hrow
  have hderived := deriveUserNote_ok hopened.opens
  rw [← hopened.amount, ← hopened.blinding, ← hopened.expectedNullifier, ← hvalue] at hderived
  exact ⟨account, haccount, entry, (List.mem_filter.mp hentry).1, commitment, _, _, hevent, hopened.accountId, hderived⟩

theorem client_notes_open_fives : ∃ db chain account entry commitment index output, ∃ note ∈ db.userNotes.rows,
    ClientRun unaryCodec fiveNotes chain db ∧ account ∈ db.keypairs ∧ entry ∈ chain.log ∧
      entry.event = .newCommitment commitment index output ∧ note.amount ≠ 0 ∧
      hash3 System.flatPermutation (note.amount : F) (fromLeBytesModOrder account.noteKeypair.publicKey.1)
        note.blinding 1 = commitment := by
  obtain ⟨s, x, chain, db, h⟩ := exists_synced 7
  obtain ⟨_, note, hnote⟩ := h.notes 16 (by simp)
  obtain ⟨account, haccount, entry, hentry, commitment, index, output, hevent, -, hamount, hopens, -⟩ :=
    client_notes_open h.run hnote.stored
  exact ⟨db, chain, account, entry, commitment, index, output, note, hnote.stored, h.run, haccount, hentry, hevent,
    hamount, hopens⟩

def UserNote.KeptIn (note : UserNote) (db : Db) : Prop := ∃ note' ∈ db.userNotes.rows, note.Becomes note'

section
variable {note : UserNote} (hdb : note.KeptIn db)
include hdb

theorem ScanStep.keptIn {accounts : List AccountKeys} (h : ScanStep derive accounts db db') : note.KeptIn db' := by
  cases h with
  | opened => exact hdb
  | scanned hmem hscan =>
    obtain ⟨-, -, userNotes, hrows, rfl⟩ := scanAccount_ok hscan
    obtain ⟨note', hnote', hbecomes⟩ := hdb
    exact ⟨note', (scanRows_isPrefix hrows).subset hnote', hbecomes⟩

theorem ReconcileStep.keptIn {limit : Nat} (h : ReconcileStep limit db db') : note.KeptIn db' := by
  obtain ⟨note₁, hnote₁, hbecomes⟩ := hdb
  obtain ⟨note', hnote', hlater⟩ := h.kept note₁ hnote₁
  exact ⟨note', hnote', hbecomes.trans hlater⟩

theorem ClientStep.keptIn (h : ClientStep codec derive chain db db') : note.KeptIn db' := by
  cases h with
  | saveEvents entries hlogged => exact saveEventsBatch_keeps (fun _ _ _ hdb => hdb) hdb
  | saveSyncProgress metadata fullyIndexed =>
    obtain ⟨-, _, _, hframe⟩ := saveSyncProgress_frame metadata fullyIndexed db
    rwa [hframe]
  | clearIndexingCursors | saveKeypairs => exact hdb
  | processEvents limit =>
    obtain ⟨_, _, _, _, hframe⟩ := (processEvents_saved codec limit db).2.frame
    rwa [hframe]
  | processNotes limit =>
    have hkeeps : Keeps note.KeptIn (Sdk.processNotes limit derive) := by
      apply Keeps.bind
      · exact fun _ h => scan_keeps (fun _ _ _ hstep hdb => hstep.keptIn hdb) h
      · intro scanned
        exact Keeps.bind (fun _ h => reconcile_keeps (fun _ _ hstep hdb => hstep.keptIn hdb) h)
          fun _ => keeps_pure _
    exact hkeeps db hdb

end

/-- No note is lost or changed, and none that is marked as spent loses its mark. -/
theorem client_notes_kept (hsteps : ReflTransGen (ClientStep codec derive chain) db db') :
    ∀ note ∈ db.userNotes.rows, note.KeptIn db' := by
  intro note hnote
  induction hsteps with
  | refl => exact ⟨note, hnote, .inl rfl⟩
  | tail _ hstep ih => exact hstep.keptIn ih

theorem client_notes_kept_fives : ∃ (db : Db) (note : UserNote), note ∈ db.userNotes.rows ∧
    note.KeptIn (processNotes 1 fiveNotes db).2 := by
  obtain ⟨s, x, chain, db, h⟩ := exists_synced 7
  obtain ⟨_, note, hnote⟩ := h.notes 16 (by simp)
  exact ⟨db, note, hnote.stored,
    @client_notes_kept unaryCodec chain _ _ _ (.single (.processNotes 1)) note hnote.stored⟩

end PrivatePayments.Sdk

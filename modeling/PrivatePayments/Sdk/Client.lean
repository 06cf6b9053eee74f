import PrivatePayments.Sdk.LocalState
import PrivatePayments.Sdk.SyncRun

/-! Everything that a client does to its database, in any order. -/
namespace PrivatePayments.Sdk
open Lib Relation

/-- Events arrive and progress is noted, in steps of any size, while keys are saved and the
stored events and notes are processed. -/
inductive ClientStep (codec : Codec) (derive : DeriveNote) (chain : Chain) : Db → Db → Prop where
  | saveEvents {db : Db} (entries : List Entry) (hlogged : ∀ entry ∈ entries, entry ∈ chain.log) :
      ClientStep codec derive chain db (saveEventsBatch (entries.map (Entry.contractEvent codec)) db).2
  | saveSyncProgress {db : Db} (metadata : List SyncMetadata) (fullyIndexed : Bool) :
      ClientStep codec derive chain db (saveSyncProgress metadata fullyIndexed db).2
  | clearIndexingCursors {db : Db} : ClientStep codec derive chain db (clearIndexingCursors db).2
  | saveKeypairs {db : Db} (address : String) (noteKeypair : NoteKeyPair)
      (encryptionKeypair : EncryptionKeyPair) (membershipBlinding : F) : ClientStep codec derive chain db
        (saveEncryptionAndNoteKeypairs address noteKeypair encryptionKeypair membershipBlinding db).2
  | processEvents {db : Db} (limit : Nat) :
      ClientStep codec derive chain db (processEvents codec limit db).2
  | processNotes {db : Db} (limit : Nat) :
      ClientStep codec derive chain db (processNotes limit derive db).2

abbrev ClientRun (codec : Codec) (derive : DeriveNote) (chain : Chain) (db : Db) : Prop :=
  ReflTransGen (ClientStep codec derive chain) Db.fresh db

section
variable {codec : Codec} {chain : Chain} {derive : DeriveNote} {db db' : Db}

theorem Working.of_contracts (h : Working codec chain derive db) (hgrown : db.contracts.rows <+: db'.contracts.rows)
    (hsame : ∃ contracts indexingMetadata, db' = { db with contracts, indexingMetadata }) :
    Working codec chain derive db' := by
  have hmirrored := h.mirrored.of_contracts hgrown hsame
  obtain ⟨contracts, indexingMetadata, rfl⟩ := hsame
  have hgrows : Grows db { db with contracts, indexingMetadata } :=
    ⟨hgrown, List.prefix_refl _, List.prefix_refl _, List.prefix_refl _, List.prefix_refl _⟩
  have hlinked : Linked { db with contracts, indexingMetadata } :=
    h.tracked.linked.grow hgrows (fun _ => .inl) (fun _ => .inl) (fun _ => .inl)
      fun note hnote => .inl ⟨note, hnote, rfl, rfl⟩
  exact ⟨hmirrored, h.tracked.grow hlinked hgrows rfl rfl fun _ => .inl, h.sourced, h.numbered⟩

theorem ClientStep.working (h : ClientStep codec derive chain db db')
    (hdb : Working codec chain derive db) : Working codec chain derive db' := by
  cases h with
  | saveEvents entries hlogged => exact hdb.saveEvents hlogged
  | saveSyncProgress metadata fullyIndexed =>
    obtain ⟨hgrown, hsame⟩ := saveSyncProgress_frame metadata fullyIndexed db
    exact hdb.of_contracts hgrown hsame
  | clearIndexingCursors => exact hdb.of_contracts (List.prefix_refl _) ⟨_, _, rfl⟩
  | saveKeypairs => exact hdb.saveKeypairs _ _ _ _
  | processEvents limit => exact hdb.processEvents limit
  | processNotes limit => exact Working.keeps_processNotes limit db hdb

theorem ClientStep.registered (h : ClientStep codec derive chain db db')
    (hmirrored : Mirrored codec chain db) (hdb : Registered db) : Registered db' := by
  cases h with
  | saveEvents entries hlogged =>
    obtain ⟨hgrown, -, hsame⟩ := saveEventsBatch_isPrefix (entries.map (Entry.contractEvent codec)) db
    exact hdb.of_isPrefix hgrown hsame
  | saveSyncProgress metadata fullyIndexed =>
    exact saveSyncProgress_keeps (fun _ _ _ h => h.saveSyncEntry _ _) hdb
  | clearIndexingCursors => exact hdb.clear
  | saveKeypairs => exact hdb
  | processEvents limit =>
    obtain ⟨batch, db', -, hresult, hstored⟩ := hmirrored.processes limit
    rw [hresult]
    obtain ⟨_, _, _, _, rfl⟩ := hstored.frame
    exact hdb
  | processNotes limit =>
    obtain ⟨_, _, _, hframe⟩ := processNotes_frame limit derive db
    rw [hframe]
    exact hdb

theorem ClientRun.invariant (h : ClientRun codec derive chain db) :
    Working codec chain derive db ∧ Registered db := by
  induction h with
  | refl => exact ⟨working_fresh codec chain derive, registered_fresh⟩
  | tail _ hstep ih => exact ⟨hstep.working ih.1, hstep.registered ih.1.mirrored ih.2⟩

theorem ClientRun.keeps_processLocalStateBatch :
    Method.Keeps (ClientRun codec derive chain) (processLocalStateBatch codec derive) := by
  apply Method.Keeps.bind
  · exact fun _ h => h.tail (.processEvents processFetchLimit)
  · intro didRaw
    exact Method.Keeps.bind (fun _ h => h.tail (.processNotes processFetchLimit)) fun _ => Method.keeps_pure _

theorem ClientRun.after (h : ClientRun codec derive chain db) (n : Nat) :
    ClientRun codec derive chain (afterBatches codec derive n db) := by
  induction n with
  | zero => exact h
  | succ n ih =>
    rw [afterBatches_succ]
    exact ClientRun.keeps_processLocalStateBatch _ ih

theorem Loaded.clientRun (h : Loaded codec chain db) (derive : DeriveNote) : ClientRun codec derive chain db := by
  induction h with
  | fresh => exact .refl
  | saveEvents entries hlogged _ ih => exact ih.tail (.saveEvents entries hlogged)
  | saveKeypairs _ _ _ _ _ ih => exact ih.tail (.saveKeypairs _ _ _ _)

end

end PrivatePayments.Sdk

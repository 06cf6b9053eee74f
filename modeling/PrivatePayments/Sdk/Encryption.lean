import PrivatePayments.Sdk.Scan

/-! `prover/src/encryption.rs` and `notes.rs`: from a published ciphertext to a note
of the wallet.  X25519 and XSalsa20-Poly1305 are not modelled: `cipher` takes the
private key, the ephemeral public key, the nonce and the ciphertext with its tag. -/
namespace PrivatePayments.Sdk
open Contracts

abbrev Cipher := Bytes → Bytes → Bytes → Bytes → Option Bytes

/-- A ciphertext for somebody else decrypts to nothing. -/
def decryptNoteData (cipher : Cipher) (privateKey : Key) (encryptedData : Bytes) :
    Except NoteError Bytes :=
  if encryptedData.length < 120 then .error .encryptedDataTooShort
  else
    let ephemeralPubkey := encryptedData.take 32
    let nonceBytes := (encryptedData.drop 32).take 24
    let ciphertextWithTag := encryptedData.drop 56
    .ok ((cipher privateKey.1 ephemeralPubkey nonceBytes ciphertextWithTag).getD [])

def decryptOutputNote (cipher : Cipher) (privateKey : Key) (encryptedOutput : Bytes) :
    Except NoteError (Option (Nat × F)) := do
  let plaintext ← decryptNoteData cipher privateKey encryptedOutput
  if plaintext = [] then .ok none
  else if plaintext.length ≠ 48 then .error (.wrongPlaintextLength plaintext.length)
  else
    match tryFromLeBytes (plaintext.drop 16) with
    | none => .error .fieldOutOfRange
    | some blinding => .ok (some (fromLittleEndian (plaintext.take 16), blinding))

/-- Outputs that are long enough and that, if the key opens them at all, hold nothing
or an amount and a blinding factor. -/
def Legible (cipher : Cipher) (privateKey : Key) (output : Bytes) : Prop :=
  120 ≤ output.length ∧ ∀ plaintext,
    cipher privateKey.1 (output.take 32) ((output.drop 32).take 24) (output.drop 56) = some plaintext →
      plaintext = [] ∨ plaintext.length = 48 ∧ fromLittleEndian (plaintext.drop 16) < bn256Modulus

def expectedNullifier (P : Permutation) (privateKey : Key) (commitment : F) (leafIndex : Nat) : F :=
  let signature := hash3 P (fromLeBytesModOrder privateKey.1) commitment (leafIndex : F) 4
  hash3 P commitment (leafIndex : F) signature 2

def tryDecryptAndDeriveUserNote (P : Permutation) (cipher : Cipher) (noteKeypair : NoteKeyPair)
    (encryptionPrivateKey : Key) (commitment : F) (leafIndex : Nat) (encryptedOutput : Bytes) :
    Except NoteError (Option DerivedUserNote) := do
  match ← decryptOutputNote cipher encryptionPrivateKey encryptedOutput with
  | none => .ok none
  | some (amount, blinding) =>
      if amount = 0 then .ok none
      else if hash3 P (amount : F) (fromLeBytesModOrder noteKeypair.publicKey.1) blinding 1 ≠
          commitment then .ok none
      else
        .ok (some
          { amount
            blinding
            expectedNullifier := expectedNullifier P noteKeypair.privateKey commitment leafIndex })

def deriveUserNote (P : Permutation) (cipher : Cipher) : DeriveNote := fun account row =>
  tryDecryptAndDeriveUserNote P cipher account.noteKeypair account.encryptionKeypair.privateKey
    row.commitment row.leafIndex row.encryptedOutput

section
variable {P : Permutation} {cipher : Cipher} {account : AccountKeys} {row : PoolCommitment}

theorem deriveUserNote_eq_some {amount : Nat} {blinding : F}
    (hdecrypt : decryptOutputNote cipher account.encryptionKeypair.privateKey row.encryptedOutput =
      .ok (some (amount, blinding))) (hamount : amount ≠ 0)
    (hcommitment : hash3 P (amount : F) (fromLeBytesModOrder account.noteKeypair.publicKey.1)
      blinding 1 = row.commitment) :
    deriveUserNote P cipher account row = .ok (some
      { amount
        blinding
        expectedNullifier :=
          expectedNullifier P account.noteKeypair.privateKey row.commitment row.leafIndex }) := by
  rw [deriveUserNote, tryDecryptAndDeriveUserNote, hdecrypt, ok_bind]
  dsimp only
  rw [if_neg hamount, if_neg (not_not.mpr hcommitment)]

theorem decryptOutputNote_ok_iff {privateKey : Key} {output : Bytes} :
    (∃ note, decryptOutputNote cipher privateKey output = .ok note) ↔ Legible cipher privateKey output := by
  unfold decryptOutputNote decryptNoteData Legible
  by_cases hlength : output.length < 120
  · simp [hlength, error_bind]
  · rw [if_neg hlength, ok_bind, and_iff_right (Nat.le_of_not_lt hlength)]
    generalize cipher privateKey.1 (output.take 32) ((output.drop 32).take 24) (output.drop 56) = opened
    cases opened with
    | none => simp
    | some plaintext =>
      simp only [Option.getD_some, Option.some.injEq, forall_eq']
      by_cases hnil : plaintext = []
      · simp [hnil]
      · by_cases hsize : plaintext.length = 48
        · rw [← not_le]
          by_cases hrange : bn256Modulus ≤ fromLittleEndian (plaintext.drop 16) <;>
            simp only [hnil, hsize, hrange, tryFromLeBytes, tryFromU256] <;> simp
        · simp [hnil, hsize]

theorem deriveUserNote_ok_iff : (∃ derived, deriveUserNote P cipher account row = .ok derived) ↔
    Legible cipher account.encryptionKeypair.privateKey row.encryptedOutput := by
  rw [← decryptOutputNote_ok_iff]
  constructor
  · rintro ⟨derived, hderive⟩
    obtain ⟨note, hnote, -⟩ := bind_eq_ok hderive
    exact ⟨note, hnote⟩
  · rintro ⟨note, hnote⟩
    rw [deriveUserNote, tryDecryptAndDeriveUserNote, hnote, ok_bind]
    cases note with
    | none => exact ⟨none, rfl⟩
    | some pair =>
      dsimp only
      split
      · exact ⟨none, rfl⟩
      · split
        · exact ⟨none, rfl⟩
        · exact ⟨_, rfl⟩

end

end PrivatePayments.Sdk

import Mathlib.Data.List.Sort
import Mathlib.Data.String.Basic
import PrivatePayments.Contracts.Pool
import PrivatePayments.Sdk.Field

/-! `stellar/src/soroban_encode.rs` and `ext_data_hash.rs`: the arguments of `transact` as the client
encodes them and as the contract reads them. -/
namespace PrivatePayments.Sdk
open Contracts
open List hiding Vector

inductive ArgVal where
  | bytes (b : Bytes)
  | u256 (hiHi hiLo loHi loLo : UInt64)
  | i256 (hiHi : Int64) (hiLo loHi loLo : UInt64)
  | address (a : Address)
  | symbol (name : String)
  | vec (items : List ArgVal)
  | map (entries : List (ArgVal × ArgVal))

inductive EncodeError where
  | bytesTooLong
  | invalidMapKey
  | invalidRecipient
  | tooManyItems
  | wrongProofLength (length : Nat)

abbrev I128 := { n : Int // -2 ^ 127 ≤ n ∧ n < 2 ^ 127 }

structure ExtData where
  recipient : String
  extAmount : I128
  encryptedOutput0 : Bytes
  encryptedOutput1 : Bytes

def fromBigEndian (bytes : Bytes) : Nat := fromLittleEndian bytes.reverse

def toBigEndian (width n : Nat) : Bytes := (toLittleEndian width n).reverse

/-- `u64::from_be_bytes` of the eight bytes from a place on. -/
def limbAt (be : Bytes) (start : Nat) : UInt64 := .ofNat (fromBigEndian ((be.drop start).take 8))

def fieldToScvalU256 (v : F) : ArgVal :=
  let be := toBigEndian 32 v.val
  .u256 (limbAt be 0) (limbAt be 8) (limbAt be 16) (limbAt be 24)

def i128ToI256Scval (n : I128) : ArgVal :=
  let hi : Int64 := if n.1 < 0 then -1 else 0
  let bytes := toBigEndian 16 (n.1 % 2 ^ 128).toNat
  .i256 hi hi.toUInt64 (limbAt bytes 0) (limbAt bytes 8)

/-- At most `u32::MAX` bytes. -/
def bytesToScval (bytes : Bytes) : Except EncodeError ArgVal :=
  if bytes.length < 2 ^ 32 then .ok (.bytes bytes) else .error .bytesTooLong

/-- A symbol has at most 32 bytes. -/
def mapEntry (key : String) (val : ArgVal) : Except EncodeError (ArgVal × ArgVal) :=
  if key.utf8ByteSize ≤ 32 then .ok (.symbol key, val) else .error .invalidMapKey

/-- Keys that are no symbols count as equal. -/
def keyLe : ArgVal → ArgVal → Bool
  | .symbol a, .symbol b => decide (a ≤ b)
  | _, _ => true

def sortedMap (entries : List (ArgVal × ArgVal)) : ArgVal :=
  .map (entries.insertionSort fun a b => keyLe a.1 b.1)

def groth16ProofToScval (proofUncompressed : Bytes) : Except EncodeError ArgVal :=
  if proofUncompressed.length ≠ 256 then .error (.wrongProofLength proofUncompressed.length)
  else do
    let a ← mapEntry "a" (← bytesToScval (proofUncompressed.take 64))
    let b ← mapEntry "b" (← bytesToScval ((proofUncompressed.drop 64).take 128))
    let c ← mapEntry "c" (← bytesToScval (proofUncompressed.drop 192))
    return sortedMap [a, b, c]

structure OnchainProofPublicInputs where
  root : F
  inputNullifiers : List F
  outputCommitment0 : F
  outputCommitment1 : F
  publicAmount : F
  extDataHashBe : Bytes
  aspMembershipRoot : F
  aspNonMembershipRoot : F

def poolProofToScval (proofUncompressed : Bytes) (inputs : OnchainProofPublicInputs) :
    Except EncodeError ArgVal :=
  if inputs.inputNullifiers.length ≥ 2 ^ 32 then .error .tooManyItems
  else do
    let nullifiers := inputs.inputNullifiers.map fieldToScvalU256
    let membershipRoot ← mapEntry "asp_membership_root" (fieldToScvalU256 inputs.aspMembershipRoot)
    let nonMembershipRoot ← mapEntry "asp_non_membership_root" (fieldToScvalU256 inputs.aspNonMembershipRoot)
    let extDataHash ← mapEntry "ext_data_hash" (← bytesToScval inputs.extDataHashBe)
    let inputNullifiers ← mapEntry "input_nullifiers" (.vec nullifiers)
    let output0 ← mapEntry "output_commitment0" (fieldToScvalU256 inputs.outputCommitment0)
    let output1 ← mapEntry "output_commitment1" (fieldToScvalU256 inputs.outputCommitment1)
    let proof ← mapEntry "proof" (← groth16ProofToScval proofUncompressed)
    let publicAmount ← mapEntry "public_amount" (fieldToScvalU256 inputs.publicAmount)
    let root ← mapEntry "root" (fieldToScvalU256 inputs.root)
    return sortedMap [membershipRoot, nonMembershipRoot, extDataHash, inputNullifiers, output0, output1, proof,
      publicAmount, root]

section
variable (parse : String → Option Address)

def parseRecipient (recipient : String) : Except EncodeError ArgVal :=
  match parse recipient with
  | some a => .ok (.address a)
  | none => .error .invalidRecipient

def poolExtDataToScval (ext : ExtData) : Except EncodeError ArgVal := do
  let output0 ← mapEntry "encrypted_output0" (← bytesToScval ext.encryptedOutput0)
  let output1 ← mapEntry "encrypted_output1" (← bytesToScval ext.encryptedOutput1)
  let amount ← mapEntry "ext_amount" (i128ToI256Scval ext.extAmount)
  let recipient ← mapEntry "recipient" (← parseRecipient parse ext.recipient)
  return sortedMap [output0, output1, amount, recipient]

/-- `keccak` gives 32 bytes, and `toXdr` is the encoding without limits. -/
def hashExtDataOffchain (keccak : Bytes → Vector UInt8 32) (toXdr : ArgVal → Bytes) (ext : ExtData) :
    Except EncodeError Bytes := do
  let entries := [("encrypted_output0", ← bytesToScval ext.encryptedOutput0),
    ("encrypted_output1", ← bytesToScval ext.encryptedOutput1),
    ("ext_amount", i128ToI256Scval ext.extAmount),
    ("recipient", ← parseRecipient parse ext.recipient)]
  let sorted := entries.insertionSort fun a b => a.1 ≤ b.1
  let mapEntries ← sorted.mapM fun entry => mapEntry entry.1 entry.2
  let digest := keccak (toXdr (.map mapEntries))
  let reduced := fromBigEndian digest.toList % bn256Modulus
  return toBigEndian 32 reduced

end

/-! The contract's side: values of the host, and structs as maps with their fields in order. -/

def decodeU256 : ArgVal → Option U256
  | .u256 hiHi hiLo loHi loLo =>
      some (hiHi.toNat * 2 ^ 192 + hiLo.toNat * 2 ^ 128 + loHi.toNat * 2 ^ 64 + loLo.toNat)
  | _ => none

def decodeI256 : ArgVal → Option Int
  | .i256 hiHi hiLo loHi loLo =>
      some (hiHi.toInt * 2 ^ 192 + hiLo.toNat * 2 ^ 128 + loHi.toNat * 2 ^ 64 + loLo.toNat)
  | _ => none

def decodeBytes : ArgVal → Option Bytes
  | .bytes b => some b
  | _ => none

def decodeBytesN (n : Nat) : ArgVal → Option (Vector UInt8 n)
  | .bytes b => if h : b.length = n then some ⟨b.toArray, by simpa using h⟩ else none
  | _ => none

def decodeAddress : ArgVal → Option Address
  | .address a => some a
  | _ => none

/-- The values of a struct whose fields have these names, in this order. -/
def decodeFields (names : List String) : ArgVal → Option (List ArgVal)
  | .map entries =>
      if entries.length = names.length then
        (entries.zip names).mapM fun
          | ((.symbol key, val), name) => if key = name then some val else none
          | _ => none
      else none
  | _ => none

def decodeExtData (v : ArgVal) : Option Pool.ExtData :=
  match decodeFields ["encrypted_output0", "encrypted_output1", "ext_amount", "recipient"] v with
  | some [output0, output1, amount, recipient] => do
    let encryptedOutput0 ← decodeBytes output0
    let encryptedOutput1 ← decodeBytes output1
    let extAmount ← decodeI256 amount
    let recipient ← decodeAddress recipient
    return { recipient, extAmount, encryptedOutput0, encryptedOutput1 }
  | _ => none

def decodeGroth16Proof (v : ArgVal) : Option Groth16Verifier.Groth16Proof :=
  match decodeFields ["a", "b", "c"] v with
  | some [a, b, c] => do
    let a ← decodeBytesN 64 a
    let b ← decodeBytesN 128 b
    let c ← decodeBytesN 64 c
    return { a, b, c }
  | _ => none

def decodeVec : ArgVal → Option (List ArgVal)
  | .vec items => some items
  | _ => none

def decodeProof (v : ArgVal) : Option Pool.Proof :=
  match decodeFields ["asp_membership_root", "asp_non_membership_root", "ext_data_hash", "input_nullifiers",
      "output_commitment0", "output_commitment1", "proof", "public_amount", "root"] v with
  | some [membershipRoot, nonMembershipRoot, extDataHash, nullifiers, output0, output1, proof, publicAmount,
      root] => do
    let aspMembershipRoot ← decodeU256 membershipRoot
    let aspNonMembershipRoot ← decodeU256 nonMembershipRoot
    let extDataHash ← decodeBytesN 32 extDataHash
    let inputNullifiers ← decodeVec nullifiers >>= List.mapM decodeU256
    let outputCommitment0 ← decodeU256 output0
    let outputCommitment1 ← decodeU256 output1
    let proof ← decodeGroth16Proof proof
    let publicAmount ← decodeU256 publicAmount
    let root ← decodeU256 root
    return { proof, root, inputNullifiers, outputCommitment0, outputCommitment1, publicAmount,
             extDataHash := fromBigEndian extDataHash.toList, aspMembershipRoot, aspNonMembershipRoot }
  | _ => none

def i256Scval (n : Int) : ArgVal :=
  let limb : Nat → UInt64 := fun i => .ofNat (n / 2 ^ (64 * i) % 2 ^ 64).toNat
  .i256 (.ofInt (n / 2 ^ 192)) (limb 2) (limb 1) (limb 0)

def extDataScval (ext : Pool.ExtData) : ArgVal :=
  .map [(.symbol "encrypted_output0", .bytes ext.encryptedOutput0),
    (.symbol "encrypted_output1", .bytes ext.encryptedOutput1),
    (.symbol "ext_amount", i256Scval ext.extAmount),
    (.symbol "recipient", .address ext.recipient)]

/-! `types/src/amounts.rs`. -/

inductive AmountError where
  | outOfFieldRange
  | absOutOfFieldRange

def fieldTryFromExtAmount (value : I128) : Except AmountError F :=
  if value.1 ≥ 0 then
    let v := value.1.toNat
    if v ≥ bn256Modulus then .error .outOfFieldRange else .ok v
  else
    let abs := value.1.natAbs
    if abs ≥ bn256Modulus then .error .absOutOfFieldRange else .ok (bn256Modulus - abs : Nat)

section Limbs

theorem toLittleEndian_take (k rest n : Nat) : (toLittleEndian (k + rest) n).take k = toLittleEndian k n := by
  induction k generalizing n with
  | zero => rfl
  | succ k ih => rw [Nat.succ_add, toLittleEndian, take_succ_cons, ih, toLittleEndian]

theorem toLittleEndian_drop (k rest n : Nat) :
    (toLittleEndian (k + rest) n).drop k = toLittleEndian rest (n / 256 ^ k) := by
  induction k generalizing n with
  | zero => simp
  | succ k ih => rw [Nat.succ_add, toLittleEndian, drop_succ_cons, ih, Nat.div_div_eq_div_mul, pow_succ']

theorem fromLittleEndian_toLittleEndian_mod (width n : Nat) :
    fromLittleEndian (toLittleEndian width n) = n % 256 ^ width := by
  induction width generalizing n with
  | zero => simp [toLittleEndian, fromLittleEndian, Nat.mod_one]
  | succ width ih =>
    rw [toLittleEndian, fromLittleEndian, ih, UInt8.toNat_ofNat', pow_succ' 256, Nat.mod_mul]

theorem limbAt_toBigEndian (start low n : Nat) :
    limbAt (toBigEndian (low + 8 + start) n) start = .ofNat (n / 256 ^ low) := by
  have hslice : ((toBigEndian (low + 8 + start) n).drop start).take 8 =
      (toLittleEndian 8 (n / 256 ^ low)).reverse := by
    rw [toBigEndian, drop_reverse, toLittleEndian_length, Nat.add_sub_cancel, toLittleEndian_take,
      take_reverse, toLittleEndian_length, Nat.add_sub_cancel, toLittleEndian_drop]
  rw [limbAt, hslice, fromBigEndian, reverse_reverse, fromLittleEndian_toLittleEndian_mod]
  apply UInt64.toNat.inj
  simp only [UInt64.toNat_ofNat']
  omega

theorem fieldToScvalU256_eq (v : F) : fieldToScvalU256 v =
    .u256 (.ofNat (v.val / 2 ^ 192)) (.ofNat (v.val / 2 ^ 128)) (.ofNat (v.val / 2 ^ 64)) (.ofNat v.val) := by
  have h := fun start low => limbAt_toBigEndian start low v.val
  have h0 := h 24 0
  rw [pow_zero, Nat.div_one] at h0
  rw [fieldToScvalU256]
  exact congr (congr (congr (congrArg ArgVal.u256 (h 0 24)) (h 8 16)) (h 16 8)) h0

theorem decodeU256_field (v : F) : decodeU256 (fieldToScvalU256 v) = some v.val := by
  have hlt : v.val < 2 ^ 256 := (ZMod.val_lt v).trans (by decide)
  have hlimbs : v.val / 2 ^ 192 % 2 ^ 64 * 2 ^ 192 + v.val / 2 ^ 128 % 2 ^ 64 * 2 ^ 128 +
      v.val / 2 ^ 64 % 2 ^ 64 * 2 ^ 64 + v.val % 2 ^ 64 = v.val := by omega
  rw [fieldToScvalU256_eq, decodeU256]
  simp only [UInt64.toNat_ofNat', hlimbs]

theorem i128ToI256Scval_eq (n : I128) : i128ToI256Scval n = i256Scval n.1 := by
  obtain ⟨n, hlow, hhigh⟩ := n
  have hhi : (if n < 0 then -1 else 0 : Int64) = .ofInt (n / 2 ^ 192) := by
    split
    · rw [show n / 2 ^ 192 = -1 by omega]
      rfl
    · rw [show n / 2 ^ 192 = 0 by omega]
      rfl
  have hhiLo : (if n < 0 then -1 else 0 : Int64).toUInt64 = .ofNat (n / 2 ^ (64 * 2) % 2 ^ 64).toNat := by
    split
    · have hones : (n / 2 ^ (64 * 2) % 2 ^ 64 : Int).toNat = 2 ^ 64 - 1 := by omega
      rw [hones]
      rfl
    · have hzero : (n / 2 ^ (64 * 2) % 2 ^ 64 : Int).toNat = 0 := by omega
      rw [hzero]
      rfl
  have hloHi : limbAt (toBigEndian 16 (n % 2 ^ 128).toNat) 0 = .ofNat (n / 2 ^ (64 * 1) % 2 ^ 64).toNat := by
    have hlimb : (n % 2 ^ 128 : Int).toNat / 256 ^ 8 = (n / 2 ^ (64 * 1) % 2 ^ 64 : Int).toNat := by omega
    rw [limbAt_toBigEndian 0 8, hlimb]
  have hloLo : limbAt (toBigEndian 16 (n % 2 ^ 128).toNat) 8 = .ofNat (n / 2 ^ (64 * 0) % 2 ^ 64).toNat := by
    rw [limbAt_toBigEndian 8 0]
    apply UInt64.toNat.inj
    simp only [UInt64.toNat_ofNat']
    omega
  exact congr (congr (congr (congrArg ArgVal.i256 hhi) hhiLo) hloHi) hloLo

theorem decodeI256_i128 (n : I128) : decodeI256 (i128ToI256Scval n) = some n.1 := by
  rw [i128ToI256Scval_eq]
  obtain ⟨n, hlow, hhigh⟩ := n
  have hsign : (Int64.ofInt (n / 2 ^ 192)).toInt = n / 2 ^ 192 := by
    rw [Int64.toInt_ofInt_of_le] <;> omega
  rw [i256Scval, decodeI256]
  simp only [hsign, UInt64.toNat_ofNat']
  congr 1
  omega

end Limbs

variable {keccak : Bytes → Vector UInt8 32} {toXdr : ArgVal → Bytes}

section ExtData
variable {parse : String → Option Address} {ext : ExtData} {address : Address}

def ExtData.onchain (ext : ExtData) (address : Address) : Pool.ExtData where
  recipient := address
  extAmount := ext.extAmount.1
  encryptedOutput0 := ext.encryptedOutput0
  encryptedOutput1 := ext.encryptedOutput1

theorem sortedMap_of_ordered {entries : List (ArgVal × ArgVal)}
    (h : entries.Pairwise fun a b => keyLe a.1 b.1) : sortedMap entries = .map entries := by
  rw [sortedMap, List.Pairwise.insertionSort_eq h]

theorem sortedMap_extData (output0 output1 amount recipient : ArgVal) :
    sortedMap [(.symbol "encrypted_output0", output0), (.symbol "encrypted_output1", output1),
      (.symbol "ext_amount", amount), (.symbol "recipient", recipient)] =
      .map [(.symbol "encrypted_output0", output0), (.symbol "encrypted_output1", output1),
        (.symbol "ext_amount", amount), (.symbol "recipient", recipient)] := by
  apply sortedMap_of_ordered
  simp [keyLe]

theorem extData_keys : "encrypted_output0".utf8ByteSize ≤ 32 ∧ "encrypted_output1".utf8ByteSize ≤ 32 ∧
    "ext_amount".utf8ByteSize ≤ 32 ∧ "recipient".utf8ByteSize ≤ 32 := by decide

theorem poolExtDataToScval_eq (hparse : parse ext.recipient = some address)
    (h0 : ext.encryptedOutput0.length < 2 ^ 32) (h1 : ext.encryptedOutput1.length < 2 ^ 32) :
    poolExtDataToScval parse ext = .ok (extDataScval (ext.onchain address)) := by
  obtain ⟨hkey0, hkey1, hkey2, hkey3⟩ := extData_keys
  rw [poolExtDataToScval]
  simp only [bytesToScval, h0, h1, if_true, ok_bind, mapEntry, hkey0, hkey1, hkey2, hkey3, parseRecipient,
    hparse, i128ToI256Scval_eq, sortedMap_extData]
  rfl

theorem poolExtDataToScval_long (h : ¬(ext.encryptedOutput0.length < 2 ^ 32 ∧
    ext.encryptedOutput1.length < 2 ^ 32)) : (poolExtDataToScval parse ext).toOption = none := by
  have hkey0 : "encrypted_output0".utf8ByteSize ≤ 32 := by decide
  rw [poolExtDataToScval]
  by_cases h0 : ext.encryptedOutput0.length < 2 ^ 32
  · have h1 : ¬ext.encryptedOutput1.length < 2 ^ 32 := fun h1 => h ⟨h0, h1⟩
    simp only [bytesToScval, h0, h1, if_true, if_false, ok_bind, mapEntry, hkey0, error_bind]
    rfl
  · simp only [bytesToScval, h0, if_false, error_bind]
    rfl

theorem hashExtDataOffchain_eq
    (hparse : parse ext.recipient = some address)
    (h0 : ext.encryptedOutput0.length < 2 ^ 32) (h1 : ext.encryptedOutput1.length < 2 ^ 32) :
    hashExtDataOffchain parse keccak toXdr ext = .ok (toBigEndian 32
      (fromBigEndian (keccak (toXdr (extDataScval (ext.onchain address)))).toList % bn256Modulus)) := by
  obtain ⟨hkey0, hkey1, hkey2, hkey3⟩ := extData_keys
  have h01 : "encrypted_output0" ≤ "encrypted_output1" := by decide
  have h12 : "encrypted_output1" ≤ "ext_amount" := by decide
  have h23 : "ext_amount" ≤ "recipient" := by decide
  rw [hashExtDataOffchain]
  simp only [bytesToScval, h0, h1, if_true, ok_bind, parseRecipient, hparse, i128ToI256Scval_eq,
    insertionSort_cons, insertionSort_nil, List.orderedInsert, h01, h12, h23, mapM_cons,
    mapM_nil, mapEntry, hkey0, hkey1, hkey2, hkey3]
  rfl

theorem hashExtDataOffchain_long
    (h : ¬(ext.encryptedOutput0.length < 2 ^ 32 ∧ ext.encryptedOutput1.length < 2 ^ 32)) :
    (hashExtDataOffchain parse keccak toXdr ext).toOption = none := by
  rw [hashExtDataOffchain]
  by_cases h0 : ext.encryptedOutput0.length < 2 ^ 32
  · have h1 : ¬ext.encryptedOutput1.length < 2 ^ 32 := fun h1 => h ⟨h0, h1⟩
    simp only [bytesToScval, h0, h1, if_true, if_false, ok_bind, error_bind]
    rfl
  · simp only [bytesToScval, h0, if_false, error_bind]
    rfl

theorem decodeExtData_extDataScval (ext : ExtData) (address : Address) :
    decodeExtData (extDataScval (ext.onchain address)) = some (ext.onchain address) := by
  have hamount : decodeI256 (i256Scval ext.extAmount.1) = some ext.extAmount.1 := by
    rw [← i128ToI256Scval_eq, decodeI256_i128]
  have hfields : decodeFields ["encrypted_output0", "encrypted_output1", "ext_amount", "recipient"]
      (extDataScval (ext.onchain address)) = some [.bytes ext.encryptedOutput0, .bytes ext.encryptedOutput1,
        i256Scval ext.extAmount.1, .address address] := by
    simp [decodeFields, extDataScval, ExtData.onchain]
  rw [decodeExtData, hfields]
  simp [decodeBytes, decodeAddress, hamount, ExtData.onchain]

end ExtData

theorem hashExtDataOffchain_eq_ok {parse : String → Option Address}
    {ext : ExtData} {hash : Bytes}
    (h : hashExtDataOffchain parse keccak toXdr ext = .ok hash) :
    ext.encryptedOutput0.length < 2 ^ 32 ∧ ext.encryptedOutput1.length < 2 ^ 32 ∧
      ∃ address, parse ext.recipient = some address := by
  by_cases hlen : ext.encryptedOutput0.length < 2 ^ 32 ∧ ext.encryptedOutput1.length < 2 ^ 32
  · refine ⟨hlen.1, hlen.2, ?_⟩
    cases hparse : parse ext.recipient with
    | some address => exact ⟨address, rfl⟩
    | none =>
      rw [hashExtDataOffchain] at h
      simp only [bytesToScval, hlen.1, hlen.2, if_true, ok_bind, parseRecipient, hparse, error_bind] at h
      cases h
  · have hnone : (hashExtDataOffchain parse keccak toXdr ext).toOption = none := hashExtDataOffchain_long hlen
    rw [h] at hnone
    cases hnone

abbrev ProofBytes := { bytes : Bytes // bytes.length = 256 }

def groth16Proof (bytes : ProofBytes) : Groth16Verifier.Groth16Proof where
  a := ⟨(bytes.1.take 64).toArray, by simp [bytes.2]⟩
  b := ⟨((bytes.1.drop 64).take 128).toArray, by simp [bytes.2]⟩
  c := ⟨(bytes.1.drop 192).toArray, by simp [bytes.2]⟩

def groth16Scval (bytes : ProofBytes) : ArgVal :=
  .map [(.symbol "a", .bytes (bytes.1.take 64)), (.symbol "b", .bytes ((bytes.1.drop 64).take 128)),
    (.symbol "c", .bytes (bytes.1.drop 192))]

theorem groth16ProofToScval_eq (bytes : ProofBytes) : groth16ProofToScval bytes.1 = .ok (groth16Scval bytes) := by
  have ha : "a".utf8ByteSize ≤ 32 := by decide
  have hb : "b".utf8ByteSize ≤ 32 := by decide
  have hc : "c".utf8ByteSize ≤ 32 := by decide
  have hla : (bytes.1.take 64).length < 2 ^ 32 := by simp [bytes.2]
  have hlb : ((bytes.1.drop 64).take 128).length < 2 ^ 32 := by simp [bytes.2]
  have hlc : (bytes.1.drop 192).length < 2 ^ 32 := by simp [bytes.2]
  rw [groth16ProofToScval, if_neg (not_not.mpr bytes.2)]
  simp only [bytesToScval, hla, hlb, hlc, if_true, ok_bind, mapEntry, ha, hb, hc]
  exact congrArg Except.ok (sortedMap_of_ordered (by simp [keyLe]))

theorem decodeGroth16Proof_groth16Scval (bytes : ProofBytes) :
    decodeGroth16Proof (groth16Scval bytes) = some (groth16Proof bytes) := by
  have hla : (bytes.1.take 64).length = 64 := by simp [bytes.2]
  have hlb : ((bytes.1.drop 64).take 128).length = 128 := by simp [bytes.2]
  have hlc : (bytes.1.drop 192).length = 64 := by simp [bytes.2]
  have hfields : decodeFields ["a", "b", "c"] (groth16Scval bytes) =
      some [.bytes (bytes.1.take 64), .bytes ((bytes.1.drop 64).take 128), .bytes (bytes.1.drop 192)] := by
    simp [decodeFields, groth16Scval]
  rw [decodeGroth16Proof, hfields]
  simp only [decodeBytesN, hla, hlb, hlc, dite_true]
  rfl

theorem mapM_decodeU256 (values : List F) :
    (values.map fieldToScvalU256).mapM decodeU256 = some (values.map ZMod.val) := by
  induction values with
  | nil => rfl
  | cons v values ih =>
    rw [map_cons, mapM_cons, decodeU256_field, ih]
    rfl

def proofScval (bytes : ProofBytes) (inputs : OnchainProofPublicInputs) : ArgVal :=
  .map [(.symbol "asp_membership_root", fieldToScvalU256 inputs.aspMembershipRoot),
    (.symbol "asp_non_membership_root", fieldToScvalU256 inputs.aspNonMembershipRoot),
    (.symbol "ext_data_hash", .bytes inputs.extDataHashBe),
    (.symbol "input_nullifiers", .vec (inputs.inputNullifiers.map fieldToScvalU256)),
    (.symbol "output_commitment0", fieldToScvalU256 inputs.outputCommitment0),
    (.symbol "output_commitment1", fieldToScvalU256 inputs.outputCommitment1),
    (.symbol "proof", groth16Scval bytes),
    (.symbol "public_amount", fieldToScvalU256 inputs.publicAmount),
    (.symbol "root", fieldToScvalU256 inputs.root)]

section
variable (bytes : ProofBytes) {inputs : OnchainProofPublicInputs}

theorem poolProofToScval_eq (hnullifiers : inputs.inputNullifiers.length < 2 ^ 32)
    (hhash : inputs.extDataHashBe.length < 2 ^ 32) :
    poolProofToScval bytes.1 inputs = .ok (proofScval bytes inputs) := by
  have hsize : ∀ key ∈ ["asp_membership_root", "asp_non_membership_root", "ext_data_hash", "input_nullifiers",
      "output_commitment0", "output_commitment1", "proof", "public_amount", "root"],
      key.utf8ByteSize ≤ 32 := by
    decide
  simp only [forall_mem_cons] at hsize
  obtain ⟨h0, h1, h2, h3, h4, h5, h6, h7, h8, -⟩ := hsize
  rw [poolProofToScval, if_neg (Nat.not_le.mpr hnullifiers)]
  simp only [mapEntry, h0, h1, h2, h3, h4, h5, h6, h7, h8, if_true, ok_bind, bytesToScval, hhash,
    groth16ProofToScval_eq]
  exact congrArg Except.ok (sortedMap_of_ordered (by simp [keyLe]))

theorem decodeProof_proofScval (hhash : inputs.extDataHashBe.length = 32) :
    decodeProof (proofScval bytes inputs) = some
      { proof := groth16Proof bytes
        root := inputs.root.val
        inputNullifiers := inputs.inputNullifiers.map ZMod.val
        outputCommitment0 := inputs.outputCommitment0.val
        outputCommitment1 := inputs.outputCommitment1.val
        publicAmount := inputs.publicAmount.val
        extDataHash := fromBigEndian inputs.extDataHashBe
        aspMembershipRoot := inputs.aspMembershipRoot.val
        aspNonMembershipRoot := inputs.aspNonMembershipRoot.val } := by
  have hfields : decodeFields ["asp_membership_root", "asp_non_membership_root", "ext_data_hash",
      "input_nullifiers", "output_commitment0", "output_commitment1", "proof", "public_amount", "root"]
      (proofScval bytes inputs) = some [fieldToScvalU256 inputs.aspMembershipRoot,
        fieldToScvalU256 inputs.aspNonMembershipRoot, .bytes inputs.extDataHashBe,
        .vec (inputs.inputNullifiers.map fieldToScvalU256), fieldToScvalU256 inputs.outputCommitment0,
        fieldToScvalU256 inputs.outputCommitment1, groth16Scval bytes, fieldToScvalU256 inputs.publicAmount,
        fieldToScvalU256 inputs.root] := by
    simp [decodeFields, proofScval]
  rw [decodeProof, hfields]
  simp only [decodeU256_field, decodeBytesN, hhash, dite_true, decodeVec, mapM_decodeU256,
    decodeGroth16Proof_groth16Scval, Option.bind_eq_bind, Option.bind_some]
  rfl

end

theorem fieldTryFromExtAmount_eq (n : I128) : fieldTryFromExtAmount n = .ok (n.1 : F) := by
  obtain ⟨n, hlow, hhigh⟩ := n
  have hmod : (2 : Nat) ^ 128 ≤ bn256Modulus := by decide
  unfold fieldTryFromExtAmount
  by_cases hpos : n ≥ 0
  · have hlt : ¬n.toNat ≥ bn256Modulus := by omega
    have hcast : ((n.toNat : Nat) : F) = (n : F) := by
      rw [← Int.cast_natCast, Int.toNat_of_nonneg hpos]
    simp only [hpos, if_true, hlt, if_false, hcast]
  · have hlt : ¬n.natAbs ≥ bn256Modulus := by omega
    have habs : ((n.natAbs : Nat) : Int) = -n := by omega
    have hcast : ((bn256Modulus - n.natAbs : Nat) : F) = (n : F) := by
      rw [Nat.cast_sub (by omega), ZMod.natCast_self, ← Int.cast_natCast, habs, Int.cast_neg, zero_sub, neg_neg]
    simp only [hpos, hlt, if_false, hcast]

/-- Two amounts with one public amount differ by a multiple of the modulus, which is larger than their
distance. -/
theorem calculatePublicAmount_inj {a b : Int} (ha : |a| < 2 ^ 248) (hb : |b| < 2 ^ 248)
    (h : Pool.calculatePublicAmount a = Pool.calculatePublicAmount b) : a = b := by
  rw [Pool.calculatePublicAmount_eq ha, Pool.calculatePublicAmount_eq hb] at h
  have hcast : (a : F) = (b : F) := ZMod.val_injective _ (Except.ok.inj h)
  have hdvd : (bn256Modulus : Int) ∣ b - a := (ZMod.intCast_eq_intCast_iff_dvd_sub a b _).mp hcast
  have hmod : (2 : Int) ^ 249 ≤ bn256Modulus := by decide
  have hbounds := abs_lt.mp ha
  have hbounds' := abs_lt.mp hb
  have hzero : b - a = 0 := Int.eq_zero_of_abs_lt_dvd hdvd (by rw [abs_lt]; constructor <;> omega)
  omega

/-! Both sides of a transaction compute the same data. -/

theorem ext_data_agrees (keccak : Bytes → Vector UInt8 32) (toXdr : ArgVal → Bytes)
    (parse : String → Option Address) (host : Pool.Host)
    (hhost : ∀ d, host.keccakXdr d = fromBigEndian (keccak (toXdr (extDataScval d))).toList) :
    (∀ (ext : ExtData) (address : Address), parse ext.recipient = some address →
      (hashExtDataOffchain parse keccak toXdr ext).toOption =
          ((poolExtDataToScval parse ext).toOption.bind decodeExtData).map
            (fun d => toBigEndian 32 (Pool.hashExtData host d)) ∧
        (ext.encryptedOutput0.length < 2 ^ 32 → ext.encryptedOutput1.length < 2 ^ 32 →
          (poolExtDataToScval parse ext).toOption.bind decodeExtData = some (ext.onchain address))) ∧
      (∀ amount : I128, ∃ v, fieldTryFromExtAmount amount = .ok v ∧
        (decodeI256 (i128ToI256Scval amount)).map Pool.calculatePublicAmount = some (.ok v.val) ∧
        v = (amount.1 : F)) ∧
      (∀ a b : Int, |a| < 2 ^ 248 → |b| < 2 ^ 248 →
        Pool.calculatePublicAmount a = Pool.calculatePublicAmount b → a = b) := by
  refine ⟨?_, ?_, fun a b => calculatePublicAmount_inj⟩
  · intro ext address hparse
    by_cases hlen : ext.encryptedOutput0.length < 2 ^ 32 ∧ ext.encryptedOutput1.length < 2 ^ 32
    · have hdecode : (poolExtDataToScval parse ext).toOption.bind decodeExtData =
          some (ext.onchain address) := by
        rw [poolExtDataToScval_eq hparse hlen.1 hlen.2]
        exact decodeExtData_extDataScval ext address
      refine ⟨?_, fun _ _ => hdecode⟩
      rw [hdecode, hashExtDataOffchain_eq hparse hlen.1 hlen.2, Option.map_some, Pool.hashExtData, hhost]
      rfl
    · refine ⟨?_, fun h0 h1 => absurd ⟨h0, h1⟩ hlen⟩
      rw [hashExtDataOffchain_long hlen, poolExtDataToScval_long hlen]
      rfl
  · intro amount
    have habs : |amount.1| < 2 ^ 248 := by
      rw [abs_lt]
      have hbounds := amount.2
      constructor <;> omega
    refine ⟨(amount.1 : F), fieldTryFromExtAmount_eq amount, ?_, rfl⟩
    rw [decodeI256_i128, Option.map_some, Pool.calculatePublicAmount_eq habs]

def lengthDigest (bytes : Bytes) : Vector UInt8 32 := Vector.ofFn fun i => .ofNat (bytes.length / 256 ^ (31 - i.1))

def outputsXdr : ArgVal → Bytes
  | .map ((_, .bytes output0) :: (_, .bytes output1) :: _) => output0 ++ output1
  | _ => []

def minimalExtData : ExtData where
  recipient := "G"
  extAmount := ⟨-2 ^ 127, by decide⟩
  encryptedOutput0 := [1]
  encryptedOutput1 := [2, 3]

def lengthHost : Pool.Host where
  permutation := tablePermutation []
  keccakXdr d := fromBigEndian (lengthDigest (outputsXdr (extDataScval d))).toList
  this := ⟨0⟩
  verificationKey _ := { icLength := 0, pairingCheck := fun _ _ => false }

theorem ext_data_agrees_minimal :
    (hashExtDataOffchain (fun _ => some ⟨4⟩) lengthDigest outputsXdr minimalExtData).toOption =
        some (toBigEndian 32 (Pool.hashExtData lengthHost (minimalExtData.onchain ⟨4⟩))) ∧
      ∃ v, fieldTryFromExtAmount minimalExtData.extAmount = .ok v ∧ v = ((-2 ^ 127 : Int) : F) := by
  have h := ext_data_agrees lengthDigest outputsXdr (fun _ => some ⟨4⟩) lengthHost (fun d => by simp only [lengthHost])
  constructor
  · have hext := h.1 minimalExtData ⟨4⟩ rfl
    rw [hext.1, hext.2 (by decide) (by decide)]
    rfl
  · have hamount := h.2.1 minimalExtData.extAmount
    exact hamount.imp fun v hv => ⟨hv.1, hv.2.2⟩

end PrivatePayments.Sdk

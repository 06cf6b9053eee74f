import PrivatePayments.Poseidon2

/-! `types/src/amounts.rs`: field elements as bytes. -/
namespace PrivatePayments.Sdk

abbrev Bytes := List UInt8

def fromLittleEndian : Bytes → Nat
  | [] => 0
  | b :: rest => b.toNat + 256 * fromLittleEndian rest

def toLittleEndian : Nat → Nat → Bytes
  | 0, _ => []
  | width + 1, n => .ofNat n :: toLittleEndian width (n / 256)

def tryFromU256 (v : U256) : Option F := if v ≥ bn256Modulus then none else some v

def tryFromLeBytes (bytes : Bytes) : Option F := tryFromU256 (fromLittleEndian bytes)

def fromLeBytesModOrder (bytes : Bytes) : F := (fromLittleEndian bytes : Nat)

def toLeBytes (x : F) : Bytes := toLittleEndian 32 x.val

@[simp] theorem toLittleEndian_length (width n : Nat) : (toLittleEndian width n).length = width := by
  induction width generalizing n with
  | zero => rfl
  | succ width ih => rw [toLittleEndian, List.length_cons, ih]

theorem fromLittleEndian_lt (bytes : Bytes) : fromLittleEndian bytes < 256 ^ bytes.length := by
  induction bytes with
  | nil => simp [fromLittleEndian]
  | cons b rest ih =>
    have hb := b.toNat_lt
    rw [fromLittleEndian, List.length_cons, pow_succ]
    omega

theorem toLittleEndian_fromLittleEndian (bytes : Bytes) :
    toLittleEndian bytes.length (fromLittleEndian bytes) = bytes := by
  induction bytes with
  | nil => rfl
  | cons b rest ih =>
    have hb := b.toNat_lt
    have hlow : (.ofNat (b.toNat + 256 * fromLittleEndian rest) : UInt8) = b := by
      apply UInt8.toNat.inj
      rw [UInt8.toNat_ofNat']
      omega
    have hhigh : (b.toNat + 256 * fromLittleEndian rest) / 256 = fromLittleEndian rest := by omega
    rw [fromLittleEndian, List.length_cons, toLittleEndian, hlow, hhigh, ih]

theorem fromLittleEndian_toLittleEndian {width n : Nat} (h : n < 256 ^ width) :
    fromLittleEndian (toLittleEndian width n) = n := by
  induction width generalizing n with
  | zero =>
    rw [pow_zero] at h
    simp only [toLittleEndian, fromLittleEndian]
    omega
  | succ width ih =>
    have hrest : n / 256 < 256 ^ width := by
      rw [pow_succ] at h
      omega
    rw [toLittleEndian, fromLittleEndian, ih hrest, UInt8.toNat_ofNat']
    omega

theorem tryFromU256_eq {n : Nat} (h : n < bn256Modulus) : tryFromU256 n = some (n : F) :=
  if_neg (not_le.mpr h)

theorem tryFromU256_val (x : F) : tryFromU256 x.val = some x := by
  rw [tryFromU256_eq (ZMod.val_lt x), ZMod.natCast_zmod_val]

@[simp] theorem tryFromLeBytes_toLeBytes (x : F) : tryFromLeBytes (toLeBytes x) = some x := by
  have hwidth : x.val < 256 ^ 32 := (ZMod.val_lt x).trans (by decide)
  unfold tryFromLeBytes toLeBytes
  rw [fromLittleEndian_toLittleEndian hwidth, tryFromU256_val]

theorem fromLeBytesModOrder_toLeBytes (x : F) : fromLeBytesModOrder (toLeBytes x) = x := by
  have hwidth : x.val < 256 ^ 32 := (ZMod.val_lt x).trans (by decide)
  rw [fromLeBytesModOrder, toLeBytes, fromLittleEndian_toLittleEndian hwidth, ZMod.natCast_zmod_val]

end PrivatePayments.Sdk

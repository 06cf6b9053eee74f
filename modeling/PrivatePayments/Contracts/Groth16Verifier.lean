import PrivatePayments.Contracts.SorobanUtils

/-! `circom-groth16-verifier/src/lib.rs`.  The curve operations are host
functions: the pairing equation, with the public inputs folded into the key, is
one predicate of the verification key. -/
namespace PrivatePayments.Contracts.Groth16Verifier

inductive Groth16Error where
  | invalidProof | malformedPublicInputs | malformedProof
deriving DecidableEq, Repr

/-- The points of a proof, in their fixed-size encodings. -/
structure Groth16Proof where
  a : Vector UInt8 64
  b : Vector UInt8 128
  c : Vector UInt8 64
deriving DecidableEq

def Groth16Proof.isEmpty (proof : Groth16Proof) : Bool :=
  proof.a.toList.isEmpty || proof.b.toList.isEmpty || proof.c.toList.isEmpty

@[simp] theorem Groth16Proof.isEmpty_eq_false (proof : Groth16Proof) : proof.isEmpty = false := by
  have h {n : Nat} (v : Vector UInt8 (n + 1)) : v.toList.isEmpty = false := by
    rw [List.isEmpty_eq_false_iff, ← List.length_pos_iff, Vector.length_toList]
    omega
  simp [isEmpty, h]

structure VerificationKey where
  icLength : Nat
  pairingCheck : Groth16Proof → List F → Bool

def verify (vk : VerificationKey) (proof : Groth16Proof) (publicInputs : List F) :
    Except Groth16Error Bool :=
  if checkedAdd 32 publicInputs.length 1 ≠ some vk.icLength then
    .error .malformedPublicInputs
  else if vk.pairingCheck proof publicInputs then
    .ok true
  else .error .invalidProof

end PrivatePayments.Contracts.Groth16Verifier

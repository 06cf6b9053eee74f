import PrivatePayments.Circuits.SmtVerifier
import Mathlib.Algebra.BigOperators.Fin
import Mathlib.Data.Int.Cast.Basic

/-! `circuits/src/policyTransaction.circom` and `keypair.circom`: a transaction
with policy proofs for each of its inputs, for any numbers of inputs, outputs and
proofs and any tree depths. -/
namespace PrivatePayments.Circuits
open Finset
open List hiding Vector

def keypair (P : Permutation) (privateKey : F) : F := hash2 P privateKey 0 3

def signature (P : Permutation) (privateKey commitment merklePath : F) : F :=
  hash3 P privateKey commitment merklePath 4

structure MembershipProof (levels : Nat) where
  leaf : F
  blinding : F
  pathElements : Vector F levels
  pathIndices : F

structure NonMembershipProof (levels : Nat) where
  key : F
  siblings : Vector F levels
  oldKey : F
  oldValue : F
  isOld0 : F

/-- The signals of a non-membership proof under `root`, as `SMTVerifier` takes
them: always enabled, always for non-inclusion. -/
def NonMembershipProof.signals {levels : Nat} (proof : NonMembershipProof levels) (root : F) :
    SmtSignals levels where
  enabled := 1
  root := root
  siblings := proof.siblings
  oldKey := proof.oldKey
  oldValue := proof.oldValue
  isOld0 := num2Bits proof.isOld0 0
  key := proof.key
  value := proof.key
  fnc := 1

/-- The input signals of the template, public ones first. -/
structure Signals (nIns nOuts nMembershipProofs nNonMembershipProofs levels smtLevels : Nat) where
  root : F
  publicAmount : F
  extDataHash : F
  inputNullifier : Fin nIns → F
  outputCommitment : Fin nOuts → F
  membershipRoots : Fin nIns → Fin nMembershipProofs → F
  nonMembershipRoots : Fin nIns → Fin nNonMembershipProofs → F
  membershipProofs : Fin nIns → Fin nMembershipProofs → MembershipProof levels
  nonMembershipProofs : Fin nIns → Fin nNonMembershipProofs → NonMembershipProof smtLevels
  inAmount : Fin nIns → F
  inPrivateKey : Fin nIns → F
  inBlinding : Fin nIns → F
  inPathIndices : Fin nIns → F
  inPathElements : Fin nIns → Vector F levels
  outAmount : Fin nOuts → F
  outPubkey : Fin nOuts → F
  outBlinding : Fin nOuts → F

variable {nIns nOuts nM nN levels smtLevels : Nat}

namespace Signals
variable (P : Permutation) (w : Signals nIns nOuts nM nN levels smtLevels)

def publicInputs : List F :=
  [w.root, w.publicAmount, w.extDataHash] ++ List.ofFn w.inputNullifier ++
    List.ofFn w.outputCommitment ++ (List.ofFn fun tx => List.ofFn (w.membershipRoots tx)).flatten ++
    (List.ofFn fun tx => List.ofFn (w.nonMembershipRoots tx)).flatten

section Input
variable (tx : Fin nIns)

def publicKey : F := keypair P (w.inPrivateKey tx)

def inCommitment : F := hash3 P (w.inAmount tx) (w.publicKey P tx) (w.inBlinding tx) 1

def inSignature : F :=
  signature P (w.inPrivateKey tx) (w.inCommitment P tx) (w.inPathIndices tx)

def inNullifier : F :=
  hash3 P (w.inCommitment P tx) (w.inPathIndices tx) (w.inSignature P tx) 2

def inTreeRoot : F :=
  merkleProof P (w.inCommitment P tx) (w.inPathElements tx) (w.inPathIndices tx)

def membershipRoot (i : Fin nM) : F :=
  merkleProof P (w.membershipProofs tx i).leaf (w.membershipProofs tx i).pathElements
    (w.membershipProofs tx i).pathIndices

def membershipLeaf (i : Fin nM) : F :=
  hash2 P (w.publicKey P tx) (w.membershipProofs tx i).blinding 1

def nonMembershipVerifier (i : Fin nN) : SmtSignals smtLevels :=
  (w.nonMembershipProofs tx i).signals (w.nonMembershipRoots tx i)

end Input

def outCommitment (tx : Fin nOuts) : F :=
  hash3 P (w.outAmount tx) (w.outPubkey tx) (w.outBlinding tx) 1

def inputQueries (tx : Fin nIns) : List Query :=
  [.hash2 (w.inPrivateKey tx) 0 3, .hash3 (w.inAmount tx) (w.publicKey P tx) (w.inBlinding tx) 1,
    .hash3 (w.inPrivateKey tx) (w.inCommitment P tx) (w.inPathIndices tx) 4,
    .hash3 (w.inCommitment P tx) (w.inPathIndices tx) (w.inSignature P tx) 2] ++
  merkleProofQueries P (w.inPathIndices tx) 0 (w.inCommitment P tx) (w.inPathElements tx).toList ++
  (List.finRange nM).flatMap (fun i => .hash2 (w.publicKey P tx) (w.membershipProofs tx i).blinding 1 ::
      merkleProofQueries P (w.membershipProofs tx i).pathIndices 0 (w.membershipProofs tx i).leaf
        (w.membershipProofs tx i).pathElements.toList) ++
  (List.finRange nN).flatMap (fun i => (w.nonMembershipVerifier tx i).queries P)

def outputQuery (tx : Fin nOuts) : Query :=
  .hash3 (w.outAmount tx) (w.outPubkey tx) (w.outBlinding tx) 1

def queries : List Query :=
  (List.finRange nIns).flatMap (w.inputQueries P) ++ (List.finRange nOuts).map w.outputQuery

end Signals

/-- The constraints that the first loop adds for one input. -/
structure InputConstraints (P : Permutation) (w : Signals nIns nOuts nM nN levels smtLevels)
    (tx : Fin nIns) : Prop where
  nullifier : w.inNullifier P tx = w.inputNullifier tx
  pathBits : Num2Bits levels (w.inPathIndices tx)
  checkRoot : ForceEqualIfEnabled (w.inAmount tx) w.root (w.inTreeRoot P tx)
  membershipLeaf : ∀ i, (w.membershipProofs tx i).leaf = w.membershipLeaf P tx i
  membershipBits : ∀ i, Num2Bits levels (w.membershipProofs tx i).pathIndices
  membershipRoot : ∀ i, w.membershipRoot P tx i = w.membershipRoots tx i
  nonMembershipKey : ∀ i, (w.nonMembershipProofs tx i).key = w.publicKey P tx
  isOld0Bits : ∀ i, Num2Bits 1 (w.nonMembershipProofs tx i).isOld0
  nonMembership : ∀ i, SmtVerifier P (w.nonMembershipVerifier tx i)

/-- The constraints that the second loop adds for one output. -/
structure OutputConstraints (P : Permutation) (w : Signals nIns nOuts nM nN levels smtLevels)
    (tx : Fin nOuts) : Prop where
  commitment : w.outCommitment P tx = w.outputCommitment tx
  amountCheck : Num2Bits 248 (w.outAmount tx)

structure PolicyTransaction (P : Permutation)
    (w : Signals nIns nOuts nM nN levels smtLevels) : Prop where
  inputs : ∀ tx, InputConstraints P w tx
  outputs : ∀ tx, OutputConstraints P w tx
  sameNullifiers : ∀ i j, i < j → isEqual (w.inputNullifier i) (w.inputNullifier j) = 0
  amounts : ∑ tx, w.inAmount tx + w.publicAmount = ∑ tx, w.outAmount tx

section Decide
variable (P : Permutation) (w : Signals nIns nOuts nM nN levels smtLevels)

instance (tx : Fin nIns) : Decidable (InputConstraints P w tx) :=
  decidable_of_iff (_ ∧ _ ∧ _ ∧ _ ∧ _ ∧ _ ∧ _ ∧ _ ∧ _)
    ⟨fun ⟨h₁, h₂, h₃, h₄, h₅, h₆, h₇, h₈, h₉⟩ => ⟨h₁, h₂, h₃, h₄, h₅, h₆, h₇, h₈, h₉⟩,
      fun ⟨h₁, h₂, h₃, h₄, h₅, h₆, h₇, h₈, h₉⟩ => ⟨h₁, h₂, h₃, h₄, h₅, h₆, h₇, h₈, h₉⟩⟩

instance (tx : Fin nOuts) : Decidable (OutputConstraints P w tx) :=
  decidable_of_iff (_ ∧ _) ⟨fun ⟨h₁, h₂⟩ => ⟨h₁, h₂⟩, fun ⟨h₁, h₂⟩ => ⟨h₁, h₂⟩⟩

instance : Decidable (PolicyTransaction P w) :=
  decidable_of_iff (_ ∧ _ ∧ _ ∧ _)
    ⟨fun ⟨h₁, h₂, h₃, h₄⟩ => ⟨h₁, h₂, h₃, h₄⟩, fun ⟨h₁, h₂, h₃, h₄⟩ => ⟨h₁, h₂, h₃, h₄⟩⟩

end Decide

section Queries
variable {P : Permutation} {w : Signals nIns nOuts nM nN levels smtLevels} {Q : Set Query}

def Covers (P : Permutation) (Q : Set Query) (w : Signals nIns nOuts nM nN levels smtLevels) : Prop :=
  ∀ q ∈ w.queries P, q ∈ Q

theorem covers_of (hinput : ∀ tx, ∀ q ∈ w.inputQueries P tx, q ∈ Q) (houtput : ∀ tx, w.outputQuery tx ∈ Q) :
    Covers P Q w := by
  intro q hq
  rcases mem_append.mp hq with hq | hq
  · obtain ⟨tx, -, hq⟩ := mem_flatMap.mp hq
    exact hinput tx q hq
  · obtain ⟨tx, -, rfl⟩ := mem_map.mp hq
    exact houtput tx

section
variable (h : Covers P Q w)
include h

theorem Covers.input (tx : Fin nIns) {q : Query} (hq : q ∈ w.inputQueries P tx) : q ∈ Q :=
  h q (mem_append_left _ (mem_flatMap.mpr ⟨tx, mem_finRange tx, hq⟩))

theorem Covers.output (tx : Fin nOuts) : w.outputQuery tx ∈ Q :=
  h _ (mem_append_right _ (mem_map.mpr ⟨tx, mem_finRange tx, rfl⟩))

section
variable (tx : Fin nIns)
include tx

theorem Covers.keypair : .hash2 (w.inPrivateKey tx) 0 3 ∈ Q :=
  h.input tx (by simp [Signals.inputQueries])

theorem Covers.commitment : .hash3 (w.inAmount tx) (w.publicKey P tx) (w.inBlinding tx) 1 ∈ Q :=
  h.input tx (by simp [Signals.inputQueries])

theorem Covers.nullifier :
    .hash3 (w.inCommitment P tx) (w.inPathIndices tx) (w.inSignature P tx) 2 ∈ Q :=
  h.input tx (by simp [Signals.inputQueries])

theorem Covers.path {q : Query}
    (hq : q ∈ merkleProofQueries P (w.inPathIndices tx) 0 (w.inCommitment P tx)
      (w.inPathElements tx).toList) : q ∈ Q := by
  apply h.input tx
  rw [Signals.inputQueries]
  exact mem_append_left _ (mem_append_left _ (mem_append_right _ hq))

theorem Covers.membershipPath (i : Fin nM) {q : Query}
    (hq : q ∈ merkleProofQueries P (w.membershipProofs tx i).pathIndices 0
      (w.membershipProofs tx i).leaf (w.membershipProofs tx i).pathElements.toList) : q ∈ Q := by
  apply h.input tx
  rw [Signals.inputQueries]
  apply mem_append_left
  apply mem_append_right
  exact mem_flatMap.mpr ⟨i, mem_finRange i, mem_cons_of_mem _ hq⟩

theorem Covers.nonMembership (i : Fin nN) {q : Query}
    (hq : q ∈ (w.nonMembershipVerifier tx i).queries P) : q ∈ Q := by
  apply h.input tx
  rw [Signals.inputQueries]
  exact mem_append_right _ (mem_flatMap.mpr ⟨i, mem_finRange i, hq⟩)

end

end

end Queries

/-! Nullifiers.  Two slots, of one transaction or of two, are compared through
what has been hashed for them. -/

section Nullifiers
variable {P : Permutation} {Q : Set Query} {w v : Signals nIns nOuts nM nN levels smtLevels}
  {tx ty : Fin nIns}

theorem PolicyTransaction.nullifier_injective (h : PolicyTransaction P w) : Function.Injective w.inputNullifier := by
  intro i j heq
  rcases lt_trichotomy i j with hlt | rfl | hlt
  · simpa [isEqual, heq] using h.sameNullifiers i j hlt
  · rfl
  · simpa [isEqual, heq] using h.sameNullifiers j i hlt

section
variable (hcf : CollisionFree P Q) (hw : Covers P Q w) (hv : Covers P Q v)
include hcf hw hv

theorem opening_unique (h : w.inCommitment P tx = v.inCommitment P ty) :
    w.inAmount tx = v.inAmount ty ∧ w.inPrivateKey tx = v.inPrivateKey ty := by
  obtain ⟨hamount, hkey, -, -⟩ := hcf.hash3_inj (hw.commitment tx) (hv.commitment ty) h
  exact ⟨hamount, (hcf.hash2_inj (hw.keypair tx) (hv.keypair ty) hkey).1⟩

theorem nullifier_eq_of_leaf
    (hcommitment : w.inCommitment P tx = v.inCommitment P ty) (hindex : w.inPathIndices tx = v.inPathIndices ty) :
    w.inNullifier P tx = v.inNullifier P ty := by
  have hkey := (opening_unique hcf hw hv hcommitment).2
  simp only [Signals.inNullifier, Signals.inSignature, hcommitment, hindex, hkey]

theorem leaf_of_nullifier_eq (h : w.inNullifier P tx = v.inNullifier P ty) :
    w.inCommitment P tx = v.inCommitment P ty ∧ w.inPathIndices tx = v.inPathIndices ty := by
  obtain ⟨hcommitment, hindex, -, -⟩ := hcf.hash3_inj (hw.nullifier tx) (hv.nullifier ty) h
  exact ⟨hcommitment, hindex⟩

end

end Nullifiers

/-! Amounts.  The field equation is an equation of integers as long as all
amounts are small, whatever the numbers of inputs and outputs. -/

section Amounts

theorem eq_of_cast_eq {a b : Int} (h : ((a : Int) : F) = ((b : Int) : F))
    (hlt : |a - b| < bn256Modulus) : a = b := by
  have hdvd : (bn256Modulus : Int) ∣ a - b := by
    rw [← ZMod.intCast_zmod_eq_zero_iff_dvd, Int.cast_sub, h, sub_self]
  exact sub_eq_zero.mp (Int.eq_zero_of_abs_lt_dvd hdvd hlt)

theorem cast_sum_val {n : Nat} (amount : Fin n → F) :
    ((∑ tx, ((amount tx).val : Int) : Int) : F) = ∑ tx, amount tx := by
  rw [Int.cast_sum]
  exact Finset.sum_congr rfl fun tx _ => by simp

theorem sum_val_lt {n : Nat} {amount : Fin n → F} {bound : Nat} (h : ∀ tx, (amount tx).val < bound) :
    0 ≤ ∑ tx, ((amount tx).val : Int) ∧ ∑ tx, ((amount tx).val : Int) ≤ n * bound := by
  refine ⟨Finset.sum_nonneg fun tx _ => Int.natCast_nonneg _, ?_⟩
  calc ∑ tx, ((amount tx).val : Int) ≤ ∑ _tx : Fin n, (bound : Int) :=
        Finset.sum_le_sum fun tx _ => by exact_mod_cast (h tx).le
    _ = n * bound := by simp

/-- No wrap-around: if the inputs are as small as outputs have to be, the
amounts balance as integers. -/
theorem PolicyTransaction.amounts_int {P : Permutation}
    {w : Signals nIns nOuts nM nN levels smtLevels} (h : PolicyTransaction P w)
    (hsize : nIns + nOuts < 48) (hin : ∀ tx, (w.inAmount tx).val < 2 ^ 248) {ext : Int}
    (hext : |ext| < 2 ^ 248) (hpublic : w.publicAmount = (ext : F)) :
    ∑ tx, ((w.inAmount tx).val : Int) + ext = ∑ tx, ((w.outAmount tx).val : Int) := by
  have hins := sum_val_lt hin
  have houts := sum_val_lt fun tx => (h.outputs tx).amountCheck
  have hmod : (48 * 2 ^ 248 : Int) < bn256Modulus := by decide
  have hbound : ((nIns + nOuts : Nat) : Int) ≤ 47 := by exact_mod_cast Nat.le_of_lt_succ hsize
  have hext := abs_lt.mp hext
  push_cast at hins houts hbound
  apply eq_of_cast_eq
  · rw [Int.cast_add, cast_sum_val, cast_sum_val, ← hpublic]
    exact h.amounts
  · rw [abs_lt]
    constructor <;> omega

end Amounts

end PrivatePayments.Circuits

import Mathlib.Algebra.BigOperators.Group.List.Basic
import Mathlib.Tactic.Ring
import PrivatePayments.Sdk.R1cs

/-! `prover/src/prover.rs`: the constraints of a parsed file are replayed into a constraint system
of arkworks, which is a parameter. -/
namespace PrivatePayments.Sdk.Replay
open Contracts R1cs List

/-! `ark_relations`. -/

inductive Variable where
  | one
  | instanceVar (index : Nat)
  | witnessVar (index : Nat)

structure Relations where
  LC : Type
  ConstraintSystem : Type
  empty : LC
  addAssign : LC → F × Variable → LC
  eval : (Variable → F) → LC → F
  new : ConstraintSystem
  newInputVariable : F → ConstraintSystem → Variable × ConstraintSystem
  newWitnessVariable : F → ConstraintSystem → Variable × ConstraintSystem
  enforceR1csConstraint : LC → LC → LC → ConstraintSystem → ConstraintSystem
  instanceAssignment : ConstraintSystem → List F
  assignedValue : ConstraintSystem → Variable → Option F
  constraints : ConstraintSystem → List (LC × LC × LC)

namespace Relations
variable (A : Relations)

def assigned (cs : A.ConstraintSystem) (var : Variable) : F := (A.assignedValue cs var).getD 0

def IsSatisfied (cs : A.ConstraintSystem) : Prop :=
  ∀ constraint ∈ A.constraints cs, A.eval (A.assigned cs) constraint.1 * A.eval (A.assigned cs) constraint.2.1 =
    A.eval (A.assigned cs) constraint.2.2

/-- The variable has the value, and neither the other variables nor the constraints change. -/
structure Allocates (value : F) (cs : A.ConstraintSystem) (allocated : Variable × A.ConstraintSystem) : Prop where
  value : A.assignedValue allocated.2 allocated.1 = some value
  others : ∀ var x, A.assignedValue cs var = some x → A.assignedValue allocated.2 var = some x
  constraints : A.constraints allocated.2 = A.constraints cs

end Relations

/-- What is used of arkworks. -/
structure LawfulRelations extends Relations where
  eval_empty : ∀ assigned, eval assigned empty = 0
  eval_addAssign : ∀ assigned lc coefficient var,
    eval assigned (addAssign lc (coefficient, var)) = eval assigned lc + coefficient * assigned var
  new_one : assignedValue new .one = some 1
  new_instance : instanceAssignment new = [1]
  new_constraints : constraints new = []
  input_allocates : ∀ value cs, toRelations.Allocates value cs (newInputVariable value cs)
  input_instance : ∀ value cs,
    instanceAssignment (newInputVariable value cs).2 = instanceAssignment cs ++ [value]
  witness_allocates : ∀ value cs, toRelations.Allocates value cs (newWitnessVariable value cs)
  witness_instance : ∀ value cs, instanceAssignment (newWitnessVariable value cs).2 = instanceAssignment cs
  enforce_assigned : ∀ a b c cs, assignedValue (enforceR1csConstraint a b c cs) = assignedValue cs
  enforce_instance : ∀ a b c cs, instanceAssignment (enforceR1csConstraint a b c cs) = instanceAssignment cs
  enforce_constraints : ∀ a b c cs,
    constraints (enforceR1csConstraint a b c cs) = constraints cs ++ [(a, b, c)]

/-! `R1CSCircuit`. -/

inductive SynthesisError where
  | unsatisfiable

section
variable (A : Relations) (witness : List F)

def allocateInput (allocated : List Variable × A.ConstraintSystem) (i : Nat) :
    Except (Abort SynthesisError) (List Variable × A.ConstraintSystem) :=
  match witness[i]? with
  | none => .error (.error .unsatisfiable)
  | some value =>
      let (var, cs) := A.newInputVariable value allocated.2
      .ok (allocated.1 ++ [var], cs)

def allocateWitness (allocated : List Variable × A.ConstraintSystem) (i : Nat) :
    List Variable × A.ConstraintSystem :=
  let (var, cs) := A.newWitnessVariable (witness.getD i 0) allocated.2
  (allocated.1 ++ [var], cs)

end

section
variable (A : Relations) (vars : List Variable)

def addTerm (lc : A.LC) (t : Term) : Except (Abort SynthesisError) A.LC :=
  match vars[t.wireId.toNat]? with
  | none => .error .panic
  | some var => .ok (A.addAssign lc (t.coefficient, var))

def combination (lc : LinearCombination) : Except (Abort SynthesisError) A.LC :=
  lc.terms.foldlM (addTerm A vars) A.empty

def enforce (cs : A.ConstraintSystem) (constraint : Constraint) :
    Except (Abort SynthesisError) A.ConstraintSystem := do
  let a ← combination A vars constraint.a
  let b ← combination A vars constraint.b
  let c ← combination A vars constraint.c
  return A.enforceR1csConstraint a b c cs

end

def terms (constraint : Constraint) : List Term :=
  constraint.a.terms ++ constraint.b.terms ++ constraint.c.terms

def expect {α : Type} (value : Option α) : Except (Abort SynthesisError) α :=
  match value with
  | none => .error .panic
  | some a => .ok a

def generateConstraints (A : Relations) (r1cs : R1CS) (witness : List F) (cs : A.ConstraintSystem) :
    Except (Abort SynthesisError) A.ConstraintSystem := do
  failIf (witness.head? ≠ some 1) .unsatisfiable
  let needed ← expect (checkedAdd 32 r1cs.numPublic.toNat 1)
  failIf (needed > r1cs.numWires.toNat) .unsatisfiable
  failIf (witness.length < r1cs.numWires.toNat) .unsatisfiable
  let allocated ← (List.range' 1 r1cs.numPublic.toNat).foldlM (allocateInput A witness) ([.one], cs)
  let first := r1cs.numPublic.toNat + 1
  let (vars, cs) :=
    (List.range' first (r1cs.numWires.toNat - first)).foldl (allocateWitness A witness) allocated
  failIf (∃ constraint ∈ r1cs.constraints, ∃ t ∈ terms constraint, t.wireId.toNat ≥ r1cs.numWires.toNat)
    .unsatisfiable
  r1cs.constraints.foldlM (enforce A vars) cs

/-! `Prover`. -/

inductive ProverError where
  | expectedBytes (expected got : Nat)
  | invalidWitnessSize
  | publicSizeOverflow
  | endOffsetOverflow
  | witnessTooShort (expected numPublic : Nat)

def chunksExact (bytes : Bytes) : List Bytes :=
  (List.range (bytes.length / 32)).map fun i => (bytes.drop (32 * i)).take 32

def bytesToFr (bytes : Bytes) : Except ProverError F :=
  if bytes.length ≠ 32 then .error (.expectedBytes 32 bytes.length) else .ok (fromLeBytesModOrder bytes)

def witnessElements (bytes : Bytes) : Except ProverError (List F) :=
  if bytes.length % 32 ≠ 0 then .error .invalidWitnessSize else (chunksExact bytes).mapM bytesToFr

/-- `checked_mul` on an unsigned integer of `width` bits. -/
def checkedMul (width a b : Nat) : Option Nat := if a * b < 2 ^ width then some (a * b) else none

def orError {α : Type} (value : Option α) (e : ProverError) : Except ProverError α :=
  match value with
  | none => .error e
  | some a => .ok a

def extractPublicInputs {width : Nat} (r1cs : R1CS) (witnessBytes : Slice width) : Except ProverError Bytes := do
  if witnessBytes.1.length % 32 ≠ 0 then .error .invalidWitnessSize
  else
    let publicSize ← orError (checkedMul width r1cs.numPublic.toNat 32) .publicSizeOverflow
    let stop ← orError (checkedAdd width 32 publicSize) .endOffsetOverflow
    if stop > witnessBytes.1.length then .error (.witnessTooShort stop r1cs.numPublic.toNat)
    else return (witnessBytes.1.drop 32).take (stop - 32)

/-- The first `count` wires have variables, with the values of the witness, and no constraint is
there yet. -/
structure Wired (A : Relations) (witness : List F) (count : Nat)
    (allocated : List Variable × A.ConstraintSystem) : Prop where
  length : allocated.1.length = count
  assigned : ∀ wire < count, ∃ var, allocated.1[wire]? = some var ∧
    A.assignedValue allocated.2 var = some (witness.getD wire 0)
  constraints : A.constraints allocated.2 = []

section
variable {A : LawfulRelations} {witness : List F}

variable {allocated : List Variable × A.ConstraintSystem}

theorem Wired.allocate {count : Nat}
    {next : Variable × A.ConstraintSystem} (h : Wired A.toRelations witness count allocated)
    (hnext : A.Allocates (witness.getD count 0) allocated.2 next) :
    Wired A.toRelations witness (count + 1) (allocated.1 ++ [next.1], next.2) where
  length := by rw [length_append, h.length, length_singleton]
  assigned wire hwire := by
    rcases Nat.lt_succ_iff_lt_or_eq.mp hwire with hlt | rfl
    · obtain ⟨var, hvar, hvalue⟩ := h.assigned wire hlt
      refine ⟨var, ?_, hnext.others var _ hvalue⟩
      rw [getElem?_append_left (by rwa [h.length]), hvar]
    · refine ⟨next.1, ?_, hnext.value⟩
      rw [← h.length]
      exact getElem?_concat_length
  constraints := hnext.constraints.trans h.constraints

theorem Wired.new (hone : witness.head? = some 1) : Wired A.toRelations witness 1 ([.one], A.new) where
  length := rfl
  assigned wire hwire := by
    cases Nat.lt_one_iff.mp hwire
    refine ⟨.one, rfl, ?_⟩
    rw [A.new_one, getD_eq_getElem?_getD, ← head?_eq_getElem?, hone]
    rfl
  constraints := A.new_constraints

theorem allocateInput_loop (hone : witness.head? = some 1) {count : Nat} (h : count < witness.length) :
    ∃ allocated,
      (List.range' 1 count).foldlM (allocateInput A.toRelations witness) ([.one], A.new) = .ok allocated ∧
      Wired A.toRelations witness (count + 1) allocated ∧
      A.instanceAssignment allocated.2 = 1 :: (witness.drop 1).take count := by
  induction count with
  | zero => exact ⟨_, rfl, .new hone, A.new_instance⟩
  | succ count ih =>
    obtain ⟨allocated, hloop, hwired, hinstance⟩ := ih (by omega)
    have hget : witness[1 + 1 * count]? = some (witness.getD (count + 1) 0) := by
      rw [one_mul, add_comm, getD_eq_getElem?_getD, getElem?_eq_getElem h]
      rfl
    refine ⟨_, ?_, hwired.allocate (A.input_allocates _ _), ?_⟩
    · rw [range'_concat, foldlM_append, hloop, ok_bind, foldlM_cons, allocateInput, hget]
      rfl
    · rw [A.input_instance, hinstance, take_add_one, getElem?_drop, ← one_mul count, hget,
        one_mul]
      rfl

theorem allocateWitness_loop {first : Nat}
    (h : Wired A.toRelations witness first allocated) (others : Nat) :
    ∃ out, (List.range' first others).foldl (allocateWitness A.toRelations witness) allocated = out ∧
      Wired A.toRelations witness (first + others) out ∧
      A.instanceAssignment out.2 = A.instanceAssignment allocated.2 := by
  induction others with
  | zero => exact ⟨allocated, rfl, h, rfl⟩
  | succ others ih =>
    obtain ⟨out, hloop, hwired, hinstance⟩ := ih
    refine ⟨_, ?_, hwired.allocate (A.witness_allocates _ _), (A.witness_instance _ _).trans hinstance⟩
    rw [range'_concat, foldl_append, hloop, one_mul]
    rfl

end

def value (wires : List F) (lc : LinearCombination) : F :=
  (lc.terms.map fun t => t.coefficient * wires.getD t.wireId.toNat 0).sum

def Satisfies (wires : List F) (constraint : Constraint) : Prop :=
  value wires constraint.a * value wires constraint.b = value wires constraint.c

section
variable {A : LawfulRelations} {vars : List Variable} {assigned : Variable → F} {wires : List F} {numWires : Nat}

theorem combination_eval
    (hwires : ∀ wire < numWires, ∃ var, vars[wire]? = some var ∧ assigned var = wires.getD wire 0)
    {lc : LinearCombination} (hlc : ∀ t ∈ lc.terms, t.wireId.toNat < numWires) :
    ∃ out, combination A.toRelations vars lc = .ok out ∧ A.eval assigned out = value wires lc := by
  have hloop : ∀ terms : List Term, (∀ t ∈ terms, t.wireId.toNat < numWires) → ∀ acc,
      ∃ out, terms.foldlM (addTerm A.toRelations vars) acc = .ok out ∧ A.eval assigned out =
        A.eval assigned acc + (terms.map fun t => t.coefficient * wires.getD t.wireId.toNat 0).sum := by
    intro terms hterms
    induction terms with
    | nil => exact fun acc => ⟨acc, rfl, by simp⟩
    | cons t rest ih =>
      intro acc
      obtain ⟨ht, hrest⟩ := forall_mem_cons.mp hterms
      obtain ⟨var, hvar, hvalue⟩ := hwires _ ht
      obtain ⟨out, hout, heval⟩ := ih hrest (A.addAssign acc (t.coefficient, var))
      refine ⟨out, ?_, ?_⟩
      · rw [foldlM_cons, addTerm, hvar]
        exact hout
      · rw [heval, A.eval_addAssign, hvalue, map_cons, sum_cons]
        ring
  obtain ⟨out, hout, heval⟩ := hloop lc.terms hlc A.empty
  refine ⟨out, hout, ?_⟩
  rw [heval, A.eval_empty, zero_add, value]

theorem enforce_loop {constraints : List Constraint}
    (hids : ∀ constraint ∈ constraints, ∀ t ∈ terms constraint, t.wireId.toNat < numWires)
    (cs : A.ConstraintSystem)
    (hwires : ∀ wire < numWires, ∃ var, vars[wire]? = some var ∧ A.assigned cs var = wires.getD wire 0) :
    ∃ cs', constraints.foldlM (enforce A.toRelations vars) cs = .ok cs' ∧
      A.instanceAssignment cs' = A.instanceAssignment cs ∧
      (A.IsSatisfied cs' ↔ A.IsSatisfied cs ∧ ∀ constraint ∈ constraints, Satisfies wires constraint) := by
  induction constraints generalizing cs with
  | nil => exact ⟨cs, rfl, rfl, by simp⟩
  | cons constraint rest ih =>
    obtain ⟨hterms, hrest⟩ := forall_mem_cons.mp hids
    simp only [terms, forall_mem_append] at hterms
    obtain ⟨a, ha, haEval⟩ := @combination_eval A vars (A.assigned cs) _ _ hwires constraint.a hterms.1.1
    obtain ⟨b, hb, hbEval⟩ := @combination_eval A vars (A.assigned cs) _ _ hwires constraint.b hterms.1.2
    obtain ⟨c, hc, hcEval⟩ := @combination_eval A vars (A.assigned cs) _ _ hwires constraint.c hterms.2
    have hassigned : A.assigned (A.enforceR1csConstraint a b c cs) = A.assigned cs := by
      funext var
      rw [Relations.assigned, A.enforce_assigned, Relations.assigned]
    obtain ⟨cs', hloop, hinstance, hsat⟩ := ih hrest (A.enforceR1csConstraint a b c cs) (by rwa [hassigned])
    refine ⟨cs', ?_, hinstance.trans (A.enforce_instance a b c cs), ?_⟩
    · rw [foldlM_cons, enforce, ha, hb, hc]
      exact hloop
    · have hone : A.IsSatisfied (A.enforceR1csConstraint a b c cs) ↔
          A.IsSatisfied cs ∧ Satisfies wires constraint := by
        rw [Relations.IsSatisfied, hassigned, A.enforce_constraints, forall_mem_append,
          forall_mem_singleton, haEval, hbEval, hcEval]
        rfl
      rw [hsat, hone, forall_mem_cons, and_assoc]

end

structure Accepted (r1cs : R1CS) (witness : List F) : Prop where
  one : witness.head? = some 1
  numPublic : r1cs.numPublic.toNat + 1 ≤ r1cs.numWires.toNat
  length : r1cs.numWires.toNat ≤ witness.length
  wires : ∀ constraint ∈ r1cs.constraints, ∀ t ∈ terms constraint, t.wireId.toNat < r1cs.numWires.toNat

theorem generateConstraints_accepted {A : LawfulRelations} {r1cs : R1CS} {witness : List F}
    (h : Accepted r1cs witness) :
    ∃ cs, generateConstraints A.toRelations r1cs witness A.new = .ok cs ∧
      A.instanceAssignment cs = 1 :: (witness.drop 1).take r1cs.numPublic.toNat ∧
      (A.IsSatisfied cs ↔
        ∀ constraint ∈ r1cs.constraints, Satisfies (witness.take r1cs.numWires.toNat) constraint) := by
  have hwidth := r1cs.numWires.toNat_lt
  have hadd : checkedAdd 32 r1cs.numPublic.toNat 1 = some (r1cs.numPublic.toNat + 1) :=
    if_pos (lt_of_le_of_lt h.numPublic hwidth)
  have hcount : r1cs.numPublic.toNat + 1 + (r1cs.numWires.toNat - (r1cs.numPublic.toNat + 1)) =
      r1cs.numWires.toNat := by
    have := h.numPublic
    omega
  have hbound : r1cs.numPublic.toNat < witness.length := lt_of_lt_of_le h.numPublic h.length
  have hids : ¬∃ constraint ∈ r1cs.constraints, ∃ t ∈ terms constraint,
      t.wireId.toNat ≥ r1cs.numWires.toNat := by
    rintro ⟨constraint, hconstraint, t, ht, hge⟩
    exact absurd (h.wires constraint hconstraint t ht) (not_lt.mpr hge)
  obtain ⟨inputs, hinputs, hpublic, hinstance⟩ := @allocateInput_loop A witness h.one _ hbound
  obtain ⟨⟨vars, cs⟩, hothers, hwired, hkept⟩ :=
    allocateWitness_loop hpublic (r1cs.numWires.toNat - (r1cs.numPublic.toNat + 1))
  rw [hcount] at hwired
  have hassigned : ∀ wire < r1cs.numWires.toNat, ∃ var, vars[wire]? = some var ∧
      A.assigned cs var = (witness.take r1cs.numWires.toNat).getD wire 0 := by
    intro wire hwire
    obtain ⟨var, hvar, hvalue⟩ := hwired.assigned wire hwire
    refine ⟨var, hvar, ?_⟩
    rw [getD_eq_getElem?_getD, getElem?_take_of_lt hwire, ← getD_eq_getElem?_getD,
      Relations.assigned, hvalue]
    rfl
  obtain ⟨cs', hloop, henforced, hsat⟩ := enforce_loop h.wires cs hassigned
  refine ⟨cs', ?_, henforced.trans (hkept.trans hinstance), ?_⟩
  · rw [generateConstraints, failIf_neg (not_not.mpr h.one), ok_bind, hadd, expect, ok_bind,
      failIf_neg (not_lt.mpr h.numPublic), ok_bind, failIf_neg (not_lt.mpr h.length), ok_bind,
      hinputs, ok_bind]
    dsimp only
    rw [hothers, failIf_neg hids, ok_bind]
    exact hloop
  · rw [hsat, Relations.IsSatisfied, hwired.constraints]
    exact and_iff_right nofun

theorem generateConstraints_ok {A : Relations} {r1cs : R1CS} {witness : List F} {cs cs' : A.ConstraintSystem}
    (h : generateConstraints A r1cs witness cs = .ok cs') : Accepted r1cs witness := by
  obtain ⟨_, hone, h⟩ := bind_eq_ok h
  obtain ⟨needed, hneeded, h⟩ := bind_eq_ok h
  obtain ⟨_, hpublic, h⟩ := bind_eq_ok h
  obtain ⟨_, hlength, h⟩ := bind_eq_ok h
  obtain ⟨allocated, -, h⟩ := bind_eq_ok h
  obtain ⟨_, hids, -⟩ := bind_eq_ok h
  have hadd : checkedAdd 32 r1cs.numPublic.toNat 1 = some needed := by
    cases hcase : checkedAdd 32 r1cs.numPublic.toNat 1 with
    | none =>
      rw [hcase] at hneeded
      cases hneeded
    | some n =>
      rw [hcase] at hneeded
      cases hneeded
      rfl
  have hpublic := failIf_eq_ok hpublic
  have hids := failIf_eq_ok hids
  rw [(checkedAdd_eq_some hadd).2] at hpublic
  refine ⟨not_not.mp (failIf_eq_ok hone), Nat.le_of_not_lt hpublic, Nat.le_of_not_lt (failIf_eq_ok hlength), ?_⟩
  intro constraint hconstraint t ht
  exact Nat.lt_of_not_le fun hge => hids ⟨constraint, hconstraint, t, ht, hge⟩

variable {bytes : Bytes}

theorem chunksExact_getElem? {i : Nat} (h : i < bytes.length / 32) :
    (chunksExact bytes)[i]? = some ((bytes.drop (32 * i)).take 32) := by
  rw [chunksExact, getElem?_map, getElem?_range h]
  rfl

theorem length_chunksExact (bytes : Bytes) : (chunksExact bytes).length = bytes.length / 32 := by
  simp [chunksExact]

theorem chunksExact_mapM (bytes : Bytes) :
    (chunksExact bytes).mapM bytesToFr = .ok ((chunksExact bytes).map fromLeBytesModOrder) := by
  have hall : ∀ chunks : List Bytes, (∀ chunk ∈ chunks, chunk.length = 32) →
      chunks.mapM bytesToFr = .ok (chunks.map fromLeBytesModOrder) := by
    intro chunks hchunks
    induction chunks with
    | nil => rfl
    | cons chunk rest ih =>
      obtain ⟨hchunk, hrest⟩ := forall_mem_cons.mp hchunks
      rw [mapM_cons, bytesToFr, if_neg (not_not.mpr hchunk), ok_bind, ih hrest]
      rfl
  apply hall
  intro chunk hchunk
  obtain ⟨i, hi, rfl⟩ := mem_map.mp hchunk
  rw [mem_range] at hi
  rw [length_take, length_drop]
  omega

theorem witnessElements_eq (h : bytes.length % 32 = 0) :
    witnessElements bytes = .ok ((chunksExact bytes).map fromLeBytesModOrder) := by
  rw [witnessElements, if_neg (not_not.mpr h), chunksExact_mapM]

theorem witnessElements_ok {witness : List F} (h : witnessElements bytes = .ok witness) :
    bytes.length % 32 = 0 ∧ witness = (chunksExact bytes).map fromLeBytesModOrder := by
  by_cases hlen : bytes.length % 32 = 0
  · rw [witnessElements_eq hlen] at h
    cases h
    exact ⟨hlen, rfl⟩
  · rw [witnessElements, if_pos hlen] at h
    cases h

theorem chunksExact_slice {count : Nat} (h : 32 * (count + 1) ≤ bytes.length) :
    chunksExact ((bytes.drop 32).take (32 * count)) = ((chunksExact bytes).drop 1).take count := by
  have hlen : ((bytes.drop 32).take (32 * count)).length = 32 * count := by
    rw [length_take, length_drop]
    omega
  apply ext_getElem?
  intro i
  by_cases hi : i < count
  · rw [chunksExact_getElem? (by omega), getElem?_take_of_lt hi, getElem?_drop,
      chunksExact_getElem? (by omega), drop_take, take_take, drop_drop]
    congr 2
    · omega
    · congr 1
      omega
  · rw [getElem?_eq_none (by rw [length_chunksExact, hlen]; omega),
      getElem?_eq_none (by rw [length_take]; omega)]

theorem extractPublicInputs_ok {width : Nat} {r1cs : R1CS} {bytes : Slice width} {witness : List F}
    (hwitness : witnessElements bytes.1 = .ok witness) (hcount : r1cs.numPublic.toNat < witness.length) :
    ∃ out, extractPublicInputs r1cs bytes = .ok out ∧
      witnessElements out = .ok ((witness.drop 1).take r1cs.numPublic.toNat) := by
  obtain ⟨hlen, rfl⟩ := witnessElements_ok hwitness
  rw [length_map, length_chunksExact] at hcount
  have hfits := bytes.2
  have hmul : checkedMul width r1cs.numPublic.toNat 32 = some (r1cs.numPublic.toNat * 32) := if_pos (by omega)
  have hadd : checkedAdd width 32 (r1cs.numPublic.toNat * 32) = some (32 + r1cs.numPublic.toNat * 32) :=
    if_pos (by omega)
  refine ⟨(bytes.1.drop 32).take (32 * r1cs.numPublic.toNat), ?_, ?_⟩
  · rw [extractPublicInputs, if_neg (not_not.mpr hlen), hmul, orError, ok_bind, hadd, orError, ok_bind,
      if_neg (by omega), Nat.add_sub_cancel_left, mul_comm]
    rfl
  · rw [witnessElements_eq (by rw [length_take, length_drop]; omega), chunksExact_slice (by omega),
      map_take, map_drop]

/-- A replayed system is satisfied when the constraints of the file hold for the witness, its
instance is the public wires, and replaying succeeds exactly when the wires make sense. -/
theorem replay_faithful (A : LawfulRelations) (r1cs : R1CS) (witness : List F) :
    (∀ cs, generateConstraints A.toRelations r1cs witness A.new = .ok cs →
      (A.IsSatisfied cs ↔
        ∀ constraint ∈ r1cs.constraints, Satisfies (witness.take r1cs.numWires.toNat) constraint) ∧
      A.instanceAssignment cs = 1 :: (witness.drop 1).take r1cs.numPublic.toNat ∧
      ∀ width (bytes : Slice width), witnessElements bytes.1 = .ok witness →
        ∃ out, extractPublicInputs r1cs bytes = .ok out ∧
          witnessElements out = .ok ((witness.drop 1).take r1cs.numPublic.toNat)) ∧
    ((∃ cs, generateConstraints A.toRelations r1cs witness A.new = .ok cs) ↔ Accepted r1cs witness) := by
  refine ⟨fun cs hcs => ?_, fun ⟨cs, hcs⟩ => generateConstraints_ok hcs, fun h => ?_⟩
  · have haccepted := generateConstraints_ok hcs
    obtain ⟨cs', hcs', hinstance, hsat⟩ := @generateConstraints_accepted A r1cs witness haccepted
    cases hcs.symm.trans hcs'
    refine ⟨hsat, hinstance, fun width bytes hbytes => ?_⟩
    exact extractPublicInputs_ok hbytes (lt_of_lt_of_le haccepted.numPublic haccepted.length)
  · obtain ⟨cs, hcs, -⟩ := @generateConstraints_accepted A r1cs witness h
    exact ⟨cs, hcs⟩

def termLists : LawfulRelations where
  LC := List (F × Variable)
  ConstraintSystem := List F × List F × List (List (F × Variable) × List (F × Variable) × List (F × Variable))
  empty := []
  addAssign lc term := lc ++ [term]
  eval assigned lc := (lc.map fun term => term.1 * assigned term.2).sum
  new := ([1], [], [])
  newInputVariable value cs := (.instanceVar cs.1.length, cs.1 ++ [value], cs.2)
  newWitnessVariable value cs := (.witnessVar cs.2.1.length, cs.1, cs.2.1 ++ [value], cs.2.2)
  enforceR1csConstraint a b c cs := (cs.1, cs.2.1, cs.2.2 ++ [(a, b, c)])
  instanceAssignment cs := cs.1
  assignedValue cs var :=
    match var with
    | .one => some 1
    | .instanceVar index => cs.1[index]?
    | .witnessVar index => cs.2.1[index]?
  constraints cs := cs.2.2
  eval_empty _ := rfl
  eval_addAssign assigned lc coefficient var := by simp
  new_one := rfl
  new_instance := rfl
  new_constraints := rfl
  input_allocates value cs := ⟨by simp, by grind, rfl⟩
  input_instance _ _ := rfl
  witness_allocates value cs := ⟨by simp, by grind, rfl⟩
  witness_instance _ _ := rfl
  enforce_assigned _ _ _ _ := rfl
  enforce_instance _ _ _ _ := rfl
  enforce_constraints _ _ _ _ := rfl

/-- Wire 2 is the square of the public wire 1, which occurs twice on the right. -/
def squareR1cs : R1CS where
  numWires := 3
  numPubOut := 0
  numPubIn := 1
  numPrvIn := 1
  numPublic := 1
  constraints :=
    [{ a := ⟨[⟨1, 1⟩]⟩, b := ⟨[⟨1, 2⟩]⟩, c := ⟨[⟨2, 1⟩, ⟨2, 1⟩]⟩ }]

theorem replay_faithful_square :
    ∃ cs, generateConstraints termLists.toRelations squareR1cs [1, 3, 9] termLists.new = .ok cs ∧
      termLists.IsSatisfied cs ∧ termLists.instanceAssignment cs = [1, 3] := by
  have haccepted : Accepted squareR1cs [1, 3, 9] := ⟨rfl, by decide, by decide, by decide⟩
  obtain ⟨hfaithful, hok⟩ := replay_faithful termLists squareR1cs [1, 3, 9]
  obtain ⟨cs, hcs⟩ := hok.mpr haccepted
  obtain ⟨hsat, hinstance, -⟩ := hfaithful cs hcs
  refine ⟨cs, hcs, hsat.mpr ?_, hinstance⟩
  intro constraint hconstraint
  rw [mem_singleton.mp hconstraint]
  exact (by decide : (3 * 1 + 0 : F) * (3 * 2 + 0) = 9 * 1 + (9 * 1 + 0))

end PrivatePayments.Sdk.Replay

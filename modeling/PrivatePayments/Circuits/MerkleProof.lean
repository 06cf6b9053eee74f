import PrivatePayments.Poseidon2
import PrivatePayments.Lib.BinaryTree

/-! `circuits/src/merkleProof.circom` and the circomlib gates the circuits are
built from.  A template is given by the values of its outputs and by the
constraints it adds; the gates of circomlib have their documented behaviour. -/
namespace PrivatePayments.Circuits
open Lib.BinaryTree

/-- `Switcher`: the two inputs, swapped if `sel` is one. -/
def switcher (sel l r : F) : F × F :=
  ((r - l) * sel + l, (l - r) * sel + r)

/-- `Num2Bits(n).out[i]`, and `Num2Bits_strict().out[i]`. -/
def num2Bits (x : F) (i : Nat) : F :=
  if x.val.testBit i then 1 else 0

/-- The constraints of `Num2Bits(n)` for a width below that of the modulus. -/
def Num2Bits (n : Nat) (x : F) : Prop := x.val < 2 ^ n

instance (n : Nat) (x : F) : Decidable (Num2Bits n x) := inferInstanceAs (Decidable (_ < _))

def isEqual (a b : F) : F := if a = b then 1 else 0

def ForceEqualIfEnabled (enabled a b : F) : Prop := enabled ≠ 0 → a = b

instance (enabled a b : F) : Decidable (ForceEqualIfEnabled enabled a b) :=
  inferInstanceAs (Decidable (_ → _))

def multiAnd (inputs : List F) : F := inputs.prod

theorem num2Bits_eq (x : F) (i : Nat) : num2Bits x i = if x.val / 2 ^ i % 2 = 1 then 1 else 0 := by
  simp [num2Bits, Nat.testBit_eq_decide_div_mod_eq]

theorem switcher_num2Bits (x : F) (i : Nat) (current sibling : F) :
    switcher (num2Bits x i) current sibling =
      if x.val / 2 ^ i % 2 = 1 then (sibling, current) else (current, sibling) := by
  rw [num2Bits_eq]
  split <;> simp [switcher]

/-! `MerkleProof(levels)`: `hasher[i]` is fed by `switcher[i]`, and its output
is the left input of the next switch. -/

def merkleProofLoop (P : Permutation) (pathIndices : F) : Nat → F → List F → F
  | _, current, [] => current
  | i, current, element :: rest =>
      let sides := switcher (num2Bits pathIndices i) current element
      merkleProofLoop P pathIndices (i + 1) (compress P sides.1 sides.2) rest

def merkleProofQueries (P : Permutation) (pathIndices : F) : Nat → F → List F → List Query
  | _, _, [] => []
  | i, current, element :: rest =>
      let sides := switcher (num2Bits pathIndices i) current element
      .compress sides.1 sides.2 ::
        merkleProofQueries P pathIndices (i + 1) (compress P sides.1 sides.2) rest

section Walk
variable {P : Permutation} {pathIndices : F}

private theorem div_pow_succ (x i : Nat) : x / 2 ^ i / 2 = x / 2 ^ (i + 1) := by
  rw [Nat.div_div_eq_div_mul, pow_succ]

theorem merkleProofLoop_eq (elements : List F) (i : Nat) (current : F) :
    merkleProofLoop P pathIndices i current elements =
      walk (compress P) (pathIndices.val / 2 ^ i) current elements := by
  induction elements generalizing i current with
  | nil => rfl
  | cons element rest ih =>
    simp only [merkleProofLoop, walk_cons, ih, switcher_num2Bits, div_pow_succ]
    split <;> rfl

theorem merkleProofQueries_eq (elements : List F) (i : Nat) (current : F) :
    merkleProofQueries P pathIndices i current elements =
      (walkInputs (compress P) (pathIndices.val / 2 ^ i) current elements).map
        fun input => .compress input.1 input.2 := by
  induction elements generalizing i current with
  | nil => rfl
  | cons element rest ih =>
    simp only [merkleProofQueries, walkInputs_cons, ih, switcher_num2Bits, div_pow_succ, List.map_cons]
    split <;> rfl

end Walk

def pathTable : F → F → List F → List (Query × F)
  | _, _, [] => []
  | start, digest, element :: rest =>
      (.compress start element, digest) :: pathTable digest (digest + 1) rest

theorem walkInputs_pathTable {table : List (Query × F)} (hkeys : (table.map Prod.fst).Nodup)
    (elements : List F) (start digest : F) (hsub : ∀ entry ∈ pathTable start digest elements, entry ∈ table) :
    ∀ input ∈ walkInputs (compress (tablePermutation table)) 0 start elements,
      .compress input.1 input.2 ∈ table.map Prod.fst := by
  induction elements generalizing start digest with
  | nil => simp [walkInputs]
  | cons element rest ih =>
    rw [pathTable, List.forall_mem_cons] at hsub
    have hdigest : compress (tablePermutation table) start element = digest := digest_of_mem hkeys hsub.1
    intro input hin
    rcases List.mem_cons.mp hin with rfl | hin
    · exact List.mem_map.mpr ⟨_, hsub.1, rfl⟩
    · exact ih _ _ hsub.2 input (hdigest ▸ hin)

section Template
variable {levels : Nat}

def merkleProof (P : Permutation) (leaf : F) (pathElements : Vector F levels) (pathIndices : F) : F :=
  merkleProofLoop P pathIndices 0 leaf pathElements.toList

variable {P : Permutation} {Q : Set Query}

theorem compress_injOn (hcf : CollisionFree P Q) :
    Set.InjOn (fun input : F × F => compress P input.1 input.2)
      { input | .compress input.1 input.2 ∈ Q } := by
  intro x hx y hy heq
  exact Prod.ext_iff.mpr (hcf.compress_inj hx hy heq)

variable {pathIndices : F}

theorem merkleProof_inj (hcf : CollisionFree P Q) {leaf other : F} {pathElements others : Vector F levels}
    (hpath : ∀ q ∈ merkleProofQueries P pathIndices 0 leaf pathElements.toList, q ∈ Q)
    (hother : ∀ q ∈ merkleProofQueries P pathIndices 0 other others.toList, q ∈ Q)
    (heq : merkleProof P leaf pathElements pathIndices = merkleProof P other others pathIndices) :
    pathElements.toList = others.toList := by
  rw [merkleProof, merkleProof, merkleProofLoop_eq, merkleProofLoop_eq] at heq
  rw [merkleProofQueries_eq] at hpath hother
  refine (walk_inj (compress P) (compress_injOn hcf) (by simp) ?_ ?_ heq).2
  · exact fun input hin => hpath _ (List.mem_map.mpr ⟨input, hin, rfl⟩)
  · exact fun input hin => hother _ (List.mem_map.mpr ⟨input, hin, rfl⟩)

variable {pathElements : Vector F levels} {leaves : Nat → F}

theorem merkleProof_sound {leaf : F} (hcf : CollisionFree P Q)
    (htree : ∀ input ∈ treeInputs (compress P) leaves levels, .compress input.1 input.2 ∈ Q)
    (hpath : ∀ q ∈ merkleProofQueries P pathIndices 0 leaf pathElements.toList, q ∈ Q)
    (hbits : Num2Bits levels pathIndices)
    (hroot : merkleProof P leaf pathElements pathIndices = nodeAt (compress P) leaves levels 0) :
    leaf = leaves pathIndices.val := by
  have hlen : pathElements.toList.length = levels := by simp
  rw [merkleProof, merkleProofLoop_eq, pow_zero, Nat.div_one] at hroot
  rw [merkleProofQueries_eq, pow_zero, Nat.div_one] at hpath
  rw [← nodeAt_zero (compress P) leaves]
  apply walk_sound (compress P) (compress_injOn hcf) htree pathElements.toList (by omega) (by rwa [hlen]) _ hroot
  intro input hin
  exact hpath _ (List.mem_map.mpr ⟨input, hin, rfl⟩)

theorem merkleProof_complete {index : Nat}
    (hindex : pathIndices.val = index) (hlt : index < 2 ^ levels)
    (hpath : pathElements.toList = siblingsOf (compress P) leaves levels 0 index) :
    merkleProof P (leaves index) pathElements pathIndices = nodeAt (compress P) leaves levels 0 := by
  have hwalk := walk_siblingsOf (compress P) leaves levels 0 index
  rw [nodeAt_zero, Nat.zero_add, Nat.div_eq_of_lt hlt] at hwalk
  rw [merkleProof, merkleProofLoop_eq, pow_zero, Nat.div_one, hindex, hpath, hwalk]

end Template

end PrivatePayments.Circuits

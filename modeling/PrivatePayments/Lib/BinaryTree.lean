import Mathlib.Data.Nat.Bits
import Mathlib.Data.List.GetD
import Mathlib.Data.Set.Function
import Mathlib.Tactic.Ring
import Mathlib.Tactic.Set

/-! Perfect binary trees over an arbitrary node function, addressed by level and
position.  Position `j` at level `l` covers the leaves `j * 2 ^ l` up to
`(j + 1) * 2 ^ l`, so appending a leaf changes exactly the nodes at
`n / 2 ^ l`, and a bottom-up walk never has to know how deep the tree is. -/
namespace PrivatePayments.Lib.BinaryTree
open List

variable {α : Type} (node : α → α → α)

def nodeAt (leaf : Nat → α) : Nat → Nat → α
  | 0, position => leaf position
  | level + 1, position =>
      node (nodeAt leaf level (2 * position)) (nodeAt leaf level (2 * position + 1))

def padded (empty : α) (leaves : List α) (position : Nat) : α :=
  leaves.getD position empty

def root (empty : α) (depth : Nat) (leaves : List α) : α :=
  nodeAt node (padded empty leaves) depth 0

def emptyNode (empty : α) : Nat → α
  | 0 => empty
  | level + 1 => node (emptyNode empty level) (emptyNode empty level)

@[simp] theorem nodeAt_zero (leaf : Nat → α) (position : Nat) : nodeAt node leaf 0 position = leaf position := rfl

theorem nodeAt_succ (leaf : Nat → α) (level position : Nat) :
    nodeAt node leaf (level + 1) position =
      node (nodeAt node leaf level (2 * position)) (nodeAt node leaf level (2 * position + 1)) := rfl

variable {empty : α} {leaves : List α}

variable {position : Nat}

theorem padded_lt
    (h : position < leaves.length) : padded empty leaves position = leaves[position] := by
  simp [padded, h]

theorem padded_ge (h : leaves.length ≤ position) : padded empty leaves position = empty := by
  simp [padded, h]

variable {leaves more : List α}

theorem padded_append_left (h : position < leaves.length) :
    padded empty (leaves ++ more) position = padded empty leaves position := by
  rw [padded, padded, getD_append _ _ _ _ h]

variable {level position : Nat}

variable {leaf other : Nat → α}

theorem nodeAt_congr
    (h : ∀ i, position * 2 ^ level ≤ i → i < (position + 1) * 2 ^ level → leaf i = other i) :
    nodeAt node leaf level position = nodeAt node other level position := by
  induction level generalizing position with
  | zero => exact h position (by simp) (by simp)
  | succ level ih =>
    rw [nodeAt_succ, nodeAt_succ]
    congr 1
    · apply ih
      intro i hlo hhi
      apply h i
      · calc position * 2 ^ (level + 1) = 2 * position * 2 ^ level := by ring
          _ ≤ i := hlo
      · calc i < (2 * position + 1) * 2 ^ level := hhi
          _ ≤ (position + 1) * 2 ^ (level + 1) := by
            rw [show (position + 1) * 2 ^ (level + 1) = (2 * position + 2) * 2 ^ level by ring]
            exact Nat.mul_le_mul_right _ (by omega)
    · apply ih
      intro i hlo hhi
      apply h i
      · calc position * 2 ^ (level + 1) = 2 * position * 2 ^ level := by ring
          _ ≤ (2 * position + 1) * 2 ^ level := Nat.mul_le_mul_right _ (by omega)
          _ ≤ i := hlo
      · calc i < (2 * position + 1 + 1) * 2 ^ level := hhi
          _ = (position + 1) * 2 ^ (level + 1) := by ring

theorem nodeAt_empty (h : leaves.length ≤ position * 2 ^ level) :
    nodeAt node (padded empty leaves) level position = emptyNode node empty level := by
  induction level generalizing position with
  | zero => exact padded_ge (by simpa using h)
  | succ level ih =>
    have hpow : position * 2 ^ (level + 1) = 2 * position * 2 ^ level := by ring
    rw [nodeAt_succ, emptyNode, ih (by omega), ih]
    calc leaves.length ≤ 2 * position * 2 ^ level := by omega
      _ ≤ (2 * position + 1) * 2 ^ level := Nat.mul_le_mul_right _ (by omega)

theorem nodeAt_append (h : (position + 1) * 2 ^ level ≤ leaves.length) :
    nodeAt node (padded empty (leaves ++ more)) level position =
      nodeAt node (padded empty leaves) level position := by
  apply nodeAt_congr
  intro i _ hi
  exact padded_append_left (by omega)

theorem nodeAt_parent_right (leaf : Nat → α) (h : position % 2 = 1) :
    nodeAt node leaf (level + 1) (position / 2) =
      node (nodeAt node leaf level (position - 1)) (nodeAt node leaf level position) := by
  rw [nodeAt_succ, show 2 * (position / 2) = position - 1 by omega, show position - 1 + 1 = position by omega]

theorem nodeAt_parent_left (leaf : Nat → α) (h : position % 2 ≠ 1) :
    nodeAt node leaf (level + 1) (position / 2) =
      node (nodeAt node leaf level position) (nodeAt node leaf level (position + 1)) := by
  rw [nodeAt_succ, show 2 * (position / 2) = position by omega]

/-! An authentication path is walked from a leaf upwards; the bits of the leaf
index say on which side the current value stands. -/

def walk : Nat → α → List α → α
  | _, value, [] => value
  | index, value, sibling :: rest =>
      walk (index / 2) (if index % 2 = 1 then node sibling value else node value sibling) rest

def walkInputs : Nat → α → List α → List (α × α)
  | _, _, [] => []
  | index, value, sibling :: rest =>
      let input := if index % 2 = 1 then (sibling, value) else (value, sibling)
      input :: walkInputs (index / 2) (node input.1 input.2) rest

def treeInputs (leaf : Nat → α) (depth : Nat) : Set (α × α) :=
  { input | ∃ level position, level < depth ∧ position < 2 ^ (depth - (level + 1)) ∧
    input = (nodeAt node leaf level (2 * position), nodeAt node leaf level (2 * position + 1)) }

theorem walk_cons (index : Nat) (value sibling : α) (rest : List α) :
    walk node index value (sibling :: rest) =
      walk node (index / 2) (if index % 2 = 1 then node sibling value else node value sibling) rest := rfl

theorem walkInputs_cons (index : Nat) (value sibling : α) (rest : List α) :
    walkInputs node index value (sibling :: rest) =
      (if index % 2 = 1 then (sibling, value) else (value, sibling)) ::
        walkInputs node (index / 2) (if index % 2 = 1 then node sibling value else node value sibling) rest := by
  by_cases h : index % 2 = 1 <;> simp [walkInputs, h]

theorem parent_mem_treeInputs (leaf : Nat → α) {depth level position : Nat}
    (hlevel : level < depth) (hposition : position < 2 ^ (depth - level)) :
    (nodeAt node leaf level (2 * (position / 2)), nodeAt node leaf level (2 * (position / 2) + 1))
      ∈ treeInputs node leaf depth := by
  refine ⟨level, position / 2, hlevel, ?_, rfl⟩
  have hpow : 2 ^ (depth - level) = 2 * 2 ^ (depth - (level + 1)) := by
    rw [← pow_succ']
    congr 1
    omega
  omega

variable {S : Set (α × α)}

section
variable (hinj : Set.InjOn (fun input : α × α => node input.1 input.2) S)
include hinj

variable {depth : Nat}

/-- A walk with arbitrary siblings that ends in the root started at the leaf of
its index.  Only the inputs of the walk and of the tree have to be free of
collisions. -/
theorem walk_sound {leaf : Nat → α}
    (htree : treeInputs node leaf depth ⊆ S) (siblings : List α) {level index : Nat} {value : α}
    (hdepth : level + siblings.length = depth) (hindex : index < 2 ^ siblings.length)
    (hwalk : ∀ input ∈ walkInputs node index value siblings, input ∈ S)
    (heq : walk node index value siblings = nodeAt node leaf depth 0) : value = nodeAt node leaf level index := by
  induction siblings generalizing level index value with
  | nil =>
    have h0 : index = 0 := by simpa using hindex
    have hl : level = depth := by simpa using hdepth
    subst h0 hl
    exact heq
  | cons sibling rest ih =>
    rw [length_cons] at hdepth hindex
    rw [walkInputs_cons] at hwalk
    rw [walk_cons] at heq
    have hhalf : index / 2 < 2 ^ rest.length := by
      rw [pow_succ] at hindex
      omega
    have hparent : (if index % 2 = 1 then node sibling value else node value sibling) =
        nodeAt node leaf (level + 1) (index / 2) :=
      ih (by omega) hhalf (fun input hin => hwalk input (mem_cons_of_mem _ hin)) heq
    have hmem := hwalk _ mem_cons_self
    have htreeMem := htree (parent_mem_treeInputs node leaf (show level < depth by omega)
      (show index < 2 ^ (depth - level) by rwa [show depth - level = rest.length + 1 by omega]))
    rw [nodeAt_succ] at hparent
    by_cases hodd : index % 2 = 1
    · simp only [hodd, if_true] at hparent hmem
      have h := congrArg Prod.snd (hinj hmem htreeMem hparent)
      simpa [show 2 * (index / 2) + 1 = index by omega] using h
    · simp only [hodd, if_false] at hparent hmem
      have h := congrArg Prod.fst (hinj hmem htreeMem hparent)
      simpa [show 2 * (index / 2) = index by omega] using h

theorem walk_inj
    {siblings others : List α} {index : Nat} {value other : α} (hlength : siblings.length = others.length)
    (hwalk : ∀ input ∈ walkInputs node index value siblings, input ∈ S)
    (hother : ∀ input ∈ walkInputs node index other others, input ∈ S)
    (heq : walk node index value siblings = walk node index other others) : value = other ∧ siblings = others := by
  induction siblings generalizing others index value other with
  | nil =>
    obtain rfl : others = [] := length_eq_zero_iff.mp hlength.symm
    exact ⟨heq, rfl⟩
  | cons sibling rest ih =>
    obtain _ | ⟨sibling', rest'⟩ := others
    · cases hlength
    rw [walkInputs_cons] at hwalk hother
    rw [walk_cons, walk_cons] at heq
    obtain ⟨hparent, rfl⟩ := ih (Nat.succ.inj hlength) (fun input hin => hwalk input (mem_cons_of_mem _ hin))
      (fun input hin => hother input (mem_cons_of_mem _ hin)) heq
    have hmem := hwalk _ mem_cons_self
    have hmem' := hother _ mem_cons_self
    by_cases hodd : index % 2 = 1
    · simp only [hodd, if_true] at hparent hmem hmem'
      obtain ⟨rfl, rfl⟩ := Prod.mk.inj (hinj hmem hmem' hparent)
      exact ⟨rfl, rfl⟩
    · simp only [hodd, if_false] at hparent hmem hmem'
      obtain ⟨rfl, rfl⟩ := Prod.mk.inj (hinj hmem hmem' hparent)
      exact ⟨rfl, rfl⟩

/-- Equal roots have equal leaves, where the inputs of both trees are free of collisions. -/
theorem nodeAt_inj
    (hleaf : treeInputs node leaf depth ⊆ S) (hother : treeInputs node other depth ⊆ S)
    (hlevel : level ≤ depth) (hposition : position < 2 ^ (depth - level))
    (heq : nodeAt node leaf level position = nodeAt node other level position) (i : Nat)
    (hlo : position * 2 ^ level ≤ i) (hhi : i < (position + 1) * 2 ^ level) : leaf i = other i := by
  induction level generalizing position with
  | zero =>
    obtain rfl : i = position := by omega
    exact heq
  | succ level ih =>
    have hmem := hleaf ⟨level, position, by omega, hposition, rfl⟩
    have hmem' := hother ⟨level, position, by omega, hposition, rfl⟩
    have hpair := hinj hmem hmem' heq
    have hroom : 2 ^ (depth - level) = 2 * 2 ^ (depth - (level + 1)) := by
      rw [← pow_succ']
      congr 1
      omega
    have hwidth : 2 ^ (level + 1) = 2 * 2 ^ level := pow_succ' 2 level
    rw [hwidth] at hlo hhi
    by_cases hside : i < (2 * position + 1) * 2 ^ level
    · refine ih (by omega) (by omega) (congrArg Prod.fst hpair) ?_ hside
      calc 2 * position * 2 ^ level = position * (2 * 2 ^ level) := by ring
        _ ≤ i := hlo
    · refine ih (by omega) (by omega) (congrArg Prod.snd hpair) (Nat.le_of_not_lt hside) ?_
      calc i < (position + 1) * (2 * 2 ^ level) := hhi
        _ = (2 * position + 1 + 1) * 2 ^ level := by ring

end

def siblingsOf (leaf : Nat → α) : Nat → Nat → Nat → List α
  | 0, _, _ => []
  | count + 1, level, index =>
      nodeAt node leaf level (if index % 2 = 1 then index - 1 else index + 1) ::
        siblingsOf leaf count (level + 1) (index / 2)

@[simp] theorem siblingsOf_length (leaf : Nat → α) (count level index : Nat) :
    (siblingsOf node leaf count level index).length = count := by
  induction count generalizing level index with
  | zero => rfl
  | succ count ih => simp [siblingsOf, ih]

theorem walk_siblingsOf (leaf : Nat → α) (count level index : Nat) :
    walk node index (nodeAt node leaf level index) (siblingsOf node leaf count level index) =
      nodeAt node leaf (level + count) (index / 2 ^ count) := by
  induction count generalizing level index with
  | zero => simp [siblingsOf, walk]
  | succ count ih =>
    have hnext : (if index % 2 = 1 then
          node (nodeAt node leaf level (if index % 2 = 1 then index - 1 else index + 1))
            (nodeAt node leaf level index)
        else node (nodeAt node leaf level index)
          (nodeAt node leaf level (if index % 2 = 1 then index - 1 else index + 1))) =
        nodeAt node leaf (level + 1) (index / 2) := by
      by_cases hodd : index % 2 = 1
      · simp only [hodd, if_true]
        exact (nodeAt_parent_right node leaf hodd).symm
      · simp only [hodd, if_false]
        exact (nodeAt_parent_left node leaf hodd).symm
    rw [siblingsOf, walk_cons, hnext, ih, Nat.div_div_eq_div_mul, ← pow_succ',
      show level + 1 + count = level + (count + 1) by omega]

theorem mem_walkInputs_siblingsOf (leaf : Nat → α) (level : Nat) {count k : Nat} (hk : k < count) :
    (nodeAt node leaf (level + k) 0, nodeAt node leaf (level + k) 1) ∈
      walkInputs node 0 (nodeAt node leaf level 0) (siblingsOf node leaf count level 0) := by
  induction count generalizing level k with
  | zero => omega
  | succ count ih =>
    rw [siblingsOf, walkInputs_cons]
    cases k with
    | zero => simp
    | succ k =>
      have h := ih (level + 1) (k := k) (by omega)
      rw [show level + 1 + k = level + (k + 1) by omega] at h
      exact mem_cons_of_mem _ h

end PrivatePayments.Lib.BinaryTree

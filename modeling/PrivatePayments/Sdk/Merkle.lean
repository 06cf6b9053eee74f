import Mathlib.Algebra.Order.Ring.Nat
import Mathlib.Data.Nat.Bitwise
import PrivatePayments.Circuits.MerkleProof
import PrivatePayments.Contracts.AspMembership
import PrivatePayments.Contracts.MerkleWithHistory
import PrivatePayments.Sdk.Field

/-! The Merkle trees off the chain: `prover/src/merkle.rs`, which keeps only the
part of each level that has leaves below it, and `circuits/src/core/merkle.rs`,
which takes all leaves. -/
namespace PrivatePayments.Sdk
open Lib.BinaryTree Contracts Circuits
open List hiding Vector

abbrev hashPair (P : Permutation) (left right : F) : F := compress P left right

def zeroLeafBytes : Bytes :=
  [37, 48, 34, 136, 219, 153, 53, 3, 68, 151, 65, 131, 206, 49, 13, 99, 181, 58, 187, 158, 240,
    248, 87, 87, 83, 238, 211, 110, 1, 24, 249, 206]

inductive MerkleError where
  | depthOutOfRange
  | fieldOutOfRange
  | leafIndexOutOfRange (index leaves : Nat)

structure MerklePrefixTree where
  depth : Nat
  leaves : List F
  empty : List F

structure MerklePrefixTreeBuilt where
  depth : Nat
  empty : List F
  levels : List (List F)

structure MerkleProof where
  pathElements : List F
  pathIndices : F
  root : F
  levels : Nat

def emptyChain (P : Permutation) (zero : F) : Nat → List F
  | 0 => [zero]
  | i + 1 =>
      let empty := emptyChain P zero i
      empty ++ [hashPair P (empty.getD i 0) (empty.getD i 0)]

def fillLevel (nodes : List F) (empty : F) : List F := if nodes.isEmpty then [empty] else nodes

def nextLevel (P : Permutation) (nodes : List F) (empty : F) : List F :=
  (List.range ((nodes.length + 1) / 2)).map fun i =>
    hashPair P (nodes.getD (2 * i) empty) (nodes.getD (2 * i + 1) empty)

namespace MerklePrefixTree

def new (P : Permutation) (depth : Nat) (leaves : List F) : Except MerkleError MerklePrefixTree :=
  if depth = 0 ∨ depth > 32 then .error .depthOutOfRange
  else
    match tryFromLeBytes zeroLeafBytes.reverse with
    | none => .error .fieldOutOfRange
    | some zero => .ok { depth, leaves, empty := emptyChain P zero depth }

def rootLoop (P : Permutation) (empty : List F) : Nat → Nat → List F → List F
  | 0, _, nodes => nodes
  | count + 1, level, nodes =>
      rootLoop P empty count (level + 1)
        (nextLevel P (fillLevel nodes (empty.getD level 0)) (empty.getD level 0))

def root (P : Permutation) (tree : MerklePrefixTree) : F :=
  (rootLoop P tree.empty tree.depth 0 tree.leaves).headD (tree.empty.getD tree.depth 0)

def buildLoop (P : Permutation) (empty : List F) : Nat → Nat → List F → List (List F)
  | 0, _, nodes => [nodes]
  | count + 1, level, nodes =>
      let filled := fillLevel nodes (empty.getD level 0)
      filled :: buildLoop P empty count (level + 1) (nextLevel P filled (empty.getD level 0))

def build (P : Permutation) (tree : MerklePrefixTree) : MerklePrefixTreeBuilt where
  depth := tree.depth
  empty := tree.empty
  levels := buildLoop P tree.empty tree.depth 0 tree.leaves

end MerklePrefixTree

/-- An index as a field element: eight little-endian bytes, filled up with zeros. -/
def packIndex (index : Nat) : Bytes := toLittleEndian 8 index ++ List.replicate 24 0

namespace MerklePrefixTreeBuilt

def leafCount (tree : MerklePrefixTreeBuilt) : Nat := (tree.levels.headD []).length

def root (tree : MerklePrefixTreeBuilt) : F :=
  (tree.levels.getD tree.depth []).headD (tree.empty.getD tree.depth 0)

def proofLoop (tree : MerklePrefixTreeBuilt) :
    Nat → Nat → Nat → List F → Nat → List F × Nat
  | 0, _, _, pathElements, bits => (pathElements, bits)
  | count + 1, level, currentIndex, pathElements, bits =>
      let sib := (tree.levels.getD level []).getD (currentIndex ^^^ 1) (tree.empty.getD level 0)
      proofLoop tree count (level + 1) (currentIndex / 2) (pathElements ++ [sib])
        (if currentIndex % 2 ≠ 0 then bits ||| 1 <<< level else bits)

def proof (tree : MerklePrefixTreeBuilt) (index : Nat) : Except MerkleError MerkleProof :=
  if index ≥ tree.leafCount then .error (.leafIndexOutOfRange index tree.leafCount)
  else
    let path := tree.proofLoop tree.depth 0 index [] 0
    match tryFromLeBytes (packIndex path.2) with
    | none => .error .fieldOutOfRange
    | some pathIndices =>
        .ok { pathElements := path.1, pathIndices, root := tree.root, levels := tree.depth }

end MerklePrefixTreeBuilt

/-- `chunks_exact(2)`: a last odd node would be dropped. -/
def hashPairs (P : Permutation) : List F → List F
  | left :: right :: rest => compress P left right :: hashPairs P rest
  | _ => []

/-- As many rounds as there are leaves are more than enough. -/
def merkleRootLoop (P : Permutation) : Nat → List F → List F
  | 0, leaves => leaves
  | rounds + 1, leaves =>
      if leaves.length > 1 then merkleRootLoop P rounds (hashPairs P leaves) else leaves

/-- `merkle_root` of the circuits crate; `none` where its assertions fail. -/
def merkleRoot (P : Permutation) (leaves : List F) : Option F :=
  if leaves = [] ∨ 2 ^ Nat.log2 leaves.length ≠ leaves.length then none
  else (merkleRootLoop P leaves.length leaves).head?

theorem xor_one (n : Nat) : n ^^^ 1 = if n % 2 = 1 then n - 1 else n + 1 := by
  have hdiv : (n ^^^ 1) / 2 = n / 2 := by
    rw [Nat.xor_div_two]
    simp
  have hmod : (n ^^^ 1) % 2 = (n + 1) % 2 := Nat.xor_mod_two_eq
  split <;> omega

theorem or_bit (n level : Nat) :
    (if n / 2 ^ level % 2 ≠ 0 then n % 2 ^ level ||| 1 <<< level else n % 2 ^ level) =
      n % 2 ^ (level + 1) := by
  have hlt : n % 2 ^ level < 2 ^ level := Nat.mod_lt _ (Nat.two_pow_pos level)
  have hmod : n % 2 ^ (level + 1) = 2 ^ level * (n / 2 ^ level % 2) + n % 2 ^ level := by
    rw [pow_succ, Nat.mod_mul]
    ring
  by_cases h : n / 2 ^ level % 2 = 0
  · simp [h, hmod]
  · rw [if_pos h, hmod, show n / 2 ^ level % 2 = 1 by omega, Nat.two_pow_add_eq_or_of_lt hlt,
      Nat.or_comm, Nat.one_shiftLeft, mul_one]

variable {P : Permutation} {leaf : Nat → F}

variable {tree : MerklePrefixTreeBuilt}

section Prefix
variable {level : Nat} {nodes : List F} {empty : F}

theorem padded_fillLevel (nodes : List F) (empty : F) (position : Nat) :
    padded empty (fillLevel nodes empty) position = padded empty nodes position := by
  unfold fillLevel
  split
  · rename_i hnil
    rw [List.isEmpty_iff.mp hnil]
    cases position <;> rfl
  · rfl

theorem padded_nextLevel (h : ∀ i, padded empty nodes i = nodeAt (compress P) leaf level i) (position : Nat) :
    padded (hashPair P empty empty) (nextLevel P nodes empty) position =
      nodeAt (compress P) leaf (level + 1) position := by
  have hlength : (nextLevel P nodes empty).length = (nodes.length + 1) / 2 := by
    simp [nextLevel]
  rw [nodeAt_succ, ← h, ← h]
  by_cases hlt : position < (nodes.length + 1) / 2
  · rw [padded_lt (hlength ▸ hlt)]
    simp [nextLevel, padded]
  · rw [padded_ge (by omega), padded_ge (by omega), padded_ge (by omega)]

theorem emptyChain_length (P : Permutation) (zero : F) (depth : Nat) :
    (emptyChain P zero depth).length = depth + 1 := by
  induction depth with
  | zero => rfl
  | succ depth ih => rw [emptyChain, length_append, ih, length_singleton]

theorem emptyChain_getD (P : Permutation) (zero : F) {depth level : Nat} (h : level ≤ depth) :
    (emptyChain P zero depth).getD level 0 = emptyNode (compress P) zero level := by
  induction depth generalizing level with
  | zero =>
    rw [Nat.le_zero.mp h]
    rfl
  | succ depth ih =>
    have hlength := emptyChain_length P zero depth
    rw [emptyChain]
    by_cases hlast : level = depth + 1
    · rw [hlast, getD_append_right _ _ _ _ (by omega), hlength, Nat.sub_self, ih (le_refl _)]
      rfl
    · rw [getD_append _ _ _ _ (by omega), ih (by omega)]

section Loops
variable {zero : F} {chain : List F} {count : Nat}

def IsLevel (P : Permutation) (leaf : Nat → F) (chain : List F) (level : Nat) (nodes : List F) :
    Prop :=
  ∀ i, padded (chain.getD level 0) nodes i = nodeAt (compress P) leaf level i

section
variable (h : IsLevel P leaf chain level nodes)
include h

theorem IsLevel.fill : IsLevel P leaf chain level (fillLevel nodes (chain.getD level 0)) :=
  fun i => (padded_fillLevel nodes _ i).trans (h i)

theorem IsLevel.next (hchain : chain.getD (level + 1) 0 = hashPair P (chain.getD level 0) (chain.getD level 0)) :
    IsLevel P leaf chain (level + 1) (nextLevel P nodes (chain.getD level 0)) := by
  intro i
  rw [hchain]
  exact padded_nextLevel h i

section
variable
  (hchain : ∀ l, l < level + count → chain.getD (l + 1) 0 = hashPair P (chain.getD l 0) (chain.getD l 0))
include hchain

theorem IsLevel.rootLoop :
    IsLevel P leaf chain (level + count) (MerklePrefixTree.rootLoop P chain count level nodes) := by
  induction count generalizing level nodes with
  | zero => exact h
  | succ count ih =>
    rw [show level + (count + 1) = level + 1 + count by omega] at hchain ⊢
    exact ih (h.fill.next (hchain level (by omega))) hchain

theorem IsLevel.buildLoop
    {k : Nat} (hk : k ≤ count) :
    IsLevel P leaf chain (level + k) ((MerklePrefixTree.buildLoop P chain count level nodes).getD k []) := by
  induction count generalizing level nodes k with
  | zero =>
    rw [Nat.le_zero.mp hk]
    exact h
  | succ count ih =>
    cases k with
    | zero => exact h.fill
    | succ k =>
      rw [show level + (count + 1) = level + 1 + count by omega] at hchain
      rw [show level + (k + 1) = level + 1 + k by omega]
      exact ih (h.fill.next (hchain level (by omega))) hchain (by omega)

end

theorem IsLevel.headD : nodes.headD (chain.getD level 0) = nodeAt (compress P) leaf level 0 := by
  rw [← h 0]
  cases nodes <;> rfl

end

end Loops

theorem proofLoop_path {count level : Nat}
    (h : ∀ l, l < level + count → IsLevel P leaf tree.empty l (tree.levels.getD l []))
    (currentIndex : Nat) (pathElements : List F) (bits : Nat) :
    (tree.proofLoop count level currentIndex pathElements bits).1 =
      pathElements ++ siblingsOf (compress P) leaf count level currentIndex := by
  induction count generalizing level currentIndex pathElements bits with
  | zero => simp [MerklePrefixTreeBuilt.proofLoop, siblingsOf]
  | succ count ih =>
    rw [show level + (count + 1) = level + 1 + count by omega] at h
    have hsib := h level (by omega) (currentIndex ^^^ 1)
    rw [MerklePrefixTreeBuilt.proofLoop, ih h, siblingsOf, ← xor_one, ← hsib, append_assoc]
    rfl

theorem proofLoop_bits (tree : MerklePrefixTreeBuilt) (count level index : Nat) (pathElements : List F) :
    (tree.proofLoop count level (index / 2 ^ level) pathElements (index % 2 ^ level)).2 =
      index % 2 ^ (level + count) := by
  induction count generalizing level pathElements with
  | zero => rfl
  | succ count ih =>
    rw [MerklePrefixTreeBuilt.proofLoop, or_bit, Nat.div_div_eq_div_mul, ← pow_succ, ih,
      show level + 1 + count = level + (count + 1) by omega]

end Prefix

section Full

theorem hashPairs_map (f : Nat → F) (count : Nat) :
    hashPairs P ((List.range (2 * count)).map f) =
      (List.range count).map fun i => compress P (f (2 * i)) (f (2 * i + 1)) := by
  induction count generalizing f with
  | zero => rfl
  | succ count ih =>
    have hrange : (List.range (2 * (count + 1))).map f =
        f 0 :: f 1 :: (List.range (2 * count)).map fun i => f (i + 2) := by
      rw [show 2 * (count + 1) = 2 * count + 1 + 1 by omega, range_succ_eq_map, range_succ_eq_map]
      simp [Function.comp_def]
    rw [hrange, hashPairs, ih, range_succ_eq_map]
    simp [Function.comp_def, mul_add]

theorem merkleRootLoop_perfect (count level rounds : Nat) (h : count ≤ rounds) :
    merkleRootLoop P rounds ((List.range (2 ^ count)).map (nodeAt (compress P) leaf level)) =
      [nodeAt (compress P) leaf (level + count) 0] := by
  induction count generalizing level rounds with
  | zero => cases rounds <;> simp [merkleRootLoop]
  | succ count ih =>
    obtain ⟨rounds, rfl⟩ : ∃ r, rounds = r + 1 := ⟨rounds - 1, by omega⟩
    have hlong : ((List.range (2 ^ (count + 1))).map (nodeAt (compress P) leaf level)).length > 1 := by
      have hpos := Nat.two_pow_pos count
      rw [length_map, length_range, pow_succ]
      omega
    rw [merkleRootLoop, if_pos hlong, pow_succ', hashPairs_map]
    have hlevel : (fun i => compress P (nodeAt (compress P) leaf level (2 * i))
        (nodeAt (compress P) leaf level (2 * i + 1))) = nodeAt (compress P) leaf (level + 1) := by
      funext i
      exact (nodeAt_succ (compress P) leaf level i).symm
    rw [hlevel, ih (level + 1) rounds (by omega), show level + 1 + count = level + (count + 1) by omega]

variable {leaves : List F}

theorem append_replicate_eq (zero : F) {width : Nat} (h : leaves.length ≤ width) :
    leaves ++ List.replicate (width - leaves.length) zero = (List.range width).map (padded zero leaves) := by
  apply ext_getElem
  · simp only [length_append, length_replicate, length_map, length_range]
    omega
  · intro i hi _
    by_cases hlt : i < leaves.length
    · simp [getElem_append_left hlt, padded, hlt]
    · simp [getElem_append_right (Nat.le_of_not_lt hlt), padded, Nat.le_of_not_lt hlt]

theorem merkleRoot_padded {depth : Nat} (h : leaves.length ≤ 2 ^ depth) :
    merkleRoot P (leaves ++ List.replicate (2 ^ depth - leaves.length) zeroLeaf) =
      some (treeRoot P depth leaves) := by
  have hpos := Nat.two_pow_pos depth
  have hlength : ((List.range (2 ^ depth)).map (padded zeroLeaf leaves)).length = 2 ^ depth := by
    simp
  have hok : ¬((List.range (2 ^ depth)).map (padded zeroLeaf leaves) = [] ∨
      2 ^ Nat.log2 (2 ^ depth) ≠ 2 ^ depth) := by
    rw [Nat.log2_two_pow, ← length_eq_zero_iff, hlength]
    omega
  have hloop := @merkleRootLoop_perfect P (padded zeroLeaf leaves) depth 0 (2 ^ depth) Nat.lt_two_pow_self.le
  unfold merkleRoot
  rw [append_replicate_eq zeroLeaf h, hlength, if_neg hok]
  rw [zero_add] at hloop
  exact congrArg List.head? hloop

end Full

theorem tryFromLeBytes_zeroLeafBytes : tryFromLeBytes zeroLeafBytes.reverse = some zeroLeaf := by
  decide +kernel

theorem fromLittleEndian_append_zeros (bytes : Bytes) (count : Nat) :
    fromLittleEndian (bytes ++ List.replicate count 0) = fromLittleEndian bytes := by
  induction bytes with
  | nil =>
    induction count with
    | zero => rfl
    | succ count ih =>
      simp only [nil_append, fromLittleEndian] at ih ⊢
      rw [replicate_succ, fromLittleEndian, ih]
      rfl
  | cons b rest ih => rw [cons_append, fromLittleEndian, fromLittleEndian, ih]

theorem tryFromLeBytes_packIndex {index : Nat} (h : index < 2 ^ 32) :
    tryFromLeBytes (packIndex index) = some (index : F) := by
  have hwidth : index < 256 ^ 8 := h.trans (by decide)
  unfold tryFromLeBytes packIndex
  rw [fromLittleEndian_append_zeros, fromLittleEndian_toLittleEndian hwidth, tryFromU256_eq (h.trans (by decide))]

section Tree
variable {depth : Nat} {leaves : List F}

def prefixTree (P : Permutation) (depth : Nat) (leaves : List F) : MerklePrefixTree where
  depth := depth
  leaves := leaves
  empty := emptyChain P zeroLeaf depth

theorem new_eq (hpos : 1 ≤ depth) (hle : depth ≤ 32) :
    MerklePrefixTree.new P depth leaves = .ok (prefixTree P depth leaves) := by
  rw [MerklePrefixTree.new, if_neg (by omega), tryFromLeBytes_zeroLeafBytes]
  rfl

theorem new_eq_ok {tree : MerklePrefixTree} (h : MerklePrefixTree.new P depth leaves = .ok tree) :
    1 ≤ depth ∧ depth ≤ 32 ∧ tree = prefixTree P depth leaves := by
  by_cases hdepth : depth = 0 ∨ depth > 32
  · rw [MerklePrefixTree.new, if_pos hdepth] at h
    cases h
  · have hpos : 1 ≤ depth := by omega
    have hle : depth ≤ 32 := by omega
    rw [new_eq hpos hle] at h
    exact ⟨hpos, hle, (Except.ok.inj h).symm⟩

variable {level : Nat}

theorem emptyChain_succ (P : Permutation) (depth : Nat) (h : level < 0 + depth) :
    (emptyChain P zeroLeaf depth).getD (level + 1) 0 =
      hashPair P ((emptyChain P zeroLeaf depth).getD level 0) ((emptyChain P zeroLeaf depth).getD level 0) := by
  rw [emptyChain_getD P zeroLeaf (by omega), emptyChain_getD P zeroLeaf (by omega)]
  rfl

theorem isLevel_leaves (P : Permutation) (depth : Nat) (leaves : List F) :
    IsLevel P (padded zeroLeaf leaves) (emptyChain P zeroLeaf depth) 0 leaves := by
  intro i
  rw [emptyChain_getD P zeroLeaf (Nat.zero_le depth)]
  rfl

theorem prefixTree_root : (prefixTree P depth leaves).root P = treeRoot P depth leaves := by
  have hloop := (isLevel_leaves P depth leaves).rootLoop fun _ => emptyChain_succ P depth
  rw [zero_add] at hloop
  exact hloop.headD

theorem build_isLevel (h : level ≤ depth) :
    IsLevel P (padded zeroLeaf leaves) (emptyChain P zeroLeaf depth) level
      (((prefixTree P depth leaves).build P).levels.getD level []) := by
  have hloop := (isLevel_leaves P depth leaves).buildLoop (fun _ => emptyChain_succ P depth) h
  rwa [zero_add] at hloop

theorem build_root : ((prefixTree P depth leaves).build P).root = treeRoot P depth leaves :=
  (build_isLevel (le_refl depth)).headD

/-- The leaf at a position of the tree.  `new` takes more than `2 ^ depth` leaves, but those that
come after have no position in it. -/
def Contains (depth : Nat) (leaves : List F) (index : Nat) (leaf : F) : Prop :=
  (leaves.take (2 ^ depth))[index]? = some leaf

theorem build_leafCount (hpos : 1 ≤ depth) (hne : leaves ≠ []) :
    ((prefixTree P depth leaves).build P).leafCount = leaves.length := by
  obtain ⟨count, rfl⟩ : ∃ count, depth = count + 1 := ⟨depth - 1, by omega⟩
  simp [MerklePrefixTreeBuilt.leafCount, MerklePrefixTree.build, MerklePrefixTree.buildLoop, prefixTree, fillLevel, hne]

theorem proof_eq {index bits : Nat} {pathElements : List F}
    (hindex : index < tree.leafCount)
    (hpath : tree.proofLoop tree.depth 0 index [] 0 = (pathElements, bits)) (hbits : bits < 2 ^ 32) :
    tree.proof index = .ok { pathElements, pathIndices := (bits : F), root := tree.root, levels := tree.depth } := by
  rw [MerklePrefixTreeBuilt.proof, if_neg (not_le.mpr hindex), hpath]
  simp only [tryFromLeBytes_packIndex hbits]

theorem build_proof (hpos : 1 ≤ depth) (hle : depth ≤ 32) (hne : leaves ≠ []) {index : Nat}
    (hposition : index < 2 ^ depth) (hindex : index < leaves.length) :
    ((prefixTree P depth leaves).build P).proof index = .ok
      { pathElements := siblingsOf (compress P) (padded zeroLeaf leaves) depth 0 index
        pathIndices := (index : F)
        root := treeRoot P depth leaves
        levels := depth } := by
  have hbound : 2 ^ depth ≤ 2 ^ 32 := Nat.pow_le_pow_right (by omega) hle
  have hlevels : ∀ level, level < 0 + depth → IsLevel P (padded zeroLeaf leaves)
      ((prefixTree P depth leaves).build P).empty level
      (((prefixTree P depth leaves).build P).levels.getD level []) :=
    fun level hlevel => build_isLevel (by omega)
  have hpath := proofLoop_path hlevels index [] 0
  have hbits := proofLoop_bits ((prefixTree P depth leaves).build P) depth 0 index []
  rw [pow_zero, Nat.div_one, Nat.mod_one, zero_add, Nat.mod_eq_of_lt hposition] at hbits
  rw [proof_eq (by rwa [build_leafCount hpos hne]) (Prod.ext hpath hbits) (by omega), build_root]
  rfl

theorem siblingsOf_path (hle : depth ≤ 32) (hfits : leaves.length ≤ 2 ^ depth) {index : Nat}
    (hindex : index < leaves.length) :
    Num2Bits depth (index : F) ∧ ∃ pathElements : Vector F depth,
      pathElements.toList = siblingsOf (compress P) (padded zeroLeaf leaves) depth 0 index ∧
      merkleProof P leaves[index] pathElements (index : F) = treeRoot P depth leaves := by
  have hbound : 2 ^ depth ≤ 2 ^ 32 := Nat.pow_le_pow_right (by omega) hle
  have hval : (index : F).val = index := val_natCast_of_lt ((hindex.trans_le (hfits.trans hbound)).trans (by decide))
  have hbits : index < 2 ^ depth := hindex.trans_le hfits
  obtain ⟨pathElements, hpath⟩ : ∃ pathElements : Vector F depth, pathElements.toList =
      siblingsOf (compress P) (padded zeroLeaf leaves) depth 0 index :=
    ⟨⟨(siblingsOf (compress P) (padded zeroLeaf leaves) depth 0 index).toArray, by simp⟩, rfl⟩
  have hcomplete := merkleProof_complete hval hbits hpath
  rw [padded_lt hindex] at hcomplete
  refine ⟨?_, pathElements, hpath, hcomplete⟩
  rw [Num2Bits, hval]
  exact hbits

theorem exists_pairs (heven : leaves.length % 2 = 0) :
    ∃ fields : List (F × F),
      MerkleWithHistory.pairLeaves (fields.map fun pair => (pair.1.val, pair.2.val)) = leaves := by
  induction leaves using List.twoStepInduction with
  | nil => exact ⟨[], rfl⟩
  | singleton leaf => simp at heven
  | cons_cons left right rest ih =>
    rw [length_cons, length_cons] at heven
    obtain ⟨fields, hfields⟩ := ih (by omega)
    refine ⟨(left, right) :: fields, ?_⟩
    rw [← hfields]
    simp [MerkleWithHistory.pairLeaves]

theorem asp_getRoot (hchain : ZeroesChain P) {s : AspMembership.Storage}
    (h : AspMembership.History P depth (leaves.map ZMod.val) s) :
    AspMembership.getRoot s = .ok (treeRoot P depth leaves).val := by
  have hholds := (h.holds hchain).1.getRoot
  rwa [map_map, show Nat.cast ∘ ZMod.val = (id : F → F) from funext ZMod.natCast_zmod_val, map_id] at hholds

/-- The prover's trees, the full tree, both contracts and the circuit have one
root, and the prover's paths are those of the circuit. -/
theorem merkle_data_agrees (hchain : ZeroesChain P) (hpos : 1 ≤ depth) (hle : depth ≤ 32)
    (hne : leaves ≠ []) (hfits : leaves.length ≤ 2 ^ depth) :
    ∃ tree root, MerklePrefixTree.new P depth leaves = .ok tree ∧
      tree.root P = root ∧ (tree.build P).root = root ∧
      merkleRoot P (leaves ++ List.replicate (2 ^ depth - leaves.length) zeroLeaf) = some root ∧
      (∃ s, AspMembership.History P depth (leaves.map ZMod.val) s) ∧
      (∀ s, AspMembership.History P depth (leaves.map ZMod.val) s →
        AspMembership.getRoot s = .ok root.val) ∧
      (leaves.length % 2 = 0 → ∃ pairs indexes roots s,
        MerkleWithHistory.History P depth pairs indexes roots s ∧
          MerkleWithHistory.pairLeaves pairs = leaves) ∧
      (∀ pairs indexes roots s, MerkleWithHistory.History P depth pairs indexes roots s →
        MerkleWithHistory.pairLeaves pairs = leaves →
          MerkleWithHistory.getLastRoot s = .ok root.val) ∧
      ∀ (i : Nat) (hi : i < leaves.length), ∃ proof, (tree.build P).proof i = .ok proof ∧
        proof.root = root ∧ proof.pathIndices = (i : F) ∧
        tryFromLeBytes (packIndex i) = some proof.pathIndices ∧
        Num2Bits depth proof.pathIndices ∧
        ∃ pathElements : Vector F depth, pathElements.toList = proof.pathElements ∧
          merkleProof P leaves[i] pathElements proof.pathIndices = root := by
  refine ⟨prefixTree P depth leaves, treeRoot P depth leaves, new_eq hpos hle, prefixTree_root,
    build_root, merkleRoot_padded hfits, ?_, ?_, ?_, ?_, ?_⟩
  · obtain ⟨s, hrun, -⟩ := AspMembership.exists_history hchain hpos hle hfits
    exact ⟨s, hrun⟩
  · intro s hrun
    exact asp_getRoot hchain hrun
  · intro heven
    obtain ⟨fields, hfields⟩ := exists_pairs heven
    have hlength := MerkleWithHistory.pairLeaves_length (fields.map fun pair => (pair.1.val, pair.2.val))
    rw [hfields, length_map] at hlength
    obtain ⟨indexes, roots, s, hrun⟩ := MerkleWithHistory.exists_history hchain hpos hle (hlength ▸ hfits)
    exact ⟨_, indexes, roots, s, hrun, hfields⟩
  · intro pairs indexes roots s hrun hpairs
    rw [← hpairs]
    exact (hrun.holds hchain).getLastRoot
  · intro i hi
    have hbound : 2 ^ depth ≤ 2 ^ 32 := Nat.pow_le_pow_right (by omega) hle
    obtain ⟨hbits, pathElements, hpath, hroot⟩ := @siblingsOf_path P depth leaves hle hfits i hi
    exact ⟨_, build_proof hpos hle hne (hi.trans_le hfits) hi, rfl, rfl,
      tryFromLeBytes_packIndex (hi.trans_le (hfits.trans hbound)), hbits, pathElements, hpath, hroot⟩

/-- Four leaves under two levels: both contracts hold the root to which the circuit maps the third leaf. -/
theorem merkle_data_agrees_four : ∃ P tree proof asp pairs indexes roots pool, ∃ pathElements : Vector F 2,
    MerklePrefixTree.new P 2 [5, 6, 7, 8] = .ok tree ∧ (tree.build P).proof 2 = .ok proof ∧
      pathElements.toList = proof.pathElements ∧ AspMembership.History P 2 [5, 6, 7, 8] asp ∧
      MerkleWithHistory.History P 2 pairs indexes roots pool ∧
      AspMembership.getRoot asp = .ok (merkleProof P 7 pathElements 2).val ∧
      MerkleWithHistory.getLastRoot pool = .ok (merkleProof P 7 pathElements 2).val := by
  obtain ⟨tree, root, hnew, -, -, -, ⟨asp, hasp⟩, haspRoot, hpools, hpoolRoot, hproofs⟩ :=
    merkle_data_agrees (zeroesChain_tablePermutation []) (show 1 ≤ 2 by omega) (by omega)
      (show [(5 : F), 6, 7, 8] ≠ [] by simp) (by decide)
  obtain ⟨pairs, indexes, roots, pool, hpool, hpairs⟩ := hpools rfl
  obtain ⟨proof, hproof, -, hindex, -, -, pathElements, hpath, hroot⟩ := hproofs 2 (by decide)
  rw [hindex] at hroot
  refine ⟨_, tree, proof, asp, pairs, indexes, roots, pool, pathElements, hnew, hproof, hpath, hasp, hpool, ?_, ?_⟩
  · exact (haspRoot asp hasp).trans (hroot ▸ rfl)
  · exact (hpoolRoot pairs indexes roots pool hpool hpairs).trans (hroot ▸ rfl)

/-- A list that does not fit is rejected; otherwise the built tree counts the leaves that were
given, and exactly those have proofs. -/
def ChecksBounds (P : Permutation) (depth : Nat) (leaves : List F) : Prop :=
  (∃ e, MerklePrefixTree.new P depth leaves = .error e) ∨
    leaves.length ≤ 2 ^ depth ∧ ∃ tree, MerklePrefixTree.new P depth leaves = .ok tree ∧
      (tree.build P).leafCount = leaves.length ∧
      ∀ index < 2 ^ 32, (∃ proof, (tree.build P).proof index = .ok proof) ↔ index < leaves.length

theorem leafCount_nil (hpos : 1 ≤ depth) : ((prefixTree P depth []).build P).leafCount = 1 := by
  obtain ⟨count, rfl⟩ : ∃ count, depth = count + 1 := ⟨depth - 1, by omega⟩
  rfl

theorem proof_past_end {index : Nat} (h : tree.leafCount ≤ index) :
    tree.proof index = .error (.leafIndexOutOfRange index tree.leafCount) := by
  rw [MerklePrefixTreeBuilt.proof, if_pos h]

theorem checksBounds_of_fits (hpos : 1 ≤ depth) (hle : depth ≤ 32) (hne : leaves ≠ [])
    (hfits : leaves.length ≤ 2 ^ depth) : ChecksBounds P depth leaves := by
  refine .inr ⟨hfits, prefixTree P depth leaves, new_eq hpos hle, build_leafCount hpos hne, ?_⟩
  intro index _
  by_cases hindex : index < leaves.length
  · exact iff_of_true ⟨_, build_proof hpos hle hne (hindex.trans_le hfits) hindex⟩ hindex
  · have hpast : ((prefixTree P depth leaves).build P).leafCount ≤ index := by
      rw [build_leafCount hpos hne]
      omega
    rw [proof_past_end hpast]
    simp [hindex]

/-- `new` never looks at the number of leaves, and the empty list gets a leaf when it is built. -/
theorem prefix_boundaries (P : Permutation) (hpos : 1 ≤ depth) (hle : depth ≤ 32) (leaves : List F) :
    ChecksBounds P depth leaves ↔ 0 < leaves.length ∧ leaves.length ≤ 2 ^ depth := by
  constructor
  · rintro (⟨e, herror⟩ | ⟨hfits, tree, hnew, hcount, -⟩)
    · rw [new_eq hpos hle] at herror
      cases herror
    · refine ⟨Nat.pos_of_ne_zero fun hzero => ?_, hfits⟩
      rw [length_eq_zero_iff.mp hzero] at hnew hcount
      rw [(new_eq_ok hnew).2.2, leafCount_nil hpos] at hcount
      cases hcount
  · rintro ⟨hlen, hfits⟩
    exact checksBounds_of_fits hpos hle (length_pos_iff.mp hlen) hfits

theorem prefix_boundaries_three : ChecksBounds (tablePermutation []) 2 [7, 8, 9] :=
  (prefix_boundaries (tablePermutation []) (by decide) (by decide) [7, 8, 9]).mpr (by decide)

/-- No leaf, and three leaves below one level. -/
theorem prefix_boundaries_missed :
    ¬ChecksBounds (tablePermutation []) 1 [] ∧ ¬ChecksBounds (tablePermutation []) 1 [7, 8, 9] := by
  constructor
  · rintro (⟨e, herror⟩ | ⟨-, tree, hnew, hcount, -⟩)
    · rw [new_eq (by decide) (by decide)] at herror
      cases herror
    · rw [(new_eq_ok hnew).2.2, leafCount_nil (by decide)] at hcount
      cases hcount
  · rintro (⟨e, herror⟩ | ⟨hfits, -⟩)
    · rw [new_eq (by decide) (by decide)] at herror
      cases herror
    · exact absurd hfits (by decide)

end Tree

end PrivatePayments.Sdk

import PrivatePayments.Contracts.SorobanUtils
import PrivatePayments.Lib.BinaryTree

/-! The two bottom-up insertion loops, which differ only in where they start
and whose storage they use.  The cache of left siblings is stale at most levels;
it is right exactly where the binary expansion of the next index has a one. -/
namespace PrivatePayments.Contracts
open Lib.BinaryTree

variable {ε : Type}

/-- The part of a tree contract's storage that an insertion works on. -/
structure Frontier where
  filledSubtree : Nat → Option U256
  zeroes : Nat → Option U256
  hashed : List Query

/-- The loop of `insert_two_leaves` (from level 1) and `insert_leaf` (from
level 0): a right child is paired with the stored left sibling, a left child is
stored and paired with the empty subtree. -/
def climb (P : Permutation) (notInitialized : ε) :
    Nat → Nat → Nat → U256 → Frontier → Except (Abort ε) (U256 × Frontier)
  | 0, _, _, currentHash, fr => .ok (currentHash, fr)
  | count + 1, lvl, currentIndex, currentHash, fr => do
      if currentIndex % 2 = 1 then
        let left ← okOr (fr.filledSubtree lvl) notInitialized
        let (h, hashed) ← poseidon2Compress P left currentHash fr.hashed
        climb P notInitialized count (lvl + 1) (currentIndex / 2) h { fr with hashed }
      else
        let filled := Function.update fr.filledSubtree lvl (some currentHash)
        let zeroVal ← okOr (fr.zeroes lvl) notInitialized
        let (h, hashed) ← poseidon2Compress P currentHash zeroVal fr.hashed
        climb P notInitialized count (lvl + 1) (currentIndex / 2) h
          { fr with filledSubtree := filled, hashed }

def initLevels (levels : Nat) : Nat → Option U256 :=
  fun i => if i ≤ levels then getZeroes[i]? else none

theorem initLevels_eq {levels i : Nat} (hlevels : levels ≤ 32) (hi : i ≤ levels) :
    initLevels levels i = some (getZeroes.getD i 0) := by
  have hlen : i < getZeroes.length := by rw [getZeroes_length]; omega
  simp [initLevels, hi, List.getElem?_eq_getElem hlen]

abbrev treeNode (P : Permutation) (leaves : List F) (level position : Nat) : F :=
  nodeAt (compress P) (padded zeroLeaf leaves) level position

/-- The root of the full tree whose first leaves are the inserted ones. -/
abbrev treeRoot (P : Permutation) (levels : Nat) (leaves : List F) : F :=
  root (compress P) zeroLeaf levels leaves

variable {P : Permutation}

theorem emptyNode_eq (hchain : ZeroesChain P) {level : Nat} (h : level ≤ 32) :
    emptyNode (compress P) zeroLeaf level = ((getZeroes.getD level 0 : Nat) : F) := by
  induction level with
  | zero => rfl
  | succ level ih => rw [emptyNode, ih (by omega), hchain level (by omega)]

/-- The cached left siblings that an insertion at block `next` will read.  A
block is `2 ^ base` leaves. -/
def Filled (P : Permutation) (leaves : List F) (base depth next : Nat)
    (filled : Nat → Option U256) : Prop :=
  ∀ k, base + k < depth → next / 2 ^ k % 2 = 1 →
    filled (base + k) = some (treeNode P leaves (base + k) (next / 2 ^ k - 1)).val

/-- Every node of the tree has been hashed, or belongs to an empty subtree. -/
def Logged (P : Permutation) (leaves : List F) (depth : Nat) (hashed : List Query) : Prop :=
  ∀ input ∈ treeInputs (compress P) (padded zeroLeaf leaves) depth,
    .compress input.1 input.2 ∈ hashed ∨
      ∃ i, i < depth ∧ input = (((getZeroes.getD i 0 : Nat) : F), ((getZeroes.getD i 0 : Nat) : F))

def TreeQuery (P : Permutation) (leaves : List F) (depth : Nat) (q : Query) : Prop :=
  ∃ input ∈ treeInputs (compress P) (padded zeroLeaf leaves) depth, q = .compress input.1 input.2

variable {depth : Nat}

theorem treeRoot_inj {leaves others : List F} {Q : Set Query}
    (hfree : CollisionFree P Q) (hleaves : ∀ q, TreeQuery P leaves depth q → q ∈ Q)
    (hothers : ∀ q, TreeQuery P others depth q → q ∈ Q)
    (heq : treeRoot P depth leaves = treeRoot P depth others) {i : Nat} (hi : i < 2 ^ depth) :
    padded zeroLeaf leaves i = padded zeroLeaf others i := by
  have hinj : Set.InjOn (fun input : F × F => compress P input.1 input.2)
      { input | .compress input.1 input.2 ∈ Q } := by
    rintro ⟨a, b⟩ hab ⟨c, d⟩ hcd hsame
    obtain ⟨rfl, rfl⟩ := hfree.compress_inj hab hcd hsame
    rfl
  exact nodeAt_inj (compress P) hinj (fun input hinput => hleaves _ ⟨input, hinput, rfl⟩)
    (fun input hinput => hothers _ ⟨input, hinput, rfl⟩) (le_refl depth) (by simp) heq i (by simp)
    (by simpa using hi)

theorem treeRoot_ne_zero {leaves : List F} {Q : Set Query} (hQ : ∀ q, TreeQuery P leaves (depth + 1) q → q ∈ Q)
    (hnonzero : Avoids P Q 0) : treeRoot P (depth + 1) leaves ≠ 0 :=
  hnonzero _ (hQ _ ⟨_, ⟨depth, 0, by omega, by simp, rfl⟩, rfl⟩)

theorem emptyRoot_eq (hchain : ZeroesChain P) (h : depth ≤ 32) :
    (treeRoot P depth []).val = getZeroes.getD depth 0 := by
  rw [treeRoot, root, nodeAt_empty _ (by simp), emptyNode_eq hchain h, val_natCast_of_lt (getZeroes_lt (by omega))]

theorem Logged.empty (hchain : ZeroesChain P) (h : depth ≤ 32) (hashed : List Query) : Logged P [] depth hashed := by
  rintro _ ⟨level, position, hlevel, _, rfl⟩
  right
  refine ⟨level, hlevel, ?_⟩
  rw [nodeAt_empty _ (by simp), nodeAt_empty _ (by simp), emptyNode_eq hchain (by omega)]

theorem Logged.mono {leaves : List F} {hashed hashed' : List Query}
    (h : Logged P leaves depth hashed) (hsub : ∀ q ∈ hashed, q ∈ hashed') : Logged P leaves depth hashed' :=
  fun input hin => (h input hin).imp_left (hsub _)

variable {leaves : List F}

section Small

theorem siblingsOf_zero (hchain : ZeroesChain P) {count level : Nat} (hdepth : level + count ≤ 33)
    (hlen : leaves.length ≤ 2 ^ level) :
    siblingsOf (compress P) (padded zeroLeaf leaves) count level 0 = (List.range' level count).map zeroAt := by
  induction count generalizing level with
  | zero => rfl
  | succ count ih =>
    have hpow : 2 ^ level ≤ 2 ^ (level + 1) := Nat.pow_le_pow_right (by omega) (by omega)
    rw [siblingsOf, ih (by omega) (by omega), List.range'_succ, List.map_cons]
    congr 1
    exact (nodeAt_empty _ (by simpa using hlen)).trans (emptyNode_eq hchain (by omega))

theorem TreeQuery.small (hchain : ZeroesChain P) (hdepth : depth ≤ 32) (hlen : leaves.length ≤ 4)
    {q : Query} (hq : TreeQuery P leaves depth q) :
    (∃ i, i < 32 ∧ q = .compress (zeroAt i) (zeroAt i)) ∨
      q = .compress (padded zeroLeaf leaves 2) (padded zeroLeaf leaves 3) ∨
      ∃ input ∈ walkInputs (compress P) 0 (padded zeroLeaf leaves 0)
        (siblingsOf (compress P) (padded zeroLeaf leaves) depth 0 0), q = .compress input.1 input.2 := by
  obtain ⟨_, ⟨level, position, hlevel, _, rfl⟩, rfl⟩ := hq
  cases position with
  | zero =>
    right; right
    have h := mem_walkInputs_siblingsOf (compress P) (padded zeroLeaf leaves) 0 hlevel
    rw [zero_add] at h
    exact ⟨_, h, rfl⟩
  | succ position =>
    by_cases hfirst : level = 0 ∧ position = 0
    · obtain ⟨rfl, rfl⟩ := hfirst
      exact .inr (.inl rfl)
    · left
      have hafter : leaves.length ≤ 2 * (position + 1) * 2 ^ level := by
        rcases Nat.eq_zero_or_pos level with rfl | hpos
        · omega
        · calc leaves.length ≤ 2 * 2 ^ 1 := hlen
            _ ≤ 2 * (position + 1) * 2 ^ level := Nat.mul_le_mul (by omega) (Nat.pow_le_pow_right (by omega) hpos)
      refine ⟨level, by omega, ?_⟩
      rw [nodeAt_empty _ hafter, nodeAt_empty _ (hafter.trans (Nat.mul_le_mul_right _ (by omega))),
        emptyNode_eq hchain (by omega)]
      rfl

end Small

section Node
variable {level position : Nat}

theorem treeNode_parent_right (h : position % 2 = 1) :
    treeNode P leaves (level + 1) (position / 2) =
      compress P (treeNode P leaves level (position - 1)) (treeNode P leaves level position) :=
  nodeAt_parent_right _ _ h

theorem treeNode_parent_left (h : position % 2 ≠ 1) :
    treeNode P leaves (level + 1) (position / 2) =
      compress P (treeNode P leaves level position) (treeNode P leaves level (position + 1)) :=
  nodeAt_parent_left _ _ h

end Node

/-- What `count` levels of the loop, from level `lvl` and position `index` on,
do to the cache and to the trace. -/
structure Climbed (P : Permutation) (leaves : List F) (count lvl index : Nat)
    (fr fr' : Frontier) : Prop where
  zeroes : fr'.zeroes = fr.zeroes
  outside : ∀ l, l < lvl ∨ lvl + count ≤ l → fr'.filledSubtree l = fr.filledSubtree l
  filled : ∀ k, k < count → fr'.filledSubtree (lvl + k) =
    if index / 2 ^ k % 2 = 1 then fr.filledSubtree (lvl + k)
    else some (treeNode P leaves (lvl + k) (index / 2 ^ k)).val
  kept : ∀ q ∈ fr.hashed, q ∈ fr'.hashed
  path : ∀ k, k < count →
    .compress (treeNode P leaves (lvl + k) (2 * (index / 2 ^ (k + 1))))
      (treeNode P leaves (lvl + k) (2 * (index / 2 ^ (k + 1)) + 1)) ∈ fr'.hashed
  only : ∀ q ∈ fr'.hashed, q ∈ fr.hashed ∨ ∃ k, k < count ∧
    q = .compress (treeNode P leaves (lvl + k) (2 * (index / 2 ^ (k + 1))))
      (treeNode P leaves (lvl + k) (2 * (index / 2 ^ (k + 1)) + 1))

section Climb
variable {count lvl index : Nat} {fr : Frontier}

private theorem half_div (index k : Nat) : index / 2 / 2 ^ k = index / 2 ^ (k + 1) := by
  rw [Nat.div_div_eq_div_mul, ← pow_succ']

theorem Climbed.refl : Climbed P leaves 0 lvl index fr fr where
  zeroes := rfl
  outside _ _ := rfl
  filled k hk := absurd hk (by omega)
  kept _ hq := hq
  path k hk := absurd hk (by omega)
  only _ hq := .inl hq

theorem Climbed.cons {fr₁ fr' : Frontier} (h : Climbed P leaves 1 lvl index fr fr₁)
    (h' : Climbed P leaves count (lvl + 1) (index / 2) fr₁ fr') :
    Climbed P leaves (count + 1) lvl index fr fr' where
  zeroes := by rw [h'.zeroes, h.zeroes]
  outside l hl := by rw [h'.outside l (by omega), h.outside l (by omega)]
  filled k hk := by
    cases k with
    | zero => rw [h'.outside _ (by omega), h.filled 0 (by omega)]
    | succ k =>
      have hfilled := h'.filled k (by omega)
      rwa [half_div, show lvl + 1 + k = lvl + (k + 1) by omega, h.outside _ (by omega)] at hfilled
  kept q hq := h'.kept q (h.kept q hq)
  path k hk := by
    cases k with
    | zero => exact h'.kept _ (h.path 0 (by omega))
    | succ k =>
      have hpath := h'.path k (by omega)
      rwa [half_div, show lvl + 1 + k = lvl + (k + 1) by omega] at hpath
  only q hq := by
    rcases h'.only q hq with hq | ⟨k, hk, heq⟩
    · rcases h.only q hq with hq | ⟨k, hk, heq⟩
      · exact .inl hq
      · exact .inr ⟨k, by omega, heq⟩
    · rw [half_div, show lvl + 1 + k = lvl + (k + 1) by omega] at heq
      exact .inr ⟨k + 1, by omega, heq⟩

theorem climb_step (count : Nat) (hchain : ZeroesChain P) (e : ε) (hlvl : lvl ≤ 32)
    (hzero : fr.zeroes lvl = some (getZeroes.getD lvl 0)) (hend : leaves.length ≤ (index + 1) * 2 ^ lvl)
    (hleft : index % 2 = 1 →
      fr.filledSubtree lvl = some (treeNode P leaves lvl (index - 1)).val) :
    ∃ fr₁, climb P e (count + 1) lvl index (treeNode P leaves lvl index).val fr =
        climb P e count (lvl + 1) (index / 2)
          (treeNode P leaves (lvl + 1) (index / 2)).val fr₁ ∧ Climbed P leaves 1 lvl index fr fr₁ := by
  by_cases hodd : index % 2 = 1
  · refine ⟨{ fr with hashed := fr.hashed ++ [.compress (treeNode P leaves lvl (index - 1))
      (treeNode P leaves lvl index)] }, ?_, rfl, fun _ _ => rfl, ?_,
      fun q hq => List.mem_append_left _ hq, ?_, ?_⟩
    · rw [climb]
      simp only [hodd, if_true, hleft hodd, okOr_some, poseidon2Compress_val, bind, Except.bind]
      rw [treeNode_parent_right hodd]
    · intro k hk
      obtain rfl : k = 0 := by omega
      simp [hodd]
    · intro k hk
      obtain rfl : k = 0 := by omega
      simp [show 2 * (index / 2) = index - 1 by omega, show index - 1 + 1 = index by omega]
    · intro q hq
      rcases List.mem_append.mp hq with hq | hq
      · exact .inl hq
      · refine .inr ⟨0, by omega, ?_⟩
        simpa [show 2 * (index / 2) = index - 1 by omega, show index - 1 + 1 = index by omega] using hq
  · -- Everything to the right of the block is empty.
    have hright : treeNode P leaves lvl (index + 1) = ((getZeroes.getD lvl 0 : Nat) : F) := by
      rw [treeNode, nodeAt_empty _ hend, emptyNode_eq hchain hlvl]
    have hval : (treeNode P leaves lvl (index + 1)).val = getZeroes.getD lvl 0 := by
      rw [hright, val_natCast_of_lt (getZeroes_lt (by omega))]
    refine ⟨{ fr with
      filledSubtree := Function.update fr.filledSubtree lvl (some (treeNode P leaves lvl index).val)
      hashed := fr.hashed ++ [.compress (treeNode P leaves lvl index)
        (treeNode P leaves lvl (index + 1))] }, ?_, rfl, ?_, ?_,
      fun q hq => List.mem_append_left _ hq, ?_, ?_⟩
    · rw [climb]
      simp only [hodd, if_false, hzero, okOr_some, ← hval, poseidon2Compress_val, bind, Except.bind]
      rw [treeNode_parent_left hodd]
    · intro l hl
      exact Function.update_of_ne (by omega) _ _
    · intro k hk
      obtain rfl : k = 0 := by omega
      simp [hodd]
    · intro k hk
      obtain rfl : k = 0 := by omega
      simp [show 2 * (index / 2) = index by omega]
    · intro q hq
      rcases List.mem_append.mp hq with hq | hq
      · exact .inl hq
      · refine .inr ⟨0, by omega, ?_⟩
        simpa [show 2 * (index / 2) = index by omega] using hq

theorem climb_spec (leaves : List F) (count lvl index : Nat) (fr : Frontier)
    (hchain : ZeroesChain P) (e : ε) (hlvl : lvl + count ≤ 32)
    (hzero : ∀ k, k < count → fr.zeroes (lvl + k) = some (getZeroes.getD (lvl + k) 0))
    (hend : leaves.length ≤ (index + 1) * 2 ^ lvl)
    (hleft : ∀ k, k < count → index / 2 ^ k % 2 = 1 →
      fr.filledSubtree (lvl + k) = some (treeNode P leaves (lvl + k) (index / 2 ^ k - 1)).val) :
    ∃ fr', climb P e count lvl index (treeNode P leaves lvl index).val fr =
        .ok ((treeNode P leaves (lvl + count) (index / 2 ^ count)).val, fr') ∧
      Climbed P leaves count lvl index fr fr' := by
  induction count generalizing lvl index fr with
  | zero => exact ⟨fr, by simp [climb], .refl⟩
  | succ count ih =>
    obtain ⟨fr₁, hstep, h₁⟩ := climb_step count hchain e (by omega)
      (by simpa using hzero 0 (by omega)) hend (by simpa using hleft 0 (by omega))
    obtain ⟨fr', hrun, h'⟩ := ih (lvl + 1) (index / 2) fr₁ (by omega) (fun k hk => by
        rw [h₁.zeroes, show lvl + 1 + k = lvl + (k + 1) by omega]
        exact hzero (k + 1) (by omega))
      (by
        calc leaves.length ≤ (index + 1) * 2 ^ lvl := hend
          _ ≤ (2 * (index / 2 + 1)) * 2 ^ lvl := Nat.mul_le_mul_right _ (by omega)
          _ = (index / 2 + 1) * 2 ^ (lvl + 1) := by ring)
      (fun k hk hodd => by
        rw [half_div] at hodd ⊢
        rw [h₁.outside _ (by omega), show lvl + 1 + k = lvl + (k + 1) by omega]
        exact hleft (k + 1) (by omega) hodd)
    refine ⟨fr', ?_, h₁.cons h'⟩
    rw [hstep, hrun, half_div, show lvl + 1 + count = lvl + (count + 1) by omega]

end Climb

theorem climb_lt {e : ε} {count lvl index value h : Nat} {fr fr' : Frontier}
    (hok : climb P e (count + 1) lvl index value fr = .ok (h, fr')) : value < bn256Modulus := by
  rw [climb] at hok
  split at hok
  · obtain ⟨left, _, hok⟩ := bind_eq_ok hok
    obtain ⟨⟨next, hashed⟩, hnext, hok⟩ := bind_eq_ok hok
    exact (poseidon2Compress_ok hnext).2.1
  · obtain ⟨zeroVal, _, hok⟩ := bind_eq_ok hok
    obtain ⟨⟨next, hashed⟩, hnext, hok⟩ := bind_eq_ok hok
    exact (poseidon2Compress_ok hnext).1

section Append
variable {leaves block : List F} {base depth next : Nat} {fr fr' : Frontier}

theorem Filled.append {filled : Nat → Option U256} (h : Filled P leaves base depth next filled)
    (hlen : leaves.length = next * 2 ^ base) : Filled P (leaves ++ block) base depth next filled := by
  intro k hk hodd
  rw [h k hk hodd, treeNode, treeNode, nodeAt_append]
  have hle : next / 2 ^ k * 2 ^ k ≤ next := Nat.div_mul_le_self _ _
  have hpos : 1 ≤ next / 2 ^ k := by
    generalize next / 2 ^ k = q at hodd
    omega
  calc (next / 2 ^ k - 1 + 1) * 2 ^ (base + k)
      = next / 2 ^ k * 2 ^ k * 2 ^ base := by
        rw [Nat.sub_add_cancel hpos]
        ring
    _ ≤ next * 2 ^ base := Nat.mul_le_mul_right _ hle
    _ = leaves.length := hlen.symm

/-- After a block at position `next` the cache serves position `next + 1`: a
level is written exactly where the carry of the increment ends. -/
theorem Climbed.filled_next (h : Climbed P (leaves ++ block) (depth - base) base next fr fr')
    (hold : Filled P (leaves ++ block) base depth next fr.filledSubtree) :
    Filled P (leaves ++ block) base depth (next + 1) fr'.filledSubtree := by
  intro k hk hodd
  rw [h.filled k (by omega)]
  have hcarry : (next + 1) / 2 ^ k = next / 2 ^ k + if 2 ^ k ∣ next + 1 then 1 else 0 := Nat.succ_div
  by_cases hdvd : 2 ^ k ∣ next + 1
  · rw [if_pos hdvd] at hcarry
    rw [hcarry] at hodd ⊢
    rw [if_neg (by omega), Nat.add_sub_cancel]
  · rw [if_neg hdvd, add_zero (next / 2 ^ k)] at hcarry
    rw [hcarry] at hodd ⊢
    rw [if_pos hodd, hold k hk hodd]

/-- Every pair of nodes of the extended tree is old, empty, inside the block or
on the block's path. -/
theorem Climbed.logged (hchain : ZeroesChain P) (hdepth : depth ≤ 32) (hbase : base ≤ depth)
    (hlen : leaves.length = next * 2 ^ base) (hblock : block.length = 2 ^ base)
    (h : Climbed P (leaves ++ block) (depth - base) base next fr fr') (hold : Logged P leaves depth fr.hashed)
    (hinner : ∀ level position, level < base → position / 2 ^ (base - (level + 1)) = next →
      .compress (treeNode P (leaves ++ block) level (2 * position))
        (treeNode P (leaves ++ block) level (2 * position + 1)) ∈ fr.hashed) :
    Logged P (leaves ++ block) depth fr'.hashed := by
  rintro _ ⟨level, position, hlevel, hposition, rfl⟩
  have hnew : (leaves ++ block).length = (next + 1) * 2 ^ base := by
    rw [List.length_append, hlen, hblock]
    ring
  by_cases hafter : (next + 1) * 2 ^ base ≤ position * 2 ^ (level + 1)
  · right
    have hpow : position * 2 ^ (level + 1) = 2 * position * 2 ^ level := by ring
    refine ⟨level, hlevel, ?_⟩
    rw [nodeAt_empty _ (by omega), nodeAt_empty _ (by
      calc (leaves ++ block).length ≤ 2 * position * 2 ^ level := by omega
        _ ≤ (2 * position + 1) * 2 ^ level := Nat.mul_le_mul_right _ (by omega)),
      emptyNode_eq hchain (by omega)]
  by_cases hbefore : (position + 1) * 2 ^ (level + 1) ≤ next * 2 ^ base
  · have hpow : (position + 1) * 2 ^ (level + 1) = (2 * position + 1 + 1) * 2 ^ level := by ring
    have hold' := hold _ ⟨level, position, hlevel, hposition, rfl⟩
    rw [nodeAt_append _ (by
      calc (2 * position + 1) * 2 ^ level ≤ (2 * position + 1 + 1) * 2 ^ level :=
            Nat.mul_le_mul_right _ (by omega)
        _ ≤ leaves.length := by omega), nodeAt_append _ (by omega)]
    exact hold'.imp_left (h.kept _)
  left
  by_cases hlow : level < base
  · refine h.kept _ (hinner level position hlow ?_)
    obtain ⟨d, rfl⟩ : ∃ d, base = level + 1 + d := ⟨base - (level + 1), by omega⟩
    rw [Nat.add_sub_cancel_left]
    have hpow : ∀ n, n * 2 ^ (level + 1 + d) = n * 2 ^ d * 2 ^ (level + 1) := fun n => by ring
    rw [hpow, Nat.mul_le_mul_right_iff (Nat.two_pow_pos _)] at hafter hbefore
    exact Nat.div_eq_of_lt_le (by omega) (by omega)
  · obtain ⟨k, rfl⟩ : ∃ k, level = base + k := ⟨level - base, by omega⟩
    have hpow : ∀ n, n * 2 ^ (base + k + 1) = n * 2 ^ (k + 1) * 2 ^ base := fun n => by ring
    rw [hpow, Nat.mul_le_mul_right_iff (Nat.two_pow_pos _)] at hafter hbefore
    have hpos : next / 2 ^ (k + 1) = position := Nat.div_eq_of_lt_le (by omega) (by omega)
    have hpath := h.path k (by omega)
    rwa [hpos] at hpath

theorem Climbed.treeQuery (hbase : base ≤ depth) (hnext : next < 2 ^ (depth - base))
    (h : Climbed P leaves (depth - base) base next fr fr') {q : Query} (hq : q ∈ fr'.hashed) :
    q ∈ fr.hashed ∨ TreeQuery P leaves depth q := by
  refine (h.only q hq).imp_right ?_
  rintro ⟨k, hk, rfl⟩
  refine ⟨_, ⟨base + k, next / 2 ^ (k + 1), by omega, ?_, rfl⟩, rfl⟩
  rw [Nat.div_lt_iff_lt_mul (Nat.two_pow_pos _), ← pow_add]
  exact lt_of_lt_of_le hnext (Nat.pow_le_pow_right (by omega) (by omega))

/-- One insertion: the loop returns the root of the extended tree, leaves the
cache right for the next block and has hashed all that is new. -/
theorem climb_append (block : List F) (fr : Frontier) (hchain : ZeroesChain P) (e : ε)
    (hdepth : depth ≤ 32) (hbase : base ≤ depth) (hzero : ∀ i, i ≤ depth → fr.zeroes i = some (getZeroes.getD i 0))
    (hlen : leaves.length = next * 2 ^ base) (hblock : block.length = 2 ^ base) (hnext : next < 2 ^ (depth - base))
    (hfilled : Filled P leaves base depth next fr.filledSubtree) :
    ∃ fr', climb P e (depth - base) base next (treeNode P (leaves ++ block) base next).val fr =
        .ok ((treeRoot P depth (leaves ++ block)).val, fr') ∧
      Climbed P (leaves ++ block) (depth - base) base next fr fr' := by
  obtain ⟨fr', hrun, h⟩ := climb_spec (leaves ++ block) (depth - base) base next fr hchain e (by omega)
    (fun k hk => hzero _ (by omega))
    (by rw [List.length_append, hlen, hblock, add_mul, one_mul])
    (fun k hk => hfilled.append hlen k (by omega))
  refine ⟨fr', ?_, h⟩
  rw [hrun, Nat.div_eq_of_lt hnext, show base + (depth - base) = depth by omega]
  rfl

end Append

end PrivatePayments.Contracts

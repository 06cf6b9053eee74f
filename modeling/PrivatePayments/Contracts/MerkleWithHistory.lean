import PrivatePayments.Contracts.Frontier
import PrivatePayments.Lib.RingWindow

/-! `pool/src/merkle_with_history.rs`: the commitment tree of the pool, which
takes two leaves at a time and keeps its last roots in a ring. -/
namespace PrivatePayments.Contracts.MerkleWithHistory
open Lib.BinaryTree Lib.RingWindow List Function

def rootHistorySize : Nat := 90

inductive Error where
  | alreadyInitialized | wrongLevels | merkleTreeFull | nextIndexNotEven | notInitialized | overflow
deriving DecidableEq, Repr

/-- The entries of `MerkleDataKey` in persistent storage. -/
structure Storage extends Frontier where
  levels : Option Nat
  currentRootIndex : Option Nat
  nextIndex : Option Nat
  root : Nat → Option U256

def Storage.fresh : Storage where
  filledSubtree _ := none
  zeroes _ := none
  hashed := []
  levels := none
  currentRootIndex := none
  nextIndex := none
  root _ := none

def init (levels : Nat) (s : Storage) : Except (Abort Error) (Unit × Storage) := do
  failIf (levels = 0 ∨ levels > 32) .wrongLevels
  failIf (s.currentRootIndex.isSome) .alreadyInitialized
  -- The loop over the levels ends with this same lookup, so it cannot fail earlier.
  let root0 ← okOr getZeroes[levels]? .notInitialized
  return ((), { s with
    levels := some levels
    filledSubtree := fun i => if i ≤ levels then initLevels levels i else s.filledSubtree i
    zeroes := fun i => if i ≤ levels then initLevels levels i else s.zeroes i
    root := update s.root 0 (some root0)
    currentRootIndex := some 0
    nextIndex := some 0 })

def insertTwoLeaves (P : Permutation) (leaf1 leaf2 : U256) (s : Storage) :
    Except (Abort Error) ((Nat × Nat) × Storage) := do
  let levels ← okOr s.levels .notInitialized
  let nextIndex ← okOr s.nextIndex .notInitialized
  let rootIndex ← okOr s.currentRootIndex .notInitialized
  let maxLeaves ← okOr (checkedShl levels) .wrongLevels
  failIf (nextIndex % 2 ≠ 0) .nextIndexNotEven
  let afterIndex ← okOr (checkedAdd 64 nextIndex 2) .overflow
  failIf (afterIndex > maxLeaves) .merkleTreeFull
  let (parent, hashed) ← poseidon2Compress P leaf1 leaf2 s.hashed
  let (currentHash, fr) ← climb P .notInitialized (levels - 1) 1 (nextIndex / 2) parent
    { s.toFrontier with hashed }
  let nextRoot ← okOr (checkedAdd 32 rootIndex 1) .overflow
  let rootIndex := nextRoot % rootHistorySize
  let left ← okOr (tryFromU32 nextIndex) .merkleTreeFull
  let rightIndex ← okOr (checkedAdd 64 nextIndex 1) .overflow
  let right ← okOr (tryFromU32 rightIndex) .merkleTreeFull
  return ((left, right), { s with
    toFrontier := fr
    root := update s.root rootIndex (some currentHash)
    currentRootIndex := some rootIndex
    nextIndex := some afterIndex })

/-- The search loop of `is_known_root`.  The loop has no bound of its own: the
host traps a call that uses up its budget. -/
def searchRoots (s : Storage) (root : U256) (current : Nat) :
    Nat → Nat → Except (Abort Error) Bool
  | 0, _ => .error .panic
  | budget + 1, i => do
      if s.root i = some root then
        return true
      let next ← okOr (checkedAdd 32 i 1) .overflow
      if next % rootHistorySize = current then
        return false
      searchRoots s root current budget (next % rootHistorySize)

def isKnownRoot (budget : Nat) (root : U256) (s : Storage) : Except (Abort Error) Bool := do
  if root = 0 then
    return false
  let currentRootIndex ← okOr s.currentRootIndex .notInitialized
  searchRoots s root currentRootIndex budget currentRootIndex

def getLastRoot (s : Storage) : Except (Abort Error) U256 := do
  let currentRootIndex ← okOr s.currentRootIndex .notInitialized
  okOr (s.root currentRootIndex) .notInitialized

variable {P : Permutation}

section Insert
variable {levels leaf1 leaf2 : Nat} {index : Nat × Nat} {s s' : Storage}

theorem insertTwoLeaves_ok (h : insertTwoLeaves P leaf1 leaf2 s = .ok (index, s')) :
    ∃ levels next current parent hashed newRoot fr,
      s.levels = some levels ∧ s.nextIndex = some next ∧ s.currentRootIndex = some current ∧
      next % 2 = 0 ∧ next + 2 ≤ 2 ^ levels ∧
      poseidon2Compress (ε := Error) P leaf1 leaf2 s.hashed = .ok (parent, hashed) ∧
      climb P Error.notInitialized (levels - 1) 1 (next / 2) parent
        { s.toFrontier with hashed } = .ok (newRoot, fr) ∧
      index = (next, next + 1) ∧
      s' = { s with
        toFrontier := fr
        root := update s.root ((current + 1) % rootHistorySize) (some newRoot)
        currentRootIndex := some ((current + 1) % rootHistorySize)
        nextIndex := some (next + 2) } := by
  unfold insertTwoLeaves at h
  obtain ⟨levels, hlevels, h⟩ := bind_eq_ok h
  obtain ⟨next, hnext, h⟩ := bind_eq_ok h
  obtain ⟨current, hcurrent, h⟩ := bind_eq_ok h
  obtain ⟨maxLeaves, hmax, h⟩ := bind_eq_ok h
  obtain ⟨_, heven, h⟩ := bind_eq_ok h
  obtain ⟨after, hafter, h⟩ := bind_eq_ok h
  obtain ⟨_, hroom, h⟩ := bind_eq_ok h
  obtain ⟨⟨parent, hashed⟩, hparent, h⟩ := bind_eq_ok h
  obtain ⟨⟨newRoot, fr⟩, hclimb, h⟩ := bind_eq_ok h
  obtain ⟨nextRoot, hnextRoot, h⟩ := bind_eq_ok h
  obtain ⟨left, hleft, h⟩ := bind_eq_ok h
  obtain ⟨rightIndex, hrightIndex, h⟩ := bind_eq_ok h
  obtain ⟨right, hright, h⟩ := bind_eq_ok h
  obtain ⟨-, rfl⟩ := checkedShl_eq_some (okOr_eq_ok hmax)
  obtain ⟨-, rfl⟩ := checkedAdd_eq_some (okOr_eq_ok hafter)
  obtain ⟨-, rfl⟩ := checkedAdd_eq_some (okOr_eq_ok hnextRoot)
  obtain ⟨-, rfl⟩ := tryFromU32_eq_some (okOr_eq_ok hleft)
  obtain ⟨-, rfl⟩ := checkedAdd_eq_some (okOr_eq_ok hrightIndex)
  obtain ⟨-, rfl⟩ := tryFromU32_eq_some (okOr_eq_ok hright)
  have heven := failIf_eq_ok heven
  have hroom := failIf_eq_ok hroom
  cases h
  exact ⟨levels, left, current, parent, hashed, newRoot, fr, okOr_eq_ok hlevels,
    okOr_eq_ok hnext, okOr_eq_ok hcurrent, by omega, by omega, hparent, hclimb, rfl, rfl⟩

end Insert

/-! The ring of roots, for any sequence of roots whose last one is current. -/

structure RootRing (history : Nat → U256) (n : Nat) (s : Storage) : Prop where
  current : s.currentRootIndex = some (n % rootHistorySize)
  window : Window rootHistorySize history n s.root

variable {s : Storage}

variable {s' : Storage} {leaf1 leaf2 : Nat} {index : Nat × Nat}

section Ring
variable {history : Nat → U256} {n : Nat}

section
variable (h : RootRing history n s)
include h

theorem RootRing.getLastRoot : getLastRoot s = .ok (history n) := by
  simp only [MerkleWithHistory.getLastRoot, h.current, okOr_some, ok_bind]
  rw [h.window.recent n (by omega) (by simp [rootHistorySize])]
  rfl

theorem RootRing.congr {other : Nat → U256}
    (heq : ∀ j, j ≤ n → history j = other j) : RootRing other n s :=
  ⟨h.current, h.window.congr heq⟩

theorem RootRing.insert {P : Permutation}
    (hins : insertTwoLeaves P leaf1 leaf2 s = .ok (index, s'))
    (hlast : MerkleWithHistory.getLastRoot s' = .ok (history (n + 1))) : RootRing history (n + 1) s' := by
  obtain ⟨_, _, current, _, _, newRoot, _, _, _, hcurrent, _, _, _, _, _, rfl⟩ := insertTwoLeaves_ok hins
  obtain rfl : n % rootHistorySize = current := Option.some.inj (h.current.symm.trans hcurrent)
  rw [Nat.mod_add_mod] at hlast ⊢
  obtain rfl : newRoot = history (n + 1) := by
    simpa [MerkleWithHistory.getLastRoot, okOr] using hlast
  exact ⟨rfl, h.window.push⟩

end

variable {budget : Nat}

theorem searchRoots_eq (s : Storage) (root : Nat) {current : Nat}
    (hcurrent : current < rootHistorySize) {t : Nat} (ht : t < rootHistorySize)
    (hbudget : rootHistorySize ≤ t + budget) :
    searchRoots s root current budget ((current + t) % rootHistorySize) =
      .ok (decide (∃ u, u < rootHistorySize ∧ t ≤ u ∧ s.root ((current + u) % rootHistorySize) = some root)) := by
  induction budget generalizing t with
  | zero => omega
  | succ budget ih =>
    have hslot : (current + t) % rootHistorySize < rootHistorySize := Nat.mod_lt _ (by decide)
    have hsize : rootHistorySize < 2 ^ 32 - 1 := by decide
    rw [searchRoots]
    by_cases hit : s.root ((current + t) % rootHistorySize) = some root
    · rw [if_pos hit, decide_eq_true ⟨t, ht, le_refl t, hit⟩]
      rfl
    · rw [if_neg hit, checkedAdd_eq (by omega)]
      simp only [okOr_some, ok_bind, Nat.mod_add_mod, turn_eq_start_iff hcurrent ht]
      -- No match so far, so the matches from `t` on are those from `t + 1` on.
      have hskip : (∃ u, u < rootHistorySize ∧ t ≤ u ∧ s.root ((current + u) % rootHistorySize) = some root) ↔
          ∃ u, u < rootHistorySize ∧ t + 1 ≤ u ∧
            s.root ((current + u) % rootHistorySize) = some root := by
        constructor
        · rintro ⟨u, hu, htu, hroot⟩
          refine ⟨u, hu, Nat.lt_of_le_of_ne htu ?_, hroot⟩
          rintro rfl
          exact hit hroot
        · rintro ⟨u, hu, htu, hroot⟩
          exact ⟨u, hu, by omega, hroot⟩
      rw [decide_eq_decide.mpr hskip]
      by_cases hend : t + 1 = rootHistorySize
      · rw [if_pos hend, decide_eq_false]
        · rfl
        · rintro ⟨u, hu, htu, _⟩
          omega
      · rw [if_neg hend, add_assoc current t 1]
        exact ih (by omega) (by omega)

theorem RootRing.isKnownRoot (h : RootRing history n s)
    (hbudget : rootHistorySize ≤ budget) (root : Nat) :
    isKnownRoot budget root s =
      .ok (decide (root ≠ 0 ∧ ∃ j, j ≤ n ∧ n < j + rootHistorySize ∧ history j = root)) := by
  unfold MerkleWithHistory.isKnownRoot
  by_cases hzero : root = 0
  · simp [hzero, pure, Except.pure]
  · have hcurrent : n % rootHistorySize < rootHistorySize := Nat.mod_lt _ (by decide)
    have hsearch := searchRoots_eq s root hcurrent (by decide) (by omega : rootHistorySize ≤ 0 + budget)
    rw [add_zero, Nat.mod_eq_of_lt hcurrent] at hsearch
    simp only [if_neg hzero, h.current, okOr_some, ok_bind, hsearch]
    refine congrArg Except.ok (decide_eq_decide.mpr ?_)
    simp only [Nat.zero_le, true_and, hzero, ne_eq, not_false_eq_true]
    rw [exists_turn_iff hcurrent (p := fun i => s.root i = some root)]
    exact h.window.mem_iff

/-- The search only ever finds stored roots, whatever budget it is given. -/
theorem searchRoots_true {s : Storage} {root current : Nat} {budget i : Nat}
    (hi : i < rootHistorySize) (h : searchRoots s root current budget i = .ok true) :
    ∃ k, k < rootHistorySize ∧ s.root k = some root := by
  induction budget generalizing i with
  | zero => cases h
  | succ budget ih =>
    rw [searchRoots] at h
    split at h
    · rename_i hit
      exact ⟨i, hi, hit⟩
    · obtain ⟨next, _, h⟩ := bind_eq_ok h
      split at h
      · cases h
      · exact ih (Nat.mod_lt _ (by decide)) h

theorem RootRing.of_isKnownRoot (h : RootRing history n s) {budget root : Nat}
    (hknown : MerkleWithHistory.isKnownRoot budget root s = .ok true) :
    ∃ j, j ≤ n ∧ n < j + rootHistorySize ∧ history j = root := by
  unfold MerkleWithHistory.isKnownRoot at hknown
  split at hknown
  · cases hknown
  · rw [h.current] at hknown
    exact h.window.mem_iff.mp (searchRoots_true (Nat.mod_lt _ (by decide)) hknown)

end Ring

structure Holds (P : Permutation) (levels : Nat) (leaves : List F) (s : Storage) : Prop where
  levels_pos : 1 ≤ levels
  levels_le : levels ≤ 32
  levels_eq : s.levels = some levels
  nextIndex_eq : s.nextIndex = some leaves.length
  even : leaves.length % 2 = 0
  fits : leaves.length ≤ 2 ^ levels
  zeroes : ∀ i, i ≤ levels → s.zeroes i = some (getZeroes.getD i 0)
  filled : Filled P leaves 1 levels (leaves.length / 2) s.filledSubtree
  logged : Logged P leaves levels s.hashed
  ring : RootRing (fun j => (treeRoot P levels (leaves.take (2 * j))).val) (leaves.length / 2) s

variable {levels : Nat}

section Holds
variable {leaves : List F}

theorem Holds.getLastRoot (h : Holds P levels leaves s) : getLastRoot s = .ok (treeRoot P levels leaves).val := by
  have heven := h.even
  rw [h.ring.getLastRoot, take_of_length_le (by omega)]

theorem treeNode_pair (heven : leaves.length % 2 = 0) (a b : F) :
    treeNode P (leaves ++ [a, b]) 1 (leaves.length / 2) = compress P a b := by
  have hleft : 2 * (leaves.length / 2) = leaves.length := by omega
  rw [treeNode, nodeAt_succ, nodeAt_zero, nodeAt_zero, hleft]
  simp [padded]

theorem init_holds (hchain : ZeroesChain P) (hpos : 1 ≤ levels) (hle : levels ≤ 32) :
    ∃ s, init levels .fresh = .ok ((), s) ∧ Holds P levels [] s := by
  have hlen : levels < getZeroes.length := by rw [getZeroes_length]; omega
  refine ⟨_, by
    rw [init, failIf_neg (by omega), failIf_neg (by simp [Storage.fresh])]
    rw [getElem?_eq_getElem hlen]
    rfl, ?_⟩
  refine ⟨hpos, hle, rfl, rfl, rfl, Nat.zero_le _, ?_, ?_, ?_, ?_⟩
  · intro i hi
    simp [hi, initLevels_eq hle hi]
  · intro k _ hodd
    simp at hodd
  · exact Logged.empty hchain hle _
  · refine ⟨rfl, ?_⟩
    have hroot : getZeroes[levels] = (treeRoot P levels []).val := by
      rw [emptyRoot_eq hchain hle, getD_eq_getElem _ _ hlen]
    simp only [take_nil, length_nil, Nat.zero_div, hroot]
    exact Window.single rootHistorySize fun _ => (treeRoot P levels []).val

theorem init_hashed (h : init levels s = .ok ((), s')) : s'.hashed = s.hashed := by
  obtain ⟨_, _, h⟩ := bind_eq_ok h
  obtain ⟨_, _, h⟩ := bind_eq_ok h
  obtain ⟨_, _, h⟩ := bind_eq_ok h
  cases h
  rfl

theorem Holds.insert (hchain : ZeroesChain P) (h : Holds P levels leaves s) (a b : F)
    (hroom : leaves.length + 2 ≤ 2 ^ levels) :
    ∃ s', insertTwoLeaves P a.val b.val s = .ok ((leaves.length, leaves.length + 1), s') ∧
      Holds P levels (leaves ++ [a, b]) s' ∧ (∀ q ∈ s.hashed, q ∈ s'.hashed) ∧
      ∀ q ∈ s'.hashed, q ∈ s.hashed ∨ TreeQuery P (leaves ++ [a, b]) levels q := by
  have hpos := h.levels_pos
  have hle := h.levels_le
  have heven := h.even
  have hcap : 2 ^ levels ≤ 2 ^ 32 := Nat.pow_le_pow_right (by omega) hle
  have hcurrent : leaves.length / 2 % rootHistorySize < rootHistorySize := Nat.mod_lt _ (by decide)
  have hsize : rootHistorySize < 2 ^ 32 - 1 := by decide
  have hhalf : leaves.length / 2 < 2 ^ (levels - 1) := by
    have hpow : 2 ^ levels = 2 * 2 ^ (levels - 1) := by
      rw [← pow_succ', Nat.sub_add_cancel hpos]
    omega
  have hlen : leaves.length = leaves.length / 2 * 2 ^ 1 := by omega
  obtain ⟨fr, hclimb, hclimbed⟩ := climb_append [a, b]
    { s.toFrontier with hashed := s.hashed ++ [.compress a b] } hchain Error.notInitialized hle
    hpos h.zeroes hlen rfl hhalf h.filled
  rw [treeNode_pair heven] at hclimb
  have hins : insertTwoLeaves P a.val b.val s = .ok ((leaves.length, leaves.length + 1), { s with
      toFrontier := fr
      root := update s.root ((leaves.length / 2 + 1) % rootHistorySize)
        (some (treeRoot P levels (leaves ++ [a, b])).val)
      currentRootIndex := some ((leaves.length / 2 + 1) % rootHistorySize)
      nextIndex := some (leaves.length + 2) }) := by
    simp only [insertTwoLeaves, h.levels_eq, h.nextIndex_eq, h.ring.current, okOr_some, ok_bind]
    rw [checkedShl, if_pos (by omega), okOr_some, ok_bind, failIf_neg (by omega), ok_bind,
      checkedAdd_eq (by omega), okOr_some, ok_bind, failIf_neg (by omega), ok_bind,
      poseidon2Compress_val, ok_bind, hclimb, ok_bind, checkedAdd_eq (by omega), okOr_some,
      ok_bind, tryFromU32, if_pos (by omega), okOr_some, ok_bind, checkedAdd_eq (by omega),
      okOr_some, ok_bind, tryFromU32, if_pos (by omega), okOr_some, ok_bind, Nat.mod_add_mod]
    rfl
  have hlen' : (leaves ++ [a, b]).length = leaves.length + 2 := by simp
  have hhalf' : (leaves ++ [a, b]).length / 2 = leaves.length / 2 + 1 := by omega
  refine ⟨_, hins, ⟨hpos, hle, h.levels_eq, ?_, by omega, by omega, ?_, ?_, ?_, ?_⟩, ?_, ?_⟩
  · rw [hlen']
  · intro i hi
    rw [hclimbed.zeroes]
    exact h.zeroes i hi
  · rw [hhalf']
    exact hclimbed.filled_next (h.filled.append hlen)
  · refine hclimbed.logged hchain hle hpos hlen rfl
      (fun input hin => (h.logged input hin).imp_left (mem_append_left _)) ?_
    intro level position hlevel hposition
    obtain rfl : level = 0 := by omega
    simp only [zero_add, Nat.sub_self, pow_zero, Nat.div_one] at hposition
    subst hposition
    simp [padded, show 2 * (leaves.length / 2) = leaves.length by omega]
  · rw [hhalf']
    refine RootRing.insert (h.ring.congr ?_) hins ?_
    · intro j hj
      rw [take_append_of_le_length (by omega)]
    · rw [MerkleWithHistory.getLastRoot, take_of_length_le (by omega)]
      simp [okOr]
  · intro q hq
    exact hclimbed.kept q (mem_append_left _ hq)
  · intro q hq
    rcases hclimbed.treeQuery hpos hhalf hq with hq | hq
    · rcases mem_append.mp hq with hq | hq
      · exact .inl hq
      · -- The pair itself, hashed before the loop.
        refine .inr ⟨_, ⟨0, leaves.length / 2, by omega, by simpa using hhalf, rfl⟩, ?_⟩
        simpa [padded, show 2 * (leaves.length / 2) = leaves.length by omega] using hq
    · exact .inr hq

theorem Holds.insert_full (h : Holds P levels leaves s) (hfull : leaves.length = 2 ^ levels) (leaf1 leaf2 : Nat) :
    insertTwoLeaves P leaf1 leaf2 s = .error (.error .merkleTreeFull) := by
  have hle := h.levels_le
  have heven := h.even
  have hcap : 2 ^ levels ≤ 2 ^ 32 := Nat.pow_le_pow_right (by omega) hle
  simp only [insertTwoLeaves, h.levels_eq, h.nextIndex_eq, h.ring.current, okOr_some, ok_bind]
  rw [checkedShl, if_pos (by omega), okOr_some, ok_bind, failIf_neg (by omega), ok_bind,
    checkedAdd_eq (by omega), okOr_some, ok_bind, failIf_pos (by omega), error_bind]

end Holds

/-! Histories: what was inserted into a tree since it was initialised, the
indexes returned and the roots it went through.  A failed call leaves no trace. -/

inductive History (P : Permutation) (levels : Nat) :
    List (U256 × U256) → List (Nat × Nat) → List U256 → Storage → Prop where
  | start {s : Storage} {r : U256} (hinit : init levels .fresh = .ok ((), s))
      (hlast : getLastRoot s = .ok r) : History P levels [] [] [r] s
  | insert {pairs : List (U256 × U256)} {indexes : List (Nat × Nat)} {roots : List U256}
      {s s' : Storage} {leaf1 leaf2 : U256} {index : Nat × Nat} {r : U256}
      (before : History P levels pairs indexes roots s)
      (hins : insertTwoLeaves P leaf1 leaf2 s = .ok (index, s'))
      (hlast : getLastRoot s' = .ok r) :
      History P levels (pairs ++ [(leaf1, leaf2)]) (indexes ++ [index]) (roots ++ [r]) s'

section History
variable {pairs : List (U256 × U256)} {indexes : List (Nat × Nat)} {roots : List U256}

def pairLeaves (pairs : List (U256 × U256)) : List F :=
  pairs.flatMap fun pair => [(pair.1 : F), (pair.2 : F)]

@[simp] theorem pairLeaves_length (pairs : List (U256 × U256)) : (pairLeaves pairs).length = 2 * pairs.length := by
  induction pairs with
  | nil => rfl
  | cons pair rest ih =>
    rw [pairLeaves, flatMap_cons, length_append, length_cons]
    change _ + (pairLeaves rest).length = _
    rw [ih]
    simp
    omega

theorem pairLeaves_append (pairs : List (U256 × U256)) (leaf1 leaf2 : U256) :
    pairLeaves (pairs ++ [(leaf1, leaf2)]) = pairLeaves pairs ++ [(leaf1 : F), (leaf2 : F)] := by
  simp [pairLeaves]

theorem init_ok (h : init levels .fresh = .ok ((), s)) : 1 ≤ levels ∧ levels ≤ 32 := by
  unfold init at h
  obtain ⟨_, hlevels, _⟩ := bind_eq_ok h
  have hlevels := failIf_eq_ok hlevels
  omega

theorem Holds.insert_ok {leaves : List F}
    (hchain : ZeroesChain P) (h : Holds P levels leaves s)
    (hins : insertTwoLeaves P leaf1 leaf2 s = .ok (index, s')) :
    leaf1 < bn256Modulus ∧ leaf2 < bn256Modulus ∧ leaves.length + 2 ≤ 2 ^ levels ∧
      index = (leaves.length, leaves.length + 1) ∧
      Holds P levels (leaves ++ [(leaf1 : F), (leaf2 : F)]) s' ∧
      (∀ q ∈ s.hashed, q ∈ s'.hashed) ∧
      ∀ q ∈ s'.hashed, q ∈ s.hashed ∨ TreeQuery P (leaves ++ [(leaf1 : F), (leaf2 : F)]) levels q := by
  obtain ⟨l, next, _, _, _, _, _, hl, hnext, _, _, hroom, hparent, _, hindex, _⟩ := insertTwoLeaves_ok hins
  obtain rfl : levels = l := Option.some.inj (h.levels_eq.symm.trans hl)
  obtain rfl : leaves.length = next := Option.some.inj (h.nextIndex_eq.symm.trans hnext)
  obtain ⟨hleft, hright, -, -⟩ := poseidon2Compress_ok hparent
  obtain ⟨s'', hs'', hholds, hkept⟩ := h.insert hchain (leaf1 : F) (leaf2 : F) hroom
  rw [val_natCast_of_lt hleft, val_natCast_of_lt hright, hins] at hs''
  cases hs''
  exact ⟨hleft, hright, hroom, rfl, hholds, hkept⟩

section
variable (hchain : ZeroesChain P) (h : History P levels pairs indexes roots s)
include hchain h

theorem History.holds :
    Holds P levels (pairLeaves pairs) s := by
  induction h with
  | @start s r hinit hlast =>
    obtain ⟨hpos, hle⟩ := init_ok hinit
    obtain ⟨s', hs', hholds⟩ := init_holds hchain hpos hle
    rw [hinit] at hs'
    cases hs'
    exact hholds
  | insert before hins hlast ih =>
    rw [pairLeaves_append]
    exact (ih.insert_ok hchain hins).2.2.2.2.1

theorem History.indexes_eq :
    indexes = (List.range pairs.length).map fun k => (2 * k, 2 * k + 1) := by
  induction h with
  | start => rfl
  | insert before hins hlast ih =>
    obtain ⟨-, -, -, hindex, -⟩ := (before.holds hchain).insert_ok hchain hins
    rw [ih, hindex, length_append, length_singleton, range_succ, map_append]
    simp

end

theorem History.roots_length (h : History P levels pairs indexes roots s) : roots.length = pairs.length + 1 := by
  induction h with
  | start => rfl
  | insert _ _ _ ih => simp [ih]

theorem init_ring {r : U256} (hinit : init levels .fresh = .ok ((), s))
    (hlast : getLastRoot s = .ok r) : RootRing (fun j => [r].getD j 0) 0 s := by
  unfold init at hinit
  obtain ⟨_, _, hinit⟩ := bind_eq_ok hinit
  obtain ⟨_, _, hinit⟩ := bind_eq_ok hinit
  obtain ⟨root0, _, hinit⟩ := bind_eq_ok hinit
  cases hinit
  obtain rfl : root0 = r := by simpa [getLastRoot, okOr] using hlast
  exact ⟨rfl, Window.single rootHistorySize fun j => [root0].getD j 0⟩

theorem History.ring (h : History P levels pairs indexes roots s) :
    RootRing (fun j => roots.getD j 0) pairs.length s := by
  induction h with
  | start hinit hlast => exact init_ring hinit hlast
  | @insert pairs indexes roots s s' leaf1 leaf2 index r before hins hlast ih =>
    have hlen := before.roots_length
    rw [length_append, length_singleton]
    refine RootRing.insert (ih.congr ?_) hins ?_
    · intro j hj
      exact (getD_append _ _ _ _ (by omega)).symm
    · rw [hlast, getD_append_right _ _ _ _ (by omega), hlen, Nat.sub_self]
      rfl

theorem recent_iff_mem_drop {roots : List U256} {n size : Nat} (hlen : roots.length = n + 1) (root : U256) :
    (∃ j, j ≤ n ∧ n < j + size ∧ roots.getD j 0 = root) ↔ root ∈ roots.drop (roots.length - min (n + 1) size) := by
  rw [mem_iff_getElem]
  constructor
  · rintro ⟨j, hj, hwin, rfl⟩
    refine ⟨j - (roots.length - min (n + 1) size), by rw [length_drop]; omega, ?_⟩
    rw [getElem_drop, getD_eq_getElem _ _ (by omega)]
    congr 1
    omega
  · rintro ⟨i, hi, rfl⟩
    rw [length_drop] at hi
    refine ⟨roots.length - min (n + 1) size + i, by omega, by omega, ?_⟩
    rw [getElem_drop, getD_eq_getElem _ _ (by omega)]

/-- A root is known exactly while it is one of the last `rootHistorySize` roots,
and the search ends within `rootHistorySize` rounds. -/
theorem isKnownRoot_window (h : History P levels pairs indexes roots s) {budget : Nat}
    (hbudget : rootHistorySize ≤ budget) (root : U256) :
    isKnownRoot budget root s = .ok (decide (root ≠ 0 ∧
      root ∈ roots.drop (roots.length - min (pairs.length + 1) rootHistorySize))) := by
  rw [h.ring.isKnownRoot hbudget]
  refine congrArg Except.ok (decide_eq_decide.mpr (and_congr_right fun _ => ?_))
  exact recent_iff_mem_drop h.roots_length root

theorem exists_history (hchain : ZeroesChain P) (hpos : 1 ≤ levels) (hle : levels ≤ 32)
    {fields : List (F × F)} (hfits : 2 * fields.length ≤ 2 ^ levels) :
    ∃ indexes roots s, History P levels (fields.map fun pair => (pair.1.val, pair.2.val)) indexes roots s := by
  induction fields using List.reverseRecOn with
  | nil =>
    obtain ⟨s, hinit, hholds⟩ := init_holds hchain hpos hle
    exact ⟨_, _, s, .start hinit hholds.getLastRoot⟩
  | append_singleton fields pair ih =>
    rw [length_append, length_singleton] at hfits
    obtain ⟨indexes, roots, s, hrun⟩ := ih (by omega)
    obtain ⟨s', hins, hholds, -⟩ := (hrun.holds hchain).insert hchain pair.1 pair.2 (by
      rw [pairLeaves_length, length_map]
      omega)
    rw [map_append]
    exact ⟨_, _, s', .insert hrun hins hholds.getLastRoot⟩

theorem exists_full_history : ∃ s roots,
    History (tablePermutation (zeroesTable ++ [])) 2 [(5, 7), (9, 11)] [(0, 1), (2, 3)]
      (getZeroes.getD 2 0 :: roots) s := by
  have hchain := zeroesChain_tablePermutation []
  obtain ⟨s₀, hinit, hholds⟩ := init_holds hchain (show 1 ≤ 2 by omega) (by omega)
  obtain ⟨s₁, hins, hholds₁, -⟩ := hholds.insert hchain (5 : Nat) (7 : Nat) (by decide)
  obtain ⟨s₂, hins₂, hholds₂, -⟩ := hholds₁.insert hchain (9 : Nat) (11 : Nat) (by decide)
  have hroot := hholds.getLastRoot
  rw [emptyRoot_eq hchain (by omega)] at hroot
  rw [val_natCast_of_lt (by decide), val_natCast_of_lt (by decide)] at hins hins₂
  exact ⟨s₂, _, .insert (.insert (.start hinit hroot) hins hholds₁.getLastRoot) hins₂ hholds₂.getLastRoot⟩

/-- The root of the empty tree is still known after two insertions. -/
theorem isKnownRoot_window_previous : ∃ s, isKnownRoot 90 (getZeroes.getD 2 0) s = .ok true := by
  obtain ⟨s, roots, h⟩ := exists_full_history
  refine ⟨s, ?_⟩
  rw [isKnownRoot_window h (le_refl 90) (getZeroes.getD 2 0)]
  have hlen : (getZeroes.getD 2 0 :: roots).length = 3 := h.roots_length
  rw [hlen]
  refine congrArg Except.ok (decide_eq_true ⟨by decide, ?_⟩)
  change _ ∈ getZeroes.getD 2 0 :: roots
  exact mem_cons_self

end History

end PrivatePayments.Contracts.MerkleWithHistory

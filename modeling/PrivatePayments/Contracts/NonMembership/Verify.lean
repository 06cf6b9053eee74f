import PrivatePayments.Contracts.NonMembership.Map

/-! `verify_non_membership`: the proof is compared with what a search finds, and
its root is computed once more. -/
namespace PrivatePayments.Contracts.AspNonMembership
open Lib Lib.SparseTree List

def verifyLoop (P : Permutation) (keyBits : List Bool) :
    Nat → List U256 → U256 → List Query → Result (U256 × List Query)
  | _, [], start, hashed => .ok (start, hashed)
  | level, sibling :: rest, start, hashed => do
      let (computedRoot, hashed) ← verifyLoop P keyBits (level + 1) rest start hashed
      let bit ← okOr keyBits[level]? .invalidProof
      hashInternal P bit sibling computedRoot hashed

/-- A leaf with the value zero counts as an empty slot. -/
def startRoot (P : Permutation) (key notFoundKey notFoundValue : U256) (hashed : List Query) :
    Result (U256 × List Query) :=
  if notFoundKey ≠ key ∧ notFoundValue ≠ 0 then hashLeaf P notFoundKey notFoundValue hashed
  else .ok (0, hashed)

def computeRoot (P : Permutation) (key : U256) (siblings : List U256)
    (notFoundKey notFoundValue : U256) (hashed : List Query) :
    Result (U256 × List Query) := do
  let (start, hashed) ← startRoot P key notFoundKey notFoundValue hashed
  verifyLoop P (splitBits key) 0 siblings start hashed

def verifyNonMembership (P : Permutation) (key : U256) (siblings : List U256)
    (notFoundKey notFoundValue : U256) (s : Storage) : Result Bool := do
  let root := s.root.getD 0
  let find ← findKeyInternal s.node key (splitBits key) root
  if find.found then
    return false
  else
    -- The lengths are compared first, then the entries one by one.
    failIf (find.siblings ≠ siblings) .invalidProof
    failIf (find.notFoundKey ≠ notFoundKey ∨ find.notFoundValue ≠ notFoundValue) .invalidProof
    let (computedRoot, _) ← computeRoot P key siblings notFoundKey notFoundValue s.hashed
    failIf (computedRoot ≠ root) .invalidProof
    return true

section Bits

theorem agree_iff (count level : Nat) (key k : F) :
    agree smtBit count level key k = true ↔
      ∀ i, level ≤ i → i < level + count → key.val.testBit i = k.val.testBit i := by
  induction count generalizing level with
  | zero =>
    refine iff_of_true rfl fun i hlo hhi => ?_
    omega
  | succ count ih =>
    rw [agree, Bool.and_eq_true, beq_iff_eq, ih]
    constructor
    · rintro ⟨hhere, hrest⟩ i hlo hhi
      rcases Nat.eq_or_lt_of_le hlo with rfl | hlo
      · exact hhere
      · exact hrest i hlo (by omega)
    · intro h
      exact ⟨h level (le_refl _) (by omega), fun i hlo hhi => h i (by omega) (by omega)⟩

theorem near_eq (count : Nat) (key : F) (es : List (F × F)) :
    near smtBit count 0 key es = es.filter fun e => e.1.val % 2 ^ count = key.val % 2 ^ count := by
  apply filter_congr
  intro e _
  rw [Bool.eq_iff_iff, agree_iff, decide_eq_true_eq]
  constructor
  · intro h
    apply Nat.eq_of_testBit_eq
    intro i
    rw [Nat.testBit_mod_two_pow, Nat.testBit_mod_two_pow]
    by_cases hi : i < count
    · rw [h i (Nat.zero_le _) (by omega)]
    · simp [hi]
  · intro h i _ hi
    have hbit := congrArg (Nat.testBit · i) h
    simpa [Nat.testBit_mod_two_pow, show i < count by omega] using hbit.symm

end Bits

section Verify
variable {P : Permutation} {key : F} {s : Storage} {t : Tree}

theorem hashInternal_val (P : Permutation) (b : Bool) (sibling current : F) (hashed : List Query) :
    hashInternal P b sibling.val current.val hashed =
      .ok (((smtHasher P).digest (stepInput b current sibling)).val,
        hashed ++ [smtQuery (stepInput b current sibling)]) := by
  cases b with
  | false => exact poseidon2Compress_val P current sibling hashed
  | true => exact poseidon2Compress_val P sibling current hashed

theorem verifyLoop_val (P : Permutation) (key last : F) (sibs : List F) {level : Nat}
    (hlevel : level + sibs.length ≤ 256) (hashed : List Query) :
    ∃ hashed', verifyLoop P (splitBits key.val) level (sibs.map ZMod.val) last.val hashed =
        .ok ((proofRoot smtBit (smtHasher P) key last sibs level).val, hashed') ∧
      (∀ q ∈ hashed, q ∈ hashed') ∧
      ∀ input ∈ proofInputs smtBit (smtHasher P) key last sibs level, smtQuery input ∈ hashed' := by
  induction sibs generalizing level with
  | nil => exact ⟨hashed, rfl, fun _ hq => hq, fun _ hx => absurd hx not_mem_nil⟩
  | cons sibling rest ih =>
    rw [length_cons] at hlevel
    obtain ⟨hashed', hrun, hgrows, hin⟩ := ih (by omega : level + 1 + rest.length ≤ 256)
    rw [map_cons, verifyLoop, hrun, ok_bind]
    simp only [splitBits_getElem? key (by omega : level < 256), okOr_some, ok_bind]
    refine ⟨_, hashInternal_val P _ _ _ _, fun q hq => by simp [hgrows q hq], ?_⟩
    intro input hinput
    rcases mem_cons.mp hinput with rfl | hinput
    · simp
    · simp [hin input hinput]

def counted : Tree → Tree
  | .leaf k v => if v = 0 then .empty else .leaf k v
  | _ => .empty

theorem counted_cases (e : Tree) : counted e = .empty ∨ ∃ k v, counted e = .leaf k v := by
  unfold counted
  split
  · split
    · exact .inl rfl
    · exact .inr ⟨_, _, rfl⟩
  · exact .inl rfl

theorem counted_eq_iff {e : Tree} (he : e = .empty ∨ ∃ k v, e = .leaf k v) : counted e = e ↔ ¬∃ k, e = .leaf k 0 := by
  rcases he with rfl | ⟨k, v, rfl⟩
  · simp [counted]
  · by_cases hv : v = 0 <;> simp [counted, hv]

theorem startRoot_find {e : Tree} (hkey : key ∉ keys e) (hend : e = .empty ∨ ∃ k v, e = .leaf k v)
    (sibs : List F) (hashed : List Query) :
    ∃ hashed', startRoot P key.val (findResult key e sibs).notFoundKey
        (findResult key e sibs).notFoundValue hashed =
          .ok ((treeHash P (counted e)).val, hashed') ∧
      (∀ q ∈ hashed, q ∈ hashed') ∧ Known P { q | q ∈ hashed' } (counted e) := by
  have hempty : Known P { q | q ∈ hashed } .empty := fun _ hx => absurd hx (Set.notMem_empty _)
  rcases hend with rfl | ⟨k, v, rfl⟩
  · exact ⟨hashed, by simp [startRoot, findResult, counted, treeHash_empty], fun _ hq => hq, hempty⟩
  · have hne : k ≠ key := by simpa [eq_comm] using hkey
    have hval : k.val ≠ key.val := fun h => hne (ZMod.val_injective _ h)
    by_cases hv : v = 0
    · refine ⟨hashed, ?_, fun _ hq => hq, ?_⟩
      · simp [startRoot, findResult, hne, hv, counted, treeHash_empty]
      · simpa [counted, hv] using hempty
    · refine ⟨hashed ++ [.hash2 k v 1], ?_, fun q hq => by simp [hq], ?_⟩
      · have hcond : k.val ≠ key.val ∧ v.val ≠ 0 := ⟨hval, (ZMod.val_ne_zero v).mpr hv⟩
        simp only [startRoot, findResult, hne, if_false, if_pos hcond, counted, hv, hashLeaf_val]
      · simp only [counted, hv, if_false]
        exact known_leaf (by simp)

theorem computeRoot_find {e : Tree} (hkey : key ∉ keys e) (hend : e = .empty ∨ ∃ k v, e = .leaf k v)
    {sibs : List F} (hlength : sibs.length ≤ 256) (hashed : List Query) :
    ∃ hashed', computeRoot P key.val (sibs.map ZMod.val)
        (findResult key e sibs).notFoundKey (findResult key e sibs).notFoundValue hashed =
        .ok ((proofRoot smtBit (smtHasher P) key (treeHash P (counted e)) sibs 0).val, hashed') ∧
      (∀ q ∈ hashed, q ∈ hashed') ∧ Known P { q | q ∈ hashed' } (counted e) ∧
      ∀ input ∈ proofInputs smtBit (smtHasher P) key (treeHash P (counted e)) sibs 0, smtQuery input ∈ hashed' := by
  obtain ⟨hashed₁, hstart, hgrows₁, hknown⟩ := startRoot_find hkey hend sibs hashed
  obtain ⟨hashed₂, hloop, hgrows₂, hin⟩ := verifyLoop_val P key (treeHash P (counted e)) sibs
    (by omega : 0 + sibs.length ≤ 256) hashed₁
  refine ⟨hashed₂, ?_, fun q hq => hgrows₂ q (hgrows₁ q hq), hknown.mono hgrows₂, hin⟩
  unfold computeRoot
  rw [hstart, ok_bind]
  exact hloop

theorem notMem_endpoint (habsent : key ∉ keys t) : key ∉ keys (endpoint smtBit key t 0) :=
  fun hmem => habsent ((subtree_endpoint rfl).keys_subset hmem)

variable {find : FindResult}

section Represented
variable (hS : Safe P { q | q ∈ s.hashed }) (h : Represents P t s)
include hS h

theorem verify_present (hkey : key ∈ keys t) (siblings : List U256) (k v : U256) :
    verifyNonMembership P key.val siblings k v s = .ok false := by
  obtain ⟨⟨_, v'⟩, hmem, rfl⟩ := mem_map.mp hkey
  unfold verifyNonMembership
  rw [h.root, Option.getD_some]
  simp only [findKey_tree hS h, ok_bind]
  rw [findResult_found h.canonical hmem]
  rfl

theorem find_absent (habsent : key ∉ keys t) (hfind : findKey key.val s = .ok find) :
    findKeyInternal s.node key.val (splitBits key.val) (s.root.getD 0) = .ok find ∧ find.found = false := by
  refine ⟨hfind, ?_⟩
  rw [findKey, h.root, Option.getD_some, findKey_tree hS h] at hfind
  cases hfind
  exact findResult_absent habsent _

/-- For an absent key only what the search returns can be accepted. -/
theorem verify_true (habsent : key ∉ keys t) {siblings' : List U256} {k v : U256}
    (hok : verifyNonMembership P key.val siblings' k v s = .ok true)
    (hfind : findKey key.val s = .ok find) :
    siblings' = find.siblings ∧ k = find.notFoundKey ∧ v = find.notFoundValue := by
  obtain ⟨hinternal, hnotFound⟩ := find_absent hS h habsent hfind
  unfold verifyNonMembership at hok
  simp only [hinternal, ok_bind, hnotFound, Bool.false_eq_true, if_false] at hok
  obtain ⟨_, hsiblings, hok⟩ := bind_eq_ok hok
  obtain ⟨_, hpair, _⟩ := bind_eq_ok hok
  have hsiblings := failIf_eq_ok hsiblings
  have hpair := failIf_eq_ok hpair
  rw [not_or, not_not, not_not] at hpair
  exact ⟨(not_not.mp hsiblings).symm, hpair.1.symm, hpair.2.symm⟩

theorem verify_find (habsent : key ∉ keys t)
    (hfind : findKey key.val s = .ok find) {root : F} {hashed : List Query}
    (hroot : computeRoot P key.val find.siblings find.notFoundKey find.notFoundValue s.hashed =
      .ok (root.val, hashed)) :
    verifyNonMembership P key.val find.siblings find.notFoundKey find.notFoundValue s = .ok true ↔
      root = treeHash P t := by
  obtain ⟨hinternal, hnotFound⟩ := find_absent hS h habsent hfind
  unfold verifyNonMembership
  simp only [hinternal, ok_bind, hnotFound, Bool.false_eq_true, if_false]
  rw [failIf_neg (not_not.mpr rfl), ok_bind, failIf_neg (by simp), ok_bind, hroot, ok_bind, h.root, Option.getD_some]
  by_cases heq : root = treeHash P t
  · rw [failIf_neg (by simp [heq]), ok_bind]
    exact iff_of_true rfl heq
  · have hne : root.val ≠ (treeHash P t).val := fun hval => heq (ZMod.val_injective _ hval)
    rw [failIf_pos hne, error_bind]
    exact iff_of_false (by simp) heq

end Represented

/-- The check is exact for a key: it tells present from absent when it is given
what the search returns, and for an absent key it accepts nothing else. -/
def VerifyExact (P : Permutation) (entries : List (F × F)) (s : Storage) (key : F) : Prop :=
  ∃ find, findKey key.val s = .ok find ∧
    (key ∈ entries.map Prod.fst →
      verifyNonMembership P key.val find.siblings find.notFoundKey find.notFoundValue s = .ok false) ∧
    (key ∉ entries.map Prod.fst →
      verifyNonMembership P key.val find.siblings find.notFoundKey find.notFoundValue s = .ok true ∧
      ∀ siblings k v, verifyNonMembership P key.val siblings k v s = .ok true →
        siblings = find.siblings ∧ k = find.notFoundKey ∧ v = find.notFoundValue)

/-- An entry with the value zero is the only one that agrees with the key in some
number of low-order bits. -/
def ZeroBeside (entries : List (F × F)) (key : F) : Prop :=
  ∃ k count, k ≠ key ∧
    entries.filter (fun e => e.1.val % 2 ^ count = key.val % 2 ^ count) = [(k, 0)]

theorem zeroBeside_iff {entries : List (F × F)} (h : Represents P t s)
    (hperm : entries.Perm t.entries) (habsent : key ∉ keys t) :
    ZeroBeside entries key ↔ ∃ k, endpoint smtBit key t 0 = .leaf k 0 := by
  have hsame : ∀ k count, entries.filter (fun e => e.1.val % 2 ^ count = key.val % 2 ^ count) =
      [(k, 0)] ↔ near smtBit count 0 key t.entries = [(k, 0)] := by
    intro k count
    rw [near_eq]
    have hfilter := hperm.filter fun e => decide (e.1.val % 2 ^ count = key.val % 2 ^ count)
    constructor
    · intro heq
      rw [heq] at hfilter
      exact perm_singleton.mp hfilter.symm
    · intro heq
      rw [heq] at hfilter
      exact perm_singleton.mp hfilter
  constructor
  · rintro ⟨k, count, -, heq⟩
    exact ⟨k, (endpoint_eq_leaf_iff h.canonical).mpr ⟨count, (hsame k count).mp heq⟩⟩
  · rintro ⟨k, hend⟩
    obtain ⟨count, heq⟩ := (endpoint_eq_leaf_iff h.canonical).mp hend
    exact ⟨k, count, endpoint_ne habsent hend, (hsame k count).mpr heq⟩

theorem not_zeroBeside_of_mem {entries : List (F × F)} (hmem : key ∈ entries.map Prod.fst) :
    ¬ZeroBeside entries key := by
  rintro ⟨k, count, hne, heq⟩
  obtain ⟨e, he, rfl⟩ := mem_map.mp hmem
  have hfilter : e ∈ [(k, (0 : F))] := by
    rw [← heq]
    exact mem_filter.mpr ⟨he, by simp⟩
  rw [mem_singleton.mp hfilter] at hne
  exact hne rfl

theorem verify_find_iff (hS : Safe P { q | q ∈ s.hashed }) (h : Represents P t s)
    (habsent : key ∉ keys t) (hfind : findKey key.val s = .ok find)
    (hproof : ∀ root hashed, computeRoot P key.val find.siblings find.notFoundKey
      find.notFoundValue s.hashed = .ok (root, hashed) → Safe P { q | q ∈ hashed }) :
    verifyNonMembership P key.val find.siblings find.notFoundKey find.notFoundValue s = .ok true ↔
      ¬∃ k, endpoint smtBit key t 0 = .leaf k 0 := by
  have hend := endpoint_cases smtBit key t 0
  have hlength := siblings_length_le (smtHasher P) h.canonical (differ_of_absent habsent)
  obtain ⟨hashed, hroot, hgrows, hknown, hin⟩ :=
    computeRoot_find (P := P) (notMem_endpoint habsent) hend hlength s.hashed
  have hfound := hfind
  rw [findKey, h.root, Option.getD_some, findKey_tree hS h] at hfound
  cases hfound
  rw [findResult_siblings] at hproof
  have hsafe := hproof _ _ hroot
  rw [← findResult_siblings key] at hroot
  rw [verify_find hS h habsent hfind hroot, ← counted_eq_iff hend]
  constructor
  · intro heq
    exact (path_of_proofRoot hsafe.secure hknown (counted_cases _) hin (h.known.mono hgrows) heq).1.symm
  · intro heq
    rw [heq]
    exact proofRoot_siblings (smtHasher P) key t 0

/-- The check is exact for a key if and only if no entry with the value zero is
all that agrees with it in some low-order bits. -/
theorem verify_exact_iff {entries : List (F × F)} (h : History P entries s)
    (hS : Safe P { q | q ∈ s.hashed }) (key : F)
    (hproof : ∀ find root hashed, findKey key.val s = .ok find →
      computeRoot P key.val find.siblings find.notFoundKey find.notFoundValue s.hashed =
        .ok (root, hashed) → Safe P { q | q ∈ hashed }) :
    VerifyExact P entries s key ↔ ¬ZeroBeside entries key := by
  obtain ⟨t, ht, hperm⟩ := h.represents hS
  obtain ⟨find, hfind, -, -⟩ := h.findKey hS key
  by_cases hmem : key ∈ entries.map Prod.fst
  · refine iff_of_true ⟨find, hfind, fun _ => ?_, fun habsent => absurd hmem habsent⟩ (not_zeroBeside_of_mem hmem)
    exact verify_present hS ht ((mem_keys_iff hperm).mpr hmem) _ _ _
  · have habsent : key ∉ keys t := fun hkey => hmem ((mem_keys_iff hperm).mp hkey)
    have haccept := verify_find_iff hS ht habsent hfind fun root hashed => hproof find root hashed hfind
    rw [zeroBeside_iff ht hperm habsent, ← haccept]
    constructor
    · rintro ⟨find', hfind', -, hexact⟩
      rw [hfind] at hfind'
      cases hfind'
      exact (hexact hmem).1
    · intro hok
      exact ⟨find, hfind, fun hkey => absurd hkey hmem, fun _ => ⟨hok, fun siblings k v hother =>
        verify_true hS ht habsent hother hfind⟩⟩

/-- Beside an entry with another value the check is exact. -/
theorem verify_exact_single : ∃ s, History decimalPermutation [(5, 7)] s ∧
    VerifyExact decimalPermutation [(5, 7)] s 2 := by
  obtain ⟨s, hrun, hhashed, hfind⟩ : ∃ s, History decimalPermutation [(5, 7)] s ∧
      s.hashed = [.hash2 5 7 1] ∧ findKey (2 : F).val s = .ok ⟨false, [], 0, 5, 7, false⟩ :=
    ⟨_, .call (.start (show constructor ⟨0⟩ .fresh = _ from rfl))
      (show exec _ (fun _ => true) (.insertLeaf 5 7) _ = _ from rfl), rfl, rfl⟩
  have hsafe : Safe decimalPermutation { q | q ∈ s.hashed } := by
    rw [hhashed]
    decide
  refine ⟨s, hrun, (verify_exact_iff hrun hsafe 2 ?_).mpr ?_⟩
  · intro find root hashed hfound hroot
    rw [hfind] at hfound
    cases hfound
    rw [hhashed] at hroot
    cases hroot
    decide
  · rintro ⟨k, count, -, heq⟩
    have hmem : (k, (0 : F)) ∈ [((5 : F), (7 : F))] := mem_of_mem_filter (heq ▸ mem_singleton.mpr rfl)
    have hvalue : (0 : F) = 7 := congrArg Prod.snd (mem_singleton.mp hmem)
    exact absurd hvalue (by decide)

/-- The search for an absent key ends at an entry with the value zero, and its
result is refused. -/
theorem verify_refuses_beside_zero : ∃ s find, History decimalPermutation [(5, 0)] s ∧
    Safe decimalPermutation { q | q ∈ s.hashed } ∧ (2 : F) ∉ [((5 : F), (0 : F))].map Prod.fst ∧
    findKey (2 : F).val s = .ok find ∧
    verifyNonMembership decimalPermutation (2 : F).val find.siblings find.notFoundKey
      find.notFoundValue s = .error (.error .invalidProof) := by
  refine ⟨_, _, .call (.start (show constructor ⟨0⟩ .fresh = _ from rfl))
    (show exec _ (fun _ => true) (.insertLeaf 5 0) _ = _ from rfl), ?_, by decide, rfl, rfl⟩
  decide

end Verify

end PrivatePayments.Contracts.AspNonMembership

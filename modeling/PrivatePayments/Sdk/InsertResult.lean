import PrivatePayments.Sdk.SparseMerkle

/-! The siblings `insert` reports.  The client cuts the trailing zeros off before it takes the
leaf it added off again, the contract afterwards; the zeros that stand for shared bits of two keys
are what tells the two apart. -/
namespace PrivatePayments.Sdk
open Lib Lib.SparseTree Contracts Contracts.AspNonMembership SparseMerkle SparseMerkleTree List

section
variable {P : Permutation} {t : Tree} {tree : SparseMerkleTree} {key : F}

theorem dropTrailingZeros_of_last {siblings : List F} (h : ∀ last, siblings.getLast? = some last → last ≠ 0) :
    dropTrailingZeros siblings = siblings := by
  rw [dropTrailingZeros, reverse_eq_iff]
  cases hrev : siblings.reverse with
  | nil => rfl
  | cons last rest =>
    have hlast := h last (by rw [← head?_reverse, hrev]; rfl)
    simp [hlast]

theorem dropTrailingZeros_append_zeros (siblings : List F) (count : Nat) :
    dropTrailingZeros (siblings ++ List.replicate count 0) = dropTrailingZeros siblings := by
  rw [dropTrailingZeros, dropTrailingZeros, reverse_append, reverse_replicate]
  congr 1
  induction count with
  | zero => rfl
  | succ count ih => simp [replicate_succ, ih]

theorem trimZeros_val (siblings : List F) :
    trimZeros (siblings.map ZMod.val) = (dropTrailingZeros siblings).map ZMod.val := by
  have hzero : (fun x : U256 => decide (x = 0)) ∘ ZMod.val = fun x : F => decide (x = 0) := by
    funext x
    simp [ZMod.val_eq_zero]
  rw [trimZeros, dropTrailingZeros, ← map_reverse, dropWhile_map, hzero, map_reverse]

theorem sharedBits_eq_zeros (oldBits bits : List Bool) :
    ∃ count, sharedBits oldBits bits = List.replicate count 0 := by
  induction oldBits generalizing bits with
  | nil => exact ⟨0, rfl⟩
  | cons oldBit oldBits ih =>
    cases bits with
    | nil => exact ⟨0, rfl⟩
    | cons bit bits =>
      obtain ⟨count, hcount⟩ := ih bits
      by_cases h : oldBit = bit
      · exact ⟨count + 1, by simp [sharedBits, h, hcount, replicate_succ]⟩
      · exact ⟨0, by simp [sharedBits, h]⟩

theorem commonPrefix_eq (oldBits bits : List Bool) :
    commonPrefix oldBits bits = (sharedBits oldBits bits).map ZMod.val := by
  induction oldBits generalizing bits with
  | nil => cases bits <;> rfl
  | cons oldBit oldBits ih =>
    cases bits with
    | nil => rfl
    | cons bit bits => by_cases h : oldBit = bit <;> simp [sharedBits, commonPrefix, h, ih]

theorem sharedBits_nil_iff (k : F) {level : Nat} (hlevel : level < 256) :
    sharedBits (bitsFrom k level (256 - level)) (bitsFrom key level (256 - level)) = [] ↔
      smtBit key level ≠ smtBit k level := by
  obtain ⟨fuel, hfuel⟩ : ∃ fuel, 256 - level = fuel + 1 := ⟨255 - level, by omega⟩
  rw [hfuel, bitsFrom_succ, bitsFrom_succ, sharedBits]
  by_cases h : smtBit k level = smtBit key level
  · simp [h]
  · simp [h, Ne.symm h]

theorem oldPath_last (hS : Safe P { q | q ∈ tree.hashed }) (h : tree.Holds P t) (key : F) :
    ∀ last, (siblings smtBit (smtHasher P) key t 0).getLast? = some last → last ≠ 0 := fun _ hlast =>
  siblings_getLast?_ne_zero hS.secure h.canonical h.known hlast

theorem oldPath_trimmed (hS : Safe P { q | q ∈ tree.hashed }) (h : tree.Holds P t) (key : F) :
    dropTrailingZeros (siblings smtBit (smtHasher P) key t 0) = siblings smtBit (smtHasher P) key t 0 :=
  dropTrailingZeros_of_last (oldPath_last hS h key)

/-- The added leaf ends the list, so that no zero is cut off before it is taken away. -/
theorem resultSiblings_leaf {k v : F} (hne : k ≠ key) (hleaf : treeHash P (.leaf k v) ≠ 0) (sibs : List F) :
    resultSiblings false (insertSiblings P key (foundAt key (.leaf k v) sibs) []).1 =
      sibs ++ sharedBits (bitsFrom k sibs.length (256 - sibs.length))
        (bitsFrom key sibs.length (256 - sibs.length)) := by
  rw [insertSiblings_leaf hne, resultSiblings, if_neg Bool.false_ne_true, ← append_assoc,
    dropTrailingZeros_of_last, dropLast_concat]
  intro last hlast
  rw [getLast?_concat] at hlast
  cases hlast
  exact hleaf

theorem reported_iff (hS : Safe P { q | q ∈ tree.hashed }) (h : tree.Holds P t) (habsent : key ∉ keys t) :
    let sibs := siblings smtBit (smtHasher P) key t 0
    let found := foundAt key (endpoint smtBit key t 0) sibs
    resultSiblings found.isOld0 (insertSiblings P key found []).1 = sibs ↔
      ∀ k v, endpoint smtBit key t 0 = .leaf k v → smtBit key (0 + sibs.length) ≠ smtBit k (0 + sibs.length) := by
  rcases endpoint_cases smtBit key t 0 with hend | ⟨k, v, hend⟩
  · rw [hend]
    exact iff_of_true (oldPath_trimmed hS h key) nofun
  · have hne : k ≠ key := endpoint_ne habsent hend
    have hold : Known P { q | q ∈ tree.hashed } (.leaf k v) := h.known.subtree (subtree_endpoint hend)
    have hleaf : treeHash P (.leaf k v) ≠ 0 := hS.secure.nonzero (.leaf k v) (hold _ rfl)
    have hisOld : ∀ sibs, (foundAt key (.leaf k v) sibs).isOld0 = false := fun sibs => by
      rw [foundAt, if_neg hne]
    simp only [hend, hisOld, resultSiblings_leaf hne hleaf, append_right_eq_self, leaf.injEq, Nat.zero_add]
    rw [sharedBits_nil_iff k (siblings_length_lt h.canonical h.nodup key)]
    exact ⟨fun hbit k' v' heq => heq.1 ▸ hbit, fun hbit => hbit k v ⟨rfl, rfl⟩⟩

theorem siblingsLeft_eq {s : Storage} (hS : Safe P { q | q ∈ s.hashed }) (h : Represents P t s)
    (habsent : key ∉ keys t) :
    siblingsLeft P key.val s = .ok ((dropTrailingZeros (siblings smtBit (smtHasher P) key t 0)).map ZMod.val) := by
  rw [siblingsLeft, findKey, h.root, Option.getD_some, findKey_tree hS h key, ok_bind]
  rcases endpoint_cases smtBit key t 0 with hend | ⟨k, v, hend⟩
  · rw [hend, failIf_neg (by simp [findResult]), ok_bind, ← trimZeros_val]
    rfl
  · have hne : k ≠ key := endpoint_ne habsent hend
    rw [hend, failIf_neg (by simp [findResult, hne]), ok_bind]
    simp only [findResult, hne, if_false, Bool.not_false, if_true, hashLeaf_val, ok_bind,
      dropLast_concat, commonPrefix_eq, ← map_append, trimZeros_val]
    obtain ⟨count, hcount⟩ := sharedBits_eq_zeros
      ((splitBits k.val).drop (siblings smtBit (smtHasher P) key t 0).length)
      ((splitBits key.val).drop (siblings smtBit (smtHasher P) key t 0).length)
    rw [length_map, hcount, dropTrailingZeros_append_zeros]
    rfl

/-- The reported siblings are those of the old path without trailing zeros, and what a contract
with the same entries is left with. -/
def ReportsOldPath (P : Permutation) (Q : Set Query) (calls : List SmtCall) (key value : F) : Prop :=
  ∃ found result tree', (runCalls P calls).find key = .ok found ∧
    (runCalls P calls).insert P key value = .ok (result, tree') ∧
    result.siblings = dropTrailingZeros found.siblings ∧ result.siblings.getLast? ≠ some 0 ∧
    ∀ entries s, History P entries s → (∀ q ∈ s.hashed, q ∈ Q) → entries.Perm (mapOf calls) →
      siblingsLeft P key.val s = .ok (result.siblings.map ZMod.val)

/-- A key of the map that is alone in sharing some first bits with the new key differs from it in
the next bit. -/
def PartsAtOnce (key : F) (entries : List (F × F)) : Prop :=
  ∀ count, (near smtBit count 0 key entries).length = 1 → near smtBit (count + 1) 0 key entries = []

theorem partsAtOnce_perm {entries entries' : List (F × F)} (hperm : entries.Perm entries') :
    PartsAtOnce key entries ↔ PartsAtOnce key entries' := by
  have hnear : ∀ count, (near smtBit count 0 key entries).Perm (near smtBit count 0 key entries') :=
    fun count => hperm.filter _
  unfold PartsAtOnce
  apply forall_congr'
  intro count
  rw [(hnear count).length_eq, ← length_eq_zero_iff, (hnear (count + 1)).length_eq, length_eq_zero_iff]

/-- Zeros for shared bits stay in what `insert` reports. -/
theorem insert_reports_old_path {Q : Set Query} (hQ : Safe P Q) (calls : List SmtCall)
    (hhashed : ∀ q ∈ (runCalls P calls).hashed, q ∈ Q) (key value : F) (hnew : key ∉ (mapOf calls).map Prod.fst) :
    ReportsOldPath P Q calls key value ↔ PartsAtOnce key (mapOf calls) := by
  have hS := hQ.mono hhashed
  obtain ⟨t, h, hperm⟩ := runCalls_holds calls hS
  have habsent : key ∉ keys t := hnew ∘ (mem_keys_iff hperm).mp
  obtain ⟨result, path, hinsert, -, hsiblings⟩ := insert_absent hS h habsent value
  have hfind := find_eq hS h key
  have hreported := reported_iff hS h habsent
  dsimp only at hreported hsiblings
  rw [partsAtOnce_perm hperm, PartsAtOnce, endpoint_parts_iff (smtHasher P) h.canonical, ← hreported, ← hsiblings]
  constructor
  · rintro ⟨found, result', tree', hfound, hinserted, htrimmed, -⟩
    cases hfind.symm.trans hfound
    cases hinsert.symm.trans hinserted
    rwa [foundAt_get, oldPath_trimmed hS h key] at htrimmed
  · intro heq
    refine ⟨_, result, _, hfind, hinsert, ?_, ?_, ?_⟩
    · rw [foundAt_get, oldPath_trimmed hS h key, heq]
    · rw [heq]
      exact fun hlast => oldPath_last hS h key 0 hlast rfl
    · intro entries s hrun hcontract hsame
      have hs := represents_same hQ h hhashed hperm hrun hcontract hsame
      rw [siblingsLeft_eq (hQ.mono hcontract) hs habsent, oldPath_trimmed hS h key, heq]

/-- The key 2 differs from 5 in its first bit. -/
theorem insert_reports_old_path_two :
    ReportsOldPath decimalPermutation { q | q ∈ (runCalls decimalPermutation [.insert 5 7]).hashed }
      [.insert 5 7] 2 9 := by
  have hhashed : (runCalls decimalPermutation [.insert 5 7]).hashed = [.hash2 5 7 1] := by rfl
  have hsafe : Safe decimalPermutation
      { q | q ∈ (runCalls decimalPermutation [.insert 5 7]).hashed } := by
    rw [hhashed]
    decide
  have hnear : ∀ count, near smtBit (count + 1) 0 2 [((5 : F), (7 : F))] = [] := by
    intro count
    have hbit : smtBit 2 0 ≠ smtBit 5 0 := by decide
    simp [near, agree, hbit]
  exact (insert_reports_old_path hsafe [.insert 5 7] (fun _ hq => hq) 2 9 (by decide)).mpr fun count _ => hnear count

/-- The keys 1 and 5 have their first two bits in common: two zeros are reported. -/
theorem insert_reports_shared_bits :
    ¬ReportsOldPath decimalPermutation { q | q ∈ (runCalls decimalPermutation [.insert 5 7]).hashed }
      [.insert 5 7] 1 9 := by
  have hresult : ∃ result tree', (runCalls decimalPermutation [.insert 5 7]).insert decimalPermutation 1 9 =
      .ok (result, tree') ∧ result.siblings = [0, 0] := ⟨_, _, rfl, rfl⟩
  obtain ⟨result, tree', hinsert, hsiblings⟩ := hresult
  rintro ⟨found, result', tree'', -, hinserted, -, hlast, -⟩
  cases hinsert.symm.trans hinserted
  rw [hsiblings] at hlast
  exact hlast rfl

end

end PrivatePayments.Sdk

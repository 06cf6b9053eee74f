import PrivatePayments.Contracts.AspMembership
import PrivatePayments.Contracts.MerkleWithHistory

/-! Both on-chain trees are the full binary tree over what was inserted. -/
namespace PrivatePayments.Contracts.IncrementalTrees
open MerkleWithHistory

theorem roots_of_full_trees {P : Permutation} (hchain : ZeroesChain P) {levels : Nat}
    (hpos : 1 ≤ levels) (hle : levels ≤ 32) :
    ((∃ s r, History P levels [] [] [r] s) ∧
      ∀ pairs indexes roots s, History P levels pairs indexes roots s →
        getLastRoot s = .ok (treeRoot P levels (pairLeaves pairs)).val ∧
        indexes = (List.range pairs.length).map (fun k => (2 * k, 2 * k + 1)) ∧
        ∀ leaf1 leaf2 : F,
          (invoke (insertTwoLeaves P leaf1.val leaf2.val) s = (.error (.error .merkleTreeFull), s) ↔
            (pairLeaves pairs).length = 2 ^ levels) ∧
          ((pairLeaves pairs).length ≠ 2 ^ levels →
            ∃ index s', insertTwoLeaves P leaf1.val leaf2.val s = .ok (index, s'))) ∧
    ((∀ admin, ∃ s, AspMembership.constructor admin levels .fresh = .ok ((), s)) ∧
      ∀ leaves s, AspMembership.History P levels leaves s →
        AspMembership.getRoot s = .ok (treeRoot P levels (leaves.map Nat.cast)).val ∧
        s.events.map (fun event => (event.leaf, event.index)) = leaves.zipIdx ∧
        ∀ authorized, AspMembership.checkInsert authorized s = .ok () → ∀ leaf : F,
          (invoke (AspMembership.insertLeaf P authorized leaf.val) s =
              (.error (.error .merkleTreeFull), s) ↔ leaves.length = 2 ^ levels) ∧
          (leaves.length ≠ 2 ^ levels → ∃ s', AspMembership.insertLeaf P authorized leaf.val s = .ok ((), s'))) := by
  refine ⟨⟨?_, ?_⟩, ?_, ?_⟩
  · obtain ⟨s, hinit, hholds⟩ := init_holds hchain hpos hle
    exact ⟨s, _, .start hinit hholds.getLastRoot⟩
  · intro pairs indexes roots s h
    have hholds := h.holds hchain
    refine ⟨hholds.getLastRoot, h.indexes_eq hchain, fun leaf1 leaf2 => ?_⟩
    have hroom : (pairLeaves pairs).length ≠ 2 ^ levels →
        ∃ index s', insertTwoLeaves P leaf1.val leaf2.val s = .ok (index, s') := by
      intro hne
      have heven := hholds.even
      have hfits := hholds.fits
      have hpow : 2 ^ levels = 2 * 2 ^ (levels - 1) := by
        rw [← pow_succ', Nat.sub_add_cancel hpos]
      obtain ⟨s', hs', -⟩ := hholds.insert hchain leaf1 leaf2 (by omega)
      exact ⟨_, s', hs'⟩
    exact ⟨invoke_eq_error_iff (hholds.insert_full · leaf1.val leaf2.val) hroom, hroom⟩
  · intro admin
    obtain ⟨s, hs, -⟩ := AspMembership.constructor_holds hchain admin hpos hle
    exact ⟨s, hs⟩
  · intro leaves s h
    have hholds := (h.holds hchain).1
    have hlen : (leaves.map Nat.cast : List F).length = leaves.length := List.length_map _
    refine ⟨hholds.getRoot, h.events hchain, fun authorized hauth leaf => ?_⟩
    have hroom : leaves.length ≠ 2 ^ levels →
        ∃ s', AspMembership.insertLeaf P authorized leaf.val s = .ok ((), s') := by
      intro hne
      have hfits := hholds.fits
      obtain ⟨s', hs', -⟩ := hholds.insert hchain hauth leaf (by omega)
      exact ⟨s', hs'⟩
    refine ⟨invoke_eq_error_iff (fun hfull => ?_) (fun hne => ⟨(), hroom hne⟩), hroom⟩
    exact hholds.insert_full hauth (hlen.trans hfull) leaf.val

/-- A tree of two levels has the root of its two pairs and refuses the next. -/
theorem roots_of_full_trees_two_levels : ∃ s roots,
    History (tablePermutation (zeroesTable ++ [])) 2 [(5, 7), (9, 11)] [(0, 1), (2, 3)] roots s ∧
      getLastRoot s = .ok (treeRoot (tablePermutation (zeroesTable ++ [])) 2 [5, 7, 9, 11]).val ∧
      invoke (insertTwoLeaves (tablePermutation (zeroesTable ++ [])) (5 : F).val (7 : F).val) s =
        (.error (.error .merkleTreeFull), s) := by
  obtain ⟨s, roots, h⟩ := exists_full_history
  have htrees := roots_of_full_trees (zeroesChain_tablePermutation []) (show 1 ≤ 2 by omega) (by omega)
  obtain ⟨hroot, -, hfull⟩ := htrees.1.2 _ _ _ s h
  exact ⟨s, _, h, hroot, (hfull 5 7).1.mpr rfl⟩

end PrivatePayments.Contracts.IncrementalTrees

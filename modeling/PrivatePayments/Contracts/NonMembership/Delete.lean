import PrivatePayments.Contracts.NonMembership.Tree

/-! Deletion.  The old nodes it removes all hold the deleted key; where a leaf is
promoted they are not nodes of the old tree at all. -/
namespace PrivatePayments.Contracts.AspNonMembership
open Lib Lib.SparseTree Function

/-- The state of the deletion loop; everything that holds the key is removed. -/
structure Deleted (P : Permutation) (key : F) (node : U256 → Option (List U256))
    (hashed : List Query) (old t' : Tree) (st : Rebuild) : Prop
    extends Rebuilt P node hashed (fun w => Subtree w old ∧ key ∈ keys w) old t' st where
  keyOld : key ∈ keys old

section Delete
variable {P : Permutation} {key : F} {node : U256 → Option (List U256)} {hashed : List Query}
  {st : Rebuild} {level : Nat}

theorem deleteStep_eq (hlevel : level < 256) {old r : Tree} (hrtOld : st.rtOld = (treeHash P old).val) :
    deleteStep P (splitBits key.val) level (treeHash P r).val st =
      (let mixed := st.mixed || decide ((treeHash P r).val ≠ 0)
       let st' := { st with mixed }.removeOld (treeHash P (branch (smtBit key level) old r)).val
         (st.hashed ++ [branchQuery P (smtBit key level) old r])
       if mixed then buildNode P (smtBit key level) (treeHash P r).val st' else .ok st') := by
  rw [deleteStep, splitBits_getElem? key hlevel, okOr_some, ok_bind, hrtOld, hashInternal_branch, ok_bind]
  rfl

theorem Deleted.remove {old t' r : Tree} {b : Bool} (h : Deleted P key node hashed old t' st) (mixed : Bool)
    (hknownR : Known P { q | q ∈ hashed } r) (hkeyR : key ∉ keys r) (hkey' : key ∉ keys t') :
    Deleted P key node hashed (branch b old r) t' ({ st with mixed }.removeOld (treeHash P (branch b old r)).val
      (st.hashed ++ [branchQuery P b old r])) := by
  have hkey : key ∈ keys (branch b old r) := mem_keys_branch.mpr (.inl h.keyOld)
  have hpart : ¬Subtree (branch b old r) t' := fun hsub => hkey' (hsub.keys_subset hkey)
  refine ⟨((h.toRebuilt.withMixed mixed).remove hknownR hpart).widen ?_ ?_, hkey⟩
  · rintro w (rfl | ⟨hw, hkeyW⟩)
    · exact ⟨.refl _, hkey⟩
    · exact ⟨subtree_branch_here hw, hkeyW⟩
  · rintro w ⟨hw, hkeyW⟩
    rcases subtree_branch hw with heq | hw | hw
    · exact .inl (.inl heq)
    · exact .inl (.inr ⟨hw, hkeyW⟩)
    · exact absurd (hw.keys_subset hkeyW) hkeyR

theorem Deleted.step {old c' r : Tree} (hS : Safe P { q | q ∈ hashed }) (hlevel : level < 256)
    (h : Deleted P key node hashed old c' st) (hmixed : st.mixed = true ↔ ∃ left right, c' = .node left right)
    (hshape : c' = .empty → ∃ left right, r = .node left right) (hkeyC : key ∉ keys c')
    (hknownR : Known P { q | q ∈ hashed } r) (hstoredR : Stored P node r) (hkeyR : key ∉ keys r) :
    ∃ st', deleteStep P (splitBits key.val) level (treeHash P r).val st = .ok st' ∧
      (st'.mixed = true ↔ ∃ left right, collapseAt (smtBit key level) c' r = .node left right) ∧
      Deleted P key node hashed (branch (smtBit key level) old r) (collapseAt (smtBit key level) c' r) st' := by
  rw [deleteStep_eq hlevel h.rtOld]
  have hremoved := fun mixed => h.remove (b := smtBit key level) mixed hknownR hkeyR hkeyC
  cases hmix : (st.mixed || decide ((treeHash P r).val ≠ 0)) with
  | true =>
    obtain ⟨st', hbuild, hmixed', hdel⟩ := (hremoved true).build hknownR (smtBit key level) hstoredR
      fun u _ hu hgone => hkeyR (hu.keys_subset hgone.2)
    have hnode : collapseAt (smtBit key level) c' r = branch (smtBit key level) c' r := by
      apply collapseAt_eq_branch
      rw [Bool.or_eq_true, hmixed, decide_eq_true_eq] at hmix
      refine hmix.imp_right fun hr => ⟨hshape, ?_⟩
      rintro rfl
      exact hr (treeHash_empty P)
    refine ⟨st', hbuild, ?_, hnode ▸ ⟨hdel, (hremoved true).keyOld⟩⟩
    rw [hmixed', hnode]
    exact iff_of_true rfl (exists_branch_node _ _ _)
  | false =>
    rw [Bool.or_eq_false_iff, decide_eq_false_iff_not, not_not] at hmix
    obtain rfl : r = .empty := by
      by_contra hne
      exact treeHash_ne_zero hS hknownR hne hmix.2
    have hleaf : ∀ left right, c' ≠ .node left right := by
      rintro left right rfl
      rw [hmixed.mpr ⟨left, right, rfl⟩] at hmix
      cases hmix.1
    rw [collapseAt_empty _ hleaf]
    refine ⟨_, rfl, iff_of_false (by simp [Rebuild.removeOld]) ?_, hremoved false⟩
    rintro ⟨left, right, heq⟩
    exact hleaf left right heq

/-- One level above the start of the loop, unless a leaf is promoted there. -/
def startAbove (P : Permutation) (here there : Tree) (rest : Tree × List F) : Tree × List F :=
  match here, there with
  | .leaf _ _, .leaf k v => (.leaf k v, [])
  | _, _ => (rest.1, treeHash P there :: rest.2)

def deleteStart (P : Permutation) (key : F) : Tree → Nat → Tree × List F
  | .empty, _ => (.empty, [])
  | .leaf _ _, _ => (.empty, [])
  | .node left right, level =>
      if smtBit key level then startAbove P right left (deleteStart P key right (level + 1))
      else startAbove P left right (deleteStart P key left (level + 1))

/-- One level above what the loop takes for the old subtree; the node whose leaf is
promoted is left out. -/
def oldAbove (b : Bool) (here there old : Tree) : Tree :=
  match here, there with
  | .leaf k v, .leaf _ _ => .leaf k v
  | _, _ => branch b old there

def deleteOld (key : F) : Tree → Nat → Tree
  | .empty, _ => .empty
  | .leaf k v, _ => .leaf k v
  | .node left right, level =>
      if smtBit key level then oldAbove true right left (deleteOld key right (level + 1))
      else oldAbove false left right (deleteOld key left (level + 1))

theorem deleteOld_branch {here there : Tree} :
    deleteOld key (branch (smtBit key level) here there) level =
      oldAbove (smtBit key level) here there (deleteOld key here (level + 1)) := by
  cases hb : smtBit key level <;> simp [branch, deleteOld, hb]

theorem deleteStart_branch {here there : Tree} :
    deleteStart P key (branch (smtBit key level) here there) level =
      startAbove P here there (deleteStart P key here (level + 1)) := by
  cases hb : smtBit key level <;> simp [branch, deleteStart, hb]

theorem promote_cons {ys : List U256} (x : U256) (hne : ys ≠ []) {z : U256} {zs : List U256}
    (h : promote node ys = .ok (z, zs)) : promote node (x :: ys) = .ok (z, x :: zs) := by
  obtain ⟨last, hlast⟩ : ∃ last, ys.getLast? = some last := ⟨ys.getLast hne, List.getLast?_eq_some_getLast hne⟩
  rw [promote, hlast] at h
  rw [promote, List.getLast?_cons_of_ne_nil hne, hlast, List.dropLast_cons_of_ne_nil hne]
  obtain ⟨nodeData, hnode, h⟩ := bind_eq_ok h
  simp only [hnode, ok_bind]
  split at h
  · obtain ⟨_, htag, h⟩ := bind_eq_ok h
    cases h
    rw [htag]
    rfl
  · cases h
    rfl
  · cases h

theorem siblings_ne_nil (left right : Tree) :
    (siblings smtBit (smtHasher P) key (.node left right) level).map ZMod.val ≠ [] := by
  rw [siblings]
  split <;> simp

theorem promote_eq {t : Tree} {level : Nat} (hc : Canonical smtBit level t) (hkey : key ∈ keys t)
    (hnode : ∀ u, Subtree u t → u ≠ .empty → key ∉ keys u →
      node (treeHash P u).val = some (nodeData P u)) :
    promote node ((siblings smtBit (smtHasher P) key t level).map ZMod.val) =
      .ok ((treeHash P (deleteStart P key t level).1).val, (deleteStart P key t level).2.map ZMod.val) := by
  induction t, level using path_induction smtBit key with
  | hempty level => cases hkey
  | hleaf k v level =>
    rw [siblings, deleteStart, treeHash_empty]
    rfl
  | hbranch here there level ih =>
    obtain ⟨hbit, hbit', hsize, hcHere, hcThere⟩ := hc.of_branch
    have hkeyThere : key ∉ keys there := hc.notMem_there
    rw [siblings_branch, deleteStart_branch, List.map_cons]
    cases here with
    | empty =>
      rcases mem_keys_branch.mp hkey with hk | hk
      · cases hk
      · exact absurd hk hkeyThere
    | leaf k v =>
      cases there with
      | empty => simp [entries] at hsize
      | leaf k' v' =>
        have hstored := hnode (.leaf k' v') (subtree_branch_there rfl) (by simp) hkeyThere
        rw [siblings, startAbove, promote]
        simp [hstored, nodeData, failIf_neg, pure, Except.pure]
      | node left right =>
        have hstored := hnode (.node left right) (subtree_branch_there (.refl _)) (by simp) hkeyThere
        rw [siblings, startAbove.eq_2 _ _ _ _ (by simp), promote]
        simp [hstored, nodeData, deleteStart, treeHash_empty, pure, Except.pure]
    | node left right =>
      have hkeyHere : key ∈ keys (.node left right : Tree) := (mem_keys_branch.mp hkey).resolve_right hkeyThere
      have hrest := ih hcHere hkeyHere fun u hu => hnode u (subtree_branch_here hu)
      exact promote_cons _ (siblings_ne_nil left right) hrest

theorem deleteStart_subtree {t : Tree} {level : Nat} (hc : Canonical smtBit level t)
    (hkey : key ∈ keys t) {u : Tree} (hu : Subtree u (deleteStart P key t level).1)
    (hne : u ≠ .empty) : Subtree u t ∧ key ∉ keys u := by
  induction t, level using path_induction smtBit key with
  | hempty level => cases hkey
  | hleaf k v level => exact absurd hu hne
  | hbranch here there level ih =>
    obtain ⟨hbit, hbit', -, hcHere, -⟩ := hc.of_branch
    have hkeyThere : key ∉ keys there := hc.notMem_there
    have hkeyHere : key ∈ keys here := (mem_keys_branch.mp hkey).resolve_right hkeyThere
    rw [deleteStart_branch] at hu
    unfold startAbove at hu
    split at hu
    · rw [show u = _ from hu]
      exact ⟨subtree_branch_there (.refl _), hkeyThere⟩
    · obtain ⟨hsub, hkeyU⟩ := ih hcHere hkeyHere hu
      exact ⟨subtree_branch_here hsub, hkeyU⟩

theorem deleteLoop_path (hS : Safe P { q | q ∈ hashed }) {t : Tree} {level fuel : Nat}
    (hfuel : level + fuel = 256) (hc : Canonical smtBit level t) (hnodup : t.keys.Nodup)
    (hdiff : t.keys.Pairwise (Differ smtBit level fuel)) (hkey : key ∈ keys t)
    (hknown : Known P { q | q ∈ hashed } t) (hstored : Stored P node t) (hmixed : st.mixed = false)
    (hbase : Deleted P key node hashed (endpoint smtBit key t level) (deleteStart P key t level).1 st) :
    ∃ st', deleteLoop P (splitBits key.val) level
        ((deleteStart P key t level).2.map ZMod.val) st = .ok st' ∧
      (st'.mixed = true ↔ ∃ left right, deleteAt smtBit key t level = .node left right) ∧
      Deleted P key node hashed (deleteOld key t level) (deleteAt smtBit key t level) st' := by
  induction t, level using path_induction smtBit key generalizing fuel with
  | hempty level => cases hkey
  | hleaf k v level =>
    obtain rfl : key = k := by simpa using hkey
    rw [deleteAt, if_pos rfl]
    exact ⟨st, rfl, by simp [hmixed], hbase⟩
  | hbranch here there level ih =>
    obtain ⟨hbit, hbit', hsize, hcHere, hcThere⟩ := hc.of_branch
    obtain ⟨hknownHere, hknownThere⟩ := hknown.children
    obtain ⟨hstoredHere, hstoredThere⟩ := hstored.children
    have hkeyThere : key ∉ keys there := hc.notMem_there
    have hkeyHere : key ∈ keys here := (mem_keys_branch.mp hkey).resolve_right hkeyThere
    have hsubKeys : (keys here).Sublist (keys (branch (smtBit key level) here there)) := by
      rw [keys_branch]
      split
      · exact List.sublist_append_right _ _
      · exact List.sublist_append_left _ _
    have hnodupHere := hnodup.sublist hsubKeys
    have hpos : 0 < fuel := by
      cases hb : smtBit key level <;> rw [hb] at hc hdiff <;> exact fuel_pos_of_node hc hdiff
    have hdiffHere : (keys here).Pairwise (Differ smtBit (level + 1) (fuel - 1)) :=
      pairwise_next hbit (hdiff.sublist hsubKeys)
    rw [deleteStart_branch] at hbase ⊢
    rw [endpoint_branch] at hbase
    rw [deleteAt_branch, deleteOld_branch]
    -- Everything but the promotion of a leaf is one step above the rest of the path.
    have hstep : startAbove P here there (deleteStart P key here (level + 1)) =
          ((deleteStart P key here (level + 1)).1, treeHash P there :: (deleteStart P key here (level + 1)).2) →
        oldAbove (smtBit key level) here there (deleteOld key here (level + 1)) =
          branch (smtBit key level) (deleteOld key here (level + 1)) there →
        (deleteAt smtBit key here (level + 1) = .empty → ∃ left right, there = .node left right) →
        ∃ st', deleteLoop P (splitBits key.val) level
            ((startAbove P here there (deleteStart P key here (level + 1))).2.map ZMod.val) st =
              .ok st' ∧
          (st'.mixed = true ↔ ∃ left right, collapseAt (smtBit key level)
            (deleteAt smtBit key here (level + 1)) there = .node left right) ∧
          Deleted P key node hashed
            (oldAbove (smtBit key level) here there (deleteOld key here (level + 1)))
            (collapseAt (smtBit key level) (deleteAt smtBit key here (level + 1)) there) st' := by
      intro hstart hold hshape
      rw [hstart] at hbase ⊢
      rw [hold]
      obtain ⟨st₁, hrun, hmixed₁, hdel⟩ := ih (by omega : level + 1 + (fuel - 1) = 256) hcHere
        hnodupHere hdiffHere hkeyHere hknownHere hstoredHere hbase
      obtain ⟨st', hone, hmixed', hdel'⟩ := hdel.step hS (by omega : level < 256) hmixed₁ hshape
        (fun hk => (mem_keys_deleteAt hcHere hk).2 rfl) hknownThere hstoredThere hkeyThere
      refine ⟨st', ?_, hmixed', hdel'⟩
      rw [List.map_cons, deleteLoop, hrun, ok_bind]
      exact hone
    cases here with
    | empty => cases hkeyHere
    | leaf k v =>
      obtain rfl : key = k := by simpa using hkeyHere
      cases there with
      | empty => simp [entries] at hsize
      | leaf k' v' =>
        have hone : collapseAt (smtBit key level) (deleteAt smtBit key (.leaf key v) (level + 1))
            (.leaf k' v') = .leaf k' v' := by
          rw [deleteAt, if_pos rfl]
          cases smtBit key level <;> rfl
        rw [hone]
        exact ⟨st, rfl, by simp [hmixed], hbase⟩
      | node left right => exact hstep rfl rfl fun _ => ⟨left, right, rfl⟩
    | node left right =>
      exact hstep rfl rfl fun hempty => absurd hempty (deleteAt_ne_empty hcHere hnodupHere)

end Delete

section DeleteLeaf
variable {P : Permutation} {key : F} {s : Storage} {t : Tree} {authorized : Address → Bool}
  {admin : Address}

section
variable (hS : Safe P { q | q ∈ s.hashed }) (h : Represents P t s) (hadmin : s.admin = some admin)
  (hauth : authorized admin = true)
include hS h hadmin hauth

theorem deleteLeaf_present (hkey : key ∈ keys t) :
    ∃ st, deleteLeaf P authorized key.val s = .ok ((), st.commit s (.leafDeleted key.val)) ∧
      Deleted P key s.node s.hashed (deleteOld key t 0) (deleteAt smtBit key t 0) st := by
  obtain ⟨⟨k, v⟩, hmem, rfl⟩ := List.mem_map.mp hkey
  change (k, v) ∈ t.entries at hmem
  have hend := endpoint_of_mem h.canonical hmem
  have hleaf : Subtree (.leaf k v) t := subtree_endpoint hend
  have hknownLeaf := h.known.subtree hleaf
  rw [deleteLeaf, hadmin, okOr_some, ok_bind, requireAuth, if_pos hauth, ok_bind, h.root, okOr_some, ok_bind]
  simp only [findKey_tree hS h k, ok_bind]
  rw [findResult_found h.canonical hmem, failIf_neg (by simp), ok_bind, hashLeaf_val, ok_bind]
  have hkept : ∀ Q, Safe P Q → (∀ q ∈ s.hashed, q ∈ Q) → ∀ u, Known P Q u → u ≠ .leaf k v →
      s.node (treeHash P u).val = some (nodeData P u) →
      update s.node (treeHash P (.leaf k v)).val none (treeHash P u).val =
        some (nodeData P u) := by
    intro Q hQ hsub u hknownU hne hnode
    exact remove_kept hQ (hknownLeaf.mono hsub) hknownU hne hnode
  have hleafNe : ∀ u : Tree, k ∉ keys u → u ≠ .leaf k v := by
    rintro u hkeyU rfl
    exact hkeyU (by simp)
  have hpromote := promote_eq h.canonical hkey fun u hu hne hkeyU =>
    hkept _ hS (fun _ hq => hq) u (h.known.subtree hu) (hleafNe u hkeyU) (h.stored u hu hne)
  have hbase : Deleted P k s.node s.hashed (endpoint smtBit k t 0) (deleteStart P k t 0).1 {
      rt := (treeHash P (deleteStart P k t 0).1).val, rtOld := (treeHash P (.leaf k v)).val,
      mixed := false, node := update s.node (treeHash P (.leaf k v)).val none,
      hashed := s.hashed ++ [.hash2 k v 1] } := by
    have hgrows : ∀ q ∈ s.hashed, q ∈ s.hashed ++ [.hash2 k v 1] := fun q hq => by simp [hq]
    rw [hend]
    refine ⟨⟨rfl, rfl, hknownLeaf.mono hgrows, hgrows, ?_, ?_, ?_, ?_⟩, by simp⟩
    · intro x hx
      by_cases hne : (deleteStart P k t 0).1 = .empty
      · rw [hne] at hx
        exact absurd hx (Set.notMem_empty _)
      · have hsub := (deleteStart_subtree h.canonical hkey (.refl _) hne).1
        exact hgrows _ (h.known x (hsub.inputs_subset hx))
    · intro Q hQ hsub u hu hne
      obtain ⟨hsubT, hkeyU⟩ := deleteStart_subtree h.canonical hkey hu hne
      have hold : ∀ q ∈ s.hashed, q ∈ Q := fun q hq => hsub q (hgrows q hq)
      exact hkept Q hQ hold u ((h.known.mono hold).subtree hsubT) (hleafNe u hkeyU) (h.stored u hsubT hne)
    · intro Q hQ hsub u _ hknownU hspared hnode
      refine hkept Q hQ (fun q hq => hsub q (hgrows q hq)) u hknownU ?_ hnode
      rintro rfl
      exact hspared ⟨rfl, by simp⟩
    · intro h' hnode
      dsimp only at hnode
      by_cases hgone : h' = (treeHash P (.leaf k v)).val
      · rw [hgone, update_self] at hnode
        exact absurd rfl hnode
      rw [update_of_ne hgone] at hnode
      refine .inr ⟨hnode, fun w hw => ?_⟩
      rw [show w = .leaf k v from hw.1]
      exact hgone
  obtain ⟨st, hloop, -, hdel⟩ := deleteLoop_path hS rfl h.canonical h.nodup
    (pairwise_differ h.nodup) hkey h.known h.stored rfl hbase
  refine ⟨st, ?_, hdel⟩
  simp only [hpromote, ok_bind, hloop]
  rw [Rebuild.commit, hadmin]
  rfl

theorem deleteLeaf_absent (habsent : key ∉ keys t) :
    deleteLeaf P authorized key.val s = .error (.error .keyNotFound) := by
  rw [deleteLeaf, hadmin, okOr_some, ok_bind, requireAuth, if_pos hauth, ok_bind, h.root, okOr_some, ok_bind]
  simp only [findKey_tree hS h key, ok_bind]
  rw [failIf_pos (findResult_absent habsent _), error_bind]

end

end DeleteLeaf

end PrivatePayments.Contracts.AspNonMembership

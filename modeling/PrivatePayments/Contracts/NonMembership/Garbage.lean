import PrivatePayments.Contracts.NonMembership.Map

/-! Which nodes the contract keeps.  Insertion removes the path it replaces; a
deletion that promotes a leaf recomputes that path from the wrong node. -/
namespace PrivatePayments.Contracts.AspNonMembership
open Lib Lib.SparseTree

/-- The nodes that can be reached from the root by following stored children. -/
inductive ReachableNode (node : U256 → Option (List U256)) (root : U256) : U256 → Prop where
  | root (h : root ≠ 0) : ReachableNode node root root
  | left {h left right : U256} (parent : ReachableNode node root h)
      (hnode : node h = some [left, right]) (hne : left ≠ 0) : ReachableNode node root left
  | right {h left right : U256} (parent : ReachableNode node root h)
      (hnode : node h = some [left, right]) (hne : right ≠ 0) : ReachableNode node root right

def NoGarbage (s : Storage) : Prop :=
  ∀ h, s.node h ≠ none ↔ ReachableNode s.node (s.root.getD 0) h

/-- A deletion is tidy if the last sibling on the path of the key is not a leaf. -/
def Call.Tidy (s : Storage) : Call → Prop
  | .deleteLeaf key => ∀ find last, findKey key s = .ok find →
      find.siblings.getLast? = some last → ∀ k v, s.node last ≠ some [1, k, v]
  | _ => True

inductive TidyHistory (P : Permutation) : Storage → Prop where
  | start {admin : Address} {s : Storage} (hdeploy : constructor admin .fresh = .ok ((), s)) :
      TidyHistory P s
  | call {authorized : Address → Bool} {call : Call} {s s' : Storage} (before : TidyHistory P s)
      (htidy : call.Tidy s) (hcall : exec P authorized call s = .ok ((), s')) : TidyHistory P s'

variable {P : Permutation} {t : Tree} {s : Storage}

variable {node : U256 → Option (List U256)}

section Reachable

theorem nodeOf_of_reachable (h : Represents P t s) {x : U256}
    (hx : ReachableNode s.node (treeHash P t).val x) : NodeOf P t x := by
  have hne : ∀ u : Tree, (treeHash P u).val ≠ 0 → u ≠ .empty := by
    rintro u hu rfl
    exact hu (treeHash_empty P)
  -- A child that the store names is a child of the node that is stored there.
  have hchild : ∀ {h' left right : U256}, NodeOf P t h' → s.node h' = some [left, right] →
      ∃ l r, Subtree (.node l r) t ∧ left = (treeHash P l).val ∧ right = (treeHash P r).val := by
    rintro _ left right ⟨u, hu, hnempty, rfl⟩ hnode
    rw [h.stored u hu hnempty] at hnode
    cases u with
    | empty => exact absurd rfl hnempty
    | leaf k v => cases hnode
    | node l r =>
      cases hnode
      exact ⟨l, r, hu, rfl, rfl⟩
  induction hx with
  | root hroot => exact ⟨t, .refl t, hne t hroot, rfl⟩
  | left parent hnode hzero ih =>
    obtain ⟨l, r, hsub, rfl, rfl⟩ := hchild ih hnode
    exact ⟨l, hsub.children.1, hne l hzero, rfl⟩
  | right parent hnode hzero ih =>
    obtain ⟨l, r, hsub, rfl, rfl⟩ := hchild ih hnode
    exact ⟨r, hsub.children.2, hne r hzero, rfl⟩

theorem reachable_of_subtree {root : U256} {Q : Set Query}
    (hQ : Safe P Q) {t u : Tree} (hknown : Known P Q t) (hstored : Stored P node t)
    (ht : ReachableNode node root (treeHash P t).val) (hu : Subtree u t) (hne : u ≠ .empty) :
    ReachableNode node root (treeHash P u).val := by
  induction t with
  | empty => exact absurd hu hne
  | leaf k v =>
    cases hu
    exact ht
  | node left right ihl ihr =>
    have hnode := hstored _ (.refl _) (by simp)
    rcases hu with rfl | hu | hu
    · exact ht
    · have hleft : left ≠ .empty := by
        rintro rfl
        exact hne hu
      exact ihl hknown.node.1 hstored.left (.left ht hnode (treeHash_ne_zero hQ hknown.node.1 hleft)) hu
    · have hright : right ≠ .empty := by
        rintro rfl
        exact hne hu
      exact ihr hknown.node.2 hstored.right (.right ht hnode (treeHash_ne_zero hQ hknown.node.2 hright)) hu

theorem noGarbage_iff (hS : Safe P { q | q ∈ s.hashed }) (h : Represents P t s) :
    NoGarbage s ↔ ∀ x, s.node x ≠ none → NodeOf P t x := by
  unfold NoGarbage
  rw [h.root, Option.getD_some]
  constructor
  · intro hexact x hx
    exact nodeOf_of_reachable h ((hexact x).mp hx)
  · intro honly x
    constructor
    · intro hx
      obtain ⟨u, hu, hne, rfl⟩ := honly x hx
      have ht : t ≠ .empty := by
        rintro rfl
        exact hne hu
      exact reachable_of_subtree hS h.known h.stored (.root (treeHash_ne_zero hS h.known ht)) hu hne
    · intro hx
      obtain ⟨u, hu, hne, rfl⟩ := nodeOf_of_reachable h hx
      rw [h.stored u hu hne]
      exact Option.some_ne_none _

end Reachable

section Calls
variable {key value : F} {st : Rebuild} {event : U256 → Event}

section
variable (hS : Safe P { q | q ∈ s.hashed }) (h : Represents P t s)
include hS h

theorem Inserted.noGarbage
    (habsent : key ∉ keys t) (hS' : Safe P { q | q ∈ st.hashed })
    (hins : Inserted P s.node s.hashed t (insertAt smtBit key value t 256 0) st)
    (hclean : NoGarbage s) : NoGarbage (st.commit s event) := by
  rw [noGarbage_iff hS h] at hclean
  rw [noGarbage_iff hS' (h.insert habsent hS' hins)]
  intro x hx
  rcases hins.only x hx with hof | ⟨hbefore, hinner⟩
  · exact hof
  obtain ⟨u, hu, hne, rfl⟩ := hclean x hbefore
  cases u with
  | empty => exact absurd rfl hne
  | leaf k v =>
    refine ⟨.leaf k v, subtree_leaf_iff.mpr ?_, hne, rfl⟩
    rw [(entries_insertAt h.canonical (differ_of_absent habsent)).mem_iff]
    exact List.mem_cons_of_mem _ (subtree_leaf_iff.mp hu)
  | node left right => exact absurd rfl (hinner _ ⟨hu, left, right, rfl⟩)

theorem Deleted.noGarbage
    (hkey : key ∈ keys t) (hS' : Safe P { q | q ∈ st.hashed })
    (hdel : Deleted P key s.node s.hashed (deleteOld key t 0) (deleteAt smtBit key t 0) st)
    (hold : deleteOld key t 0 = t) (hclean : NoGarbage s) : NoGarbage (st.commit s event) := by
  rw [noGarbage_iff hS h] at hclean
  rw [noGarbage_iff hS' (h.delete hS' hdel)]
  intro x hx
  rcases hdel.only x hx with hof | ⟨hbefore, hparts⟩
  · exact hof
  obtain ⟨u, hu, hne, rfl⟩ := hclean x hbefore
  rw [hold] at hparts
  have hkeyU : key ∉ keys u := fun hk => hparts u ⟨hu, hk⟩ rfl
  exact ⟨u, subtree_deleteAt h.canonical hkey hne hu hkeyU, hne, rfl⟩

end

variable {level : Nat}

/-- Where a leaf is promoted, the node above it and the deleted leaf is a part of
the old tree, and its other key is not in what the loop takes for that tree. -/
theorem exists_promoted {t : Tree} (hc : Canonical smtBit level t)
    (hnodup : t.keys.Nodup) (hkey : key ∈ keys t) (hold : deleteOld key t level ≠ t) :
    ∃ u k, Subtree u t ∧ u ≠ .empty ∧ key ∈ keys u ∧ k ∈ keys u ∧ k ∉ keys (deleteOld key t level) := by
  induction t, level using path_induction smtBit key with
  | hempty level => cases hkey
  | hleaf k v level => exact absurd rfl hold
  | hbranch here there level ih =>
    have hcHere := hc.of_branch.2.2.2.1
    have hkeyHere : key ∈ keys here := (mem_keys_branch.mp hkey).resolve_right hc.notMem_there
    rw [deleteOld_branch] at hold ⊢
    obtain ⟨hnodupHere, hapart⟩ := nodup_keys_branch hnodup
    cases here with
    | empty => cases hkeyHere
    | leaf k v =>
      cases there with
      | empty => exact absurd rfl hold
      | leaf k' v' =>
        refine ⟨_, k', .refl _, branch_not_empty _ _ _, hkey, mem_keys_branch.mpr (.inr (by simp)), ?_⟩
        intro hmem
        exact hapart k' hmem (by simp)
      | node left right => exact absurd rfl hold
    | node left right =>
      have hother : deleteOld key (.node left right) (level + 1) ≠ .node left right := by
        intro heq
        apply hold
        simp only [oldAbove, heq]
      obtain ⟨u, k, hu, hne, hkeyU, hk, hnot⟩ := ih hcHere hnodupHere hkeyHere hother
      refine ⟨u, k, subtree_branch_here hu, hne, hkeyU, hk, ?_⟩
      intro hmem
      rcases mem_keys_branch.mp hmem with hmem | hmem
      · exact hnot hmem
      · exact hapart k (hu.keys_subset hk) hmem

theorem Deleted.garbage (h : Represents P t s) (hkey : key ∈ keys t)
    (hS' : Safe P { q | q ∈ st.hashed })
    (hdel : Deleted P key s.node s.hashed (deleteOld key t 0) (deleteAt smtBit key t 0) st)
    (hold : deleteOld key t 0 ≠ t) : ¬NoGarbage (st.commit s event) := by
  rw [noGarbage_iff hS' (h.delete hS' hdel)]
  intro honly
  obtain ⟨u, k, hu, hne, hkeyU, hk, hnot⟩ := exists_promoted h.canonical h.nodup hkey hold
  have hknownU : Known P { q | q ∈ st.hashed } u := (h.known.mono hdel.grows).subtree hu
  have hkept := hdel.kept _ hS' (fun _ hq => hq) u hne hknownU (fun hgone => hnot (hgone.1.keys_subset hk)) (h.stored u hu hne)
  obtain ⟨u', hu', -, heq⟩ := honly _ (show st.node (treeHash P u).val ≠ none by
    rw [hkept]
    exact Option.some_ne_none _)
  obtain rfl := treeHash_val_inj hS' hknownU (hdel.known.subtree hu') heq
  exact (mem_keys_deleteAt h.canonical (hu'.keys_subset hkeyU)).2 rfl

theorem last_leaf_iff {t : Tree}
    (hc : Canonical smtBit level t) (hkey : key ∈ keys t) (hstored : Stored P node t) :
    (∃ last k v, ((siblings smtBit (smtHasher P) key t level).map ZMod.val).getLast? = some last ∧
      node last = some [1, k, v]) ↔ deleteOld key t level ≠ t := by
  induction t, level using path_induction smtBit key with
  | hempty level => cases hkey
  | hleaf k v level => simp [siblings, deleteOld]
  | hbranch here there level ih =>
    have hkeyHere : key ∈ keys here := (mem_keys_branch.mp hkey).resolve_right hc.notMem_there
    have hsize := hc.of_branch.2.2.1
    rw [siblings_branch, deleteOld_branch, List.map_cons]
    cases here with
    | empty => cases hkeyHere
    | leaf k v =>
      have hthere : there ≠ .empty := by
        rintro rfl
        simp [entries] at hsize
      have hnode := hstored.children.2 there (.refl there) hthere
      cases there with
      | empty => exact absurd rfl hthere
      | leaf k' v' =>
        refine iff_of_true ⟨_, k'.val, v'.val, rfl, hnode⟩ ?_
        cases smtBit key level <;> simp [oldAbove, branch]
      | node left right =>
        refine iff_of_false ?_ (not_not.mpr rfl)
        rintro ⟨last, k', v', hlast, hleaf⟩
        cases hlast
        exact absurd (hnode.symm.trans hleaf) (by simp [nodeData])
    | node left right =>
      have hsame : oldAbove (smtBit key level) (.node left right) there
          (deleteOld key (.node left right) (level + 1)) =
            branch (smtBit key level) (.node left right) there ↔
          deleteOld key (.node left right) (level + 1) = .node left right := by
        cases smtBit key level <;> simp [oldAbove, branch]
      rw [List.getLast?_cons_of_ne_nil (siblings_ne_nil left right),
        ih hc.of_branch.2.2.2.1 hkeyHere hstored.children.1, ne_eq, ne_eq, hsame]

section
variable (hS : Safe P { q | q ∈ s.hashed }) (h : Represents P t s)
include hS h

theorem tidy_delete_iff
    (hkey : key ∈ keys t) : (Call.deleteLeaf key.val).Tidy s ↔ deleteOld key t 0 = t := by
  have hfind : findKey key.val s = .ok (findResult key (endpoint smtBit key t 0)
      (siblings smtBit (smtHasher P) key t 0)) := by
    rw [findKey, h.root, Option.getD_some, findKey_tree hS h]
  have hsiblings : (findResult key (endpoint smtBit key t 0) (siblings smtBit (smtHasher P) key t 0)).siblings =
        (siblings smtBit (smtHasher P) key t 0).map ZMod.val := findResult_siblings _ _ _
  rw [← not_iff_not, ← ne_eq, ← last_leaf_iff h.canonical hkey h.stored, ← hsiblings]
  unfold Call.Tidy
  constructor
  · intro hnot
    push Not at hnot
    obtain ⟨find, last, hfound, hlast, k, v, hnode⟩ := hnot
    rw [hfind] at hfound
    cases hfound
    exact ⟨last, k, v, hlast, hnode⟩
  · rintro ⟨last, k, v, hlast, hnode⟩ htidy
    exact htidy _ last hfind hlast k v hnode

theorem call_noGarbage_iff
    {authorized : Address → Bool} {call : Call} {s' : Storage}
    (hcall : exec P authorized call s = .ok ((), s')) (hS' : Safe P { q | q ∈ s'.hashed })
    (hclean : NoGarbage s) : NoGarbage s' ↔ call.Tidy s := by
  cases h.exec_cases hS hcall with
  | updateAdmin newAdmin => exact iff_of_true hclean trivial
  | insert key value habsent hins =>
    exact iff_of_true (hins.noGarbage hS h habsent hS' hclean) trivial
  | delete key hkey hdel =>
    rw [tidy_delete_iff hS h hkey]
    constructor
    · intro hclean'
      by_contra hold
      exact hdel.garbage h hkey hS' hold hclean'
    · intro hold
      exact hdel.noGarbage hS h hkey hS' hold hclean

end

end Calls

section Histories

theorem TidyHistory.history (h : TidyHistory P s) : ∃ entries, History P entries s := by
  induction h with
  | start hdeploy => exact ⟨_, .start hdeploy⟩
  | call before htidy hcall ih =>
    obtain ⟨entries, hrun⟩ := ih
    exact ⟨_, .call hrun hcall⟩

theorem TidyHistory.noGarbage (h : TidyHistory P s) (hS : Safe P { q | q ∈ s.hashed }) :
    NoGarbage s := by
  induction h with
  | start hdeploy =>
    rw [noGarbage_iff hS (constructor_represents hdeploy)]
    cases hdeploy
    exact fun x hx => absurd rfl hx
  | call before htidy hcall ih =>
    have hbefore := hS.mono (exec_grows hcall)
    obtain ⟨entries, hrun⟩ := before.history
    obtain ⟨t, ht, -⟩ := hrun.represents hbefore
    exact (call_noGarbage_iff hbefore ht hcall hS (ih hbefore)).mpr htidy

/-- As long as no deletion promotes a leaf, every state stores exactly the nodes
reachable from its root; the first deletion that does leaves garbage. -/
theorem no_garbage_while_tidy (h : TidyHistory P s) (hS : Safe P { q | q ∈ s.hashed }) :
    NoGarbage s ∧ ∀ authorized call s', exec P authorized call s = .ok ((), s') →
      Safe P { q | q ∈ s'.hashed } → (NoGarbage s' ↔ call.Tidy s) := by
  refine ⟨h.noGarbage hS, ?_⟩
  intro authorized call s' hcall hS'
  obtain ⟨entries, hrun⟩ := h.history
  obtain ⟨t, ht, -⟩ := hrun.represents hS
  exact call_noGarbage_iff hS ht hcall hS' (h.noGarbage hS)

/-- A leaf beside a node is deleted without garbage; the leaf that is deleted next is beside a leaf. -/
theorem no_garbage_three : ∃ s s', TidyHistory decimalPermutation s ∧ NoGarbage s ∧
    exec decimalPermutation (fun _ => true) (.deleteLeaf 3) s = .ok ((), s') ∧ ¬NoGarbage s' := by
  obtain ⟨s, s', hrun, hcall, hhashed, hfind, hnode⟩ : ∃ s s', TidyHistory decimalPermutation s ∧
      exec decimalPermutation (fun _ => true) (.deleteLeaf 3) s = .ok ((), s') ∧
      s'.hashed = [.hash2 5 7 1, .hash2 5 7 1, .hash2 2 9 1, .compress 92 75, .hash2 5 7 1, .hash2 3 8 1,
        .compress 75 83, .compress 92 75, .compress 92 83075, .hash2 2 9 1, .compress 92 83075,
        .compress 0 83075, .hash2 3 8 1, .compress 0 83] ∧
      findKey 3 s = .ok ⟨true, [0, 75], 8, 0, 0, false⟩ ∧ s.node 75 = some [1, 5, 7] := by
    refine ⟨_, _, .call (.call (.call (.call (.start (show constructor ⟨0⟩ .fresh = _ from rfl)) (by trivial)
      (show exec _ (fun _ => true) (.insertLeaf 5 7) _ = _ from rfl)) (by trivial)
      (show exec _ (fun _ => true) (.insertLeaf 2 9) _ = _ from rfl)) (by trivial)
      (show exec _ (fun _ => true) (.insertLeaf 3 8) _ = _ from rfl)) ?_
      (show exec _ (fun _ => true) (.deleteLeaf 2) _ = _ from rfl), rfl, rfl, rfl, rfl⟩
    intro find last hfind hlast
    cases hfind
    cases hlast
    nofun
  have hS' : Safe decimalPermutation { q | q ∈ s'.hashed } := by
    rw [hhashed]
    decide
  obtain ⟨hclean, hiff⟩ := no_garbage_while_tidy hrun (hS'.mono (exec_grows hcall))
  refine ⟨s, s', hrun, hclean, hcall, fun hclean' => ?_⟩
  exact (hiff _ _ _ hcall hS').mp hclean' _ 75 hfind rfl 5 7 hnode

/-- Two entries, and the deletion of one: the node above them stays behind. -/
theorem garbage_after_promotion : ∃ s, History decimalPermutation [(5, 7)] s ∧
    Safe decimalPermutation { q | q ∈ s.hashed } ∧ ¬NoGarbage s := by
  obtain ⟨s, hrun, hhashed, hroot, hleaf, hnode⟩ : ∃ s, History decimalPermutation [(5, 7)] s ∧
      s.hashed = [.hash2 5 7 1, .hash2 5 7 1, .hash2 2 9 1, .compress 92 75, .hash2 2 9 1] ∧
      s.root = some 75 ∧ s.node 75 = some [1, 5, 7] ∧ s.node 75092 = some [92, 75] :=
    ⟨_, .call (.call (.call (.start (show constructor ⟨0⟩ .fresh = _ from rfl))
      (show exec _ (fun _ => true) (.insertLeaf 5 7) _ = _ from rfl))
      (show exec _ (fun _ => true) (.insertLeaf 2 9) _ = _ from rfl))
      (show exec _ (fun _ => true) (.deleteLeaf 2) _ = _ from rfl), rfl, rfl, rfl, rfl⟩
  refine ⟨s, hrun, ?_, ?_⟩
  · rw [hhashed]
    decide
  · intro hexact
    have hreach := (hexact 75092).mp (by simp [hnode])
    rw [hroot, Option.getD_some] at hreach
    -- The root is a leaf: nothing else can be reached.
    have honly : ∀ x, ReachableNode s.node 75 x → x = 75 := by
      intro x hx
      induction hx with
      | root _ => rfl
      | left _ hchild _ ih =>
        rw [ih, hleaf] at hchild
        cases hchild
      | right _ hchild _ ih =>
        rw [ih, hleaf] at hchild
        cases hchild
    exact absurd (honly _ hreach) (by decide)

end Histories

end PrivatePayments.Contracts.AspNonMembership

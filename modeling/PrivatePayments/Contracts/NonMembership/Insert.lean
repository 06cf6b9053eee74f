import PrivatePayments.Contracts.NonMembership.Tree

/-! Insertion.  Above the point where the search ended the old path is removed
node by node; below it nothing is removed. -/
namespace PrivatePayments.Contracts.AspNonMembership
open Lib Lib.SparseTree List Function

/-- The inner nodes of a tree. -/
def Inner (t w : Tree) : Prop := Subtree w t ∧ ∃ left right, w = .node left right

abbrev Inserted (P : Permutation) (node : U256 → Option (List U256)) (hashed : List Query) (t t' : Tree)
    (st : Rebuild) : Prop := Rebuilt P node hashed (Inner t) t t' st

section Insert
variable {P : Permutation} {key value : F} {node : U256 → Option (List U256)}
  {hashed : List Query} {vars : InsertVars} {st : Rebuild} {level : Nat}

theorem insertStep_removes (hbits : vars.keyBits = splitBits key.val) (hlevel : level < 256)
    {c r : Tree} (hrtOld : st.rtOld = (treeHash P c).val) (hlast : vars.isLastAddedLeaf level = false)
    (hmixed : st.mixed = true ∨ level < vars.siblingsLen - 1 ∧ (treeHash P r).val ≠ 0)
    (hfind : vars.findSiblings.getD level 0 = (treeHash P r).val) :
    insertStep P vars level (treeHash P r).val st = buildNode P (smtBit key level) (treeHash P r).val
      ({ st with mixed := true }.removeOld (treeHash P (branch (smtBit key level) c r)).val
        (st.hashed ++ [branchQuery P (smtBit key level) c r])) := by
  have hmix : (st.mixed || vars.mixes level (treeHash P r).val) = true := by
    rcases hmixed with h | ⟨h, h'⟩
    · simp [h]
    · simp [InsertVars.mixes, hlast, h, h']
  simp only [insertStep, hbits, splitBits_getElem? key hlevel, okOr_some, ok_bind, hmix, hlast,
    Bool.not_false, Bool.and_self, if_true, hfind, hrtOld, hashInternal_branch]

theorem Inserted.step {c c' r : Tree} (h : Inserted P node hashed c c' st)
    (hbits : vars.keyBits = splitBits key.val) (hlevel : level < 256) (hlast : vars.isLastAddedLeaf level = false)
    (hmixed : st.mixed = true ∨ level < vars.siblingsLen - 1 ∧ (treeHash P r).val ≠ 0)
    (hfind : vars.findSiblings.getD level 0 = (treeHash P r).val)
    (hknownR : Known P { q | q ∈ hashed } r)
    (hstoredR : Stored P node r) (hkeyC : key ∉ keys c) (hkeyR : key ∉ keys r)
    (hnew : ∀ u, u ≠ .empty → Subtree u c' → key ∈ keys u ∨ Subtree u c)
    (hapart : ∀ u, u ≠ .empty → Subtree u r → ¬Inner c u) :
    ∃ st', insertStep P vars level (treeHash P r).val st = .ok st' ∧ st'.mixed = true ∧
      Inserted P node hashed (branch (smtBit key level) c r) (branch (smtBit key level) c' r) st' := by
  rw [insertStep_removes hbits hlevel h.rtOld hlast hmixed hfind]
  set b := smtBit key level
  have hpart : ¬Subtree (branch b c r) c' := by
    intro hsub
    rcases hnew _ (branch_not_empty _ _ _) hsub with hkey | hsubC
    · exact (mem_keys_branch.mp hkey).elim hkeyC hkeyR
    · exact branch_not_subtree (.inl hsubC) rfl
  obtain ⟨st', hbuild, hmixed', hrebuilt⟩ := ((h.withMixed true).remove hknownR hpart).build hknownR b hstoredR (by
    rintro u hne hu (heq | hinner)
    · exact branch_not_subtree (.inr hu) heq
    · exact hapart u hne hu hinner)
  refine ⟨st', hbuild, hmixed', hrebuilt.widen ?_ ?_⟩
  · rintro w (rfl | ⟨hw, hnode⟩)
    · exact ⟨.refl _, exists_branch_node _ _ _⟩
    · exact ⟨subtree_branch_here hw, hnode⟩
  · rintro w ⟨hw, hnode⟩
    rcases subtree_branch hw with heq | hw | hw
    · exact .inl (.inl heq)
    · exact .inl (.inr ⟨hw, hnode⟩)
    · obtain ⟨left, right, rfl⟩ := hnode
      exact .inr ⟨by simp, subtree_branch_there hw⟩

theorem insertStep_builds (hbits : vars.keyBits = splitBits key.val) (hlevel : level < 256)
    {r : Tree} (hmixed : st.mixed = false) (hmixes : vars.mixes level (treeHash P r).val = false) :
    insertStep P vars level (treeHash P r).val st = buildNode P (smtBit key level) (treeHash P r).val st := by
  have hst : { st with mixed := false } = st := by rw [← hmixed]
  simp only [insertStep, hbits, splitBits_getElem? key hlevel, okOr_some, ok_bind, hmixed, hmixes,
    Bool.or_self, Bool.false_and, Bool.false_eq_true, if_false, hst]

theorem Inserted.extend {t c' r : Tree} (h : Inserted P node hashed t c' st)
    (hbits : vars.keyBits = splitBits key.val) (hlevel : level < 256) (hmixed : st.mixed = false)
    (hmixes : vars.mixes level (treeHash P r).val = false)
    (hknownR : Known P { q | q ∈ hashed } r) (hstoredR : Stored P node r)
    (hapart : ∀ u, u ≠ .empty → Subtree u r → ¬Inner t u) :
    ∃ st', insertStep P vars level (treeHash P r).val st = .ok st' ∧ st'.mixed = false ∧
      Inserted P node hashed t (branch (smtBit key level) c' r) st' := by
  rw [insertStep_builds hbits hlevel hmixed hmixes]
  obtain ⟨st', hbuild, hmixed', hrebuilt⟩ := h.build hknownR (smtBit key level) hstoredR hapart
  exact ⟨st', hbuild, hmixed'.trans hmixed, hrebuilt⟩

theorem not_inner_leaf {k v : F} (w : Tree) : ¬Inner (.leaf k v) w := by
  rintro ⟨hw, left, right, rfl⟩
  cases hw

theorem insertLoop_join {key' value' : F} (vars : InsertVars) (hbits : vars.keyBits = splitBits key.val)
    (hone : vars.addedOne = true) {fuel level : Nat} (hfuel : level + fuel = 256)
    (hdiff : Differ smtBit level fuel key key')
    (hlen : vars.siblingsLen = level + (commonPrefix (splitBitsLoop fuel (key'.val / 2 ^ level))
      (splitBitsLoop fuel (key.val / 2 ^ level))).length + 1)
    (hknown : Known P { q | q ∈ hashed } (.leaf key' value'))
    (hstored : Stored P node (.leaf key' value')) (hmixed : st.mixed = false)
    (hbase : Inserted P node hashed (.leaf key' value') (.leaf key value) st) :
    ∃ st', insertLoop P vars level
        (commonPrefix (splitBitsLoop fuel (key'.val / 2 ^ level))
          (splitBitsLoop fuel (key.val / 2 ^ level)) ++ [(treeHash P (.leaf key' value')).val])
        st = .ok st' ∧ st'.mixed = false ∧
      Inserted P node hashed (.leaf key' value') (join smtBit fuel level key value key' value') st' := by
  induction fuel generalizing level with
  | zero => exact absurd hdiff.fuel_pos (by omega)
  | succ fuel ih =>
    rw [splitBitsLoop_cons, splitBitsLoop_cons, commonPrefix] at hlen ⊢
    change vars.siblingsLen = level + (if smtBit key' level = smtBit key level then _
      else _ : List U256).length + 1 at hlen
    change ∃ st', insertLoop P vars level ((if smtBit key' level = smtBit key level then _
      else _ : List U256) ++ _) st = _ ∧ _
    rw [join]
    by_cases heq : smtBit key level = smtBit key' level
    · rw [if_pos heq.symm] at hlen ⊢
      rw [if_pos heq]
      rw [length_cons] at hlen
      have hnext : Differ smtBit (level + 1) fuel key key' := hdiff.next heq
      obtain ⟨st₁, hrun, hmixed₁, hins⟩ := ih (by omega) hnext (by omega)
      have hzero : vars.mixes level (treeHash P .empty).val = false := by
        simp [InsertVars.mixes, treeHash_empty]
      obtain ⟨st', hstep, hmixed', hins'⟩ := hins.extend hbits (by omega) hmixed₁ hzero
        (fun _ hx => absurd hx (Set.notMem_empty _)) (fun u hu hne => absurd hu hne) (fun u hne hu => absurd hu hne)
      refine ⟨st', ?_, hmixed', hins'⟩
      rw [cons_append, insertLoop, hrun, ok_bind, ← treeHash_empty P]
      exact hstep
    · rw [if_neg (Ne.symm heq)] at hlen ⊢
      rw [if_neg heq]
      have hlast : vars.mixes level (treeHash P (.leaf key' value')).val = false := by
        simp [InsertVars.mixes, InsertVars.isLastAddedLeaf, hone, hlen]
      obtain ⟨st', hstep, hmixed', hins'⟩ := hbase.extend hbits (by omega) hmixed hlast hknown
        hstored fun u _ _ => not_inner_leaf u
      exact ⟨st', hstep, hmixed', hins'⟩

theorem insertLoop_path (vars : InsertVars) (hS : Safe P { q | q ∈ hashed })
    (hbits : vars.keyBits = splitBits key.val) (t : Tree) (level : Nat) {fuel : Nat}
    (hfuel : level + fuel = 256) (hc : Canonical smtBit level t) (hkey : ∀ k ∈ keys t, Differ smtBit level fuel key k)
    (hknown : Known P { q | q ∈ hashed } t) (hstored : Stored P node t)
    (hfind : vars.findSiblings.drop level = (siblings smtBit (smtHasher P) key t level).map ZMod.val)
    (hadded : vars.addedOne = true →
      level + (siblings smtBit (smtHasher P) key t level).length < vars.siblingsLen)
    (hready : st.mixed = true ∨
      vars.addedOne = true ∧ ∃ k v, endpoint smtBit key t level = .leaf k v)
    (hbase : Inserted P node hashed (endpoint smtBit key t level)
      (insertAt smtBit key value (endpoint smtBit key t level)
        (fuel - (siblings smtBit (smtHasher P) key t level).length)
        (level + (siblings smtBit (smtHasher P) key t level).length)) st) :
    ∃ st', insertLoop P vars level ((siblings smtBit (smtHasher P) key t level).map ZMod.val) st =
        .ok st' ∧
      (st'.mixed = true ∨ vars.addedOne = true ∧ ∃ k v, t = .leaf k v) ∧
      Inserted P node hashed t (insertAt smtBit key value t fuel level) st' := by
  induction t, level using path_induction smtBit key generalizing fuel with
  | hempty level => exact ⟨st, rfl, hready, hbase⟩
  | hleaf k v level => exact ⟨st, rfl, hready, hbase⟩
  | hbranch c r level ih =>
    rw [siblings_branch] at hfind hadded hbase ⊢
    rw [endpoint_branch] at hready hbase
    rw [length_cons] at hadded hbase
    set n := (siblings smtBit (smtHasher P) key c (level + 1)).length with hn
    obtain ⟨-, -, hsize, hcC, -⟩ := hc.of_branch
    obtain ⟨hknownC, hknownR⟩ := hknown.children
    obtain ⟨hstoredC, hstoredR⟩ := hstored.children
    have hkeyC := differ_here hc hkey
    have hpos := fuel_pos_of_branch hc hkey
    have htail : vars.findSiblings.drop (level + 1) =
        (siblings smtBit (smtHasher P) key c (level + 1)).map ZMod.val := by
      rw [drop_add_one_eq_tail_drop, hfind, map_cons, tail_cons]
    have hhead : vars.findSiblings.getD level 0 = (treeHash P r).val := by
      have h0 := congrArg (fun l => l.getD 0 0) hfind
      simpa [getD_eq_getElem?_getD] using h0
    obtain ⟨st₁, hrun, hready₁, hins⟩ := ih (by omega : level + 1 + (fuel - 1) = 256) hcC hkeyC hknownC hstoredC
      htail (fun h => by have := hadded h; omega) hready
      (by rwa [show fuel - 1 - n = fuel - (n + 1) by omega,
        show level + 1 + n = level + (n + 1) by omega])
    have hlast : vars.isLastAddedLeaf level = false := by
      rw [InsertVars.isLastAddedLeaf, Bool.and_eq_false_iff, decide_eq_false_iff_not]
      by_cases h : vars.addedOne = true
      · have := hadded h
        exact .inr (by omega)
      · exact .inl (by simpa using h)
    have hmixed : st₁.mixed = true ∨ level < vars.siblingsLen - 1 ∧ (treeHash P r).val ≠ 0 := by
      refine hready₁.imp_right ?_
      rintro ⟨hone, k, v, rfl⟩
      have := hadded hone
      refine ⟨by omega, treeHash_ne_zero hS hknownR ?_⟩
      rintro rfl
      simp [entries] at hsize
    obtain ⟨st', hstep, hmix', hins'⟩ := hins.step hbits (by omega) hlast hmixed hhead hknownR
      hstoredR (fun hk => (hkeyC key hk).ne rfl)
      (fun hk => (hkey key (mem_keys_branch.mpr (.inr hk))).ne rfl)
      (fun u hne hu => subtree_insertAt hne hcC hkeyC hu)
      (fun u hne hu hinner => hc.apart hne hu hinner.1)
    refine ⟨st', ?_, .inl hmix', ?_⟩
    · rw [map_cons, insertLoop, hrun, ok_bind]
      exact hstep
    · rw [insertAt_branch]
      exact hins'

theorem insertLoop_append (level : Nat) (xs ys : List U256) :
    insertLoop P vars level (xs ++ ys) st =
      (insertLoop P vars (level + xs.length) ys st >>= insertLoop P vars level xs) := by
  induction xs generalizing level with
  | nil =>
    change insertLoop P vars level ys st = _
    cases insertLoop P vars level ys st <;> simp [insertLoop]
  | cons x xs ih =>
    rw [cons_append, insertLoop, ih, length_cons,
      show level + 1 + xs.length = level + (xs.length + 1) by omega]
    cases insertLoop P vars (level + (xs.length + 1)) ys st <;> simp [insertLoop]

end Insert

section InsertLeaf
variable {P : Permutation} {key value : F} {s : Storage} {t : Tree}

variable {hashed : List Query} {st : Rebuild}

theorem inserted_start {e : Tree}
    (hrt : st.rt = (treeHash P (.leaf key value)).val) (hrtOld : st.rtOld = (treeHash P e).val)
    (hnode' : st.node = update s.node (treeHash P (.leaf key value)).val
      (some (nodeData P (.leaf key value))))
    (hhashed : st.hashed = hashed ++ [.hash2 key value 1]) (hsub : ∀ q ∈ s.hashed, q ∈ hashed)
    (hknown : Known P { q | q ∈ s.hashed } e) (hend : ∀ w, ¬Inner e w) :
    Inserted P s.node s.hashed e (.leaf key value) st where
  rt := hrt
  rtOld := hrtOld
  knownOld := hknown.mono fun q hq => by simp [hhashed, hsub q hq]
  grows q hq := by simp [hhashed, hsub q hq]
  known := known_leaf (by simp [hhashed])
  stored Q _ _ u hu _ := by
    rw [show u = .leaf key value from hu, hnode', update_self]
  kept Q hQ hlog u _ hknown _ hu := by
    rw [hnode']
    exact update_kept hQ (known_leaf (hlog _ (by simp [hhashed]))) hknown hu
  only h hnode := by
    rw [hnode'] at hnode
    by_cases hself : h = (treeHash P (.leaf key value)).val
    · exact .inl ⟨_, .refl _, by simp, hself⟩
    · rw [update_of_ne hself] at hnode
      exact .inr ⟨hnode, fun w hw => absurd hw (hend w)⟩

variable {find : FindResult}

theorem finish_eq {keyBits : List Bool} {sibs : List U256}
    {addedOne mixed : Bool} {rtOld : U256} (hloop : insertLoop P
      { keyBits, findSiblings := find.siblings, siblingsLen := sibs.length, addedOne } 0 sibs
      { rt := (treeHash P (.leaf key value)).val, rtOld, mixed,
        node := update s.node (treeHash P (.leaf key value)).val
          (some (nodeData P (.leaf key value))),
        hashed := hashed ++ [.hash2 key value 1] } = .ok st) :
    insertLeaf.finish P key.val value.val s keyBits find sibs addedOne mixed rtOld hashed =
      .ok ((), st.commit s (.leafInserted key.val value.val)) := by
  rw [insertLeaf.finish, hashLeaf_val, ok_bind]
  change (insertLoop P _ 0 sibs _ >>= _) = _
  rw [show ([1, key.val, value.val] : List U256) = nodeData P (.leaf key value) from rfl, hloop]
  rfl

section
variable (hS : Safe P { q | q ∈ s.hashed }) (h : Represents P t s)
include hS h

theorem finish_empty
    (habsent : key ∉ keys t) (hend : endpoint smtBit key t 0 = .empty)
    (hfind : find.siblings = (siblings smtBit (smtHasher P) key t 0).map ZMod.val) :
    ∃ st, insertLeaf.finish P key.val value.val s (splitBits key.val) find find.siblings false
        (!find.siblings.isEmpty) 0 s.hashed =
          .ok ((), st.commit s (.leafInserted key.val value.val)) ∧
      Inserted P s.node s.hashed t (insertAt smtBit key value t 256 0) st := by
  have hkey := differ_of_absent habsent
  have hstart : Inserted P s.node s.hashed .empty (.leaf key value) {
      rt := (treeHash P (.leaf key value)).val, rtOld := 0, mixed := !find.siblings.isEmpty,
      node := update s.node (treeHash P (.leaf key value)).val
        (some (nodeData P (.leaf key value))),
      hashed := s.hashed ++ [.hash2 key value 1] } :=
    inserted_start rfl (treeHash_empty P).symm rfl rfl (fun _ hq => hq)
      (fun _ hx => absurd hx (Set.notMem_empty _)) (by rintro w ⟨rfl, _, _, hnode⟩; cases hnode)
  cases t with
  | empty =>
    refine ⟨_, finish_eq ?_, hstart⟩
    rw [hfind]
    rfl
  | leaf k v => cases hend
  | node left right =>
    have hmixed : (!find.siblings.isEmpty) = true := by
      rw [hfind]
      simp only [siblings]
      split <;> rfl
    obtain ⟨st, hloop, -, hins⟩ := insertLoop_path
      { keyBits := splitBits key.val, findSiblings := find.siblings,
        siblingsLen := find.siblings.length, addedOne := false } hS rfl (.node left right) 0
      (by omega) h.canonical hkey h.known h.stored hfind (fun hone => by cases hone) (.inl hmixed)
      (by rw [hend]; exact hstart)
    rw [← hfind] at hloop
    exact ⟨st, finish_eq hloop, hins⟩

theorem finish_collision
    (habsent : key ∉ keys t) {k v : F} (hend : endpoint smtBit key t 0 = .leaf k v)
    {sibs : List F} (hsibs : siblings smtBit (smtHasher P) key t 0 = sibs)
    (hfind : find.siblings = sibs.map ZMod.val) {zeros : List U256}
    (hzeros : zeros = commonPrefix ((splitBits k.val).drop sibs.length) ((splitBits key.val).drop sibs.length)) :
    ∃ st, insertLeaf.finish P key.val value.val s (splitBits key.val) find
        (find.siblings ++ zeros ++ [(treeHash P (.leaf k v)).val]) true false
        (treeHash P (.leaf k v)).val (s.hashed ++ [.hash2 k v 1]) =
          .ok ((), st.commit s (.leafInserted key.val value.val)) ∧
      Inserted P s.node s.hashed t (insertAt smtBit key value t 256 0) st := by
  have hkey := differ_of_absent habsent
  have hdepth := siblings_length_le (smtHasher P) h.canonical hkey
  have hdiff := differ_endpoint (smtHasher P) h.canonical hkey hend
  have hleaf : Subtree (.leaf k v) t := subtree_endpoint hend
  rw [hsibs] at hdepth hdiff
  rw [zero_add] at hdiff
  rw [splitBits_drop _ hdepth, splitBits_drop _ hdepth] at hzeros
  rw [append_assoc]
  have hlen : (find.siblings ++ (zeros ++ [(treeHash P (.leaf k v)).val])).length =
      sibs.length + zeros.length + 1 := by
    simp [hfind]
    omega
  have hstart : Inserted P s.node s.hashed (.leaf k v) (.leaf key value) {
      rt := (treeHash P (.leaf key value)).val, rtOld := (treeHash P (.leaf k v)).val,
      mixed := false,
      node := update s.node (treeHash P (.leaf key value)).val
        (some (nodeData P (.leaf key value))),
      hashed := s.hashed ++ [.hash2 k v 1] ++ [.hash2 key value 1] } :=
    inserted_start rfl rfl rfl rfl (fun q hq => by simp [hq]) (h.known.subtree hleaf) not_inner_leaf
  let vars : InsertVars :=
    { keyBits := splitBits key.val, findSiblings := find.siblings,
      siblingsLen := (find.siblings ++ (zeros ++ [(treeHash P (.leaf k v)).val])).length,
      addedOne := true }
  obtain ⟨st₁, hjoin, hmixed₁, hins₁⟩ := insertLoop_join vars rfl rfl (by omega) hdiff
    (by rw [← hzeros]; exact hlen) (h.known.subtree hleaf)
    (fun u hu hne => h.stored u (hu ▸ hleaf) hne) rfl hstart
  obtain ⟨st, hloop, -, hins⟩ := insertLoop_path vars hS rfl t 0 (by omega) h.canonical hkey
    h.known h.stored (by rw [hsibs]; exact hfind)
    (fun _ => by rw [hsibs]; exact lt_of_lt_of_eq (by omega) hlen.symm) (.inr ⟨rfl, k, v, hend⟩)
    (by rw [hend, hsibs, zero_add]; exact hins₁)
  refine ⟨st, finish_eq ?_, hins⟩
  rw [← hzeros] at hjoin
  rw [insertLoop_append, zero_add, hfind, length_map, ← hfind]
  change (insertLoop P vars _ _ _ >>= insertLoop P vars 0 _) = _
  rw [hjoin, ok_bind, hfind, ← hsibs]
  exact hloop

variable {authorized : Address → Bool} {admin : Address}

section
variable (hadmin : s.admin = some admin) (hauth : authorized admin = true)
include hadmin hauth

theorem insertLeaf_absent
    (value : F) (habsent : key ∉ keys t) :
    ∃ st, insertLeaf P authorized key.val value.val s =
        .ok ((), st.commit s (.leafInserted key.val value.val)) ∧
      Inserted P s.node s.hashed t (insertAt smtBit key value t 256 0) st := by
  rw [insertLeaf, hadmin, okOr_some, ok_bind, requireAuth, if_pos hauth, ok_bind, h.root, Option.getD_some]
  simp only [findKey_tree hS h key, ok_bind]
  rcases endpoint_cases smtBit key t 0 with hend | ⟨k, v, hend⟩
  · rw [hend, failIf_neg (by simp [findResult]), ok_bind]
    exact finish_empty hS h habsent hend rfl
  · have hne : k ≠ key := endpoint_ne habsent hend
    rw [hend, failIf_neg (by simp [findResult, hne]), ok_bind]
    simp only [findResult, hne, if_false, Bool.not_false, if_true, hashLeaf_val, ok_bind]
    exact finish_collision hS h habsent hend rfl rfl (by rw [length_map])

theorem insertLeaf_present
    (hkey : key ∈ keys t) (value : Nat) :
    insertLeaf P authorized key.val value s = .error (.error .keyAlreadyExists) := by
  obtain ⟨⟨k, v⟩, hmem, rfl⟩ := mem_map.mp hkey
  rw [insertLeaf, hadmin, okOr_some, ok_bind, requireAuth, if_pos hauth, ok_bind, h.root, Option.getD_some]
  simp only [findKey_tree hS h k, ok_bind]
  rw [findResult_found h.canonical hmem, failIf_pos rfl, error_bind]

end

end

end InsertLeaf

end PrivatePayments.Contracts.AspNonMembership

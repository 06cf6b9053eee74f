import PrivatePayments.Contracts.AspNonMembership

/-! The node store of the non-membership contract holds a sparse tree, and the
contract's operations are the operations of that tree. -/
namespace PrivatePayments.Contracts.AspNonMembership
open Lib Lib.SparseTree Function

abbrev Tree := SparseTree F F

def smtHasher (P : Permutation) : Hasher F F F where
  leaf key value := hash2 P key value 1
  inner := compress P
  zero := 0

def smtBit (key : F) (i : Nat) : Bool := key.val.testBit i

def smtQuery : Input F F F → Query
  | .leaf key value => .hash2 key value 1
  | .inner left right => .compress left right

abbrev treeHash (P : Permutation) (t : Tree) : F := hash (smtHasher P) t

def branchQuery (P : Permutation) (b : Bool) (here there : Tree) : Query :=
  if b then .compress (treeHash P there) (treeHash P here)
  else .compress (treeHash P here) (treeHash P there)

def nodeData (P : Permutation) : Tree → List U256
  | .empty => []
  | .leaf key value => [1, key.val, value.val]
  | .node left right => [(treeHash P left).val, (treeHash P right).val]

def Stored (P : Permutation) (node : U256 → Option (List U256)) (t : Tree) : Prop :=
  ∀ u, Subtree u t → u ≠ .empty → node (treeHash P u).val = some (nodeData P u)

def NodeOf (P : Permutation) (t : Tree) (h : U256) : Prop :=
  ∃ u, Subtree u t ∧ u ≠ .empty ∧ h = (treeHash P u).val

def Known (P : Permutation) (Q : Set Query) (t : Tree) : Prop :=
  ∀ input ∈ inputs (smtHasher P) t, smtQuery input ∈ Q

structure Safe (P : Permutation) (Q : Set Query) : Prop where
  collisionFree : CollisionFree P Q
  nonzero : Avoids P Q 0

variable {P : Permutation} {Q : Set Query} {t u : Tree}

variable {here there : Tree} {b : Bool}

section Hash

theorem smtQuery_injective : Injective smtQuery := by
  intro x y h
  cases x <;> cases y <;> simp_all [smtQuery]

theorem digest_smtQuery (input : Input F F F) : (smtHasher P).digest input = (smtQuery input).digest P := by
  cases input <;> rfl

theorem Safe.secure (h : Safe P Q) : Secure (smtHasher P) (Set.preimage smtQuery Q) where
  inj x hx y hy heq := by
    rw [digest_smtQuery, digest_smtQuery] at heq
    exact smtQuery_injective (h.collisionFree hx hy heq)
  nonzero x hx := by
    rw [digest_smtQuery]
    exact h.nonzero _ hx

theorem Safe.mono {Q R : Set Query} (h : Safe P Q) (hsub : R ⊆ Q) : Safe P R :=
  ⟨h.collisionFree.mono hsub, h.nonzero.mono hsub⟩

instance (qs : List Query) : Decidable (Safe P { q | q ∈ qs }) :=
  decidable_of_iff ((∀ q ∈ qs, ∀ q' ∈ qs, q.digest P = q'.digest P → q = q') ∧ ∀ q ∈ qs, q.digest P ≠ 0)
    ⟨fun h => ⟨fun q hq q' hq' => h.1 q hq q' hq', h.2⟩,
      fun h => ⟨fun _ hq _ hq' heq => h.collisionFree hq hq' heq, h.nonzero⟩⟩

theorem treeHash_val_inj (hQ : Safe P Q) (ht : Known P Q t) (hu : Known P Q u)
    (heq : (treeHash P t).val = (treeHash P u).val) : t = u :=
  hash_inj hQ.secure ht hu (ZMod.val_injective _ heq)

theorem Known.node {left right : Tree} (h : Known P Q (.node left right)) : Known P Q left ∧ Known P Q right :=
  ⟨fun _ hx => h _ (Set.mem_insert_of_mem _ (.inl hx)), fun _ hx => h _ (Set.mem_insert_of_mem _ (.inr hx))⟩

theorem Known.of_children (hhere : Known P Q here) (hthere : Known P Q there)
    (hq : branchQuery P b here there ∈ Q) : Known P Q (branch b here there) := by
  cases b with
  | false =>
    rintro _ (rfl | hx | hx)
    · exact hq
    · exact hhere _ hx
    · exact hthere _ hx
  | true =>
    rintro _ (rfl | hx | hx)
    · exact hq
    · exact hthere _ hx
    · exact hhere _ hx

theorem Known.children (h : Known P Q (branch b here there)) :
    Known P Q here ∧ Known P Q there := by
  cases b with
  | false => exact h.node
  | true => exact h.node.symm

theorem Known.mono {R : Set Query} (h : Known P Q t) (hsub : ∀ q ∈ Q, q ∈ R) : Known P R t :=
  fun x hx => hsub _ (h x hx)

theorem Known.subtree (h : Known P Q t) (hsub : Subtree u t) : Known P Q u :=
  fun x hx => h x (hsub.inputs_subset hx)

theorem treeHash_empty (P : Permutation) : (treeHash P .empty).val = 0 := ZMod.val_zero

theorem treeHash_ne_zero (hQ : Safe P Q) (ht : Known P Q t) (hne : t ≠ .empty) : (treeHash P t).val ≠ 0 := by
  intro h
  have hempty : Known P Q .empty := fun _ hx => absurd hx (Set.notMem_empty _)
  exact hne (treeHash_val_inj hQ ht hempty (h.trans (treeHash_empty P).symm))

end Hash

section Bits

theorem splitBitsLoop_cons (fuel level k : Nat) :
    splitBitsLoop (fuel + 1) (k / 2 ^ level) = k.testBit level :: splitBitsLoop fuel (k / 2 ^ (level + 1)) := by
  rw [splitBitsLoop, Nat.div_div_eq_div_mul, ← pow_succ, Nat.testBit_eq_decide_div_mod_eq]

theorem splitBitsLoop_getElem? (fuel level k i : Nat) (hi : i < fuel) :
    (splitBitsLoop fuel (k / 2 ^ level))[i]? = some (k.testBit (level + i)) := by
  induction fuel generalizing level i with
  | zero => omega
  | succ fuel ih =>
    rw [splitBitsLoop_cons]
    cases i with
    | zero => rfl
    | succ i =>
      rw [List.getElem?_cons_succ, ih (level + 1) i (by omega), show level + 1 + i = level + (i + 1) by omega]

theorem splitBits_getElem? (key : F) {i : Nat} (hi : i < 256) : (splitBits key.val)[i]? = some (smtBit key i) := by
  have h := splitBitsLoop_getElem? 256 0 key.val i hi
  simpa [splitBits, smtBit] using h

theorem splitBitsLoop_drop (fuel level k n : Nat) :
    (splitBitsLoop (n + fuel) (k / 2 ^ level)).drop n = splitBitsLoop fuel (k / 2 ^ (level + n)) := by
  induction n generalizing level with
  | zero => simp
  | succ n ih =>
    rw [show n + 1 + fuel = n + fuel + 1 by omega, splitBitsLoop_cons, List.drop_succ_cons, ih,
      show level + 1 + n = level + (n + 1) by omega]

theorem differ_of_ne {key key' : F} (h : key ≠ key') : Differ smtBit 0 256 key key' := by
  by_contra hall
  apply h
  apply ZMod.val_injective
  apply Nat.eq_of_testBit_eq
  intro i
  have hp : bn256Modulus < 2 ^ 256 := by decide
  by_cases hi : i < 256
  · by_contra hne
    exact hall ⟨i, by omega, by omega, hne⟩
  · have hpow : 2 ^ 256 ≤ 2 ^ i := Nat.pow_le_pow_right (by omega) (by omega)
    have hk := val_lt key
    have hk' := val_lt key'
    rw [Nat.testBit_lt_two_pow (by omega), Nat.testBit_lt_two_pow (by omega)]

end Bits

def findResult (key : F) (e : Tree) (siblings : List F) : FindResult :=
  match e with
  | .leaf k v =>
      if k = key then
        { found := true, siblings := siblings.map ZMod.val, foundValue := v.val, notFoundKey := 0,
          notFoundValue := 0, isOld0 := false }
      else
        { found := false, siblings := siblings.map ZMod.val, foundValue := 0, notFoundKey := k.val,
          notFoundValue := v.val, isOld0 := false }
  | _ => { found := false, siblings := siblings.map ZMod.val, foundValue := 0,
           notFoundKey := key.val, notFoundValue := 0, isOld0 := true }

variable {node : U256 → Option (List U256)}

section Find

theorem findResult_cons (key : F) (e : Tree) (sibling : F) (siblings : List F) :
    { findResult key e siblings with
      siblings := sibling.val :: (findResult key e siblings).siblings } =
      findResult key e (sibling :: siblings) := by
  cases e with
  | empty => rfl
  | leaf k v => by_cases h : k = key <;> simp [findResult, h]
  | node left right => rfl

theorem findResult_siblings (key : F) (e : Tree) (sibs : List F) :
    (findResult key e sibs).siblings = sibs.map ZMod.val := by
  unfold findResult
  split
  · split <;> rfl
  · rfl

theorem Stored.left {left right : Tree} (h : Stored P node (.node left right)) :
    Stored P node left := fun u hu hne => h u (.inr (.inl hu)) hne

theorem Stored.right {left right : Tree} (h : Stored P node (.node left right)) :
    Stored P node right := fun u hu hne => h u (.inr (.inr hu)) hne

theorem Stored.children
    (h : Stored P node (branch b here there)) : Stored P node here ∧ Stored P node there := by
  cases b with
  | false => exact ⟨h.left, h.right⟩
  | true => exact ⟨h.right, h.left⟩

theorem findAt_empty (key : F) (inner : U256 → U256 → Result FindResult) :
    findAt node key.val (treeHash P .empty).val inner = .ok (findResult key .empty []) := by
  rw [findAt, if_pos (treeHash_empty P)]
  rfl

theorem findAt_leaf (hQ : Safe P Q) {k v : F} (hknown : Known P Q (.leaf k v))
    (hstored : Stored P node (.leaf k v)) (key : F) (inner : U256 → U256 → Result FindResult) :
    findAt node key.val (treeHash P (.leaf k v)).val inner = .ok (findResult key (.leaf k v) []) := by
  rw [findAt, if_neg (treeHash_ne_zero hQ hknown (by simp)), hstored _ (.refl _) (by simp)]
  by_cases h : k = key
  · simp [nodeData, findResult, h, failIf_neg, pure, Except.pure]
  · have hval : k.val ≠ key.val := fun heq => h (ZMod.val_injective _ heq)
    simp [nodeData, findResult, h, hval, failIf_neg, pure, Except.pure]

theorem findAt_node (hQ : Safe P Q) {left right : Tree} (hknown : Known P Q (.node left right))
    (hstored : Stored P node (.node left right)) (key : F) (inner : U256 → U256 → Result FindResult) :
    findAt node key.val (treeHash P (.node left right)).val inner =
      inner (treeHash P left).val (treeHash P right).val := by
  rw [findAt, if_neg (treeHash_ne_zero hQ hknown (by simp)), hstored _ (.refl _) (by simp)]
  rfl

theorem findKeyInternal_eq (hQ : Safe P Q) {t : Tree} {fuel level : Nat}
    (hknown : Known P Q t) (hstored : Stored P node t) (hc : Canonical smtBit level t)
    (hdiff : t.keys.Pairwise (Differ smtBit level fuel)) (key : F) :
    findKeyInternal node key.val (splitBitsLoop fuel (key.val / 2 ^ level)) (treeHash P t).val =
      .ok (findResult key (endpoint smtBit key t level) (siblings smtBit (smtHasher P) key t level)) := by
  induction t generalizing fuel level with
  | empty =>
    cases fuel with
    | zero => exact findAt_empty key _
    | succ fuel => exact findAt_empty key _
  | leaf k v =>
    cases fuel with
    | zero => exact findAt_leaf hQ hknown hstored key _
    | succ fuel => exact findAt_leaf hQ hknown hstored key _
  | node left right ihl ihr =>
    obtain ⟨fuel, rfl⟩ : ∃ n, fuel = n + 1 :=
      ⟨fuel - 1, by have := fuel_pos_of_node hc hdiff; omega⟩
    have hpair := List.pairwise_append.mp ((keys_node left right) ▸ hdiff)
    have hleft : left.keys.Pairwise (Differ smtBit (level + 1) fuel) := pairwise_next hc.1 hpair.1
    have hright : right.keys.Pairwise (Differ smtBit (level + 1) fuel) := pairwise_next hc.2.1 hpair.2.1
    rw [splitBitsLoop_cons, findKeyInternal, findAt_node hQ hknown hstored, endpoint, siblings]
    change (do
      let result ← findKeyInternal node key.val (splitBitsLoop fuel (key.val / 2 ^ (level + 1)))
        (if smtBit key level then (treeHash P right).val else (treeHash P left).val)
      pure { result with siblings := (if smtBit key level then (treeHash P left).val
        else (treeHash P right).val) :: result.siblings }) = _
    cases hb : smtBit key level with
    | false =>
      simp only [Bool.false_eq_true, if_false]
      rw [ihl hknown.node.1 hstored.left hc.2.2.2.1 hleft, ok_bind, findResult_cons]
      rfl
    | true =>
      simp only [if_true]
      rw [ihr hknown.node.2 hstored.right hc.2.2.2.2 hright, ok_bind, findResult_cons]
      rfl

end Find

variable {b : Bool} {st : Rebuild}

section Build
variable {here there : Tree}

theorem hashInternal_branch (P : Permutation) (b : Bool) (here there : Tree) (hashed : List Query) :
    hashInternal P b (treeHash P there).val (treeHash P here).val hashed =
      .ok ((treeHash P (branch b here there)).val, hashed ++ [branchQuery P b here there]) := by
  cases b with
  | false => exact poseidon2Compress_val P (treeHash P here) (treeHash P there) hashed
  | true => exact poseidon2Compress_val P (treeHash P there) (treeHash P here) hashed

theorem buildNode_branch (b : Bool) (there : Tree) (hrt : st.rt = (treeHash P here).val) :
    buildNode P b (treeHash P there).val st = .ok { st with
      rt := (treeHash P (branch b here there)).val
      hashed := st.hashed ++ [branchQuery P b here there]
      node := update st.node (treeHash P (branch b here there)).val
        (some (nodeData P (branch b here there))) } := by
  rw [buildNode, hrt, hashInternal_branch, ok_bind]
  cases b with
  | false => simp [Rebuild.storeNode, branch, nodeData, pure, Except.pure]
  | true => simp [Rebuild.storeNode, branch, nodeData, pure, Except.pure]

end Build

section Store

theorem update_kept (hQ : Safe P Q) (ht : Known P Q t) (hu : Known P Q u)
    (h : node (treeHash P u).val = some (nodeData P u)) :
    update node (treeHash P t).val (some (nodeData P t)) (treeHash P u).val = some (nodeData P u) := by
  by_cases heq : (treeHash P u).val = (treeHash P t).val
  · rw [heq, update_self, treeHash_val_inj hQ hu ht heq]
  · rw [update_of_ne heq, h]

theorem remove_kept (hQ : Safe P Q) (ht : Known P Q t) (hu : Known P Q u) (hne : u ≠ t)
    (h : node (treeHash P u).val = some (nodeData P u)) :
    update node (treeHash P t).val none (treeHash P u).val = some (nodeData P u) := by
  rw [update_of_ne fun heq => hne (treeHash_val_inj hQ hu ht heq), h]

theorem NodeOf.mono {h : U256} (hof : NodeOf P t h) (hsub : ∀ {v : Tree}, Subtree v t → Subtree v u) :
    NodeOf P u h := by
  obtain ⟨v, hv, hne, rfl⟩ := hof
  exact ⟨v, hsub hv, hne, rfl⟩

theorem Stored.of_kept {node' : U256 → Option (List U256)} (h : Stored P node t)
    (hkept : ∀ u, Subtree u t → u ≠ .empty → node (treeHash P u).val = some (nodeData P u) →
      node' (treeHash P u).val = some (nodeData P u)) : Stored P node' t :=
  fun u hu hne => hkept u hu hne (h u hu hne)

theorem Stored.of_children (hhere : Stored P node here) (hthere : Stored P node there)
    (h : node (treeHash P (branch b here there)).val = some (nodeData P (branch b here there))) :
    Stored P node (branch b here there) := by
  intro u hu hne
  rcases subtree_branch hu with rfl | hu | hu
  · exact h
  · exact hhere u hu hne
  · exact hthere u hu hne

end Store

structure Represents (P : Permutation) (t : Tree) (s : Storage) : Prop where
  root : s.root = some (treeHash P t).val
  canonical : Canonical smtBit 0 t
  nodup : t.keys.Nodup
  known : Known P { q | q ∈ s.hashed } t
  stored : Stored P s.node t

theorem pairwise_differ {t : Tree} (h : t.keys.Nodup) : t.keys.Pairwise (Differ smtBit 0 256) :=
  List.Pairwise.imp differ_of_ne h

theorem differ_of_absent {t : Tree} {key : F} (h : key ∉ keys t) :
    ∀ k ∈ keys t, Differ smtBit 0 256 key k := fun _ hk =>
  differ_of_ne fun heq => h (heq ▸ hk)

theorem hashLeaf_val (P : Permutation) (key value : F) (hashed : List Query) :
    hashLeaf P key.val value.val hashed =
      .ok ((treeHash P (.leaf key value)).val, hashed ++ [.hash2 key value 1]) := by
  have hone : (1 : F).val = 1 := ZMod.val_one _
  have h := poseidon2Hash2_val (ε := Error) P key value 1 hashed
  rwa [hone] at h

theorem known_leaf {P : Permutation} {Q : Set Query} {key value : F}
    (h : .hash2 key value 1 ∈ Q) : Known P Q (.leaf key value) := by
  rintro _ rfl
  exact h

theorem splitBits_drop (k : Nat) {n : Nat} (hn : n ≤ 256) :
    (splitBits k).drop n = splitBitsLoop (256 - n) (k / 2 ^ n) := by
  have h := splitBitsLoop_drop (256 - n) 0 k n
  rwa [show n + (256 - n) = 256 by omega, Nat.zero_add, pow_zero, Nat.div_one] at h

def Rebuild.commit (st : Rebuild) (s : Storage) (event : U256 → Event) : Storage :=
  { s with
    root := some st.rt
    node := st.node
    hashed := st.hashed
    events := s.events ++ [event st.rt] }

/-- The loops have replaced what they take for the subtree `old` by `t'`; of the nodes that were
stored, those that are `gone` are removed. -/
structure Rebuilt (P : Permutation) (node : U256 → Option (List U256)) (hashed : List Query)
    (gone : Tree → Prop) (old t' : Tree) (st : Rebuild) : Prop where
  rt : st.rt = (treeHash P t').val
  rtOld : st.rtOld = (treeHash P old).val
  knownOld : Known P { q | q ∈ st.hashed } old
  grows : ∀ q ∈ hashed, q ∈ st.hashed
  known : Known P { q | q ∈ st.hashed } t'
  stored : ∀ Q, Safe P Q → (∀ q ∈ st.hashed, q ∈ Q) → Stored P st.node t'
  kept : ∀ Q, Safe P Q → (∀ q ∈ st.hashed, q ∈ Q) → ∀ u, u ≠ .empty → Known P Q u → ¬gone u →
    node (treeHash P u).val = some (nodeData P u) → st.node (treeHash P u).val = some (nodeData P u)
  only : ∀ x, st.node x ≠ none → NodeOf P t' x ∨ node x ≠ none ∧ ∀ w, gone w → x ≠ (treeHash P w).val

section Rebuilt
variable {hashed : List Query} {gone gone' : Tree → Prop} {old t' r : Tree}
  (h : Rebuilt P node hashed gone old t' st)
include h

theorem Rebuilt.widen (hless : ∀ w, gone w → gone' w)
    (hmore : ∀ w, gone' w → gone w ∨ w ≠ .empty ∧ Subtree w t') : Rebuilt P node hashed gone' old t' st where
  rt := h.rt
  rtOld := h.rtOld
  knownOld := h.knownOld
  grows := h.grows
  known := h.known
  stored := h.stored
  kept Q hQ hsub u hne hu hspared := h.kept Q hQ hsub u hne hu fun hgone => hspared (hless u hgone)
  only x hx := by
    rcases h.only x hx with hof | ⟨hbefore, hapart⟩
    · exact .inl hof
    by_cases hof : NodeOf P t' x
    · exact .inl hof
    refine .inr ⟨hbefore, fun w hw heq => ?_⟩
    rcases hmore w hw with hgone | ⟨hne, hw⟩
    · exact hapart w hgone heq
    · exact hof ⟨w, hw, hne, heq⟩

theorem Rebuilt.withMixed (mixed : Bool) : Rebuilt P node hashed gone old t' { st with mixed } :=
  ⟨h.rt, h.rtOld, h.knownOld, h.grows, h.known, h.stored, h.kept, h.only⟩

variable (hknownR : Known P { q | q ∈ hashed } r)
include hknownR

theorem Rebuilt.remove (hpart : ¬Subtree (branch b old r) t') :
    Rebuilt P node hashed (fun w => w = branch b old r ∨ gone w) (branch b old r) t'
      (st.removeOld (treeHash P (branch b old r)).val (st.hashed ++ [branchQuery P b old r])) := by
  have hlog : ∀ {Q : Set Query}, (∀ q ∈ st.hashed ++ [branchQuery P b old r], q ∈ Q) →
      (∀ q ∈ st.hashed, q ∈ Q) ∧ Known P Q (branch b old r) := by
    intro Q hQ
    have hst : ∀ q ∈ st.hashed, q ∈ Q := fun q hq => hQ q (by simp [hq])
    exact ⟨hst, (h.knownOld.mono hst).of_children (hknownR.mono fun q hq => hst q (h.grows q hq)) (hQ _ (by simp))⟩
  refine ⟨h.rt, rfl, (hlog fun _ hq => hq).2, fun q hq => by simp [Rebuild.removeOld, h.grows q hq],
    h.known.mono fun q hq => by simpa [Rebuild.removeOld] using .inl hq, ?_, ?_, ?_⟩
  · intro Q hQ hsub
    obtain ⟨hst, hold⟩ := hlog hsub
    refine (h.stored Q hQ hst).of_kept fun u hu _ hnode => ?_
    refine remove_kept hQ hold ((h.known.mono hst).subtree hu) ?_ hnode
    rintro rfl
    exact hpart hu
  · intro Q hQ hsub u hne hknownU hspared hnode
    obtain ⟨hst, hold⟩ := hlog hsub
    obtain ⟨hself, hspared⟩ := not_or.mp hspared
    exact remove_kept hQ hold hknownU hself (h.kept Q hQ hst u hne hknownU hspared hnode)
  · intro x hx
    dsimp only [Rebuild.removeOld] at hx
    by_cases hself : x = (treeHash P (branch b old r)).val
    · rw [hself, update_self] at hx
      exact absurd rfl hx
    rw [update_of_ne hself] at hx
    refine (h.only x hx).imp_right fun hbefore => ⟨hbefore.1, ?_⟩
    rintro w (rfl | hw)
    · exact hself
    · exact hbefore.2 w hw

theorem Rebuilt.build (b : Bool) (hstoredR : Stored P node r)
    (hspared : ∀ u, u ≠ .empty → Subtree u r → ¬gone u) :
    ∃ st', buildNode P b (treeHash P r).val st = .ok st' ∧ st'.mixed = st.mixed ∧
      Rebuilt P node hashed gone old (branch b t' r) st' := by
  refine ⟨_, buildNode_branch b r h.rt, rfl, ?_⟩
  have hlog : ∀ {Q : Set Query}, (∀ q ∈ st.hashed ++ [branchQuery P b t' r], q ∈ Q) →
      (∀ q ∈ st.hashed, q ∈ Q) ∧ Known P Q r ∧ Known P Q (branch b t' r) := by
    intro Q hQ
    have hst : ∀ q ∈ st.hashed, q ∈ Q := fun q hq => hQ q (by simp [hq])
    have hr : Known P Q r := hknownR.mono fun q hq => hst q (h.grows q hq)
    exact ⟨hst, hr, (h.known.mono hst).of_children hr (hQ _ (by simp))⟩
  refine ⟨rfl, h.rtOld, h.knownOld.mono fun q hq => by simpa using .inl hq,
    fun q hq => by simp [h.grows q hq], (hlog fun _ hq => hq).2.2, ?_, ?_, ?_⟩
  · intro Q hQ hsub
    obtain ⟨hst, hr, hnew⟩ := hlog hsub
    refine Stored.of_children ?_ ?_ (update_self _ _ _)
    · exact (h.stored Q hQ hst).of_kept fun u hu _ hnode =>
        update_kept hQ hnew ((h.known.mono hst).subtree hu) hnode
    · exact hstoredR.of_kept fun u hu hne hnode => update_kept hQ hnew (hr.subtree hu)
        (h.kept Q hQ hst u hne (hr.subtree hu) (hspared u hne hu) hnode)
  · intro Q hQ hsub u hne hknownU hspared hnode
    obtain ⟨hst, -, hnew⟩ := hlog hsub
    exact update_kept hQ hnew hknownU (h.kept Q hQ hst u hne hknownU hspared hnode)
  · intro x hx
    dsimp only at hx
    by_cases hself : x = (treeHash P (branch b t' r)).val
    · exact .inl ⟨_, .refl _, branch_not_empty _ _ _, hself⟩
    rw [update_of_ne hself] at hx
    exact (h.only x hx).imp_left fun hof => hof.mono subtree_branch_here

end Rebuilt

section Search
variable {key : F} {s : Storage} {t : Tree}

theorem findKey_tree (hS : Safe P { q | q ∈ s.hashed }) (h : Represents P t s) (key : F) :
    findKeyInternal s.node key.val (splitBits key.val) (treeHash P t).val =
      .ok (findResult key (endpoint smtBit key t 0) (siblings smtBit (smtHasher P) key t 0)) := by
  have hfind := findKeyInternal_eq hS h.known h.stored h.canonical (pairwise_differ h.nodup) key
  rwa [pow_zero, Nat.div_one] at hfind

theorem findResult_found {v : F} (hc : Canonical smtBit 0 t) (hmem : (key, v) ∈ t.entries)
    (sibs : List F) : findResult key (endpoint smtBit key t 0) sibs =
      { found := true, siblings := sibs.map ZMod.val, foundValue := v.val, notFoundKey := 0,
        notFoundValue := 0, isOld0 := false } := by
  rw [endpoint_of_mem hc hmem, findResult, if_pos rfl]

theorem findResult_absent (habsent : key ∉ keys t) (sibs : List F) :
    (findResult key (endpoint smtBit key t 0) sibs).found = false := by
  rcases endpoint_cases smtBit key t 0 with hend | ⟨k, v, hend⟩
  · rw [hend]
    rfl
  · have hne : k ≠ key := endpoint_ne habsent hend
    simp [hend, findResult, hne]

end Search

end PrivatePayments.Contracts.AspNonMembership

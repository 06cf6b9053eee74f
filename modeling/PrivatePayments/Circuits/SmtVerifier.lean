import PrivatePayments.Circuits.MerkleProof
import PrivatePayments.Contracts.NonMembership.Tree

/-! `circuits/src/smt/smtverifier.circom`: (non-)inclusion in a sparse tree for
a fixed number of levels.  The path, the level of insertion and the leaf found
there are all chosen by the prover. -/
namespace PrivatePayments.Circuits
open Lib.SparseTree Contracts.AspNonMembership
open List hiding Vector

/-- The signals of `SMTVerifierSM`; of an honest run exactly one is set. -/
structure SmtState where
  top : F
  i0 : F
  iold : F
  inew : F
  na : F

def SmtState.atTop : SmtState := ⟨1, 0, 0, 0, 0⟩

def SmtState.Done (st : SmtState) : Prop := st.na + st.iold + st.inew + st.i0 = 1

instance (st : SmtState) : Decidable st.Done := inferInstanceAs (Decidable (_ = _))

def smtVerifierSm (is0 levIns fnc : F) (prev : SmtState) : SmtState where
  top := prev.top - prev.top * levIns
  inew := prev.top * levIns - prev.top * levIns * fnc
  iold := prev.top * levIns * fnc * (1 - is0)
  i0 := prev.top * levIns * is0
  na := prev.na + prev.inew + prev.iold + prev.i0

/-- `SMTLevIns`: one at the level that has only zero siblings from itself on
and a parent with a sibling, the root counting as having such a parent. -/
def smtLevIns : Bool → List F → List F
  | _, [] => []
  | parent, sibling :: rest =>
      (if parent ∧ ∀ s ∈ sibling :: rest, s = 0 then 1 else 0) ::
        smtLevIns (decide (sibling ≠ 0)) rest

def smtVerifierLevel (P : Permutation) (st : SmtState)
    (sibling old1leaf new1leaf lrbit child : F) : F :=
  let sides := switcher lrbit child sibling
  compress P sides.1 sides.2 * st.top + old1leaf * st.iold + new1leaf * st.inew

/-- The loop over `sm`, which passes the state down, and the loop over `levels`,
which passes the root up, for the levels from `i` on: a sibling and `levIns` each. -/
def smtLoops (P : Permutation) (is0 fnc old1leaf new1leaf key : F) :
    Nat → SmtState → List (F × F) → SmtState × F
  | _, prev, [] => (prev, 0)
  | i, prev, (sibling, levIns) :: rest =>
      let st := smtVerifierSm is0 levIns fnc prev
      let below := smtLoops P is0 fnc old1leaf new1leaf key (i + 1) st rest
      (below.1, smtVerifierLevel P st sibling old1leaf new1leaf (num2Bits key i) below.2)

def smtLoopQueries (P : Permutation) (is0 fnc old1leaf new1leaf key : F) :
    Nat → SmtState → List (F × F) → List Query
  | _, _, [] => []
  | i, prev, (sibling, levIns) :: rest =>
      let st := smtVerifierSm is0 levIns fnc prev
      let below := smtLoops P is0 fnc old1leaf new1leaf key (i + 1) st rest
      let sides := switcher (num2Bits key i) below.2 sibling
      .compress sides.1 sides.2 ::
        smtLoopQueries P is0 fnc old1leaf new1leaf key (i + 1) st rest

/-- The input signals of `SMTVerifier(nLevels)`. -/
structure SmtSignals (nLevels : Nat) where
  enabled : F
  root : F
  siblings : Vector F nLevels
  oldKey : F
  oldValue : F
  isOld0 : F
  key : F
  value : F
  fnc : F

namespace SmtSignals
variable {nLevels : Nat} (P : Permutation) (x : SmtSignals nLevels)

def start : SmtState := ⟨x.enabled, 0, 0, 0, 1 - x.enabled⟩

def levels : List (F × F) := x.siblings.toList.zip (smtLevIns true x.siblings.toList)

theorem levels_length_le : x.levels.length ≤ nLevels := by
  rw [levels, length_zip, Vector.length_toList]
  exact min_le_left _ _

def run : SmtState × F :=
  smtLoops P x.isOld0 x.fnc (hash2 P x.oldKey x.oldValue 1) (hash2 P x.key x.value 1) x.key 0
    x.start x.levels

def queries : List Query :=
  .hash2 x.oldKey x.oldValue 1 :: .hash2 x.key x.value 1 ::
    smtLoopQueries P x.isOld0 x.fnc (hash2 P x.oldKey x.oldValue 1) (hash2 P x.key x.value 1) x.key
      0 x.start x.levels

end SmtSignals

structure SmtVerifier {nLevels : Nat} (P : Permutation) (x : SmtSignals nLevels) : Prop where
  lastSibling : ForceEqualIfEnabled x.enabled (x.siblings.toList.getLastD 0) 0
  states : (x.run P).1.Done
  keysOk : multiAnd [x.fnc, 1 - x.isOld0, isEqual x.oldKey x.key, x.enabled] = 0
  checkRoot : ForceEqualIfEnabled x.enabled (x.run P).2 x.root

instance {nLevels : Nat} (P : Permutation) (x : SmtSignals nLevels) : Decidable (SmtVerifier P x) :=
  decidable_of_iff (_ ∧ _ ∧ _ ∧ _)
    ⟨fun ⟨h₁, h₂, h₃, h₄⟩ => ⟨h₁, h₂, h₃, h₄⟩, fun ⟨h₁, h₂, h₃, h₄⟩ => ⟨h₁, h₂, h₃, h₄⟩⟩

variable {P : Permutation} {is0 old1leaf new1leaf key : F} {Q : Set Query}

section Sound

theorem smtLevIns_bit {levIns : F} (parent : Bool) (siblings : List F)
    (h : levIns ∈ smtLevIns parent siblings) : levIns = 0 ∨ levIns = 1 := by
  induction siblings generalizing parent with
  | nil => cases h
  | cons sibling rest ih =>
    rcases mem_cons.mp h with rfl | h
    · split
      · exact .inr rfl
      · exact .inl rfl
    · exact ih _ h

theorem smtQuery_stepInput (i : Nat) (child sibling : F) :
    smtQuery (stepInput (smtBit key i) child sibling) =
      .compress (switcher (num2Bits key i) child sibling).1 (switcher (num2Bits key i) child sibling).2 := by
  unfold stepInput smtBit num2Bits
  split <;> simp [smtQuery, switcher]

/-- Verification of non-inclusion from level `i` on: whichever levels count as
the level of insertion, the computed root is that of a proof that leaves a level
for it and whose last digest is zero or the old leaf. -/
theorem smtLoops_top {levels : List (F × F)} (hbit : ∀ l ∈ levels, l.2 = 0 ∨ l.2 = 1) {i : Nat}
    (hdone : (smtLoops P is0 1 old1leaf new1leaf key i .atTop levels).1.Done) :
    ∃ path, path.length < levels.length ∧
      (smtLoops P is0 1 old1leaf new1leaf key i .atTop levels).2 =
        proofRoot smtBit (smtHasher P) key (old1leaf * (1 - is0)) path i ∧
      ∀ input ∈ proofInputs smtBit (smtHasher P) key (old1leaf * (1 - is0)) path i,
        smtQuery input ∈ smtLoopQueries P is0 1 old1leaf new1leaf key i .atTop levels := by
  induction levels generalizing i with
  | nil => simp [smtLoops, SmtState.Done, SmtState.atTop] at hdone
  | cons level rest ih =>
    obtain ⟨sibling, levIns⟩ := level
    obtain ⟨hhere, hrest⟩ := forall_mem_cons.mp hbit
    rcases hhere with rfl | rfl
    · -- Still above the level of insertion: the state does not change.
      have hst : smtVerifierSm is0 0 1 .atTop = .atTop := by simp [smtVerifierSm, SmtState.atTop]
      simp only [smtLoops, smtLoopQueries, hst] at hdone ⊢
      obtain ⟨path, hlength, hroot, hin⟩ := ih hrest hdone
      refine ⟨sibling :: path, Nat.succ_lt_succ hlength, ?_, ?_⟩
      · rw [proofRoot, digest_smtQuery, smtQuery_stepInput, ← hroot]
        simp [smtVerifierLevel, SmtState.atTop]
      · intro input hmem
        rcases mem_cons.mp hmem with rfl | hmem
        · rw [smtQuery_stepInput, ← hroot]
          exact mem_cons_self
        · exact mem_cons_of_mem _ (hin input hmem)
    · -- The level of insertion: what is below no longer counts.
      refine ⟨[], Nat.succ_pos _, ?_, fun _ hmem => absurd hmem not_mem_nil⟩
      simp [smtLoops, smtVerifierLevel, smtVerifierSm, SmtState.atTop, proofRoot]

variable {nLevels : Nat} {x : SmtSignals nLevels}

theorem exists_last (hbit : Num2Bits 1 x.isOld0) (hfnc : x.fnc = 1) (henabled : x.enabled = 1) (h : SmtVerifier P x) :
    ∃ e : Tree, treeHash P e = hash2 P x.oldKey x.oldValue 1 * (1 - x.isOld0) ∧
      x.key ∉ e.keys ∧ (e = .empty ∨ e = .leaf x.oldKey x.oldValue) := by
  have hval : x.isOld0 = 0 ∨ x.isOld0 = 1 := by
    have hlt : x.isOld0.val < 2 := hbit
    rcases Nat.lt_succ_iff_lt_or_eq.mp hlt with h0 | h1
    · exact .inl ((ZMod.val_eq_zero _).mp (by omega))
    · exact .inr (ZMod.val_injective _ (h1.trans (ZMod.val_one _).symm))
  rcases hval with h0 | h1
  · refine ⟨.leaf x.oldKey x.oldValue, ?_, ?_, .inr rfl⟩
    · simp [h0, treeHash, Lib.SparseTree.hash, smtHasher]
    · have hkeys := h.keysOk
      intro hmem
      have hsame : x.key = x.oldKey := by simpa using hmem
      simp [multiAnd, hfnc, h0, hsame, isEqual, henabled] at hkeys
  · refine ⟨.empty, ?_, by simp, .inl rfl⟩
    simp [h1, treeHash, Lib.SparseTree.hash, smtHasher]

section
variable (hQ : Safe P Q) (h : SmtVerifier P x) (hbit : Num2Bits 1 x.isOld0) (hfnc : x.fnc = 1)
  (henabled : x.enabled = 1) (hq : ∀ q ∈ x.queries P, q ∈ Q)
include hQ h hbit hfnc henabled hq

/-- Non-inclusion verifies only where the path of the key is short enough, and
ends without the key. -/
theorem SmtVerifier.path {t : Tree} (hknown : Known P Q t) (hroot : x.root = treeHash P t) :
    x.key ∉ (endpoint smtBit x.key t 0).keys ∧ (siblings smtBit (smtHasher P) x.key t 0).length < nLevels := by
  obtain ⟨e, hlast, hkey, he⟩ := exists_last hbit hfnc henabled h
  have hend : e = .empty ∨ ∃ k v, e = .leaf k v := he.imp_right fun h => ⟨_, _, h⟩
  have heKnown : Known P Q e := by
    rcases he with rfl | rfl
    · exact fun _ hin => absurd hin (Set.notMem_empty _)
    · rintro _ rfl
      exact hq _ mem_cons_self
  have hstart : x.start = .atTop := by simp [SmtSignals.start, SmtState.atTop, henabled]
  have hrun : x.run P = smtLoops P x.isOld0 1 (hash2 P x.oldKey x.oldValue 1)
      (hash2 P x.key x.value 1) x.key 0 .atTop x.levels := by
    rw [SmtSignals.run, hfnc, hstart]
  have hbits : ∀ l ∈ x.levels, l.2 = 0 ∨ l.2 = 1 := by
    rintro ⟨sibling, levIns⟩ hl
    exact smtLevIns_bit true _ (of_mem_zip hl).2
  obtain ⟨path, hlength, hpath, hin⟩ := smtLoops_top hbits (hrun ▸ h.states)
  rw [← hlast] at hpath hin
  have hcheck : (x.run P).2 = x.root := h.checkRoot (by simp [henabled])
  have hinputs : ∀ input ∈ proofInputs smtBit (smtHasher P) x.key (treeHash P e) path 0,
      smtQuery input ∈ Q := by
    intro input hmem
    apply hq
    rw [SmtSignals.queries, hfnc, hstart]
    exact mem_cons_of_mem _ (mem_cons_of_mem _ (hin input hmem))
  have heq : proofRoot smtBit (smtHasher P) x.key (treeHash P e) path 0 = treeHash P t := by
    rw [← hpath, ← hrun, hcheck, hroot]
  obtain ⟨hfound, hsame⟩ := path_of_proofRoot hQ.secure heKnown hend hinputs hknown heq
  rw [hfound, hsame]
  exact ⟨hkey, hlength.trans_le (x.levels_length_le)⟩

theorem SmtVerifier.notMem {t : Tree}
    (hc : Canonical smtBit 0 t) (hknown : Known P Q t) (hroot : x.root = treeHash P t) : x.key ∉ t.keys := by
  intro hmem
  obtain ⟨⟨k, v⟩, hentry, hk⟩ := mem_map.mp hmem
  apply (h.path hQ hbit hfnc henabled hq hknown hroot).1
  rw [← hk, endpoint_of_mem hc hentry]
  simp

end

end Sound

section Below
variable {is0 fnc old1leaf new1leaf key : F} {prev : SmtState}

theorem smtVerifierSm_below (is0 fnc levIns : F) (htop : prev.top = 0) (hdone : prev.Done) :
    (smtVerifierSm is0 levIns fnc prev).top = 0 ∧ (smtVerifierSm is0 levIns fnc prev).Done := by
  constructor
  · simp [smtVerifierSm, htop]
  · unfold SmtState.Done at hdone ⊢
    rw [← hdone]
    simp only [smtVerifierSm, htop]
    ring

section
variable (levels : List (F × F)) (i : Nat) (htop : prev.top = 0) (hdone : prev.Done)
include levels i htop hdone

theorem smtLoops_below :
    (smtLoops P is0 fnc old1leaf new1leaf key i prev levels).1.Done ∧
      (smtLoops P is0 fnc old1leaf new1leaf key i prev levels).2 = 0 := by
  induction levels generalizing i prev with
  | nil => exact ⟨hdone, rfl⟩
  | cons level rest ih =>
    have hst := smtVerifierSm_below is0 fnc level.2 htop hdone
    refine ⟨(ih (i + 1) hst.1 hst.2).1, ?_⟩
    simp [smtLoops, smtVerifierLevel, smtVerifierSm, htop]

theorem smtLoopQueries_below
    (hzero : ∀ level ∈ levels, level.1 = 0) :
    ∀ q ∈ smtLoopQueries P is0 fnc old1leaf new1leaf key i prev levels, q = .compress 0 0 := by
  induction levels generalizing i prev with
  | nil => simp [smtLoopQueries]
  | cons level rest ih =>
    have hst := smtVerifierSm_below is0 fnc level.2 htop hdone
    rw [forall_mem_cons] at hzero
    intro q hq
    rcases mem_cons.mp hq with rfl | hq
    · rw [(smtLoops_below rest (i + 1) hst.1 hst.2).2, hzero.1]
      simp [switcher]
    · exact ih (i + 1) hst.1 hst.2 hzero.2 q hq

end

theorem done_first (is0 : F) : (⟨0, is0, 1 - is0, 0, 0⟩ : SmtState).Done := by
  simp [SmtState.Done]

end Below

section Complete

theorem smtLoops_padded {sibs : List F} (zeros : Nat) {parent : Bool} {i : Nat}
    (hparent : sibs = [] → parent = true) (hlast : ∀ last, sibs.getLast? = some last → last ≠ 0) :
    let levels := (sibs ++ List.replicate (zeros + 1) 0).zip
      (smtLevIns parent (sibs ++ List.replicate (zeros + 1) 0))
    (smtLoops P is0 1 old1leaf new1leaf key i .atTop levels).1.Done ∧
      (smtLoops P is0 1 old1leaf new1leaf key i .atTop levels).2 =
        proofRoot smtBit (smtHasher P) key (old1leaf * (1 - is0)) sibs i ∧
      ∀ q ∈ smtLoopQueries P is0 1 old1leaf new1leaf key i .atTop levels, q = .compress 0 0 ∨
        q ∈ (proofInputs smtBit (smtHasher P) key (old1leaf * (1 - is0)) sibs i).map smtQuery := by
  induction sibs generalizing parent i with
  | nil =>
    have hins : smtLevIns parent (List.replicate (zeros + 1) 0) =
        1 :: smtLevIns false (List.replicate zeros 0) := by
      rw [hparent rfl, replicate_succ, smtLevIns, if_pos (by simp)]
      simp
    have hst : smtVerifierSm is0 1 1 .atTop = ⟨0, is0, 1 - is0, 0, 0⟩ := by
      simp [smtVerifierSm, SmtState.atTop]
    simp only [nil_append]
    rw [hins, replicate_succ, zip_cons_cons]
    simp only [smtLoops, smtLoopQueries, hst]
    refine ⟨(smtLoops_below _ _ rfl (done_first is0)).1, by simp [smtVerifierLevel, proofRoot], fun q hq => .inl ?_⟩
    rcases mem_cons.mp hq with rfl | hq
    · rw [(smtLoops_below _ _ rfl (done_first is0)).2]
      simp [switcher]
    · refine smtLoopQueries_below _ _ rfl (done_first is0) (fun level hlevel => ?_) q hq
      exact eq_of_mem_replicate (of_mem_zip hlevel).1
  | cons sibling rest ih =>
    have hne : ¬∀ s ∈ sibling :: (rest ++ List.replicate (zeros + 1) 0), s = 0 := by
      intro hzero
      have hmem := getLast_mem (cons_ne_nil sibling rest)
      apply hlast _ (getLast?_eq_some_getLast (cons_ne_nil sibling rest))
      apply hzero
      rw [← cons_append]
      exact mem_append_left _ hmem
    have hst : smtVerifierSm is0 0 1 .atTop = .atTop := by simp [smtVerifierSm, SmtState.atTop]
    have hrest := @ih (decide (sibling ≠ 0)) (i + 1) (fun hnil => by
        have hsibling := hlast sibling (by rw [hnil]; rfl)
        simpa using hsibling)
      (fun last hl => hlast last (by
        rw [getLast?_cons_of_ne_nil (by rintro rfl; cases hl), hl]))
    have hins : ¬(parent = true ∧ ∀ s ∈ sibling :: (rest ++ List.replicate (zeros + 1) 0), s = 0) := fun h => hne h.2
    simp only [cons_append, smtLevIns, zip_cons_cons, smtLoops, smtLoopQueries, if_neg hins, hst]
    refine ⟨hrest.1, ?_, fun q hq => ?_⟩
    · rw [hrest.2.1, proofRoot, digest_smtQuery, smtQuery_stepInput]
      simp [smtVerifierLevel, SmtState.atTop]
    · rcases mem_cons.mp hq with rfl | hq
      · rw [hrest.2.1, ← smtQuery_stepInput]
        exact .inr mem_cons_self
      · exact (hrest.2.2 q hq).imp_right (mem_cons_of_mem _)

section
variable {nLevels zeros : Nat} {x : SmtSignals nLevels} {sibs : List F}
  (henabled : x.enabled = 1) (hfnc : x.fnc = 1)
  (hsiblings : x.siblings.toList = sibs ++ List.replicate (zeros + 1) 0)
  (hlast : ∀ last, sibs.getLast? = some last → last ≠ 0)
include henabled hfnc hsiblings hlast

theorem SmtSignals.queries_padded {q : Query} (hq : q ∈ x.queries P) :
    q = .hash2 x.oldKey x.oldValue 1 ∨ q = .hash2 x.key x.value 1 ∨ q = .compress 0 0 ∨
      q ∈ (proofInputs smtBit (smtHasher P) x.key (hash2 P x.oldKey x.oldValue 1 * (1 - x.isOld0)) sibs 0).map
        smtQuery := by
  have hstart : x.start = .atTop := by simp [SmtSignals.start, SmtState.atTop, henabled]
  rcases mem_cons.mp hq with hold | hq
  · exact .inl hold
  rcases mem_cons.mp hq with hnew | hq
  · exact .inr (.inl hnew)
  rw [hfnc, hstart, SmtSignals.levels, hsiblings] at hq
  exact .inr (.inr ((smtLoops_padded zeros (fun _ => rfl) hlast).2.2 q hq))

theorem SmtVerifier.complete (hkey : x.isOld0 = 1 ∨ x.oldKey ≠ x.key)
    (hroot : x.root = proofRoot smtBit (smtHasher P) x.key
      (hash2 P x.oldKey x.oldValue 1 * (1 - x.isOld0)) sibs 0) : SmtVerifier P x := by
  have hstart : x.start = .atTop := by simp [SmtSignals.start, SmtState.atTop, henabled]
  have hloops := @smtLoops_padded P x.isOld0 (hash2 P x.oldKey x.oldValue 1)
    (hash2 P x.key x.value 1) x.key sibs zeros true 0 (fun _ => rfl) hlast
  rw [← hsiblings] at hloops
  refine ⟨?_, ?_, ?_, ?_⟩
  · intro _
    rw [hsiblings, replicate_succ', ← append_assoc]
    simp
  · rw [SmtSignals.run, hfnc, hstart]
    exact hloops.1
  · rcases hkey with h1 | hne
    · simp [multiAnd, h1]
    · simp [multiAnd, isEqual, hne]
  · intro _
    rw [SmtSignals.run, hfnc, hstart, hroot]
    exact hloops.2.1

end

/-- The signals of a non-inclusion proof without siblings, beside one entry or none. -/
structure SmtSignals.Shallow (P : Permutation) {nLevels : Nat} (x : SmtSignals (nLevels + 1)) : Prop where
  enabled : x.enabled = 1
  fnc : x.fnc = 1
  siblings : x.siblings.toList = List.replicate (nLevels + 1) 0
  other : x.isOld0 = 1 ∨ x.oldKey ≠ x.key
  root : x.root = hash2 P x.oldKey x.oldValue 1 * (1 - x.isOld0)

section
variable {nLevels : Nat} {x : SmtSignals (nLevels + 1)}

theorem queries_of_zero (henabled : x.enabled = 1) (hfnc : x.fnc = 1)
    (hsiblings : x.siblings.toList = List.replicate (nLevels + 1) 0) {q : Query} (hq : q ∈ x.queries P) :
    q = .hash2 x.oldKey x.oldValue 1 ∨ q = .hash2 x.key x.value 1 ∨ q = .compress 0 0 := by
  have hcases := @SmtSignals.queries_padded P _ nLevels x [] henabled hfnc hsiblings nofun q hq
  rwa [proofInputs, map_nil, or_iff_left not_mem_nil] at hcases

theorem SmtSignals.Shallow.verified (h : x.Shallow P) : SmtVerifier P x :=
  @SmtVerifier.complete P _ nLevels x [] h.enabled h.fnc h.siblings nofun h.other h.root

end

end Complete

section Exact
variable {nLevels : Nat} {t : Tree}

def SmtSignals.EndsAt (x : SmtSignals nLevels) (e : Tree) : Prop :=
  x.isOld0 = 1 ∧ e = .empty ∨ x.isOld0 = 0 ∧ e = .leaf x.oldKey x.oldValue

theorem SmtSignals.EndsAt.last {x : SmtSignals nLevels} {e : Tree} (h : x.EndsAt e) :
    hash2 P x.oldKey x.oldValue 1 * (1 - x.isOld0) = treeHash P e := by
  rcases h with ⟨hold, rfl⟩ | ⟨hold, rfl⟩ <;> simp [hold, treeHash, Lib.SparseTree.hash, smtHasher]

theorem SmtVerifier.of_search {x : SmtSignals nLevels} (hQ : Safe P Q) (hc : Canonical smtBit 0 t)
    (hknown : Known P Q t) (henabled : x.enabled = 1) (hfnc : x.fnc = 1) (hroot : x.root = treeHash P t)
    (habsent : x.key ∉ t.keys) (hend : x.EndsAt (endpoint smtBit x.key t 0))
    (hshort : (siblings smtBit (smtHasher P) x.key t 0).length < nLevels)
    (hsiblings : x.siblings.toList = siblings smtBit (smtHasher P) x.key t 0 ++
      List.replicate (nLevels - (siblings smtBit (smtHasher P) x.key t 0).length) 0) : SmtVerifier P x := by
  obtain ⟨zeros, hzeros⟩ : ∃ zeros,
      nLevels - (siblings smtBit (smtHasher P) x.key t 0).length = zeros + 1 :=
    ⟨_, (Nat.succ_pred_eq_of_pos (by omega)).symm⟩
  rw [hzeros] at hsiblings
  refine SmtVerifier.complete henabled hfnc hsiblings ?_ ?_ ?_
  · intro last hlast
    exact siblings_getLast?_ne_zero hQ.secure hc hknown hlast
  · exact hend.imp (fun h => h.1) fun h => endpoint_ne habsent h.2
  · rw [hend.last, proofRoot_siblings]
    exact hroot

/-- What the search for a key finds, as signals: the path padded with zeros and its end. -/
def searchSignals (P : Permutation) (nLevels : Nat) (t : Tree) (key value : F) : SmtSignals nLevels where
  enabled := 1
  root := treeHash P t
  siblings := Vector.ofFn fun i => (siblings smtBit (smtHasher P) key t 0).getD i.1 0
  oldKey := match endpoint smtBit key t 0 with | .leaf k _ => k | _ => 0
  oldValue := match endpoint smtBit key t 0 with | .leaf _ v => v | _ => 0
  isOld0 := match endpoint smtBit key t 0 with | .leaf _ _ => 0 | _ => 1
  key := key
  value := value
  fnc := 1

theorem searchSignals_endsAt (nLevels : Nat) (key value : F) :
    (searchSignals P nLevels t key value).EndsAt (endpoint smtBit key t 0) := by
  unfold SmtSignals.EndsAt searchSignals
  rcases endpoint_cases smtBit key t 0 with hend | ⟨k, v, hend⟩ <;> simp [hend]

theorem searchSignals_siblings {key : F} (value : F)
    (hle : (siblings smtBit (smtHasher P) key t 0).length ≤ nLevels) :
    (searchSignals P nLevels t key value).siblings.toList = siblings smtBit (smtHasher P) key t 0 ++
      List.replicate (nLevels - (siblings smtBit (smtHasher P) key t 0).length) 0 := by
  apply ext_getElem
  · simp only [Vector.length_toList, length_append, length_replicate]
    omega
  · intro i hi hi'
    simp only [searchSignals, Vector.getElem_toList, Vector.getElem_ofFn, getElem_append, getElem_replicate]
    split
    · exact getD_eq_getElem _ _ _
    · exact getD_eq_default _ _ (by omega)

/-- Non-inclusion of a key in a tree can be verified if and only if the key is not there and its
path ends above the last level, provided that `isOld0` is a bit. -/
theorem nonInclusion_exact (hQ : Safe P Q) (hc : Canonical smtBit 0 t) (hknown : Known P Q t) (key value : F)
    (hsearch : ∀ q ∈ (searchSignals P nLevels t key value).queries P, q ∈ Q) :
    (∃ x : SmtSignals nLevels, x.fnc = 1 ∧ x.enabled = 1 ∧ x.root = treeHash P t ∧ x.key = key ∧
        x.value = value ∧ (x.isOld0 = 0 ∨ x.isOld0 = 1) ∧ (∀ q ∈ x.queries P, q ∈ Q) ∧ SmtVerifier P x) ↔
      key ∉ t.keys ∧ searchDepth smtBit key t 0 < nLevels := by
  rw [← siblings_length (smtHasher P)]
  constructor
  · rintro ⟨x, hfnc, henabled, hroot, rfl, -, hbit, hqueries, hverified⟩
    have hbits : Num2Bits 1 x.isOld0 := by
      rcases hbit with h | h <;> rw [h] <;> decide
    exact ⟨hverified.notMem hQ hbits hfnc henabled hqueries hc hknown hroot,
      (hverified.path hQ hbits hfnc henabled hqueries hknown hroot).2⟩
  · rintro ⟨habsent, hshort⟩
    have hend := searchSignals_endsAt (P := P) (t := t) nLevels key value
    refine ⟨searchSignals P nLevels t key value, rfl, rfl, rfl, rfl, rfl, ?_, hsearch, ?_⟩
    · exact hend.symm.imp And.left And.left
    · exact .of_search hQ hc hknown rfl rfl rfl habsent hend hshort (searchSignals_siblings value hshort.le)

def singleTable : List (Query × F) :=
  [(.hash2 1 5 1, 7), (.hash2 5 6 1, 1), (.compress 0 0, 3), (.hash2 2 2 1, 4)]

theorem single_safe : Safe (tablePermutation singleTable) { q | q ∈ singleTable.map Prod.fst } := by
  decide

theorem single_known : Known (tablePermutation singleTable) { q | q ∈ singleTable.map Prod.fst } (.leaf 1 5) := by
  rintro _ rfl
  exact mem_cons_self

theorem single_queries {x : SmtSignals 2} (henabled : x.enabled = 1) (hfnc : x.fnc = 1)
    (hsiblings : x.siblings.toList = [0, 0]) (hold : x.oldKey = 1 ∧ x.oldValue = 5 ∨ x.oldKey = 5 ∧ x.oldValue = 6)
    (hkey : x.key = 1 ∧ x.value = 5 ∨ x.key = 2 ∧ x.value = 2) :
    ∀ q ∈ x.queries (tablePermutation singleTable), q ∈ singleTable.map Prod.fst := by
  intro q hq
  rcases queries_of_zero henabled hfnc hsiblings hq with rfl | rfl | rfl
  · rcases hold with ⟨hkey, hvalue⟩ | ⟨hkey, hvalue⟩ <;> simp [hkey, hvalue, singleTable]
  · rcases hkey with ⟨hkey, hvalue⟩ | ⟨hkey, hvalue⟩ <;> simp [hkey, hvalue, singleTable]
  · simp [singleTable]

theorem nonInclusion_beside_one : ∃ x : SmtSignals 2, x.key = 2 ∧
    x.root = treeHash (tablePermutation singleTable) (.leaf 1 5) ∧ SmtVerifier (tablePermutation singleTable) x := by
  have hexact := @nonInclusion_exact (tablePermutation singleTable) _ 2 (.leaf 1 5) single_safe trivial
    single_known 2 2 (single_queries rfl rfl rfl (.inl ⟨rfl, rfl⟩) (.inr ⟨rfl, rfl⟩))
  obtain ⟨x, -, -, hroot, hkey, -, -, -, hverified⟩ := hexact.mpr ⟨by decide, by decide⟩
  exact ⟨x, hkey, hroot, hverified⟩

/-- The template itself does not ask for a bit: with another `isOld0` the old leaf, scaled, is
taken for the leaf of a key that is in the tree. -/
def scaledOldLeaf : SmtSignals 2 where
  enabled := 1
  root := 7
  siblings := #v[0, 0]
  oldKey := 5
  oldValue := 6
  isOld0 := -6
  key := 1
  value := 5
  fnc := 1

theorem scaledOldLeaf_verified : SmtVerifier (tablePermutation singleTable) scaledOldLeaf := by
  have hold : hash2 (tablePermutation singleTable) 5 6 1 = 1 := by decide
  refine @SmtVerifier.complete _ 2 1 scaledOldLeaf [] rfl rfl rfl (by simp) (.inr (by decide)) ?_
  change (7 : F) = hash2 (tablePermutation singleTable) 5 6 1 * (1 - -6)
  rw [hold]
  norm_num

theorem nonInclusion_of_present : ∃ (P : Permutation) (Q : Set Query) (t : Tree) (x : SmtSignals 2),
    Safe P Q ∧ Canonical smtBit 0 t ∧ Known P Q t ∧ (∀ q ∈ x.queries P, q ∈ Q) ∧
      x.fnc = 1 ∧ x.enabled = 1 ∧ x.root = treeHash P t ∧ x.key ∈ t.keys ∧ SmtVerifier P x :=
  ⟨tablePermutation singleTable, { q | q ∈ singleTable.map Prod.fst }, .leaf 1 5, scaledOldLeaf, single_safe,
    trivial, single_known, single_queries rfl rfl rfl (.inr ⟨rfl, rfl⟩) (.inl ⟨rfl, rfl⟩), rfl, rfl, by decide,
    by decide, scaledOldLeaf_verified⟩

end Exact

end PrivatePayments.Circuits

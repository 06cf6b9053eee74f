import PrivatePayments.Circuits.PolicyTransaction
import PrivatePayments.Contracts.NonMembership.Verify
import PrivatePayments.Sdk.Events

/-! `get_nonmembership_proof` of `stellar/src/contract_state.rs`: the client's
side of a non-membership proof. -/
namespace PrivatePayments.Sdk
open Contracts Contracts.AspNonMembership Circuits Lib Lib.SparseTree List

structure AspNonMembershipProof where
  key : F
  oldKey : F
  oldValue : F
  isOld0 : Bool
  siblings : List F
  root : F

structure ParsedFindResult where
  found : Bool
  siblings : List F
  notFoundKey : F
  notFoundValue : F
  isOld0 : Bool

inductive ProofError where
  | smtDepthZero
  | noteKeyOutOfRange
  | simulation (e : Abort AspNonMembership.Error)
  | findResult (e : ParseError)
  | sanctioned

def parseFindResult (result : FindResult) : Except ParseError ParsedFindResult := do
  let siblings ← result.siblings.mapM fieldTryFromU256
  let notFoundKey ← fieldTryFromU256 result.notFoundKey
  let notFoundValue ← fieldTryFromU256 result.notFoundValue
  return { found := result.found, siblings, notFoundKey, notFoundValue, isOld0 := result.isOld0 }

def padOrTrim (siblings : List F) (smtDepth : Nat) : List F :=
  if siblings.length < smtDepth then
    siblings ++ List.replicate (smtDepth - siblings.length) 0
  else if siblings.length > smtDepth then siblings.take smtDepth
  else siblings

/-- `contract` is the state of the contract when `find_key` is simulated. -/
def getNonmembershipProof (contract : Storage) (notePubkey : Bytes) (nonMembershipRoot : F)
    (smtDepth : Nat) : Except ProofError AspNonMembershipProof :=
  if smtDepth = 0 then .error .smtDepthZero
  else
    match tryFromLeBytes notePubkey with
    | none => .error .noteKeyOutOfRange
    | some key =>
      if nonMembershipRoot = 0 then
        .ok { key, oldKey := 0, oldValue := 0, isOld0 := true,
              siblings := List.replicate smtDepth 0, root := 0 }
      else do
        let result ← (findKey key.val contract).mapError .simulation
        let parsed ← (parseFindResult result).mapError .findResult
        if parsed.found then .error .sanctioned
        else
          return { key, oldKey := parsed.notFoundKey, oldValue := parsed.notFoundValue,
                   isOld0 := parsed.isOld0, siblings := padOrTrim parsed.siblings smtDepth,
                   root := nonMembershipRoot }

def AspNonMembershipProof.circuitProof {nLevels : Nat} (proof : AspNonMembershipProof)
    (h : proof.siblings.length = nLevels) : NonMembershipProof nLevels where
  key := proof.key
  siblings := ⟨proof.siblings.toArray, by simpa using h⟩
  oldKey := proof.oldKey
  oldValue := proof.oldValue
  isOld0 := if proof.isOld0 then 1 else 0

def AspNonMembershipProof.signals {nLevels : Nat} (proof : AspNonMembershipProof)
    (h : proof.siblings.length = nLevels) : SmtSignals nLevels :=
  (proof.circuitProof h).signals proof.root

theorem padOrTrim_length (siblings : List F) (smtDepth : Nat) : (padOrTrim siblings smtDepth).length = smtDepth := by
  unfold padOrTrim
  split
  · simp only [length_append, length_replicate]
    omega
  · split
    · simp only [length_take]
      omega
    · omega

theorem mapM_fieldTryFromU256 (xs : List F) : (xs.map ZMod.val).mapM fieldTryFromU256 = .ok xs := by
  induction xs with
  | nil => rfl
  | cons x xs ih =>
    rw [map_cons, mapM_cons, ih, fieldTryFromU256, tryFromU256_val]
    rfl

section Client
variable {P : Permutation} {s : Storage} {t : Tree} {key : F}

def AspNonMembershipProof.EndsAt (proof : AspNonMembershipProof) (e : Tree) : Prop :=
  proof.isOld0 = true ∧ e = .empty ∨ proof.isOld0 = false ∧ e = .leaf proof.oldKey proof.oldValue

theorem parseFindResult_empty (key : F) (sibs : List F) :
    parseFindResult (findResult key .empty sibs) = .ok ⟨false, sibs, key, 0, true⟩ := by
  simp only [parseFindResult, findResult, mapM_fieldTryFromU256, ok_bind, fieldTryFromU256, tryFromU256_val]
  rfl

theorem parseFindResult_leaf {k v : F} (hne : k ≠ key) (sibs : List F) :
    parseFindResult (findResult key (.leaf k v) sibs) = .ok ⟨false, sibs, k, v, false⟩ := by
  simp only [parseFindResult, findResult, hne, if_false, mapM_fieldTryFromU256, ok_bind,
    fieldTryFromU256, tryFromU256_val]
  rfl

theorem getNonmembershipProof_absent (hS : Safe P { q | q ∈ s.hashed }) (h : Represents P t s)
    (habsent : key ∉ keys t) {smtDepth : Nat} (hdepth : smtDepth ≠ 0) :
    ∃ proof, getNonmembershipProof s (toLeBytes key) (treeHash P t) smtDepth = .ok proof ∧
      proof.key = key ∧ proof.root = treeHash P t ∧
      proof.siblings = padOrTrim (siblings smtBit (smtHasher P) key t 0) smtDepth ∧
      proof.EndsAt (endpoint smtBit key t 0) := by
  unfold getNonmembershipProof
  rw [if_neg hdepth, tryFromLeBytes_toLeBytes]
  dsimp only
  by_cases hroot : treeHash P t = 0
  · have hempty : t = .empty := by
      by_contra hne
      exact treeHash_ne_zero hS h.known hne (by rw [hroot, ZMod.val_zero])
    subst hempty
    rw [if_pos hroot]
    refine ⟨_, rfl, rfl, hroot.symm, ?_, .inl ⟨rfl, rfl⟩⟩
    simp [padOrTrim, siblings, Nat.pos_of_ne_zero hdepth]
  · have hfind : findKey key.val s = .ok (findResult key (endpoint smtBit key t 0)
        (siblings smtBit (smtHasher P) key t 0)) := by
      rw [findKey, h.root, Option.getD_some, findKey_tree hS h]
    rw [if_neg hroot, hfind]
    simp only [Except.mapError, ok_bind]
    rcases endpoint_cases smtBit key t 0 with hend | ⟨k, v, hend⟩
    · rw [hend, parseFindResult_empty]
      exact ⟨_, rfl, rfl, rfl, rfl, .inl ⟨rfl, rfl⟩⟩
    · have hne : k ≠ key := endpoint_ne habsent hend
      rw [hend, parseFindResult_leaf hne]
      exact ⟨_, rfl, rfl, rfl, rfl, .inr ⟨rfl, rfl⟩⟩

variable {nLevels : Nat} {proof : AspNonMembershipProof}

theorem AspNonMembershipProof.signals_isOld0 (h : proof.siblings.length = nLevels) :
    (proof.signals h).isOld0 = if proof.isOld0 then 1 else 0 := by
  change num2Bits (if proof.isOld0 then 1 else 0) 0 = _
  cases proof.isOld0 <;> decide

theorem AspNonMembershipProof.EndsAt.signals {e : Tree} (hend : proof.EndsAt e)
    (h : proof.siblings.length = nLevels) : (proof.signals h).EndsAt e := by
  unfold SmtSignals.EndsAt
  rw [AspNonMembershipProof.signals_isOld0 h]
  rcases hend with ⟨hold, rfl⟩ | ⟨hold, rfl⟩
  · simp [hold]
  · simp [hold, AspNonMembershipProof.signals, AspNonMembershipProof.circuitProof, NonMembershipProof.signals]

theorem AspNonMembershipProof.signals_siblings (h : proof.siblings.length = nLevels) :
    (proof.signals h).siblings.toList = proof.siblings := by
  simp [AspNonMembershipProof.signals, AspNonMembershipProof.circuitProof, NonMembershipProof.signals, Vector.toList]

theorem smtVerifier_of_short {Q : Set Query} (hQ : Safe P Q) (hc : Canonical smtBit 0 t)
    (hknown : Known P Q t) (habsent : proof.key ∉ keys t) (hroot : proof.root = treeHash P t)
    (hend : proof.EndsAt (endpoint smtBit proof.key t 0))
    (hsiblings : proof.siblings = padOrTrim (siblings smtBit (smtHasher P) proof.key t 0) nLevels)
    (hshort : (siblings smtBit (smtHasher P) proof.key t 0).length < nLevels)
    (h : proof.siblings.length = nLevels) : SmtVerifier P (proof.signals h) := by
  apply SmtVerifier.of_search hQ hc hknown rfl rfl hroot habsent (hend.signals h) hshort
  rw [AspNonMembershipProof.signals_siblings h, hsiblings, padOrTrim, if_pos hshort]
  rfl

def Provable (P : Permutation) (s : Storage) (key : F) (smtDepth : Nat) : Prop :=
  ∃ root proof, s.root = some root.val ∧
    getNonmembershipProof s (toLeBytes key) root smtDepth = .ok proof ∧ proof.key = key ∧
    proof.root = root ∧ ∃ h : proof.siblings.length = smtDepth, SmtVerifier P (proof.signals h)

theorem provable_iff_short {Q : Set Query} (hQ : Safe P Q) (hhashed : ∀ q ∈ s.hashed, q ∈ Q)
    (h : Represents P t s) (habsent : key ∉ keys t) {smtDepth : Nat} (hdepth : smtDepth ≠ 0)
    (hcircuit : ∀ root proof h, s.root = some root.val →
      getNonmembershipProof s (toLeBytes key) root smtDepth = .ok proof →
      ∀ q ∈ (AspNonMembershipProof.signals proof h : SmtSignals smtDepth).queries P, q ∈ Q) :
    Provable P s key smtDepth ↔ (siblings smtBit (smtHasher P) key t 0).length < smtDepth := by
  have hknown : Known P Q t := h.known.mono hhashed
  obtain ⟨proof, hproof, hkey, hroot, hsiblings, hend⟩ :=
    getNonmembershipProof_absent (hQ.mono hhashed) h habsent hdepth
  have hlength : proof.siblings.length = smtDepth := by rw [hsiblings, padOrTrim_length]
  subst hkey
  constructor
  · rintro ⟨root, proof', hroot', hproof', hkey', hsame, hlength', hverified⟩
    have hcurrent : root = treeHash P t := by
      rw [h.root] at hroot'
      exact (ZMod.val_injective _ (Option.some_injective _ hroot')).symm
    have hbit : Num2Bits 1 (proof'.signals hlength').isOld0 := by
      rw [AspNonMembershipProof.signals_isOld0]
      cases proof'.isOld0 <;> decide
    have hpath := hverified.path hQ hbit rfl rfl (hcircuit root proof' hlength' hroot' hproof')
      hknown (hsame.trans hcurrent)
    rw [show (proof'.signals hlength').key = proof.key from hkey'] at hpath
    exact hpath.2
  · intro hshort
    exact ⟨treeHash P t, proof, h.root, hproof, rfl, hroot, hlength,
      smtVerifier_of_short hQ h.canonical hknown habsent hroot hend hsiblings hshort hlength⟩

/-- The client obtains a proof that the circuit accepts if and only if at most one
entry agrees with the key in the nine low-order bits. -/
theorem provable_iff {entries : List (F × F)} (hrun : History P entries s)
    (habsent : key ∉ entries.map Prod.fst) {Q : Set Query} (hQ : Safe P Q) (hhashed : ∀ q ∈ s.hashed, q ∈ Q)
    (hcircuit : ∀ root proof h, s.root = some root.val →
      getNonmembershipProof s (toLeBytes key) root 10 = .ok proof →
      ∀ q ∈ (AspNonMembershipProof.signals proof h : SmtSignals 10).queries P, q ∈ Q) :
    Provable P s key 10 ↔ (entries.filter fun e => e.1.val % 2 ^ 9 = key.val % 2 ^ 9).length ≤ 1 := by
  obtain ⟨t, ht, hperm⟩ := hrun.represents (hQ.mono hhashed)
  have hkey : key ∉ keys t := fun hmem => habsent ((mem_keys_iff hperm).mp hmem)
  rw [provable_iff_short hQ hhashed ht hkey (by decide) hcircuit, Nat.lt_succ_iff,
    siblings_length_le_iff (smtHasher P) 9 ht.canonical, near_eq, (hperm.filter _).length_eq]

def twoEntryTable : List (Query × F) :=
  [(.hash2 5 7 1, 1), (.hash2 2 9 1, 2), (.compress 2 1, 3), (.hash2 4 4 1, 4), (.compress 0 0, 5)]

theorem twoEntry_safe : Safe (tablePermutation twoEntryTable) { q | q ∈ twoEntryTable.map Prod.fst } := by
  decide

/-- The proof for a key that shares its lowest bit with one of two entries has one sibling. -/
theorem provable_beside_two : ∃ s, History (tablePermutation twoEntryTable) [(5, 7), (2, 9)] s ∧
    Provable (tablePermutation twoEntryTable) s 4 10 := by
  obtain ⟨s, hrun, hhashed, hroot, hproof⟩ : ∃ s,
      History (tablePermutation twoEntryTable) [(5, 7), (2, 9)] s ∧
      (∀ q ∈ s.hashed, q ∈ twoEntryTable.map Prod.fst) ∧
      s.root = some (3 : F).val ∧ getNonmembershipProof s (toLeBytes 4) 3 10 =
        .ok ⟨4, 2, 9, false, 1 :: List.replicate 9 0, 3⟩ :=
    ⟨_, .call (.call (.start (show constructor ⟨0⟩ .fresh = _ from rfl))
      (show exec _ (fun _ => true) (.insertLeaf 5 7) _ = _ from rfl))
      (show exec _ (fun _ => true) (.insertLeaf 2 9) _ = _ from rfl), by decide, rfl, rfl⟩
  refine ⟨s, hrun, (provable_iff hrun (by decide) twoEntry_safe hhashed ?_).mpr (by decide)⟩
  intro root proof h hcurrent hget
  rw [hroot] at hcurrent
  obtain rfl : 3 = root := ZMod.val_injective _ (Option.some_injective _ hcurrent)
  rw [hproof] at hget
  cases hget
  intro q hq
  have hlast : ∀ last, [(1 : F)].getLast? = some last → last ≠ 0 := by
    rintro _ ⟨⟩
    exact one_ne_zero
  rcases @SmtSignals.queries_padded _ 10 8 _ [1] rfl rfl (AspNonMembershipProof.signals_siblings h) hlast q hq
    with rfl | rfl | rfl | hpath
  · exact mem_of_getElem? (i := 1) rfl
  · exact mem_of_getElem? (i := 3) rfl
  · exact mem_of_getElem? (i := 4) rfl
  · have hquery : smtQuery (stepInput (smtBit 4 0) (hash2 (tablePermutation twoEntryTable) 2 9 1 * (1 - 0)) 1) =
        .compress 2 1 := by decide
    rw [mem_singleton.mp hpath, AspNonMembershipProof.signals_isOld0 h]
    exact mem_of_getElem? (i := 2) (congrArg some hquery.symm)

def deepTable : List (Query × F) :=
  (.hash2 512 512 1, 1) :: (.hash2 1024 1024 1, 2) :: (.compress 2 1, 3) ::
    (List.range 9).map fun i => (.compress ((i + 3 : Nat) : F) 0, ((i + 4 : Nat) : F))

theorem deep_safe : Safe (tablePermutation deepTable) { q | q ∈ deepTable.map Prod.fst } := by
  decide

/-- Two entries that agree with an absent key in nine low-order bits: what the
client returns is refused by the circuit. -/
theorem not_provable_deep : ∃ s, History (tablePermutation deepTable) [(512, 512), (1024, 1024)] s ∧
    Safe (tablePermutation deepTable) { q | q ∈ s.hashed } ∧
    (0 : F) ∉ [((512 : F), (512 : F)), (1024, 1024)].map Prod.fst ∧
    ¬Provable (tablePermutation deepTable) s 0 10 := by
  obtain ⟨s, hrun, hhashed, hroot, hproof⟩ : ∃ s,
      History (tablePermutation deepTable) [(512, 512), (1024, 1024)] s ∧
      (∀ q ∈ s.hashed, q ∈ deepTable.map Prod.fst) ∧
      s.root = some (12 : F).val ∧ getNonmembershipProof s (toLeBytes 0) 12 10 =
        .ok ⟨0, 1024, 1024, false, List.replicate 9 0 ++ [1], 12⟩ :=
    ⟨_, .call (.call (.start (show constructor ⟨0⟩ .fresh = _ from rfl))
      (show exec _ (fun _ => true) (.insertLeaf 512 512) _ = _ from rfl))
      (show exec _ (fun _ => true) (.insertLeaf 1024 1024) _ = _ from rfl), by decide, rfl, rfl⟩
  refine ⟨s, hrun, deep_safe.mono hhashed, by decide, ?_⟩
  rintro ⟨root, proof, hcurrent, hget, -, -, h, hverified⟩
  rw [hroot] at hcurrent
  obtain rfl : 12 = root := ZMod.val_injective _ (Option.some_injective _ hcurrent)
  rw [hproof] at hget
  cases hget
  have hlast := hverified.lastSibling one_ne_zero
  rw [AspNonMembershipProof.signals_siblings] at hlast
  exact absurd hlast (by decide)

end Client

end PrivatePayments.Sdk

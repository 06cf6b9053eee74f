import PrivatePayments.Contracts.NonMembership.Delete
import PrivatePayments.Contracts.NonMembership.Insert

/-! The contract refines a finite map: its root is a digest of the map alone. -/
namespace PrivatePayments.Contracts.AspNonMembership
open Lib Lib.SparseTree

section Represents
variable {P : Permutation} {key value : F} {s : Storage} {t : Tree} {st : Rebuild}
  {event : U256 → Event}

theorem Represents.insert (h : Represents P t s) (habsent : key ∉ keys t)
    (hS : Safe P { q | q ∈ st.hashed })
    (hins : Inserted P s.node s.hashed t (insertAt smtBit key value t 256 0) st) :
    Represents P (insertAt smtBit key value t 256 0) (st.commit s event) where
  root := congrArg some hins.rt
  canonical := canonical_insertAt h.canonical (differ_of_absent habsent)
  nodup := by
    have hperm : (insertAt smtBit key value t 256 0).entries.Perm ((key, value) :: t.entries) :=
      entries_insertAt h.canonical (differ_of_absent habsent)
    exact (hperm.map Prod.fst).nodup_iff.mpr (List.nodup_cons.mpr ⟨habsent, h.nodup⟩)
  known := hins.known
  stored := hins.stored _ hS fun _ hq => hq

theorem Represents.delete (h : Represents P t s) (hS : Safe P { q | q ∈ st.hashed })
    (hdel : Deleted P key s.node s.hashed (deleteOld key t 0) (deleteAt smtBit key t 0) st) :
    Represents P (deleteAt smtBit key t 0) (st.commit s event) where
  root := congrArg some hdel.rt
  canonical := canonical_deleteAt h.canonical
  nodup := by
    rw [keys, entries_deleteAt h.canonical]
    exact h.nodup.sublist (List.filter_sublist.map Prod.fst)
  known := hdel.known
  stored := hdel.stored _ hS fun _ hq => hq

theorem constructor_represents {admin : Address} {s : Storage}
    (h : constructor admin .fresh = .ok ((), s)) : Represents P .empty s := by
  cases h
  exact ⟨congrArg some (treeHash_empty P).symm, trivial, List.nodup_nil,
    fun _ hx => absurd hx (Set.notMem_empty _), fun u hu hne => absurd hu hne⟩

end Represents

/-! Histories of calls, and the finite map they build. -/

def Call.apply : Call → List (F × F) → List (F × F)
  | .updateAdmin _, entries => entries
  | .insertLeaf key value, entries => entries ++ [((key : F), (value : F))]
  | .deleteLeaf key, entries => entries.filter fun e => e.1 ≠ (key : F)

inductive History (P : Permutation) : List (F × F) → Storage → Prop where
  | start {admin : Address} {s : Storage} (hdeploy : constructor admin .fresh = .ok ((), s)) :
      History P [] s
  | call {entries : List (F × F)} {authorized : Address → Bool} {call : Call} {s s' : Storage}
      (before : History P entries s) (hcall : exec P authorized call s = .ok ((), s')) :
      History P (call.apply entries) s'

def mapRoot (P : Permutation) (entries : List (F × F)) : F :=
  rootOf smtBit (smtHasher P) 256 0 entries

section History
variable {P : Permutation} {entries : List (F × F)} {s s' : Storage}

variable {authorized : Address → Bool}

theorem exec_grows {call : Call}
    (h : exec P authorized call s = .ok ((), s')) : ∀ q ∈ s.hashed, q ∈ s'.hashed := by
  cases call with
  | updateAdmin newAdmin =>
    rw [updateAdmin_ok h]
    exact fun q hq => hq
  | insertLeaf key value => exact (insertLeaf_ok h).2.2.1
  | deleteLeaf key => exact (deleteLeaf_ok h).2.1

/-- What a successful call can do to a storage that holds the tree `t`. -/
inductive Effect (P : Permutation) (t : Tree) (s : Storage) : Call → Storage → Prop where
  | updateAdmin (newAdmin : Address) :
      Effect P t s (.updateAdmin newAdmin) { s with admin := some newAdmin }
  | insert (key value : F) {st : Rebuild} (habsent : key ∉ keys t)
      (hins : Inserted P s.node s.hashed t (insertAt smtBit key value t 256 0) st) :
      Effect P t s (.insertLeaf key.val value.val)
        (st.commit s (.leafInserted key.val value.val))
  | delete (key : F) {st : Rebuild} (hkey : key ∈ keys t)
      (hdel : Deleted P key s.node s.hashed (deleteOld key t 0) (deleteAt smtBit key t 0) st) :
      Effect P t s (.deleteLeaf key.val) (st.commit s (.leafDeleted key.val))

variable {t : Tree}

theorem Represents.exec_cases (h : Represents P t s) (hS : Safe P { q | q ∈ s.hashed })
    {call : Call} (hcall : exec P authorized call s = .ok ((), s')) :
    Effect P t s call s' := by
  cases call with
  | updateAdmin newAdmin =>
    rw [updateAdmin_ok hcall]
    exact .updateAdmin newAdmin
  | insertLeaf key value =>
    change insertLeaf P authorized key value s = .ok ((), s') at hcall
    obtain ⟨hkey, hvalue, -, admin, hadmin, hauth⟩ := insertLeaf_ok hcall
    rw [← val_natCast_of_lt hkey, ← val_natCast_of_lt hvalue] at hcall ⊢
    have habsent : (key : F) ∉ keys t := fun hmem => by
      rw [insertLeaf_present hS h hadmin hauth hmem] at hcall
      cases hcall
    obtain ⟨st, hst, hins⟩ := insertLeaf_absent hS h hadmin hauth (value : F) habsent
    rw [hcall] at hst
    cases hst
    exact .insert _ _ habsent hins
  | deleteLeaf key =>
    change deleteLeaf P authorized key s = .ok ((), s') at hcall
    obtain ⟨hkey, -, admin, hadmin, hauth⟩ := deleteLeaf_ok hcall
    rw [← val_natCast_of_lt hkey] at hcall ⊢
    have hmem : (key : F) ∈ keys t := by
      by_contra habsent
      rw [deleteLeaf_absent hS h hadmin hauth habsent] at hcall
      cases hcall
    obtain ⟨st, hst, hdel⟩ := deleteLeaf_present hS h hadmin hauth hmem
    rw [hcall] at hst
    cases hst
    exact .delete _ hmem hdel

theorem Represents.call (h : Represents P t s) (hperm : entries.Perm t.entries)
    {call : Call} (hcall : exec P authorized call s = .ok ((), s'))
    (hS : Safe P { q | q ∈ s.hashed }) (hS' : Safe P { q | q ∈ s'.hashed }) :
    ∃ t', Represents P t' s' ∧ (call.apply entries).Perm t'.entries := by
  cases h.exec_cases hS hcall with
  | updateAdmin newAdmin => exact ⟨t, ⟨h.root, h.canonical, h.nodup, h.known, h.stored⟩, hperm⟩
  | insert key value habsent hins =>
    refine ⟨_, h.insert habsent hS' hins, ?_⟩
    refine .trans ?_ (entries_insertAt h.canonical (differ_of_absent habsent)).symm
    rw [Call.apply, natCast_val, natCast_val]
    exact (hperm.append_right _).trans List.perm_append_comm
  | delete key hkey hdel =>
    refine ⟨_, h.delete hS' hdel, ?_⟩
    rw [entries_deleteAt h.canonical, Call.apply, natCast_val]
    exact hperm.filter _

theorem History.represents (h : History P entries s) (hS : Safe P { q | q ∈ s.hashed }) :
    ∃ t, Represents P t s ∧ entries.Perm t.entries := by
  induction h with
  | start hdeploy => exact ⟨.empty, constructor_represents hdeploy, List.Perm.refl _⟩
  | call before hcall ih =>
    have hbefore := hS.mono (exec_grows hcall)
    obtain ⟨t, ht, hperm⟩ := ih hbefore
    exact ht.call hperm hcall hbefore hS

theorem Represents.mapRoot_eq (h : Represents P t s) (hperm : entries.Perm t.entries) :
    mapRoot P entries = treeHash P t :=
  rootOf_eq_hash (smtHasher P) h.canonical (pairwise_differ h.nodup) hperm

theorem mem_keys_iff (hperm : entries.Perm t.entries) {key : F} :
    key ∈ keys t ↔ key ∈ entries.map Prod.fst :=
  (hperm.map Prod.fst).mem_iff.symm

section
variable (h : History P entries s) (hS : Safe P { q | q ∈ s.hashed })
include h hS

theorem History.nodup : (entries.map Prod.fst).Nodup := by
  obtain ⟨t, ht, hperm⟩ := h.represents hS
  exact (hperm.map Prod.fst).nodup_iff.mpr ht.nodup

theorem History.root_eq : s.root = some (mapRoot P entries).val := by
  obtain ⟨t, ht, hperm⟩ := h.represents hS
  rw [ht.root, ht.mapRoot_eq hperm]

theorem History.findKey (key : F) :
    ∃ result, findKey key.val s = .ok result ∧
      (result.found = true ↔ key ∈ entries.map Prod.fst) ∧
      ∀ value, (key, value) ∈ entries → result.foundValue = value.val := by
  obtain ⟨t, ht, hperm⟩ := h.represents hS
  have hfind := findKey_tree hS ht key
  rw [AspNonMembership.findKey, ht.root, Option.getD_some, hfind]
  refine ⟨_, rfl, ?_, ?_⟩
  · rw [← mem_keys_iff hperm]
    constructor
    · intro hfound
      by_contra habsent
      rw [findResult_absent habsent] at hfound
      cases hfound
    · intro hmem
      obtain ⟨⟨k, v⟩, hentry, rfl⟩ := List.mem_map.mp hmem
      rw [findResult_found ht.canonical hentry]
  · intro value hmem
    rw [findResult_found ht.canonical (hperm.mem_iff.mp hmem)]

theorem History.root_unique {entries' : List (F × F)} (h' : History P entries' s')
    (hS' : Safe P { q | q ∈ s'.hashed }) (hsame : ∀ e, e ∈ entries ↔ e ∈ entries') :
    s'.root = s.root := by
  have hperm : entries'.Perm entries :=
    (List.perm_ext_iff_of_nodup (h'.nodup hS').of_map (h.nodup hS).of_map).mpr fun e => (hsame e).symm
  obtain ⟨t, ht, hpermT⟩ := h.represents hS
  rw [h.root_eq hS, h'.root_eq hS', ht.mapRoot_eq hpermT, ht.mapRoot_eq (hperm.trans hpermT)]

theorem insertLeaf_key_absent
    {key value : Nat} (hins : insertLeaf P authorized key value s = .ok ((), s')) :
    (key : F) ∉ entries.map Prod.fst := by
  obtain ⟨t, ht, hperm⟩ := h.represents hS
  obtain ⟨hkey, -, -, admin, hadmin, hauth⟩ := insertLeaf_ok hins
  rw [← mem_keys_iff hperm]
  intro hmem
  rw [← val_natCast_of_lt hkey, insertLeaf_present hS ht hadmin hauth hmem] at hins
  cases hins

end

theorem deleteLeaf_insertLeaf_apply {key value : Nat} (habsent : (key : F) ∉ entries.map Prod.fst) :
    (Call.deleteLeaf key).apply ((Call.insertLeaf key value).apply entries) = entries := by
  have hkeep : entries.filter (fun e => e.1 ≠ (key : F)) = entries := by
    rw [List.filter_eq_self]
    intro e he
    simp only [decide_eq_true_eq]
    rintro heq
    exact habsent (heq ▸ List.mem_map_of_mem he)
  simp only [Call.apply, List.filter_append, hkeep]
  simp

/-- In every state that calls can lead to, the contract is the finite map of its
successful calls. -/
theorem refines_finite_map (h : History P entries s) (hS : Safe P { q | q ∈ s.hashed }) :
    (entries.map Prod.fst).Nodup ∧
    getRoot s = .ok (mapRoot P entries).val ∧
    (∀ key : F, ∃ result, findKey key.val s = .ok result ∧
      (result.found = true ↔ key ∈ entries.map Prod.fst) ∧
      ∀ value, (key, value) ∈ entries → result.foundValue = value.val) ∧
    (∀ authorized admin, s.admin = some admin → authorized admin = true → ∀ key value : F,
      (invoke (insertLeaf P authorized key.val value.val) s =
          (.error (.error .keyAlreadyExists), s) ↔ key ∈ entries.map Prod.fst) ∧
      (key ∉ entries.map Prod.fst →
        ∃ s', insertLeaf P authorized key.val value.val s = .ok ((), s')) ∧
      (invoke (deleteLeaf P authorized key.val) s = (.error (.error .keyNotFound), s) ↔
        key ∉ entries.map Prod.fst) ∧
      (key ∈ entries.map Prod.fst → ∃ s', deleteLeaf P authorized key.val s = .ok ((), s'))) ∧
    (∀ entries' s', History P entries' s' → Safe P { q | q ∈ s'.hashed } →
      (∀ e, e ∈ entries ↔ e ∈ entries') → s'.root = s.root) ∧
    (∀ authorized authorized' key value s₁ s₂, insertLeaf P authorized key value s = .ok ((), s₁) →
      deleteLeaf P authorized' key s₁ = .ok ((), s₂) → Safe P { q | q ∈ s₂.hashed } →
      s₂.root = s.root) := by
  refine ⟨h.nodup hS, ?_, h.findKey hS, ?_, ?_, ?_⟩
  · rw [getRoot, h.root_eq hS, okOr_some]
  · intro authorized admin hadmin hauth key value
    obtain ⟨t, ht, hperm⟩ := h.represents hS
    rw [← mem_keys_iff hperm]
    have hinsert : key ∉ keys t → ∃ s', insertLeaf P authorized key.val value.val s = .ok ((), s') := fun habsent => by
        obtain ⟨st, hst, -⟩ := insertLeaf_absent hS ht hadmin hauth value habsent
        exact ⟨_, hst⟩
    have hdelete : key ∈ keys t → ∃ s', deleteLeaf P authorized key.val s = .ok ((), s') := fun hmem => by
        obtain ⟨st, hst, -⟩ := deleteLeaf_present hS ht hadmin hauth hmem
        exact ⟨_, hst⟩
    refine ⟨invoke_eq_error_iff (insertLeaf_present hS ht hadmin hauth · value.val)
      (fun habsent => ⟨(), hinsert habsent⟩), hinsert,
      invoke_eq_error_iff (deleteLeaf_absent hS ht hadmin hauth) (fun hmem => ⟨(), ?_⟩), hdelete⟩
    exact hdelete (not_not.mp hmem)
  · intro entries' s' h' hS' hsame
    exact h.root_unique hS h' hS' hsame
  · intro authorized authorized' key value s₁ s₂ hins hdel hS₂
    have hS₁ := hS₂.mono (deleteLeaf_ok hdel).2.1
    have h₁ : History P ((Call.insertLeaf key value).apply entries) s₁ :=
      .call h (show exec P authorized (.insertLeaf key value) s = _ from hins)
    have h₂ : History P ((Call.deleteLeaf key).apply ((Call.insertLeaf key value).apply entries)) s₂ :=
      .call h₁ (show exec P authorized' (.deleteLeaf key) s₁ = _ from hdel)
    rw [deleteLeaf_insertLeaf_apply (insertLeaf_key_absent h hS hins)] at h₂
    exact h.root_unique hS h₂ hS₂ fun _ => Iff.rfl

/-- A contract into which two keys have been inserted refuses the first again. -/
theorem refines_finite_map_two_entries : ∃ s, History decimalPermutation [(5, 7), (2, 9)] s ∧
    invoke (insertLeaf decimalPermutation (fun _ => true) (5 : F).val (8 : F).val) s =
      (.error (.error .keyAlreadyExists), s) := by
  obtain ⟨s, hrun, hadmin, hhashed⟩ : ∃ s, History decimalPermutation [(5, 7), (2, 9)] s ∧
      s.admin = some ⟨0⟩ ∧ s.hashed = [.hash2 5 7 1, .hash2 5 7 1, .hash2 2 9 1, .compress 92 75] :=
    ⟨_, .call (.call (.start (show constructor ⟨0⟩ .fresh = _ from rfl))
      (show exec _ (fun _ => true) (.insertLeaf 5 7) _ = _ from rfl))
      (show exec _ (fun _ => true) (.insertLeaf 2 9) _ = _ from rfl), rfl, rfl⟩
  have hS : Safe decimalPermutation { q | q ∈ s.hashed } := by
    rw [hhashed]
    decide
  have hmap := (refines_finite_map hrun hS).2.2.2.1 (fun _ => true) ⟨0⟩ hadmin rfl 5 8
  exact ⟨s, hrun, hmap.1.mpr (by decide)⟩

end History

end PrivatePayments.Contracts.AspNonMembership

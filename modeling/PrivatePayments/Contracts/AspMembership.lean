import PrivatePayments.Contracts.Frontier

/-! `asp-membership/src/lib.rs`: the membership tree of the association set
provider, which takes one leaf at a time and keeps only its current root. -/
namespace PrivatePayments.Contracts.AspMembership
open Lib.BinaryTree List

inductive Error where
  | notAuthorized | merkleTreeFull | wrongLevels | notInitialized | overflow
deriving DecidableEq, Repr

abbrev Result := Except (Abort Error)

structure LeafAddedEvent where
  leaf : U256
  index : Nat
  root : U256
deriving DecidableEq, Repr

/-- The entries of `DataKey` in persistent storage, and the events published. -/
structure Storage extends Frontier where
  admin : Option Address
  levels : Option Nat
  nextIndex : Option Nat
  root : Option U256
  adminInsertOnly : Option Bool
  events : List LeafAddedEvent

def Storage.fresh : Storage where
  filledSubtree _ := none
  zeroes _ := none
  hashed := []
  admin := none
  levels := none
  nextIndex := none
  root := none
  adminInsertOnly := none
  events := []

def constructor (admin : Address) (levels : Nat) (s : Storage) :
    Result (Unit × Storage) := do
  failIf (levels = 0 ∨ levels > 32) .wrongLevels
  -- The loop over the levels ends with this same lookup, so it cannot fail earlier.
  let rootVal ← okOr getZeroes[levels]? .notInitialized
  return ((), { s with
    admin := some admin
    levels := some levels
    nextIndex := some 0
    adminInsertOnly := some true
    filledSubtree := fun i => if i ≤ levels then initLevels levels i else s.filledSubtree i
    zeroes := fun i => if i ≤ levels then initLevels levels i else s.zeroes i
    root := some rootVal })

def updateAdmin (authorized : Address → Bool) (newAdmin : Address) (s : Storage) :
    Result (Unit × Storage) := do
  let admin ← okOr s.admin .notInitialized
  requireAuth authorized admin
  return ((), { s with admin := some newAdmin })

def setAdminInsertOnly (authorized : Address → Bool) (adminOnly : Bool) (s : Storage) :
    Result (Unit × Storage) := do
  let admin ← okOr s.admin .notInitialized
  requireAuth authorized admin
  return ((), { s with adminInsertOnly := some adminOnly })

def getRoot (s : Storage) : Result U256 := okOr s.root .notInitialized

def checkInsert (authorized : Address → Bool) (s : Storage) : Result Unit :=
  if s.adminInsertOnly.getD true then do
    let admin ← okOr s.admin .notInitialized
    requireAuth authorized admin
  else .ok ()

def insertLeaf (P : Permutation) (authorized : Address → Bool) (leaf : U256) (s : Storage) :
    Result (Unit × Storage) := do
  checkInsert authorized s
  let levels ← okOr s.levels .notInitialized
  let actualIndex ← okOr s.nextIndex .notInitialized
  let maxLeaves ← okOr (checkedShl levels) .merkleTreeFull
  failIf (actualIndex ≥ maxLeaves) .merkleTreeFull
  let (currentHash, fr) ← climb P .notInitialized levels 0 actualIndex leaf s.toFrontier
  let nextIndex ← okOr (checkedAdd 64 actualIndex 1) .overflow
  return ((), { s with
    toFrontier := fr
    root := some currentHash
    events := s.events ++ [{ leaf, index := actualIndex, root := currentHash }]
    nextIndex := some nextIndex })

inductive Call where
  | updateAdmin (newAdmin : Address)
  | setAdminInsertOnly (adminOnly : Bool)
  | insertLeaf (leaf : U256)
deriving DecidableEq, Repr

def exec (P : Permutation) (authorized : Address → Bool) :
    Call → Storage → Result (Unit × Storage)
  | .updateAdmin newAdmin => updateAdmin authorized newAdmin
  | .setAdminInsertOnly adminOnly => setAdminInsertOnly authorized adminOnly
  | .insertLeaf leaf => insertLeaf P authorized leaf

def Call.inserted : Call → List U256
  | .insertLeaf leaf => [leaf]
  | _ => []

variable {P : Permutation} {authorized : Address → Bool} {s s' : Storage}

section Calls
variable {leaf : Nat}

theorem insertLeaf_ok (h : insertLeaf P authorized leaf s = .ok ((), s')) :
    ∃ levels index newRoot fr, s.levels = some levels ∧ s.nextIndex = some index ∧
      index < 2 ^ levels ∧
      climb P Error.notInitialized levels 0 index leaf s.toFrontier = .ok (newRoot, fr) ∧
      s' = { s with
        toFrontier := fr
        root := some newRoot
        events := s.events ++ [{ leaf, index, root := newRoot }]
        nextIndex := some (index + 1) } := by
  unfold insertLeaf at h
  obtain ⟨_, _, h⟩ := bind_eq_ok h
  obtain ⟨levels, hlevels, h⟩ := bind_eq_ok h
  obtain ⟨index, hindex, h⟩ := bind_eq_ok h
  obtain ⟨maxLeaves, hmax, h⟩ := bind_eq_ok h
  obtain ⟨_, hroom, h⟩ := bind_eq_ok h
  obtain ⟨⟨newRoot, fr⟩, hclimb, h⟩ := bind_eq_ok h
  obtain ⟨next, hnext, h⟩ := bind_eq_ok h
  obtain ⟨-, rfl⟩ := checkedShl_eq_some (okOr_eq_ok hmax)
  obtain ⟨-, rfl⟩ := checkedAdd_eq_some (okOr_eq_ok hnext)
  have hroom := failIf_eq_ok hroom
  cases h
  exact ⟨levels, index, newRoot, fr, okOr_eq_ok hlevels, okOr_eq_ok hindex, by omega, hclimb, rfl⟩

theorem setAdminInsertOnly_ok {adminOnly : Bool} (h : setAdminInsertOnly authorized adminOnly s = .ok ((), s')) :
    s' = { s with adminInsertOnly := some adminOnly } := by
  unfold setAdminInsertOnly at h
  obtain ⟨_, _, h⟩ := bind_eq_ok h
  obtain ⟨_, _, h⟩ := bind_eq_ok h
  cases h
  rfl

theorem updateAdmin_ok {newAdmin : Address} (h : updateAdmin authorized newAdmin s = .ok ((), s')) :
    s' = { s with admin := some newAdmin } := by
  unfold updateAdmin at h
  obtain ⟨_, _, h⟩ := bind_eq_ok h
  obtain ⟨_, _, h⟩ := bind_eq_ok h
  cases h
  rfl

end Calls

def eventAt (P : Permutation) (levels : Nat) (leaves : List F) (k : Nat) : LeafAddedEvent where
  leaf := (leaves.getD k 0).val
  index := k
  root := (treeRoot P levels (leaves.take (k + 1))).val

structure Holds (P : Permutation) (levels : Nat) (leaves : List F) (s : Storage) : Prop where
  levels_pos : 1 ≤ levels
  levels_le : levels ≤ 32
  levels_eq : s.levels = some levels
  nextIndex_eq : s.nextIndex = some leaves.length
  fits : leaves.length ≤ 2 ^ levels
  zeroes : ∀ i, i ≤ levels → s.zeroes i = some (getZeroes.getD i 0)
  filled : Filled P leaves 0 levels leaves.length s.filledSubtree
  logged : Logged P leaves levels s.hashed
  root_eq : s.root = some (treeRoot P levels leaves).val
  events_eq : s.events = (List.range leaves.length).map (eventAt P levels leaves)

variable {levels : Nat}

section Holds
variable {leaves : List F}

theorem Holds.getRoot (h : Holds P levels leaves s) : getRoot s = .ok (treeRoot P levels leaves).val := by
  rw [AspMembership.getRoot, h.root_eq, okOr_some]

theorem constructor_holds (hchain : ZeroesChain P) (admin : Address) (hpos : 1 ≤ levels) (hle : levels ≤ 32) :
    ∃ s, constructor admin levels .fresh = .ok ((), s) ∧ Holds P levels [] s := by
  have hlen : levels < getZeroes.length := by rw [getZeroes_length]; omega
  refine ⟨_, by
    rw [constructor, failIf_neg (by omega), getElem?_eq_getElem hlen]
    rfl, ?_⟩
  refine ⟨hpos, hle, rfl, rfl, Nat.zero_le _, ?_, ?_, ?_, ?_, rfl⟩
  · intro i hi
    simp [hi, initLevels_eq hle hi]
  · intro k _ hodd
    simp at hodd
  · exact Logged.empty hchain hle _
  · rw [emptyRoot_eq hchain hle, getD_eq_getElem _ _ hlen]

theorem eventAt_append {k : Nat} (hk : k < leaves.length) (leaf : F) :
    eventAt P levels (leaves ++ [leaf]) k = eventAt P levels leaves k := by
  rw [eventAt, eventAt, getD_append _ _ _ _ hk, take_append_of_le_length (by omega)]

theorem treeNode_last (leaf : F) : treeNode P (leaves ++ [leaf]) 0 leaves.length = leaf := by
  simp [padded]

theorem Holds.insert (hchain : ZeroesChain P) (h : Holds P levels leaves s)
    (hauth : checkInsert authorized s = .ok ()) (leaf : F) (hroom : leaves.length < 2 ^ levels) :
    ∃ s', insertLeaf P authorized leaf.val s = .ok ((), s') ∧
      Holds P levels (leaves ++ [leaf]) s' ∧
      ∀ q ∈ s'.hashed, q ∈ s.hashed ∨ TreeQuery P (leaves ++ [leaf]) levels q := by
  have hpos := h.levels_pos
  have hle := h.levels_le
  have hcap : 2 ^ levels ≤ 2 ^ 32 := Nat.pow_le_pow_right (by omega) hle
  have hlen : leaves.length = leaves.length * 2 ^ 0 := by omega
  obtain ⟨fr, hclimb, hclimbed⟩ := climb_append [leaf] s.toFrontier hchain Error.notInitialized hle
    (Nat.zero_le _) h.zeroes hlen rfl (by simpa using hroom) h.filled
  rw [treeNode_last, Nat.sub_zero] at hclimb
  refine ⟨{ s with
      toFrontier := fr
      root := some (treeRoot P levels (leaves ++ [leaf])).val
      events := s.events ++ [{
        leaf := leaf.val
        index := leaves.length
        root := (treeRoot P levels (leaves ++ [leaf])).val }]
      nextIndex := some (leaves.length + 1) }, ?_,
    ⟨hpos, hle, h.levels_eq, by simp, by simp; omega, ?_, ?_, ?_, rfl, ?_⟩,
    fun q hq => hclimbed.treeQuery (Nat.zero_le _) (by simpa using hroom) hq⟩
  · simp only [insertLeaf, hauth, ok_bind, h.levels_eq, h.nextIndex_eq, okOr_some]
    rw [checkedShl, if_pos (by omega), okOr_some, ok_bind, failIf_neg (by omega), ok_bind, hclimb,
      ok_bind, checkedAdd_eq (by omega), okOr_some, ok_bind]
    rfl
  · intro i hi
    rw [hclimbed.zeroes]
    exact h.zeroes i hi
  · rw [length_append]
    exact hclimbed.filled_next (h.filled.append hlen)
  · exact hclimbed.logged hchain hle (Nat.zero_le _) hlen rfl h.logged (fun level _ hlevel => absurd hlevel (by omega))
  · have hold : (List.range leaves.length).map (eventAt P levels (leaves ++ [leaf])) = s.events := by
      rw [h.events_eq]
      exact map_congr_left fun k hk => eventAt_append (mem_range.mp hk) leaf
    have htake : (leaves ++ [leaf]).take (leaves.length + 1) = leaves ++ [leaf] := take_of_length_le (by simp)
    rw [length_append, length_singleton, range_succ, map_append, hold]
    simp [eventAt, htake]

theorem Holds.insert_full (h : Holds P levels leaves s) (hauth : checkInsert authorized s = .ok ())
    (hfull : leaves.length = 2 ^ levels) (leaf : Nat) :
    insertLeaf P authorized leaf s = .error (.error .merkleTreeFull) := by
  have hle := h.levels_le
  simp only [insertLeaf, hauth, ok_bind, h.levels_eq, h.nextIndex_eq, okOr_some]
  rw [checkedShl, if_pos (by omega), okOr_some, ok_bind, failIf_pos (by omega), error_bind]

end Holds

/-- The leaves inserted since deployment, over any mix of successful calls. -/
inductive History (P : Permutation) (levels : Nat) : List U256 → Storage → Prop where
  | start {admin : Address} {s : Storage} (hdeploy : constructor admin levels .fresh = .ok ((), s)) :
      History P levels [] s
  | call {leaves : List U256} {authorized : Address → Bool} {call : Call} {s s' : Storage}
      (before : History P levels leaves s) (hcall : exec P authorized call s = .ok ((), s')) :
      History P levels (leaves ++ call.inserted) s'

section History
variable {leaves : List U256}

theorem constructor_ok {admin : Address} (h : constructor admin levels .fresh = .ok ((), s)) :
    1 ≤ levels ∧ levels ≤ 32 := by
  unfold constructor at h
  obtain ⟨_, hlevels, _⟩ := bind_eq_ok h
  have hlevels := failIf_eq_ok hlevels
  omega

section
variable (hchain : ZeroesChain P)
include hchain

theorem Holds.call (h : Holds P levels (leaves.map Nat.cast) s)
    {authorized : Address → Bool} {call : Call} (hcall : exec P authorized call s = .ok ((), s')) :
    Holds P levels ((leaves ++ call.inserted).map Nat.cast) s' ∧ ∀ leaf ∈ call.inserted, leaf < bn256Modulus := by
  cases call with
  | updateAdmin newAdmin | setAdminInsertOnly adminOnly =>
    first | rw [updateAdmin_ok hcall] | rw [setAdminInsertOnly_ok hcall]
    exact ⟨by simpa [Call.inserted] using ⟨h.levels_pos, h.levels_le, h.levels_eq, h.nextIndex_eq,
      h.fits, h.zeroes, h.filled, h.logged, h.root_eq, h.events_eq⟩, by simp [Call.inserted]⟩
  | insertLeaf leaf =>
    change insertLeaf P authorized leaf s = .ok ((), s') at hcall
    have hauth : checkInsert authorized s = .ok () := (bind_eq_ok hcall).choose_spec.1
    obtain ⟨l, index, newRoot, fr, hl, hindex, hroom, hclimb, -⟩ := insertLeaf_ok hcall
    obtain rfl : levels = l := Option.some.inj (h.levels_eq.symm.trans hl)
    obtain rfl : (leaves.map Nat.cast : List F).length = index := Option.some.inj (h.nextIndex_eq.symm.trans hindex)
    have hfield : leaf < bn256Modulus := by
      rw [← Nat.sub_add_cancel h.levels_pos] at hclimb
      exact climb_lt hclimb
    obtain ⟨s'', hins, hholds, -⟩ := h.insert hchain hauth (leaf : F) hroom
    rw [val_natCast_of_lt hfield, hcall] at hins
    cases hins
    exact ⟨by simpa [Call.inserted] using hholds, by simpa [Call.inserted] using hfield⟩

theorem History.holds (h : History P levels leaves s) :
    Holds P levels (leaves.map Nat.cast) s ∧ ∀ leaf ∈ leaves, leaf < bn256Modulus := by
  induction h with
  | @start admin s hdeploy =>
    obtain ⟨hpos, hle⟩ := constructor_ok hdeploy
    obtain ⟨s', hs', hholds⟩ := constructor_holds hchain admin hpos hle
    rw [hdeploy] at hs'
    cases hs'
    exact ⟨hholds, by simp⟩
  | call before hcall ih =>
    obtain ⟨hholds, hfield⟩ := Holds.call hchain ih.1 hcall
    refine ⟨hholds, fun leaf hleaf => ?_⟩
    rcases mem_append.mp hleaf with hold | hnew
    · exact ih.2 leaf hold
    · exact hfield leaf hnew

theorem History.events (h : History P levels leaves s) :
    s.events.map (fun event => (event.leaf, event.index)) = leaves.zipIdx := by
  obtain ⟨hholds, hfield⟩ := h.holds hchain
  rw [hholds.events_eq, map_map]
  apply ext_getElem
  · simp
  · intro k hk _
    have hlt : k < leaves.length := by simpa using hk
    simp [eventAt, hlt, val_natCast_of_lt (hfield _ (getElem_mem hlt))]

theorem exists_history (hpos : 1 ≤ levels) (hle : levels ≤ 32)
    {fields : List F} (hfits : fields.length ≤ 2 ^ levels) :
    ∃ s, History P levels (fields.map ZMod.val) s ∧ ∃ admin, s.admin = some admin := by
  induction fields using List.reverseRecOn with
  | nil =>
    obtain ⟨s, hdeploy, -⟩ := constructor_holds hchain ⟨0⟩ hpos hle
    refine ⟨s, .start hdeploy, ⟨0⟩, ?_⟩
    unfold constructor at hdeploy
    obtain ⟨_, _, hdeploy⟩ := bind_eq_ok hdeploy
    obtain ⟨_, _, hdeploy⟩ := bind_eq_ok hdeploy
    cases hdeploy
    rfl
  | append_singleton fields leaf ih =>
    rw [length_append, length_singleton] at hfits
    obtain ⟨s, hrun, admin, hadmin⟩ := ih (by omega)
    have hholds := (hrun.holds hchain).1
    have hauth : checkInsert (fun _ => true) s = .ok () := by
      unfold checkInsert
      split
      · rw [hadmin]
        rfl
      · rfl
    obtain ⟨s', hins, -⟩ := hholds.insert hchain hauth leaf (by rw [length_map, length_map]; omega)
    have hsame : s'.admin = some admin := by
      obtain ⟨_, _, _, _, -, -, -, -, hs'⟩ := insertLeaf_ok hins
      rw [hs', ← hadmin]
    refine ⟨s', ?_, admin, hsame⟩
    rw [map_append]
    exact .call hrun (show exec P (fun _ => true) (.insertLeaf leaf.val) s = _ from hins)

end

end History

end PrivatePayments.Contracts.AspMembership

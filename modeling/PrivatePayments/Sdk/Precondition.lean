import PrivatePayments.Sdk.SyncRun
import PrivatePayments.Sdk.Upgrade

/-! `state/src/storage.rs`: what the stored leaves say about a user, against what is read from
the membership contract. -/
namespace PrivatePayments.Sdk
open Contracts Lib Lib.BinaryTree List

def aspMembershipLeaf (P : Permutation) (notePubkey membershipBlinding : F) : F :=
  hash2 P notePubkey membershipBlinding 1

inductive AspMembershipSync where
  | userIndex (index : Nat)
  | registerAtASP
  | syncRequired (gap : Option Nat)
deriving DecidableEq

inductive PreconditionError where
  | rootMismatch (ledger : Nat)
deriving DecidableEq

def lastAspRoot (db : Db) (aspMembershipContractId : String) : Option (F × Nat) := do
  let row ← lastAspLeaf db aspMembershipContractId
  let event ← db.event? row.eventId
  return (row.root, event.ledger)

def checkAspMembershipPrecondition (visit : Visit AspMembershipLeaf) (db : Db)
    (aspMembershipContractId : String) (userLeaf currentRoot : F) (currentLedger : Nat) :
    Except PreconditionError AspMembershipSync :=
  match (getSyncMetadata db).find? (·.contractId == aspMembershipContractId) with
  | none => .ok (.syncRequired (some currentLedger))
  | some syncMeta =>
    if currentLedger > syncMeta.lastFullyIndexedLedger then
      .ok (.syncRequired (some (currentLedger - syncMeta.lastFullyIndexedLedger)))
    else match lastAspRoot db aspMembershipContractId with
      | none => .ok .registerAtASP
      | some (lastRoot, lastLeafLedger) =>
        if currentRoot ≠ lastRoot then
          if lastLeafLedger < currentLedger then
            .ok (.syncRequired (some (currentLedger - lastLeafLedger)))
          else .error (.rootMismatch currentLedger)
        else
          let rows := (aspLeavesOf db aspMembershipContractId).filter (·.leaf == userLeaf)
          match (visit.order rows).head? with
          | some row => .ok (.userIndex row.leafIndex)
          | none => .ok .registerAtASP

def IndexedTo (db : Db) (address : String) (ledger : Nat) : Prop :=
  ∃ row, db.metadata? address = some row ∧ ledger ≤ row.lastFullyIndexedLedger

variable {visit : Visit AspMembershipLeaf} {db : Db} {address : String}

section Check
variable {userLeaf currentRoot : F} {currentLedger : Nat}

theorem lastAspRoot_eq_none (h : ∀ row ∈ aspLeavesOf db address, db.hasEvent row.eventId = true) :
    lastAspRoot db address = none ↔ aspLeavesOf db address = [] := by
  rw [← lastAspLeaf_eq_none]
  unfold lastAspRoot
  cases hlast : lastAspLeaf db address with
  | none => exact ⟨fun _ => rfl, fun _ => rfl⟩
  | some row =>
    obtain ⟨event, hevent, hid⟩ := hasEvent_iff.mp (h row (lastAspLeaf_eq_some hlast).1)
    have hfound : db.event? row.eventId = some event := hid ▸ event?_of_mem hevent
    simp [hfound]

section
variable (h : Registered db)
include h

theorem check_unindexed (hbehind : ¬IndexedTo db address currentLedger) :
    ∃ gap, checkAspMembershipPrecondition visit db address userLeaf currentRoot currentLedger =
      .ok (.syncRequired gap) := by
  unfold checkAspMembershipPrecondition
  rw [find_getSyncMetadata h]
  cases hrow : db.metadata? address with
  | none => exact ⟨_, rfl⟩
  | some row =>
    have hlt : currentLedger > row.lastFullyIndexedLedger := by
      by_contra hle
      exact hbehind ⟨row, hrow, Nat.le_of_not_lt hle⟩
    exact ⟨_, if_pos hlt⟩

theorem check_indexed (hindexed : IndexedTo db address currentLedger) :
    checkAspMembershipPrecondition visit db address userLeaf currentRoot currentLedger =
      match lastAspRoot db address with
      | none => .ok .registerAtASP
      | some (lastRoot, lastLeafLedger) =>
        if currentRoot ≠ lastRoot then
          if lastLeafLedger < currentLedger then
            .ok (.syncRequired (some (currentLedger - lastLeafLedger)))
          else .error (.rootMismatch currentLedger)
        else
          match (visit.order ((aspLeavesOf db address).filter (·.leaf == userLeaf))).head? with
          | some row => .ok (.userIndex row.leafIndex)
          | none => .ok .registerAtASP := by
  obtain ⟨row, hrow, hle⟩ := hindexed
  unfold checkAspMembershipPrecondition
  rw [find_getSyncMetadata h, hrow]
  exact if_neg (Nat.not_lt.mpr hle)

theorem check_userIndex {i : Nat}
    (hcheck : checkAspMembershipPrecondition visit db address userLeaf currentRoot currentLedger =
      .ok (.userIndex i)) :
    (∃ last, lastAspRoot db address = some (currentRoot, last)) ∧
      ∃ row ∈ aspLeavesOf db address, row.leaf = userLeaf ∧ row.leafIndex = i := by
  by_cases hindexed : IndexedTo db address currentLedger
  · rw [check_indexed h hindexed] at hcheck
    split at hcheck
    · cases hcheck
    · rename_i lastRoot last hlast
      split at hcheck
      · split at hcheck <;> cases hcheck
      · rename_i hroot
        rw [not_not] at hroot
        subst hroot
        refine ⟨⟨last, hlast⟩, ?_⟩
        split at hcheck
        · rename_i row hrow
          obtain ⟨hmem, hleaf⟩ := mem_filter.mp ((visit.perm _).subset (mem_of_head? hrow))
          cases hcheck
          exact ⟨row, hmem, beq_iff_eq.mp hleaf, rfl⟩
        · cases hcheck
  · obtain ⟨gap, hgap⟩ := check_unindexed h hindexed
    rw [hgap] at hcheck
    cases hcheck

theorem check_register_iff :
    checkAspMembershipPrecondition visit db address userLeaf currentRoot currentLedger =
        .ok .registerAtASP ↔
      IndexedTo db address currentLedger ∧ (lastAspRoot db address = none ∨
        (∃ last, lastAspRoot db address = some (currentRoot, last)) ∧
          ∀ row ∈ aspLeavesOf db address, row.leaf ≠ userLeaf) := by
  by_cases hindexed : IndexedTo db address currentLedger
  · rw [check_indexed h hindexed]
    simp only [hindexed, true_and]
    have hrows : (visit.order ((aspLeavesOf db address).filter (·.leaf == userLeaf))).head? = none ↔
        ∀ row ∈ aspLeavesOf db address, row.leaf ≠ userLeaf := by
      rw [head?_eq_none_iff, ← length_eq_zero_iff, (visit.perm _).length_eq,
        length_eq_zero_iff, filter_eq_nil_iff]
      simp
    cases hlast : lastAspRoot db address with
    | none => simp
    | some last =>
      obtain ⟨lastRoot, lastLeafLedger⟩ := last
      by_cases hroot : currentRoot = lastRoot
      · rw [← hrows]
        cases (visit.order ((aspLeavesOf db address).filter (·.leaf == userLeaf))).head? <;> simp [hroot]
      · have hne : ¬lastRoot = currentRoot := fun heq => hroot heq.symm
        by_cases hlt : lastLeafLedger < currentLedger <;> simp [hroot, hne, hlt]
  · obtain ⟨gap, hgap⟩ := @check_unindexed visit db address userLeaf currentRoot currentLedger h hindexed
    simp [hgap, hindexed]

theorem check_error_iff :
    (∃ e, checkAspMembershipPrecondition visit db address userLeaf currentRoot currentLedger =
        .error e) ↔
      IndexedTo db address currentLedger ∧ ∃ lastRoot last,
        lastAspRoot db address = some (lastRoot, last) ∧ currentRoot ≠ lastRoot ∧ currentLedger ≤ last := by
  by_cases hindexed : IndexedTo db address currentLedger
  · rw [check_indexed h hindexed]
    simp only [hindexed, true_and]
    cases hlast : lastAspRoot db address with
    | none => simp
    | some last =>
      obtain ⟨lastRoot, lastLeafLedger⟩ := last
      by_cases hroot : currentRoot = lastRoot
      · cases (visit.order ((aspLeavesOf db address).filter (·.leaf == userLeaf))).head? <;> simp [hroot]
      · by_cases hlt : lastLeafLedger < currentLedger
        · simp [hroot, hlt]
        · simp [hroot, hlt, Nat.le_of_not_lt hlt]
  · obtain ⟨gap, hgap⟩ := @check_unindexed visit db address userLeaf currentRoot currentLedger h hindexed
    simp [hgap, hindexed]

end

end Check

def leavesBy (chain : Chain) (address : String) (ledger : Nat) : Nat :=
  (chain.log.filter (·.contractId == address)).countP fun entry => decide (entry.ledger ≤ ledger)

def rootBy (P : Permutation) (levels : Nat) (chain : Chain) (address : String) (leaves : List U256)
    (ledger : Nat) : F :=
  treeRoot P levels ((leaves.map Nat.cast).take (leavesBy chain address ledger))

def Published.leaf? : Published → Option F
  | leafAdded leaf _ _ => some (leaf : F)
  | _ => none

def insertionsOf (chain : Chain) (address : String) (leaf : F) (ledger : Nat) : List Entry :=
  chain.log.filter fun entry =>
    entry.contractId == address && (entry.event.leaf? == some leaf && decide (entry.ledger ≤ ledger))

def treeQueries (P : Permutation) (levels : Nat) (leaves : List U256) : Set Query :=
  { q | ∃ n, TreeQuery P ((leaves.map Nat.cast).take n) levels q }

def EntryAt (chain : Chain) (address : String) (k : Nat) (entry : Entry) : Prop :=
  (chain.log.filter (·.contractId == address))[k]? = some entry

variable {chain : Chain} {P : Permutation} {levels : Nat} {leaves : List U256} {s : AspMembership.Storage} {ledger : Nat}
  (hchain : ZeroesChain P) (hhistory : AspMembership.History P levels leaves s)
  (hsource : (address, Source.aspMembership s) ∈ chain.sources)

section Leaves
variable {k k' : Nat} {entry entry' : Entry} {leaf : F}

theorem EntryAt.mem (h : EntryAt chain address k entry) : entry ∈ chain.log ∧ entry.contractId = address := by
  obtain ⟨hlog, hcontract⟩ := mem_filter.mp (mem_of_getElem? h)
  exact ⟨hlog, beq_iff_eq.mp hcontract⟩

theorem EntryAt.before (h : EntryAt chain address k entry) (h' : EntryAt chain address k' entry')
    (hordered : Ordered chain) (hlt : k < k') : entry.before entry' := by
  obtain ⟨hk, rfl⟩ := List.getElem?_eq_some_iff.mp h
  obtain ⟨hk', rfl⟩ := List.getElem?_eq_some_iff.mp h'
  exact pairwise_iff_getElem.mp (hordered.sorted.filter _) k k' hk hk' hlt

theorem getElem_le_iff_lt_countP {α : Type} {f : α → Nat} {xs : List α}
    (hsorted : xs.Pairwise fun a b => f a ≤ f b) {bound k : Nat} (hk : k < xs.length) :
    f xs[k] ≤ bound ↔ k < xs.countP fun x => decide (f x ≤ bound) := by
  induction xs generalizing k with
  | nil => cases hk
  | cons x rest ih =>
    obtain ⟨hfirst, hrest⟩ := pairwise_cons.mp hsorted
    by_cases hx : f x ≤ bound
    · rw [countP_cons_of_pos (by simpa using hx)]
      cases k with
      | zero => simpa using hx
      | succ k => simpa using ih hrest (Nat.lt_of_succ_lt_succ hk)
    · have hnone : rest.countP (fun y => decide (f y ≤ bound)) = 0 := by
        rw [countP_eq_zero]
        intro y hy hle
        exact hx ((hfirst y hy).trans (of_decide_eq_true hle))
      rw [countP_cons_of_neg (by simpa using hx), hnone]
      cases k with
      | zero => simpa using hx
      | succ k =>
        have hlt : k < rest.length := Nat.lt_of_succ_lt_succ hk
        have hle := hfirst rest[k] (getElem_mem _)
        simp only [getElem_cons_succ]
        omega

theorem EntryAt.ledger_le_iff (h : EntryAt chain address k entry) (hordered : Ordered chain) :
    entry.ledger ≤ ledger ↔ k < leavesBy chain address ledger := by
  obtain ⟨hk, rfl⟩ := List.getElem?_eq_some_iff.mp h
  apply @getElem_le_iff_lt_countP _ Entry.ledger
  apply (hordered.sorted.filter _).imp
  rintro a b (hlt | ⟨heq, -⟩)
  · exact hlt.le
  · exact heq.le

section
include hchain hhistory hsource

theorem exists_entryAt (hk : k < leaves.length) : ∃ entry, EntryAt chain address k entry := by
  have hlength : (chain.log.filter (·.contractId == address)).length = leaves.length := by
    simpa using congrArg List.length (Chain.leafEvents hchain hhistory hsource)
  exact ⟨_, getElem?_eq_getElem (hlength ▸ hk)⟩

theorem EntryAt.event (h : EntryAt chain address k entry) :
    k < leaves.length ∧ entry.event = leafEvent P levels leaves k := by
  have hevents := congrArg (fun events => events[k]?) (Chain.leafEvents hchain hhistory hsource)
  rw [getElem?_map, h, getElem?_map] at hevents
  obtain ⟨i, hi, heq⟩ := Option.map_eq_some_iff.mp hevents.symm
  obtain ⟨hlt, hrange⟩ := List.getElem?_eq_some_iff.mp hi
  rw [getElem_range] at hrange
  subst hrange
  rw [length_range] at hlt
  exact ⟨hlt, heq.symm⟩

theorem entryAt_of_event (hentry : entry ∈ chain.log) (hcontract : entry.contractId = address)
    (hk : k < leaves.length) (hevent : entry.event = leafEvent P levels leaves k) :
    EntryAt chain address k entry := by
  obtain ⟨entry', hentry'⟩ := exists_entryAt hchain hhistory hsource hk
  obtain ⟨hlog, hcontract'⟩ := hentry'.mem
  have hevent' := (hentry'.event hchain hhistory hsource).2
  rwa [Chain.leaf_eq hentry hlog (hcontract.trans hcontract'.symm) hevent hevent']

theorem mem_insertionsOf (hordered : Ordered chain) :
    entry ∈ insertionsOf chain address leaf ledger ↔
      ∃ k, EntryAt chain address k entry ∧ k < leavesBy chain address ledger ∧
        (leaves.map Nat.cast : List F)[k]? = some leaf := by
  rw [insertionsOf, mem_filter]
  constructor
  · rintro ⟨hentry, hfound⟩
    simp only [Bool.and_eq_true, beq_iff_eq, decide_eq_true_eq] at hfound
    obtain ⟨hcontract, hleaf, hledger⟩ := hfound
    obtain ⟨k, hk, hevent⟩ := Chain.mem_leafEvents hchain hhistory hsource hentry hcontract
    have hat := entryAt_of_event hchain hhistory hsource hentry hcontract hk hevent
    refine ⟨k, hat, (hat.ledger_le_iff hordered).mp hledger, ?_⟩
    rw [hevent] at hleaf
    have hvalue : (((leaves.map Nat.cast : List F).getD k 0).val : F) = leaf := Option.some.inj hleaf
    rw [ZMod.natCast_zmod_val, getD_eq_getElem _ _ (by rwa [length_map])] at hvalue
    rw [← hvalue, getElem?_eq_getElem]
  · rintro ⟨k, hat, hlt, hget⟩
    obtain ⟨hentry, hcontract⟩ := hat.mem
    have hevent := (hat.event hchain hhistory hsource).2
    refine ⟨hentry, ?_⟩
    simp only [Bool.and_eq_true, beq_iff_eq, decide_eq_true_eq]
    refine ⟨hcontract, ?_, (hat.ledger_le_iff hordered).mpr hlt⟩
    have hvalue : (leaves.map Nat.cast : List F).getD k 0 = leaf := by
      rw [getD_eq_getElem?_getD, hget]
      rfl
    rw [hevent]
    change some ((((leaves.map Nat.cast : List F).getD k 0).val : Nat) : F) = some leaf
    rw [ZMod.natCast_zmod_val, hvalue]

theorem insertionsOf_eq_nil_iff (hordered : Ordered chain) :
    insertionsOf chain address leaf ledger = [] ↔
      leaf ∉ (leaves.map Nat.cast : List F).take (leavesBy chain address ledger) := by
  rw [eq_nil_iff_forall_not_mem]
  constructor
  · intro hnone hmem
    obtain ⟨k, hget⟩ := getElem?_of_mem hmem
    rw [getElem?_take] at hget
    split at hget
    · rename_i hlt
      have hk := (List.getElem?_eq_some_iff.mp hget).1
      rw [length_map] at hk
      obtain ⟨entry, hat⟩ := exists_entryAt hchain hhistory hsource hk
      exact hnone entry ((mem_insertionsOf hchain hhistory hsource hordered).mpr ⟨k, hat, hlt, hget⟩)
    · cases hget
  · intro habsent entry hentry
    obtain ⟨k, -, hlt, hget⟩ := (mem_insertionsOf hchain hhistory hsource hordered).mp hentry
    apply habsent
    apply mem_of_getElem? (i := k)
    rw [getElem?_take, if_pos hlt, hget]

end

include hchain hhistory in
theorem treeRoot_take_inj (hfree : CollisionFree P (treeQueries P levels leaves)) (n m : Nat) :
    treeRoot P levels ((leaves.map Nat.cast).take n) = treeRoot P levels ((leaves.map Nat.cast).take m) ↔
      ∀ i, padded zeroLeaf ((leaves.map Nat.cast).take n) i = padded zeroLeaf ((leaves.map Nat.cast).take m) i := by
  have hfits := (hhistory.holds hchain).1.fits
  constructor
  · intro heq i
    by_cases hi : i < 2 ^ levels
    · exact treeRoot_inj hfree (fun _ hq => ⟨n, hq⟩) (fun _ hq => ⟨m, hq⟩) heq hi
    · rw [padded_ge, padded_ge]
      · rw [length_take]
        omega
      · rw [length_take]
        omega
  · intro heq
    exact nodeAt_congr (compress P) fun i _ _ => heq i

theorem padded_take_eq_iff {xs : List F} {n i : Nat} (hleaf : leaf ≠ zeroLeaf) :
    padded zeroLeaf (xs.take n) i = leaf ↔ i < n ∧ xs[i]? = some leaf := by
  rw [padded, getD_eq_getElem?_getD, getElem?_take]
  by_cases hi : i < n
  · rw [if_pos hi]
    cases xs[i]? with
    | none => simp [hi, hleaf.symm]
    | some value => simp [hi]
  · rw [if_neg hi]
    simp [hi, hleaf.symm]

end Leaves

variable {entry : Entry}

section Verdict
variable {codec : Codec} {n : Nat} {userLeaf : F}

variable {last : Nat}

section
variable (h : Mirrored codec chain db)
include h hchain hhistory hsource

theorem Mirrored.lastAspRoot {root : F} (hlast : lastAspRoot db address = some (root, last)) :
    ∃ k entry, EntryAt chain address k entry ∧ db.unprocessed entry.id = false ∧
      entry.ledger = last ∧ root = treeRoot P levels ((leaves.map Nat.cast).take (k + 1)) ∧
      (∃ row ∈ aspLeavesOf db address, row.leafIndex = k) ∧ ∀ row ∈ aspLeavesOf db address, row.leafIndex ≤ k := by
  unfold Sdk.lastAspRoot at hlast
  obtain ⟨row, hrow, hrest⟩ := Option.bind_eq_some_iff.mp hlast
  obtain ⟨event, hevent, heq⟩ := Option.bind_eq_some_iff.mp hrest
  cases heq
  obtain ⟨hmem, hmax⟩ := lastAspLeaf_eq_some hrow
  obtain ⟨k, hat, entry, hentry, hcontract, hpublished, hid, -⟩ := h.mem_aspLeavesOf hchain hhistory hsource hmem
  refine ⟨k, entry, entryAt_of_event hchain hhistory hsource hentry hcontract hat.lt hpublished, ?_, ?_,
    hat.root, ⟨row, hmem, hat.leafIndex⟩, fun r hr => hat.leafIndex ▸ hmax r hr⟩
  · rw [← Bool.not_eq_true, unprocessed_iff]
    rintro ⟨-, -, hleaves, -⟩
    exact hleaves row (mem_filter.mp hmem).1 hid
  · have hstored := mem_of_find?_eq_some hevent
    have hstoredid : event.id = row.eventId := by simpa using find?_some hevent
    obtain ⟨entry', hentry', hid', hledger, -⟩ := h.events event hstored
    rw [hledger, chain.entry_eq hentry' hentry (hid'.symm.trans (hstoredid.trans hid))]

theorem Mirrored.mem_aspLeavesOf_iff {leaf : F} {k : Nat} :
    (∃ row ∈ aspLeavesOf db address, row.leaf = leaf ∧ row.leafIndex = k) ↔
      (leaves.map Nat.cast : List F)[k]? = some leaf ∧
        ∃ entry, EntryAt chain address k entry ∧ db.unprocessed entry.id = false := by
  constructor
  · rintro ⟨row, hrow, rfl, rfl⟩
    obtain ⟨k, hat, entry, hentry, hcontract, hevent, hid, -⟩ := h.mem_aspLeavesOf hchain hhistory hsource hrow
    rw [hat.leafIndex, hat.leaf]
    refine ⟨?_, entry, entryAt_of_event hchain hhistory hsource hentry hcontract hat.lt hevent, ?_⟩
    · rw [getD_eq_getElem _ _ (by rw [length_map]; exact hat.lt), getElem?_eq_getElem]
    · rw [← Bool.not_eq_true, unprocessed_iff]
      rintro ⟨-, -, hleaves, -⟩
      exact hleaves row (mem_filter.mp hrow).1 hid
  · rintro ⟨hget, entry, hentry, hprocessed⟩
    obtain ⟨hlog, hcontract⟩ := hentry.mem
    obtain ⟨hk, hevent⟩ := hentry.event hchain hhistory hsource
    obtain ⟨row, hrow, hat, -⟩ := h.exists_aspLeaf hlog hcontract hk hevent
      (h.hasEvent_of_processed hprocessed) hprocessed
    refine ⟨row, hrow, ?_, hat.leafIndex⟩
    rw [hat.leaf, getD_eq_getElem?_getD, hget]
    rfl

end

/-- The answers that are right: an index leads to the user's leaf in the tree that was read, and
whoever is asked to register has not been inserted. -/
structure SoundVerdict (chain : Chain) (address : String) (leaves : List U256) (userLeaf : F) (ledger : Nat)
    (verdict : Except PreconditionError AspMembershipSync) : Prop where
  userIndex : ∀ i, verdict = .ok (.userIndex i) →
    i < leavesBy chain address ledger ∧ (leaves.map Nat.cast : List F)[i]? = some userLeaf
  register : verdict = .ok .registerAtASP →
    userLeaf ∉ (leaves.map Nat.cast : List F).take (leavesBy chain address ledger)

/-- Of a contract that counts as indexed: as long as none of its leaves is processed, the user's is
not among those that are stored or that lie before the first indexed ledger, and if the last root
is the one read, the user's leaf does not lie before that ledger only. -/
structure Noticed (chain : Chain) (indexer : Indexer) (db : Db) (address : String) (userLeaf root : F)
    (ledger : Nat) : Prop where
  waiting : IndexedTo db address ledger → aspLeavesOf db address = [] →
    ∀ entry ∈ insertionsOf chain address userLeaf ledger,
      db.hasEvent entry.id = false ∧ indexer.minPoolLedger ≤ entry.ledger
  early : IndexedTo db address ledger → (∃ last, lastAspRoot db address = some (root, last)) →
    insertionsOf chain address userLeaf ledger ≠ [] →
    ∃ entry ∈ insertionsOf chain address userLeaf ledger,
      indexer.minPoolLedger ≤ entry.ledger ∨ db.unprocessed entry.id = false

theorem Mirrored.aspLeaf_hasEvent (h : Mirrored codec chain db) :
    ∀ row ∈ aspLeavesOf db address, db.hasEvent row.eventId = true := fun _ hrow =>
  h.leaves.hasEvent leafAdded?_id (fun _ _ => rfl) (mem_filter.mp hrow).1

include hchain hhistory in
theorem lt_leavesBy_iff (hfree : CollisionFree P (treeQueries P levels leaves)) (hleaf : userLeaf ≠ zeroLeaf) {i : Nat}
    (hroot : rootBy P levels chain address leaves ledger =
      treeRoot P levels ((leaves.map Nat.cast).take n)) (hget : (leaves.map Nat.cast : List F)[i]? = some userLeaf) :
    i < n ↔ i < leavesBy chain address ledger := by
  have hpadded := (treeRoot_take_inj hchain hhistory hfree _ _).mp hroot i
  constructor
  · intro hi
    rw [(padded_take_eq_iff hleaf).mpr ⟨hi, hget⟩] at hpadded
    exact ((padded_take_eq_iff hleaf).mp hpadded).1
  · intro hi
    rw [(padded_take_eq_iff hleaf).mpr ⟨hi, hget⟩] at hpadded
    exact ((padded_take_eq_iff hleaf).mp hpadded.symm).1

section
variable {hordered : Ordered chain} {place : String → Nat} {indexer : Indexer}
  (hsynced : Synced codec chain (chain.feed codec hordered place) indexer db)
  (hfree : CollisionFree P (treeQueries P levels leaves)) (hleaf : userLeaf ≠ zeroLeaf)
include hsynced hchain hhistory hsource hfree hleaf

theorem SoundVerdict.noticed (hsound : SoundVerdict chain address leaves userLeaf ledger
    (checkAspMembershipPrecondition visit db address userLeaf (rootBy P levels chain address leaves ledger) ledger)) :
    Noticed chain indexer db address userLeaf (rootBy P levels chain address leaves ledger) ledger := by
  have hmirrored := hsynced.mirrored
  have hregistered := hsynced.indexed.registered
  constructor
  · intro hindexed hrows
    have hregister := hsound.register ((check_register_iff hregistered).mpr
      ⟨hindexed, .inl ((lastAspRoot_eq_none hmirrored.aspLeaf_hasEvent).mpr hrows)⟩)
    rw [(insertionsOf_eq_nil_iff hchain hhistory hsource hordered).mpr hregister]
    nofun
  · rintro hindexed ⟨last, hlast⟩ hinserted
    by_contra hnone
    push Not at hnone
    apply hinserted
    apply (insertionsOf_eq_nil_iff hchain hhistory hsource hordered).mpr
    apply hsound.register
    apply (check_register_iff hregistered).mpr
    refine ⟨hindexed, .inr ⟨⟨last, hlast⟩, fun row hrow hrowleaf => ?_⟩⟩
    -- A row of the user's leaf would be one of the insertions, and processed.
    obtain ⟨k, -, -, -, -, hroot, -, hmax⟩ := hmirrored.lastAspRoot hchain hhistory hsource hlast
    obtain ⟨hget, entry, hentry, hprocessed⟩ :=
      (hmirrored.mem_aspLeavesOf_iff hchain hhistory hsource).mp ⟨row, hrow, hrowleaf, rfl⟩
    have hlt := (lt_leavesBy_iff hchain hhistory hfree hleaf hroot hget).mp (Nat.lt_succ_of_le (hmax row hrow))
    have hmem := (mem_insertionsOf hchain hhistory hsource hordered).mpr ⟨_, hentry, hlt, hget⟩
    exact (hnone entry hmem).2 hprocessed

/-- A stored root that is read again has all rows below it, from the first indexed ledger on. -/
theorem Synced.processed_of_root (haddress : address ∈ indexer.contractIds)
    (hlast : lastAspRoot db address = some (rootBy P levels chain address leaves ledger, last))
    (hentry : entry ∈ insertionsOf chain address userLeaf ledger)
    (hbase : indexer.minPoolLedger ≤ entry.ledger) : db.unprocessed entry.id = false := by
  obtain ⟨i, hat, hlt, hget⟩ := (mem_insertionsOf hchain hhistory hsource hordered).mp hentry
  obtain ⟨k, top, htop, hdone, -, hroot, -⟩ := hsynced.mirrored.lastAspRoot hchain hhistory hsource hlast
  have hle := Nat.le_of_lt_succ ((lt_leavesBy_iff hchain hhistory hfree hleaf hroot hget).mpr hlt)
  rcases Nat.lt_or_eq_of_le hle with hbelow | rfl
  · obtain ⟨hlog, hcontract⟩ := hat.mem
    obtain ⟨hlog', hcontract'⟩ := htop.mem
    exact hsynced.inOrder.processed entry hlog top hlog' (hat.before htop hordered hbelow)
      (hcontract ▸ haddress) (hcontract' ▸ haddress) hbase
      (by rw [(hat.event hchain hhistory hsource).2]; rfl) hdone
  · rwa [Option.some.inj (hat.symm.trans htop)]

theorem Noticed.sound (haddress : address ∈ indexer.contractIds) (hnoticed : Noticed chain indexer db address userLeaf
      (rootBy P levels chain address leaves ledger) ledger) :
    SoundVerdict chain address leaves userLeaf ledger
      (checkAspMembershipPrecondition visit db address userLeaf
        (rootBy P levels chain address leaves ledger) ledger) := by
  have hmirrored := hsynced.mirrored
  have hregistered := hsynced.indexed.registered
  constructor
  · intro i hcheck
    obtain ⟨⟨last, hlast⟩, hrow⟩ := check_userIndex hregistered hcheck
    obtain ⟨hget, -⟩ := (hmirrored.mem_aspLeavesOf_iff hchain hhistory hsource).mp hrow
    obtain ⟨row, hmem, -, rfl⟩ := hrow
    obtain ⟨k, -, -, -, -, hroot, -, hmax⟩ := hmirrored.lastAspRoot hchain hhistory hsource hlast
    exact ⟨(lt_leavesBy_iff hchain hhistory hfree hleaf hroot hget).mp (Nat.lt_succ_of_le (hmax row hmem)), hget⟩
  · intro hcheck
    apply (insertionsOf_eq_nil_iff hchain hhistory hsource hordered).mp
    obtain ⟨hindexed, hnone | ⟨⟨last, hlast⟩, habsent⟩⟩ := (check_register_iff hregistered).mp hcheck
    · have hrows := (lastAspRoot_eq_none hmirrored.aspLeaf_hasEvent).mp hnone
      apply eq_nil_iff_forall_not_mem.mpr
      intro entry hentry
      obtain ⟨hunknown, hbase⟩ := hnoticed.waiting hindexed hrows entry hentry
      obtain ⟨row, hrow, hle⟩ := hindexed
      obtain ⟨k, hat, hlt, -⟩ := (mem_insertionsOf hchain hhistory hsource hordered).mp hentry
      obtain ⟨hlog, hcontract⟩ := hat.mem
      have hknown := (hsynced.indexed.covers address row hrow).fully (entry.contractEvent codec)
        (mem_map_of_mem hlog) (show entry.contractId ∈ _ from hcontract ▸ haddress) hbase
        (((hat.ledger_le_iff hordered).mpr hlt).trans hle)
      exact Bool.noConfusion (hunknown.symm.trans hknown)
    · by_contra hinserted
      obtain ⟨entry, hentry, hcase⟩ := hnoticed.early hindexed ⟨last, hlast⟩ hinserted
      have hprocessed : db.unprocessed entry.id = false := hcase.elim
        (hsynced.processed_of_root hchain hhistory hsource hfree hleaf haddress hlast hentry) id
      obtain ⟨i, hat, -, hget⟩ := (mem_insertionsOf hchain hhistory hsource hordered).mp hentry
      obtain ⟨row, hrow, hrowleaf, -⟩ :=
        (hmirrored.mem_aspLeavesOf_iff hchain hhistory hsource).mpr ⟨hget, entry, hat, hprocessed⟩
      exact habsent row hrow hrowleaf

end

/-- A verdict is right if and only if no insertion of the user's leaf goes unnoticed. -/
theorem membership_sound_iff {hordered : Ordered chain} {place : String → Nat} {indexer : Indexer}
    {notePubkey membershipBlinding : F} (hrun : SyncRun codec (chain.feed codec hordered place) indexer db)
    (haddress : address ∈ indexer.contractIds) (hchain : ZeroesChain P)
    (hhistory : AspMembership.History P levels leaves s) (hsource : (address, Source.aspMembership s) ∈ chain.sources)
    (hfree : CollisionFree P (treeQueries P levels leaves))
    (havoids : Avoids P {.hash2 notePubkey membershipBlinding 1} zeroLeaf) :
    SoundVerdict chain address leaves (aspMembershipLeaf P notePubkey membershipBlinding) ledger
        (checkAspMembershipPrecondition visit db address
          (aspMembershipLeaf P notePubkey membershipBlinding)
          (rootBy P levels chain address leaves ledger) ledger) ↔
      Noticed chain indexer db address (aspMembershipLeaf P notePubkey membershipBlinding)
        (rootBy P levels chain address leaves ledger) ledger := by
  have hleaf : aspMembershipLeaf P notePubkey membershipBlinding ≠ zeroLeaf := havoids _ rfl
  constructor
  · intro hsound
    exact hsound.noticed hchain hhistory hsource hrun.synced hfree hleaf
  · intro hnoticed
    exact hnoticed.sound hchain hhistory hsource hrun.synced hfree hleaf haddress

structure StoredUpTo (codec : Codec) (chain : Chain) (address : String) (n : Nat) (db : Db) : Prop where
  mirrored : Mirrored codec chain db
  registered : Registered db
  rows : ∀ k, (∃ row ∈ aspLeavesOf db address, row.leafIndex = k) ↔ k < n

include hchain hhistory hsource in
theorem StoredUpTo.lastAspRoot (hstored : StoredUpTo codec chain address n db) {root : F}
    (hlast : lastAspRoot db address = some (root, last)) :
    0 < n ∧ (∃ entry, EntryAt chain address (n - 1) entry ∧ entry.ledger = last) ∧
      root = treeRoot P levels ((leaves.map Nat.cast).take n) := by
  obtain ⟨k, entry, hentry, -, hledger, hroot, hrow, hmax⟩ := hstored.mirrored.lastAspRoot hchain hhistory hsource hlast
  have hk : k < n := (hstored.rows k).mp hrow
  obtain ⟨top, htop, hindex⟩ := (hstored.rows (n - 1)).mpr (by omega)
  have hle := hmax top htop
  obtain rfl : k = n - 1 := by omega
  rw [Nat.sub_add_cancel (by omega)] at hroot
  exact ⟨by omega, ⟨entry, hentry, hledger⟩, hroot⟩

/-- There is no error if and only if the last stored leaf is older than the read, or the stored
leaves are those that were read, apart from empty ones at the end. -/
theorem no_root_mismatch_iff (hstored : StoredUpTo codec chain address n db)
    (hchain : ZeroesChain P) (hhistory : AspMembership.History P levels leaves s)
    (hsource : (address, Source.aspMembership s) ∈ chain.sources)
    (hfree : CollisionFree P (treeQueries P levels leaves)) :
    (∀ e, checkAspMembershipPrecondition visit db address userLeaf
        (rootBy P levels chain address leaves ledger) ledger ≠ .error e) ↔
      (IndexedTo db address ledger → ∀ entry, 0 < n → EntryAt chain address (n - 1) entry →
        entry.ledger < ledger ∨ ∀ i, padded zeroLeaf ((leaves.map Nat.cast).take n) i =
          padded zeroLeaf ((leaves.map Nat.cast).take (leavesBy chain address ledger)) i) := by
  have herror := @check_error_iff visit db address userLeaf (rootBy P levels chain address leaves ledger)
    ledger hstored.registered
  constructor
  · intro hok hindexed entry hpos hentry
    cases hlast : Sdk.lastAspRoot db address with
    | none =>
      obtain ⟨row, hrow, -⟩ := (hstored.rows 0).mpr hpos
      rw [(lastAspRoot_eq_none hstored.mirrored.aspLeaf_hasEvent).mp hlast] at hrow
      cases hrow
    | some pair =>
      obtain ⟨root, last⟩ := pair
      obtain ⟨-, ⟨entry', hentry', hledger⟩, hroot⟩ := hstored.lastAspRoot hchain hhistory hsource hlast
      obtain rfl : entry = entry' := Option.some.inj (hentry.symm.trans hentry')
      by_cases hlt : entry.ledger < ledger
      · exact .inl hlt
      · right
        apply (treeRoot_take_inj hchain hhistory hfree _ _).mp
        by_contra hne
        obtain ⟨e, he⟩ := herror.mpr ⟨hindexed, root, last, hlast,
          fun heq => hne (hroot.symm.trans heq.symm), hledger ▸ Nat.le_of_not_lt hlt⟩
        exact hok e he
  · intro hcondition e he
    obtain ⟨hindexed, root, last, hlast, hne, hle⟩ := herror.mp ⟨e, he⟩
    obtain ⟨hpos, ⟨entry, hentry, hledger⟩, hroot⟩ := hstored.lastAspRoot hchain hhistory hsource hlast
    rcases hcondition hindexed entry hpos hentry with hlt | hsame
    · omega
    · exact hne (hroot.trans ((treeRoot_take_inj hchain hhistory hfree _ _).mpr hsame)).symm

end Verdict

section Sample

def leafTable : List (Query × F) :=
  zeroesTable ++ [(.hash2 1 2 1, 5), (.compress 5 zeroLeaf, 51), (.compress 5 7, 57)]

abbrev leafPermutation : Permutation := tablePermutation leafTable

theorem leafTable_keys_nodup : (leafTable.map Prod.fst).Nodup := by decide +kernel

theorem leafTable_digests_nodup : (zeroLeaf :: leafTable.map Prod.snd).Nodup := by decide +kernel

theorem leaf_chain : ZeroesChain leafPermutation := zeroesChain_tablePermutation _

theorem leaf_userLeaf : aspMembershipLeaf leafPermutation 1 2 = 5 := by
  have hentry : (Query.hash2 1 2 1, (5 : F)) ∈ leafTable := by decide +kernel
  exact digest_of_mem leafTable_keys_nodup hentry

theorem leaf_avoids : Avoids leafPermutation {.hash2 1 2 1} zeroLeaf := by
  rintro q rfl
  change aspMembershipLeaf leafPermutation 1 2 ≠ zeroLeaf
  rw [leaf_userLeaf]
  decide

theorem leaf_collisionFree : CollisionFree leafPermutation (treeQueries leafPermutation 1 [5, 7]) := by
  apply (collisionFree_tablePermutation leafTable_keys_nodup leafTable_digests_nodup.of_cons).mono
  rintro q ⟨n, input, ⟨level, position, hlevel, hposition, rfl⟩, rfl⟩
  obtain rfl : level = 0 := by omega
  obtain rfl : position = 0 := by simpa using hposition
  rw [nodeAt_zero, nodeAt_zero]
  rcases n with _ | _ | n
  · change Query.compress zeroLeaf zeroLeaf ∈ leafTable.map Prod.fst
    decide +kernel
  · change Query.compress 5 zeroLeaf ∈ leafTable.map Prod.fst
    decide +kernel
  · change Query.compress 5 7 ∈ leafTable.map Prod.fst
    decide +kernel

def leafIndexer : Indexer := ⟨["M"], 1⟩

theorem mem_aspEntries (h : entry ∈ aspEntries s) :
    entry.contractId ∈ leafIndexer.contractIds ∧ leafIndexer.minPoolLedger ≤ entry.ledger := by
  obtain ⟨event, -, rfl⟩ := mem_map.mp h
  exact ⟨mem_singleton.mpr rfl, Nat.succ_pos _⟩

theorem aspEntries_sorted (s : AspMembership.Storage) : (aspEntries s).Pairwise Entry.before := by
  rw [aspEntries, pairwise_map, pairwise_iff_getElem]
  intro i j hi hj hij
  left
  simp only [getElem_zipIdx, Nat.zero_add]
  omega

section
include hchain hhistory

theorem aspChain_ordered :
    Ordered (aspChain hchain hhistory) where
  sorted := aspEntries_sorted s
  positive _ hentry := (mem_aspEntries hentry).2

theorem aspEntries_length : (aspEntries s).length = leaves.length := by
  rw [aspEntries, length_map, length_zipIdx, (hhistory.holds hchain).1.events_eq]
  simp

theorem aspChain_entryAt
    {k : Nat} (h : EntryAt (aspChain hchain hhistory) "M" k entry) : entry.ledger = k + 1 := by
  have hall : (aspChain hchain hhistory).log.filter (·.contractId == "M") = aspEntries s := by
    apply filter_eq_self.mpr
    intro entry hentry
    obtain ⟨event, -, rfl⟩ := mem_map.mp hentry
    rfl
  unfold EntryAt at h
  rw [hall, aspEntries, getElem?_map] at h
  obtain ⟨event, hevent, rfl⟩ := Option.map_eq_some_iff.mp h
  obtain ⟨-, rfl⟩ := List.getElem?_eq_some_iff.mp hevent
  simp

theorem aspChain_leavesBy
    {ledger : Nat} (hle : ledger ≤ leaves.length) : leavesBy (aspChain hchain hhistory) "M" ledger = ledger := by
  have hsource : ("M", Source.aspMembership s) ∈ (aspChain hchain hhistory).sources := mem_singleton.mpr rfl
  have hordered := aspChain_ordered hchain hhistory
  have hiff : ∀ k, k < leaves.length →
      (k < leavesBy (aspChain hchain hhistory) "M" ledger ↔ k < ledger) := by
    intro k hk
    obtain ⟨entry, hentry⟩ := exists_entryAt hchain hhistory hsource hk
    rw [← hentry.ledger_le_iff hordered, aspChain_entryAt hchain hhistory hentry]
    exact Nat.succ_le_iff
  have hcount : leavesBy (aspChain hchain hhistory) "M" ledger ≤ leaves.length := by
    rw [← aspEntries_length hchain hhistory]
    exact countP_le_length.trans (length_filter_le _ _)
  by_contra hne
  rcases Nat.lt_or_gt_of_ne hne with hlt | hgt
  · have := (hiff _ (hlt.trans_le hle)).mpr hlt
    omega
  · have := (hiff ledger (hgt.trans_le hcount)).mp hgt
    omega

end

theorem exists_leaf_history : ∃ s, AspMembership.History leafPermutation 1 [5, 7] s := by
  obtain ⟨s, hhistory, -⟩ := AspMembership.exists_history leaf_chain (le_refl 1) (by decide)
    (show ([5, 7] : List F).length ≤ 2 ^ 1 by decide)
  exact ⟨s, hhistory⟩

variable (hleaves : AspMembership.History leafPermutation 1 [5, 7] s)
include hleaves

theorem leafChain_ne_nil : (aspChain leaf_chain hleaves).log ≠ [] := by
  rw [← length_pos_iff]
  exact (aspEntries_length leaf_chain hleaves).symm ▸ Nat.two_pos

theorem leaf_processed : ∃ place db, SyncRun unaryCodec
    ((aspChain leaf_chain hleaves).feed unaryCodec (aspChain_ordered leaf_chain hleaves) place)
      leafIndexer db ∧
    (∀ entry ∈ (aspChain leaf_chain hleaves).log, db.unprocessed entry.id = false) ∧
    ∀ ledger, ledger ≤ 2 → IndexedTo db "M" ledger := by
  obtain ⟨place, db, hrun, hprocessed, hindexed⟩ := exists_allProcessed unaryCodec
    leafIndexer (aspChain_ordered leaf_chain hleaves) (leafChain_ne_nil hleaves)
    (fun _ hentry => (mem_aspEntries hentry).1) (fun _ hentry => (mem_aspEntries hentry).2)
    (aspChain_distinct s) 2
  refine ⟨place, db, hrun, hprocessed, fun ledger hle => ?_⟩
  obtain ⟨row, hrow⟩ := hindexed.known "M" (mem_singleton.mpr rfl)
  exact ⟨row, hrow, (hindexed.latest "M" row hrow).2.symm ▸ hle⟩

theorem leaf_storedUpTo {place : String → Nat} {db : Db} (hrun : SyncRun unaryCodec
      ((aspChain leaf_chain hleaves).feed unaryCodec (aspChain_ordered leaf_chain hleaves) place)
      leafIndexer db) (hprocessed : ∀ entry ∈ (aspChain leaf_chain hleaves).log, db.unprocessed entry.id = false) :
    StoredUpTo unaryCodec (aspChain leaf_chain hleaves) "M" 2 db where
  mirrored := hrun.synced.mirrored
  registered := hrun.synced.indexed.registered
  rows k := by
    have hsource : ("M", Source.aspMembership s) ∈ (aspChain leaf_chain hleaves).sources := mem_singleton.mpr rfl
    constructor
    · rintro ⟨row, hrow, rfl⟩
      obtain ⟨k, hat, -⟩ := hrun.synced.mirrored.mem_aspLeavesOf leaf_chain hleaves hsource hrow
      exact hat.leafIndex ▸ hat.lt
    · intro hk
      obtain ⟨entry, hentry⟩ := exists_entryAt leaf_chain hleaves hsource (show k < [5, 7].length from hk)
      obtain ⟨row, hrow, -, hindex⟩ := (hrun.synced.mirrored.mem_aspLeavesOf_iff leaf_chain hleaves hsource).mpr
          ⟨getElem?_eq_getElem (show k < ([5, 7].map Nat.cast : List F).length from hk), entry, hentry,
            hprocessed entry hentry.mem.1⟩
      exact ⟨row, hrow, hindex⟩

omit hleaves

/-- Once the leaves are processed, the verdict is right. -/
theorem membership_sound_sample : ∃ s, ∃ hleaves : AspMembership.History leafPermutation 1 [5, 7] s,
    ∃ db, SoundVerdict (aspChain leaf_chain hleaves) "M" [5, 7] (aspMembershipLeaf leafPermutation 1 2) 2
      (checkAspMembershipPrecondition (.asStored _) db "M" (aspMembershipLeaf leafPermutation 1 2)
        (rootBy leafPermutation 1 (aspChain leaf_chain hleaves) "M" [5, 7] 2) 2) := by
  obtain ⟨s, hleaves⟩ := exists_leaf_history
  obtain ⟨place, db, hrun, hprocessed, hindexed⟩ := leaf_processed hleaves
  refine ⟨s, hleaves, db, (membership_sound_iff hrun (mem_singleton.mpr rfl) leaf_chain hleaves
    (mem_singleton.mpr rfl) leaf_collisionFree leaf_avoids).mpr ⟨?_, ?_⟩⟩
  · intro _ hempty
    obtain ⟨row, hrow, -⟩ := ((leaf_storedUpTo hleaves hrun hprocessed).rows 0).mpr Nat.two_pos
    rw [hempty] at hrow
    cases hrow
  · intro _ _ hne
    obtain ⟨entry, hentry⟩ := exists_mem_of_ne_nil _ hne
    exact ⟨entry, hentry, .inr (hprocessed entry (mem_filter.mp hentry).1)⟩

/-- The user's leaf is stored but not processed, and the user is asked to register. -/
theorem waiting_leaf_unnoticed : ∃ s, ∃ hleaves : AspMembership.History leafPermutation 1 [5, 7] s,
    ∃ place db, SyncRun unaryCodec ((aspChain leaf_chain hleaves).feed unaryCodec
      (aspChain_ordered leaf_chain hleaves) place) leafIndexer db ∧
    checkAspMembershipPrecondition (.asStored _) db "M" (aspMembershipLeaf leafPermutation 1 2)
      (rootBy leafPermutation 1 (aspChain leaf_chain hleaves) "M" [5, 7] 2) 2 = .ok .registerAtASP ∧
    aspMembershipLeaf leafPermutation 1 2 ∈ ([5, 7].map Nat.cast : List F).take
      (leavesBy (aspChain leaf_chain hleaves) "M" 2) := by
  obtain ⟨s, hleaves⟩ := exists_leaf_history
  obtain ⟨place, db, hrun, -, hwaiting, hindexed⟩ := exists_allStored unaryCodec leafIndexer
    (aspChain_ordered leaf_chain hleaves) (leafChain_ne_nil hleaves)
    (fun _ hentry => (mem_aspEntries hentry).1) (fun _ hentry => (mem_aspEntries hentry).2) 2
  refine ⟨s, hleaves, place, db, hrun, ?_, ?_⟩
  · obtain ⟨row, hrow⟩ := hindexed.known "M" (mem_singleton.mpr rfl)
    refine (check_register_iff hrun.synced.indexed.registered).mpr
      ⟨⟨row, hrow, (hindexed.latest "M" row hrow).2.ge⟩, .inl ?_⟩
    apply (lastAspRoot_eq_none hrun.synced.mirrored.aspLeaf_hasEvent).mpr
    apply eq_nil_iff_forall_not_mem.mpr
    intro leaf hleaf
    exact (unprocessed_iff.mp (hwaiting leaf.eventId)).2.2.1 leaf (mem_filter.mp hleaf).1 rfl
  · rw [leaf_userLeaf, aspChain_leavesBy leaf_chain hleaves (le_refl 2)]
    exact mem_cons_self

/-- A read of the ledger that is indexed. -/
theorem no_root_mismatch_sample : ∃ s, ∃ hleaves : AspMembership.History leafPermutation 1 [5, 7] s,
    ∃ db, StoredUpTo unaryCodec (aspChain leaf_chain hleaves) "M" 2 db ∧
      ∀ e, checkAspMembershipPrecondition (.asStored _) db "M" 5
        (rootBy leafPermutation 1 (aspChain leaf_chain hleaves) "M" [5, 7] 2) 2 ≠ .error e := by
  obtain ⟨s, hleaves⟩ := exists_leaf_history
  obtain ⟨place, db, hrun, hprocessed, -⟩ := leaf_processed hleaves
  have hstored := leaf_storedUpTo hleaves hrun hprocessed
  refine ⟨s, hleaves, db, hstored, (no_root_mismatch_iff hstored leaf_chain hleaves
    (mem_singleton.mpr rfl) leaf_collisionFree).mpr fun _ _ _ _ => .inr fun i => ?_⟩
  rw [aspChain_leavesBy leaf_chain hleaves (le_refl 2)]

/-- A read of the ledger before the last processed leaf. -/
theorem older_read_mismatch : ∃ s, ∃ hleaves : AspMembership.History leafPermutation 1 [5, 7] s,
    ∃ place db, SyncRun unaryCodec ((aspChain leaf_chain hleaves).feed unaryCodec
      (aspChain_ordered leaf_chain hleaves) place) leafIndexer db ∧
    StoredUpTo unaryCodec (aspChain leaf_chain hleaves) "M" 2 db ∧
    ∃ e, checkAspMembershipPrecondition (.asStored _) db "M" 5
      (rootBy leafPermutation 1 (aspChain leaf_chain hleaves) "M" [5, 7] 1) 1 = .error e := by
  obtain ⟨s, hleaves⟩ := exists_leaf_history
  obtain ⟨place, db, hrun, hprocessed, hindexed⟩ := leaf_processed hleaves
  have hstored := leaf_storedUpTo hleaves hrun hprocessed
  have hsource : ("M", Source.aspMembership s) ∈ (aspChain leaf_chain hleaves).sources := mem_singleton.mpr rfl
  refine ⟨s, hleaves, place, db, hrun, hstored, (check_error_iff hstored.registered).mpr ⟨hindexed 1 (by decide), ?_⟩⟩
  cases hlast : lastAspRoot db "M" with
  | none =>
    obtain ⟨row, hrow, -⟩ := (hstored.rows 0).mpr Nat.two_pos
    rw [(lastAspRoot_eq_none hstored.mirrored.aspLeaf_hasEvent).mp hlast] at hrow
    cases hrow
  | some pair =>
    obtain ⟨root, last⟩ := pair
    obtain ⟨-, ⟨entry, hentry, hledger⟩, hroot⟩ := hstored.lastAspRoot leaf_chain hleaves hsource hlast
    refine ⟨root, last, rfl, ?_, ?_⟩
    · rw [hroot, rootBy, aspChain_leavesBy leaf_chain hleaves (show 1 ≤ [5, 7].length by decide)]
      intro heq
      have hpadded := (treeRoot_take_inj leaf_chain hleaves leaf_collisionFree _ _).mp heq 1
      exact absurd hpadded (by decide)
    · rw [← hledger, aspChain_entryAt leaf_chain hleaves hentry]
      decide

end Sample

end PrivatePayments.Sdk

import PrivatePayments.Sdk.Ingest

/-! `state/src/storage.rs`: the leaves of the membership trees in the wallet's database. -/
namespace PrivatePayments.Sdk
open Contracts Lib List

def aspLeavesOf (db : Db) (address : String) : List AspMembershipLeaf :=
  db.aspMembershipLeaves.rows.filter fun row =>
    (db.contractOf row.eventId).bind db.address? == some address

def collectAspLeaves : Nat → List AspMembershipLeaf → Except StorageError (List F)
  | _, [] => .ok []
  | expectedIndex, row :: rest =>
      if row.leafIndex ≠ expectedIndex then .error (.gap expectedIndex row.leafIndex)
      else do
        let next ← orFail (checkedAdd 32 expectedIndex 1) .indexOverflow
        let leaves ← collectAspLeaves next rest
        return row.leaf :: leaves

def getAllAspMembershipLeavesOrdered (db : Db) (aspMembershipContractId : String) :
    Except StorageError (List F) :=
  collectAspLeaves 0 ((aspLeavesOf db aspMembershipContractId).insertionSort fun a b => a.leafIndex ≤ b.leafIndex)

def lastAspLeaf (db : Db) (aspMembershipContractId : String) : Option AspMembershipLeaf :=
  ((aspLeavesOf db aspMembershipContractId).insertionSort fun a b => b.leafIndex ≤ a.leafIndex).head?

theorem collectAspLeaves_eq (k : Nat) (rows : List AspMembershipLeaf) :
    collectAspLeaves k rows =
      collectLeaves k (rows.map fun row => ⟨0, row.leaf, row.leafIndex, [], row.eventId⟩) := by
  induction rows generalizing k with
  | nil => rfl
  | cons row rest ih => simp only [collectAspLeaves, map_cons, collectLeaves, ih]

variable {k : Nat}

theorem collectAspLeaves_eq_ok {rows : List AspMembershipLeaf} {leaves : List F} :
    collectAspLeaves k rows = .ok leaves ↔
      rows.map (fun row => (row.leaf, row.leafIndex)) = leaves.zipIdx k ∧
        (leaves ≠ [] → k + leaves.length < 2 ^ 32) := by
  rw [collectAspLeaves_eq, collectLeaves_eq_ok, map_map]
  rfl

variable {address : String}

theorem lastAspLeaf_eq_none {db : Db} :
    lastAspLeaf db address = none ↔ aspLeavesOf db address = [] := by
  rw [lastAspLeaf, head?_eq_none_iff, ← length_eq_zero_iff, length_insertionSort,
    length_eq_zero_iff]

variable {row : AspMembershipLeaf}

theorem lastAspLeaf_eq_some {db : Db}
    (h : lastAspLeaf db address = some row) :
    row ∈ aspLeavesOf db address ∧ ∀ r ∈ aspLeavesOf db address, r.leafIndex ≤ row.leafIndex := by
  have htotal : Std.Total fun a b : AspMembershipLeaf => b.leafIndex ≤ a.leafIndex := ⟨fun a b => Nat.le_total _ _⟩
  have htrans : IsTrans AspMembershipLeaf fun a b => b.leafIndex ≤ a.leafIndex := ⟨fun _ _ _ hab hbc => hbc.trans hab⟩
  have hsorted := pairwise_insertionSort (fun a b : AspMembershipLeaf => b.leafIndex ≤ a.leafIndex)
    (aspLeavesOf db address)
  have hperm := perm_insertionSort (fun a b : AspMembershipLeaf => b.leafIndex ≤ a.leafIndex)
    (aspLeavesOf db address)
  unfold lastAspLeaf at h
  generalize (aspLeavesOf db address).insertionSort (fun a b => b.leafIndex ≤ a.leafIndex) = sorted at *
  cases sorted with
  | nil => cases h
  | cons first rest =>
    cases h
    refine ⟨hperm.subset mem_cons_self, fun r hr => ?_⟩
    rcases mem_cons.mp (hperm.mem_iff.mpr hr) with rfl | hrest
    · exact Nat.le_refl _
    · exact (pairwise_cons.mp hsorted).1 r hrest

section Source
variable {codec : Codec} {chain : Chain} {db : Db} {address : String} {P : Permutation} {levels : Nat}
  {leaves : List U256} {s : AspMembership.Storage}

def leafEvent (P : Permutation) (levels : Nat) (leaves : List U256) (k : Nat) : Published :=
  .ofLeaf (AspMembership.eventAt P levels (leaves.map Nat.cast) k)

structure RowAt (P : Permutation) (levels : Nat) (leaves : List U256) (k : Nat)
    (row : AspMembershipLeaf) : Prop where
  lt : k < leaves.length
  leafIndex : row.leafIndex = k
  leaf : row.leaf = (leaves.map Nat.cast : List F).getD k 0
  root : row.root = treeRoot P levels ((leaves.map Nat.cast).take (k + 1))

variable {entry : Entry}

theorem leafRow_at {event : LeafAddedEvent} {k n : Nat} (hk : k < leaves.length)
    (hevent : entry.event = leafEvent P levels leaves k) (hsome : (entry.processed codec).leafAdded? = some event) :
    RowAt P levels leaves k (leafRow db n event) := by
  rw [Entry.processed, hevent] at hsome
  cases hsome
  exact ⟨hk, rfl, ZMod.natCast_zmod_val ((leaves.map Nat.cast : List F).getD k 0),
    ZMod.natCast_zmod_val (treeRoot P levels _)⟩

theorem Mirrored.exists_aspLeaf (h : Mirrored codec chain db) (hentry : entry ∈ chain.log)
    (hcontract : entry.contractId = address) (hk : k < leaves.length)
    (hevent : entry.event = leafEvent P levels leaves k) (hknown : db.hasEvent entry.id = true)
    (hprocessed : db.unprocessed entry.id = false) :
    ∃ row ∈ aspLeavesOf db address, RowAt P levels leaves k row ∧ row.eventId = entry.id := by
  have hsome : ∃ event, (entry.processed codec).leafAdded? = some event := by
    rw [Entry.processed, hevent]
    exact ⟨_, rfl⟩
  obtain ⟨event, hsome⟩ := hsome
  obtain ⟨n, hrow⟩ := h.leaf_row hentry hprocessed hsome
  have hid := leafAdded?_id entry event hsome
  refine ⟨_, mem_filter.mpr ⟨hrow, ?_⟩, leafRow_at hk hevent hsome, hid⟩
  rw [leafRow, hid, h.attributed hentry hknown, hcontract]
  exact beq_self_eq_true _

variable (hchain : ZeroesChain P) (hhistory : AspMembership.History P levels leaves s)
  (hsource : (address, Source.aspMembership s) ∈ chain.sources)
include hchain hhistory hsource

theorem Chain.leafEvents : (chain.log.filter (·.contractId == address)).map Entry.event =
    (List.range leaves.length).map (leafEvent P levels leaves) := by
  rw [chain.emitted _ hsource, Source.published, (hhistory.holds hchain).1.events_eq, map_map, length_map]
  rfl

theorem Chain.mem_leafEvents (hentry : entry ∈ chain.log) (hcontract : entry.contractId = address) :
    ∃ k < leaves.length, entry.event = leafEvent P levels leaves k := by
  have hmem : entry.event ∈ (chain.log.filter (·.contractId == address)).map Entry.event :=
    mem_map_of_mem (mem_filter.mpr ⟨hentry, beq_iff_eq.mpr hcontract⟩)
  rw [Chain.leafEvents hchain hhistory hsource] at hmem
  obtain ⟨k, hk, heq⟩ := mem_map.mp hmem
  exact ⟨k, mem_range.mp hk, heq.symm⟩

theorem Chain.exists_leafEntry (hk : k < leaves.length) :
    ∃ entry ∈ chain.log, entry.contractId = address ∧ entry.event = leafEvent P levels leaves k := by
  have hmem : leafEvent P levels leaves k ∈
      (chain.log.filter (·.contractId == address)).map Entry.event := by
    rw [Chain.leafEvents hchain hhistory hsource]
    exact mem_map_of_mem (mem_range.mpr hk)
  obtain ⟨entry, hentry, heq⟩ := mem_map.mp hmem
  obtain ⟨hlog, hcontract⟩ := mem_filter.mp hentry
  exact ⟨entry, hlog, beq_iff_eq.mp hcontract, heq⟩

theorem Mirrored.mem_aspLeavesOf (h : Mirrored codec chain db)
    (hrow : row ∈ aspLeavesOf db address) :
    ∃ k, RowAt P levels leaves k row ∧ ∃ entry ∈ chain.log, entry.contractId = address ∧
      entry.event = leafEvent P levels leaves k ∧ row.eventId = entry.id ∧ db.hasEvent entry.id = true := by
  obtain ⟨hmem, hbelongs⟩ := mem_filter.mp hrow
  obtain ⟨entry, hentry, hknown, event, hsome, n, rfl⟩ := h.leaves row hmem
  have hid := leafAdded?_id entry event hsome
  have hcontract : entry.contractId = address := by
    rw [leafRow, hid, h.attributed hentry hknown] at hbelongs
    exact Option.some.inj (beq_iff_eq.mp hbelongs)
  obtain ⟨k, hk, hevent⟩ := Chain.mem_leafEvents hchain hhistory hsource hentry hcontract
  exact ⟨k, leafRow_at hk hevent hsome, entry, hentry, hcontract, hevent, hid, hknown⟩

theorem Mirrored.aspLeaf_eq (h : Mirrored codec chain db) {row row' : AspMembershipLeaf}
    (hrow : row ∈ aspLeavesOf db address) (hrow' : row' ∈ aspLeavesOf db address)
    (hindex : row.leafIndex = row'.leafIndex) : row = row' := by
  obtain ⟨k, hat, entry, hentry, hcontract, hevent, hid, -⟩ := h.mem_aspLeavesOf hchain hhistory hsource hrow
  obtain ⟨k', hat', entry', hentry', hcontract', hevent', hid', -⟩ := h.mem_aspLeavesOf hchain hhistory hsource hrow'
  obtain rfl : k = k' := hat.leafIndex.symm.trans (hindex.trans hat'.leafIndex)
  have heq : entry = entry' := Chain.leaf_eq hentry hentry' (hcontract.trans hcontract'.symm) hevent hevent'
  apply db.aspMembershipLeaves.eq_of_conflict _ (mem_filter.mp hrow).1 (mem_filter.mp hrow').1
  · right
    rw [hid, hid', heq]
  · rintro a b (⟨hcontract, hleaf⟩ | hevent)
    · exact .inl ⟨hcontract.symm, hleaf.symm⟩
    · exact .inr hevent.symm

theorem Mirrored.aspLeaves_perm (h : Mirrored codec chain db)
    (hall : ∀ entry ∈ chain.log, entry.contractId = address →
      db.hasEvent entry.id = true ∧ db.unprocessed entry.id = false) :
    ((aspLeavesOf db address).map fun row => (row.leaf, row.leafIndex)).Perm
      (leaves.map Nat.cast : List F).zipIdx := by
  apply (perm_ext_iff_of_nodup _ _).mpr
  · rintro ⟨leaf, index⟩
    rw [mk_mem_zipIdx_iff_getElem?, mem_map]
    constructor
    · rintro ⟨row, hrow, heq⟩
      obtain ⟨k, hat, -⟩ := h.mem_aspLeavesOf hchain hhistory hsource hrow
      cases heq
      rw [hat.leafIndex, hat.leaf, getD_eq_getElem?_getD, getElem?_eq_getElem (by
        rw [length_map]; exact hat.lt)]
      rfl
    · intro hget
      obtain ⟨hlt, rfl⟩ := List.getElem?_eq_some_iff.mp hget
      rw [length_map] at hlt
      obtain ⟨entry, hentry, hcontract, hevent⟩ := Chain.exists_leafEntry hchain hhistory hsource hlt
      obtain ⟨hknown, hprocessed⟩ := hall entry hentry hcontract
      obtain ⟨row, hrow, hat, -⟩ := h.exists_aspLeaf hentry hcontract hlt hevent hknown hprocessed
      refine ⟨row, hrow, Prod.ext ?_ hat.leafIndex⟩
      rw [hat.leaf, getD_eq_getElem]
  · apply List.Nodup.map_on
    · intro row hrow row' hrow' heq
      exact h.aspLeaf_eq hchain hhistory hsource hrow hrow' (Prod.mk.inj heq).2
    · apply List.Nodup.filter
      exact db.aspMembershipLeaves.unique.imp fun hne heq => hne (.inr (congrArg _ heq))
  · exact (nodup_zipIdx_map_snd _).of_map

end Source

end PrivatePayments.Sdk

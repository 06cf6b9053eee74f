import PrivatePayments.Sdk.Membership

/-! `migrations/002_asp_membership_leaves_per_contract.sql`: databases from before and
after leaves were keyed by contract. -/
namespace PrivatePayments.Sdk
open Contracts Lib PrivatePayments.System List

/-- A row of the first schema, which does not tell contracts apart. -/
structure AspMembershipLeafV1 where
  leafIndex : Nat
  leaf : F
  root : F
  eventId : String
deriving DecidableEq

abbrev AspMembershipLeafV1.conflict (a b : AspMembershipLeafV1) : Prop :=
  a.leafIndex = b.leafIndex ∨ a.eventId = b.eventId

structure DbV1 where
  db : Db
  aspMembershipLeaves : Table AspMembershipLeafV1 AspMembershipLeafV1.conflict

/-- `INSERT .. SELECT .. JOIN raw_contract_events`; a conflict would make the migration fail. -/
def DbV1.migrate (v1 : DbV1) : Option Db := do
  let rows := v1.aspMembershipLeaves.rows.filterMap fun row =>
    (v1.db.event? row.eventId).map fun event =>
      ({ contractId := event.contractId
         leafIndex := row.leafIndex
         leaf := row.leaf
         root := row.root
         eventId := row.eventId } : AspMembershipLeaf)
  let aspMembershipLeaves ← rows.foldlM Table.insert? Table.empty
  some { v1.db with aspMembershipLeaves }

/-- What the code before the migration could have stored: every row was made from a stored event
of the chain.  Of several leaves with one index the first is there, or none. -/
structure MirroredV1 (codec : Codec) (chain : Chain) (v1 : DbV1) : Prop where
  others : Mirrored codec chain v1.db
  leaves : ∀ row ∈ v1.aspMembershipLeaves.rows, ∃ entry ∈ chain.log, v1.db.hasEvent entry.id = true ∧
    ∃ event, (entry.processed codec).leafAdded? = some event ∧
      row = ⟨event.index, event.leaf, event.root, event.id⟩

variable {P : Permutation} {levels : Nat} {leaves : List U256} {s : AspMembership.Storage}

section
variable {codec : Codec} {chain : Chain} {v1 : DbV1} {db : Db}

theorem foldlM_insert? {α : Type} {conflict : α → α → Prop} [DecidableRel conflict] {rows : List α}
    {t : Table α conflict} (h : (t.rows ++ rows).Pairwise fun a b => ¬conflict a b) :
    ∃ t', rows.foldlM Table.insert? t = some t' ∧ t'.rows = t.rows ++ rows := by
  induction rows generalizing t with
  | nil => exact ⟨t, rfl, (append_nil _).symm⟩
  | cons row rest ih =>
    have hfresh : ∀ r ∈ t.rows, ¬conflict r row := fun r hr =>
      (pairwise_append.mp h).2.2 r hr row mem_cons_self
    obtain ⟨t₁, ht₁⟩ := Table.insert?_of_fresh hfresh
    have hrows := (Table.insert?_eq_some ht₁).2
    obtain ⟨t', ht', hrows'⟩ := ih (t := t₁) (by
      rw [hrows, append_assoc]
      exact h)
    refine ⟨t', ?_, ?_⟩
    · rw [foldlM_cons, ht₁]
      exact ht'
    · rw [hrows', hrows, append_assoc]
      rfl

theorem DbV1.migrate_eq (v1 : DbV1) : ∃ aspMembershipLeaves,
    v1.migrate = some { v1.db with aspMembershipLeaves } ∧
      ∀ row ∈ aspMembershipLeaves.rows, ∃ old ∈ v1.aspMembershipLeaves.rows,
        row = ⟨(v1.db.contractOf old.eventId).getD 0, old.leafIndex, old.leaf, old.root, old.eventId⟩ := by
  unfold DbV1.migrate
  have hdistinct : (v1.aspMembershipLeaves.rows.filterMap fun row =>
      (v1.db.event? row.eventId).map fun event =>
        (⟨event.contractId, row.leafIndex, row.leaf, row.root, row.eventId⟩ : AspMembershipLeaf)).Pairwise
      fun a b => ¬a.conflict b := by
    apply List.Pairwise.filterMap _ _ v1.aspMembershipLeaves.unique
    intro a b hne row hrow row' hrow' hconflict
    obtain ⟨event, -, rfl⟩ := Option.map_eq_some_iff.mp hrow
    obtain ⟨event', -, rfl⟩ := Option.map_eq_some_iff.mp hrow'
    exact hne (hconflict.imp And.right id)
  obtain ⟨t, ht, hrows⟩ := foldlM_insert? (t := (Table.empty : Table AspMembershipLeaf _)) hdistinct
  refine ⟨t, ?_, fun row hrow => ?_⟩
  · dsimp only
    rw [ht]
    rfl
  · rw [hrows] at hrow
    obtain ⟨old, hold, hsome⟩ := mem_filterMap.mp hrow
    obtain ⟨event, hevent, rfl⟩ := Option.map_eq_some_iff.mp hsome
    refine ⟨old, hold, ?_⟩
    rw [Db.contractOf, hevent]
    rfl

theorem MirroredV1.migrate (h : MirroredV1 codec chain v1) (hmigrate : v1.migrate = some db) :
    Mirrored codec chain db := by
  obtain ⟨aspMembershipLeaves, heq, hrows⟩ := v1.migrate_eq
  obtain rfl := Option.some.inj (hmigrate.symm.trans heq)
  refine ⟨h.others.events, h.others.nullifiers, h.others.commitments, h.others.publicKeys, ?_⟩
  intro row hrow
  obtain ⟨old, hold, rfl⟩ := hrows row hrow
  obtain ⟨entry, hentry, hknown, event, hsome, rfl⟩ := h.leaves old hold
  exact ⟨entry, hentry, hknown, event, hsome, 0, rfl⟩

/-- A new database, or one that was migrated, into which events are stored and processed. -/
inductive Upgraded (codec : Codec) (chain : Chain) : Db → Prop where
  | fresh : Upgraded codec chain Db.fresh
  | migrated {v1 : DbV1} {db : Db} (h : MirroredV1 codec chain v1) (hmigrate : v1.migrate = some db) :
      Upgraded codec chain db
  | saveEvents {db : Db} (entries : List Entry) (hlogged : ∀ entry ∈ entries, entry ∈ chain.log)
      (h : Upgraded codec chain db) :
      Upgraded codec chain (saveEventsBatch (entries.map (Entry.contractEvent codec)) db).2
  | processEvents {db : Db} (limit : Nat) (h : Upgraded codec chain db) :
      Upgraded codec chain (processEvents codec limit db).2

theorem Upgraded.mirrored (h : Upgraded codec chain db) : Mirrored codec chain db := by
  induction h with
  | fresh => exact mirrored_fresh codec chain
  | migrated h hmigrate => exact h.migrate hmigrate
  | saveEvents entries hlogged _ ih => exact ih.saveEvents hlogged
  | processEvents limit _ ih => exact ih.processEvents limit

variable {address : String}

theorem Mirrored.lastAspLeaf (h : Mirrored codec chain db) (hchain : ZeroesChain P)
    (hhistory : AspMembership.History P levels leaves s) (hsource : (address, Source.aspMembership s) ∈ chain.sources)
    (hall : ∀ entry ∈ chain.log, entry.contractId = address →
      db.hasEvent entry.id = true ∧ db.unprocessed entry.id = false) (hne : leaves ≠ []) :
    ∃ row, lastAspLeaf db address = some row ∧ s.root = some row.root.val := by
  have hlast : leaves.length - 1 < leaves.length := by
    have := length_pos_iff.mpr hne
    omega
  obtain ⟨entry, hentry, hcontract, hevent⟩ := Chain.exists_leafEntry hchain hhistory hsource hlast
  obtain ⟨hknown, hprocessed⟩ := hall entry hentry hcontract
  obtain ⟨top, htop, hat, -⟩ := h.exists_aspLeaf hentry hcontract hlast hevent hknown hprocessed
  cases hrow : Sdk.lastAspLeaf db address with
  | none =>
    rw [lastAspLeaf_eq_none] at hrow
    rw [hrow] at htop
    cases htop
  | some row =>
    obtain ⟨hmem, hmax⟩ := lastAspLeaf_eq_some hrow
    obtain ⟨k, hat', -⟩ := h.mem_aspLeavesOf hchain hhistory hsource hmem
    have hle := hmax top htop
    rw [hat.leafIndex, hat'.leafIndex] at hle
    have hlt := hat'.lt
    have hk : k + 1 = (leaves.map Nat.cast : List F).length := by
      rw [length_map]
      omega
    refine ⟨row, rfl, ?_⟩
    rw [(hhistory.holds hchain).1.root_eq, hat'.root, hk, take_length]

/-- Once everything is processed the leaves of each contract are read back, unless the tree is
filled to the last index that there is. -/
theorem asp_leaves_iff (hrun : Upgraded codec chain db)
    (hall : ∀ entry ∈ chain.log, db.hasEvent entry.id = true ∧ db.unprocessed entry.id = false)
    (hchain : ZeroesChain P) (hhistory : AspMembership.History P levels leaves s)
    (hsource : (address, Source.aspMembership s) ∈ chain.sources) :
    (getAllAspMembershipLeavesOrdered db address = .ok (leaves.map Nat.cast) ∧
      (leaves ≠ [] → ∃ row, lastAspLeaf db address = some row ∧ s.root = some row.root.val)) ↔
      leaves.length < 2 ^ 32 := by
  have hperm := hrun.mirrored.aspLeaves_perm hchain hhistory hsource fun entry hentry _ => hall entry hentry
  have hsorted := insertionSort_of_perm_zipIdx hperm
  rw [getAllAspMembershipLeavesOrdered, collectAspLeaves_eq_ok, length_map]
  constructor
  · rintro ⟨⟨-, hlength⟩, -⟩
    by_cases hne : leaves = []
    · rw [hne]
      decide
    · have hlt := hlength (by simpa using hne)
      omega
  · intro hlt
    refine ⟨⟨hsorted, fun _ => by omega⟩, fun hne => ?_⟩
    exact hrun.mirrored.lastAspLeaf hchain hhistory hsource (fun entry hentry _ => hall entry hentry) hne

end

/-! One membership contract, whose leaves all go into the database. -/

section Sample

def aspEntries (s : AspMembership.Storage) : List Entry :=
  s.events.zipIdx.map fun event =>
    ⟨String.ofList (List.replicate event.2 'a'), event.2 + 1, "M", .ofLeaf event.1⟩


theorem aspEntries_ids (s : AspMembership.Storage) : ((aspEntries s).map Entry.id).Nodup := by
  have hids : (aspEntries s).map Entry.id =
      (s.events.zipIdx.map Prod.snd).map fun i => String.ofList (List.replicate i 'a') := by
    rw [aspEntries, map_map, map_map]
    rfl
  rw [hids]
  apply (nodup_zipIdx_map_snd _).map
  intro i j heq
  simpa using congrArg String.length heq

theorem aspEntries_events (s : AspMembership.Storage) : (aspEntries s).map Entry.event = s.events.map .ofLeaf := by
  have hevents : s.events.map Published.ofLeaf = (s.events.zipIdx.map Prod.fst).map .ofLeaf := by
    rw [zipIdx_map_fst]
  rw [hevents, aspEntries, map_map, map_map]
  rfl

def aspChain (hchain : ZeroesChain P) (hhistory : AspMembership.History P levels leaves s) : Chain where
  sources := [("M", .aspMembership s)]
  log := aspEntries s
  genuine := by
    intro source hsource
    rw [mem_singleton.mp hsource]
    exact .aspMembership hchain hhistory
  ids := aspEntries_ids s
  emitted := by
    intro source hsource
    rw [mem_singleton.mp hsource, filter_eq_self.mpr, aspEntries_events]
    · rfl
    · intro entry hentry
      obtain ⟨event, -, rfl⟩ := mem_map.mp hentry
      rfl
  known := by
    intro entry hentry
    obtain ⟨event, -, rfl⟩ := mem_map.mp hentry
    exact ⟨_, mem_singleton.mpr rfl, rfl⟩

theorem aspChain_distinct (s : AspMembership.Storage) : Distinct (aspEntries s) := by
  have hnone : ∀ entry ∈ aspEntries s, entry.event.commitment? = none ∧ entry.event.nullifier? = none := by
    intro entry hentry
    obtain ⟨event, -, rfl⟩ := mem_map.mp hentry
    exact ⟨rfl, rfl⟩
  constructor
  · rw [filterMap_eq_nil_iff.mpr fun entry hentry => (hnone entry hentry).1]
    exact nodup_nil
  · rw [filterMap_eq_nil_iff.mpr fun entry hentry => (hnone entry hentry).2]
    exact nodup_nil

section
variable (hchain : ZeroesChain P) (hhistory : AspMembership.History P levels leaves s)

theorem Upgraded.exists_processed {start : Db} (h : Upgraded unaryCodec (aspChain hchain hhistory) start) :
    ∃ db, Upgraded unaryCodec (aspChain hchain hhistory) db ∧
      ∀ entry ∈ (aspChain hchain hhistory).log, db.hasEvent entry.id = true ∧ db.unprocessed entry.id = false := by
  have hsaved := h.saveEvents (aspChain hchain hhistory).log fun _ hentry => hentry
  obtain ⟨db, hrun, ⟨_, _, _, _, hframe⟩, hdone⟩ := hsaved.mirrored.exists_settled 50
  have hupgraded := settles (fun _ => .processEvents 50) hsaved hrun
  have hall : ∀ entry ∈ (aspChain hchain hhistory).log, db.hasEvent entry.id = true := by
    rw [hframe]
    exact fun entry hentry => hasEvent_saveEvents (mem_map_of_mem hentry) start
  have hstored : storedEntries (aspChain hchain hhistory) db = (aspChain hchain hhistory).log :=
    filter_eq_self.mpr hall
  refine ⟨db, hupgraded, fun entry hentry => ⟨hall entry hentry, ?_⟩⟩
  apply hupgraded.mirrored.all_processed (show 0 < 50 by decide) hdone
  · rw [hstored]
    exact aspChain_distinct s
  · rwa [hstored]

/-- A database of the first schema, with all events and the row of the first leaf. -/
theorem exists_migrated (hne : 0 < leaves.length) : ∃ v1 db, MirroredV1 unaryCodec (aspChain hchain hhistory) v1 ∧
    v1.aspMembershipLeaves.rows.length = 1 ∧ v1.migrate = some db := by
  obtain ⟨entry, hentry, -, hevent⟩ := @Chain.exists_leafEntry 0 (aspChain hchain hhistory) "M" _ _ _ _ hchain hhistory
    (mem_singleton.mpr rfl) hne
  obtain ⟨event, hsome⟩ : ∃ event, (entry.processed unaryCodec).leafAdded? = some event := by
    rw [Entry.processed, hevent]
    exact ⟨_, rfl⟩
  let v1 : DbV1 := ⟨(saveEventsBatch ((aspEntries s).map (Entry.contractEvent unaryCodec)) Db.fresh).2,
    ⟨[⟨event.index, event.leaf, event.root, event.id⟩], pairwise_singleton _ _⟩⟩
  obtain ⟨_, hmigrate, -⟩ := v1.migrate_eq
  refine ⟨v1, _, ⟨(mirrored_fresh _ _).saveEvents fun _ h => h, fun row hrow => ?_⟩, rfl, hmigrate⟩
  exact ⟨entry, hentry, hasEvent_saveEvents (mem_map_of_mem hentry) Db.fresh, event, hsome, mem_singleton.mp hrow⟩

end

theorem asp_leaves_sample : ∃ chain v1 start db, MirroredV1 unaryCodec chain v1 ∧
    v1.aspMembershipLeaves.rows.length = 1 ∧ v1.migrate = some start ∧ Upgraded unaryCodec chain db ∧
    getAllAspMembershipLeavesOrdered db "M" = .ok [5, 7] := by
  obtain ⟨s, hhistory, -⟩ := AspMembership.exists_history sample_chain (show 1 ≤ 10 by decide)
    (by decide) (show ([5, 7] : List F).length ≤ 2 ^ 10 by decide)
  obtain ⟨v1, start, hv1, hrow, hmigrate⟩ := exists_migrated sample_chain hhistory (by decide)
  obtain ⟨db, hrun, hall⟩ := Upgraded.exists_processed sample_chain hhistory (.migrated hv1 hmigrate)
  have hiff := asp_leaves_iff hrun hall sample_chain hhistory (mem_singleton.mpr rfl)
  exact ⟨_, v1, start, db, hv1, hrow, hmigrate, hrun, (hiff.mpr (by decide)).1.trans rfl⟩

/-- A tree of 32 levels can be filled, and is then not read back. -/
theorem full_asp_tree_unreadable : ∃ (P : Permutation) (leaves : List U256) (s : AspMembership.Storage)
    (chain : Chain) (db : Db), AspMembership.History P 32 leaves s ∧
      ("M", Source.aspMembership s) ∈ chain.sources ∧ Upgraded unaryCodec chain db ∧
      (∀ entry ∈ chain.log, db.hasEvent entry.id = true ∧ db.unprocessed entry.id = false) ∧
      getAllAspMembershipLeavesOrdered db "M" ≠ .ok (leaves.map Nat.cast) := by
  obtain ⟨fields, hlength⟩ : ∃ fields : List F, fields.length = 2 ^ 32 :=
    ⟨List.replicate (2 ^ 32) 0, length_replicate⟩
  obtain ⟨s, hhistory, -⟩ := AspMembership.exists_history sample_chain (show 1 ≤ 32 by decide)
    (le_refl _) (le_of_eq hlength)
  obtain ⟨db, hrun, hall⟩ := Upgraded.exists_processed sample_chain hhistory .fresh
  refine ⟨_, _, s, _, db, hhistory, mem_singleton.mpr rfl, hrun, hall, fun hread => ?_⟩
  have hlt := (collectAspLeaves_eq_ok.mp hread).2
  rw [length_map, length_map, hlength] at hlt
  apply absurd (hlt _) (by decide)
  rw [ne_eq, map_eq_nil_iff, map_eq_nil_iff, ← length_eq_zero_iff, hlength]
  decide

end Sample

end PrivatePayments.Sdk

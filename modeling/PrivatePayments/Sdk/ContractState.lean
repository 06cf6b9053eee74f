import PrivatePayments.Sdk.Ingest
import PrivatePayments.System.FullTree
import Mathlib.Data.List.Dedup

/-! `stellar/src/contract_state.rs` and the bulk reads of `stellar/src/rpc.rs`: the state of the
contracts, put together from several responses. -/
namespace PrivatePayments.Sdk
open Contracts Lib.BinaryTree PrivatePayments.System List
open MerkleWithHistory (rootHistorySize)

/-- The variants of the storage keys, and the entry of the contract itself. -/
inductive DataKey where
  | contractInstance
  | admin | token | verifier | aspMembership | aspNonMembership
  | levels | currentRootIndex | nextIndex | maximumDepositAmount
  | root | adminInsertOnly
deriving DecidableEq

/-- Some variants carry a number. -/
@[ext]
structure LedgerKey where
  contractId : String
  variant : DataKey
  value : Option Nat
deriving DecidableEq

inductive ContractData where
  | val (v : ScVal)
  | bool (b : Bool)

structure GetLedgerEntriesResponse where
  latestLedger : Nat
  entry : LedgerKey → Option ContractData

inductive FetchError where
  | rpc
  | invalidLatestLedger (ledger : Nat)
  | missingRequiredContractKeys
  | missingState (contractId : String) (variant : DataKey)
  | conversion (e : ParseError)
  | doesNotFitI128
  | overflow
  | inconsistentSnapshot

abbrev Rpc := Nat → Except FetchError GetLedgerEntriesResponse

structure ContractDataBulkRequest where
  contractId : String
  enumKeys : List DataKey
  valuedKeys : List (DataKey × Nat)

def ContractDataBulkRequest.keySpecs (request : ContractDataBulkRequest) : List LedgerKey :=
  ⟨request.contractId, .contractInstance, none⟩ ::
    (request.enumKeys.map (fun variant => ⟨request.contractId, variant, none⟩) ++
      request.valuedKeys.map fun key => ⟨request.contractId, key.1, some key.2⟩)

/-- Every key once, in the order of the requests. -/
@[irreducible]
def allKeys (requests : List ContractDataBulkRequest) : List LedgerKey :=
  (requests.flatMap ContractDataBulkRequest.keySpecs).reverse.dedup.reverse

def chunks {α : Type} (size : Nat) (xs : List α) : List (List α) :=
  (List.range ((xs.length + size - 1) / size)).map fun i => (xs.drop (size * i)).take size

def maxLedgerKeysPerRequest : Nat := 200

/-- What was found; of two entries with one name the last counts. -/
abbrev BulkState := List (LedgerKey × ContractData)

def BulkState.get (state : BulkState) (contractId : String) (variant : DataKey) : Option ContractData :=
  (state.reverse.find? fun entry => entry.1.contractId == contractId && entry.1.variant == variant).map
    Prod.snd

def GetLedgerEntriesResponse.entries (response : GetLedgerEntriesResponse) (keys : List LedgerKey) :
    BulkState :=
  keys.filterMap fun key => (response.entry key).map fun value => (key, value)

def getChunks (rpc : Rpc) : List (List LedgerKey) → Nat → Except FetchError (BulkState × Nat)
  | [], _ => .ok ([], 2 ^ 32 - 1)
  | chunk :: rest, now => do
    let response ← rpc now
    match tryFromU32 response.latestLedger with
    | none => .error (.invalidLatestLedger response.latestLedger)
    | some ledger => do
      let (state, latestLedger) ← getChunks rpc rest (now + 1)
      return (response.entries chunk ++ state, min ledger latestLedger)

/-- The entries with the least of the reported ledgers, and the number of the next request. -/
def getContractDataBulk (rpc : Rpc) (requests : List ContractDataBulkRequest) (now : Nat) :
    Except FetchError ((BulkState × Nat) × Nat) :=
  let keys := allKeys requests
  if keys.isEmpty then .ok (([], 0), now)
  else do
    let (state, latestLedger) ← getChunks rpc (chunks maxLedgerKeysPerRequest keys) now
    if keys.all fun key => key.variant == .contractInstance || (state.get key.contractId key.variant).isSome then
      return ((state, latestLedger), now + (chunks maxLedgerKeysPerRequest keys).length)
    else .error .missingRequiredContractKeys

def getState (state : BulkState) (contractId : String) (variant : DataKey) :
    Except FetchError ContractData :=
  match state.get contractId variant with
  | some value => .ok value
  | none => .error (.missingState contractId variant)

def converted {α : Type} (convert : ScVal → Except ParseError α) : ContractData → Except FetchError α
  | .val v => (convert v).mapError .conversion
  | .bool _ => .error (.conversion .unexpectedScVal)

def mapOption {α : Type} (f : ContractData → Except FetchError α) :
    Option ContractData → Except FetchError (Option α)
  | some value => (f value).map some
  | none => .ok none

def scvalToBool : ContractData → Except FetchError Bool
  | .bool b => .ok b
  | .val _ => .error (.conversion .unexpectedScVal)

def scvalToField (v : ScVal) : Except ParseError F := scvalToU256 v >>= fieldTryFromU256

def u256ToI128Checked (v : U256) : Except FetchError Nat :=
  if v < 2 ^ 127 then .ok v else .error .doesNotFitI128

def capacityOf (levels : Nat) : Except FetchError Nat :=
  match checkedShl levels with
  | some capacity => .ok capacity
  | none => .error .overflow

structure PoolInfo where
  ledger : Nat
  contractId : String
  admin : Text
  token : Text
  verifier : Text
  aspmembership : Text
  aspnonmembership : Text
  merkleLevels : Nat
  merkleCurrentRootIndex : Option Nat
  merkleNextIndex : Nat
  maximumDepositAmount : Nat
  merkleRoot : Option F
  merkleCapacity : Nat
  totalCommitments : Nat

structure AspMembershipInfo where
  ledger : Nat
  contractId : String
  root : F
  levels : Nat
  nextIndex : Nat
  admin : Text
  adminInsertOnly : Bool
  capacity : Nat
  usedSlots : Nat

structure AspNonMembershipInfo where
  ledger : Nat
  contractId : String
  root : F
  isEmpty : Bool
  admin : Text

structure ContractsStateData where
  pools : List PoolInfo
  aspMembership : AspMembershipInfo
  aspNonMembership : AspNonMembershipInfo

structure ContractIds where
  aspMembership : String
  aspNonMembership : String

section
variable (codec : Codec) (ids : ContractIds)

def poolRequest (pool : String) : ContractDataBulkRequest :=
  ⟨pool, [.admin, .token, .verifier, .aspMembership, .aspNonMembership, .levels, .currentRootIndex,
    .nextIndex, .maximumDepositAmount], []⟩

def stateRequests (pools : List String) : List ContractDataBulkRequest :=
  pools.map poolRequest ++
    [⟨ids.aspMembership, [.root, .levels, .nextIndex, .admin, .adminInsertOnly], []⟩,
      ⟨ids.aspNonMembership, [.root, .admin], []⟩]

def rootRequest (pool : String) (currentRootIndex : Nat) : ContractDataBulkRequest :=
  ⟨pool, [.currentRootIndex], [(.root, currentRootIndex)]⟩

def currentRootIndexOf (state : BulkState) (pool : String) : Except FetchError Nat :=
  getState state pool .currentRootIndex >>= converted scvalToU32

def poolInfo (bulkState rootState : BulkState) (baseLatestLedger : Nat) (pool : String) :
    Except FetchError PoolInfo := do
  let address := fun variant => getState bulkState pool variant >>= converted (scvalToAddressString codec)
  let merkleCurrentRootIndex ← mapOption (converted scvalToU32) (bulkState.get pool .currentRootIndex)
  let merkleRoot ← mapOption (converted scvalToField) (rootState.get pool .root)
  let levels ← getState bulkState pool .levels >>= converted scvalToU32
  let capacity ← capacityOf levels
  let nextIndex ← getState bulkState pool .nextIndex >>= converted scvalToU64
  let maximum ← getState bulkState pool .maximumDepositAmount >>= converted scvalToU256
  let maximum ← u256ToI128Checked maximum
  let admin ← address .admin
  let token ← address .token
  let verifier ← address .verifier
  let aspmembership ← address .aspMembership
  let aspnonmembership ← address .aspNonMembership
  return { ledger := baseLatestLedger, contractId := pool, admin, token, verifier, aspmembership,
           aspnonmembership, merkleLevels := levels, merkleCurrentRootIndex,
           merkleNextIndex := nextIndex, maximumDepositAmount := maximum, merkleRoot,
           merkleCapacity := capacity, totalCommitments := nextIndex }

def aspMembershipInfo (bulkState : BulkState) (baseLatestLedger : Nat) : Except FetchError AspMembershipInfo := do
  let state := getState bulkState ids.aspMembership
  let nextIndex ← state .nextIndex >>= converted scvalToU64
  let levels ← state .levels >>= converted scvalToU32
  let capacity ← capacityOf levels
  let root ← state .root >>= converted scvalToField
  let admin ← state .admin >>= converted (scvalToAddressString codec)
  let adminInsertOnly ← state .adminInsertOnly >>= scvalToBool
  return { ledger := baseLatestLedger, contractId := ids.aspMembership, root, levels, nextIndex, admin,
           adminInsertOnly, capacity, usedSlots := nextIndex }

def aspNonMembershipInfo (bulkState : BulkState) (baseLatestLedger : Nat) :
    Except FetchError AspNonMembershipInfo := do
  let state := getState bulkState ids.aspNonMembership
  let root ← state .root >>= converted scvalToField
  let admin ← state .admin >>= converted (scvalToAddressString codec)
  return { ledger := baseLatestLedger, contractId := ids.aspNonMembership, root, isEmpty := root == 0, admin }

/-- One round of the two reads; nothing is returned if a root index has changed between them. -/
def snapshotAttempt (rpc : Rpc) (pools : List String) (now : Nat) :
    Except FetchError (Option ContractsStateData × Nat) := do
  let ((bulkState, baseLatestLedger), now) ← getContractDataBulk rpc (stateRequests ids pools) now
  let expected ← pools.mapM (currentRootIndexOf bulkState)
  let ((rootState, _), now) ← getContractDataBulk rpc (List.zipWith rootRequest pools expected) now
  let observed ← pools.mapM (currentRootIndexOf rootState)
  if observed ≠ expected then return (none, now)
  else
    let pools ← pools.mapM (poolInfo codec bulkState rootState baseLatestLedger)
    let aspMembership ← aspMembershipInfo codec ids bulkState baseLatestLedger
    let aspNonMembership ← aspNonMembershipInfo codec ids bulkState baseLatestLedger
    return (some { pools, aspMembership, aspNonMembership }, now)

def maxSnapshotAttempts : Nat := 3

def snapshotAttempts (rpc : Rpc) (pools : List String) :
    Nat → Nat → Except FetchError (ContractsStateData × Nat)
  | 0, _ => .error .inconsistentSnapshot
  | attempts + 1, now => do
    match ← snapshotAttempt codec ids rpc pools now with
    | (some data, now) => return (data, now)
    | (none, now) => snapshotAttempts rpc pools attempts now

def contractsData (rpc : Rpc) (pools : List String) (now : Nat) :
    Except FetchError (ContractsStateData × Nat) :=
  snapshotAttempts codec ids rpc pools maxSnapshotAttempts now

end

variable {rpc : Rpc} {now : Nat} {response : GetLedgerEntriesResponse}

variable {α : Type}

section Bulk
variable {requests : List ContractDataBulkRequest} {keys : List LedgerKey} {key : LedgerKey}

theorem chunks_one {size : Nat} {xs : List α} (hne : xs ≠ []) (hle : xs.length ≤ size) :
    chunks size xs = [xs] := by
  have hpos := length_pos_of_ne_nil hne
  have hone : (xs.length + size - 1) / size = 1 := by
    apply Nat.div_eq_of_lt_le <;> omega
  unfold chunks
  rw [hone]
  simp [take_of_length_le hle]

theorem mem_allKeys : key ∈ allKeys requests ↔ ∃ request ∈ requests, key ∈ request.keySpecs := by
  simp [allKeys]

theorem allKeys_length_le :
    (allKeys requests).length ≤ (requests.flatMap ContractDataBulkRequest.keySpecs).length := by
  unfold allKeys
  rw [length_reverse]
  exact (dedup_sublist _).length_le.trans_eq length_reverse

def Named (keys : List LedgerKey) : Prop :=
  ∀ key ∈ keys, ∀ other ∈ keys, other.contractId = key.contractId → other.variant = key.variant →
    other = key

theorem get_entries (hkey : key ∈ keys) (hnamed : Named keys) :
    (response.entries keys).get key.contractId key.variant = response.entry key := by
  have hmem : ∀ entry, entry ∈ (response.entries keys).reverse ↔
      entry.1 ∈ keys ∧ response.entry entry.1 = some entry.2 := by
    rintro ⟨other, value⟩
    simp only [GetLedgerEntriesResponse.entries, mem_reverse, mem_filterMap,
      Option.map_eq_some_iff, Prod.mk.injEq]
    constructor
    · rintro ⟨other', hother, value', hvalue, rfl, rfl⟩
      exact ⟨hother, hvalue⟩
    · rintro ⟨hother, hvalue⟩
      exact ⟨other, hother, value, hvalue, rfl, rfl⟩
  unfold BulkState.get
  cases hfind : (response.entries keys).reverse.find? fun entry =>
      entry.1.contractId == key.contractId && entry.1.variant == key.variant with
  | none =>
    rw [find?_eq_none] at hfind
    cases hentry : response.entry key with
    | none => rfl
    | some value => exact absurd (by simp) (hfind (key, value) ((hmem _).mpr ⟨hkey, hentry⟩))
  | some entry =>
    obtain ⟨hother, hvalue⟩ := (hmem entry).mp (mem_of_find?_eq_some hfind)
    have hsame := find?_some hfind
    simp only [Bool.and_eq_true, beq_iff_eq] at hsame
    rw [hnamed key hkey entry.1 hother hsame.1 hsame.2] at hvalue
    exact hvalue.symm

def Found (response : GetLedgerEntriesResponse) (keys : List LedgerKey) : Prop :=
  ∀ key ∈ keys, key.variant ≠ .contractInstance → (response.entry key).isSome

section
variable (hne : allKeys requests ≠ []) (hle : (allKeys requests).length ≤ maxLedgerKeysPerRequest)
  (hnamed : Named (allKeys requests))
include hne hle hnamed

theorem getContractDataBulk_one (hresponse : rpc now = .ok response) (hledger : response.latestLedger < 2 ^ 32)
    (hfound : Found response (allKeys requests)) :
    getContractDataBulk rpc requests now =
      .ok ((response.entries (allKeys requests), response.latestLedger), now + 1) := by
  have hall : (allKeys requests).all (fun key => key.variant == .contractInstance ||
      ((response.entries (allKeys requests)).get key.contractId key.variant).isSome) = true := by
    rw [all_eq_true]
    intro key hkey
    rw [get_entries hkey hnamed]
    by_cases hinstance : key.variant = .contractInstance
    · simp [hinstance]
    · simp [hfound key hkey hinstance]
  have hmin : min response.latestLedger (2 ^ 32 - 1) = response.latestLedger := by omega
  have hsome : tryFromU32 response.latestLedger = some response.latestLedger := if_pos hledger
  unfold getContractDataBulk
  rw [if_neg (by simpa using hne), chunks_one hne hle]
  simp only [getChunks, hresponse, ok_bind, hsome, hmin, append_nil, length_singleton]
  exact if_pos hall

theorem getContractDataBulk_ok {state : BulkState} {latestLedger next : Nat}
    (h : getContractDataBulk rpc requests now = .ok ((state, latestLedger), next)) :
    ∃ response, rpc now = .ok response ∧ state = response.entries (allKeys requests) ∧
      latestLedger = response.latestLedger ∧ next = now + 1 ∧ Found response (allKeys requests) := by
  unfold getContractDataBulk at h
  rw [if_neg (by simpa using hne), chunks_one hne hle] at h
  obtain ⟨⟨state', ledger'⟩, hchunks, h⟩ := bind_eq_ok h
  obtain ⟨response, hresponse, hchunks⟩ := bind_eq_ok hchunks
  dsimp only at h
  split at h
  · rename_i hall
    cases h
    split at hchunks
    · cases hchunks
    · rename_i ledger hledger
      cases hchunks
      obtain ⟨hlt, rfl⟩ := tryFromU32_eq_some hledger
      rw [append_nil, all_eq_true] at hall
      refine ⟨response, hresponse, append_nil _, Nat.min_eq_left (by omega), rfl, ?_⟩
      intro key hkey hinstance
      have hfound := hall key hkey
      rw [get_entries hkey hnamed] at hfound
      simpa [hinstance] using hfound
  · cases h

end

def readEntry (response : GetLedgerEntriesResponse) (key : LedgerKey) : Except FetchError ContractData :=
  match response.entry key with
  | some value => .ok value
  | none => .error (.missingState key.contractId key.variant)

abbrev readAs {α : Type} (convert : ScVal → Except ParseError α) (response : GetLedgerEntriesResponse)
    (key : LedgerKey) : Except FetchError α :=
  readEntry response key >>= converted convert

theorem readAs_ok {convert : ScVal → Except ParseError α} {a : α} (h : readAs convert response key = .ok a) :
    ∃ value, response.entry key = some value ∧ converted convert value = .ok a := by
  obtain ⟨value, hvalue, hrest⟩ := bind_eq_ok h
  unfold readEntry at hvalue
  split at hvalue
  · rename_i found hfound
    cases hvalue
    exact ⟨value, hfound, hrest⟩
  · cases hvalue

theorem getState_entries (hkey : key ∈ keys) (hnamed : Named keys) :
    getState (response.entries keys) key.contractId key.variant = readEntry response key := by
  unfold getState readEntry
  rw [get_entries hkey hnamed]

end Bulk

variable {codec : Codec} {ids : ContractIds} {pool : String}

variable {first second : GetLedgerEntriesResponse} {variant : DataKey} {result : Option ContractsStateData}

variable {contractId : String} {ledger index : Nat} {α β ε : Type}

section OnePool

abbrev stateKeys (ids : ContractIds) (pool : String) : List LedgerKey := allKeys (stateRequests ids [pool])

abbrev rootKeys (pool : String) (index : Nat) : List LedgerKey := allKeys [rootRequest pool index]

variable {key : LedgerKey}

theorem mem_stateKeys : key ∈ stateKeys ids pool ↔ key.value = none ∧
    ((key.contractId = pool ∧ key.variant ∈ [.contractInstance, .admin, .token, .verifier, .aspMembership,
        .aspNonMembership, .levels, .currentRootIndex, .nextIndex, .maximumDepositAmount]) ∨
      (key.contractId = ids.aspMembership ∧ key.variant ∈ [.contractInstance, .root, .levels, .nextIndex,
        .admin, .adminInsertOnly]) ∨
      (key.contractId = ids.aspNonMembership ∧ key.variant ∈ [.contractInstance, .root, .admin])) := by
  obtain ⟨contractId, variant, value⟩ := key
  simp only [stateKeys, mem_allKeys, stateRequests, poolRequest, ContractDataBulkRequest.keySpecs,
    map_cons, map_nil, append_nil, cons_append, nil_append, mem_cons,
    not_mem_nil, or_false, exists_eq_or_imp, exists_eq_left, LedgerKey.mk.injEq]
  constructor
  · rintro (h | h | h) <;> rcases h with h | h <;> grind
  · grind

theorem mem_rootKeys {index : Nat} : key ∈ rootKeys pool index ↔
    key ∈ [⟨pool, .contractInstance, none⟩, ⟨pool, .currentRootIndex, none⟩, ⟨pool, .root, some index⟩] := by
  simp [rootKeys, mem_allKeys, rootRequest, ContractDataBulkRequest.keySpecs, eq_comm]

theorem stateKeys_named : Named (stateKeys ids pool) := by
  intro key hkey other hother hcontract hvariant
  have hvalue : other.value = key.value := (mem_stateKeys.mp hother).1.trans (mem_stateKeys.mp hkey).1.symm
  exact LedgerKey.ext hcontract hvariant hvalue

theorem rootKeys_named (index : Nat) : Named (rootKeys pool index) := by
  intro key hkey other hother hcontract hvariant
  rw [mem_rootKeys] at hkey hother
  fin_cases hkey <;> fin_cases hother <;> simp_all

theorem stateKeys_few : stateKeys ids pool ≠ [] ∧ (stateKeys ids pool).length ≤ maxLedgerKeysPerRequest := by
  constructor
  · apply ne_nil_of_mem (a := ⟨pool, .contractInstance, none⟩)
    exact mem_stateKeys.mpr ⟨rfl, .inl ⟨rfl, .head _⟩⟩
  · exact allKeys_length_le.trans (by simp [stateRequests, poolRequest, ContractDataBulkRequest.keySpecs,
      maxLedgerKeysPerRequest])

theorem rootKeys_few (index : Nat) :
    rootKeys pool index ≠ [] ∧ (rootKeys pool index).length ≤ maxLedgerKeysPerRequest := by
  constructor
  · exact ne_nil_of_mem (mem_rootKeys.mpr (.head _))
  · exact allKeys_length_le.trans (by simp [rootRequest, ContractDataBulkRequest.keySpecs, maxLedgerKeysPerRequest])

structure Reported (ids : ContractIds) (pool : String) (first second : GetLedgerEntriesResponse)
    (data : ContractsStateData) : Prop where
  info : ∃ info index root, data.pools = [info] ∧
    readAs scvalToU32 first ⟨pool, .currentRootIndex, none⟩ = .ok index ∧
    readAs scvalToU32 second ⟨pool, .currentRootIndex, none⟩ = .ok index ∧
    readAs scvalToField second ⟨pool, .root, some index⟩ = .ok root ∧
    info.merkleRoot = some root ∧
    readAs scvalToU64 first ⟨pool, .nextIndex, none⟩ = .ok info.merkleNextIndex ∧
    readAs scvalToU32 first ⟨pool, .levels, none⟩ = .ok info.merkleLevels
  membership : data.aspMembership.contractId = ids.aspMembership ∧
    data.aspMembership.ledger = first.latestLedger ∧
    readAs scvalToField first ⟨ids.aspMembership, .root, none⟩ =
      .ok data.aspMembership.root
  nonMembership : readAs scvalToField first ⟨ids.aspNonMembership, .root, none⟩ =
    .ok data.aspNonMembership.root

theorem getState_stateKeys {response : GetLedgerEntriesResponse}
    (hkey : (⟨contractId, variant, none⟩ : LedgerKey) ∈ stateKeys ids pool) :
    getState (response.entries (stateKeys ids pool)) contractId variant =
      readEntry response ⟨contractId, variant, none⟩ :=
  @getState_entries response _ ⟨contractId, variant, none⟩ hkey stateKeys_named

theorem mapOption_some {f : ContractData → Except FetchError α} {value : ContractData}
    {result : Option α} (h : mapOption f (some value) = .ok result) : ∃ a, f value = .ok a ∧ result = some a := by
  change (f value).map some = .ok result at h
  cases hvalue : f value with
  | error e =>
    rw [hvalue] at h
    cases h
  | ok a =>
    rw [hvalue] at h
    cases h
    exact ⟨a, rfl, rfl⟩

theorem poolInfo_ok {info : PoolInfo}
    (hfound : Found second (rootKeys pool index))
    (h : poolInfo codec (first.entries (stateKeys ids pool)) (second.entries (rootKeys pool index)) ledger
      pool = .ok info) :
    (∃ root, readAs scvalToField second ⟨pool, .root, some index⟩ = .ok root ∧
        info.merkleRoot = some root) ∧
      readAs scvalToU64 first ⟨pool, .nextIndex, none⟩ = .ok info.merkleNextIndex ∧
      readAs scvalToU32 first ⟨pool, .levels, none⟩ = .ok info.merkleLevels := by
  have hkey : (⟨pool, .root, some index⟩ : LedgerKey) ∈ rootKeys pool index := mem_rootKeys.mpr (by simp)
  obtain ⟨value, hvalue⟩ := Option.isSome_iff_exists.mp (hfound _ hkey nofun)
  have hget : (second.entries (rootKeys pool index)).get pool .root = some value := by
    rw [← hvalue]
    exact get_entries hkey (rootKeys_named index)
  unfold poolInfo at h
  rw [hget] at h
  obtain ⟨_, -, h⟩ := bind_eq_ok h
  obtain ⟨merkleRoot, hroot, h⟩ := bind_eq_ok h
  obtain ⟨levels, hlevels, h⟩ := bind_eq_ok h
  obtain ⟨_, -, h⟩ := bind_eq_ok h
  obtain ⟨nextIndex, hnext, h⟩ := bind_eq_ok h
  iterate 7 obtain ⟨_, -, h⟩ := bind_eq_ok h
  obtain rfl := Except.ok.inj h
  rw [getState_stateKeys (mem_stateKeys.mpr (by simp))] at hlevels hnext
  obtain ⟨root, hconverted, rfl⟩ := mapOption_some hroot
  refine ⟨⟨root, ?_, rfl⟩, hnext, hlevels⟩
  rw [readAs, readEntry, hvalue]
  exact hconverted

variable {first : GetLedgerEntriesResponse}

theorem aspMembershipInfo_ok {ledger : Nat} {info : AspMembershipInfo}
    (h : aspMembershipInfo codec ids (first.entries (stateKeys ids pool)) ledger = .ok info) :
    info.contractId = ids.aspMembership ∧ info.ledger = ledger ∧
      readAs scvalToField first ⟨ids.aspMembership, .root, none⟩ = .ok info.root := by
  unfold aspMembershipInfo at h
  iterate 3 obtain ⟨_, -, h⟩ := bind_eq_ok h
  obtain ⟨root, hroot, h⟩ := bind_eq_ok h
  iterate 2 obtain ⟨_, -, h⟩ := bind_eq_ok h
  obtain rfl := Except.ok.inj h
  rw [getState_stateKeys (mem_stateKeys.mpr (by simp))] at hroot
  exact ⟨rfl, rfl, hroot⟩

theorem aspNonMembershipInfo_ok {ledger : Nat} {info : AspNonMembershipInfo}
    (h : aspNonMembershipInfo codec ids (first.entries (stateKeys ids pool)) ledger = .ok info) :
    readAs scvalToField first ⟨ids.aspNonMembership, .root, none⟩ = .ok info.root := by
  unfold aspNonMembershipInfo at h
  obtain ⟨root, hroot, h⟩ := bind_eq_ok h
  obtain ⟨_, -, h⟩ := bind_eq_ok h
  obtain rfl := Except.ok.inj h
  rwa [getState_stateKeys (mem_stateKeys.mpr (by simp))] at hroot

theorem mapM_singleton {f : α → Except ε β} {a : α} {bs : List β}
    (h : [a].mapM f = .ok bs) : ∃ b, f a = .ok b ∧ bs = [b] := by
  rw [mapM_cons, mapM_nil] at h
  obtain ⟨b, hb, h⟩ := bind_eq_ok h
  cases h
  exact ⟨b, hb, rfl⟩

theorem snapshotAttempt_ok {next : Nat}
    (h : snapshotAttempt codec ids rpc [pool] now = .ok (result, next)) :
    ∃ first second expected observed, rpc now = .ok first ∧ rpc (now + 1) = .ok second ∧ next = now + 2 ∧
      readAs scvalToU32 first ⟨pool, .currentRootIndex, none⟩ = .ok expected ∧
      readAs scvalToU32 second ⟨pool, .currentRootIndex, none⟩ = .ok observed ∧
      (observed ≠ expected → result = none) ∧
      (observed = expected → ∃ data, result = some data ∧ Reported ids pool first second data) := by
  obtain ⟨⟨⟨bulkState, ledger⟩, next₁⟩, hfirst, h⟩ := bind_eq_ok h
  obtain ⟨indexes, hindexes, h⟩ := bind_eq_ok h
  obtain ⟨⟨⟨rootState, _⟩, next₂⟩, hsecond, h⟩ := bind_eq_ok h
  obtain ⟨indexes', hindexes', h⟩ := bind_eq_ok h
  obtain ⟨expected, hexpected, rfl⟩ := mapM_singleton hindexes
  obtain ⟨observed, hobserved, rfl⟩ := mapM_singleton hindexes'
  obtain ⟨first, hrpc, rfl, rfl, rfl, -⟩ :=
    getContractDataBulk_ok stateKeys_few.1 stateKeys_few.2 stateKeys_named hfirst
  obtain ⟨second, hrpc', rfl, -, rfl, hfound⟩ := getContractDataBulk_ok (rootKeys_few expected).1
    (rootKeys_few expected).2 (rootKeys_named expected) hsecond
  have hkey : (⟨pool, .currentRootIndex, none⟩ : LedgerKey) ∈ rootKeys pool expected := mem_rootKeys.mpr (by simp)
  have hindex : getState (second.entries (rootKeys pool expected)) pool .currentRootIndex =
      readEntry second ⟨pool, .currentRootIndex, none⟩ :=
    @getState_entries second _ ⟨pool, .currentRootIndex, none⟩ hkey (rootKeys_named expected)
  have hexpected' : readAs scvalToU32 first ⟨pool, .currentRootIndex, none⟩ =
      .ok expected := by
    rwa [currentRootIndexOf, getState_stateKeys (mem_stateKeys.mpr (by simp))] at hexpected
  have hobserved' : readAs scvalToU32 second ⟨pool, .currentRootIndex, none⟩ =
      .ok observed := by
    rw [readAs, ← hindex]
    exact hobserved
  split at h
  · rename_i hdrift
    cases h
    refine ⟨first, second, expected, observed, hrpc, hrpc', rfl, hexpected', hobserved', fun _ => rfl, ?_⟩
    rintro rfl
    exact absurd rfl hdrift
  · rename_i hsame
    obtain rfl : observed = expected := by simpa using hsame
    obtain ⟨infos, hinfos, h⟩ := bind_eq_ok h
    obtain ⟨aspMembership, hmembership, h⟩ := bind_eq_ok h
    obtain ⟨aspNonMembership, hnonMembership, h⟩ := bind_eq_ok h
    obtain ⟨info, hinfo, rfl⟩ := mapM_singleton hinfos
    cases h
    refine ⟨first, second, observed, observed, hrpc, hrpc', rfl, hexpected', hobserved', nofun, fun _ => ?_⟩
    obtain ⟨⟨root, hroot, hsome⟩, hnext, hlevels⟩ := poolInfo_ok hfound hinfo
    exact ⟨_, rfl, ⟨info, observed, root, rfl, hexpected', hobserved', hroot, hsome, hnext, hlevels⟩,
      aspMembershipInfo_ok hmembership, aspNonMembershipInfo_ok hnonMembership⟩

end OnePool

variable {host : Pool.Host} {config : Config} {x : State}

variable {n : Nat}

variable {data : ContractData}

section Storage

def addressEntry (codec : Codec) (address : Option Address) : Option ContractData :=
  address.map fun address => .val (.address (codec.scAddress address))

def u32Entry (n : Option Nat) : Option ContractData := n.map fun n => .val (.u32 (.ofNat n))

def u64Entry (n : Option Nat) : Option ContractData := n.map fun n => .val (.u64 (.ofNat n))

def u256Entry (n : Option U256) : Option ContractData := n.map fun n => .val (u256Parts n)

def poolEntry (codec : Codec) (s : Pool.Storage) : DataKey → Option Nat → Option ContractData
  | .contractInstance, none => some (.val .other)
  | .admin, none => addressEntry codec s.admin
  | .token, none => addressEntry codec s.token
  | .verifier, none => addressEntry codec s.verifier
  | .aspMembership, none => addressEntry codec s.aspMembership
  | .aspNonMembership, none => addressEntry codec s.aspNonMembership
  | .maximumDepositAmount, none => u256Entry s.maximumDepositAmount
  | .levels, none => u32Entry s.merkle.levels
  | .currentRootIndex, none => u32Entry s.merkle.currentRootIndex
  | .nextIndex, none => u64Entry s.merkle.nextIndex
  | .root, some index => u256Entry (s.merkle.root index)
  | _, _ => none

def aspMembershipEntry (codec : Codec) (s : AspMembership.Storage) : DataKey → Option Nat → Option ContractData
  | .contractInstance, none => some (.val .other)
  | .root, none => u256Entry s.root
  | .levels, none => u32Entry s.levels
  | .nextIndex, none => u64Entry s.nextIndex
  | .admin, none => addressEntry codec s.admin
  | .adminInsertOnly, none => s.adminInsertOnly.map .bool
  | _, _ => none

def aspNonMembershipEntry (codec : Codec) (s : AspNonMembership.Storage) :
    DataKey → Option Nat → Option ContractData
  | .contractInstance, none => some (.val .other)
  | .root, none => u256Entry s.root
  | .admin, none => addressEntry codec s.admin
  | _, _ => none


def ServesPool (codec : Codec) (pool : String) (x : State) (response : GetLedgerEntriesResponse) :
    Prop :=
  ∀ variant value, response.entry ⟨pool, variant, value⟩ = poolEntry codec x.ledger.pool variant value

theorem ServesPool.readAs (h : ServesPool codec pool x response) {value : Option Nat}
    (hentry : poolEntry codec x.ledger.pool variant value = some data)
    (convert : ScVal → Except ParseError α) :
    readAs convert response ⟨pool, variant, value⟩ = converted convert data := by
  rw [Sdk.readAs, readEntry, h, hentry, ok_bind]

theorem converted_u32 (h : n < 2 ^ 32) : converted scvalToU32 (.val (.u32 (.ofNat n))) = .ok n := by
  rw [converted, scvalToU32, UInt32.toNat_ofNat', Nat.mod_eq_of_lt h]
  rfl

theorem converted_u64 (h : n < 2 ^ 64) : converted scvalToU64 (.val (.u64 (.ofNat n))) = .ok n := by
  rw [converted, scvalToU64, UInt64.toNat_ofNat', Nat.mod_eq_of_lt h]
  rfl

theorem converted_field (h : n < bn256Modulus) :
    converted scvalToField (.val (u256Parts n)) = .ok (n : F) := by
  rw [converted, scvalToField, scvalToU256_field h, ok_bind, fieldTryFromU256_eq h]
  rfl

section
variable (hserves : ServesPool codec pool x response) (hrecorded : Recorded host config x)
include hserves hrecorded

theorem read_currentRootIndex :
    readAs scvalToU32 response ⟨pool, .currentRootIndex, none⟩ =
      .ok (x.accepted.length % rootHistorySize) := by
  have hcurrent := hrecorded.tree.ring.current
  rw [inserted_length, Nat.mul_div_cancel_left _ (by omega)] at hcurrent
  have hlt := Nat.mod_lt x.accepted.length (show rootHistorySize > 0 by decide)
  rw [hserves.readAs (by rw [poolEntry, u32Entry, hcurrent]; rfl), converted_u32]
  exact hlt.trans (by decide)

theorem read_levels : readAs scvalToU32 response ⟨pool, .levels, none⟩ = .ok config.levels := by
  have hle := hrecorded.tree.levels_le
  rw [hserves.readAs (by rw [poolEntry, u32Entry, hrecorded.tree.levels_eq]; rfl), converted_u32]
  omega

theorem read_nextIndex :
    readAs scvalToU64 response ⟨pool, .nextIndex, none⟩ =
      .ok (inserted x.accepted).length := by
  have hfits := hrecorded.tree.fits
  have hcapacity : 2 ^ config.levels ≤ 2 ^ 32 := Nat.pow_le_pow_right (by omega) hrecorded.tree.levels_le
  rw [hserves.readAs (by rw [poolEntry, u64Entry, hrecorded.tree.nextIndex_eq]; rfl), converted_u64]
  omega

theorem read_root :
    readAs scvalToField response ⟨pool, .root, some (x.accepted.length % rootHistorySize)⟩ =
      .ok (treeRoot host.permutation config.levels (inserted x.accepted)) := by
  have hroot := hrecorded.tree.ring.window.recent x.accepted.length
    (by rw [inserted_length]; omega)
    (by rw [inserted_length, Nat.mul_div_cancel_left _ (by omega)]; simp [rootHistorySize])
  rw [← inserted_length, take_length] at hroot
  rw [hserves.readAs (by rw [poolEntry, u256Entry, hroot]; rfl),
    converted_field (ZMod.val_lt _), ZMod.natCast_zmod_val]

end

end Storage

variable {states : Nat → State}

section Interleaving
variable {t next : Nat}

/-- Each response shows one state of the pool, and time moves forward between them. -/
structure Interleaved (codec : Codec) (host : Pool.Host) (config : Config) (pool : String) (rpc : Rpc)
    (states : Nat → State) : Prop where
  reachable : Reachable host config (states 0)
  steps : ∀ t, Relation.ReflTransGen (System.Step host) (states t) (states (t + 1))
  serves : ∀ t response, rpc t = .ok response → ServesPool codec pool (states t) response

structure Observed (codec : Codec) (host : Pool.Host) (config : Config) (pool : String) (rpc : Rpc)
    (states : Nat → State) : Prop where
  recorded : ∀ t, Recorded host config (states t)
  grows : ∀ t, (states t).accepted <+: (states (t + 1)).accepted
  serves : ∀ t response, rpc t = .ok response → ServesPool codec pool (states t) response

def transactionsBetween (states : Nat → State) (t : Nat) : Nat :=
  (states (t + 1)).accepted.length - (states t).accepted.length

def Consistent (P : Permutation) (levels : Nat) (states : Nat → State) (data : ContractsStateData) :
    Prop :=
  ∃ info t, data.pools = [info] ∧ (inserted (states t).accepted).length = info.merkleNextIndex ∧
    info.merkleRoot = some (treeRoot P levels (inserted (states t).accepted))

theorem Interleaved.reachableAt (h : Interleaved codec host config pool rpc states) (t : Nat) :
    Reachable host config (states t) := by
  induction t with
  | zero => exact h.reachable
  | succ t ih =>
    obtain ⟨y, hdeployed, hsteps⟩ := ih
    exact ⟨y, hdeployed, hsteps.trans (h.steps t)⟩

theorem Interleaved.observed (h : Interleaved codec host config pool rpc states)
    (hchain : ZeroesChain host.permutation) : Observed codec host config pool rpc states :=
  ⟨fun t => (h.reachableAt t).recorded hchain, fun t => steps_accepted_grows (h.steps t), h.serves⟩

section
variable (h : Observed codec host config pool rpc states)
include h

theorem Observed.accepted_grows (hle : t ≤ next) : (states t).accepted <+: (states next).accepted := by
  induction next, hle using Nat.le_induction with
  | base => exact prefix_rfl
  | succ next _ ih => exact ih.trans (h.grows next)

theorem Observed.drift_iff :
    (states (t + 1)).accepted.length % rootHistorySize =
        (states t).accepted.length % rootHistorySize ↔
      rootHistorySize ∣ transactionsBetween states t := by
  have hle := (h.accepted_grows (show t ≤ t + 1 by omega)).length_le
  rw [transactionsBetween, ← Nat.modEq_iff_dvd' hle]
  exact eq_comm

theorem Observed.attempt
    (hattempt : snapshotAttempt codec ids rpc [pool] t = .ok (result, next)) :
    next = t + 2 ∧
      (¬rootHistorySize ∣ transactionsBetween states t → result = none) ∧
      (rootHistorySize ∣ transactionsBetween states t → ∃ data info, result = some data ∧
        data.pools = [info] ∧ info.merkleNextIndex = (inserted (states t).accepted).length ∧
        info.merkleRoot = some (treeRoot host.permutation config.levels
          (inserted (states (t + 1)).accepted))) := by
  obtain ⟨first, second, expected, observed, hfirst, hsecond, hnext, hexpected, hobserved, hdrift, hsame⟩ :=
    snapshotAttempt_ok hattempt
  have hserves := h.serves _ _ hfirst
  have hserves' := h.serves _ _ hsecond
  have hrecorded := h.recorded t
  have hrecorded' := h.recorded (t + 1)
  rw [read_currentRootIndex hserves hrecorded] at hexpected
  rw [read_currentRootIndex hserves' hrecorded'] at hobserved
  obtain rfl := Except.ok.inj hexpected
  obtain rfl := Except.ok.inj hobserved
  rw [← h.drift_iff]
  refine ⟨hnext, hdrift, fun heq => ?_⟩
  obtain ⟨data, hdata, hreported⟩ := hsame heq
  obtain ⟨info, index, root, hpools, hindex, -, hroot, hmerkleRoot, hmerkleNext, -⟩ := hreported.info
  rw [read_currentRootIndex hserves hrecorded, ← heq] at hindex
  obtain rfl := Except.ok.inj hindex
  rw [read_root hserves' hrecorded'] at hroot
  rw [read_nextIndex hserves hrecorded] at hmerkleNext
  obtain rfl := Except.ok.inj hroot
  exact ⟨data, info, hdata, hpools, (Except.ok.inj hmerkleNext).symm, hmerkleRoot⟩

/-- The attempts end with the first one in which the root index is the same twice. -/
theorem Observed.attempts {attempts : Nat} {data : ContractsStateData}
    (hattempts : snapshotAttempts codec ids rpc [pool] attempts t = .ok (data, next)) :
    ∃ a < attempts,
      (∀ b < a, ¬rootHistorySize ∣ transactionsBetween states (t + 2 * b)) ∧
      rootHistorySize ∣ transactionsBetween states (t + 2 * a) ∧
      ∃ info, data.pools = [info] ∧
        info.merkleNextIndex = (inserted (states (t + 2 * a)).accepted).length ∧
        info.merkleRoot = some (treeRoot host.permutation config.levels
          (inserted (states (t + 2 * a + 1)).accepted)) := by
  induction attempts generalizing t with
  | zero => cases hattempts
  | succ attempts ih =>
    obtain ⟨⟨result, next'⟩, hattempt, hrest⟩ := bind_eq_ok hattempts
    obtain ⟨rfl, hdrift, hsame⟩ := h.attempt hattempt
    by_cases hdvd : rootHistorySize ∣ transactionsBetween states t
    · obtain ⟨data', info, rfl, hinfo⟩ := hsame hdvd
      cases hrest
      exact ⟨0, by omega, nofun, hdvd, info, hinfo⟩
    · obtain rfl := hdrift hdvd
      obtain ⟨a, ha, hbefore, hdvd', hinfo⟩ := ih hrest
      have hshift : ∀ b, t + 2 + 2 * b = t + 2 * (b + 1) := fun b => by omega
      simp only [hshift] at hbefore hdvd' hinfo
      refine ⟨a + 1, by omega, ?_, hdvd', hinfo⟩
      intro b hb
      cases b with
      | zero => exact hdvd
      | succ b => exact hbefore b (by omega)

end

/-- Everything beside the tree of the pool is there and can be converted. -/
structure Convertible (codec : Codec) (ids : ContractIds) (pool : String) (response : GetLedgerEntriesResponse) :
    Prop where
  ledger : response.latestLedger < 2 ^ 32
  found : Found response (stateKeys ids pool)
  address : ∀ variant ∈ [DataKey.admin, .token, .verifier, .aspMembership, .aspNonMembership], ∃ text,
    readAs (scvalToAddressString codec) response ⟨pool, variant, none⟩ = .ok text
  maximum : ∃ maximum < 2 ^ 127,
    readAs scvalToU256 response ⟨pool, .maximumDepositAmount, none⟩ = .ok maximum
  membership : ∃ info, aspMembershipInfo codec ids (response.entries (stateKeys ids pool))
    response.latestLedger = .ok info
  nonMembership : ∃ info, aspNonMembershipInfo codec ids (response.entries (stateKeys ids pool))
    response.latestLedger = .ok info

structure Serves (codec : Codec) (ids : ContractIds) (pool : String) (x : State)
    (membership : AspMembership.Storage) (nonMembership : AspNonMembership.Storage)
    (response : GetLedgerEntriesResponse) : Prop where
  ledger : response.latestLedger < 2 ^ 32
  pool : ServesPool codec pool x response
  membership : ∀ variant value, response.entry ⟨ids.aspMembership, variant, value⟩ =
    aspMembershipEntry codec membership variant value
  nonMembership : ∀ variant value, response.entry ⟨ids.aspNonMembership, variant, value⟩ =
    aspNonMembershipEntry codec nonMembership variant value

structure Initialized (membership : AspMembership.Storage) (nonMembership : AspNonMembership.Storage) :
    Prop where
  levels : ∃ levels < 64, membership.levels = some levels
  nextIndex : ∃ nextIndex < 2 ^ 64, membership.nextIndex = some nextIndex
  root : ∃ root < bn256Modulus, membership.root = some root
  admin : ∃ admin, membership.admin = some admin
  adminInsertOnly : ∃ adminInsertOnly, membership.adminInsertOnly = some adminInsertOnly
  nonMembershipRoot : ∃ root < bn256Modulus, nonMembership.root = some root
  nonMembershipAdmin : ∃ admin, nonMembership.admin = some admin

section
variable {membership : AspMembership.Storage} {nonMembership : AspNonMembership.Storage}

theorem capacityOf_eq {levels : Nat} (h : levels < 64) : capacityOf levels = .ok (2 ^ levels) := by
  rw [capacityOf, checkedShl, if_pos h]

theorem getState_served
    (hentry : response.entry ⟨contractId, variant, none⟩ = some data)
    (hkey : (⟨contractId, variant, none⟩ : LedgerKey) ∈ stateKeys ids pool) :
    getState (response.entries (stateKeys ids pool)) contractId variant = .ok data := by
  rw [getState_stateKeys hkey, readEntry, hentry]

theorem converted_address (address : Address) : ∃ text,
    converted (scvalToAddressString codec) (.val (.address (codec.scAddress address))) = .ok text := by
  rw [converted, scvalToAddressString_scAddress]
  exact ⟨_, rfl⟩

section
variable (h : Serves codec ids pool x membership nonMembership response)
include h

theorem Serves.aspMembershipInfo (hinit : Initialized membership nonMembership) (ledger : Nat) :
    ∃ info, aspMembershipInfo codec ids (response.entries (stateKeys ids pool)) ledger = .ok info := by
  obtain ⟨levels, hlevels, hslevels⟩ := hinit.levels
  obtain ⟨nextIndex, hnext, hsnext⟩ := hinit.nextIndex
  obtain ⟨root, hroot, hsroot⟩ := hinit.root
  obtain ⟨admin, hadmin⟩ := hinit.admin
  obtain ⟨only, honly⟩ := hinit.adminInsertOnly
  obtain ⟨text, htext⟩ := @converted_address codec admin
  unfold Sdk.aspMembershipInfo
  dsimp only
  rw [getState_served (by rw [h.membership, aspMembershipEntry, u64Entry, hsnext, Option.map_some]) (by simp [mem_stateKeys]),
    ok_bind, converted_u64 hnext, ok_bind,
    getState_served (by rw [h.membership, aspMembershipEntry, u32Entry, hslevels, Option.map_some]) (by simp [mem_stateKeys]),
    ok_bind, converted_u32 (hlevels.trans (by decide)), ok_bind, capacityOf_eq hlevels, ok_bind,
    getState_served (by rw [h.membership, aspMembershipEntry, u256Entry, hsroot, Option.map_some]) (by simp [mem_stateKeys]),
    ok_bind, converted_field hroot, ok_bind,
    getState_served (by rw [h.membership, aspMembershipEntry, addressEntry, hadmin, Option.map_some]) (by simp [mem_stateKeys]),
    ok_bind, htext, ok_bind,
    getState_served (by rw [h.membership, aspMembershipEntry, honly, Option.map_some]) (by simp [mem_stateKeys]),
    ok_bind, scvalToBool, ok_bind]
  exact ⟨_, rfl⟩

theorem Serves.aspNonMembershipInfo (hinit : Initialized membership nonMembership) (ledger : Nat) :
    ∃ info, aspNonMembershipInfo codec ids (response.entries (stateKeys ids pool)) ledger = .ok info := by
  obtain ⟨root, hroot, hsroot⟩ := hinit.nonMembershipRoot
  obtain ⟨admin, hadmin⟩ := hinit.nonMembershipAdmin
  obtain ⟨text, htext⟩ := @converted_address codec admin
  unfold Sdk.aspNonMembershipInfo
  dsimp only
  rw [getState_served (by rw [h.nonMembership, aspNonMembershipEntry, u256Entry, hsroot, Option.map_some])
      (by simp [mem_stateKeys]), ok_bind, converted_field hroot, ok_bind,
    getState_served (by rw [h.nonMembership, aspNonMembershipEntry, addressEntry, hadmin, Option.map_some])
      (by simp [mem_stateKeys]), ok_bind, htext, ok_bind]
  exact ⟨_, rfl⟩

theorem Serves.found (hconfigured : Configured config x) (hrecorded : Recorded host config x)
    (hinit : Initialized membership nonMembership) : Found response (stateKeys ids pool) := by
  rintro ⟨contractId, variant, value⟩ hkey hinstance
  obtain ⟨hvalue, hcases⟩ := mem_stateKeys.mp hkey
  dsimp only at hvalue hcases hinstance
  subst hvalue
  rcases hcases with ⟨rfl, hvariant⟩ | ⟨rfl, hvariant⟩ | ⟨rfl, hvariant⟩
  · obtain ⟨admin, hadmin⟩ := hconfigured.admin
    obtain ⟨aspMembership, hasp⟩ := hconfigured.aspMembership
    obtain ⟨aspNonMembership, hnon⟩ := hconfigured.aspNonMembership
    rw [h.pool]
    fin_cases hvariant <;> simp_all [poolEntry, addressEntry, u32Entry, u64Entry, u256Entry,
      hconfigured.token, hconfigured.verifier, hconfigured.maximum, hrecorded.tree.levels_eq,
      hrecorded.tree.nextIndex_eq, hrecorded.tree.ring.current]
  · obtain ⟨levels, -, hlevels⟩ := hinit.levels
    obtain ⟨nextIndex, -, hnext⟩ := hinit.nextIndex
    obtain ⟨root, -, hroot⟩ := hinit.root
    obtain ⟨admin, hadmin⟩ := hinit.admin
    obtain ⟨only, honly⟩ := hinit.adminInsertOnly
    rw [h.membership]
    fin_cases hvariant <;> simp_all [aspMembershipEntry, addressEntry, u32Entry, u64Entry, u256Entry]
  · obtain ⟨root, -, hroot⟩ := hinit.nonMembershipRoot
    obtain ⟨admin, hadmin⟩ := hinit.nonMembershipAdmin
    rw [h.nonMembership]
    fin_cases hvariant <;> simp_all [aspNonMembershipEntry, addressEntry, u256Entry]

theorem Serves.convertible (hconfigured : Configured config x) (hrecorded : Recorded host config x)
    (hmaximum : config.maximumDepositAmount < 2 ^ 127) (hinit : Initialized membership nonMembership) :
    Convertible codec ids pool response := by
  have haddress : ∀ variant address, poolEntry codec x.ledger.pool variant none =
      addressEntry codec (some address) →
    ∃ text, readAs (scvalToAddressString codec) response ⟨pool, variant, none⟩ = .ok text := by
    intro variant address hentry
    rw [h.pool.readAs hentry]
    exact converted_address address
  refine ⟨h.ledger, h.found hconfigured hrecorded hinit, ?_, ⟨_, hmaximum, ?_⟩,
    h.aspMembershipInfo hinit _, h.aspNonMembershipInfo hinit _⟩
  · obtain ⟨admin, hadmin⟩ := hconfigured.admin
    obtain ⟨aspMembership, hasp⟩ := hconfigured.aspMembership
    obtain ⟨aspNonMembership, hnon⟩ := hconfigured.aspNonMembership
    intro variant hvariant
    fin_cases hvariant
    · exact haddress _ admin (by rw [poolEntry, hadmin])
    · exact haddress _ _ (by rw [poolEntry, hconfigured.token])
    · exact haddress _ _ (by rw [poolEntry, hconfigured.verifier])
    · exact haddress _ aspMembership (by rw [poolEntry, hasp])
    · exact haddress _ aspNonMembership (by rw [poolEntry, hnon])
  · rw [h.pool.readAs (by rw [poolEntry, u256Entry, hconfigured.maximum]; rfl), converted,
      scvalToU256_u256Parts (hmaximum.trans (by decide))]
    rfl

end

end

theorem Observed.root_slot (h : Observed codec host config pool rpc states) :
    ∃ root < bn256Modulus, (states (t + 1)).ledger.pool.merkle.root
      ((states t).accepted.length % rootHistorySize) = some root := by
  have hle := (h.accepted_grows (show t ≤ t + 1 by omega)).length_le
  have hring := (h.recorded (t + 1)).tree.ring
  rw [inserted_length, Nat.mul_div_cancel_left _ (by omega)] at hring
  have hlt := Nat.mod_lt (transactionsBetween states t) (show rootHistorySize > 0 by decide)
  have hsplit := Nat.div_add_mod (transactionsBetween states t) rootHistorySize
  have hbetween : transactionsBetween states t =
    (states (t + 1)).accepted.length - (states t).accepted.length := rfl
  set rounds := transactionsBetween states t / rootHistorySize
  have hslot := hring.window.recent
    ((states t).accepted.length + rootHistorySize * rounds) (by omega) (by omega)
  rw [Nat.add_mul_mod_self_left] at hslot
  exact ⟨_, ZMod.val_lt _, hslot⟩

theorem Observed.found_root (h : Observed codec host config pool rpc states) {second : GetLedgerEntriesResponse}
    (hsecond : rpc (t + 1) = .ok second) :
    Found second (rootKeys pool ((states t).accepted.length % rootHistorySize)) := by
  have hserves := h.serves _ _ hsecond
  obtain ⟨root, -, hslot⟩ := @Observed.root_slot _ _ _ _ _ _ t h
  intro key hkey hinstance
  rw [mem_rootKeys] at hkey
  simp only [mem_cons, not_mem_nil, or_false] at hkey
  rcases hkey with rfl | rfl | rfl
  · exact absurd rfl hinstance
  · rw [hserves, poolEntry, u32Entry, (h.recorded (t + 1)).tree.ring.current]
    rfl
  · rw [hserves, poolEntry, u256Entry, hslot]
    rfl

theorem Convertible.poolInfo
    (h : Convertible codec ids pool first) {root : F} {levels current nextIndex : Nat} (hlevels : levels < 64)
    (hcurrent : readAs scvalToU32 first ⟨pool, .currentRootIndex, none⟩ = .ok current)
    (hroot : readAs scvalToField second ⟨pool, .root, some index⟩ = .ok root)
    (hread : readAs scvalToU32 first ⟨pool, .levels, none⟩ = .ok levels)
    (hnext : readAs scvalToU64 first ⟨pool, .nextIndex, none⟩ = .ok nextIndex) :
    ∃ info, poolInfo codec (first.entries (stateKeys ids pool)) (second.entries (rootKeys pool index)) ledger
      pool = .ok info := by
  have hstate : ∀ variant ∈ [DataKey.admin, .token, .verifier, .aspMembership, .aspNonMembership, .levels,
      .nextIndex, .maximumDepositAmount], getState (first.entries (stateKeys ids pool)) pool variant =
        readEntry first ⟨pool, variant, none⟩ := by
    intro variant hvariant
    apply getState_stateKeys
    fin_cases hvariant <;> simp [mem_stateKeys]
  obtain ⟨admin, hadmin⟩ := h.address .admin (by simp)
  obtain ⟨token, htoken⟩ := h.address .token (by simp)
  obtain ⟨verifier, hverifier⟩ := h.address .verifier (by simp)
  obtain ⟨membership, hmembership⟩ := h.address .aspMembership (by simp)
  obtain ⟨nonMembership, hnonMembership⟩ := h.address .aspNonMembership (by simp)
  obtain ⟨maximum, hfits, hmaximum⟩ := h.maximum
  have hchecked : u256ToI128Checked maximum = .ok maximum := if_pos hfits
  obtain ⟨value, hvalue, hcurrent'⟩ := readAs_ok hcurrent
  obtain ⟨value', hvalue', hroot'⟩ := readAs_ok hroot
  have hindex : (first.entries (stateKeys ids pool)).get pool .currentRootIndex = some value := by
    rw [← hvalue]
    exact @get_entries first _ ⟨pool, .currentRootIndex, none⟩ (by simp [mem_stateKeys]) stateKeys_named
  have hslot : (second.entries (rootKeys pool index)).get pool .root = some value' := by
    rw [← hvalue']
    exact @get_entries second _ ⟨pool, .root, some index⟩ (by simp [mem_rootKeys]) (rootKeys_named index)
  unfold Sdk.poolInfo
  simp only [hindex, hslot, mapOption, hcurrent', hroot', Except.map, ok_bind, hstate .levels (by simp), hread,
    capacityOf_eq hlevels, hstate .nextIndex (by simp), hnext, hstate .maximumDepositAmount (by simp), hmaximum, hchecked,
    hstate .admin (by simp), hadmin, hstate .token (by simp), htoken, hstate .verifier (by simp), hverifier,
    hstate .aspMembership (by simp), hmembership, hstate .aspNonMembership (by simp), hnonMembership]
  exact ⟨_, rfl⟩

theorem mapM_singleton_eq {f : α → Except ε β} {a : α} {b : β} (h : f a = .ok b) :
    [a].mapM f = .ok [b] := by
  rw [mapM_cons, mapM_nil, h]
  rfl

theorem Observed.attempt_succeeds (h : Observed codec host config pool rpc states)
    (hfirst : rpc t = .ok first) (hsecond : rpc (t + 1) = .ok second)
    (hconvertible : Convertible codec ids pool first) (hledger : second.latestLedger < 2 ^ 32) :
    ∃ result, snapshotAttempt codec ids rpc [pool] t = .ok (result, t + 2) := by
  have hserves := h.serves _ _ hfirst
  have hserves' := h.serves _ _ hsecond
  have hrecorded := h.recorded t
  have hrecorded' := h.recorded (t + 1)
  set expected := (states t).accepted.length % rootHistorySize with hexpected
  have hfound := @Observed.found_root _ _ _ _ _ _ t h _ hsecond
  have hstate := getContractDataBulk_one stateKeys_few.1 stateKeys_few.2 stateKeys_named hfirst
    hconvertible.ledger hconvertible.found
  have hroots := getContractDataBulk_one (rootKeys_few expected).1 (rootKeys_few expected).2
    (rootKeys_named expected) hsecond hledger hfound
  have hindex : currentRootIndexOf (first.entries (stateKeys ids pool)) pool = .ok expected := by
    rw [currentRootIndexOf, getState_stateKeys (by simp [mem_stateKeys])]
    exact read_currentRootIndex hserves hrecorded
  have hindex' : currentRootIndexOf (second.entries (rootKeys pool expected)) pool =
      .ok ((states (t + 1)).accepted.length % rootHistorySize) := by
    rw [currentRootIndexOf, @getState_entries second _ ⟨pool, .currentRootIndex, none⟩
      (by simp [mem_rootKeys]) (rootKeys_named expected)]
    exact read_currentRootIndex hserves' hrecorded'
  unfold snapshotAttempt
  rw [hstate, ok_bind]
  simp only [mapM_singleton_eq hindex, ok_bind, zipWith_cons_cons, zipWith_nil_left, hroots,
    mapM_singleton_eq hindex']
  split
  · exact ⟨none, rfl⟩
  · rename_i hsame
    have heq : (states (t + 1)).accepted.length % rootHistorySize = expected := by
      simpa using hsame
    have hroot := read_root hserves' hrecorded'
    rw [heq] at hroot
    have hlevels := hrecorded.tree.levels_le
    obtain ⟨info, hinfo⟩ := @Convertible.poolInfo codec ids pool first second first.latestLedger expected
      hconvertible _ _ _ _ (by omega) (read_currentRootIndex hserves hrecorded) hroot
      (read_levels hserves hrecorded) (read_nextIndex hserves hrecorded)
    obtain ⟨membership, hmembership⟩ := hconvertible.membership
    obtain ⟨nonMembership, hnonMembership⟩ := hconvertible.nonMembership
    simp only [mapM_singleton_eq hinfo, ok_bind, hmembership, hnonMembership]
    exact ⟨_, rfl⟩

theorem Observed.attempts_succeed (h : Observed codec host config pool rpc states)
    (hanswers : ∀ t, ∃ response, rpc t = .ok response ∧ Convertible codec ids pool response)
    {attempts a : Nat} (ha : a < attempts)
    (hdvd : rootHistorySize ∣ transactionsBetween states (t + 2 * a)) :
    ∃ data next, snapshotAttempts codec ids rpc [pool] attempts t = .ok (data, next) := by
  induction attempts generalizing t a with
  | zero => omega
  | succ attempts ih =>
    obtain ⟨first, hfirst, hconvertible⟩ := hanswers t
    obtain ⟨second, hsecond, hconvertible'⟩ := hanswers (t + 1)
    obtain ⟨result, hattempt⟩ := h.attempt_succeeds hfirst hsecond hconvertible hconvertible'.ledger
    rw [snapshotAttempts, hattempt, ok_bind]
    cases result with
    | some data => exact ⟨data, t + 2, rfl⟩
    | none =>
      obtain ⟨-, -, hsame⟩ := h.attempt hattempt
      cases a with
      | zero =>
        obtain ⟨data, -, hdata, -⟩ := hsame hdvd
        cases hdata
      | succ a =>
        rw [show t + 2 * (a + 1) = t + 2 + 2 * a by omega] at hdvd
        exact ih (by omega) hdvd

/-- The attempt that ends the loop has seen no full round of the root ring. -/
def Unwrapped (states : Nat → State) (t : Nat) : Prop :=
  ∀ a < maxSnapshotAttempts,
    (∀ b < a, ¬rootHistorySize ∣ transactionsBetween states (t + 2 * b)) →
      rootHistorySize ∣ transactionsBetween states (t + 2 * a) →
        transactionsBetween states (t + 2 * a) = 0

def poolQueries (P : Permutation) (levels : Nat) (leaves : List F) : Set Query :=
  { q | ∃ n, TreeQuery P (leaves.take n) levels q }

theorem Observed.inserted_eq (h : Observed codec host config pool rpc states) {s : Nat}
    (hlength : (inserted (states s).accepted).length = (inserted (states t).accepted).length) :
    (states s).accepted = (states t).accepted := by
  rw [inserted_length, inserted_length] at hlength
  rcases le_total s t with hle | hle
  · exact (h.accepted_grows hle).eq_of_length (by omega)
  · exact ((h.accepted_grows hle).eq_of_length (by omega)).symm

theorem Observed.size_eq_of_root (h : Observed codec host config pool rpc states)
    (hfree : CollisionFree host.permutation
      (poolQueries host.permutation config.levels (inserted (states (t + 1)).accepted)))
    (hleaf : zeroLeaf ∉ inserted (states (t + 1)).accepted)
    (hroot : treeRoot host.permutation config.levels (inserted (states t).accepted) =
      treeRoot host.permutation config.levels (inserted (states (t + 1)).accepted)) :
    transactionsBetween states t = 0 := by
  by_contra hne
  obtain ⟨more, hmore⟩ := h.accepted_grows (show t ≤ t + 1 by omega)
  set before := inserted (states t).accepted with hbefore
  set after := inserted (states (t + 1)).accepted with hafter
  have hsplit : after = before ++ inserted more := by
    rw [hafter, ← hmore, inserted, flatMap_append]
    rfl
  have hlonger : before.length < after.length := by
    unfold transactionsBetween at hne
    rw [hbefore, hafter, inserted_length, inserted_length]
    omega
  have hfits := (h.recorded (t + 1)).tree.fits
  have hsame : padded zeroLeaf before before.length = padded zeroLeaf after before.length := by
    apply treeRoot_inj hfree _ _ hroot (hlonger.trans_le hfits)
    · intro q hq
      refine ⟨before.length, ?_⟩
      rwa [hsplit, take_left]
    · intro q hq
      refine ⟨after.length, ?_⟩
      rwa [take_length]
  rw [padded_ge (le_refl _), padded_lt hlonger] at hsame
  exact hleaf (hsame ▸ getElem_mem hlonger)

/-- A snapshot is consistent as long as the attempt that is kept has seen no full round of the root
ring, and without collisions only then. -/
theorem snapshot_consistent (h : Interleaved codec host config pool rpc states)
    (hchain : ZeroesChain host.permutation) :
    (Unwrapped states t → ∀ data next, contractsData codec ids rpc [pool] t = .ok (data, next) →
        Consistent host.permutation config.levels states data) ∧
      ((∀ t, ∃ response, rpc t = .ok response ∧ Convertible codec ids pool response) →
        (∀ t, CollisionFree host.permutation
          (poolQueries host.permutation config.levels (inserted (states t).accepted))) →
        (∀ t, zeroLeaf ∉ inserted (states t).accepted) →
        (∀ data next, contractsData codec ids rpc [pool] t = .ok (data, next) →
          Consistent host.permutation config.levels states data) → Unwrapped states t) := by
  have hobserved := h.observed hchain
  constructor
  · intro hquiet data next hdata
    obtain ⟨a, ha, hbefore, hdvd, info, hpools, hnext, hroot⟩ := hobserved.attempts hdata
    have hzero := hquiet a ha hbefore hdvd
    have hgrows := hobserved.accepted_grows (show t + 2 * a ≤ t + 2 * a + 1 by omega)
    have hsame : (states (t + 2 * a)).accepted = (states (t + 2 * a + 1)).accepted := by
      apply hgrows.eq_of_length
      have hle := hgrows.length_le
      unfold transactionsBetween at hzero
      omega
    refine ⟨info, t + 2 * a, hpools, hnext.symm, ?_⟩
    rw [hroot, hsame]
  · intro hanswers hfree hleaf hconsistent a ha hbefore hdvd
    obtain ⟨data, next, hdata⟩ := hobserved.attempts_succeed hanswers ha hdvd
    obtain ⟨a', ha', hbefore', hdvd', info, hpools, hnext, hroot⟩ := hobserved.attempts hdata
    obtain rfl : a' = a := by
      rcases Nat.lt_trichotomy a' a with hlt | heq | hgt
      · exact absurd hdvd' (hbefore a' hlt)
      · exact heq
      · exact absurd hdvd (hbefore' a hgt)
    obtain ⟨info', s, hpools', hlength, hroot'⟩ := hconsistent data next hdata
    obtain rfl : info = info' := singleton_inj.mp (hpools.symm.trans hpools')
    rw [hnext] at hlength
    rw [hobserved.inserted_eq hlength, hroot] at hroot'
    exact hobserved.size_eq_of_root (hfree _) (hleaf _) (Option.some.inj hroot').symm

end Interleaving

section Sample

def sampleIds : ContractIds := ⟨"M", "N"⟩

def emptyMembership : AspMembership.Storage :=
  { AspMembership.Storage.fresh with
    admin := some ⟨1⟩, levels := some 10, nextIndex := some 0, root := some 0, adminInsertOnly := some true }

def emptyNonMembership : AspNonMembership.Storage :=
  { AspNonMembership.Storage.fresh with admin := some ⟨1⟩, root := some 0 }

def sampleResponse (codec : Codec) (x : State) : GetLedgerEntriesResponse where
  latestLedger := 1
  entry key :=
    if key.contractId = "A" then poolEntry codec x.ledger.pool key.variant key.value
    else if key.contractId = "M" then aspMembershipEntry codec emptyMembership key.variant key.value
    else aspNonMembershipEntry codec emptyNonMembership key.variant key.value

theorem sampleResponse_serves (codec : Codec) (x : State) :
    Serves codec sampleIds "A" x emptyMembership emptyNonMembership (sampleResponse codec x) where
  ledger := show 1 < 2 ^ 32 by decide
  pool _ _ := rfl
  membership _ _ := rfl
  nonMembership _ _ := rfl

theorem empty_initialized : Initialized emptyMembership emptyNonMembership where
  levels := ⟨10, by decide, rfl⟩
  nextIndex := ⟨0, by decide, rfl⟩
  root := ⟨0, by decide, rfl⟩
  admin := ⟨_, rfl⟩
  adminInsertOnly := ⟨_, rfl⟩
  nonMembershipRoot := ⟨0, by decide, rfl⟩
  nonMembershipAdmin := ⟨_, rfl⟩

def sampleRpc (codec : Codec) (states : Nat → State) : Rpc := fun t =>
  .ok (sampleResponse codec (states t))


theorem sampleRpc_interleaved (hreachable : Reachable host System.sampleConfig (states 0))
    (hsteps : ∀ t, Relation.ReflTransGen (System.Step host) (states t) (states (t + 1))) :
    Interleaved codec host System.sampleConfig "A" (sampleRpc codec states) states := by
  refine ⟨hreachable, hsteps, ?_⟩
  intro t response hresponse
  obtain rfl := Except.ok.inj hresponse
  exact (sampleResponse_serves codec (states t)).pool

theorem sampleRpc_convertible (hchain : ZeroesChain host.permutation)
    (h : Interleaved codec host System.sampleConfig "A" (sampleRpc codec states) states) (t : Nat) :
    ∃ response, sampleRpc codec states t = .ok response ∧ Convertible codec sampleIds "A" response := by
  refine ⟨_, rfl, ?_⟩
  exact (sampleResponse_serves codec (states t)).convertible ((h.reachableAt t).configured hchain)
    ((h.reachableAt t).recorded hchain) (by decide) empty_initialized

/-- All of `n` transactions come between the first two reads. -/
structure Moved (n : Nat) (x : State) (states : Nat → State) : Prop where
  filling : Filling n x
  start : (states 0).accepted = []
  after : ∀ t, states (t + 1) = x
  interleaved : Interleaved unaryCodec fillHost System.sampleConfig "A" (sampleRpc unaryCodec states) states

theorem exists_moved (hn : n ≤ 512) : ∃ x states, Moved n x states := by
  obtain ⟨x, hx⟩ := exists_filling hn
  obtain ⟨y, hdeployed, hsteps⟩ := hx.reachable
  refine ⟨x, fun t => if t = 0 then y else x, hx, hdeployed.2, fun _ => rfl,
    sampleRpc_interleaved ⟨y, hdeployed, .refl⟩ fun t => ?_⟩
  cases t with
  | zero => exact hsteps
  | succ t => exact .refl

section
variable {n : Nat} (h : Moved n x states)
include h

theorem Moved.between : transactionsBetween states 0 = n := by
  rw [transactionsBetween, h.after, h.start, h.filling.accepted, length_map, length_range]
  rfl

theorem Moved.between_succ (t : Nat) : transactionsBetween states (t + 1) = 0 := by
  rw [transactionsBetween, h.after, h.after, Nat.sub_self]

end

theorem snapshot_sample : ∃ states data next, transactionsBetween states 0 = 1 ∧
    contractsData unaryCodec sampleIds (sampleRpc unaryCodec states) ["A"] 0 = .ok (data, next) ∧
      Consistent flatPermutation 10 states data := by
  obtain ⟨x, states, h⟩ := exists_moved (show 1 ≤ 512 by decide)
  obtain ⟨data, next, hdata⟩ := (h.interleaved.observed flat_chain).attempts_succeed (t := 0) (a := 1)
    (sampleRpc_convertible flat_chain h.interleaved) (show 1 < maxSnapshotAttempts by decide)
    (by rw [h.between_succ]; exact dvd_zero _)
  refine ⟨states, data, next, h.between, hdata,
    (snapshot_consistent h.interleaved flat_chain).1 ?_ data next hdata⟩
  -- The transaction is noticed by the first attempt, and the second one is kept.
  intro a _ _ hdvd
  cases a with
  | zero =>
    rw [h.between] at hdvd
    exact absurd hdvd (by decide)
  | succ a => exact (congrArg _ (by omega)).trans (h.between_succ (2 * a + 1))

/-- While the RPC answers, a snapshot comes out if and only if some attempt sees the root ring at one place twice. -/
theorem snapshot_returns_iff {ids : ContractIds} {pool : String} {rpc : Rpc} {config : Config} {t : Nat}
    (h : Interleaved codec host config pool rpc states) (hchain : ZeroesChain host.permutation)
    (hmaximum : config.maximumDepositAmount < 2 ^ 127) (hanswers : ∀ t, ∃ response membership nonMembership,
      rpc t = .ok response ∧ Serves codec ids pool (states t) membership nonMembership response ∧
        Initialized membership nonMembership) :
    (∃ data next, contractsData codec ids rpc [pool] t = .ok (data, next)) ↔
      ∃ a < maxSnapshotAttempts, rootHistorySize ∣ transactionsBetween states (t + 2 * a) := by
  have hobserved := h.observed hchain
  constructor
  · rintro ⟨data, next, hdata⟩
    obtain ⟨a, ha, -, hdvd, -⟩ := hobserved.attempts hdata
    exact ⟨a, ha, hdvd⟩
  · rintro ⟨a, ha, hdvd⟩
    refine hobserved.attempts_succeed (fun t => ?_) ha hdvd
    obtain ⟨response, _, _, hresponse, hserves, hinit⟩ := hanswers t
    exact ⟨response, hresponse, hserves.convertible ((h.reachableAt t).configured hchain) (hobserved.recorded t)
      hmaximum hinit⟩

theorem snapshot_returns_sample : ∃ states, transactionsBetween states 0 = 1 ∧
    ∃ data next, contractsData unaryCodec sampleIds (sampleRpc unaryCodec states) ["A"] 0 = .ok (data, next) := by
  obtain ⟨x, states, h⟩ := exists_moved (show 1 ≤ 512 by decide)
  refine ⟨states, h.between, (snapshot_returns_iff h.interleaved flat_chain (by decide) fun _ => ?_).mpr
    ⟨1, by decide, by rw [h.between_succ]; exact dvd_zero _⟩⟩
  exact ⟨_, _, _, rfl, sampleResponse_serves _ _, empty_initialized⟩

theorem flat_node_zero {leaves : List F} {level : Nat} (hlevel : level ≤ 32)
    (h : treeNode flatPermutation leaves level 0 = zeroAt level) : padded zeroLeaf leaves 0 = zeroLeaf := by
  induction level with
  | zero => exact h
  | succ level ih =>
    apply ih (by omega)
    rw [treeNode, nodeAt_succ, flat_compress] at h
    cases hfound : zeroesTable.lookup (.compress
        (nodeAt (compress flatPermutation) (padded zeroLeaf leaves) level (2 * 0))
        (nodeAt (compress flatPermutation) (padded zeroLeaf leaves) level (2 * 0 + 1))) with
    | none =>
      rw [hfound] at h
      have hne : ∀ i < 33, zeroAt i ≠ 1 := by decide +kernel
      exact absurd h.symm (hne (level + 1) (by omega))
    | some digest =>
      rw [hfound] at h
      obtain ⟨before, after, heq, -⟩ := lookup_eq_some_iff.mp hfound
      have hmem : (_, digest) ∈ zeroesTable := heq ▸ mem_append_right before mem_cons_self
      obtain ⟨i, hi, hentry⟩ := mem_map.mp hmem
      rw [mem_range] at hi
      obtain ⟨hkey, hdigest⟩ := Prod.mk.inj hentry
      have hlevels : i + 1 = level + 1 := zeroAt_inj (by omega) (by omega) (hdigest.trans h)
      obtain rfl : i = level := by omega
      exact (Query.compress.inj hkey).1.symm

theorem filled_root {x : State} (h : Filling 90 x) :
    treeRoot flatPermutation 10 (inserted x.accepted) ≠ treeRoot flatPermutation 10 [] := by
  have hrecorded := (h.reachable.recorded flat_chain).tree.getLastRoot
  have hinv := h.inv.tree.getLastRoot
  rw [hrecorded] at hinv
  have hleaves := Filling.leaves h (by omega)
  have hroot : treeRoot flatPermutation 10 (inserted x.accepted) =
      treeRoot flatPermutation 10 (fillTree 90) := by
    rw [← hleaves]
    exact ZMod.val_injective _ (Except.ok.inj hinv)
  rw [hroot]
  intro hsame
  have hempty : treeRoot flatPermutation 10 [] = zeroAt 10 := by
    apply ZMod.val_injective
    rw [emptyRoot_eq flat_chain (by omega), zeroAt, val_natCast_of_lt (getZeroes_lt (by omega))]
  have hzero := @flat_node_zero (fillTree 90) 10 (by omega) (hsame.trans hempty)
  have hfirst : padded zeroLeaf (fillTree 90) 0 = 1 := rfl
  rw [hfirst] at hzero
  revert hzero
  decide

/-- Ninety transactions between the two reads of the first attempt. -/
theorem root_ring_wraps : ∃ (host : Pool.Host) (config : Config) (states : Nat → State)
    (data : ContractsStateData) (next : Nat), ZeroesChain host.permutation ∧
    Interleaved unaryCodec host config "A" (sampleRpc unaryCodec states) states ∧
    contractsData unaryCodec sampleIds (sampleRpc unaryCodec states) ["A"] 0 = .ok (data, next) ∧
    ¬Consistent host.permutation config.levels states data := by
  obtain ⟨x, states, h⟩ := exists_moved (show 90 ≤ 512 by decide)
  have hdvd : rootHistorySize ∣ transactionsBetween states (0 + 2 * 0) := by
    rw [h.between]
    exact dvd_refl 90
  have hobserved := h.interleaved.observed flat_chain
  obtain ⟨data, next, hdata⟩ := hobserved.attempts_succeed
    (sampleRpc_convertible flat_chain h.interleaved) (show 0 < maxSnapshotAttempts by decide) hdvd
  refine ⟨fillHost, System.sampleConfig, states, data, next, flat_chain, h.interleaved, hdata, ?_⟩
  rintro ⟨info', s, hpools', hsize, hroot'⟩
  obtain ⟨a, ha, hbefore, -, info, hpools, hnext, hroot⟩ := hobserved.attempts hdata
  obtain rfl : a = 0 := by
    by_contra hne
    exact hbefore 0 (by omega) hdvd
  obtain rfl : info = info' := singleton_inj.mp (hpools.symm.trans hpools')
  rw [hnext] at hsize
  rw [hobserved.inserted_eq hsize, hroot] at hroot'
  apply filled_root h.filling
  have heq := Option.some.inj hroot'
  rwa [mul_zero, add_zero, h.after, h.start] at heq

end Sample

end PrivatePayments.Sdk

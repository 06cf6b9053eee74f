import PrivatePayments.Contracts.SorobanUtils
import PrivatePayments.Sdk.Field
import Mathlib.Data.FinEnum
import Mathlib.Logic.Equiv.List
import Mathlib.Tactic.DeriveCountable

/-! Contract events on their way to the wallet: `stellar/src/conversions.rs` and
`state/src/events_parsers.rs`.  An event arrives as base64 texts, one for each
topic and one for the data. -/
namespace PrivatePayments.Sdk
open Contracts

abbrev Text := List Char

/-- The names of events and of their fields; each stands for its own text. -/
inductive Symbol where
  | new_nullifier_event | NewNullifierEvent
  | new_commitment_event | NewCommitmentEvent
  | public_key_event | PublicKeyEvent
  | leaf_added | LeafAdded
  | leaf_inserted | LeafInserted
  | leaf_updated | LeafUpdated
  | leaf_deleted | LeafDeleted
  | index | encrypted_output | encryption_key | note_key | leaf | root
  | key | value | old_value | new_value
  | other (number : Nat)
deriving DecidableEq, Countable

inductive ScAddress where
  | account (key : Bytes)
  | contract (hash : Bytes)
  | other
deriving Countable

/-- The values that occur in events; anything else is `other`. -/
inductive ScVal where
  | void
  | u32 (n : UInt32)
  | u64 (n : UInt64)
  | u256 (hiHi hiLo loHi loLo : UInt64)
  | bytes (b : Bytes)
  | symbol (name : Symbol)
  | address (a : ScAddress)
  | other
deriving Countable

inductive ScData where
  | val (v : ScVal)
  | map (entries : List (ScVal × ScVal))
deriving Countable

/-- Base64 of XDR, and the forms of addresses. -/
structure Codec where
  toXdrBase64 : ScData → Text
  fromXdrBase64 : Text → Option ScData
  scAddress : Address → ScAddress
  accountText : Bytes → Text
  contractText : Bytes → Text
  fromXdrBase64_toXdrBase64 : ∀ data, fromXdrBase64 (toXdrBase64 data) = some data
  comma_notMem : ∀ data, ',' ∉ toXdrBase64 data
  scAddress_ne_other : ∀ address, scAddress address ≠ .other

inductive ParseError where
  | xdr
  | unexpectedScVal
  | u256Overflow
  | fieldOutOfRange
  | invalidLength (length : Nat)
  | outOfRangeIntegral
  | missingTopic (name : Symbol)
  | missingValue (name field : Symbol)
  | unhandled (name : Symbol)

structure ContractEvent where
  id : String
  ledger : Nat
  contractId : String
  topics : List Text
  value : Text

structure ParsedContractEvent where
  id : String
  name : Symbol
  topics : List ScData
  values : Symbol → Option ScVal

def require {α : Type} (value : Option α) (e : ParseError) : Except ParseError α :=
  match value with
  | some a => .ok a
  | none => .error e

def scvalToAddressString (codec : Codec) : ScVal → Except ParseError Text
  | .address (.account key) => .ok (codec.accountText key)
  | .address (.contract hash) => .ok (codec.contractText hash)
  | _ => .error .unexpectedScVal

def scvalToBytes : ScVal → Except ParseError (Bytes)
  | .bytes b => .ok b
  | _ => .error .unexpectedScVal

/-- The limbs are added up from the most significant one. -/
def scvalToU256 : ScVal → Except ParseError U256
  | .u256 hiHi hiLo loHi loLo => do
      let out := hiHi.toNat * 2 ^ 192
      let out ← require (checkedAdd 256 out (hiLo.toNat * 2 ^ 128)) .u256Overflow
      let out ← require (checkedAdd 256 out (loHi.toNat * 2 ^ 64)) .u256Overflow
      require (checkedAdd 256 out loLo.toNat) .u256Overflow
  | _ => .error .unexpectedScVal

def scvalToU32 : ScVal → Except ParseError Nat
  | .u32 n => .ok n.toNat
  | _ => .error .unexpectedScVal

def scvalToU64 : ScVal → Except ParseError Nat
  | .u64 n => .ok n.toNat
  | _ => .error .unexpectedScVal

def fieldTryFromU256 (v : U256) : Except ParseError F :=
  require (tryFromU256 v) .fieldOutOfRange

/-- The fields of the data map by name; of two with one name the last counts. -/
def eventValues : List (ScVal × ScVal) → (Symbol → Option ScVal) →
    Except ParseError (Symbol → Option ScVal)
  | [], values => .ok values
  | (.symbol name, val) :: rest, values => eventValues rest (Function.update values name (some val))
  | _ :: _, _ => .error .unexpectedScVal

def eventName : ScData → Except ParseError Symbol
  | .val (.symbol name) => .ok name
  | _ => .error .unexpectedScVal

def eventData : ScData → Except ParseError (Symbol → Option ScVal)
  | .map entries => eventValues entries fun _ => none
  | .val .void => .ok fun _ => none
  | _ => .error .unexpectedScVal

def parseEventMetadata (codec : Codec) (event : ContractEvent) :
    Except ParseError ParsedContractEvent :=
  match event.topics with
  | [] => .error .xdr
  | first :: rest => do
      let topics ← rest.mapM fun topic => require (codec.fromXdrBase64 topic) .xdr
      let name ← eventName (← require (codec.fromXdrBase64 first) .xdr)
      let values ← eventData (← require (codec.fromXdrBase64 event.value) .xdr)
      return { id := event.id, name, topics, values }

structure NewNullifierEvent where
  id : String
  nullifier : F

structure NewCommitmentEvent where
  id : String
  commitment : F
  index : Nat
  encryptedOutput : Bytes

structure PublicKeyEvent where
  id : String
  owner : Text
  encryptionKey : Bytes
  noteKey : Bytes

structure LeafAddedEvent where
  id : String
  leaf : F
  index : Nat
  root : F

/-- The events that the wallet does not store keep nothing but their name. -/
inductive ProcessedEvent where
  | nullifier (ev : NewNullifierEvent)
  | commitment (ev : NewCommitmentEvent)
  | publicKey (ev : PublicKeyEvent)
  | leafAdded (ev : LeafAddedEvent)
  | leafInserted
  | leafUpdated
  | leafDeleted

namespace ParsedContractEvent
variable (parsed : ParsedContractEvent)

def firstTopic : Except ParseError ScVal := do
  match ← require parsed.topics.head? (.missingTopic parsed.name) with
  | .val v => .ok v
  | .map _ => .error .unexpectedScVal

def value (field : Symbol) : Except ParseError ScVal :=
  require (parsed.values field) (.missingValue parsed.name field)

def fieldValue (field : Symbol) : Except ParseError F := do
  fieldTryFromU256 (← scvalToU256 (← parsed.value field))

/-- `TryFrom<Vec<u8>>` of the key types. -/
def keyValue (field : Symbol) : Except ParseError (Bytes) := do
  let b ← scvalToBytes (← parsed.value field)
  if b.length ≠ 32 then .error (.invalidLength b.length) else .ok b

def parseNewNullifierEvent : Except ParseError NewNullifierEvent := do
  let nullifier ← fieldTryFromU256 (← scvalToU256 (← parsed.firstTopic))
  return { id := parsed.id, nullifier }

def parseNewCommitmentEvent : Except ParseError NewCommitmentEvent := do
  let commitment ← fieldTryFromU256 (← scvalToU256 (← parsed.firstTopic))
  let index ← scvalToU32 (← parsed.value .index)
  let encryptedOutput ← scvalToBytes (← parsed.value .encrypted_output)
  return { id := parsed.id, commitment, index, encryptedOutput }

def parsePublicKeyEvent (codec : Codec) : Except ParseError PublicKeyEvent := do
  let owner ← scvalToAddressString codec (← parsed.firstTopic)
  let encryptionKey ← parsed.keyValue .encryption_key
  let noteKey ← parsed.keyValue .note_key
  return { id := parsed.id, owner, encryptionKey, noteKey }

def parseLeafAdded : Except ParseError LeafAddedEvent := do
  let leaf ← parsed.fieldValue .leaf
  let index ← scvalToU64 (← parsed.value .index)
  let index ← if index < 2 ^ 32 then .ok index else .error .outOfRangeIntegral
  let root ← parsed.fieldValue .root
  return { id := parsed.id, leaf, index, root }

def parseLeafInserted : Except ParseError Unit := do
  let _ ← parsed.fieldValue .key
  let _ ← parsed.fieldValue .value
  let _ ← parsed.fieldValue .root

def parseLeafUpdated : Except ParseError Unit := do
  let _ ← parsed.fieldValue .key
  let _ ← parsed.fieldValue .old_value
  let _ ← parsed.fieldValue .new_value
  let _ ← parsed.fieldValue .root

def parseLeafDeleted : Except ParseError Unit := do
  let _ ← parsed.fieldValue .key
  let _ ← parsed.fieldValue .root

end ParsedContractEvent

def parseEvent (codec : Codec) (event : ContractEvent) : Except ParseError ProcessedEvent := do
  let parsed ← parseEventMetadata codec event
  let named (names : List Symbol) : Bool := names.contains parsed.name
  if named [.new_nullifier_event, .NewNullifierEvent] then
    return .nullifier (← parsed.parseNewNullifierEvent)
  else if named [.new_commitment_event, .NewCommitmentEvent] then
    return .commitment (← parsed.parseNewCommitmentEvent)
  else if named [.public_key_event, .PublicKeyEvent] then
    return .publicKey (← parsed.parsePublicKeyEvent codec)
  else if named [.leaf_added, .LeafAdded] then
    return .leafAdded (← parsed.parseLeafAdded)
  else if named [.leaf_inserted, .LeafInserted] then
    parsed.parseLeafInserted
    return .leafInserted
  else if named [.leaf_updated, .LeafUpdated] then
    parsed.parseLeafUpdated
    return .leafUpdated
  else if named [.leaf_deleted, .LeafDeleted] then
    parsed.parseLeafDeleted
    return .leafDeleted
  else .error (.unhandled parsed.name)

/-! What the contracts publish, in the format of `#[contractevent]`: a symbol, the
topic fields, and a map of the other fields. -/

inductive Published where
  | newNullifier (nullifier : U256)
  | newCommitment (commitment : U256) (index : Nat) (encryptedOutput : Bytes)
  | publicKey (owner : Address) (encryptionKey noteKey : Bytes)
  | leafAdded (leaf : U256) (index : Nat) (root : U256)

def u256Parts (n : U256) : ScVal :=
  .u256 (.ofNat (n / 2 ^ 192)) (.ofNat (n / 2 ^ 128)) (.ofNat (n / 2 ^ 64)) (.ofNat n)

namespace Published

def name : Published → Symbol
  | newNullifier _ => .new_nullifier_event
  | newCommitment _ _ _ => .new_commitment_event
  | publicKey _ _ _ => .public_key_event
  | leafAdded _ _ _ => .LeafAdded

def topics (codec : Codec) : Published → List ScVal
  | newNullifier nullifier => [u256Parts nullifier]
  | newCommitment commitment _ _ => [u256Parts commitment]
  | publicKey owner _ _ => [.address (codec.scAddress owner)]
  | leafAdded _ _ _ => []

def fields : Published → List (ScVal × ScVal)
  | newNullifier _ => []
  | newCommitment _ index encryptedOutput =>
      [(.symbol .encrypted_output, .bytes encryptedOutput), (.symbol .index, .u32 (.ofNat index))]
  | publicKey _ encryptionKey noteKey =>
      [(.symbol .encryption_key, .bytes encryptionKey), (.symbol .note_key, .bytes noteKey)]
  | leafAdded leaf index root =>
      [(.symbol .index, .u64 (.ofNat index)), (.symbol .leaf, u256Parts leaf),
        (.symbol .root, u256Parts root)]

/-- The values are in the ranges that the contracts keep to. -/
def InRange : Published → Prop
  | newNullifier nullifier => nullifier < bn256Modulus
  | newCommitment commitment index _ => commitment < bn256Modulus ∧ index < 2 ^ 32
  | publicKey _ encryptionKey noteKey => encryptionKey.length = 32 ∧ noteKey.length = 32
  | leafAdded leaf index root => leaf < bn256Modulus ∧ index < 2 ^ 32 ∧ root < bn256Modulus

def ownerText (codec : Codec) (owner : Address) : Text :=
  match codec.scAddress owner with
  | .account key => codec.accountText key
  | .contract hash => codec.contractText hash
  | .other => []

def processed (codec : Codec) (id : String) : Published → ProcessedEvent
  | newNullifier nullifier => .nullifier ⟨id, nullifier⟩
  | newCommitment commitment index encryptedOutput =>
      .commitment ⟨id, commitment, index, encryptedOutput⟩
  | publicKey owner encryptionKey noteKey =>
      .publicKey ⟨id, ownerText codec owner, encryptionKey, noteKey⟩
  | leafAdded leaf index root => .leafAdded ⟨id, leaf, index, root⟩

def contractEvent (codec : Codec) (id : String) (ledger : Nat) (contractId : String)
    (event : Published) : ContractEvent where
  id := id
  ledger := ledger
  contractId := contractId
  topics := (.symbol event.name :: event.topics codec).map fun topic => codec.toXdrBase64 (.val topic)
  value := codec.toXdrBase64 (.map event.fields)

end Published

section Parse
variable (codec : Codec)

@[simp] theorem require_some {α : Type} (a : α) (e : ParseError) : require (some a) e = .ok a := rfl

variable {n : Nat}

theorem scvalToU256_u256Parts (h : n < 2 ^ 256) : scvalToU256 (u256Parts n) = .ok n := by
  have hlimbs : n / 2 ^ 192 % 2 ^ 64 * 2 ^ 192 + n / 2 ^ 128 % 2 ^ 64 * 2 ^ 128 +
      n / 2 ^ 64 % 2 ^ 64 * 2 ^ 64 + n % 2 ^ 64 = n := by omega
  simp only [scvalToU256, u256Parts, UInt64.toNat_ofNat']
  rw [checkedAdd_eq (by omega), require_some, ok_bind, checkedAdd_eq (by omega), require_some,
    ok_bind, checkedAdd_eq (by omega), require_some, hlimbs]

theorem fieldTryFromU256_eq (h : n < bn256Modulus) : fieldTryFromU256 n = .ok (n : F) := by
  rw [fieldTryFromU256, tryFromU256_eq h, require_some]

theorem scvalToU256_field (h : n < bn256Modulus) : scvalToU256 (u256Parts n) = .ok n := by
  have hmod : bn256Modulus < 2 ^ 256 := by decide
  exact scvalToU256_u256Parts (h.trans hmod)

namespace ParsedContractEvent
variable {parsed : ParsedContractEvent}

variable {v : ScVal}

theorem firstTopic_eq (h : parsed.topics = [.val v]) : parsed.firstTopic = .ok v := by
  rw [firstTopic, h]
  rfl

variable {field : Symbol}

theorem value_eq (h : parsed.values field = some v) : parsed.value field = .ok v := by
  rw [value, h, require_some]

theorem fieldValue_eq (h : parsed.values field = some (u256Parts n))
    (hn : n < bn256Modulus) : parsed.fieldValue field = .ok (n : F) := by
  rw [fieldValue, value_eq h, ok_bind, scvalToU256_field hn, ok_bind, fieldTryFromU256_eq hn]

theorem keyValue_eq {b : Bytes} (h : parsed.values field = some (.bytes b))
    (hb : b.length = 32) : parsed.keyValue field = .ok b := by
  rw [keyValue, value_eq h, ok_bind, scvalToBytes, ok_bind, if_neg (not_not.mpr hb)]

theorem parseNewNullifierEvent_eq (h : parsed.topics = [.val (u256Parts n)])
    (hn : n < bn256Modulus) : parsed.parseNewNullifierEvent = .ok ⟨parsed.id, n⟩ := by
  rw [parseNewNullifierEvent, firstTopic_eq h, ok_bind, scvalToU256_field hn, ok_bind, fieldTryFromU256_eq hn, ok_bind]
  rfl

theorem parseNewCommitmentEvent_eq {n index : Nat} {output : Bytes}
    (h : parsed.topics = [.val (u256Parts n)]) (hn : n < bn256Modulus)
    (hindex : parsed.values .index = some (.u32 (.ofNat index))) (hlt : index < 2 ^ 32)
    (houtput : parsed.values .encrypted_output = some (.bytes output)) :
    parsed.parseNewCommitmentEvent = .ok ⟨parsed.id, n, index, output⟩ := by
  rw [parseNewCommitmentEvent, firstTopic_eq h, ok_bind, scvalToU256_field hn, ok_bind,
    fieldTryFromU256_eq hn, ok_bind, value_eq hindex, ok_bind, scvalToU32, ok_bind,
    value_eq houtput, ok_bind, scvalToBytes, ok_bind, UInt32.toNat_ofNat', Nat.mod_eq_of_lt hlt]
  rfl

theorem parsePublicKeyEvent_eq {owner : Text} {encryptionKey noteKey : Bytes}
    (h : parsed.topics = [.val v]) (hv : scvalToAddressString codec v = .ok owner)
    (hencryption : parsed.values .encryption_key = some (.bytes encryptionKey))
    (hnote : parsed.values .note_key = some (.bytes noteKey))
    (hlengths : encryptionKey.length = 32 ∧ noteKey.length = 32) :
    parsed.parsePublicKeyEvent codec = .ok ⟨parsed.id, owner, encryptionKey, noteKey⟩ := by
  rw [parsePublicKeyEvent, firstTopic_eq h, ok_bind, hv, ok_bind,
    keyValue_eq hencryption hlengths.1, ok_bind, keyValue_eq hnote hlengths.2, ok_bind]
  rfl

theorem parseLeafAdded_eq {leaf index root : Nat}
    (hleaf : parsed.values .leaf = some (u256Parts leaf)) (hl : leaf < bn256Modulus)
    (hindex : parsed.values .index = some (.u64 (.ofNat index))) (hi : index < 2 ^ 32)
    (hroot : parsed.values .root = some (u256Parts root)) (hr : root < bn256Modulus) :
    parsed.parseLeafAdded = .ok ⟨parsed.id, leaf, index, root⟩ := by
  have hwide : index < 2 ^ 64 := hi.trans (by decide)
  rw [parseLeafAdded, fieldValue_eq hleaf hl, ok_bind, value_eq hindex, ok_bind, scvalToU64, ok_bind,
    UInt64.toNat_ofNat', Nat.mod_eq_of_lt hwide, if_pos hi, ok_bind, fieldValue_eq hroot hr]
  rfl

end ParsedContractEvent

theorem mapM_fromXdrBase64 (topics : List ScVal) :
    (topics.map fun topic => codec.toXdrBase64 (.val topic)).mapM
      (fun topic => require (codec.fromXdrBase64 topic) .xdr) =
    (.ok (topics.map .val) : Except ParseError (List ScData)) := by
  induction topics with
  | nil => rfl
  | cons topic rest ih =>
    rw [List.map_cons, List.mapM_cons, ih, codec.fromXdrBase64_toXdrBase64]
    rfl

theorem parseEventMetadata_published (event : Published) {values : Symbol → Option ScVal}
    (hvalues : eventValues event.fields (fun _ => none) = .ok values) (id : String) (ledger : Nat)
    (contractId : String) :
    parseEventMetadata codec (event.contractEvent codec id ledger contractId) =
      .ok { id, name := event.name, topics := (event.topics codec).map .val, values } := by
  have hname : eventName (.val (.symbol event.name)) = .ok event.name := rfl
  simp only [parseEventMetadata, Published.contractEvent, List.map_cons]
  rw [mapM_fromXdrBase64, ok_bind, codec.fromXdrBase64_toXdrBase64, require_some, ok_bind, hname,
    ok_bind, codec.fromXdrBase64_toXdrBase64, require_some, ok_bind, eventData, hvalues]
  rfl

theorem scvalToAddressString_scAddress (owner : Address) :
    scvalToAddressString codec (.address (codec.scAddress owner)) = .ok (Published.ownerText codec owner) := by
  have hne := codec.scAddress_ne_other owner
  unfold Published.ownerText
  cases h : codec.scAddress owner with
  | account key => rfl
  | contract hash => rfl
  | other => exact absurd h hne

theorem parseEvent_published {event : Published} (h : event.InRange) (id : String) (ledger : Nat)
    (contractId : String) :
    parseEvent codec (event.contractEvent codec id ledger contractId) = .ok (event.processed codec id) := by
  cases event with
  | newNullifier nullifier =>
    rw [parseEvent, parseEventMetadata_published codec _ rfl, ok_bind]
    dsimp only [Published.name]
    rw [if_pos (by rfl), ParsedContractEvent.parseNewNullifierEvent_eq rfl h]
    rfl
  | newCommitment commitment index encryptedOutput =>
    rw [parseEvent, parseEventMetadata_published codec _ rfl, ok_bind]
    dsimp only [Published.name]
    rw [if_neg (by decide), if_pos (by rfl), ParsedContractEvent.parseNewCommitmentEvent_eq rfl h.1 rfl h.2 rfl]
    rfl
  | publicKey owner encryptionKey noteKey =>
    rw [parseEvent, parseEventMetadata_published codec _ rfl, ok_bind]
    dsimp only [Published.name]
    rw [if_neg (by decide), if_neg (by decide), if_pos (by rfl), ParsedContractEvent.parsePublicKeyEvent_eq codec rfl
        (scvalToAddressString_scAddress codec owner) rfl rfl h]
    rfl
  | leafAdded leaf index root =>
    rw [parseEvent, parseEventMetadata_published codec _ rfl, ok_bind]
    dsimp only [Published.name]
    rw [if_neg (by decide), if_neg (by decide), if_neg (by decide), if_pos (by rfl),
      ParsedContractEvent.parseLeafAdded_eq rfl h.1 rfl h.2.1 rfl h.2.2]
    rfl

end Parse

end PrivatePayments.Sdk

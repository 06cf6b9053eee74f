import PrivatePayments.Contracts.SorobanUtils
import PrivatePayments.Lib.SparseTree

/-! `asp-non-membership/src/lib.rs`: a sparse Merkle tree whose nodes live in a
content-addressed store.  Insertion and deletion remove nodes from that store
while they rebuild the path to the root. -/
namespace PrivatePayments.Contracts.AspNonMembership
open Function

inductive Error where
  | notAuthorized | keyNotFound | keyAlreadyExists | invalidProof | notInitialized | overflow
deriving DecidableEq, Repr

abbrev Result := Except (Abort Error)

structure FindResult where
  found : Bool
  siblings : List U256
  foundValue : U256
  notFoundKey : U256
  notFoundValue : U256
  isOld0 : Bool
deriving DecidableEq, Repr

inductive Event where
  | leafInserted (key value root : U256)
  | leafDeleted (key root : U256)
deriving DecidableEq, Repr

/-- The entries of `DataKey`, the events published and the hashing trace. -/
structure Storage where
  admin : Option Address
  root : Option U256
  node : U256 → Option (List U256)
  hashed : List Query
  events : List Event

def Storage.fresh : Storage where
  admin := none
  root := none
  node _ := none
  hashed := []
  events := []

def constructor (admin : Address) (s : Storage) : Result (Unit × Storage) :=
  .ok ((), { s with admin := some admin, root := some 0 })

def updateAdmin (authorized : Address → Bool) (newAdmin : Address) (s : Storage) :
    Result (Unit × Storage) :=
  match s.admin with
  | none => .error .panic
  | some admin => do
      requireAuth authorized admin
      return ((), { s with admin := some newAdmin })

def getRoot (s : Storage) : Result U256 := okOr s.root .notInitialized

def hashLeaf (P : Permutation) (key value : U256) (hashed : List Query) :
    Result (U256 × List Query) :=
  poseidon2Hash2 P key value (some 1) hashed

/-- `hash_internal` with the node on the path on the side of `bit`. -/
def hashInternal (P : Permutation) (bit : Bool) (sibling current : U256) (hashed : List Query) :
    Result (U256 × List Query) :=
  if bit then poseidon2Compress P sibling current hashed
  else poseidon2Compress P current sibling hashed

def splitBitsLoop : Nat → U256 → List Bool
  | 0, _ => []
  | count + 1, k => decide (k % 2 = 1) :: splitBitsLoop count (k / 2)

def splitBits (key : U256) : List Bool := splitBitsLoop 256 key

/-- One call of `find_key_internal`; `inner` is what it does at an inner node. -/
def findAt (node : U256 → Option (List U256)) (key root : U256)
    (inner : U256 → U256 → Result FindResult) : Result FindResult :=
  if root = 0 then
    .ok { found := false, siblings := [], foundValue := 0, notFoundKey := key,
          notFoundValue := 0, isOld0 := true }
  else do
    let nodeData ← okOr (node root) .keyNotFound
    match nodeData with
    | [tag, storedKey, storedValue] =>
        failIf (tag ≠ 1) .keyNotFound
        if storedKey = key then
          return { found := true, siblings := [], foundValue := storedValue, notFoundKey := 0,
                   notFoundValue := 0, isOld0 := false }
        else
          return { found := false, siblings := [], foundValue := 0, notFoundKey := storedKey,
                   notFoundValue := storedValue, isOld0 := false }
    | [left, right] => inner left right
    | _ => .error (.error .keyNotFound)

/-- The level is the number of key bits already used. -/
def findKeyInternal (node : U256 → Option (List U256)) (key : U256) :
    List Bool → U256 → Result FindResult
  | [], root => findAt node key root fun _ _ => .error (.error .keyNotFound)
  | bit :: keyBits, root => findAt node key root fun left right => do
      let result ← findKeyInternal node key keyBits (if bit then right else left)
      return { result with siblings := (if bit then left else right) :: result.siblings }

def findKey (key : U256) (s : Storage) : Result FindResult :=
  findKeyInternal s.node key (splitBits key) (s.root.getD 0)

/-- The zero siblings for the bits two keys have in common. -/
def commonPrefix : List Bool → List Bool → List U256
  | oldBit :: oldBits, bit :: bits => if oldBit = bit then 0 :: commonPrefix oldBits bits else []
  | _, _ => []

structure Rebuild where
  rt : U256
  rtOld : U256
  mixed : Bool
  node : U256 → Option (List U256)
  hashed : List Query

def Rebuild.removeOld (st : Rebuild) (rtOld : U256) (hashed : List Query) : Rebuild :=
  { st with rtOld, hashed, node := update st.node rtOld none }

def Rebuild.storeNode (st : Rebuild) (rt left right : U256) (hashed : List Query) : Rebuild :=
  { st with rt, hashed, node := update st.node rt (some [left, right]) }

def buildNode (P : Permutation) (bit : Bool) (sibling : U256) (st : Rebuild) :
    Result Rebuild := do
  let (rt, hashed) ← hashInternal P bit sibling st.rt st.hashed
  if bit then
    return st.storeNode rt sibling st.rt hashed
  else
    return st.storeNode rt st.rt sibling hashed

/-- The local variables of `insert_leaf` that its loop reads. -/
structure InsertVars where
  keyBits : List Bool
  findSiblings : List U256
  siblingsLen : Nat
  addedOne : Bool

def InsertVars.isLastAddedLeaf (vars : InsertVars) (i : Nat) : Bool :=
  vars.addedOne && decide (i = vars.siblingsLen - 1)

/-- Whether the loop starts to remove old nodes at this sibling. -/
def InsertVars.mixes (vars : InsertVars) (i : Nat) (sibling : U256) : Bool :=
  !vars.isLastAddedLeaf i && decide (i < vars.siblingsLen - 1) && decide (sibling ≠ 0)

def insertStep (P : Permutation) (vars : InsertVars) (i : Nat) (sibling : U256) (st : Rebuild) :
    Result Rebuild := do
  let mixed := st.mixed || vars.mixes i sibling
  let bit ← okOr vars.keyBits[i]? .keyNotFound
  if mixed && !vars.isLastAddedLeaf i then
    let oldSibling := vars.findSiblings.getD i 0
    let (rtOld, hashed) ← hashInternal P bit oldSibling st.rtOld st.hashed
    buildNode P bit sibling ({ st with mixed }.removeOld rtOld hashed)
  else
    buildNode P bit sibling { st with mixed }

/-- The siblings are enumerated from the root; the loop runs over them in reverse. -/
def insertLoop (P : Permutation) (vars : InsertVars) :
    Nat → List U256 → Rebuild → Result Rebuild
  | _, [], st => .ok st
  | i, sibling :: rest, st => do
      let st ← insertLoop P vars (i + 1) rest st
      insertStep P vars i sibling st

def insertLeaf (P : Permutation) (authorized : Address → Bool) (key value : U256) (s : Storage) :
    Result (Unit × Storage) := do
  let admin ← okOr s.admin .notInitialized
  requireAuth authorized admin
  let keyBits := splitBits key
  let find ← findKeyInternal s.node key keyBits (s.root.getD 0)
  failIf find.found .keyAlreadyExists
  let level := find.siblings.length
  if !find.isOld0 then
    let zeros := commonPrefix ((splitBits find.notFoundKey).drop level) (keyBits.drop level)
    let (rtOld, hashed) ← hashLeaf P find.notFoundKey find.notFoundValue s.hashed
    finish keyBits find (find.siblings ++ zeros ++ [rtOld]) true false rtOld hashed
  else
    finish keyBits find find.siblings false (!find.siblings.isEmpty) 0 s.hashed
where
  finish (keyBits : List Bool) (find : FindResult) (siblings : List U256) (addedOne mixed : Bool)
      (rtOld : U256) (hashed : List Query) : Result (Unit × Storage) := do
    let (rt, hashed) ← hashLeaf P key value hashed
    let vars : InsertVars := { keyBits, findSiblings := find.siblings,
                               siblingsLen := siblings.length, addedOne }
    let st ← insertLoop P vars 0 siblings
      { rt, rtOld, mixed, node := update s.node rt (some [1, key, value]), hashed }
    return ((), { s with
      root := some st.rt
      node := st.node
      hashed := st.hashed
      events := s.events ++ [.leafInserted key value st.rt] })

def trimZeros (siblings : List U256) : List U256 :=
  (siblings.reverse.dropWhile (· = 0)).reverse

/-- The siblings `insert_leaf` is left with: the leaf it added is taken off again before the
trailing zeros are. -/
def siblingsLeft (P : Permutation) (key : U256) (s : Storage) : Result (List U256) := do
  let find ← findKey key s
  failIf find.found .keyAlreadyExists
  let level := find.siblings.length
  if !find.isOld0 then
    let zeros := commonPrefix ((splitBits find.notFoundKey).drop level) ((splitBits key).drop level)
    let (rtOld, _) ← hashLeaf P find.notFoundKey find.notFoundValue s.hashed
    return trimZeros (find.siblings ++ zeros ++ [rtOld]).dropLast
  else
    return trimZeros find.siblings

/-- What the last sibling of a deleted leaf is replaced by: a leaf is promoted,
and dropped from the path; next to an inner node the tree becomes empty. -/
def promote (node : U256 → Option (List U256)) (siblings : List U256) :
    Result (U256 × List U256) :=
  match siblings.getLast? with
  | none => .ok (0, siblings)
  | some lastSibling => do
      let nodeData ← okOr (node lastSibling) .keyNotFound
      match nodeData with
      | [tag, _, _] =>
          failIf (tag ≠ 1) .keyNotFound
          return (lastSibling, siblings.dropLast)
      | [_, _] => return (0, siblings)
      | _ => .error (.error .keyNotFound)

def deleteStep (P : Permutation) (keyBits : List Bool) (level : Nat) (sibling : U256)
    (st : Rebuild) : Result Rebuild := do
  let bit ← okOr keyBits[level]? .keyNotFound
  let (rtOld, hashed) ← hashInternal P bit sibling st.rtOld st.hashed
  let mixed := st.mixed || decide (sibling ≠ 0)
  let st := { st with mixed }.removeOld rtOld hashed
  if mixed then
    buildNode P bit sibling st
  else
    return st

def deleteLoop (P : Permutation) (keyBits : List Bool) :
    Nat → List U256 → Rebuild → Result Rebuild
  | _, [], st => .ok st
  | level, sibling :: rest, st => do
      let st ← deleteLoop P keyBits (level + 1) rest st
      deleteStep P keyBits level sibling st

def deleteLeaf (P : Permutation) (authorized : Address → Bool) (key : U256) (s : Storage) :
    Result (Unit × Storage) := do
  let admin ← okOr s.admin .notInitialized
  requireAuth authorized admin
  let root ← okOr s.root .notInitialized
  let keyBits := splitBits key
  let find ← findKeyInternal s.node key keyBits root
  failIf (find.found = false) .keyNotFound
  let (rtOld, hashed) ← hashLeaf P key find.foundValue s.hashed
  let node := update s.node rtOld none
  let (rtNew, siblings) ← promote node find.siblings
  let st ← deleteLoop P keyBits 0 siblings { rt := rtNew, rtOld, mixed := false, node, hashed }
  return ((), { s with
    root := some st.rt
    node := st.node
    hashed := st.hashed
    events := s.events ++ [.leafDeleted key st.rt] })

inductive Call where
  | updateAdmin (newAdmin : Address)
  | insertLeaf (key value : U256)
  | deleteLeaf (key : U256)
deriving DecidableEq, Repr

def exec (P : Permutation) (authorized : Address → Bool) :
    Call → Storage → Result (Unit × Storage)
  | .updateAdmin newAdmin => updateAdmin authorized newAdmin
  | .insertLeaf key value => insertLeaf P authorized key value
  | .deleteLeaf key => deleteLeaf P authorized key

section Trace
variable {P : Permutation} {authorized : Address → Bool} {key value : Nat} {s s' : Storage}

variable {hashed hashed' : List Query} {bit : Bool}

theorem hashInternal_grows {sibling current h : Nat}
    (hok : hashInternal P bit sibling current hashed = .ok (h, hashed')) : ∀ q ∈ hashed, q ∈ hashed' := by
  intro q hq
  cases bit with
  | false => simp [(poseidon2Compress_ok hok).2.2.2, hq]
  | true => simp [(poseidon2Compress_ok hok).2.2.2, hq]

theorem hashLeaf_ok {h : Nat} (hok : hashLeaf P key value hashed = .ok (h, hashed')) :
    key < bn256Modulus ∧ value < bn256Modulus ∧ ∀ q ∈ hashed, q ∈ hashed' := by
  unfold hashLeaf poseidon2Hash2 at hok
  dsimp only at hok
  split at hok
  · cases hok
  · rename_i hfield
    cases hok
    refine ⟨by omega, by omega, fun q hq => by simp [hq]⟩

variable {st st' : Rebuild}

theorem buildNode_grows {sibling : Nat}
    (hok : buildNode P bit sibling st = .ok st') : ∀ q ∈ st.hashed, q ∈ st'.hashed := by
  unfold buildNode at hok
  obtain ⟨⟨rt, hashed⟩, hhash, hok⟩ := bind_eq_ok hok
  have hgrows := hashInternal_grows hhash
  cases bit <;> cases hok <;> exact hgrows

variable {vars : InsertVars}

theorem insertStep_grows {i sibling : Nat}
    (hok : insertStep P vars i sibling st = .ok st') : ∀ q ∈ st.hashed, q ∈ st'.hashed := by
  unfold insertStep at hok
  obtain ⟨bit, _, hok⟩ := bind_eq_ok hok
  split at hok
  · obtain ⟨⟨rtOld, hashed⟩, hhash, hok⟩ := bind_eq_ok hok
    exact fun q hq => buildNode_grows hok q (hashInternal_grows hhash q hq)
  · exact fun q hq => buildNode_grows hok q hq

variable {siblings : List Nat}

theorem insertLoop_grows {i : Nat}
    (hok : insertLoop P vars i siblings st = .ok st') : ∀ q ∈ st.hashed, q ∈ st'.hashed := by
  induction siblings generalizing i st' with
  | nil =>
    cases hok
    exact fun q hq => hq
  | cons sibling rest ih =>
    obtain ⟨st₁, hrest, hok⟩ := bind_eq_ok hok
    exact fun q hq => insertStep_grows hok q (ih hrest q hq)

variable {keyBits : List Bool}

theorem finish_ok {find : FindResult} {addedOne mixed : Bool} {rtOld : Nat} {hashed : List Query}
    (hok : insertLeaf.finish P key value s keyBits find siblings addedOne mixed rtOld hashed =
      .ok ((), s')) : key < bn256Modulus ∧ value < bn256Modulus ∧ ∀ q ∈ hashed, q ∈ s'.hashed := by
  unfold insertLeaf.finish at hok
  obtain ⟨⟨rt, hashed'⟩, hleaf, hok⟩ := bind_eq_ok hok
  obtain ⟨st, hloop, hok⟩ := bind_eq_ok hok
  obtain ⟨hkey, hvalue, hgrows⟩ := hashLeaf_ok hleaf
  cases hok
  exact ⟨hkey, hvalue, fun q hq => insertLoop_grows hloop q (hgrows q hq)⟩

theorem insertLeaf_ok (hok : insertLeaf P authorized key value s = .ok ((), s')) :
    key < bn256Modulus ∧ value < bn256Modulus ∧ (∀ q ∈ s.hashed, q ∈ s'.hashed) ∧
      ∃ admin, s.admin = some admin ∧ authorized admin = true := by
  unfold insertLeaf at hok
  obtain ⟨admin, hadmin, hok⟩ := bind_eq_ok hok
  obtain ⟨_, hauth, hok⟩ := bind_eq_ok hok
  obtain ⟨find, _, hok⟩ := bind_eq_ok hok
  obtain ⟨_, _, hok⟩ := bind_eq_ok hok
  have hcaller : ∃ admin, s.admin = some admin ∧ authorized admin = true :=
    ⟨admin, okOr_eq_ok hadmin, requireAuth_eq_ok hauth⟩
  split at hok
  · obtain ⟨⟨rtOld, hashed⟩, hleaf, hok⟩ := bind_eq_ok hok
    obtain ⟨hkey, hvalue, hgrows⟩ := finish_ok hok
    exact ⟨hkey, hvalue, fun q hq => hgrows q ((hashLeaf_ok hleaf).2.2 q hq), hcaller⟩
  · obtain ⟨hkey, hvalue, hgrows⟩ := finish_ok hok
    exact ⟨hkey, hvalue, hgrows, hcaller⟩

theorem deleteStep_grows {level sibling : Nat}
    (hok : deleteStep P keyBits level sibling st = .ok st') : ∀ q ∈ st.hashed, q ∈ st'.hashed := by
  unfold deleteStep at hok
  obtain ⟨bit, _, hok⟩ := bind_eq_ok hok
  obtain ⟨⟨rtOld, hashed⟩, hhash, hok⟩ := bind_eq_ok hok
  have hgrows := hashInternal_grows hhash
  dsimp only at hok
  split at hok
  · exact fun q hq => buildNode_grows hok q (hgrows q hq)
  · cases hok
    exact hgrows

theorem deleteLoop_grows {level : Nat} (hok : deleteLoop P keyBits level siblings st = .ok st') :
    ∀ q ∈ st.hashed, q ∈ st'.hashed := by
  induction siblings generalizing level st' with
  | nil =>
    cases hok
    exact fun q hq => hq
  | cons sibling rest ih =>
    obtain ⟨st₁, hrest, hok⟩ := bind_eq_ok hok
    exact fun q hq => deleteStep_grows hok q (ih hrest q hq)

theorem deleteLeaf_ok (hok : deleteLeaf P authorized key s = .ok ((), s')) :
    key < bn256Modulus ∧ (∀ q ∈ s.hashed, q ∈ s'.hashed) ∧
      ∃ admin, s.admin = some admin ∧ authorized admin = true := by
  unfold deleteLeaf at hok
  obtain ⟨admin, hadmin, hok⟩ := bind_eq_ok hok
  obtain ⟨_, hauth, hok⟩ := bind_eq_ok hok
  obtain ⟨root, _, hok⟩ := bind_eq_ok hok
  obtain ⟨find, _, hok⟩ := bind_eq_ok hok
  obtain ⟨_, _, hok⟩ := bind_eq_ok hok
  obtain ⟨⟨rtOld, hashed⟩, hleaf, hok⟩ := bind_eq_ok hok
  obtain ⟨⟨rtNew, siblings⟩, _, hok⟩ := bind_eq_ok hok
  obtain ⟨st, hloop, hok⟩ := bind_eq_ok hok
  obtain ⟨hkey, -, hgrows⟩ := hashLeaf_ok hleaf
  cases hok
  exact ⟨hkey, fun q hq => deleteLoop_grows hloop q (hgrows q hq), admin, okOr_eq_ok hadmin, requireAuth_eq_ok hauth⟩

theorem updateAdmin_ok {newAdmin : Address} (hok : updateAdmin authorized newAdmin s = .ok ((), s')) :
    s' = { s with admin := some newAdmin } := by
  unfold updateAdmin at hok
  split at hok
  · cases hok
  · obtain ⟨_, _, hok⟩ := bind_eq_ok hok
    cases hok
    rfl

end Trace

end PrivatePayments.Contracts.AspNonMembership

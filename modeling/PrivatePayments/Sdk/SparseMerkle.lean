import PrivatePayments.Contracts.NonMembership.Verify

/-! `prover/src/sparse_merkle.rs`: the sparse tree of the client.  Nodes are only ever
added to its database, and a search collects the siblings from the leaf up.  As in the
contract, `hashed` is a trace of what was hashed. -/
namespace PrivatePayments.Sdk
open Lib Lib.SparseTree Contracts Contracts.AspNonMembership List

inductive SmtError where
  | maximumDepth
  | nodeNotFound
  | keyExists
  | keyMissing
  | indexOutOfBounds

namespace SparseMerkle

inductive Node where
  | empty
  | leaf (key value : F)
  | internal (left right : F)

structure Found where
  found : Bool
  siblings : List F
  foundValue : F
  notFoundKey : F
  notFoundValue : F
  isOld0 : Bool

structure SmtResult where
  oldRoot : F
  newRoot : F
  siblings : List F
  oldKey : F
  oldValue : F
  newKey : F
  newValue : F
  isOld0 : Bool

/-- The keys of the database are the bytes of field elements. -/
abbrev NodeDb := F → Option Node

end SparseMerkle

open SparseMerkle

structure SparseMerkleTree where
  db : NodeDb
  root : F
  hashed : List Query

namespace SparseMerkleTree

def new : SparseMerkleTree where
  db _ := none
  root := 0
  hashed := []

end SparseMerkleTree

namespace SparseMerkle

def fieldToBits (field : F) : List Bool := (List.range 256).map field.val.testBit

def getNode (db : NodeDb) (hash : F) : Option Node :=
  if hash = 0 then some .empty else db hash

def putNode (db : NodeDb) (hash : F) (node : Node) : NodeDb :=
  if hash ≠ 0 then Function.update db hash (some node) else db

def emptyEnd (key : F) : Found where
  found := false
  siblings := []
  foundValue := 0
  notFoundKey := key
  notFoundValue := 0
  isOld0 := true

/-- `find_internal` from the level on that the first of the remaining bits belongs to. -/
def findInternal (db : NodeDb) (key : F) : List Bool → F → Except SmtError Found
  | [], _ => .error .maximumDepth
  | bit :: keyBits, current =>
      if current = 0 then .ok (emptyEnd key)
      else
        match getNode db current with
        | some (.leaf leafKey leafValue) =>
            if leafKey = key then
              .ok { found := true, siblings := [], foundValue := leafValue, notFoundKey := 0,
                    notFoundValue := 0, isOld0 := false }
            else
              .ok { found := false, siblings := [], foundValue := 0, notFoundKey := leafKey,
                    notFoundValue := leafValue, isOld0 := false }
        | some (.internal left right) => do
            let result ← findInternal db key keyBits (if bit then right else left)
            return { result with siblings := result.siblings ++ [if bit then left else right] }
        | some .empty => .ok (emptyEnd key)
        | none => .error .nodeNotFound

structure Path where
  current : F
  db : NodeDb
  hashed : List Query

section
variable (P : Permutation)

/-- Hashing a leaf and putting it into the database. -/
def Path.leaf (key value : F) (db : NodeDb) (hashed : List Query) : Path :=
  let current := hash2 P key value 1
  { current, db := putNode db current (.leaf key value), hashed := hashed ++ [.hash2 key value 1] }

def Path.step (bit : Bool) (sibling : F) (path : Path) : Path :=
  let left := if bit then sibling else path.current
  let right := if bit then path.current else sibling
  let current := compress P left right
  { current
    db := putNode path.db current (.internal left right)
    hashed := path.hashed ++ [.compress left right] }

/-- The loop over the siblings in reverse, each with the bit of its level. -/
def buildPath : List Bool → List F → Path → Except SmtError Path
  | _, [], path => .ok path
  | [], _ :: _, _ => .error .indexOutOfBounds
  | bit :: keyBits, sibling :: siblings, path => do
      let path ← buildPath keyBits siblings path
      return path.step P bit sibling

end

/-- One zero for each bit that two keys share from a level on. -/
def sharedBits : List Bool → List Bool → List F
  | oldBit :: oldBits, bit :: bits => if oldBit = bit then 0 :: sharedBits oldBits bits else []
  | _, _ => []

end SparseMerkle

namespace SparseMerkleTree

def find (tree : SparseMerkleTree) (key : F) : Except SmtError Found := do
  let result ← findInternal tree.db key (fieldToBits key) tree.root
  return { result with siblings := result.siblings.reverse }

section
variable (P : Permutation)

/-- The siblings of the new path, and the trace if the old leaf is hashed for them. -/
def insertSiblings (key : F) (found : Found) (hashed : List Query) : List F × List Query :=
  if found.isOld0 then (found.siblings, hashed)
  else
    let depth := found.siblings.length
    let zeros := sharedBits ((fieldToBits found.notFoundKey).drop depth) ((fieldToBits key).drop depth)
    (found.siblings ++ zeros ++ [hash2 P found.notFoundKey found.notFoundValue 1],
      hashed ++ [.hash2 found.notFoundKey found.notFoundValue 1])

def dropTrailingZeros (siblings : List F) : List F :=
  (siblings.reverse.dropWhile (· = 0)).reverse

def resultSiblings (isOld0 : Bool) (siblings : List F) : List F :=
  if isOld0 then dropTrailingZeros siblings else (dropTrailingZeros siblings).dropLast

def insert (key value : F) (tree : SparseMerkleTree) : Except SmtError (SmtResult × SparseMerkleTree) := do
  let found ← tree.find key
  if found.found then .error .keyExists
  else
    let leaf := Path.leaf P key value tree.db tree.hashed
    let (siblings, hashed) := insertSiblings P key found leaf.hashed
    let path ← buildPath P (fieldToBits key) siblings { leaf with hashed }
    return (
      { oldRoot := tree.root, newRoot := path.current, siblings := resultSiblings found.isOld0 siblings,
        oldKey := found.notFoundKey, oldValue := found.notFoundValue, newKey := key, newValue := value,
        isOld0 := found.isOld0 },
      { db := path.db, root := path.current, hashed := path.hashed })

def update (key newValue : F) (tree : SparseMerkleTree) :
    Except SmtError (SmtResult × SparseMerkleTree) := do
  let found ← tree.find key
  if !found.found then .error .keyMissing
  else
    let path ← buildPath P (fieldToBits key) found.siblings (Path.leaf P key newValue tree.db tree.hashed)
    return (
      { oldRoot := tree.root, newRoot := path.current, siblings := found.siblings, oldKey := key,
        oldValue := found.foundValue, newKey := key, newValue, isOld0 := false },
      { db := path.db, root := path.current, hashed := path.hashed })

end

end SparseMerkleTree

variable {P : Permutation} {key : F}

variable {path : Path}

variable {Q : Set Query}

namespace SparseMerkle
section
variable {db : NodeDb} {hashed : List Query}

def bitsFrom (key : F) (level fuel : Nat) : List Bool := (List.range' level fuel).map (smtBit key)

theorem bitsFrom_succ (key : F) (level fuel : Nat) :
    bitsFrom key level (fuel + 1) = smtBit key level :: bitsFrom key (level + 1) fuel := by
  simp [bitsFrom, range'_succ]

theorem fieldToBits_eq (key : F) : fieldToBits key = bitsFrom key 0 256 := by
  rw [fieldToBits, bitsFrom, range_eq_range']
  rfl

theorem fieldToBits_drop (key : F) (n : Nat) : (fieldToBits key).drop n = bitsFrom key n (256 - n) := by
  rw [fieldToBits_eq, bitsFrom, ← map_drop, drop_range']
  simp [bitsFrom]

variable {t : Tree}

theorem siblings_length_lt (hc : Canonical smtBit 0 t) (hnodup : t.keys.Nodup) (key : F) :
    (siblings smtBit (smtHasher P) key t 0).length < 256 := by
  have hmod : ∀ x : F, x.val % 2 ^ 255 = x.val := fun x =>
    Nat.mod_eq_of_lt ((val_lt x).trans (by decide))
  have hle : (siblings smtBit (smtHasher P) key t 0).length ≤ 255 := by
    rw [siblings_length_le_iff (smtHasher P) 255 hc, near_eq]
    simp only [hmod]
    have hall : ∀ k ∈ (t.entries.filter fun e => decide (e.1.val = key.val)).map Prod.fst, k = key := by
      intro k hk
      obtain ⟨e, he, rfl⟩ := mem_map.mp hk
      exact ZMod.val_injective _ (of_decide_eq_true (mem_filter.mp he).2)
    have hsub : ((t.entries.filter fun e => decide (e.1.val = key.val)).map Prod.fst).Nodup :=
      hnodup.sublist (filter_sublist.map Prod.fst)
    rw [eq_replicate_of_mem hall, nodup_replicate, length_map] at hsub
    exact hsub
  omega

def nodeOf : Input F F F → Node
  | .leaf key value => .leaf key value
  | .inner left right => .internal left right

/-- Whatever was hashed is in the database under its digest. -/
def Logged (P : Permutation) (db : NodeDb) (hashed : List Query) : Prop :=
  ∀ input, smtQuery input ∈ hashed → db ((smtHasher P).digest input) = some (nodeOf input)

variable {input : Input F F F}

theorem Logged.put (h : Logged P db hashed)
    (hS : Safe P { q | q ∈ hashed ++ [smtQuery input] }) :
    Logged P (putNode db ((smtHasher P).digest input) (nodeOf input)) (hashed ++ [smtQuery input]) := by
  have hinput : smtQuery input ∈ hashed ++ [smtQuery input] := by simp
  intro other hother
  have hne : (smtHasher P).digest input ≠ 0 := hS.secure.nonzero input hinput
  rw [putNode, if_pos hne]
  by_cases hsame : (smtHasher P).digest other = (smtHasher P).digest input
  · obtain rfl : other = input := hS.secure.inj hother hinput hsame
    rw [Function.update_self]
  · rw [Function.update_of_ne hsame]
    apply h
    rcases mem_append.mp hother with hmem | hmem
    · exact hmem
    · rw [smtQuery_injective (mem_singleton.mp hmem)] at hsame
      exact absurd rfl hsame

structure Path.Holds (P : Permutation) (hashed : List Query) (t : Tree) (path : Path) : Prop where
  current : path.current = treeHash P t
  grows : ∀ q ∈ hashed, q ∈ path.hashed
  known : Known P { q | q ∈ path.hashed } t
  logged : Safe P { q | q ∈ path.hashed } → Logged P path.db path.hashed

theorem Path.leaf_holds (key value : F) (h : Safe P { q | q ∈ hashed } → Logged P db hashed) :
    (Path.leaf P key value db hashed).Holds P hashed (.leaf key value) where
  current := rfl
  grows q hq := mem_append_left _ hq
  known := known_leaf (mem_append_right _ (mem_singleton_self _))
  logged hS := by
    have hbefore : Logged P db hashed := h (hS.mono fun q hq => mem_append_left _ hq)
    exact @Logged.put P db hashed (.leaf key value) hbefore hS

variable {here there : Tree}

theorem Path.Holds.step (h : path.Holds P hashed here) (bit : Bool)
    (hthere : Known P { q | q ∈ hashed } there) :
    (path.step P bit (treeHash P there)).Holds P hashed (branch bit here there) where
  current := by
    rw [Path.step, h.current]
    cases bit <;> rfl
  grows q hq := mem_append_left _ (h.grows q hq)
  known := by
    apply Known.of_children
    · exact h.known.mono fun q hq => mem_append_left _ hq
    · exact hthere.mono fun q hq => mem_append_left _ (h.grows q hq)
    · apply mem_append_right
      rw [h.current, branchQuery]
      cases bit <;> simp
  logged hS := by
    have hbefore := h.logged (hS.mono fun q hq => mem_append_left _ hq)
    exact @Logged.put P path.db path.hashed (.inner _ _) hbefore hS

theorem Path.Holds.again (h : path.Holds P hashed t) {q : Query} (hq : q ∈ hashed) :
    ({ path with hashed := path.hashed ++ [q] } : Path).Holds P hashed t where
  current := h.current
  grows q' hq' := mem_append_left _ (h.grows q' hq')
  known := h.known.mono fun q' hq' => mem_append_left _ hq'
  logged hS input hinput := by
    apply h.logged (hS.mono fun q' hq' => mem_append_left _ hq')
    rcases mem_append.mp hinput with hmem | hmem
    · exact hmem
    · rw [mem_singleton.mp hmem]
      exact h.grows q hq

/-- What a search reports when the path of the key ends at `e`. -/
def foundAt (key : F) (e : Tree) (siblings : List F) : Found :=
  match e with
  | .leaf k v =>
      if k = key then
        { found := true, siblings, foundValue := v, notFoundKey := 0, notFoundValue := 0, isOld0 := false }
      else
        { found := false, siblings, foundValue := 0, notFoundKey := k, notFoundValue := v, isOld0 := false }
  | _ => { emptyEnd key with siblings }

theorem foundAt_siblings (key : F) (e : Tree) (sibs sibs' : List F) :
    { foundAt key e sibs with siblings := sibs' } = foundAt key e sibs' := by
  cases e with
  | empty => rfl
  | leaf k v => by_cases h : k = key <;> simp [foundAt, h]
  | node left right => rfl

theorem foundAt_get (key : F) (e : Tree) (sibs : List F) : (foundAt key e sibs).siblings = sibs := by
  cases e with
  | empty => rfl
  | leaf k v => by_cases h : k = key <;> simp [foundAt, h]
  | node left right => rfl

theorem Logged.getNode (h : Logged P db hashed) (hS : Safe P { q | q ∈ hashed })
    (hinput : smtQuery input ∈ hashed) :
    (smtHasher P).digest input ≠ 0 ∧ SparseMerkle.getNode db ((smtHasher P).digest input) = some (nodeOf input) := by
  have hne : (smtHasher P).digest input ≠ 0 := hS.secure.nonzero input hinput
  rw [SparseMerkle.getNode, if_neg hne, h input hinput]
  exact ⟨hne, rfl⟩

theorem known_branch {b : Bool} (h : Known P Q (branch b here there)) :
    ∃ left right, treeHash P (branch b here there) = (smtHasher P).digest (.inner left right) ∧
      .compress left right ∈ Q ∧ (if b then right else left) = treeHash P here ∧
      (if b then left else right) = treeHash P there := by
  cases b with
  | false => exact ⟨_, _, rfl, h _ (Set.mem_insert _ _), rfl, rfl⟩
  | true => exact ⟨_, _, rfl, h _ (Set.mem_insert _ _), rfl, rfl⟩

variable {level fuel : Nat}

theorem findInternal_eq (hlogged : Logged P db hashed) (hS : Safe P { q | q ∈ hashed })
    (hknown : Known P { q | q ∈ hashed } t)
    (hfuel : (siblings smtBit (smtHasher P) key t level).length < fuel) :
    findInternal db key (bitsFrom key level fuel) (treeHash P t) =
      .ok (foundAt key (endpoint smtBit key t level) (siblings smtBit (smtHasher P) key t level).reverse) := by
  obtain ⟨fuel, rfl⟩ : ∃ n, fuel = n + 1 := ⟨fuel - 1, by omega⟩
  induction t, level using path_induction smtBit key generalizing fuel with
  | hempty level =>
    have hzero : treeHash P .empty = 0 := rfl
    rw [bitsFrom_succ, findInternal, if_pos hzero]
    rfl
  | hleaf k v level =>
    obtain ⟨hne, hget⟩ := hlogged.getNode hS (hknown (.leaf k v) rfl)
    change treeHash P (.leaf k v) ≠ 0 at hne
    change SparseMerkle.getNode db (treeHash P (.leaf k v)) = _ at hget
    rw [bitsFrom_succ, findInternal, if_neg hne, hget]
    by_cases h : k = key <;> simp [nodeOf, foundAt, endpoint, siblings, h]
  | hbranch here there level ih =>
    obtain ⟨left, right, hhash, hquery, hchild, hsibling⟩ := known_branch hknown
    obtain ⟨hne, hget⟩ := @Logged.getNode P db hashed (.inner left right) hlogged hS hquery
    rw [siblings_branch, length_cons] at hfuel
    obtain ⟨fuel, rfl⟩ : ∃ n, fuel = n + 1 := ⟨fuel - 1, by omega⟩
    rw [siblings_branch, endpoint_branch, reverse_cons, bitsFrom_succ, hhash, findInternal, if_neg hne]
    simp only [hget, nodeOf]
    rw [hchild, ih hknown.children.1 fuel (by omega), ok_bind, hsibling, foundAt_get]
    exact congrArg Except.ok (foundAt_siblings _ _ _ _)

theorem buildPath_append (keyBits : List Bool) (upper lower : List F) (path : Path) :
    buildPath P keyBits (upper ++ lower) path =
      (buildPath P (keyBits.drop upper.length) lower path >>= buildPath P keyBits upper) := by
  induction upper generalizing keyBits with
  | nil =>
    rw [nil_append, length_nil, drop_zero]
    cases buildPath P keyBits lower path with
    | error e => rfl
    | ok path' => cases keyBits <;> rfl
  | cons sibling upper ih =>
    cases keyBits with
    | nil => cases lower <;> rfl
    | cons bit keyBits =>
      rw [cons_append, buildPath, ih, length_cons, drop_succ_cons]
      cases buildPath P (keyBits.drop upper.length) lower path <;> rfl

theorem Path.Holds.buildPath {e : Tree} (h : path.Holds P hashed e)
    (hknown : Known P { q | q ∈ hashed } t)
    (hfuel : (siblings smtBit (smtHasher P) key t level).length ≤ fuel) :
    ∃ path', SparseMerkle.buildPath P (bitsFrom key level fuel) (siblings smtBit (smtHasher P) key t level) path =
      .ok path' ∧ path'.Holds P hashed (graft smtBit key e t level) := by
  induction t, level using path_induction smtBit key generalizing fuel with
  | hempty level => exact ⟨path, by cases fuel <;> rfl, h⟩
  | hleaf k v level => exact ⟨path, by cases fuel <;> rfl, h⟩
  | hbranch here there level ih =>
    rw [siblings_branch, length_cons] at hfuel
    obtain ⟨fuel, rfl⟩ : ∃ n, fuel = n + 1 := ⟨fuel - 1, by omega⟩
    obtain ⟨path', hbuild, hholds⟩ := ih hknown.children.1 (Nat.le_of_succ_le_succ hfuel)
    rw [siblings_branch, bitsFrom_succ, SparseMerkle.buildPath, hbuild, graft_branch]
    exact ⟨_, rfl, hholds.step (smtBit key level) hknown.children.2⟩

/-- The zeros for the shared bits and the old leaf below them join two leaves. -/
theorem Path.Holds.join {value k v : F} (h : path.Holds P hashed (.leaf key value))
    (hdiff : Differ smtBit level fuel key k) (hknown : Known P { q | q ∈ hashed } (.leaf k v)) :
    ∃ path', SparseMerkle.buildPath P (bitsFrom key level fuel)
        (sharedBits (bitsFrom k level fuel) (bitsFrom key level fuel) ++ [treeHash P (.leaf k v)]) path =
      .ok path' ∧ path'.Holds P hashed (SparseTree.join smtBit fuel level key value k v) := by
  induction fuel generalizing level with
  | zero => exact absurd hdiff.fuel_pos (lt_irrefl 0)
  | succ fuel ih =>
    rw [bitsFrom_succ, bitsFrom_succ, sharedBits, SparseTree.join]
    by_cases hbit : smtBit key level = smtBit k level
    · obtain ⟨path', hbuild, hholds⟩ := ih (hdiff.next hbit)
      have hempty : Known P { q | q ∈ hashed } .empty := fun _ hin => absurd hin (Set.notMem_empty _)
      rw [if_pos hbit.symm, if_pos hbit, cons_append, SparseMerkle.buildPath, hbuild]
      exact ⟨_, rfl, hholds.step (smtBit key level) hempty⟩
    · rw [if_neg (Ne.symm hbit), if_neg hbit, nil_append, SparseMerkle.buildPath]
      exact ⟨_, by cases fuel <;> rfl, h.step (smtBit key level) hknown⟩

end
end SparseMerkle

variable {t : Tree} {tree : SparseMerkleTree}

namespace SparseMerkleTree
section

structure Holds (P : Permutation) (t : Tree) (tree : SparseMerkleTree) : Prop where
  root : tree.root = treeHash P t
  canonical : Canonical smtBit 0 t
  nodup : t.keys.Nodup
  known : Known P { q | q ∈ tree.hashed } t
  logged : Logged P tree.db tree.hashed

theorem new_holds : Holds P .empty new where
  root := rfl
  canonical := trivial
  nodup := nodup_nil
  known _ hin := absurd hin (Set.notMem_empty _)
  logged _ hin := absurd hin not_mem_nil

def ofPath (path : Path) : SparseMerkleTree where
  db := path.db
  root := path.current
  hashed := path.hashed

theorem ofPath_holds {hashed : List Query} (h : path.Holds P hashed t)
    (hcanonical : Canonical smtBit 0 t) (hnodup : t.keys.Nodup) (hS : Safe P { q | q ∈ path.hashed }) :
    (ofPath path).Holds P t where
  root := h.current
  canonical := hcanonical
  nodup := hnodup
  known := h.known
  logged := h.logged hS

theorem find_eq (hS : Safe P { q | q ∈ tree.hashed }) (h : tree.Holds P t) (key : F) :
    tree.find key = .ok (foundAt key (endpoint smtBit key t 0) (siblings smtBit (smtHasher P) key t 0)) := by
  rw [find, fieldToBits_eq, h.root,
    findInternal_eq h.logged hS h.known (siblings_length_lt h.canonical h.nodup key), ok_bind, foundAt_get,
    reverse_reverse]
  exact congrArg Except.ok (foundAt_siblings _ _ _ _)

theorem foundAt_present {v : F} (hc : Canonical smtBit 0 t) (hmem : (key, v) ∈ t.entries) (sibs : List F) :
    foundAt key (endpoint smtBit key t 0) sibs =
      { found := true, siblings := sibs, foundValue := v, notFoundKey := 0, notFoundValue := 0,
        isOld0 := false } := by
  rw [endpoint_of_mem hc hmem, foundAt, if_pos rfl]

theorem foundAt_absent (habsent : key ∉ keys t) (sibs : List F) :
    (foundAt key (endpoint smtBit key t 0) sibs).found = false := by
  rcases endpoint_cases smtBit key t 0 with hend | ⟨k, v, hend⟩
  · rw [hend]
    rfl
  · have hne : k ≠ key := endpoint_ne habsent hend
    simp [hend, foundAt, hne]

section
variable (hS : Safe P { q | q ∈ tree.hashed }) (h : tree.Holds P t)
include hS h

theorem insert_present (hmem : key ∈ keys t)
    (value : F) : tree.insert P key value = .error .keyExists := by
  obtain ⟨⟨k, v⟩, hentry, rfl⟩ := mem_map.mp hmem
  rw [insert, find_eq hS h, ok_bind, foundAt_present h.canonical hentry]
  rfl

theorem update_absent (habsent : key ∉ keys t)
    (value : F) : tree.update P key value = .error .keyMissing := by
  rw [update, find_eq hS h, ok_bind, foundAt_absent habsent]
  rfl

end

theorem insertSiblings_fst (key : F) (found : Found) (hashed hashed' : List Query) :
    (insertSiblings P key found hashed).1 = (insertSiblings P key found hashed').1 := by
  unfold insertSiblings
  split
  · rfl
  · rfl

theorem insertSiblings_leaf {k v : F} (hne : k ≠ key) (sibs : List F) (hashed : List Query) :
    insertSiblings P key (foundAt key (.leaf k v) sibs) hashed =
      (sibs ++ (sharedBits (bitsFrom k sibs.length (256 - sibs.length))
          (bitsFrom key sibs.length (256 - sibs.length)) ++ [treeHash P (.leaf k v)]), hashed ++ [.hash2 k v 1]) := by
  rw [foundAt, if_neg hne, insertSiblings]
  simp only [Bool.false_eq_true, if_false, fieldToBits_drop, append_assoc]
  rfl

theorem insert_path (h : tree.Holds P t) (habsent : key ∉ keys t) (value : F) :
    let found := foundAt key (endpoint smtBit key t 0) (siblings smtBit (smtHasher P) key t 0)
    let leaf := Path.leaf P key value tree.db tree.hashed
    let extended := insertSiblings P key found leaf.hashed
    ∃ path, buildPath P (fieldToBits key) extended.1 { leaf with hashed := extended.2 } = .ok path ∧
      path.Holds P tree.hashed (insertAt smtBit key value t 256 0) := by
  have hleaf : (Path.leaf P key value tree.db tree.hashed).Holds P tree.hashed (.leaf key value) :=
    Path.leaf_holds key value fun _ => h.logged
  have hshort : (siblings smtBit (smtHasher P) key t 0).length < 256 := siblings_length_lt h.canonical h.nodup key
  rw [insertAt_eq_graft, zero_add, ← siblings_length (smtHasher P)]
  rcases endpoint_cases smtBit key t 0 with hend | ⟨k, v, hend⟩
  · rw [hend]
    have hbuild := hleaf.buildPath h.known hshort.le
    rwa [← fieldToBits_eq] at hbuild
  · have hne : k ≠ key := endpoint_ne habsent hend
    have hold : Known P { q | q ∈ tree.hashed } (.leaf k v) := h.known.subtree (subtree_endpoint hend)
    have hdiff := differ_endpoint (smtHasher P) h.canonical (differ_of_absent habsent) hend
    rw [zero_add] at hdiff
    obtain ⟨below, hbelow, hholds⟩ := (hleaf.again (hold _ rfl)).join hdiff hold
    obtain ⟨path, hpath, htree⟩ := hholds.buildPath h.known hshort.le
    refine ⟨path, ?_, by rwa [hend]⟩
    rw [hend, insertSiblings_leaf hne, buildPath_append, fieldToBits_drop]
    exact (congrArg (· >>= _) hbelow).trans (by rw [fieldToBits_eq]; exact hpath)

section
variable (hS : Safe P { q | q ∈ tree.hashed }) (h : tree.Holds P t)
include hS h

theorem insert_absent (habsent : key ∉ keys t)
    (value : F) :
    ∃ result path, tree.insert P key value = .ok (result, ofPath path) ∧
      path.Holds P tree.hashed (insertAt smtBit key value t 256 0) ∧
      let found := foundAt key (endpoint smtBit key t 0) (siblings smtBit (smtHasher P) key t 0)
      result.siblings = resultSiblings found.isOld0 (insertSiblings P key found []).1 := by
  obtain ⟨path, hbuild, hholds⟩ := insert_path h habsent value
  have hfound := foundAt_absent habsent (siblings smtBit (smtHasher P) key t 0)
  have hinsert : ∃ result, tree.insert P key value = .ok (result, ofPath path) ∧
      let found := foundAt key (endpoint smtBit key t 0) (siblings smtBit (smtHasher P) key t 0)
      result.siblings = resultSiblings found.isOld0 (insertSiblings P key found []).1 := by
    rw [insert, find_eq hS h, ok_bind, hfound, if_neg Bool.false_ne_true]
    dsimp only
    rw [hbuild]
    refine ⟨_, rfl, ?_⟩
    exact congrArg (resultSiblings _) (insertSiblings_fst ..)
  obtain ⟨result, heq, hsiblings⟩ := hinsert
  exact ⟨result, path, heq, hholds, hsiblings⟩

theorem update_present (hmem : key ∈ keys t)
    (value : F) :
    ∃ result path, tree.update P key value = .ok (result, ofPath path) ∧
      path.Holds P tree.hashed (graft smtBit key (.leaf key value) t 0) := by
  obtain ⟨⟨k, v⟩, hentry, rfl⟩ := mem_map.mp hmem
  have hleaf : (Path.leaf P k value tree.db tree.hashed).Holds P tree.hashed (.leaf k value) :=
    Path.leaf_holds k value fun _ => h.logged
  obtain ⟨path, hbuild, hholds⟩ := hleaf.buildPath h.known (siblings_length_lt h.canonical h.nodup k).le
  have hupdate : ∃ result, tree.update P k value = .ok (result, ofPath path) := by
    rw [update, find_eq hS h, ok_bind, foundAt_present h.canonical hentry]
    dsimp only
    rw [fieldToBits_eq, hbuild]
    exact ⟨_, rfl⟩
  exact hupdate.imp fun result heq => ⟨path, heq, hholds⟩

end

end
end SparseMerkleTree

inductive SmtCall where
  | insert (key value : F)
  | update (key newValue : F)

namespace SmtCall

def exec (P : Permutation) : SmtCall → SparseMerkleTree → Except SmtError (SmtResult × SparseMerkleTree)
  | .insert key value => SparseMerkleTree.insert P key value
  | .update key newValue => SparseMerkleTree.update P key newValue

def after (P : Permutation) (tree : SparseMerkleTree) (call : SmtCall) : SparseMerkleTree :=
  match call.exec P tree with
  | .ok (_, tree') => tree'
  | .error _ => tree

def apply (entries : List (F × F)) : SmtCall → List (F × F)
  | .insert key value => if (entries.map Prod.fst).contains key then entries else entries ++ [(key, value)]
  | .update key newValue => setValue key newValue entries

end SmtCall

def runCalls (P : Permutation) (calls : List SmtCall) : SparseMerkleTree :=
  calls.foldl (SmtCall.after P) .new

def mapOf (calls : List SmtCall) : List (F × F) := calls.foldl SmtCall.apply []

section
variable {entries : List (F × F)}

theorem buildPath_grows {keyBits : List Bool} {siblings : List F} {path path' : Path}
    (h : buildPath P keyBits siblings path = .ok path') : ∀ q ∈ path.hashed, q ∈ path'.hashed := by
  induction siblings generalizing keyBits path' with
  | nil =>
    cases keyBits <;> cases h <;> exact fun q hq => hq
  | cons sibling siblings ih =>
    cases keyBits with
    | nil => cases h
    | cons bit keyBits =>
      obtain ⟨below, hbelow, h⟩ := bind_eq_ok h
      cases h
      exact fun q hq => mem_append_left _ (ih hbelow q hq)

theorem insertSiblings_grows (P : Permutation) (key : F) (found : Found) (hashed : List Query) :
    ∀ q ∈ hashed, q ∈ (SparseMerkleTree.insertSiblings P key found hashed).2 := by
  intro q hq
  unfold SparseMerkleTree.insertSiblings
  split
  · exact hq
  · exact mem_append_left _ hq

theorem SmtCall.after_grows (call : SmtCall) : ∀ q ∈ tree.hashed, q ∈ (call.after P tree).hashed := by
  intro q hq
  rcases hexec : call.exec P tree with e | ⟨result, tree'⟩
  · simpa only [after, hexec] using hq
  · simp only [after, hexec]
    cases call with
    | insert key value =>
      obtain ⟨found, -, hexec⟩ := bind_eq_ok hexec
      split at hexec
      · cases hexec
      · obtain ⟨path, hpath, hexec⟩ := bind_eq_ok hexec
        cases hexec
        apply buildPath_grows hpath
        apply insertSiblings_grows
        exact mem_append_left _ hq
    | update key newValue =>
      obtain ⟨found, -, hexec⟩ := bind_eq_ok hexec
      split at hexec
      · cases hexec
      · obtain ⟨path, hpath, hexec⟩ := bind_eq_ok hexec
        cases hexec
        exact buildPath_grows hpath q (mem_append_left _ hq)

theorem SmtCall.after_holds (call : SmtCall) (h : tree.Holds P t) (hperm : entries.Perm t.entries)
    (hS : Safe P { q | q ∈ tree.hashed }) (hS' : Safe P { q | q ∈ (call.after P tree).hashed }) :
    ∃ t', (call.after P tree).Holds P t' ∧ (call.apply entries).Perm t'.entries := by
  cases call with
  | insert key value =>
    by_cases hmem : key ∈ keys t
    · rw [apply, if_pos (contains_iff_mem.mpr ((mem_keys_iff hperm).mp hmem))]
      simp only [after, exec, SparseMerkleTree.insert_present hS h hmem]
      exact ⟨t, h, hperm⟩
    · obtain ⟨result, path, hinsert, hpath, -⟩ := SparseMerkleTree.insert_absent hS h hmem value
      simp only [after, exec, hinsert] at hS' ⊢
      have hentries : (insertAt smtBit key value t 256 0).entries.Perm ((key, value) :: t.entries) :=
        entries_insertAt h.canonical (differ_of_absent hmem)
      refine ⟨_, SparseMerkleTree.ofPath_holds hpath
        (canonical_insertAt h.canonical (differ_of_absent hmem)) ?_ hS', ?_⟩
      · exact (hentries.map Prod.fst).nodup_iff.mpr (nodup_cons.mpr ⟨hmem, h.nodup⟩)
      · rw [apply, if_neg (hmem ∘ (mem_keys_iff hperm).mpr ∘ contains_iff_mem.mp)]
        exact ((hperm.append_right _).trans perm_append_comm).trans hentries.symm
  | update key newValue =>
    rw [apply]
    by_cases hmem : key ∈ keys t
    · obtain ⟨result, path, hupdate, hpath⟩ := SparseMerkleTree.update_present hS h hmem newValue
      simp only [after, exec, hupdate] at hS' ⊢
      refine ⟨_, SparseMerkleTree.ofPath_holds hpath (canonical_graft newValue h.canonical hmem) ?_ hS', ?_⟩
      · rw [keys_graft newValue h.canonical hmem]
        exact h.nodup
      · rw [entries_graft newValue h.canonical hmem]
        exact hperm.map _
    · simp only [after, exec, SparseMerkleTree.update_absent hS h hmem]
      rw [setValue_of_absent (hmem ∘ (mem_keys_iff hperm).mpr)]
      exact ⟨t, h, hperm⟩

theorem runCalls_holds (calls : List SmtCall) (hS : Safe P { q | q ∈ (runCalls P calls).hashed }) :
    ∃ t, (runCalls P calls).Holds P t ∧ (mapOf calls).Perm t.entries := by
  induction calls using List.reverseRecOn with
  | nil => exact ⟨.empty, SparseMerkleTree.new_holds, List.Perm.refl _⟩
  | append_singleton calls call ih =>
    rw [runCalls, foldl_concat] at hS ⊢
    rw [mapOf, foldl_concat]
    have hbefore := hS.mono (fun q hq => call.after_grows q hq)
    obtain ⟨t, h, hperm⟩ := ih hbefore
    exact call.after_holds h hperm hbefore hS

def SparseMerkle.Found.onchain (found : Found) : FindResult where
  found := found.found
  siblings := found.siblings.map ZMod.val
  foundValue := found.foundValue.val
  notFoundKey := found.notFoundKey.val
  notFoundValue := found.notFoundValue.val
  isOld0 := found.isOld0

theorem foundAt_onchain (key : F) (e : Tree) (sibs : List F) :
    (foundAt key e sibs).onchain = findResult key e sibs := by
  cases e with
  | empty => simp [foundAt, Found.onchain, findResult, emptyEnd]
  | leaf k v => by_cases h : k = key <;> simp [foundAt, Found.onchain, findResult, h]
  | node left right => simp [foundAt, Found.onchain, findResult, emptyEnd]

theorem represents_same (hQ : Safe P Q) (h : tree.Holds P t)
    (hhashed : ∀ q ∈ tree.hashed, q ∈ Q) (hperm : entries.Perm t.entries) {entries' : List (F × F)}
    {s : Storage} (hrun : History P entries' s) (hcontract : ∀ q ∈ s.hashed, q ∈ Q)
    (hsame : entries'.Perm entries) : Represents P t s := by
  obtain ⟨t', ht', hperm'⟩ := hrun.represents (hQ.mono hcontract)
  have hroot : treeHash P t' = treeHash P t := by
    rw [← ht'.mapRoot_eq hperm']
    exact rootOf_eq_hash (smtHasher P) h.canonical (pairwise_differ h.nodup) (hsame.trans hperm)
  obtain rfl : t' = t := treeHash_val_inj hQ (ht'.known.mono hcontract) (h.known.mono hhashed) (congrArg ZMod.val hroot)
  exact ht'

/-- After any calls the client's tree is the finite map they make: it refuses exactly the
insertions of present keys and the updates of absent ones, its root is that of the map, and a
contract with the same entries has the same root, gives the same search results and accepts the
same insertions. -/
theorem sparse_tree_refines {Q : Set Query} (hQ : Safe P Q) (calls : List SmtCall)
    (hhashed : ∀ q ∈ (runCalls P calls).hashed, q ∈ Q) :
    (runCalls P calls).root = mapRoot P (mapOf calls) ∧
    (∀ key value, (key ∈ (mapOf calls).map Prod.fst →
        (runCalls P calls).insert P key value = .error .keyExists) ∧
      (key ∉ (mapOf calls).map Prod.fst → ∃ result, (runCalls P calls).insert P key value = .ok result)) ∧
    (∀ key value, (key ∉ (mapOf calls).map Prod.fst →
        (runCalls P calls).update P key value = .error .keyMissing) ∧
      (key ∈ (mapOf calls).map Prod.fst → ∃ result, (runCalls P calls).update P key value = .ok result)) ∧
    (∀ key, ∃ found, (runCalls P calls).find key = .ok found ∧
      ∀ entries s, History P entries s → (∀ q ∈ s.hashed, q ∈ Q) → entries.Perm (mapOf calls) →
        findKey key.val s = .ok found.onchain) ∧
    ∀ entries s, History P entries s → (∀ q ∈ s.hashed, q ∈ Q) → entries.Perm (mapOf calls) →
      s.root = some (runCalls P calls).root.val ∧
      ∀ authorized admin, s.admin = some admin → authorized admin = true → ∀ key value : F,
        ((∃ s', insertLeaf P authorized key.val value.val s = .ok ((), s')) ↔
          ∃ result, (runCalls P calls).insert P key value = .ok result) := by
  have hS := hQ.mono hhashed
  obtain ⟨t, h, hperm⟩ := runCalls_holds calls hS
  have hinsert : ∀ key value, key ∉ keys t → ∃ result, (runCalls P calls).insert P key value = .ok result :=
    fun key value habsent => by
      obtain ⟨result, path, hok, -⟩ := SparseMerkleTree.insert_absent hS h habsent value
      exact ⟨_, hok⟩
  simp only [← mem_keys_iff hperm]
  refine ⟨?_, fun key value => ⟨fun hmem => SparseMerkleTree.insert_present hS h hmem value, hinsert key value⟩,
    fun key value => ⟨fun habsent => SparseMerkleTree.update_absent hS h habsent value, fun hmem => ?_⟩, ?_, ?_⟩
  · rw [h.root]
    exact (rootOf_eq_hash (smtHasher P) h.canonical (pairwise_differ h.nodup) hperm).symm
  · obtain ⟨result, path, hok, -⟩ := SparseMerkleTree.update_present hS h hmem value
    exact ⟨_, hok⟩
  · intro key
    refine ⟨_, SparseMerkleTree.find_eq hS h key, ?_⟩
    intro entries s hrun hcontract hsame
    have hs := represents_same hQ h hhashed hperm hrun hcontract hsame
    rw [findKey, hs.root, Option.getD_some, findKey_tree (hQ.mono hcontract) hs, foundAt_onchain]
  · intro entries s hrun hcontract hsame
    have hs := represents_same hQ h hhashed hperm hrun hcontract hsame
    refine ⟨by rw [hs.root, h.root], ?_⟩
    intro authorized admin hadmin hauth key value
    by_cases hmem : key ∈ keys t
    · rw [insertLeaf_present (hQ.mono hcontract) hs hadmin hauth hmem, SparseMerkleTree.insert_present hS h hmem value]
      simp
    · obtain ⟨st, hst, -⟩ := insertLeaf_absent (hQ.mono hcontract) hs hadmin hauth value hmem
      exact iff_of_true ⟨_, hst⟩ (hinsert key value hmem)

def threeCalls : List SmtCall := [.insert 5 7, .insert 2 9, .update 5 8]

/-- The contract inserts the final entries in the other order. -/
theorem sparse_tree_refines_three : ∃ s found, History decimalPermutation [(2, 9), (5, 8)] s ∧
    s.root = some (runCalls decimalPermutation threeCalls).root.val ∧
    (runCalls decimalPermutation threeCalls).find 5 = .ok found ∧ findKey 5 s = .ok found.onchain ∧
    (runCalls decimalPermutation threeCalls).update decimalPermutation 3 1 = .error .keyMissing := by
  have hhashed : (runCalls decimalPermutation threeCalls).hashed =
      [.hash2 5 7 1, .hash2 2 9 1, .hash2 5 7 1, .compress 92 75, .hash2 5 8 1, .compress 92 85] := by rfl
  have hsafe : Safe decimalPermutation { q | q ∈ (runCalls decimalPermutation threeCalls).hashed } := by
    rw [hhashed]
    decide
  obtain ⟨s, hrun, hcontract⟩ : ∃ s, History decimalPermutation [(2, 9), (5, 8)] s ∧
      s.hashed = [.hash2 2 9 1, .hash2 2 9 1, .hash2 5 8 1, .compress 92 85] :=
    ⟨_, .call (.call (.start (show constructor ⟨0⟩ .fresh = _ from rfl))
      (show exec _ (fun _ => true) (.insertLeaf 2 9) _ = _ from rfl))
      (show exec _ (fun _ => true) (.insertLeaf 5 8) _ = _ from rfl), rfl⟩
  obtain ⟨-, -, hupdate, hfind, hsame⟩ := sparse_tree_refines hsafe threeCalls fun _ hq => hq
  have hknown : ∀ q ∈ s.hashed, q ∈ (runCalls decimalPermutation threeCalls).hashed := by
    rw [hcontract, hhashed]
    decide
  have hperm : [((2 : F), (9 : F)), (5, 8)].Perm (mapOf threeCalls) := by decide
  obtain ⟨found, hfound, honchain⟩ := hfind 5
  exact ⟨s, found, hrun, (hsame _ s hrun hknown hperm).1, hfound, honchain _ s hrun hknown hperm,
    (hupdate 3 1).1 (by decide)⟩

end

end PrivatePayments.Sdk

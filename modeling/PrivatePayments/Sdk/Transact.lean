import PrivatePayments.Sdk.Merkle
import PrivatePayments.Sdk.NonMembershipProof
import PrivatePayments.Sdk.Notes
import PrivatePayments.Sdk.Precondition
import PrivatePayments.System.OpenPool

/-! `pool/src/transact.rs`: what the prover is given. -/
namespace PrivatePayments.Sdk
open Contracts Lib Lib.BinaryTree
open List hiding Vector

structure TransactRequest where
  userAddress : String
  poolRoot : Option F
  poolNextIndex : Nat
  poolAddress : String
  extRecipient : String
  extAmount : Int
  aspmemRoot : F
  aspmemContractId : String
  aspmemLedger : Nat
  inputCommitments : List F
  outputAmounts : Fin 2 → Nat
  outRecipientNotePubkeys : Fin 2 → Option Key
  outRecipientEncryptionPubkeys : Fin 2 → Option Key
  smtDepth : Nat
  treeDepth : Nat
  nonMembershipProof : AspNonMembershipProof

structure AspMembershipProof where
  leaf : F
  blinding : F
  pathElements : List F
  pathIndices : F
  root : F

@[ext]
structure TransactInputNote where
  amount : Nat
  blinding : F
  merklePathElements : List F
  merklePathIndices : F

structure TransactOutput where
  amount : Nat
  blinding : F
  recipientNotePubkey : Option Key
  recipientEncryptionPubkey : Option Key

structure TransactParams where
  privKey : Key
  encryptionPubkey : Key
  poolRoot : F
  extRecipient : String
  extAmount : Int
  inputs : List TransactInputNote
  outputs : List TransactOutput
  membershipProof : AspMembershipProof
  nonMembershipProof : AspNonMembershipProof
  treeDepth : Nat
  smtDepth : Nat

inductive BuildTransactParams where
  | ready (params : TransactParams)
  | membershipSync (status : AspMembershipSync)

inductive TransactError where
  | tooManyInputs
  | noKeys
  | noteKeyOutOfRange
  | precondition (e : PreconditionError)
  | storage (e : StorageError)
  | merkle (e : MerkleError)
  | missingPoolRoot
  | poolRootMismatch
  | recipientKeys (output : Fin 2)
  | random

def getUserKeys (db : Db) (address : String) : Option AccountKeys :=
  (db.keypairs.filter fun keys => db.accounts.rows[keys.accountId - 1]? == some address).getLast?

def getUnspentUserNoteByCommitment (db : Db) (poolContractId accountAddress : String) (commitment : F) :
    Option (Nat × F × Nat) :=
  (db.userNotes.rows.filterMap fun note => do
    let owner ← db.accounts.rows[note.accountId - 1]?
    let row ← db.commitment? note.commitmentId
    let event ← db.event? row.eventId
    let pool ← db.address? event.contractId
    if owner = accountAddress ∧ pool = poolContractId ∧ row.commitment = commitment ∧
        note.nullifierId = none then
      some (note.amount, note.blinding, row.leafIndex)
    else none).head?

def loadUserKeyMaterial (db : Db) (userAddress : String) : Except TransactError AccountKeys :=
  match getUserKeys db userAddress with
  | some keys => .ok keys
  | none => .error .noKeys

section
variable (P : Permutation) (visit : Visit AspMembershipLeaf) (db : Db)

/-- The inner result is a verdict for which there is no proof yet. -/
def buildMembershipProof (aspmemContractId : String) (notePubkey : Key) (membershipBlinding aspmemRoot : F)
    (aspmemLedger treeDepth : Nat) :
    Except TransactError (Except AspMembershipSync AspMembershipProof) :=
  match tryFromLeBytes notePubkey.1 with
  | none => .error .noteKeyOutOfRange
  | some key => do
    let userLeaf := aspMembershipLeaf P key membershipBlinding
    let status ← (checkAspMembershipPrecondition visit db aspmemContractId userLeaf aspmemRoot
      aspmemLedger).mapError .precondition
    match status with
    | .userIndex userLeafIndex => do
      let leaves ← (getAllAspMembershipLeavesOrdered db aspmemContractId).mapError .storage
      let tree ← (MerklePrefixTree.new P treeDepth leaves).mapError .merkle
      let proof ← ((tree.build P).proof userLeafIndex).mapError .merkle
      return .ok
        { leaf := userLeaf
          blinding := membershipBlinding
          pathElements := proof.pathElements
          pathIndices := proof.pathIndices
          root := proof.root }
    | status => return .error status

def buildValidatedPoolTree (poolAddress : String) (poolNextIndex treeDepth : Nat) (expectedPoolRoot : F) :
    Except TransactError (Except AspMembershipSync MerklePrefixTreeBuilt) := do
  let leaves ← (getPoolCommitmentLeavesOrdered db poolAddress).mapError .storage
  if leaves.length ≠ poolNextIndex then return .error (.syncRequired none)
  else
    let tree ← (MerklePrefixTree.new P treeDepth leaves).mapError .merkle
    if (tree.build P).root ≠ expectedPoolRoot then .error .poolRootMismatch
    else return .ok (tree.build P)

def buildPoolInputNote (amount : Nat) (blinding : F) (leafIndex : Nat) (tree : MerklePrefixTreeBuilt) :
    Except TransactError TransactInputNote := do
  let proof ← (tree.proof leafIndex).mapError .merkle
  return { amount, blinding, merklePathElements := proof.pathElements, merklePathIndices := proof.pathIndices }

def collectInputs (userAddress poolAddress : String) (tree : MerklePrefixTreeBuilt) :
    List F → Except TransactError (Except AspMembershipSync (List TransactInputNote))
  | [] => .ok (.ok [])
  | commitment :: rest =>
    match getUnspentUserNoteByCommitment db poolAddress userAddress commitment with
    | none => .ok (.error (.syncRequired none))
    | some (amount, blinding, leafIndex) => do
      let input ← buildPoolInputNote amount blinding leafIndex tree
      let inputs ← collectInputs userAddress poolAddress tree rest
      return inputs.map (input :: ·)

def buildPoolInputs (userAddress poolAddress : String) (poolNextIndex treeDepth : Nat) (expectedPoolRoot : F)
    (inputCommitments : List F) : Except TransactError (Except AspMembershipSync (List TransactInputNote)) :=
  if inputCommitments.isEmpty then .ok (.ok [])
  else do
    match ← buildValidatedPoolTree P db poolAddress poolNextIndex treeDepth expectedPoolRoot with
    | .error status => return .error status
    | .ok tree => collectInputs db userAddress poolAddress tree inputCommitments

/-- One output; `random` is the blinding that is drawn for it, if any can be drawn. -/
def buildOutput (req : TransactRequest) (random : Fin 2 → Option F) (i : Fin 2) :
    Except TransactError TransactOutput :=
  if (req.outRecipientNotePubkeys i).isSome ≠ (req.outRecipientEncryptionPubkeys i).isSome then
    .error (.recipientKeys i)
  else
    match random i with
    | none => .error .random
    | some blinding => .ok
        { amount := req.outputAmounts i
          blinding
          recipientNotePubkey := req.outRecipientNotePubkeys i
          recipientEncryptionPubkey := req.outRecipientEncryptionPubkeys i }

def buildTransactParams (random : Fin 2 → Option F) (req : TransactRequest) :
    Except TransactError BuildTransactParams :=
  if req.inputCommitments.length > 2 then .error .tooManyInputs
  else do
    let keys ← loadUserKeyMaterial db req.userAddress
    match ← buildMembershipProof P visit db req.aspmemContractId keys.noteKeypair.publicKey
        keys.membershipBlinding req.aspmemRoot req.aspmemLedger req.treeDepth with
    | .error status => return .membershipSync status
    | .ok membershipProof =>
      match req.poolRoot with
      | none => .error .missingPoolRoot
      | some poolRoot => do
        match ← buildPoolInputs P db req.userAddress req.poolAddress req.poolNextIndex req.treeDepth
            poolRoot req.inputCommitments with
        | .error status => return .membershipSync status
        | .ok inputs => do
          let output0 ← buildOutput req random ⟨0, Nat.zero_lt_two⟩
          let output1 ← buildOutput req random ⟨1, Nat.one_lt_two⟩
          return .ready
            { privKey := keys.noteKeypair.privateKey
              encryptionPubkey := keys.encryptionKeypair.publicKey
              poolRoot
              extRecipient := req.extRecipient
              extAmount := req.extAmount
              inputs
              outputs := [output0, output1]
              membershipProof
              nonMembershipProof := req.nonMembershipProof
              treeDepth := req.treeDepth
              smtDepth := req.smtDepth }

end

def LeadsTo (P : Permutation) (depth : Nat) (leaf : F) (pathElements : List F) (pathIndices root : F) :
    Prop :=
  Circuits.Num2Bits depth pathIndices ∧ ∃ path : Vector F depth, path.toList = pathElements ∧
    Circuits.merkleProof P leaf path pathIndices = root

/-- A note of the user in the pool that is not marked as spent. -/
structure UnspentNote (db : Db) (poolAddress userAddress : String) (commitment : F) (leafIndex : Nat)
    (note : UserNote) : Prop where
  stored : note ∈ db.userNotes.rows
  owner : db.accounts.rows[note.accountId - 1]? = some userAddress
  unspent : note.nullifierId = none
  commitment : ∃ row ∈ db.poolCommitments.rows, row.id = note.commitmentId ∧
    row.commitment = commitment ∧ row.leafIndex = leafIndex ∧
    (db.contractOf row.eventId).bind db.address? = some poolAddress

def ValidInput (P : Permutation) (db : Db) (poolAddress userAddress : String) (depth : Nat) (poolRoot : F)
    (commitment : F) (input : TransactInputNote) : Prop :=
  ∃ leafIndex note, UnspentNote db poolAddress userAddress commitment leafIndex note ∧
    input.amount = note.amount ∧ input.blinding = note.blinding ∧
    input.merklePathIndices = (leafIndex : F) ∧
    LeadsTo P depth commitment input.merklePathElements input.merklePathIndices poolRoot

variable {P : Permutation} {db : Db}

variable {commitments : List F} {inputs : List TransactInputNote} {proof : AspMembershipProof}
  {membershipBlinding aspmemRoot : F}

variable {poolNextIndex : Nat} {commitment : F} {poolRoot : F}

section Inversion
variable {visit : Visit AspMembershipLeaf} {poolAddress userAddress : String} {depth : Nat}

theorem getUnspentUserNoteByCommitment_some {commitment blinding : F} {amount leafIndex : Nat}
    (h : getUnspentUserNoteByCommitment db poolAddress userAddress commitment =
      some (amount, blinding, leafIndex)) :
    ∃ note, UnspentNote db poolAddress userAddress commitment leafIndex note ∧
      note.amount = amount ∧ note.blinding = blinding := by
  obtain ⟨note, hnote, hjoined⟩ := mem_filterMap.mp (mem_of_head? h)
  obtain ⟨owner, howner, hrest⟩ := Option.bind_eq_some_iff.mp hjoined
  obtain ⟨row, hrow, hrest'⟩ := Option.bind_eq_some_iff.mp hrest
  obtain ⟨event, hevent, hrest''⟩ := Option.bind_eq_some_iff.mp hrest'
  obtain ⟨pool, hpool, hsome⟩ := Option.bind_eq_some_iff.mp hrest''
  split at hsome
  · rename_i hkeys
    obtain ⟨rfl, rfl, rfl, hunspent⟩ := hkeys
    cases hsome
    have hmem := mem_of_find?_eq_some hrow
    have hid : row.id = note.commitmentId := by simpa using find?_some hrow
    refine ⟨note, ⟨hnote, howner, hunspent, row, hmem, hid, rfl, rfl, ?_⟩, rfl, rfl⟩
    rw [Db.contractOf, hevent]
    exact hpool
  · cases hsome

theorem UnspentNote.isSome {leafIndex : Nat} {note : UserNote}
    (h : UnspentNote db poolAddress userAddress commitment leafIndex note) :
    ∃ found, getUnspentUserNoteByCommitment db poolAddress userAddress commitment = some found := by
  obtain ⟨row, hrow, hid, rfl, -, hbelongs⟩ := h.commitment
  obtain ⟨contract, hcontract, hpool⟩ := Option.bind_eq_some_iff.mp hbelongs
  obtain ⟨event, hevent, rfl⟩ := Option.map_eq_some_iff.mp hcontract
  have hrowOf : db.commitment? note.commitmentId = some row := hid ▸ commitment?_of_mem hrow
  unfold getUnspentUserNoteByCommitment
  rw [← Option.isSome_iff_exists, isSome_head?, ne_eq, filterMap_eq_nil_iff, not_forall]
  refine ⟨note, ?_⟩
  simp [h.stored, h.owner, hrowOf, hevent, hpool, h.unspent]

theorem buildMembershipProof_ok {aspmemContractId : String} {notePubkey : Key}
    {aspmemLedger : Nat}
    (h : buildMembershipProof P visit db aspmemContractId notePubkey membershipBlinding aspmemRoot
      aspmemLedger depth = .ok (.ok proof)) :
    ∃ key i leaves tree path, tryFromLeBytes notePubkey.1 = some key ∧
      checkAspMembershipPrecondition visit db aspmemContractId
        (aspMembershipLeaf P key membershipBlinding) aspmemRoot aspmemLedger = .ok (.userIndex i) ∧
      getAllAspMembershipLeavesOrdered db aspmemContractId = .ok leaves ∧
      MerklePrefixTree.new P depth leaves = .ok tree ∧ (tree.build P).proof i = .ok path ∧
      proof = ⟨aspMembershipLeaf P key membershipBlinding, membershipBlinding, path.pathElements,
        path.pathIndices, path.root⟩ := by
  unfold buildMembershipProof at h
  cases hkey : tryFromLeBytes notePubkey.1 with
  | none =>
    rw [hkey] at h
    cases h
  | some key =>
    rw [hkey] at h
    obtain ⟨status, hstatus, h⟩ := bind_eq_ok h
    cases status with
    | registerAtASP => cases h
    | syncRequired gap => cases h
    | userIndex i =>
      obtain ⟨leaves, hleaves, h⟩ := bind_eq_ok h
      obtain ⟨tree, htree, h⟩ := bind_eq_ok h
      obtain ⟨path, hpath, h⟩ := bind_eq_ok h
      cases h
      exact ⟨key, i, leaves, tree, path, rfl, mapError_eq_ok hstatus, mapError_eq_ok hleaves,
        mapError_eq_ok htree, mapError_eq_ok hpath, rfl⟩

theorem buildValidatedPoolTree_ok {expectedPoolRoot : F} {built : MerklePrefixTreeBuilt}
    (h : buildValidatedPoolTree P db poolAddress poolNextIndex depth expectedPoolRoot = .ok (.ok built)) :
    ∃ leaves tree, getPoolCommitmentLeavesOrdered db poolAddress = .ok leaves ∧
      leaves.length = poolNextIndex ∧ MerklePrefixTree.new P depth leaves = .ok tree ∧
      built = tree.build P ∧ built.root = expectedPoolRoot := by
  obtain ⟨leaves, hleaves, h⟩ := bind_eq_ok h
  split at h
  · cases h
  · rename_i hlength
    obtain ⟨tree, htree, h⟩ := bind_eq_ok h
    split at h
    · cases h
    · rename_i hroot
      cases h
      exact ⟨leaves, tree, mapError_eq_ok hleaves, not_not.mp hlength, mapError_eq_ok htree, rfl, not_not.mp hroot⟩

variable {tree : MerklePrefixTreeBuilt}

theorem collectInputs_ok
    (h : collectInputs db userAddress poolAddress tree commitments = .ok (.ok inputs)) :
    List.Forall₂ (fun commitment input => ∃ leafIndex note path,
      UnspentNote db poolAddress userAddress commitment leafIndex note ∧
      tree.proof leafIndex = .ok path ∧
      input = ⟨note.amount, note.blinding, path.pathElements, path.pathIndices⟩) commitments inputs := by
  induction commitments generalizing inputs with
  | nil =>
    cases h
    exact .nil
  | cons commitment rest ih =>
    unfold collectInputs at h
    cases hnote : getUnspentUserNoteByCommitment db poolAddress userAddress commitment with
    | none =>
      rw [hnote] at h
      cases h
    | some found =>
      obtain ⟨amount, blinding, leafIndex⟩ := found
      rw [hnote] at h
      obtain ⟨input, hinput, h⟩ := bind_eq_ok h
      obtain ⟨others, hothers, h⟩ := bind_eq_ok h
      cases others with
      | error status => cases h
      | ok others =>
        cases h
        obtain ⟨path, hpath, hinput⟩ := bind_eq_ok hinput
        cases hinput
        obtain ⟨note, hunspent, rfl, rfl⟩ := getUnspentUserNoteByCommitment_some hnote
        exact .cons ⟨leafIndex, note, path, hunspent, mapError_eq_ok hpath, rfl⟩ (ih hothers)

theorem collectInputs_complete
    (hnotes : ∀ commitment ∈ commitments, ∃ leafIndex note,
      UnspentNote db poolAddress userAddress commitment leafIndex note) (hproofs : ∀ {commitment leafIndex note},
      UnspentNote db poolAddress userAddress commitment leafIndex note → ∃ path, tree.proof leafIndex = .ok path) :
    ∃ inputs, collectInputs db userAddress poolAddress tree commitments = .ok (.ok inputs) := by
  induction commitments with
  | nil => exact ⟨[], rfl⟩
  | cons commitment rest ih =>
    obtain ⟨_, _, hnote⟩ := hnotes commitment mem_cons_self
    obtain ⟨⟨amount, blinding, leafIndex⟩, hfound⟩ := hnote.isSome
    obtain ⟨note, hunspent, -⟩ := getUnspentUserNoteByCommitment_some hfound
    obtain ⟨path, hpath⟩ := hproofs hunspent
    obtain ⟨inputs, hinputs⟩ := ih fun other hother => hnotes other (mem_cons_of_mem _ hother)
    rw [collectInputs, hfound]
    simp only [buildPoolInputNote, hpath, hinputs, Except.mapError, ok_bind]
    exact ⟨_, rfl⟩

variable {keys : AccountKeys}

theorem loadUserKeyMaterial_ok (h : loadUserKeyMaterial db userAddress = .ok keys) :
    getUserKeys db userAddress = some keys := by
  unfold loadUserKeyMaterial at h
  split at h
  · rename_i found hfound
    cases h
    exact hfound
  · cases h

variable {random : Fin 2 → Option F}

variable {req : TransactRequest}

theorem buildTransactParams_ready
    {params : TransactParams} (h : buildTransactParams P visit db random req = .ok (.ready params)) :
    ∃ keys poolRoot, getUserKeys db req.userAddress = some keys ∧
      params.privKey = keys.noteKeypair.privateKey ∧
      buildMembershipProof P visit db req.aspmemContractId keys.noteKeypair.publicKey
        keys.membershipBlinding req.aspmemRoot req.aspmemLedger req.treeDepth =
          .ok (.ok params.membershipProof) ∧
      req.poolRoot = some poolRoot ∧ params.poolRoot = poolRoot ∧
      buildPoolInputs P db req.userAddress req.poolAddress req.poolNextIndex req.treeDepth poolRoot
        req.inputCommitments = .ok (.ok params.inputs) := by
  unfold buildTransactParams at h
  split at h
  · cases h
  · obtain ⟨keys, hkeys, h⟩ := bind_eq_ok h
    obtain ⟨proved, hproved, h⟩ := bind_eq_ok h
    cases proved with
    | error status => cases h
    | ok membershipProof =>
      cases hroot : req.poolRoot with
      | none =>
        simp only [hroot] at h
        cases h
      | some poolRoot =>
        simp only [hroot] at h
        obtain ⟨collected, hcollected, h⟩ := bind_eq_ok h
        cases collected with
        | error status => cases h
        | ok inputs =>
          obtain ⟨output0, -, h⟩ := bind_eq_ok h
          obtain ⟨output1, -, h⟩ := bind_eq_ok h
          cases h
          exact ⟨keys, poolRoot, loadUserKeyMaterial_ok hkeys, rfl, hproved, rfl, rfl, hcollected⟩

theorem buildTransactParams_succeeds
    (hfew : req.inputCommitments.length ≤ 2) (hkeys : getUserKeys db req.userAddress = some keys)
    (hproof : buildMembershipProof P visit db req.aspmemContractId keys.noteKeypair.publicKey
      keys.membershipBlinding req.aspmemRoot req.aspmemLedger req.treeDepth = .ok (.ok proof))
    (hroot : req.poolRoot = some poolRoot)
    (hinputs : buildPoolInputs P db req.userAddress req.poolAddress req.poolNextIndex req.treeDepth poolRoot
      req.inputCommitments = .ok (.ok inputs)) (houtputs : ∀ i, ∃ output, buildOutput req random i = .ok output) :
    ∃ params, buildTransactParams P visit db random req = .ok (.ready params) := by
  obtain ⟨output0, houtput0⟩ := houtputs 0
  obtain ⟨output1, houtput1⟩ := houtputs 1
  unfold buildTransactParams loadUserKeyMaterial
  rw [if_neg (by omega)]
  simp only [hkeys, ok_bind, hproof, hroot, hinputs, Fin.zero_eta, Fin.mk_one, houtput0, houtput1]
  exact ⟨_, rfl⟩

end Inversion

/-! The stored leaves are the first ones of the contracts. -/

variable {s : AspMembership.Storage}

section Valid
variable {codec : Codec} {derive : DeriveNote} {chain : Chain} {visit : Visit AspMembershipLeaf}
  {random : Fin 2 → Option F} {address : String} {levels : Nat} {leaves : List U256} {notePubkey : Key}
  {aspmemLedger : Nat} {host : Pool.Host} {config : System.Config} {x : System.State}
  (h : Mirrored codec chain db) (hregistered : Registered db)
  (hall : ∀ entry ∈ chain.log, db.hasEvent entry.id = true ∧ db.unprocessed entry.id = false) (hchain : ZeroesChain P)
  (hhistory : AspMembership.History P levels leaves s) (hsource : (address, Source.aspMembership s) ∈ chain.sources)

theorem isPrefix_of_zipIdx {α : Type} {xs ys : List α} (h : ∀ entry ∈ xs.zipIdx, entry ∈ ys.zipIdx) : xs <+: ys := by
  rw [prefix_iff_getElem?]
  intro i hi
  rw [← mk_mem_zipIdx_iff_getElem?]
  apply h
  rw [mk_mem_zipIdx_iff_getElem?]
  exact getElem?_eq_getElem hi

theorem mem_zipIdx_of_sorted {α β : Type} {r : β → β → Prop} [DecidableRel r] {value : β → α}
    {index : β → Nat} {rows : List β} {leaves : List α}
    (h : (rows.insertionSort r).map (fun row => (value row, index row)) = leaves.zipIdx) {leaf : α}
    {i : Nat} : leaves[i]? = some leaf ↔ ∃ row ∈ rows, value row = leaf ∧ index row = i := by
  rw [← mk_mem_zipIdx_iff_getElem?, ← h, mem_map]
  simp only [(perm_insertionSort r rows).mem_iff, Prod.mk.injEq]

include h hchain hhistory hsource in
theorem Mirrored.aspLeaves_root {stored : List F}
    (hstored : getAllAspMembershipLeavesOrdered db address = .ok stored) {root : F} {last : Nat}
    (hlast : Sdk.lastAspRoot db address = some (root, last)) :
    treeRoot P levels stored = root ∧ stored.length ≤ 2 ^ levels := by
  obtain ⟨k, entry, -, -, -, hroot, ⟨top, htop, hindex⟩, hmax⟩ := h.lastAspRoot hchain hhistory hsource hlast
  have hrows := fun leaf i => @mem_zipIdx_of_sorted _ _ _ _ AspMembershipLeaf.leaf
    AspMembershipLeaf.leafIndex _ _ (collectAspLeaves_eq_ok.mp hstored).1 leaf i
  have hgrown : stored <+: (leaves.map Nat.cast : List F) := by
    apply isPrefix_of_zipIdx
    rintro ⟨leaf, i⟩ hmem
    rw [mk_mem_zipIdx_iff_getElem?] at hmem ⊢
    obtain ⟨row, hrow, hleaf⟩ := (hrows leaf i).mp hmem
    exact ((h.mem_aspLeavesOf_iff hchain hhistory hsource).mp ⟨row, hrow, hleaf⟩).1
  have hlength : stored.length = k + 1 := by
    have hlt := (List.getElem?_eq_some_iff.mp ((hrows _ k).mpr ⟨top, htop, rfl, hindex⟩)).1
    have hend : stored[stored.length - 1]? = some stored[stored.length - 1] := getElem?_eq_getElem _
    obtain ⟨row, hrow, -, hlast⟩ := (hrows _ _).mp hend
    have hle := hmax row hrow
    omega
  have hfits := (hhistory.holds hchain).1.fits
  refine ⟨?_, hgrown.length_le.trans hfits⟩
  rw [hroot, ← hlength, ← prefix_iff_eq_take.mp hgrown]

theorem proof_leadsTo {depth : Nat} {leaves : List F} {tree : MerklePrefixTree} {path : MerkleProof}
    {leaf : F} {i : Nat} (hpos : 1 ≤ depth) (hle : depth ≤ 32) (hfits : leaves.length ≤ 2 ^ depth)
    (htree : MerklePrefixTree.new P depth leaves = .ok tree) (hpath : (tree.build P).proof i = .ok path)
    (hleaf : leaves[i]? = some leaf) :
    (tree.build P).root = treeRoot P depth leaves ∧ path.root = treeRoot P depth leaves ∧
      path.pathIndices = (i : F) ∧
      LeadsTo P depth leaf path.pathElements path.pathIndices (treeRoot P depth leaves) := by
  obtain rfl : prefixTree P depth leaves = tree := by
    rw [new_eq hpos hle] at htree
    exact Except.ok.inj htree
  obtain ⟨hi, rfl⟩ := List.getElem?_eq_some_iff.mp hleaf
  rw [build_proof hpos hle (ne_nil_of_length_pos (Nat.zero_lt_of_lt hi)) (hi.trans_le hfits) hi] at hpath
  cases hpath
  exact ⟨build_root, rfl, rfl, siblingsOf_path hle hfits hi⟩

variable {req : TransactRequest} {params : TransactParams}

include h hregistered hchain hhistory hsource in
theorem Mirrored.membershipProof_valid
    (hproof : buildMembershipProof P visit db address notePubkey membershipBlinding aspmemRoot aspmemLedger
      levels = .ok (.ok proof)) :
    (∃ key, tryFromLeBytes notePubkey.1 = some key ∧
        proof.leaf = aspMembershipLeaf P key membershipBlinding) ∧
      proof.blinding = membershipBlinding ∧ proof.root = aspmemRoot ∧
      LeadsTo P levels proof.leaf proof.pathElements proof.pathIndices aspmemRoot := by
  obtain ⟨key, i, stored, tree, path, hkey, hcheck, hstored, htree, hpath, rfl⟩ := buildMembershipProof_ok hproof
  obtain ⟨⟨last, hlast⟩, row, hrow, hleaf, hindex⟩ := check_userIndex hregistered hcheck
  obtain ⟨hroot, hfits⟩ := h.aspLeaves_root hchain hhistory hsource hstored hlast
  have hholds := (hhistory.holds hchain).1
  have hget : stored[i]? = some (aspMembershipLeaf P key membershipBlinding) :=
    (mem_zipIdx_of_sorted (collectAspLeaves_eq_ok.mp hstored).1).mpr ⟨row, hrow, hleaf, hindex⟩
  obtain ⟨-, hpathRoot, -, hleads⟩ := proof_leadsTo hholds.levels_pos hholds.levels_le hfits htree hpath hget
  rw [hroot] at hpathRoot hleads
  exact ⟨⟨key, hkey, rfl⟩, rfl, hpathRoot, hleads⟩

variable {poolAddress userAddress : String}

include h in
theorem Mirrored.inputs_valid (hchain : ZeroesChain host.permutation) (hreachable : System.Reachable host config x)
    (hsource : (poolAddress, Source.pool x) ∈ chain.sources)
    (hinputs : buildPoolInputs host.permutation db userAddress poolAddress poolNextIndex config.levels
      poolRoot commitments = .ok (.ok inputs)) :
    List.Forall₂ (ValidInput host.permutation db poolAddress userAddress config.levels poolRoot)
      commitments inputs := by
  unfold buildPoolInputs at hinputs
  split at hinputs
  · rename_i hempty
    rw [List.isEmpty_iff] at hempty
    cases hinputs
    rw [hempty]
    exact .nil
  · obtain ⟨validated, hvalidated, hcollect⟩ := bind_eq_ok hinputs
    cases validated with
    | error status => cases hcollect
    | ok built =>
      obtain ⟨leaves, tree, hleaves, -, htree, rfl, hroot⟩ := buildValidatedPoolTree_ok hvalidated
      have hrows := (collectLeaves_eq_ok.mp hleaves).1
      have hholds := (hreachable.recorded hchain).tree
      have hgrown : leaves <+: System.inserted x.accepted := by
        apply isPrefix_of_zipIdx
        rintro ⟨leaf, i⟩ hmem
        rw [mk_mem_zipIdx_iff_getElem?] at hmem
        obtain ⟨row, hrow, rfl, rfl⟩ := (mem_zipIdx_of_sorted hrows).mp hmem
        obtain ⟨hrow, hbelongs⟩ := mem_filter.mp hrow
        exact h.mem_commitments hsource hrow (beq_iff_eq.mp hbelongs)
      apply (collectInputs_ok hcollect).imp
      rintro commitment input ⟨leafIndex, note, path, hnote, hpath, rfl⟩
      obtain ⟨row, hrow, -, hcommitment, hindex, hbelongs⟩ := hnote.commitment
      have hget : leaves[leafIndex]? = some commitment := (mem_zipIdx_of_sorted hrows).mpr
          ⟨row, mem_filter.mpr ⟨hrow, beq_iff_eq.mpr hbelongs⟩, hcommitment, hindex⟩
      obtain ⟨hbuilt, -, hindices, hleads⟩ := proof_leadsTo hholds.levels_pos hholds.levels_le
        (hgrown.length_le.trans hholds.fits) htree hpath hget
      rw [← hbuilt, hroot] at hleads
      exact ⟨leafIndex, note, hnote, rfl, rfl, hindices, hleads⟩

section
include h hall hchain hhistory hsource

theorem Mirrored.lastAspRoot_complete (hne : leaves ≠ []) :
    ∃ last, Sdk.lastAspRoot db address = some (treeRoot P levels (leaves.map Nat.cast), last) := by
  obtain ⟨row, hrow, hroot⟩ := h.lastAspLeaf hchain hhistory hsource (fun entry hentry _ => hall entry hentry) hne
  obtain ⟨event, hevent, hid⟩ := hasEvent_iff.mp (h.aspLeaf_hasEvent row (lastAspLeaf_eq_some hrow).1)
  have hfound : db.event? row.eventId = some event := hid ▸ event?_of_mem hevent
  rw [(hhistory.holds hchain).1.root_eq] at hroot
  refine ⟨event.ledger, ?_⟩
  rw [ZMod.val_injective _ (Option.some.inj hroot)]
  simp [Sdk.lastAspRoot, hrow, hfound]

theorem Mirrored.aspLeaves_complete (hlt : leaves.length < 2 ^ 32) :
    getAllAspMembershipLeavesOrdered db address = .ok (leaves.map Nat.cast) := by
  rw [getAllAspMembershipLeavesOrdered, collectAspLeaves_eq_ok]
  refine ⟨?_, fun _ => by rw [length_map]; omega⟩
  exact insertionSort_of_perm_zipIdx (h.aspLeaves_perm hchain hhistory hsource fun entry hentry _ => hall entry hentry)

theorem Mirrored.mem_aspLeaves_complete {leaf : F} {i : Nat} :
    (∃ row ∈ aspLeavesOf db address, row.leaf = leaf ∧ row.leafIndex = i) ↔
      (leaves.map Nat.cast : List F)[i]? = some leaf := by
  rw [h.mem_aspLeavesOf_iff hchain hhistory hsource]
  refine ⟨And.left, fun hget => ⟨hget, ?_⟩⟩
  have hi := (List.getElem?_eq_some_iff.mp hget).1
  rw [length_map] at hi
  obtain ⟨entry, hentry⟩ := exists_entryAt hchain hhistory hsource hi
  exact ⟨entry, hentry, (hall entry hentry.mem.1).2⟩

include hregistered

theorem Mirrored.membershipProof_complete (hindexed : IndexedTo db address aspmemLedger) {key : F}
    (hkey : tryFromLeBytes notePubkey.1 = some key)
    (hleaf : aspMembershipLeaf P key membershipBlinding ∈ (leaves.map Nat.cast : List F))
    (hlt : leaves.length < 2 ^ 32) :
    ∃ proof, buildMembershipProof P visit db address notePubkey membershipBlinding
      (treeRoot P levels (leaves.map Nat.cast)) aspmemLedger levels = .ok (.ok proof) := by
  have hholds := (hhistory.holds hchain).1
  have hne : leaves ≠ [] := by
    rintro rfl
    cases hleaf
  obtain ⟨last, hlast⟩ := h.lastAspRoot_complete hall hchain hhistory hsource hne
  obtain ⟨k, hget⟩ := getElem?_of_mem hleaf
  obtain ⟨row, hrow, hrowLeaf, -⟩ := (h.mem_aspLeaves_complete hall hchain hhistory hsource).mpr hget
  have hcheck : ∃ i, checkAspMembershipPrecondition visit db address
      (aspMembershipLeaf P key membershipBlinding) (treeRoot P levels (leaves.map Nat.cast)) aspmemLedger =
        .ok (.userIndex i) := by
    rw [check_indexed hregistered hindexed, hlast]
    simp only [ne_eq, not_true_eq_false, if_false]
    cases hhead : (visit.order ((aspLeavesOf db address).filter
        (·.leaf == aspMembershipLeaf P key membershipBlinding))).head? with
    | some found => exact ⟨found.leafIndex, rfl⟩
    | none =>
      have hmem : row ∈ visit.order ((aspLeavesOf db address).filter
          (·.leaf == aspMembershipLeaf P key membershipBlinding)) :=
        (visit.perm _).symm.subset (mem_filter.mpr ⟨hrow, beq_iff_eq.mpr hrowLeaf⟩)
      rw [head?_eq_none_iff.mp hhead] at hmem
      cases hmem
  obtain ⟨i, hcheck⟩ := hcheck
  obtain ⟨-, hfound⟩ := check_userIndex hregistered hcheck
  have hi := (List.getElem?_eq_some_iff.mp ((h.mem_aspLeaves_complete hall hchain hhistory hsource).mp hfound)).1
  have hfits : (leaves.map Nat.cast : List F).length ≤ 2 ^ levels := hholds.fits
  have hproof := @build_proof P levels (leaves.map Nat.cast) hholds.levels_pos hholds.levels_le
    (ne_nil_of_length_pos (Nat.zero_lt_of_lt hi)) i (hi.trans_le hfits) hi
  unfold buildMembershipProof
  simp only [hkey, hcheck, Except.mapError, ok_bind, h.aspLeaves_complete hall hchain hhistory hsource hlt,
    new_eq hholds.levels_pos hholds.levels_le, hproof]
  exact ⟨_, rfl⟩

end

include h hall in
theorem Mirrored.inputs_complete (hrecorded : System.Recorded host config x)
    (hpool : (poolAddress, Source.pool x) ∈ chain.sources) (hlt : (System.inserted x.accepted).length < 2 ^ 32)
    (hnotes : ∀ commitment ∈ commitments, ∃ leafIndex note,
      UnspentNote db poolAddress userAddress commitment leafIndex note) :
    ∃ inputs, buildPoolInputs host.permutation db userAddress poolAddress
      (System.inserted x.accepted).length config.levels
      (treeRoot host.permutation config.levels (System.inserted x.accepted)) commitments = .ok (.ok inputs) := by
  have hleaves : getPoolCommitmentLeavesOrdered db poolAddress = .ok (System.inserted x.accepted) :=
    h.leaves_ordered hpool hall hlt
  have hholds := hrecorded.tree
  unfold buildPoolInputs buildValidatedPoolTree
  split
  · exact ⟨[], rfl⟩
  · simp only [hleaves, Except.mapError, ok_bind, ne_eq, not_true_eq_false, if_false,
      new_eq hholds.levels_pos hholds.levels_le, build_root]
    apply collectInputs_complete hnotes
    intro commitment leafIndex note hnote
    obtain ⟨row, hrow, -, rfl, rfl, hbelongs⟩ := hnote.commitment
    have hmem := h.mem_commitments hpool hrow hbelongs
    have hi := (List.getElem?_eq_some_iff.mp (mk_mem_zipIdx_iff_getElem?.mp hmem)).1
    exact ⟨_, build_proof hholds.levels_pos hholds.levels_le
      (ne_nil_of_length_pos (Nat.zero_lt_of_lt hi)) (hi.trans_le hholds.fits) hi⟩

/-- Whatever part of the events is stored and processed: parameters that are reported as ready
prove what is asked for. -/
theorem ready_params_valid (hrun : ClientRun codec derive chain db) {host : Pool.Host}
    (hchain : ZeroesChain host.permutation) {leaves : List U256} {s : AspMembership.Storage}
    (hhistory : AspMembership.History host.permutation req.treeDepth leaves s)
    (hasp : (req.aspmemContractId, Source.aspMembership s) ∈ chain.sources) {config : System.Config}
    {x : System.State} (hreachable : System.Reachable host config x) (hlevels : config.levels = req.treeDepth)
    (hpool : (req.poolAddress, Source.pool x) ∈ chain.sources)
    (hready : buildTransactParams host.permutation visit db random req = .ok (.ready params)) :
    (∃ keys key, getUserKeys db req.userAddress = some keys ∧
        params.privKey = keys.noteKeypair.privateKey ∧
        tryFromLeBytes keys.noteKeypair.publicKey.1 = some key ∧
        params.membershipProof.leaf = aspMembershipLeaf host.permutation key keys.membershipBlinding ∧
        params.membershipProof.blinding = keys.membershipBlinding) ∧
      params.membershipProof.root = req.aspmemRoot ∧
      LeadsTo host.permutation req.treeDepth params.membershipProof.leaf
        params.membershipProof.pathElements params.membershipProof.pathIndices req.aspmemRoot ∧
      ∃ poolRoot, req.poolRoot = some poolRoot ∧ params.poolRoot = poolRoot ∧
        List.Forall₂ (ValidInput host.permutation db req.poolAddress req.userAddress req.treeDepth poolRoot)
          req.inputCommitments params.inputs := by
  obtain ⟨hworking, hregistered⟩ := hrun.invariant
  obtain ⟨keys, poolRoot, hkeys, hprivate, hproof, hroot, hparams, hinputs⟩ := buildTransactParams_ready hready
  obtain ⟨⟨key, hkey, hleaf⟩, hblinding, hproofRoot, hleads⟩ :=
    hworking.mirrored.membershipProof_valid hregistered hchain hhistory hasp hproof
  rw [← hlevels] at hinputs
  have hvalid := hworking.mirrored.inputs_valid hchain hreachable hpool hinputs
  rw [hlevels] at hvalid
  exact ⟨⟨keys, key, hkeys, hprivate, hkey, hleaf, hblinding⟩, hproofRoot, hleads, poolRoot, hroot, hparams, hvalid⟩

end Valid

/-! A pool with four notes of one owner and a membership contract with one leaf, all processed. -/

section Sample
open PrivatePayments.System

/-- A ciphertext around an amount of five and a blinding factor below 256. -/
def fiveOutput (blinding : UInt8) : Bytes :=
  List.replicate 56 0 ++ (5 :: List.replicate 15 0) ++ (blinding :: List.replicate 31 0) ++ List.replicate 16 0

def plainCipher : Cipher := fun _ _ _ ciphertext => some (ciphertext.take 48)

def fiveNotes : DeriveNote := deriveUserNote flatPermutation plainCipher

def firstOutputs : Fin 2 → F × List UInt8 := ![(16, fiveOutput 10), (26, fiveOutput 20)]

def secondOutputs : Fin 2 → F × List UInt8 := ![(36, fiveOutput 30), (46, fiveOutput 40)]

def fivePublished : List Published :=
  [.newNullifier 0, .newNullifier 1, .newCommitment 16 0 (fiveOutput 10), .newCommitment 26 1 (fiveOutput 20),
    .newNullifier 2, .newNullifier 3, .newCommitment 36 2 (fiveOutput 30), .newCommitment 46 3 (fiveOutput 40)]

theorem exists_fives : ∃ x, Opened 2 x ∧ inserted x.accepted = [16, 26, 36, 46] ∧
    (Source.pool x).published = fivePublished := by
  obtain ⟨l, -, hfirst⟩ := opened_start.step (by decide) rfl firstOutputs
  obtain ⟨l', -, hsecond⟩ := hfirst.step (by decide) rfl secondOutputs
  refine ⟨_, hsecond, ?_, ?_⟩
  · rw [inserted_append, inserted_append]
    rfl
  · rw [Source.published, hsecond.recorded.events, events_append, events_append]
    rfl

def poolEntries (published : List Published) : List Entry :=
  published.zipIdx.map fun event =>
    ⟨String.ofList (List.replicate (event.2 + 1) 'b'), event.2 + 1, "A", event.1⟩

theorem poolEntries_ids (published : List Published) : ((poolEntries published).map Entry.id).Nodup := by
  have hids : (poolEntries published).map Entry.id =
      (published.zipIdx.map Prod.snd).map fun i => String.ofList (List.replicate (i + 1) 'b') := by
    rw [poolEntries, map_map, map_map]
    rfl
  rw [hids]
  apply (nodup_zipIdx_map_snd _).map
  intro i j heq
  simpa using congrArg String.length heq

theorem poolEntries_events (published : List Published) : (poolEntries published).map Entry.event = published := by
  rw [poolEntries, map_map]
  exact zipIdx_map_fst 0 published

variable {entry : Entry}

theorem aspEntries_contract (h : entry ∈ aspEntries s) :
    entry.contractId = "M" := by
  obtain ⟨event, -, rfl⟩ := mem_map.mp h
  rfl

theorem poolEntries_contract {published : List Published} (h : entry ∈ poolEntries published) :
    entry.contractId = "A" := by
  obtain ⟨event, -, rfl⟩ := mem_map.mp h
  rfl

theorem entries_disjoint (s : AspMembership.Storage) (published : List Published) :
    ((aspEntries s).map Entry.id).Disjoint ((poolEntries published).map Entry.id) := by
  intro id hasp hpool
  obtain ⟨entry, hentry, rfl⟩ := mem_map.mp hasp
  obtain ⟨other, hother, hid⟩ := mem_map.mp hpool
  obtain ⟨event, -, rfl⟩ := mem_map.mp hentry
  obtain ⟨event', -, rfl⟩ := mem_map.mp hother
  have hletters : List.replicate (event'.2 + 1) 'b' = List.replicate event.2 'a' := String.ofList_injective hid
  have hmem : 'b' ∈ List.replicate event.2 'a' := hletters ▸ mem_replicate.mpr ⟨by omega, rfl⟩
  exact absurd (eq_of_mem_replicate hmem) (by decide)

def bothChain {P : Permutation} {levels : Nat} {leaves : List U256} {s : AspMembership.Storage}
    (hchain : ZeroesChain P) (hhistory : AspMembership.History P levels leaves s) {host : Pool.Host}
    {config : Config} {x : State} (hchain' : ZeroesChain host.permutation)
    (hreachable : Reachable host config x) : Chain where
  sources := [("M", .aspMembership s), ("A", .pool x)]
  log := aspEntries s ++ poolEntries (Source.pool x).published
  genuine := by
    intro source hsource
    simp only [mem_cons, not_mem_nil, or_false] at hsource
    rcases hsource with rfl | rfl
    · exact .aspMembership hchain hhistory
    · exact .pool hchain' hreachable
  ids := by
    rw [map_append]
    exact (aspEntries_ids s).append (poolEntries_ids _) (entries_disjoint s _)
  emitted := by
    have hasp : ∀ entry ∈ aspEntries s, entry.contractId = "M" := fun _ => aspEntries_contract
    have hpool : ∀ entry ∈ poolEntries (Source.pool x).published, entry.contractId = "A" :=
      fun _ => poolEntries_contract
    intro source hsource
    simp only [mem_cons, not_mem_nil, or_false] at hsource
    rcases hsource with rfl | rfl
    · rw [filter_append, filter_eq_self.mpr (by simpa using hasp),
        filter_eq_nil_iff.mpr (by simp +contextual [hpool]), append_nil, aspEntries_events]
      rfl
    · rw [filter_append, filter_eq_nil_iff.mpr (by simp +contextual [hasp]),
        filter_eq_self.mpr (by simpa using hpool), nil_append, poolEntries_events]
  known := by
    intro entry hentry
    rcases mem_append.mp hentry with h | h
    · exact ⟨_, .head _, (aspEntries_contract h).symm⟩
    · exact ⟨_, .tail _ (.head _), (poolEntries_contract h).symm⟩

def fiveRows : List (F × Nat × Bytes) :=
  [(16, 0, fiveOutput 10), (26, 1, fiveOutput 20), (36, 2, fiveOutput 30), (46, 3, fiveOutput 40)]

def fiveQueries : List Query := fiveRows.map fun row => nullifierQuery flatPermutation ownerKey row.1 row.2.1

theorem fiveQueries_free : CollisionFree flatPermutation { q | q ∈ fiveQueries } := by
  have hnodup : (fiveQueries.map (Query.digest flatPermutation)).Nodup := by decide +kernel
  exact fun q hq q' hq' heq => inj_on_of_nodup_map hnodup hq hq' heq

theorem fives_decrypted : ∀ row ∈ fiveRows,
    decryptOutputNote plainCipher ownerKey row.2.2 = .ok (some (5, row.1 - 6)) ∧
      hash3 flatPermutation ((5 : Nat) : F) (fromLeBytesModOrder ownerKey.1) (row.1 - 6) 1 = row.1 ∧
      expectedNullifier flatPermutation ownerKey row.1 row.2.1 ∉ ([0, 1, 2, 3] : List F) := by
  decide +kernel

theorem fives_derived {row : PoolCommitment} (h : (row.commitment, row.leafIndex, row.encryptedOutput) ∈ fiveRows) :
    ∃ derived, fiveNotes ownerAccount row = .ok (some derived) ∧
      derived.expectedNullifier ∉ ([0, 1, 2, 3] : List F) := by
  obtain ⟨hdecrypt, hcommitment, hnullifier⟩ := fives_decrypted _ h
  exact ⟨_, deriveUserNote_eq_some hdecrypt (by decide) hcommitment, hnullifier⟩

section
variable {s : AspMembership.Storage} {x : State} {leaves : List U256} {entry : Entry}
  (hhistory : AspMembership.History flatPermutation 10 leaves s) (hx : Opened 2 x)
  (hpublished : (Source.pool x).published = fivePublished)

def fivesChain : Chain := bothChain flat_chain hhistory flat_chain hx.reachable

include hpublished

theorem fives_event (h : entry ∈ (fivesChain hhistory hx).log) :
    entry.event ∈ fivePublished ∨ ∃ event, entry.event = .ofLeaf event := by
  rcases mem_append.mp h with hasp | hpool
  · obtain ⟨event, -, rfl⟩ := mem_map.mp hasp
    exact .inr ⟨_, rfl⟩
  · left
    rw [← hpublished, ← poolEntries_events (Source.pool x).published]
    exact mem_map_of_mem hpool

theorem fives_commitment (h : entry ∈ (fivesChain hhistory hx).log) {commitment index : Nat} {output : Bytes}
    (hevent : entry.event = .newCommitment commitment index output) :
    ((commitment : F), index, output) ∈ fiveRows := by
  have hall : ∀ event ∈ fivePublished, ∀ commitment index output,
      event = .newCommitment commitment index output → ((commitment : F), index, output) ∈ fiveRows := by
    simp [fivePublished, fiveRows]
  rcases fives_event hhistory hx hpublished h with hmem | ⟨event, hleaf⟩
  · exact hall _ hmem _ _ _ hevent
  · rw [hevent] at hleaf
    cases hleaf

theorem fives_distinct : Distinct (fivesChain hhistory hx).log := by
  have hasp := aspChain_distinct s
  have hcommitments : (aspEntries s).filterMap (fun entry => entry.event.commitment?) = [] :=
    filterMap_eq_nil_iff.mpr fun entry hentry => by
      obtain ⟨event, -, rfl⟩ := mem_map.mp hentry
      rfl
  have hnullifiers : (aspEntries s).filterMap (fun entry => entry.event.nullifier?) = [] :=
    filterMap_eq_nil_iff.mpr fun entry hentry => by
      obtain ⟨event, -, rfl⟩ := mem_map.mp hentry
      rfl
  have hlog : (fivesChain hhistory hx).log = aspEntries s ++ poolEntries fivePublished := by
    rw [← hpublished]
    rfl
  rw [hlog]
  constructor
  · rw [filterMap_append, hcommitments]
    decide
  · rw [filterMap_append, hnullifiers]
    decide

theorem fives_solo : Solo flatPermutation plainCipher { q | q ∈ fiveQueries } unaryCodec
    (fivesChain hhistory hx) ownerAccount (ownerWallet (fivesChain hhistory hx)) := by
  have hloaded := ownerWallet_loaded (fivesChain hhistory hx)
  obtain ⟨hkeypairs, hlatest⟩ := ownerWallet_keypairs (fivesChain hhistory hx)
  refine ⟨.of_serviceable (hloaded.working _) ⟨?_, .inr ?_⟩ ?_, hloaded.discovered _, hlatest⟩
  · intro account haccount entry hentry commitment index output hevent
    rw [hlatest, mem_singleton] at haccount
    rw [ownerWallet_stored] at hentry
    have hrow := fives_commitment hhistory hx hpublished hentry hevent
    rw [haccount]
    exact decryptOutputNote_ok_iff.mp ⟨_, (fives_decrypted _ hrow).1⟩
  · have hsubset : poolAddresses (fivesChain hhistory hx).log ⊆ ["A"] := by
      intro address haddress
      obtain ⟨entry, hentry, hsome, rfl⟩ := mem_poolAddresses.mp haddress
      rcases mem_append.mp hentry with hasp | hpool
      · obtain ⟨event, -, rfl⟩ := mem_map.mp hasp
        cases hsome
      · rw [poolEntries_contract hpool]
        exact mem_singleton_self _
    have hle := (subperm_of_subset (nodup_dedup _) hsubset).length_le
    rw [ownerWallet_stored]
    exact hle.trans_lt (by decide)
  · intro account haccount entry hentry commitment index output hevent
    rw [hkeypairs, mem_singleton] at haccount
    rw [ownerWallet_stored] at hentry
    have hrow := fives_commitment hhistory hx hpublished hentry hevent
    rw [haccount]
    exact mem_map.mpr ⟨_, hrow, rfl⟩

theorem fives_nullifiers (hmirrored : Mirrored unaryCodec (fivesChain hhistory hx) db)
    {row : PoolNullifier} (hrow : row ∈ db.poolNullifiers.rows) : row.nullifier ∈ ([0, 1, 2, 3] : List F) := by
  have hall : ∀ event ∈ fivePublished, ∀ nullifier, event.nullifier? = some nullifier →
      nullifier ∈ ([0, 1, 2, 3] : List F) := by
    simp [fivePublished, Published.nullifier?]
  obtain ⟨entry, hentry, -, event, hsome, n, rfl⟩ := hmirrored.nullifiers row hrow
  have hvalue := nullifier?_value hsome
  rcases fives_event hhistory hx hpublished hentry with hmem | ⟨leaf, hleaf⟩
  · exact hall _ hmem _ hvalue
  · rw [hleaf] at hvalue
    cases hvalue

theorem fives_unspent (hinserted : inserted x.accepted = [16, 26, 36, 46])
    (hsolo : Solo flatPermutation plainCipher { q | q ∈ fiveQueries } unaryCodec (fivesChain hhistory hx)
      ownerAccount db)
    (hall : ∀ entry ∈ (fivesChain hhistory hx).log, db.hasEvent entry.id = true ∧ db.unprocessed entry.id = false)
    (hnotes : ∀ row ∈ db.poolCommitments.rows, ∀ derived, fiveNotes ownerAccount row = .ok (some derived) →
      HasNote db ownerAccount row) (howner : db.accounts.rows = ["owner"])
    (hcommitment : commitment ∈ ([16, 26, 36, 46] : List F)) :
    ∃ leafIndex note, UnspentNote db "A" "owner" commitment leafIndex note := by
  have hmirrored := hsolo.ready.working.mirrored
  have hpool : ("A", Source.pool x) ∈ (fivesChain hhistory hx).sources := .tail _ (.head _)
  rw [← hinserted] at hcommitment
  obtain ⟨i, hget⟩ := getElem?_of_mem hcommitment
  obtain ⟨entry, hentry, hcontract, n, output, hevent, rfl⟩ :=
    (Chain.mem_commitments hpool).mp (mk_mem_zipIdx_iff_getElem?.mpr hget)
  obtain ⟨id, hrow⟩ := hmirrored.commitment_row hentry (hall entry hentry).2 hevent
  have hlisted := fives_commitment hhistory hx hpublished hentry hevent
  obtain ⟨derived, hderived, hfresh⟩ := @fives_derived (commitmentRow id ⟨entry.id, n, i, output⟩) hlisted
  obtain ⟨note, hnote, haccount, hid⟩ := hnotes _ hrow derived hderived
  have hmem : ownerAccount ∈ getAccountsWithLatestKeypairs db := by
    rw [hsolo.account]
    exact mem_singleton_self _
  refine ⟨i, note, hnote, ?_, ?_, _, hrow, hid.symm, rfl, rfl, ?_⟩
  · rw [howner, haccount]
    rfl
  · apply hsolo.discovered.unspent hmem hrow hderived hnote haccount hid
    intro published hpublished' heq
    exact hfresh (heq ▸ fives_nullifiers hhistory hx hpublished hmirrored hpublished')
  · exact (hmirrored.attributed hentry (hall entry hentry).1).trans (congrArg some hcontract)

end

/-- Everything is stored and processed, and the membership contract is indexed to the ledger. -/
structure FivesSynced (ledger : Nat) (s : AspMembership.Storage) (x : State) (chain : Chain) (db : Db) :
    Prop where
  history : AspMembership.History flatPermutation 10 [1] s
  opened : Opened 2 x
  inserted : inserted x.accepted = [16, 26, 36, 46]
  membership : ("M", Source.aspMembership s) ∈ chain.sources
  pool : ("A", Source.pool x) ∈ chain.sources
  run : ClientRun unaryCodec fiveNotes chain db
  all : ∀ entry ∈ chain.log, db.hasEvent entry.id = true ∧ db.unprocessed entry.id = false
  indexed : IndexedTo db "M" ledger
  keys : getUserKeys db "owner" = some ownerAccount
  notes : ∀ commitment ∈ ([16, 26, 36, 46] : List F), ∃ leafIndex note,
    UnspentNote db "A" "owner" commitment leafIndex note

theorem ownerWallet_accounts (chain : Chain) : (ownerWallet chain).accounts.rows = ["owner"] := by
  apply saveEventsBatch_keeps (I := fun d => d.accounts.rows = ["owner"])
  · intro db event _ hdb
    exact hdb
  · rfl

theorem exists_synced (ledger : Nat) : ∃ s x chain db, FivesSynced ledger s x chain db := by
  obtain ⟨s, hhistory, -⟩ := AspMembership.exists_history flat_chain (show 1 ≤ 10 by decide)
    (by decide) (show ([1] : List F).length ≤ 2 ^ 10 by decide)
  obtain ⟨x, hx, hinserted, hpublished⟩ := exists_fives
  set chain := fivesChain hhistory hx
  have hstored := ownerWallet_stored chain
  obtain ⟨n, db, hafter, hsame, hsolo, hprocessed, hnotes⟩ :=
    (fives_solo hhistory hx hpublished).settles fiveQueries_free
      (by rw [hstored]; exact fives_distinct hhistory hx hpublished)
  have hrun : ClientRun unaryCodec fiveNotes chain db := by
    rw [← hafter]
    exact ((ownerWallet_loaded _).clientRun _).after n
  have hall : ∀ entry ∈ chain.log, db.hasEvent entry.id = true ∧ db.unprocessed entry.id = false := by
    intro entry hentry
    have hall := hsame.stored_eq.trans hstored
    rw [storedEntries, filter_eq_self] at hall
    rw [hstored] at hprocessed
    exact ⟨hall entry hentry, hprocessed entry hentry⟩
  have howner : db.accounts.rows = ["owner"] := by
    rw [hsame.accounts]
    exact ownerWallet_accounts chain
  have hunspent : ∀ commitment ∈ ([16, 26, 36, 46] : List F), ∃ leafIndex note,
      UnspentNote db "A" "owner" commitment leafIndex note :=
    fun _ => fives_unspent hhistory hx hpublished hinserted hsolo hall hnotes howner
  obtain ⟨hgrown, contracts, indexingMetadata, hframe⟩ := saveSyncProgress_frame [⟨"M", "", ledger, ledger⟩] true db
  have hrun' := hrun.tail (.saveSyncProgress [⟨"M", "", ledger, ledger⟩] true)
  have hindexed := @metadata?_saveSyncProgress db "M" [⟨"M", "", ledger, ledger⟩] ledger hrun.invariant.2
    (by simp) (by simp)
  rw [hframe] at hrun' hindexed hgrown
  refine ⟨s, x, chain, _, hhistory, hx, hinserted, .head _, .tail _ (.head _), hrun', hall, ?_, ?_, ?_⟩
  · obtain ⟨row, hrow, -, hledger⟩ := hindexed
    exact ⟨row, hrow, hledger.ge⟩
  · unfold getUserKeys
    dsimp only
    rw [hsame.keypairs, (ownerWallet_keypairs chain).1, howner]
    rfl
  · intro commitment hcommitment
    obtain ⟨leafIndex, note, hstored, hown, hmark, row, hrow, hid, hvalue, hindex, hbelongs⟩ :=
      hunspent commitment hcommitment
    refine ⟨leafIndex, note, hstored, hown, hmark, row, hrow, hid, hvalue, hindex, ?_⟩
    obtain ⟨contract, hcontract, haddress⟩ := Option.bind_eq_some_iff.mp hbelongs
    exact Option.bind_eq_some_iff.mpr ⟨contract, hcontract, getElem?_of_isPrefix hgrown haddress⟩

def fivesRequest : TransactRequest where
  userAddress := "owner"
  poolRoot := some (treeRoot flatPermutation 10 [16, 26, 36, 46])
  poolNextIndex := 4
  poolAddress := "A"
  extRecipient := "A"
  extAmount := 0
  aspmemRoot := treeRoot flatPermutation 10 [1]
  aspmemContractId := "M"
  aspmemLedger := 7
  inputCommitments := [16, 26]
  outputAmounts := ![10, 0]
  outRecipientNotePubkeys _ := none
  outRecipientEncryptionPubkeys _ := none
  smtDepth := 10
  treeDepth := 10
  nonMembershipProof := ⟨1, 0, 0, true, List.replicate 10 0, 0⟩

theorem fives_ready {x : State} {chain : Chain}
    (h : FivesSynced 7 s x chain db) (visit : Visit AspMembershipLeaf) :
    ∃ params, buildTransactParams flatPermutation visit db (fun _ => some 0) fivesRequest = .ok (.ready params) := by
  obtain ⟨hworking, hregistered⟩ := h.run.invariant
  have hleaf : aspMembershipLeaf flatPermutation 1 ownerAccount.membershipBlinding ∈
      ([1].map Nat.cast : List F) := by
    decide +kernel
  have hkey : tryFromLeBytes ownerAccount.noteKeypair.publicKey.1 = some 1 := by decide +kernel
  obtain ⟨proof, hproof⟩ := @Mirrored.membershipProof_complete _ _ _ _ _ _ visit _ _ _ _ _
    hworking.mirrored hregistered h.all flat_chain h.history h.membership h.indexed _ hkey hleaf (by decide)
  have hnotes : ∀ commitment ∈ fivesRequest.inputCommitments, ∃ leafIndex note,
      UnspentNote db "A" "owner" commitment leafIndex note := by
    intro commitment hcommitment
    apply h.notes
    simp only [fivesRequest, mem_cons, not_mem_nil, or_false] at hcommitment
    rcases hcommitment with rfl | rfl <;> simp
  obtain ⟨inputs, hinputs⟩ := hworking.mirrored.inputs_complete h.all h.opened.recorded h.pool
    (by rw [h.inserted]; decide) hnotes
  rw [h.inserted] at hinputs
  exact buildTransactParams_succeeds (by decide) h.keys hproof rfl hinputs fun i => ⟨_, rfl⟩

theorem ready_params_sample : ∃ (db : Db) (params : TransactParams),
    buildTransactParams flatPermutation (.asStored _) db (fun _ => some 0) fivesRequest =
      .ok (.ready params) ∧
    List.Forall₂ (ValidInput flatPermutation db "A" "owner" 10 (treeRoot flatPermutation 10 [16, 26, 36, 46]))
      [16, 26] params.inputs := by
  obtain ⟨s, x, chain, db, h⟩ := exists_synced 7
  obtain ⟨params, hready⟩ := fives_ready h (.asStored _)
  obtain ⟨-, -, -, poolRoot, hroot, -, hinputs⟩ := ready_params_valid h.run flat_chain h.history h.membership
    h.opened.reachable rfl h.pool hready
  rw [← Option.some.inj hroot] at hinputs
  exact ⟨db, params, hready, hinputs⟩

end Sample

end PrivatePayments.Sdk

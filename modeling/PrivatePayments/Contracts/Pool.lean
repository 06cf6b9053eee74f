import PrivatePayments.Contracts.Groth16Verifier
import PrivatePayments.Contracts.MerkleWithHistory

/-! `pool/src/pool.rs`: the privacy pool.  A call works on the ledger, that is the
pool's own storage and the balances of the token contracts; what other contracts
answer and who has signed the call is the context of the invocation. -/
namespace PrivatePayments.Contracts.Pool
open Groth16Verifier Function

inductive Error where
  | notAuthorized | merkleTreeFull | alreadyInitialized | wrongLevels | nextIndexNotEven
  | wrongExtAmount | invalidProof | unknownRoot | alreadySpentNullifier | wrongExtHash
  | notInitialized | overflow | nonCanonicalPublicInput
deriving DecidableEq, Repr

abbrev Result := Except (Abort Error)

def Error.ofMerkle : MerkleWithHistory.Error → Error
  | .alreadyInitialized => .alreadyInitialized
  | .merkleTreeFull => .merkleTreeFull
  | .wrongLevels => .wrongLevels
  | .nextIndexNotEven => .nextIndexNotEven
  | .notInitialized => .notInitialized
  | .overflow => .overflow

def liftMerkle {α : Type} : Except (Abort MerkleWithHistory.Error) α → Result α
  | .ok a => .ok a
  | .error (.error e) => .error (.error (.ofMerkle e))
  | .error .panic => .error .panic

/-- 32-byte strings are kept as the number they denote. -/
structure Proof where
  proof : Groth16Proof
  root : U256
  inputNullifiers : List U256
  outputCommitment0 : U256
  outputCommitment1 : U256
  publicAmount : U256
  extDataHash : U256
  aspMembershipRoot : U256
  aspNonMembershipRoot : U256

/-- `ext_amount` is an `I256`: at least `-2 ^ 255` and below `2 ^ 255`. -/
structure ExtData where
  recipient : Address
  extAmount : Int
  encryptedOutput0 : List UInt8
  encryptedOutput1 : List UInt8
deriving DecidableEq

inductive Event where
  | newNullifier (nullifier : U256)
  | newCommitment (commitment : U256) (index : Nat) (encryptedOutput : List UInt8)
deriving DecidableEq

/-- The entries of `DataKey` and `MerkleDataKey`, and the events published. -/
structure Storage where
  admin : Option Address
  token : Option Address
  verifier : Option Address
  maximumDepositAmount : Option U256
  nullifiers : Option (U256 → Option Bool)
  aspMembership : Option Address
  aspNonMembership : Option Address
  merkle : MerkleWithHistory.Storage
  events : List Event

def Storage.fresh : Storage where
  admin := none
  token := none
  verifier := none
  maximumDepositAmount := none
  nullifiers := none
  aspMembership := none
  aspNonMembership := none
  merkle := .fresh
  events := []

/-- The pool, and for each token contract the balance of each address. -/
structure Ledger where
  pool : Storage
  balance : Address → Address → Nat

/-- What does not change from call to call: the host functions, the address of
the pool, and the verification key embedded in the verifier at an address. -/
structure Host where
  permutation : Permutation
  keccakXdr : ExtData → Nat
  this : Address
  verificationKey : Address → VerificationKey

/-- What one invocation can see of the rest of the ledger.  A contract that is
called and fails, or is not there, traps the call. -/
structure Context where
  authorized : Address → Bool
  aspMembershipRoot : Address → Option U256
  aspNonMembershipRoot : Address → Option U256
  refused : Address → Address → Address → Nat → Bool
  budget : Nat

def trapIf (condition : Prop) [Decidable condition] : Result Unit :=
  if condition then .error .panic else .ok ()

/-- `TokenClient::transfer`: moves exactly `amount`, or traps.  A transfer to
oneself moves nothing. -/
def transfer (ctx : Context) (token source target : Address) (amount : Nat) (l : Ledger) :
    Result Ledger := do
  trapIf (ctx.refused token source target amount ∨ l.balance token source < amount)
  if source = target then
    return l
  trapIf (2 ^ 127 ≤ l.balance token target + amount)
  let debited := update (l.balance token) source (l.balance token source - amount)
  let credited := update debited target (l.balance token target + amount)
  return { l with balance := update l.balance token credited }

def constructor (admin token verifier aspMembership aspNonMembership : Address)
    (maximumDepositAmount : U256) (levels : Nat) (s : Storage) :
    Result (Unit × Storage) := do
  let (_, merkle) ← liftMerkle (MerkleWithHistory.init levels s.merkle)
  return ((), { s with
    admin := some admin
    token := some token
    verifier := some verifier
    aspMembership := some aspMembership
    aspNonMembership := some aspNonMembership
    maximumDepositAmount := some maximumDepositAmount
    nullifiers := some fun _ => none
    merkle })

def maxExtAmount : U256 := 2 ^ 248

def toI128 (v : Int) : Option Nat :=
  if -2 ^ 127 ≤ v ∧ v < 2 ^ 127 then some v.toNat else none

def i256ToI128Nonneg (v : Int) : Result Nat := do
  failIf (v < 0) .wrongExtAmount
  okOr (toI128 v) .wrongExtAmount

/-- `zero.sub(v)` traps on the smallest `I256`, which has no negative. -/
def i256Neg (v : Int) : Result Int := do
  trapIf (v = -2 ^ 255)
  return -v

def i256AbsToU256 (v : Int) : Result U256 := do
  if v ≥ 0 then
    return v.toNat
  else
    let abs ← i256Neg v
    return abs.toNat

def calculatePublicAmount (extAmount : Int) : Result U256 := do
  let absExt ← i256AbsToU256 extAmount
  failIf (absExt ≥ maxExtAmount) .wrongExtAmount
  if extAmount ≥ 0 then
    return extAmount.toNat
  else
    let neg ← i256Neg extAmount
    return bn256Modulus - neg.toNat

def isSpent (n : U256) (s : Storage) : Result Bool := do
  let nulls ← okOr s.nullifiers .notInitialized
  return (nulls n).getD false

def markSpent (n : U256) (s : Storage) : Result Storage := do
  let nulls ← okOr s.nullifiers .notInitialized
  return { s with nullifiers := some (update nulls n (some true)) }

def validateBn256PublicInput (value : U256) : Result Unit :=
  failIf (value ≥ bn256Modulus) .nonCanonicalPublicInput

def validateAll : List U256 → Result Unit
  | [] => .ok ()
  | value :: rest => do
      validateBn256PublicInput value
      validateAll rest

def validateBn256PublicInputs (proof : Proof) : Result Unit := do
  validateBn256PublicInput proof.root
  validateBn256PublicInput proof.publicAmount
  validateAll proof.inputNullifiers
  validateBn256PublicInput proof.outputCommitment0
  validateBn256PublicInput proof.outputCommitment1
  validateBn256PublicInput proof.aspMembershipRoot
  validateBn256PublicInput proof.aspNonMembershipRoot

/-- The public inputs in the order declared by the policy circuit. -/
def Proof.publicInputs (proof : Proof) : List F :=
  [(proof.root : F), (proof.publicAmount : F), (proof.extDataHash : F)] ++
    proof.inputNullifiers.map (fun n : Nat => (n : F)) ++
    [(proof.outputCommitment0 : F), (proof.outputCommitment1 : F)] ++
    List.replicate proof.inputNullifiers.length (proof.aspMembershipRoot : F) ++
    List.replicate proof.inputNullifiers.length (proof.aspNonMembershipRoot : F)

/-- The client of a contract unwraps its result. -/
def unwrap {α ε : Type} : Except ε α → Result α
  | .ok a => .ok a
  | .error _ => .error .panic

def verifyProof (host : Host) (proof : Proof) (s : Storage) : Result Bool := do
  failIf (proof.proof.isEmpty) .invalidProof
  let verifier ← okOr s.verifier .notInitialized
  validateBn256PublicInputs proof
  unwrap (verify (host.verificationKey verifier) proof.proof proof.publicInputs)

def hashExtData (host : Host) (ext : ExtData) : U256 := host.keccakXdr ext % bn256Modulus

def trapNone {α : Type} : Option α → Result α
  | some a => .ok a
  | none => .error .panic

def getAspMembershipRoot (ctx : Context) (s : Storage) : Result U256 := do
  let aspAddress ← okOr s.aspMembership .notInitialized
  trapNone (ctx.aspMembershipRoot aspAddress)

def getAspNonMembershipRoot (ctx : Context) (s : Storage) : Result U256 := do
  let aspAddress ← okOr s.aspNonMembership .notInitialized
  trapNone (ctx.aspNonMembershipRoot aspAddress)

def checkNullifiers (s : Storage) : List U256 → Result Unit
  | [] => .ok ()
  | n :: rest => do
      let spent ← isSpent n s
      failIf (spent = true) .alreadySpentNullifier
      checkNullifiers s rest

/-- Step 6 of `internal_transact`, which ignores the result of `mark_spent`. -/
def markNullifiers : List U256 → Storage → Storage
  | [], s => s
  | n :: rest, s =>
      let marked := match markSpent n s with
        | .ok s' => s'
        | .error _ => s
      markNullifiers rest { marked with events := marked.events ++ [.newNullifier n] }

/-- Steps 1 to 5 of `internal_transact`, which only read. -/
def checkTransact (host : Host) (ctx : Context) (proof : Proof) (ext : ExtData) (s : Storage) :
    Result Unit := do
  let known ← liftMerkle (MerkleWithHistory.isKnownRoot ctx.budget proof.root s.merkle)
  failIf (known = false) .unknownRoot
  checkNullifiers s proof.inputNullifiers
  failIf (hashExtData host ext ≠ proof.extDataHash) .wrongExtHash
  let expectedPublicAmount ← calculatePublicAmount ext.extAmount
  failIf (proof.publicAmount ≠ expectedPublicAmount) .wrongExtAmount
  let memberRoot ← getAspMembershipRoot ctx s
  let nonMemberRoot ← getAspNonMembershipRoot ctx s
  failIf (memberRoot ≠ proof.aspMembershipRoot ∨ nonMemberRoot ≠ proof.aspNonMembershipRoot)
    .invalidProof
  let valid ← verifyProof host proof s
  failIf (valid = false) .invalidProof

def withdraw (host : Host) (ctx : Context) (ext : ExtData) (l : Ledger) :
    Result Ledger := do
  let token ← okOr l.pool.token .notInitialized
  if ext.extAmount < 0 then
    let abs ← i256Neg ext.extAmount
    let amount ← i256ToI128Nonneg abs
    transfer ctx token host.this ext.recipient amount l
  else
    return l

def insertOutputs (host : Host) (proof : Proof) (ext : ExtData) (s : Storage) :
    Result Storage := do
  let ((idx0, idx1), merkle) ← liftMerkle (MerkleWithHistory.insertTwoLeaves host.permutation
    proof.outputCommitment0 proof.outputCommitment1 s.merkle)
  return { s with
    merkle
    events := s.events ++
      [.newCommitment proof.outputCommitment0 idx0 ext.encryptedOutput0,
        .newCommitment proof.outputCommitment1 idx1 ext.encryptedOutput1] }

def internalTransact (host : Host) (ctx : Context) (proof : Proof) (ext : ExtData) (l : Ledger) :
    Result (Unit × Ledger) := do
  checkTransact host ctx proof ext l.pool
  let marked := { l with pool := markNullifiers proof.inputNullifiers l.pool }
  let paid ← withdraw host ctx ext marked
  let pool ← insertOutputs host proof ext paid.pool
  return ((), { paid with pool })

def deposit (host : Host) (ctx : Context) (ext : ExtData) (sender : Address) (l : Ledger) :
    Result Ledger := do
  let token ← okOr l.pool.token .notInitialized
  if ext.extAmount > 0 then
    let max ← okOr l.pool.maximumDepositAmount .notInitialized
    failIf (ext.extAmount.toNat > max) .wrongExtAmount
    let amount ← i256ToI128Nonneg ext.extAmount
    transfer ctx token sender host.this amount l
  else
    return l

def transact (host : Host) (ctx : Context) (proof : Proof) (ext : ExtData) (sender : Address)
    (l : Ledger) : Result (Unit × Ledger) := do
  requireAuth ctx.authorized sender
  let l ← deposit host ctx ext sender l
  internalTransact host ctx proof ext l

def getRoot (s : Storage) : Result U256 :=
  liftMerkle (MerkleWithHistory.getLastRoot s.merkle)

def isKnownRoot (ctx : Context) (root : U256) (s : Storage) : Result Bool :=
  liftMerkle (MerkleWithHistory.isKnownRoot ctx.budget root s.merkle)

def asAdmin (ctx : Context) (set : Storage → Storage) (l : Ledger) :
    Result (Unit × Ledger) := do
  let admin ← okOr l.pool.admin .notInitialized
  requireAuth ctx.authorized admin
  return ((), { l with pool := set l.pool })

def updateAdmin (ctx : Context) (newAdmin : Address) :=
  asAdmin ctx fun s => { s with admin := some newAdmin }

def updateAspMembership (ctx : Context) (newAspMembership : Address) :=
  asAdmin ctx fun s => { s with aspMembership := some newAspMembership }

def updateAspNonMembership (ctx : Context) (newAspNonMembership : Address) :=
  asAdmin ctx fun s => { s with aspNonMembership := some newAspNonMembership }

/-! What each part of a successful call has checked and done. -/

variable {u : Unit}

section Helpers
variable {α ε : Type} {a : α}

theorem liftMerkle_eq_ok {x : Except (Abort MerkleWithHistory.Error) α} (h : liftMerkle x = .ok a) : x = .ok a := by
  unfold liftMerkle at h
  split at h <;> cases h
  rfl

theorem unwrap_eq_ok {x : Except ε α} (h : unwrap x = .ok a) : x = .ok a := by
  cases x <;> cases h
  rfl

variable {condition : Prop}

theorem trapIf_eq_ok [Decidable condition]
    (h : trapIf condition = .ok u) : ¬condition := by
  intro hc
  rw [trapIf, if_pos hc] at h
  cases h

theorem trapIf_neg [Decidable condition] (h : ¬condition) : trapIf condition = .ok () := if_neg h

end Helpers

variable {amount : Nat}

section Amounts
variable {v : Int}

theorem i256Neg_ok {w : Int} (h : i256Neg v = .ok w) : w = -v := by
  obtain ⟨_, _, h⟩ := bind_eq_ok h
  cases h
  rfl

theorem i256ToI128Nonneg_ok (h : i256ToI128Nonneg v = .ok amount) : (amount : Int) = v := by
  obtain ⟨_, hneg, h⟩ := bind_eq_ok h
  have hneg := failIf_eq_ok hneg
  have h := okOr_eq_ok h
  unfold toI128 at h
  split at h
  · cases h
    omega
  · cases h

theorem i256AbsToU256_ok (h : i256AbsToU256 v = .ok amount) : (amount : Int) = |v| := by
  unfold i256AbsToU256 at h
  split at h
  · rename_i hpos
    cases h
    rw [Int.toNat_of_nonneg hpos, abs_of_nonneg hpos]
  · rename_i hneg
    obtain ⟨abs, habs, h⟩ := bind_eq_ok h
    cases h
    rw [i256Neg_ok habs, Int.toNat_of_nonneg (by omega), abs_of_neg (by omega)]

theorem calculatePublicAmount_ok (h : calculatePublicAmount v = .ok amount) :
    |v| < 2 ^ 248 ∧ (amount : F) = ((v : Int) : F) := by
  obtain ⟨absExt, habs, h⟩ := bind_eq_ok h
  obtain ⟨_, hmax, h⟩ := bind_eq_ok h
  have habs := i256AbsToU256_ok habs
  have hmax : absExt < 2 ^ 248 := not_le.mp (failIf_eq_ok hmax)
  have hlt : |v| < 2 ^ 248 := by
    rw [← habs]
    exact_mod_cast hmax
  refine ⟨hlt, ?_⟩
  split at h
  · rename_i hpos
    cases h
    rw [← Int.cast_natCast, Int.toNat_of_nonneg hpos]
  · rename_i hneg
    obtain ⟨neg, hnegEq, h⟩ := bind_eq_ok h
    cases h
    rw [i256Neg_ok hnegEq]
    have hle : (-v).toNat ≤ bn256Modulus := by
      have hmod : (2 : Nat) ^ 248 ≤ bn256Modulus := by decide
      rw [abs_of_neg (by omega)] at hlt
      omega
    have hcast : (((-v).toNat : Nat) : F) = ((-v : Int) : F) := by
      rw [← Int.cast_natCast, Int.toNat_of_nonneg (by omega)]
    rw [Nat.cast_sub hle, hcast, ZMod.natCast_self, Int.cast_neg, zero_sub, neg_neg]

theorem calculatePublicAmount_eq (h : |v| < 2 ^ 248) :
    calculatePublicAmount v = .ok ((v : Int) : F).val := by
  have hmod : (2 : Nat) ^ 248 ≤ bn256Modulus := by decide
  have hbound := abs_lt.mp h
  obtain ⟨amount, hamount, hlt⟩ :
      ∃ amount : Nat, calculatePublicAmount v = .ok amount ∧ amount < bn256Modulus := by
    by_cases hpos : 0 ≤ v
    · refine ⟨v.toNat, ?_, by omega⟩
      rw [calculatePublicAmount, i256AbsToU256, if_pos hpos, if_pos hpos]
      change (do failIf (v.toNat ≥ maxExtAmount) Error.wrongExtAmount; _) = _
      rw [failIf_neg (by rw [maxExtAmount]; omega)]
      rfl
    · refine ⟨bn256Modulus - (-v).toNat, ?_, by omega⟩
      have hneg : i256Neg v = .ok (-v) := by
        rw [i256Neg, trapIf_neg (by omega)]
        rfl
      rw [calculatePublicAmount, i256AbsToU256, if_neg hpos, if_neg hpos, hneg]
      change (do failIf ((-v).toNat ≥ maxExtAmount) Error.wrongExtAmount; _) = _
      rw [failIf_neg (by rw [maxExtAmount]; omega)]
      rfl
  rw [hamount, ← (calculatePublicAmount_ok hamount).2, val_natCast_of_lt hlt]

theorem i256ToI128Nonneg_eq (h : amount < 2 ^ 127) : i256ToI128Nonneg amount = .ok amount := by
  rw [i256ToI128Nonneg, failIf_neg (by omega), toI128, if_pos ⟨by omega, by exact_mod_cast h⟩]
  rfl

end Amounts

variable {host : Host} {ctx : Context} {ext : ExtData} {l l' : Ledger}

section Transfer
variable {token source target sender : Address}

theorem transfer_ok (h : transfer ctx token source target amount l = .ok l') :
    l'.pool = l.pool ∧ amount ≤ l.balance token source ∧
      (source = target → l' = l) ∧
      (source ≠ target →
        l'.balance token source = l.balance token source - amount ∧
        l'.balance token target = l.balance token target + amount) := by
  obtain ⟨_, hfunds, h⟩ := bind_eq_ok h
  have hfunds := trapIf_eq_ok hfunds
  have hle : amount ≤ l.balance token source := by
    by_contra hc
    exact hfunds (.inr (by omega))
  split at h
  · rename_i hself
    cases h
    exact ⟨rfl, hle, fun _ => rfl, fun hne => absurd hself hne⟩
  · rename_i hne
    obtain ⟨_, _, h⟩ := bind_eq_ok h
    cases h
    refine ⟨rfl, hle, fun hself => absurd hself hne, fun _ => ⟨?_, ?_⟩⟩
    · simp [update_of_ne hne]
    · simp

/-- A transfer that the token does not refuse goes through if the source has the
funds and the target can hold them. -/
theorem transfer_accepted (hrefused : ctx.refused token source target amount = false)
    (hfunds : amount ≤ l.balance token source) (hreceive : l.balance token target + amount < 2 ^ 127) :
    ∃ l', transfer ctx token source target amount l = .ok l' := by
  have hok : ¬(ctx.refused token source target amount = true ∨ l.balance token source < amount) := by
    rw [hrefused]
    simp [hfunds]
  rw [transfer, trapIf_neg hok, ok_bind]
  split
  · exact ⟨_, rfl⟩
  · rw [trapIf_neg (by omega), ok_bind]
    exact ⟨_, rfl⟩

theorem deposit_ok (h : deposit host ctx ext sender l = .ok l') :
    ∃ token, l.pool.token = some token ∧ l'.pool = l.pool ∧ (sender ≠ host.this →
      (l'.balance token host.this : Int) = l.balance token host.this + max ext.extAmount 0) := by
  obtain ⟨token, htoken, h⟩ := bind_eq_ok h
  refine ⟨token, okOr_eq_ok htoken, ?_⟩
  split at h
  · obtain ⟨_, _, h⟩ := bind_eq_ok h
    obtain ⟨_, _, h⟩ := bind_eq_ok h
    obtain ⟨amount, hamount, h⟩ := bind_eq_ok h
    obtain ⟨hpool, _, _, hmoved⟩ := transfer_ok h
    have hamount := i256ToI128Nonneg_ok hamount
    refine ⟨hpool, fun hsender => ?_⟩
    have hbalance := (hmoved hsender).2
    omega
  · cases h
    exact ⟨rfl, fun _ => by omega⟩

theorem withdraw_ok (h : withdraw host ctx ext l = .ok l') :
    ∃ token, l.pool.token = some token ∧ l'.pool = l.pool ∧
      (l.balance token host.this : Int) + min ext.extAmount 0 ≤ l'.balance token host.this := by
  obtain ⟨token, htoken, h⟩ := bind_eq_ok h
  refine ⟨token, okOr_eq_ok htoken, ?_⟩
  split at h
  · obtain ⟨abs, habs, h⟩ := bind_eq_ok h
    obtain ⟨amount, hamount, h⟩ := bind_eq_ok h
    obtain ⟨hpool, hfunds, hself, hmoved⟩ := transfer_ok h
    have hamount := i256ToI128Nonneg_ok hamount
    rw [i256Neg_ok habs] at hamount
    refine ⟨hpool, ?_⟩
    by_cases hrecipient : host.this = ext.recipient
    · rw [hself hrecipient]
      omega
    · have hbalance := (hmoved hrecipient).1
      omega
  · cases h
    exact ⟨rfl, by omega⟩

theorem transfer_balance_le (h : transfer ctx token source target amount l = .ok l')
    (t a : Address) : l'.balance t a ≤ l.balance t a + amount := by
  obtain ⟨_, _, h⟩ := bind_eq_ok h
  split at h
  · cases h
    omega
  · obtain ⟨_, _, h⟩ := bind_eq_ok h
    cases h
    dsimp only
    by_cases ht : t = token
    · subst ht
      rw [update_self]
      by_cases htarget : a = target
      · rw [htarget, update_self]
      · rw [update_of_ne htarget]
        by_cases hsource : a = source
        · rw [hsource, update_self]
          omega
        · rw [update_of_ne hsource]
          omega
    · rw [update_of_ne ht]
      omega

theorem deposit_balance_le (h : deposit host ctx ext sender l = .ok l') (t a : Address) :
    l'.balance t a ≤ l.balance t a + ext.extAmount.toNat := by
  obtain ⟨_, _, h⟩ := bind_eq_ok h
  split at h
  · obtain ⟨_, _, h⟩ := bind_eq_ok h
    obtain ⟨_, _, h⟩ := bind_eq_ok h
    obtain ⟨amount, hamount, h⟩ := bind_eq_ok h
    have hle := transfer_balance_le h t a
    have hamount := i256ToI128Nonneg_ok hamount
    omega
  · cases h
    omega

theorem withdraw_balance_le (h : withdraw host ctx ext l = .ok l') (t a : Address) :
    l'.balance t a ≤ l.balance t a + (-ext.extAmount).toNat := by
  obtain ⟨_, _, h⟩ := bind_eq_ok h
  split at h
  · obtain ⟨abs, habs, h⟩ := bind_eq_ok h
    obtain ⟨amount, hamount, h⟩ := bind_eq_ok h
    have hle := transfer_balance_le h t a
    have hamount := i256ToI128Nonneg_ok hamount
    rw [i256Neg_ok habs] at hamount
    omega
  · cases h
    omega

end Transfer

variable {s : Storage}

section Nullifiers
variable {nulls : U256 → Option Bool}

theorem checkNullifiers_ok {ns : List U256} (hnulls : s.nullifiers = some nulls) :
    checkNullifiers s ns = .ok u ↔ ∀ n ∈ ns, (nulls n).getD false = false := by
  induction ns with
  | nil => simp [checkNullifiers]
  | cons n rest ih =>
    rw [checkNullifiers, isSpent, hnulls]
    simp only [okOr_some, ok_bind, pure, Except.pure, List.forall_mem_cons]
    constructor
    · intro h
      obtain ⟨_, hspent, h⟩ := bind_eq_ok h
      exact ⟨by simpa using failIf_eq_ok hspent, ih.mp h⟩
    · intro ⟨hhead, hrest⟩
      rw [failIf_neg (by simp [hhead])]
      exact ih.mpr hrest

theorem markNullifiers_eq (ns : List U256) (hnulls : s.nullifiers = some nulls) :
    markNullifiers ns s = { s with
      nullifiers := some fun n => if n ∈ ns then some true else nulls n
      events := s.events ++ ns.map .newNullifier } := by
  induction ns generalizing s nulls with
  | nil => simp [markNullifiers, ← hnulls]
  | cons n rest ih =>
    rw [markNullifiers, markSpent, hnulls]
    simp only [okOr_some, ok_bind, pure, Except.pure]
    rw [ih rfl]
    simp only [List.map_cons, List.append_assoc, List.singleton_append]
    congr 2
    funext m
    by_cases hrest : m ∈ rest
    · simp [hrest]
    · by_cases hm : m = n
      · simp [hm]
      · simp [hrest, hm]

end Nullifiers

variable {proof : Proof}

section Checks

theorem validateBn256PublicInput_ok {value : Nat} :
    validateBn256PublicInput value = .ok u ↔ value < bn256Modulus := by
  constructor
  · intro h
    exact not_le.mp (failIf_eq_ok h)
  · intro h
    exact failIf_neg (not_le.mpr h) _

theorem validateAll_ok {values : List U256} :
    validateAll values = .ok u ↔ ∀ v ∈ values, v < bn256Modulus := by
  induction values with
  | nil => simp [validateAll]
  | cons v rest ih =>
    rw [validateAll, List.forall_mem_cons, ← ih, ← validateBn256PublicInput_ok (u := ())]
    constructor
    · intro h
      obtain ⟨_, hv, h⟩ := bind_eq_ok h
      exact ⟨hv, h⟩
    · rintro ⟨hv, h⟩
      rw [hv]
      exact h

structure Canonical (proof : Proof) : Prop where
  root : proof.root < bn256Modulus
  publicAmount : proof.publicAmount < bn256Modulus
  inputNullifiers : ∀ n ∈ proof.inputNullifiers, n < bn256Modulus
  outputCommitment0 : proof.outputCommitment0 < bn256Modulus
  outputCommitment1 : proof.outputCommitment1 < bn256Modulus
  aspMembershipRoot : proof.aspMembershipRoot < bn256Modulus
  aspNonMembershipRoot : proof.aspNonMembershipRoot < bn256Modulus

theorem validateBn256PublicInputs_ok : validateBn256PublicInputs proof = .ok u ↔ Canonical proof := by
  constructor
  · intro h
    obtain ⟨_, hroot, h⟩ := bind_eq_ok h
    obtain ⟨_, hamount, h⟩ := bind_eq_ok h
    obtain ⟨_, hnullifiers, h⟩ := bind_eq_ok h
    obtain ⟨_, hout0, h⟩ := bind_eq_ok h
    obtain ⟨_, hout1, h⟩ := bind_eq_ok h
    obtain ⟨_, hmember, hnonMember⟩ := bind_eq_ok h
    rw [validateBn256PublicInput_ok] at hroot hamount hout0 hout1 hmember hnonMember
    exact ⟨hroot, hamount, validateAll_ok.mp hnullifiers, hout0, hout1, hmember, hnonMember⟩
  · rintro ⟨hroot, hamount, hnullifiers, hout0, hout1, hmember, hnonMember⟩
    rw [← validateBn256PublicInput_ok (u := ())] at hroot hamount hout0 hout1 hmember hnonMember
    rw [validateBn256PublicInputs, hroot, hamount, (validateAll_ok (u := ())).mpr hnullifiers, hout0, hout1,
      hmember, hnonMember]
    rfl

theorem verifyProof_ok {valid : Bool} (h : verifyProof host proof s = .ok valid) :
    ∃ verifier, s.verifier = some verifier ∧ Canonical proof ∧
      verify (host.verificationKey verifier) proof.proof proof.publicInputs = .ok valid := by
  obtain ⟨_, _, h⟩ := bind_eq_ok h
  obtain ⟨verifier, hverifier, h⟩ := bind_eq_ok h
  obtain ⟨_, hcanonical, h⟩ := bind_eq_ok h
  exact ⟨verifier, okOr_eq_ok hverifier, validateBn256PublicInputs_ok.mp hcanonical, unwrap_eq_ok h⟩

theorem verifyProof_canonical {verifier : Address} (hverifier : s.verifier = some verifier)
    (hcanonical : Canonical proof) :
    verifyProof host proof s = unwrap (verify (host.verificationKey verifier) proof.proof proof.publicInputs) := by
  rw [verifyProof, Groth16Proof.isEmpty_eq_false, failIf_neg (by simp), ok_bind, hverifier, okOr_some, ok_bind,
    (validateBn256PublicInputs_ok (u := ())).mpr hcanonical, ok_bind]

structure Checked (host : Host) (ctx : Context) (proof : Proof) (ext : ExtData) (s : Storage) :
    Prop where
  known : MerkleWithHistory.isKnownRoot ctx.budget proof.root s.merkle = .ok true
  unspent : checkNullifiers s proof.inputNullifiers = .ok ()
  extHash : hashExtData host ext = proof.extDataHash
  amount : calculatePublicAmount ext.extAmount = .ok proof.publicAmount
  memberRoot : getAspMembershipRoot ctx s = .ok proof.aspMembershipRoot
  nonMemberRoot : getAspNonMembershipRoot ctx s = .ok proof.aspNonMembershipRoot
  verified : verifyProof host proof s = .ok true

theorem checkTransact_ok : checkTransact host ctx proof ext s = .ok u ↔ Checked host ctx proof ext s := by
  constructor
  · intro h
    obtain ⟨known, hknown, h⟩ := bind_eq_ok h
    obtain ⟨_, hfound, h⟩ := bind_eq_ok h
    obtain ⟨_, hunspent, h⟩ := bind_eq_ok h
    obtain ⟨_, hhash, h⟩ := bind_eq_ok h
    obtain ⟨expected, hexpected, h⟩ := bind_eq_ok h
    obtain ⟨_, hamount, h⟩ := bind_eq_ok h
    obtain ⟨memberRoot, hmember, h⟩ := bind_eq_ok h
    obtain ⟨nonMemberRoot, hnonMember, h⟩ := bind_eq_ok h
    obtain ⟨_, hroots, h⟩ := bind_eq_ok h
    obtain ⟨valid, hvalid, hok⟩ := bind_eq_ok h
    have hroots := not_or.mp (failIf_eq_ok hroots)
    obtain rfl : known = true := by simpa using failIf_eq_ok hfound
    obtain rfl : valid = true := by simpa using failIf_eq_ok hok
    rw [← not_not.mp (failIf_eq_ok hamount)] at hexpected
    rw [not_not.mp hroots.1] at hmember
    rw [not_not.mp hroots.2] at hnonMember
    exact ⟨liftMerkle_eq_ok hknown, hunspent, not_not.mp (failIf_eq_ok hhash), hexpected, hmember, hnonMember, hvalid⟩
  · intro h
    rw [checkTransact, h.known, h.unspent, h.extHash, h.amount, h.memberRoot, h.nonMemberRoot, h.verified]
    simp [liftMerkle, failIf]

end Checks

section Calls
variable {sender : Address}

def recorded (proof : Proof) (ext : ExtData) (nulls : U256 → Option Bool) (index : Nat × Nat)
    (merkle : MerkleWithHistory.Storage) (s : Storage) : Storage :=
  { s with
    nullifiers := some fun n => if n ∈ proof.inputNullifiers then some true else nulls n
    merkle
    events := s.events ++ proof.inputNullifiers.map .newNullifier ++
      [.newCommitment proof.outputCommitment0 index.1 ext.encryptedOutput0,
        .newCommitment proof.outputCommitment1 index.2 ext.encryptedOutput1] }

structure Accepted (host : Host) (ctx : Context) (proof : Proof) (ext : ExtData) (sender : Address)
    (nulls : U256 → Option Bool) (l l' : Ledger) : Prop where
  authorized : ctx.authorized sender = true
  checked : Checked host ctx proof ext l.pool
  inserted : ∃ index merkle,
    MerkleWithHistory.insertTwoLeaves host.permutation proof.outputCommitment0
      proof.outputCommitment1 l.pool.merkle = .ok (index, merkle) ∧
    l'.pool = recorded proof ext nulls index merkle l.pool
  paid : sender ≠ host.this → ∃ token, l.pool.token = some token ∧
    (l.balance token host.this : Int) + ext.extAmount ≤ l'.balance token host.this

variable {nulls : U256 → Option Bool}

theorem transact_ok (hnulls : l.pool.nullifiers = some nulls)
    (h : transact host ctx proof ext sender l = .ok ((), l')) : Accepted host ctx proof ext sender nulls l l' := by
  obtain ⟨_, hauth, h⟩ := bind_eq_ok h
  obtain ⟨deposited, hdeposit, h⟩ := bind_eq_ok h
  obtain ⟨_, hchecked, h⟩ := bind_eq_ok h
  obtain ⟨paid, hwithdraw, h⟩ := bind_eq_ok h
  obtain ⟨pool, hinsert, h⟩ := bind_eq_ok h
  obtain ⟨⟨index, merkle⟩, hmerkle, hpool⟩ := bind_eq_ok hinsert
  cases h
  cases hpool
  obtain ⟨token, htoken, hsame, hdeposited⟩ := deposit_ok hdeposit
  obtain ⟨token', htoken', hkept, hwithdrawn⟩ := withdraw_ok hwithdraw
  have hmarked := markNullifiers_eq proof.inputNullifiers (hsame ▸ hnulls)
  rw [hmarked] at hkept htoken'
  rw [hkept] at hmerkle
  refine ⟨requireAuth_eq_ok hauth, hsame ▸ checkTransact_ok.mp hchecked, ?_, ?_⟩
  · refine ⟨index, merkle, hsame ▸ liftMerkle_eq_ok hmerkle, ?_⟩
    simp only [recorded, hkept, hsame]
  · intro hsender
    obtain rfl : token' = token := by
      rw [hsame, htoken] at htoken'
      exact (Option.some.inj htoken').symm
    have hdeposited := hdeposited hsender
    refine ⟨token', htoken, ?_⟩
    dsimp only at hwithdrawn ⊢
    omega

theorem transact_balance_le (h : transact host ctx proof ext sender l = .ok ((), l'))
    (t a : Address) : l'.balance t a ≤ l.balance t a + ext.extAmount.natAbs := by
  obtain ⟨_, _, h⟩ := bind_eq_ok h
  obtain ⟨deposited, hdeposit, h⟩ := bind_eq_ok h
  obtain ⟨_, _, h⟩ := bind_eq_ok h
  obtain ⟨paid, hwithdraw, h⟩ := bind_eq_ok h
  obtain ⟨pool, _, h⟩ := bind_eq_ok h
  cases h
  have hdeposited := deposit_balance_le hdeposit t a
  have hpaid := withdraw_balance_le hwithdraw t a
  dsimp only at hpaid ⊢
  omega

theorem Accepted.config (h : Accepted host ctx proof ext sender nulls l l') :
    l'.pool.aspMembership = l.pool.aspMembership ∧
      l'.pool.aspNonMembership = l.pool.aspNonMembership ∧
      l'.pool.maximumDepositAmount = l.pool.maximumDepositAmount := by
  obtain ⟨index, merkle, -, hpool⟩ := h.inserted
  rw [hpool]
  exact ⟨rfl, rfl, rfl⟩

end Calls

end PrivatePayments.Contracts.Pool

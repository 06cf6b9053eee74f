import PrivatePayments.Poseidon2

/-! What the contracts share: how an invocation fails, the checked integer
operations, and the Poseidon2 wrappers of `soroban-utils`. -/
namespace PrivatePayments.Contracts

/-- An invocation ends in an error the contract declares, or in a host trap. -/
inductive Abort (ε : Type) where
  | error (e : ε)
  | panic
deriving DecidableEq, Repr

variable {α β ε σ : Type}

/-- An account or a contract. -/
structure Address where
  id : Nat
deriving DecidableEq, Repr

def okOr (value : Option α) (e : ε) : Except (Abort ε) α :=
  match value with
  | some a => .ok a
  | none => .error (.error e)

def failIf (condition : Prop) [Decidable condition] (e : ε) : Except (Abort ε) Unit :=
  if condition then .error (.error e) else .ok ()

/-- `Address::require_auth`: traps unless the address has signed the call. -/
def requireAuth (authorized : Address → Bool) (address : Address) : Except (Abort ε) Unit :=
  if authorized address then .ok () else .error .panic

def checkedAdd (width a b : Nat) : Option Nat :=
  if a + b < 2 ^ width then some (a + b) else none

def checkedShl (bits : Nat) : Option Nat :=
  if bits < 64 then some (2 ^ bits) else none

def tryFromU32 (n : Nat) : Option Nat := if n < 2 ^ 32 then some n else none

/-- A contract call on the ledger: the storage of a failed call is discarded. -/
def invoke (f : σ → Except ε (α × σ)) (s : σ) : Except ε α × σ :=
  match f s with
  | .ok (a, s') => (.ok a, s')
  | .error e => (.error e, s)

/-- `poseidon2_compress`.  `hashed` is the trace of everything the host has been
asked to hash; it is not read by any contract. -/
def poseidon2Compress (P : Permutation) (left right : U256) (hashed : List Query) :
    Except (Abort ε) (U256 × List Query) :=
  if bn256Modulus ≤ left ∨ bn256Modulus ≤ right then .error .panic
  else
    let out0 := (P.t2 left right).val
    let compressed0 := out0 + left
    .ok (if bn256Modulus ≤ compressed0 then compressed0 % bn256Modulus else compressed0,
      hashed ++ [.compress left right])

def poseidon2Hash2 (P : Permutation) (a b : U256) (sep : Option U256) (hashed : List Query) :
    Except (Abort ε) (U256 × List Query) :=
  let sep := sep.getD 0
  if bn256Modulus ≤ a ∨ bn256Modulus ≤ b ∨ bn256Modulus ≤ sep then .error .panic
  else .ok ((P.t3 a b sep).val, hashed ++ [.hash2 a b sep])

@[simp] theorem okOr_some (a : α) (e : ε) : okOr (some a) e = .ok a := rfl

theorem okOr_eq_ok {value : Option α} {e : ε} {a : α} (h : okOr value e = .ok a) : value = some a := by
  cases value with
  | none => cases h
  | some b => cases h; rfl

theorem bind_eq_ok {x : Except ε α} {f : α → Except ε β} {b : β} (h : (x >>= f) = .ok b) :
    ∃ a, x = .ok a ∧ f a = .ok b := by
  cases x with
  | error e => cases h
  | ok a => exact ⟨a, rfl, h⟩

@[simp] theorem ok_bind (a : α) (f : α → Except ε β) : ((.ok a : Except ε α) >>= f) = f a := rfl

@[simp] theorem error_bind (e : ε) (f : α → Except ε β) : ((.error e : Except ε α) >>= f) = .error e := rfl

variable {condition : Prop}

theorem failIf_pos [Decidable condition] (h : condition) (e : ε) :
    failIf condition e = .error (.error e) := if_pos h

theorem failIf_neg [Decidable condition] (h : ¬condition) (e : ε) :
    failIf condition e = .ok () := if_neg h

theorem failIf_eq_ok [Decidable condition] {e : ε} {u : Unit}
    (h : failIf condition e = .ok u) : ¬condition := by
  intro hc
  rw [failIf_pos hc] at h
  cases h

theorem invoke_eq_error_iff {f : σ → Except ε (α × σ)} {s : σ} {e : ε}
    (hfail : condition → f s = .error e) (hok : ¬condition → ∃ a s', f s = .ok (a, s')) :
    invoke f s = (.error e, s) ↔ condition := by
  constructor
  · intro h
    by_contra hc
    obtain ⟨a, s', hs'⟩ := hok hc
    rw [invoke, hs'] at h
    cases h
  · intro hc
    rw [invoke, hfail hc]

theorem requireAuth_eq_ok {authorized : Address → Bool} {address : Address} {u : Unit}
    (h : requireAuth (ε := ε) authorized address = .ok u) : authorized address = true := by
  unfold requireAuth at h
  split at h
  · assumption
  · cases h

theorem mapError_eq_ok {ε ε' α : Type} {f : ε → ε'} {x : Except ε α} {a : α}
    (h : x.mapError f = .ok a) : x = .ok a := by
  cases x with
  | error e => cases h
  | ok b =>
    cases h
    rfl

theorem checkedAdd_eq_some {width a b c : Nat} (h : checkedAdd width a b = some c) :
    a + b < 2 ^ width ∧ c = a + b := by
  unfold checkedAdd at h
  split at h
  · cases h
    exact ⟨by assumption, rfl⟩
  · cases h

theorem checkedShl_eq_some {bits c : Nat} (h : checkedShl bits = some c) : bits < 64 ∧ c = 2 ^ bits := by
  unfold checkedShl at h
  split at h
  · cases h
    exact ⟨by assumption, rfl⟩
  · cases h

theorem tryFromU32_eq_some {n c : Nat} (h : tryFromU32 n = some c) : n < 2 ^ 32 ∧ c = n := by
  unfold tryFromU32 at h
  split at h
  · cases h
    exact ⟨by assumption, rfl⟩
  · cases h

theorem checkedAdd_eq {width a b : Nat} (h : a + b < 2 ^ width) : checkedAdd width a b = some (a + b) := if_pos h

theorem val_natCast_of_lt {n : Nat} (h : n < bn256Modulus) : ((n : Nat) : F).val = n :=
  ZMod.val_natCast_of_lt h

@[simp] theorem natCast_val (x : F) : ((x.val : Nat) : F) = x := ZMod.natCast_zmod_val x

theorem val_lt (x : F) : x.val < bn256Modulus := ZMod.val_lt x

theorem poseidon2Compress_val (P : Permutation) (left right : F) (hashed : List Query) :
    poseidon2Compress (ε := ε) P left.val right.val hashed =
      .ok ((compress P left right).val, hashed ++ [.compress left right]) := by
  unfold poseidon2Compress
  rw [if_neg (by have := val_lt left; have := val_lt right; omega)]
  simp only [natCast_val, compress, Query.digest, ZMod.val_add]
  congr 2
  split
  · rfl
  · rename_i h
    exact (Nat.mod_eq_of_lt (Nat.lt_of_not_le h)).symm

theorem poseidon2Compress_ok {P : Permutation} {left right h : Nat} {hashed hashed' : List Query}
    (hok : poseidon2Compress (ε := ε) P left right hashed = .ok (h, hashed')) :
    left < bn256Modulus ∧ right < bn256Modulus ∧ h = (compress P left right).val ∧
      hashed' = hashed ++ [.compress left right] := by
  by_cases hbad : bn256Modulus ≤ left ∨ bn256Modulus ≤ right
  · simp [poseidon2Compress, hbad] at hok
  · have hl : left < bn256Modulus := by omega
    have hr : right < bn256Modulus := by omega
    have hval := poseidon2Compress_val (ε := ε) P (left : F) (right : F) hashed
    rw [val_natCast_of_lt hl, val_natCast_of_lt hr, hok] at hval
    cases hval
    exact ⟨hl, hr, rfl, rfl⟩

theorem poseidon2Hash2_val (P : Permutation) (a b sep : F) (hashed : List Query) :
    poseidon2Hash2 (ε := ε) P a.val b.val (some sep.val) hashed =
      .ok ((hash2 P a b sep).val, hashed ++ [.hash2 a b sep]) := by
  unfold poseidon2Hash2
  have ha := val_lt a
  have hb := val_lt b
  have hs := val_lt sep
  rw [if_neg (by simp only [Option.getD_some]; omega)]
  simp [Query.digest]

end PrivatePayments.Contracts

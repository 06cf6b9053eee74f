import PrivatePayments.Contracts.SorobanUtils

/-! `public-key-registry/src/lib.rs`. -/
namespace PrivatePayments.Contracts.PublicKeyRegistry

structure Account where
  owner : Address
  encryptionKey : List UInt8
  noteKey : List UInt8
deriving DecidableEq

structure Storage where
  registration : Address → Option (List UInt8 × List UInt8)
  events : List Account

def Storage.fresh : Storage where
  registration _ := none
  events := []

def register (authorized : Address → Bool) (account : Account) (s : Storage) :
    Except (Abort Empty) (Unit × Storage) := do
  requireAuth authorized account.owner
  if account.encryptionKey.length ≠ 32 ∨ account.noteKey.length ≠ 32 then
    .error .panic
  let next := (account.encryptionKey, account.noteKey)
  if s.registration account.owner = some next then
    return ((), s)
  return ((), { s with
    registration := Function.update s.registration account.owner (some next)
    events := s.events ++ [account] })

inductive History : Storage → Prop where
  | start : History .fresh
  | call {authorized : Address → Bool} {account : Account} {s s' : Storage}
      (before : History s) (hcall : register authorized account s = .ok ((), s')) : History s'

theorem History.key_length {s : Storage} (h : History s) :
    ∀ account ∈ s.events, account.encryptionKey.length = 32 ∧ account.noteKey.length = 32 := by
  induction h with
  | start => simp [Storage.fresh]
  | @call authorized account s s' before hcall ih =>
    obtain ⟨_, _, hcall⟩ := bind_eq_ok hcall
    split at hcall
    · cases hcall
    · rename_i hlength
      rw [not_or, not_not, not_not] at hlength
      dsimp only at hcall
      split at hcall
      · cases hcall
        exact ih
      · cases hcall
        intro entry hentry
        rcases List.mem_append.mp hentry with hold | hnew
        · exact ih entry hold
        · rw [List.mem_singleton.mp hnew]
          exact hlength

end PrivatePayments.Contracts.PublicKeyRegistry

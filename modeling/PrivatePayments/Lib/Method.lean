import Mathlib.Logic.Relation

/-! Methods on a state that may fail half way: what was done before the error stays
done, unless it was part of a transaction. -/
namespace PrivatePayments.Lib

def Method (ε σ α : Type) : Type := σ → Except ε α × σ

namespace Method
variable {ε σ α β : Type}

instance : Monad (Method ε σ) where
  pure a := fun s => (.ok a, s)
  bind x next := fun s =>
    match x s with
    | (.ok a, s') => next a s'
    | (.error e, s') => (.error e, s')

/-- A transaction that is not committed changes nothing. -/
def transaction (body : σ → Except ε (α × σ)) : Method ε σ α := fun s =>
  match body s with
  | .ok (a, s') => (.ok a, s')
  | .error e => (.error e, s)

theorem pure_apply (a : α) (s : σ) : (pure a : Method ε σ α) s = (.ok a, s) := rfl

variable {s s' : σ} {x : Method ε σ α} {next : α → Method ε σ β}

theorem bind_of_ok {a : α} (h : x s = (.ok a, s')) : (x >>= next) s = next a s' := by
  change (match x s with | (.ok a, s') => next a s' | (.error e, s') => (.error e, s')) = _
  rw [h]

theorem bind_of_error {e : ε} (h : x s = (.error e, s')) : (x >>= next) s = (.error e, s') := by
  change (match x s with | (.ok a, s') => next a s' | (.error e, s') => (.error e, s')) = _
  rw [h]

theorem bind_eq_ok {b : β} (h : (x >>= next) s = (.ok b, s')) : ∃ a t, x s = (.ok a, t) ∧ next a t = (.ok b, s') := by
  rcases hx : x s with ⟨_ | a, t⟩
  · rw [bind_of_error hx] at h
    cases h
  · rw [bind_of_ok hx] at h
    exact ⟨a, t, rfl, h⟩

theorem pure_eq_ok {a b : α} (h : (pure a : Method ε σ α) s = (.ok b, s')) : a = b ∧ s = s' := by
  rw [pure_apply] at h
  exact ⟨Except.ok.inj (congrArg Prod.fst h), congrArg Prod.snd h⟩

variable {body : σ → Except ε (α × σ)}

theorem transaction_of_ok {a : α} (h : body s = .ok (a, s')) : transaction body s = (.ok a, s') := by
  rw [transaction, h]

theorem transaction_of_error {s : σ} {e : ε} (h : body s = .error e) : transaction body s = (.error e, s) := by
  rw [transaction, h]

theorem transaction_eq_ok {a : α} (h : transaction body s = (.ok a, s')) : body s = .ok (a, s') := by
  rcases hb : body s with e | ⟨b, t⟩
  · rw [transaction_of_error hb] at h
    cases h
  · rw [transaction_of_ok hb] at h
    cases h
    rfl

/-- Whatever the result, a call keeps what it found. -/
def Keeps (I : σ → Prop) (x : Method ε σ α) : Prop := ∀ s, I s → I (x s).2

section Keeps
variable {I : σ → Prop}

theorem keeps_pure (a : α) : Keeps I (pure a : Method ε σ α) := fun _ h => h

theorem Keeps.bind {x : Method ε σ α} {next : α → Method ε σ β} (hx : Keeps I x)
    (hnext : ∀ a, Keeps I (next a)) : Keeps I (x >>= next) := by
  intro s hs
  have hfirst := hx s hs
  rcases h : x s with ⟨e | a, t⟩
  · rw [h] at hfirst
    rwa [bind_of_error h]
  · rw [h] at hfirst
    rw [bind_of_ok h]
    exact hnext a t hfirst

end Keeps

/-- Whatever the result, a call is a sequence of steps. -/
def Steps (step : σ → σ → Prop) (x : Method ε σ α) : Prop :=
  ∀ s, Relation.ReflTransGen step s (x s).2

section Steps
variable {step : σ → σ → Prop}

theorem steps_pure (a : α) : Steps step (pure a : Method ε σ α) := fun _ => .refl

theorem Steps.bind {x : Method ε σ α} {next : α → Method ε σ β} (hx : Steps step x)
    (hnext : ∀ a, Steps step (next a)) : Steps step (x >>= next) := by
  intro s
  have hfirst := hx s
  rcases h : x s with ⟨e | a, t⟩
  · rw [h] at hfirst
    rwa [bind_of_error h]
  · rw [h] at hfirst
    rw [bind_of_ok h]
    exact hfirst.trans (hnext a t)

theorem steps_transaction {body : σ → Except ε (α × σ)}
    (h : ∀ s a s', body s = .ok (a, s') → Relation.ReflTransGen step s s') : Steps step (transaction body) := by
  intro s
  rcases hb : body s with e | ⟨a, s'⟩
  · rw [transaction_of_error hb]
  · rw [transaction_of_ok hb]
    exact h s a s' hb

end Steps

end Method

end PrivatePayments.Lib

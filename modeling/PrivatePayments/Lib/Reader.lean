import Mathlib.Data.List.Basic

/-! Readers that walk over a list of items, and the grammars they accept. -/
namespace PrivatePayments.Lib
open List

variable {ι ε α β : Type}

def Reader (ε α : Type) : Type := Nat → Except ε (α × Nat)

variable {x : Reader ε α} {next : α → Reader ε β}

namespace Reader

instance : Monad (Reader ε) where
  pure a := fun pos => .ok (a, pos)
  bind x next := fun pos =>
    match x pos with
    | .ok (a, mid) => next a mid
    | .error e => .error e

def position : Reader ε Nat := fun pos => .ok (pos, pos)

def seek (pos : Nat) : Reader ε Unit := fun _ => .ok ((), pos)

def fail (e : ε) : Reader ε α := fun _ => .error e

def failIf (condition : Prop) [Decidable condition] (e : ε) : Reader ε Unit :=
  if condition then fail e else pure ()

def okOr (value : Option α) (e : ε) : Reader ε α :=
  match value with
  | some a => pure a
  | none => fail e

def times (x : Reader ε α) : Nat → Reader ε (List α)
  | 0 => pure []
  | n + 1 => do
    let a ← x
    let rest ← times x n
    return a :: rest

section Run
variable {pos stop : Nat} {a : α} {b : β}

theorem pure_eq_ok {a' : α} : (pure a : Reader ε α) pos = .ok (a', stop) ↔ a = a' ∧ pos = stop := by
  change Except.ok (a, pos) = _ ↔ _
  simp

theorem bind_of_ok {mid : Nat} (h : x pos = .ok (a, mid)) : (x >>= next) pos = next a mid := by
  change (match x pos with | .ok (a, mid) => next a mid | .error e => .error e) = _
  rw [h]

theorem bind_eq_ok :
    (x >>= next) pos = .ok (b, stop) ↔ ∃ a mid, x pos = .ok (a, mid) ∧ next a mid = .ok (b, stop) := by
  constructor
  · intro h
    change (match x pos with | .ok (a, mid) => next a mid | .error e => .error e) = _ at h
    split at h
    · rename_i a mid hx
      exact ⟨a, mid, hx, h⟩
    · cases h
  · rintro ⟨a, mid, hx, hnext⟩
    rw [bind_of_ok hx, hnext]

@[simp] theorem position_eq_ok {mid : Nat} : (position : Reader ε Nat) pos = .ok (mid, stop) ↔ pos = mid ∧ pos = stop := by
  simp [position]

@[simp] theorem fail_eq_ok {e : ε} : (fail e : Reader ε α) pos = .ok (a, stop) ↔ False := by
  simp [fail]

@[simp] theorem failIf_eq_ok {condition : Prop} [Decidable condition] {e : ε} :
    (failIf condition e : Reader ε Unit) pos = .ok ((), stop) ↔ ¬condition ∧ pos = stop := by
  unfold failIf
  split
  · simp_all
  · simp_all [pure_eq_ok]

@[simp] theorem okOr_eq_ok {value : Option α} {e : ε} :
    (okOr value e : Reader ε α) pos = .ok (a, stop) ↔ value = some a ∧ pos = stop := by
  cases value with
  | none => simp [okOr]
  | some a => simp [okOr, pure_eq_ok]

theorem times_succ_eq_ok {n : Nat} {values : List α} : x.times (n + 1) pos = .ok (values, stop) ↔
    ∃ a rest mid, values = a :: rest ∧ x pos = .ok (a, mid) ∧ x.times n mid = .ok (rest, stop) := by
  constructor
  · intro h
    obtain ⟨a, mid, hfirst, h⟩ := bind_eq_ok.mp h
    obtain ⟨rest, _, hrest, h⟩ := bind_eq_ok.mp h
    obtain ⟨rfl, rfl⟩ := pure_eq_ok.mp h
    exact ⟨a, rest, mid, rfl, hfirst, hrest⟩
  · rintro ⟨a, rest, mid, rfl, hfirst, hrest⟩
    rw [times, bind_of_ok hfirst, bind_of_ok hrest]
    rfl

end Run

end Reader

/-- The items of `chunk` stand in `data` from a position on. -/
def StandsAt (data : List ι) (pos : Nat) (chunk : List ι) : Prop :=
  ∃ front rest, front.length = pos ∧ data = front ++ chunk ++ rest

namespace StandsAt
variable {data chunk first second : List ι} {pos : Nat}

theorem le (h : StandsAt data pos chunk) : pos + chunk.length ≤ data.length := by
  obtain ⟨front, rest, rfl, rfl⟩ := h
  simp

theorem of_le {n : Nat} (h : pos + n ≤ data.length) : StandsAt data pos ((data.drop pos).take n) := by
  refine ⟨data.take pos, (data.drop pos).drop n, ?_, ?_⟩
  · rw [length_take]
    omega
  · rw [append_assoc, take_append_drop, take_append_drop]

theorem nil (h : pos ≤ data.length) : StandsAt data pos [] := by
  have hfirst := of_le (n := 0) h
  rwa [take_zero] at hfirst

theorem eq_take (h : StandsAt data pos chunk) : (data.drop pos).take chunk.length = chunk := by
  obtain ⟨front, rest, rfl, rfl⟩ := h
  rw [append_assoc, drop_left, take_left]

theorem unique (hfirst : StandsAt data pos first) (hsecond : StandsAt data pos second)
    (hlength : first.length = second.length) : first = second := by
  rw [← hfirst.eq_take, ← hsecond.eq_take, hlength]

theorem append_iff : StandsAt data pos (first ++ second) ↔
    StandsAt data pos first ∧ StandsAt data (pos + first.length) second := by
  constructor
  · rintro ⟨front, rest, rfl, rfl⟩
    refine ⟨⟨front, second ++ rest, rfl, ?_⟩, front ++ first, rest, length_append, ?_⟩
    · simp only [append_assoc]
    · simp only [append_assoc]
  · rintro ⟨⟨front, rest, rfl, rfl⟩, hsecond⟩
    have hdrop : (front ++ first ++ rest).drop (front.length + first.length) = rest := by
      rw [← length_append, drop_left]
    have htake := hsecond.eq_take
    rw [hdrop] at htake
    refine ⟨front, rest.drop second.length, rfl, ?_⟩
    nth_rewrite 1 [← take_append_drop second.length rest, htake]
    simp only [append_assoc]

end StandsAt

def Grammar (ι α : Type) : Type := List ι → α → Prop

namespace Grammar

def only (a : α) : Grammar ι α := fun chunk b => chunk = [] ∧ a = b

def seq (G : Grammar ι α) (H : α → Grammar ι β) : Grammar ι β :=
  fun chunk b => ∃ first second a, chunk = first ++ second ∧ G first a ∧ H a second b

def times (G : Grammar ι α) : Nat → Grammar ι (List α)
  | 0 => only []
  | n + 1 => G.seq fun a => (times G n).seq fun rest => only (a :: rest)

def encoded {ρ : Type} (encode : ρ → List ι) (value : ρ → α) : Grammar ι α :=
  fun chunk a => ∃ r, chunk = encode r ∧ value r = a

theorem times_encoded {ρ : Type} (encode : ρ → List ι) (value : ρ → α) (n : Nat) (chunk : List ι)
    (values : List α) : (encoded encode value).times n chunk values ↔
      ∃ rs : List ρ, rs.length = n ∧ chunk = rs.flatMap encode ∧ rs.map value = values := by
  induction n generalizing chunk values with
  | zero =>
    constructor
    · rintro ⟨rfl, rfl⟩
      exact ⟨[], rfl, rfl, rfl⟩
    · rintro ⟨rs, hlength, rfl, rfl⟩
      rw [length_eq_zero_iff.mp hlength]
      exact ⟨rfl, rfl⟩
  | succ n ih =>
    constructor
    · rintro ⟨_, _, _, rfl, ⟨r, rfl, rfl⟩, second, _, rest, rfl, hrest, rfl, rfl⟩
      obtain ⟨rs, rfl, rfl, rfl⟩ := (ih second rest).mp hrest
      exact ⟨r :: rs, rfl, by simp, rfl⟩
    · rintro ⟨_ | ⟨r, rs⟩, hlength, rfl, rfl⟩
      · simp at hlength
      · have hrest := (ih (rs.flatMap encode) (rs.map value)).mpr ⟨rs, by simpa using hlength, rfl, rfl⟩
        exact ⟨encode r, rs.flatMap encode, value r, rfl, ⟨r, rfl, rfl⟩, rs.flatMap encode, [], rs.map value,
          by simp, hrest, rfl, rfl⟩

end Grammar

/-- From every position inside `data`, the reader returns what its grammar derives from the items there,
and stops behind them. -/
def Reader.Accepts (data : List ι) (x : Reader ε α) (G : Grammar ι α) : Prop :=
  ∀ pos, pos ≤ data.length → ∀ a stop,
    x pos = .ok (a, stop) ↔ ∃ chunk, G chunk a ∧ StandsAt data pos chunk ∧ stop = pos + chunk.length

namespace Reader.Accepts
variable {data : List ι} {G G' : Grammar ι α} {H : α → Grammar ι β}

theorem congr (hx : x.Accepts data G) (h : ∀ chunk a, G chunk a ↔ G' chunk a) : x.Accepts data G' := by
  intro pos hpos a stop
  simp only [hx pos hpos a stop, h]

theorem pure (a : α) : (Pure.pure a : Reader ε α).Accepts data (.only a) := by
  intro pos hpos b stop
  rw [Reader.pure_eq_ok]
  constructor
  · rintro ⟨rfl, rfl⟩
    exact ⟨[], ⟨rfl, rfl⟩, .nil hpos, rfl⟩
  · rintro ⟨chunk, ⟨rfl, rfl⟩, _, rfl⟩
    exact ⟨rfl, rfl⟩

theorem failIf {condition : Prop} [Decidable condition] {e : ε} :
    (Reader.failIf condition e : Reader ε Unit).Accepts data fun chunk _ => chunk = [] ∧ ¬condition := by
  intro pos hpos u stop
  rw [Reader.failIf_eq_ok]
  constructor
  · rintro ⟨hcondition, rfl⟩
    exact ⟨[], ⟨rfl, hcondition⟩, .nil hpos, rfl⟩
  · rintro ⟨chunk, ⟨rfl, hcondition⟩, _, rfl⟩
    exact ⟨hcondition, rfl⟩

theorem bind (hx : x.Accepts data G) (hnext : ∀ a, (next a).Accepts data (H a)) :
    (x >>= next).Accepts data (G.seq H) := by
  intro pos hpos b stop
  rw [Reader.bind_eq_ok]
  constructor
  · rintro ⟨a, mid, hfirst, hsecond⟩
    obtain ⟨first, hG, hstands, rfl⟩ := (hx pos hpos a mid).mp hfirst
    obtain ⟨second, hH, hstands', rfl⟩ := (hnext a _ hstands.le b stop).mp hsecond
    refine ⟨first ++ second, ⟨first, second, a, rfl, hG, hH⟩, StandsAt.append_iff.mpr ⟨hstands, hstands'⟩, ?_⟩
    rw [length_append, Nat.add_assoc]
  · rintro ⟨chunk, ⟨first, second, a, rfl, hG, hH⟩, hstands, rfl⟩
    obtain ⟨hfirst, hsecond⟩ := StandsAt.append_iff.mp hstands
    refine ⟨a, pos + first.length, (hx pos hpos a _).mpr ⟨first, hG, hfirst, rfl⟩, ?_⟩
    rw [hnext a _ hfirst.le b, length_append, ← Nat.add_assoc]
    exact ⟨second, hH, hsecond, rfl⟩

theorem times (hx : x.Accepts data G) (n : Nat) : (x.times n).Accepts data (G.times n) := by
  induction n with
  | zero => exact .pure []
  | succ n ih => exact hx.bind fun a => ih.bind fun rest => .pure (a :: rest)

end Reader.Accepts

end PrivatePayments.Lib

import Mathlib.Data.Nat.ModEq
import Mathlib.Logic.Function.Basic

/-! A ring of `size` slots into which a sequence is written, entry `j` into slot
`j % size`.  The ring then holds the last `size` entries and nothing else. -/
namespace PrivatePayments.Lib.RingWindow
open Function

variable {α : Type} {size n : Nat} {history : Nat → α} {slots : Nat → Option α}

/-- The slots after the entries `0, …, n` of the history have been written. -/
structure Window (size : Nat) (history : Nat → α) (n : Nat) (slots : Nat → Option α) : Prop where
  recent : ∀ j, j ≤ n → n < j + size → slots (j % size) = some (history j)
  unset : ∀ i, i < size → n < i → slots i = none

theorem Window.congr {other : Nat → α} (h : Window size history n slots)
    (heq : ∀ j, j ≤ n → history j = other j) : Window size other n slots where
  recent j hj hwin := by rw [h.recent j hj hwin, heq j hj]
  unset := h.unset

theorem Window.single (size : Nat) (history : Nat → α) :
    Window size history 0 (update (fun _ => none) 0 (some (history 0))) where
  recent j hj _ := by
    obtain rfl : j = 0 := by omega
    simp
  unset i _ hi := update_of_ne (by omega) _ _

theorem mod_ne_of_lt {i j : Nat} (hlt : i < j) (hwin : j < i + size) : i % size ≠ j % size := by
  intro heq
  have hdvd : size ∣ j - i := (Nat.modEq_iff_dvd' hlt.le).mp heq
  have := Nat.le_of_dvd (by omega) hdvd
  omega

theorem Window.push (h : Window size history n slots) :
    Window size history (n + 1)
      (update slots ((n + 1) % size) (some (history (n + 1)))) where
  recent j hj hwin := by
    by_cases hlast : j = n + 1
    · rw [hlast, update_self]
    · rw [update_of_ne (mod_ne_of_lt (by omega) hwin), h.recent j (by omega) (by omega)]
  unset i hi hn := by
    have hslot : (n + 1) % size ≤ n + 1 := Nat.mod_le _ _
    rw [update_of_ne (by omega), h.unset i hi (by omega)]

theorem Window.mem_iff (h : Window size history n slots) {value : α} :
    (∃ i, i < size ∧ slots i = some value) ↔ ∃ j, j ≤ n ∧ n < j + size ∧ history j = value := by
  constructor
  · rintro ⟨i, hi, hslot⟩
    have hin : i ≤ n := by
      by_contra hlt
      rw [h.unset i hi (by omega)] at hslot
      cases hslot
    -- The newest entry that was written to slot `i`.
    have hmod : (n - i) % size < size := Nat.mod_lt _ (by omega)
    have hle : (n - i) % size ≤ n - i := Nat.mod_le _ _
    have hslotOf : (n - (n - i) % size) % size = i := by
      have hsum := Nat.div_add_mod (n - i) size
      have hj : n - (n - i) % size = i + size * ((n - i) / size) := by omega
      rw [hj, Nat.add_mul_mod_self_left, Nat.mod_eq_of_lt hi]
    refine ⟨n - (n - i) % size, by omega, by omega, ?_⟩
    have hrecent := h.recent (n - (n - i) % size) (by omega) (by omega)
    rw [hslotOf, hslot] at hrecent
    exact (Option.some.inj hrecent).symm
  · rintro ⟨j, hj, hwin, rfl⟩
    exact ⟨j % size, Nat.mod_lt _ (by omega), h.recent j hj hwin⟩

theorem exists_turn_iff {start : Nat} (hstart : start < size) {p : Nat → Prop} :
    (∃ u, u < size ∧ p ((start + u) % size)) ↔ ∃ i, i < size ∧ p i := by
  constructor
  · rintro ⟨u, _, hu⟩
    exact ⟨_, Nat.mod_lt _ (by omega), hu⟩
  · rintro ⟨i, hi, hp⟩
    by_cases hle : start ≤ i
    · exact ⟨i - start, by omega, by rwa [Nat.add_sub_cancel' hle, Nat.mod_eq_of_lt hi]⟩
    · refine ⟨i + size - start, by omega, ?_⟩
      rwa [show start + (i + size - start) = i + size by omega, Nat.add_mod_right, Nat.mod_eq_of_lt hi]

theorem turn_eq_start_iff {start t : Nat} (hstart : start < size) (ht : t < size) :
    (start + t + 1) % size = start ↔ t + 1 = size := by
  constructor
  · intro heq
    by_contra hne
    have hdiff : start % size ≠ (start + t + 1) % size := mod_ne_of_lt (by omega) (by omega)
    rw [heq, Nat.mod_eq_of_lt hstart] at hdiff
    exact hdiff rfl
  · intro heq
    rw [Nat.add_assoc, heq, Nat.add_mod_right, Nat.mod_eq_of_lt hstart]

end PrivatePayments.Lib.RingWindow

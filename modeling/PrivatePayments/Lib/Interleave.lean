import Mathlib.Logic.Function.Basic
import Mathlib.Logic.Relation

/-! Processes that take turns on a shared state. -/
namespace PrivatePayments.Lib
open Function

variable {ι σ π : Type} [DecidableEq ι]

/-- One of the processes takes a step, or the shared state changes by itself. -/
inductive Interleave (step : ι → σ × π → σ × π → Prop) (environment : σ → σ → Prop) :
    σ × (ι → π) → σ × (ι → π) → Prop where
  | process {s s' : σ} {locals : ι → π} {p : π} (i : ι) (h : step i (s, locals i) (s', p)) :
      Interleave step environment (s, locals) (s', update locals i p)
  | environment {s s' : σ} {locals : ι → π} (h : environment s s') :
      Interleave step environment (s, locals) (s', locals)

variable {step : ι → σ × π → σ × π → Prop} {environment : σ → σ → Prop} {I : σ → Prop}
  {L : ι → σ → π → Prop} {G : σ → σ → Prop}

/-- What the processes keep of the shared state and each of its own, where growth of the shared
state does not harm what the others rely on. -/
theorem Interleave.invariant
    (hstep : ∀ i s p s' p', I s → L i s p → step i (s, p) (s', p') → I s' ∧ L i s' p' ∧ G s s')
    (henvironment : ∀ s s', I s → environment s s' → I s' ∧ G s s') (hgrows : ∀ i s s' p, G s s' → L i s p → L i s' p)
    {s s' : σ} {locals locals' : ι → π}
    (hrun : Relation.ReflTransGen (Interleave step environment) (s, locals) (s', locals'))
    (hI : I s) (hL : ∀ i, L i s (locals i)) : I s' ∧ ∀ i, L i s' (locals' i) := by
  generalize hstart : (s, locals) = start at hrun
  generalize hend : (s', locals') = last at hrun
  induction hrun generalizing s' locals' with
  | refl =>
    cases hstart.trans hend.symm
    exact ⟨hI, hL⟩
  | @tail middle _ _ hlast ih =>
    obtain ⟨hI', hL'⟩ := @ih middle.1 middle.2 rfl
    subst hend
    cases hlast with
    | process j h =>
      obtain ⟨hI'', hown, hgrow⟩ := hstep j _ _ _ _ hI' (hL' j) h
      refine ⟨hI'', fun i => ?_⟩
      by_cases hij : i = j
      · subst hij
        rwa [update_self]
      · rw [update_of_ne hij]
        exact hgrows i _ _ _ hgrow (hL' i)
    | environment h =>
      obtain ⟨hI'', hgrow⟩ := henvironment _ _ hI' h
      exact ⟨hI'', fun i => hgrows i _ _ _ hgrow (hL' i)⟩

theorem Interleave.solo {i : ι} {locals : ι → π} {s s' : σ} {p' : π}
    (hrun : Relation.ReflTransGen (step i) (s, locals i) (s', p')) :
    Relation.ReflTransGen (Interleave step environment) (s, locals) (s', update locals i p') := by
  generalize hend : (s', p') = last at hrun
  induction hrun generalizing s' p' with
  | refl =>
    cases hend
    rw [update_eq_self]
  | @tail middle _ _ hlast ih =>
    subst hend
    have hstep : step i (middle.1, update locals i middle.2 i) (s', p') := by
      rwa [update_self]
    have hnext := Relation.ReflTransGen.tail (ih rfl) (Interleave.process i hstep)
    rwa [update_idem] at hnext

end PrivatePayments.Lib

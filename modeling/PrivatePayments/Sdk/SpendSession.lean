import Mathlib.Algebra.BigOperators.Fin
import Mathlib.Data.Fin.VecNotation
import PrivatePayments.Sdk.Combination
import PrivatePayments.Sdk.Storage

/-! `tx-planner`: a plan of transactions with two inputs and two outputs each, and the session
that goes through its steps. -/
namespace PrivatePayments.Sdk
open Contracts List

structure SpendableNote where
  commitment : F
  amount : Nat
deriving DecidableEq

/-- Without a commitment the note did not exist when the step was planned. -/
structure StepNote where
  commitment : Option F
  amount : Nat
deriving DecidableEq

inductive StepAction where
  | consolidate (output : Nat)
  | final (send : Nat) (change : Option Nat)
deriving DecidableEq

structure PlannedStep where
  first : StepNote
  second : Option StepNote
  action : StepAction
deriving DecidableEq

def StepNote.fromSpendable (note : SpendableNote) : StepNote := ⟨some note.commitment, note.amount⟩

def StepNote.fromAmount (amount : Nat) : StepNote := ⟨none, amount⟩

def mergeSteps (notes : List SpendableNote) :
    StepNote → Nat → List Nat → Except PlanError (List PlannedStep)
  | _, _, [] => .ok []
  | prevNote, sum, index :: rest =>
      let currentNote := StepNote.fromSpendable (notes.getD index ⟨0, 0⟩)
      match checkedAdd 128 sum currentNote.amount with
      | none => .error .inputAmountOverflow
      | some sum => do
          let steps ← mergeSteps notes (.fromAmount sum) sum rest
          return ⟨prevNote, some currentNote, .consolidate sum⟩ :: steps

def finishSteps (action : StepAction) : List PlannedStep → List PlannedStep
  | [] => []
  | [step] => [{ step with action }]
  | step :: rest => step :: finishSteps action rest

def planSteps (amount : Nat) (change : Option Nat) (notes : List SpendableNote) :
    List Nat → Except PlanError (List PlannedStep)
  -- nothing selects no note at all
  | [] => .error .invalidPlan
  | [index] => .ok [⟨.fromSpendable (notes.getD index ⟨0, 0⟩), none, .final amount change⟩]
  | index :: rest => do
      let note0 := StepNote.fromSpendable (notes.getD index ⟨0, 0⟩)
      let steps ← mergeSteps notes note0 note0.amount rest
      return finishSteps (.final amount change) steps

def assemble (steps : List PlannedStep) : Option (List PlannedStep) :=
  match steps.getLast? with
  | some ⟨_, _, .final _ _⟩ => some steps
  | _ => none

def plan (sort : SortByAmount) (amount : Nat) (notes : List SpendableNote) :
    Except PlanError (List PlannedStep) :=
  if notes.isEmpty then .error .noSpendableNotes
  else do
    let combo ← findCombination sort (notes.map SpendableNote.amount) amount
    match combo.selected with
    | none => .error .noCombination
    | some (indices, change) =>
      if indices.length > transactionLimit then .error (.tooManyNotes indices.length transactionLimit)
      else match indices.find? fun index => index ≥ notes.length with
        | some index => .error (.noteIndexOutOfRange index)
        | none => do
          let steps ← planSteps amount change notes indices
          match assemble steps with
          | some steps => return steps
          | none => .error .invalidPlan

def resolveInputNote (input : StepNote) (notes : List SpendableNote) (sibling : Option StepNote) :
    Except PlanError SpendableNote :=
  match input.commitment with
  | some commitment =>
    match notes.find? (·.commitment == commitment) with
    | none => .error (.commitmentNotFound commitment)
    | some note =>
      if note.amount ≠ input.amount then .error (.noteAmountMismatch commitment note.amount input.amount)
      else .ok note
  | none =>
    let excluded := sibling.bind StepNote.commitment
    match (notes.filter (·.amount == input.amount)).filter (fun note => excluded != some note.commitment) with
    | [] => .error (.noNoteForAmount input.amount)
    | [note] => .ok note
    | _ => .error (.ambiguousNoteForAmount input.amount)

def PlannedStep.resolve (step : PlannedStep) (notes : List SpendableNote) :
    Except PlanError (List SpendableNote) := do
  let first ← resolveInputNote step.first notes step.second
  match step.second with
  | none => return [first]
  | some second => do
    let second ← resolveInputNote second notes (some step.first)
    return [first, second]

/-! `execute/mod.rs`. -/

inductive SpendSessionError where
  | plan (e : PlanError)
  | complete
  | extAmountOverflow
  | missingWithdrawRecipient
deriving DecidableEq

inductive SpendTarget where
  | transfer (recipientNote recipientEnc : Key)
  | withdraw (recipient : String)
deriving DecidableEq

structure Transact where
  inputCommitments : List F
  outputAmounts : Fin 2 → Nat
  extAmount : Int
  extRecipient : String
  outRecipientNotePubkeys : Fin 2 → Option Key
  outRecipientEncryptionPubkeys : Fin 2 → Option Key

structure SpendSession where
  steps : List PlannedStep
  wallet : List SpendableNote
  poolAddress : String
  target : SpendTarget
  stepIndex : Nat

/-- `ExtAmount::try_from`: a signed integer of 128 bits. -/
def extAmountOf (amount : Nat) : Option Int := if amount < 2 ^ 127 then some amount else none

def checkedNeg (x : Int) : Option Int := if x = -2 ^ 127 then none else some (-x)

def validateTarget : SpendTarget → Except SpendSessionError Unit
  | .withdraw recipient => if recipient.isEmpty then .error .missingWithdrawRecipient else .ok ()
  | .transfer _ _ => .ok ()

def materializeStep (step : PlannedStep) (poolAddress : String) (target : SpendTarget)
    (resolvedInputs : List SpendableNote) : Except SpendSessionError Transact :=
  let inputCommitments := resolvedInputs.map SpendableNote.commitment
  match step.action with
  | .consolidate output => .ok
      { inputCommitments
        outputAmounts := ![output, 0]
        extAmount := 0
        extRecipient := poolAddress
        outRecipientNotePubkeys := ![none, none]
        outRecipientEncryptionPubkeys := ![none, none] }
  | .final send change =>
    match target with
    | .transfer recipientNote recipientEnc => .ok
        { inputCommitments
          outputAmounts := ![send, change.getD 0]
          extAmount := 0
          extRecipient := poolAddress
          outRecipientNotePubkeys :=
            ![some recipientNote, if change.isSome then none else some recipientNote]
          outRecipientEncryptionPubkeys :=
            ![some recipientEnc, if change.isSome then none else some recipientEnc] }
    | .withdraw recipient =>
      match (extAmountOf send).bind checkedNeg with
      | none => .error .extAmountOverflow
      | some extAmount => .ok
          { inputCommitments
            outputAmounts := ![change.getD 0, 0]
            extAmount
            extRecipient := recipient
            outRecipientNotePubkeys := ![none, none]
            outRecipientEncryptionPubkeys := ![none, none] }

def removeSpent (wallet spent : List SpendableNote) : List SpendableNote :=
  spent.foldl (fun wallet note => wallet.filter fun n => n.commitment != note.commitment) wallet

namespace SpendSession

def setup (sort : SortByAmount) (wallet : List SpendableNote) (amount : Nat) (poolAddress : String)
    (target : SpendTarget) : Except SpendSessionError SpendSession := do
  validateTarget target
  let steps ← (plan sort amount wallet).mapError .plan
  return { steps, wallet, poolAddress, target, stepIndex := 0 }

def isDone (session : SpendSession) : Bool := decide (session.stepIndex ≥ session.steps.length)

def len (session : SpendSession) : Nat := session.steps.length

def step (session : SpendSession) : Except SpendSessionError (Option Transact) :=
  match session.steps[session.stepIndex]? with
  | none => .ok none
  | some step => do
    let resolved ← (step.resolve session.wallet).mapError .plan
    let transact ← materializeStep step session.poolAddress session.target resolved
    return some transact

def completeStep (session : SpendSession) (outputCommitments : F × F) :
    Except SpendSessionError SpendSession :=
  match session.steps[session.stepIndex]? with
  | none => .error .complete
  | some step => do
    let spent ← (step.resolve session.wallet).mapError .plan
    let remaining := removeSpent session.wallet spent
    return { session with
      wallet := match step.action with
        | .consolidate output => remaining ++ [⟨outputCommitments.1, output⟩]
        | .final _ _ => remaining
      stepIndex := session.stepIndex + 1 }

/-- `step` and `complete_step` in turn, once for each pair of output commitments. -/
def run : SpendSession → List (F × F) → Except SpendSessionError (List Transact × SpendSession)
  | session, [] => .ok ([], session)
  | session, outputs :: rest => do
      match ← session.step with
      | none => .error .complete
      | some transact => do
        let next ← session.completeStep outputs
        let (transacts, last) ← next.run rest
        return (transact :: transacts, last)

end SpendSession

abbrev noteSum (notes : List SpendableNote) : Nat := (notes.map SpendableNote.amount).sum

structure Chosen (wallet : List SpendableNote) (amount : Nat) (selected : List SpendableNote)
    (change : Option Nat) : Prop where
  held : selected.Subperm wallet
  nonempty : selected ≠ []
  total : noteSum selected = amount + change.getD 0
  descending : 2 < selected.length → (selected.map SpendableNote.amount).Pairwise (· ≥ ·)
  minimal : 2 < selected.length → ∀ others : List SpendableNote, others.Subperm wallet →
    others.length < selected.length → noteSum others < amount

def chainSteps (amount : Nat) (change : Option Nat) : StepNote → Nat → List SpendableNote → List PlannedStep
  | _, _, [] => []
  | prevNote, _, [note] => [⟨prevNote, some (.fromSpendable note), .final amount change⟩]
  | prevNote, sum, note :: rest =>
      ⟨prevNote, some (.fromSpendable note), .consolidate (sum + note.amount)⟩ ::
        chainSteps amount change (.fromAmount (sum + note.amount)) (sum + note.amount) rest

def plannedSteps (amount : Nat) (change : Option Nat) : List SpendableNote → List PlannedStep
  | [] => []
  | [note] => [⟨.fromSpendable note, none, .final amount change⟩]
  | note :: rest => chainSteps amount change (.fromSpendable note) note.amount rest

variable {change : Option Nat}

variable {notes : List SpendableNote}

section Plan
variable {sort : SortByAmount} {wallet : List SpendableNote} {amount : Nat}

theorem subperm_map {α β : Type} (f : α → β) {xs ys : List α} (h : xs.Subperm ys) :
    (xs.map f).Subperm (ys.map f) := by
  obtain ⟨zs, hperm, hsub⟩ := h
  exact ⟨zs.map f, hperm.map f, hsub.map f⟩

theorem Selection.chosen {picks : List (Nat × Nat)}
    (h : Selection (wallet.map SpendableNote.amount) amount picks change) :
    Chosen wallet amount ((picks.map Prod.fst).map fun i => wallet.getD i ⟨0, 0⟩) change := by
  have hwallet : ((wallet.map SpendableNote.amount).zipIdx.map Prod.swap).map
      (fun pick => wallet.getD pick.1 ⟨0, 0⟩) = wallet := by
    apply ext_getElem
    · simp
    · intro i hi hi'
      simp [getElem?_eq_getElem hi']
  have hamount : ∀ pick ∈ picks, (wallet.getD pick.1 ⟨0, 0⟩).amount = pick.2 := by
    intro pick hpick
    obtain ⟨⟨value, i⟩, hmem, rfl⟩ := mem_map.mp (h.picked.subset hpick)
    rw [mk_mem_zipIdx_iff_getElem?, getElem?_map] at hmem
    obtain ⟨note, hnote, rfl⟩ := Option.map_eq_some_iff.mp hmem
    change (wallet.getD i ⟨0, 0⟩).amount = note.amount
    rw [getD_eq_getElem?_getD, hnote]
    rfl
  have hamounts : ((picks.map Prod.fst).map fun i => wallet.getD i ⟨0, 0⟩).map SpendableNote.amount =
      picks.map Prod.snd := by
    rw [map_map, map_map]
    exact map_congr_left hamount
  have hlength : ((picks.map Prod.fst).map fun i => wallet.getD i ⟨0, 0⟩).length = picks.length := by simp
  refine ⟨?_, ?_, ?_, ?_, ?_⟩
  · have hsub := subperm_map (fun pick => wallet.getD pick.1 ⟨0, 0⟩) h.picked
    rw [hwallet] at hsub
    rwa [map_map]
  · simpa using h.nonempty
  · rw [noteSum, hamounts]
    exact h.total
  · rw [hamounts, hlength]
    exact h.descending
  · rw [hlength]
    intro hlt others hothers hless
    apply h.minimal hlt _ (subperm_map _ hothers)
    rwa [length_map]

variable {steps : List PlannedStep}

theorem finishSteps_merge {prevNote : StepNote} {sum : Nat} {indices : List Nat}
    (h : mergeSteps notes prevNote sum indices = .ok steps) :
    finishSteps (.final amount change) steps =
      chainSteps amount change prevNote sum (indices.map fun i => notes.getD i ⟨0, 0⟩) := by
  induction indices generalizing prevNote sum steps with
  | nil =>
    cases h
    rfl
  | cons index rest ih =>
    unfold mergeSteps at h
    dsimp only at h
    split at h
    · cases h
    · rename_i next hnext
      obtain ⟨-, rfl⟩ := checkedAdd_eq_some hnext
      obtain ⟨others, hothers, h⟩ := bind_eq_ok h
      cases h
      have hrest := ih hothers
      cases rest with
      | nil =>
        cases hothers
        rfl
      | cons index' rest =>
        cases others with
        | nil => cases rest <;> cases hrest
        | cons step others =>
          rw [finishSteps, hrest]
          · rfl
          · exact nofun

theorem plan_chosen (h : plan sort amount wallet = .ok steps) (hpos : 0 < amount) :
    ∃ selected change, Chosen wallet amount selected change ∧ steps = plannedSteps amount change selected := by
  unfold plan at h
  split at h
  · cases h
  · obtain ⟨combo, hcombo, h⟩ := bind_eq_ok h
    cases hselected : combo.selected with
    | none =>
      simp only [hselected] at h
      cases h
    | some found =>
      obtain ⟨indices, change⟩ := found
      obtain ⟨picks, hselection, rfl⟩ := findCombination_selection hcombo hpos hselected
      simp only [hselected] at h
      split at h
      · cases h
      · split at h
        · cases h
        · obtain ⟨steps', hsteps, h⟩ := bind_eq_ok h
          refine ⟨_, change, hselection.chosen, ?_⟩
          have heq : steps = steps' := by
            split at h
            · rename_i hassemble
              cases h
              unfold assemble at hassemble
              split at hassemble
              · exact (Option.some.inj hassemble).symm
              · cases hassemble
            · cases h
          rw [heq]
          cases hindices : picks.map Prod.fst with
          | nil =>
            rw [hindices] at hsteps
            cases hsteps
          | cons index rest =>
            rw [hindices] at hsteps
            cases rest with
            | nil =>
              cases hsteps
              rfl
            | cons index' rest =>
              obtain ⟨merged, hmerged, hsteps⟩ := bind_eq_ok hsteps
              cases hsteps
              exact finishSteps_merge hmerged

end Plan

def Transact.paid (transact : Transact) : SpendTarget → Int
  | .transfer recipientNote recipientEnc => ∑ i, if transact.outRecipientNotePubkeys i = some recipientNote ∧
      transact.outRecipientEncryptionPubkeys i = some recipientEnc then (transact.outputAmounts i : Int) else 0
  | .withdraw recipient => if transact.extRecipient = recipient then -transact.extAmount else 0

def Transact.own (transact : Transact) : Nat :=
  ∑ i, if transact.outRecipientNotePubkeys i = none then transact.outputAmounts i else 0

def Transact.created (transact : Transact) (outputs : F × F) : List SpendableNote :=
  [⟨outputs.1, transact.outputAmounts 0⟩, ⟨outputs.2, transact.outputAmounts 1⟩]

structure Balanced (notes : List SpendableNote) (transact : Transact) (inputs : List SpendableNote) : Prop where
  held : ∀ note ∈ inputs, note ∈ notes
  inputCommitments : transact.inputCommitments = inputs.map SpendableNote.commitment
  balance : (noteSum inputs : Int) + transact.extAmount =
    transact.outputAmounts 0 + transact.outputAmounts 1

section Wallet
variable {wallet spent : List SpendableNote} {note : SpendableNote}

theorem mem_removeSpent : note ∈ removeSpent wallet spent ↔
    note ∈ wallet ∧ ∀ n ∈ spent, note.commitment ≠ n.commitment := by
  unfold removeSpent
  induction spent generalizing wallet with
  | nil => simp
  | cons n rest ih =>
    rw [foldl_cons, ih, mem_filter]
    simp [and_assoc]

theorem removeSpent_sublist (wallet spent : List SpendableNote) : (removeSpent wallet spent).Sublist wallet := by
  unfold removeSpent
  induction spent generalizing wallet with
  | nil => exact List.Sublist.refl _
  | cons n rest ih => exact (ih _).trans filter_sublist

section
variable (hdistinct : (wallet.map SpendableNote.commitment).Nodup)
include hdistinct

theorem note_eq {n n' : SpendableNote}
    (h : n ∈ wallet) (h' : n' ∈ wallet) (heq : n.commitment = n'.commitment) : n = n' :=
  inj_on_of_nodup_map hdistinct h h' heq

theorem removeSpent_perm (hheld : spent.Subperm wallet) : (spent ++ removeSpent wallet spent).Perm wallet := by
  have hnodup : wallet.Nodup := hdistinct.of_map
  have hspent : spent.Nodup := by
    obtain ⟨notes, hperm, hsub⟩ := hheld
    exact hperm.nodup_iff.mp (hnodup.sublist hsub)
  apply (perm_ext_iff_of_nodup _ hnodup).mpr
  · intro n
    rw [mem_append, mem_removeSpent]
    constructor
    · rintro (h | h)
      · exact hheld.subset h
      · exact h.1
    · intro h
      by_cases hmem : n ∈ spent
      · exact .inl hmem
      · refine .inr ⟨h, fun n' hn' heq => hmem ?_⟩
        rwa [note_eq hdistinct h (hheld.subset hn') heq]
  · rw [nodup_append]
    refine ⟨hspent, hnodup.sublist (removeSpent_sublist _ _), fun n hn n' hn' heq => ?_⟩
    exact (mem_removeSpent.mp hn').2 n hn (heq ▸ rfl)

theorem removeSpent_sum
    (hheld : spent.Subperm wallet) : noteSum spent + noteSum (removeSpent wallet spent) = noteSum wallet := by
  have hsum := ((removeSpent_perm hdistinct hheld).map SpendableNote.amount).sum_eq
  rwa [map_append, sum_append] at hsum

theorem resolve_spendable (h : note ∈ wallet)
    (sibling : Option StepNote) : resolveInputNote (.fromSpendable note) wallet sibling = .ok note := by
  have hfind : wallet.find? (·.commitment == note.commitment) = some note := by
    cases hfound : wallet.find? (·.commitment == note.commitment) with
    | none => exact absurd (beq_self_eq_true _) (find?_eq_none.mp hfound note h)
    | some n =>
      have hcommitment : n.commitment = note.commitment := by simpa using find?_some hfound
      rw [note_eq hdistinct (mem_of_find?_eq_some hfound) h hcommitment]
  simp [resolveInputNote, StepNote.fromSpendable, hfind]

theorem resolve_merged (h : note ∈ wallet) {sibling : SpendableNote} (hsibling : note.commitment ≠ sibling.commitment)
    (honly : ∀ n ∈ wallet, n ≠ note → n ≠ sibling → n.amount ≠ note.amount) :
    resolveInputNote (.fromAmount note.amount) wallet (some (.fromSpendable sibling)) = .ok note := by
  have hfilter : ((wallet.filter (·.amount == note.amount)).filter
      (fun n => some sibling.commitment != some n.commitment)) = [note] := by
    apply perm_singleton.mp
    apply (perm_ext_iff_of_nodup ((hdistinct.of_map.filter _).filter _) (nodup_singleton _)).mpr
    intro n
    simp only [mem_filter, mem_singleton, beq_iff_eq, bne_iff_ne, ne_eq, Option.some.injEq]
    constructor
    · rintro ⟨⟨hn, hamount⟩, hne⟩
      by_contra hother
      apply honly n hn hother _ hamount
      rintro rfl
      exact hne rfl
    · rintro rfl
      exact ⟨⟨h, rfl⟩, hsibling.symm⟩
  simp only [resolveInputNote, StepNote.fromAmount, StepNote.fromSpendable, Option.bind_some, hfilter]

end

end Wallet

variable {session : SpendSession} {transact : Transact}

variable {target : SpendTarget}

section Step
variable {step : PlannedStep} {inputs : List SpendableNote} {outputs : F × F}

section
variable (hstep : session.steps[session.stepIndex]? = some step)
  (hinputs : step.resolve session.wallet = .ok inputs)
include hstep hinputs

theorem step_resolved
    (htransact : materializeStep step session.poolAddress session.target inputs = .ok transact) :
    session.step = .ok (some transact) := by
  simp only [SpendSession.step, hstep, hinputs, Except.mapError, ok_bind, htransact]
  rfl

theorem completeStep_resolved :
    session.completeStep outputs = .ok { session with
      wallet := match step.action with
        | .consolidate output => removeSpent session.wallet inputs ++ [⟨outputs.1, output⟩]
        | .final _ _ => removeSpent session.wallet inputs
      stepIndex := session.stepIndex + 1 } := by
  simp only [SpendSession.completeStep, hstep, hinputs, Except.mapError, ok_bind]
  rfl

end

variable {second : Option StepNote} {first : StepNote}

theorem materialize_final {amount : Nat} {change : Option Nat}
    (poolAddress : String)
    (hfits : ∀ recipient, target = .withdraw recipient → amount < 2 ^ 127)
    (htotal : noteSum inputs = amount + change.getD 0) :
    ∃ transact, materializeStep ⟨first, second, .final amount change⟩ poolAddress target inputs =
        .ok transact ∧
      Balanced inputs transact inputs ∧ transact.paid target = amount ∧ transact.own = change.getD 0 := by
  cases target with
  | transfer recipientNote recipientEnc =>
    refine ⟨_, rfl, ⟨fun _ => id, rfl, ?_⟩, ?_, ?_⟩
    · simp [htotal]
    · cases change <;> simp [Transact.paid, Fin.sum_univ_two]
    · cases change <;> simp [Transact.own, Fin.sum_univ_two]
  | withdraw recipient =>
    have hamount : (extAmountOf amount).bind checkedNeg = some (-(amount : Int)) := by
      rw [extAmountOf, if_pos (hfits recipient rfl), Option.bind_some, checkedNeg, if_neg (by omega)]
    refine ⟨_, by simp only [materializeStep, hamount]; rfl, ⟨fun _ => id, rfl, ?_⟩, ?_, ?_⟩
    · simp [htotal]
    · simp [Transact.paid]
    · simp [Transact.own, Fin.sum_univ_two]

theorem materialize_consolidate {output : Nat}
    (poolAddress : String) (target : SpendTarget) (htotal : noteSum inputs = output) :
    ∃ transact, materializeStep ⟨first, second, .consolidate output⟩ poolAddress target inputs =
        .ok transact ∧
      Balanced inputs transact inputs ∧ transact.paid target = 0 ∧ transact.outputAmounts 0 = output := by
  refine ⟨_, rfl, ⟨fun _ => id, rfl, ?_⟩, ?_, rfl⟩
  · simp [htotal]
  · cases target <;> simp [Transact.paid, Fin.sum_univ_two]

end Step

/-- What a session did: every transaction balances over the notes that were there before it, no
note is spent twice, the recipient is paid and the rest is kept. -/
structure Outcome (target : SpendTarget) (amount : Nat) (wallet : List SpendableNote)
    (outputs : List (F × F)) (transacts : List Transact) (final : List SpendableNote) : Prop where
  length : transacts.length = outputs.length
  balanced : ∀ i transact, transacts[i]? = some transact → ∃ inputs,
    Balanced (wallet ++ ((transacts.zip outputs).take i).flatMap fun done => done.1.created done.2)
      transact inputs
  once : (transacts.flatMap Transact.inputCommitments).Nodup
  known : ∀ commitment ∈ transacts.flatMap Transact.inputCommitments,
    commitment ∈ wallet.map SpendableNote.commitment ∨ commitment ∈ outputs.map Prod.fst
  paid : (transacts.map (Transact.paid · target)).sum = amount
  kept : ∀ transact, transacts.getLast? = some transact →
    noteSum final + transact.own + amount = noteSum wallet

section Outcome
variable {target : SpendTarget} {amount : Nat} {wallet final inputs : List SpendableNote}
  {outputs : List (F × F)} {transacts : List Transact}

theorem Balanced.mono (h : Balanced inputs transact inputs)
    (hsub : ∀ note ∈ inputs, note ∈ notes) : Balanced notes transact inputs :=
  ⟨hsub, h.inputCommitments, h.balance⟩

section
variable (hdistinct : (wallet.map SpendableNote.commitment).Nodup) (hheld : inputs.Subperm wallet)
include hdistinct hheld

theorem inputs_nodup
    : (inputs.map SpendableNote.commitment).Nodup := by
  obtain ⟨notes, hperm, hsub⟩ := hheld
  exact (hperm.map _).nodup_iff.mp (hdistinct.sublist (hsub.map _))

theorem Outcome.single
    (hbalanced : Balanced inputs transact inputs)
    (hpaid : transact.paid target = amount) (htotal : noteSum inputs = amount + transact.own)
    (output : F × F) : Outcome target amount wallet [output] [transact] (removeSpent wallet inputs) where
  length := rfl
  balanced := by
    intro i t ht
    obtain ⟨hi, rfl⟩ := List.getElem?_eq_some_iff.mp ht
    obtain rfl : i = 0 := by simpa using hi
    exact ⟨inputs, hbalanced.mono fun note hnote => mem_append_left _ (hheld.subset hnote)⟩
  once := by
    rw [flatMap_singleton, hbalanced.inputCommitments]
    exact inputs_nodup hdistinct hheld
  known := by
    rw [flatMap_singleton, hbalanced.inputCommitments]
    intro commitment hmem
    obtain ⟨note, hnote, rfl⟩ := mem_map.mp hmem
    exact .inl (mem_map_of_mem (hheld.subset hnote))
  paid := by simpa using hpaid
  kept := by
    intro t ht
    obtain rfl : transact = t := Option.some.inj ht
    have hsum := removeSpent_sum hdistinct hheld
    omega

end

theorem Outcome.cons {output : F × F} {merged : SpendableNote}
    (h : Outcome target amount (removeSpent wallet inputs ++ [merged]) outputs transacts final)
    (hmerged : merged = ⟨output.1, transact.outputAmounts 0⟩)
    (hdistinct : (wallet.map SpendableNote.commitment).Nodup) (hheld : inputs.Subperm wallet)
    (hfresh : ∀ commitment ∈ wallet.map SpendableNote.commitment,
      commitment ∉ (output :: outputs).map Prod.fst)
    (hbalanced : Balanced inputs transact inputs) (hpaid : transact.paid target = 0)
    (htotal : noteSum inputs = merged.amount) (hne : transacts ≠ []) :
    Outcome target amount wallet (output :: outputs) (transact :: transacts) final where
  length := congrArg (· + 1) h.length
  balanced := by
    intro i t ht
    cases i with
    | zero =>
      cases ht
      exact ⟨inputs, hbalanced.mono fun note hnote => mem_append_left _ (hheld.subset hnote)⟩
    | succ i =>
      obtain ⟨ins, hins⟩ := h.balanced i t ht
      refine ⟨ins, ⟨fun note hnote => ?_, hins.inputCommitments, hins.balance⟩⟩
      rw [zip_cons_cons, take_succ_cons, flatMap_cons, mem_append, mem_append]
      have hmem := hins.held note hnote
      rw [mem_append, mem_append, mem_singleton] at hmem
      rcases hmem with (hold | hnew) | hlater
      · exact .inl (mem_removeSpent.mp hold).1
      · rw [hnew, hmerged]
        exact .inr (.inl mem_cons_self)
      · exact .inr (.inr hlater)
  once := by
    rw [flatMap_cons, nodup_append, hbalanced.inputCommitments]
    refine ⟨inputs_nodup hdistinct hheld, h.once, fun commitment hspent other hother heq => ?_⟩
    subst heq
    obtain ⟨note, hnote, rfl⟩ := mem_map.mp hspent
    have hwallet := mem_map_of_mem (f := SpendableNote.commitment) (hheld.subset hnote)
    have hfresh := hfresh _ hwallet
    rw [map_cons, mem_cons, not_or] at hfresh
    rcases h.known _ hother with hmem | hmem
    · rw [map_append, mem_append, map_singleton, mem_singleton, hmerged] at hmem
      rcases hmem with hold | hnew
      · obtain ⟨note', hnote', heq⟩ := mem_map.mp hold
        exact (mem_removeSpent.mp hnote').2 note hnote heq
      · exact hfresh.1 hnew
    · exact hfresh.2 hmem
  known := by
    intro commitment hmem
    rw [flatMap_cons, mem_append, hbalanced.inputCommitments] at hmem
    rcases hmem with hspent | hlater
    · obtain ⟨note, hnote, rfl⟩ := mem_map.mp hspent
      exact .inl (mem_map_of_mem (hheld.subset hnote))
    · rcases h.known commitment hlater with hmem | hmem
      · rw [map_append, mem_append, map_singleton, mem_singleton, hmerged] at hmem
        rcases hmem with hold | rfl
        · exact .inl (((removeSpent_sublist wallet inputs).map _).subset hold)
        · exact .inr mem_cons_self
      · exact .inr (mem_cons_of_mem _ hmem)
  paid := by
    rw [map_cons, sum_cons, hpaid, h.paid, Int.zero_add]
  kept := by
    intro t ht
    rw [getLast?_cons_of_ne_nil hne] at ht
    have hkept := h.kept t ht
    have hsum := removeSpent_sum hdistinct hheld
    have happend : noteSum (removeSpent wallet inputs ++ [merged]) =
        noteSum (removeSpent wallet inputs) + merged.amount := by simp [noteSum]
    omega

end Outcome

/-- A session between two merges: the note made last, and the notes that are still to be added. -/
structure Merging (session : SpendSession) (amount : Nat) (change : Option Nat) (prevNote : StepNote)
    (note : SpendableNote) (rest : List SpendableNote) : Prop where
  steps : session.steps.drop session.stepIndex = chainSteps amount change prevNote note.amount rest
  distinct : (session.wallet.map SpendableNote.commitment).Nodup
  held : (note :: rest).Subperm session.wallet
  resolves : resolveInputNote prevNote session.wallet (rest.head?.map .fromSpendable) = .ok note
  unmatched : ∀ i, 1 ≤ i → i < rest.length → ∀ n ∈ session.wallet, n ≠ note → n ∉ rest.take (i + 1) →
    n.amount ≠ note.amount + noteSum (rest.take i)
  total : note.amount + noteSum rest = amount + change.getD 0

section Run
variable {amount : Nat} {prevNote : StepNote} {note next : SpendableNote} {rest : List SpendableNote}
  {output : F × F}

variable {outputs : List (F × F)}

theorem run_cons {next last : SpendSession} {transact : Transact} {transacts : List Transact}
    (hstep : session.step = .ok (some transact))
    (hcomplete : session.completeStep output = .ok next) (hrun : next.run outputs = .ok (transacts, last)) :
    session.run (output :: outputs) = .ok (transact :: transacts, last) := by
  simp only [SpendSession.run, hstep, ok_bind, hcomplete, hrun]
  rfl

theorem getElem?_of_drop {α : Type} {xs : List α} {i : Nat} {x : α} {rest : List α} (h : xs.drop i = x :: rest) :
    xs[i]? = some x ∧ xs.drop (i + 1) = rest := by
  constructor
  · rw [← head?_drop, h, head?_cons]
  · rw [← tail_drop, h, tail_cons]

section
variable (h : Merging session amount change prevNote note (next :: rest))
include h

theorem Merging.resolve (action : StepAction) :
    (PlannedStep.mk prevNote (some (.fromSpendable next)) action).resolve session.wallet = .ok [note, next] := by
  have hnext : next ∈ session.wallet := h.held.subset (mem_cons_of_mem _ mem_cons_self)
  have hfirst : resolveInputNote prevNote session.wallet (some (.fromSpendable next)) = .ok note := h.resolves
  simp only [PlannedStep.resolve, hfirst, ok_bind, resolve_spendable h.distinct hnext]
  rfl

theorem Merging.pair_held : [note, next].Subperm session.wallet := by
  refine List.Subperm.trans (List.Sublist.subperm ?_) h.held
  exact ((nil_sublist rest).cons_cons next).cons_cons note

theorem Merging.merged (hne : rest ≠ []) (hfresh : output.1 ∉ session.wallet.map SpendableNote.commitment) :
    Merging { session with
        wallet := removeSpent session.wallet [note, next] ++ [⟨output.1, note.amount + next.amount⟩]
        stepIndex := session.stepIndex + 1 } amount change (.fromAmount (note.amount + next.amount))
      ⟨output.1, note.amount + next.amount⟩ rest := by
  obtain ⟨next', rest, rfl⟩ := exists_cons_of_ne_nil hne
  have hperm := removeSpent_perm h.distinct h.pair_held
  have hheld : (next' :: rest).Subperm (removeSpent session.wallet [note, next]) :=
    (subperm_append_left [note, next]).mp (h.held.trans hperm.symm.subperm)
  have hold : ∀ n ∈ removeSpent session.wallet [note, next],
      n ∈ session.wallet ∧ n ≠ note ∧ n ≠ next := by
    intro n hn
    obtain ⟨hmem, hother⟩ := mem_removeSpent.mp hn
    refine ⟨hmem, ?_, ?_⟩
    · rintro rfl
      exact hother n mem_cons_self rfl
    · rintro rfl
      exact hother n (mem_cons_of_mem _ mem_cons_self) rfl
  have hdistinct : ((removeSpent session.wallet [note, next] ++
      [(⟨output.1, note.amount + next.amount⟩ : SpendableNote)]).map SpendableNote.commitment).Nodup := by
    rw [map_append, map_singleton, nodup_append]
    refine ⟨h.distinct.sublist ((removeSpent_sublist _ _).map _), nodup_singleton _, ?_⟩
    intro c hc c' hc' heq
    rw [mem_singleton] at hc'
    rw [heq, hc'] at hc
    exact hfresh (((removeSpent_sublist _ _).map _).subset hc)
  -- no other note has the amount of a later merge
  have hunmatched : ∀ i, i < (next' :: rest).length → ∀ n ∈ removeSpent session.wallet [note, next],
      n ∉ (next' :: rest).take (i + 1) →
      n.amount ≠ note.amount + next.amount + noteSum ((next' :: rest).take i) := by
    intro i hi n hn htake
    obtain ⟨hmem, hnote, hnext⟩ := hold n hn
    have hne := h.unmatched (i + 1) (by omega) (Nat.succ_lt_succ hi) n hmem hnote (by simpa [hnext] using htake)
    rwa [take_succ_cons, noteSum, map_cons, sum_cons, ← add_assoc] at hne
  refine ⟨(getElem?_of_drop h.steps).2, hdistinct, ?_, ?_, ?_, ?_⟩
  · exact (((subperm_cons _).mpr hheld).trans (perm_append_singleton _ _).symm.subperm)
  · apply resolve_merged hdistinct (mem_append_right _ (mem_singleton.mpr rfl))
    · intro heq
      apply hfresh
      have hmem := (hold next' (hheld.subset mem_cons_self)).1
      exact mem_map.mpr ⟨next', hmem, heq.symm⟩
    · intro n hn hmerged hother
      rcases mem_append.mp hn with hn | hn
      · exact hunmatched 0 (Nat.succ_pos _) n hn (by simpa using hother)
      · exact absurd (mem_singleton.mp hn) hmerged
  · intro i hpos hi n hn hmerged htake
    rcases mem_append.mp hn with hn | hn
    · exact hunmatched i hi n hn htake
    · exact absurd (mem_singleton.mp hn) hmerged
  · have htotal := h.total
    rw [noteSum, map_cons, sum_cons, ← add_assoc] at htotal
    exact htotal

end

theorem Merging.run (h : Merging session amount change prevNote note rest) (hne : rest ≠ [])
    (hfits : ∀ recipient, session.target = .withdraw recipient → amount < 2 ^ 127)
    (hlength : outputs.length = rest.length)
    (hfresh : (session.wallet.map SpendableNote.commitment ++ outputs.map Prod.fst).Nodup) :
    ∃ transacts last, session.run outputs = .ok (transacts, last) ∧ last.steps = session.steps ∧
      last.stepIndex = session.steps.length ∧
      Outcome session.target amount session.wallet outputs transacts last.wallet := by
  induction rest generalizing session prevNote note outputs with
  | nil => exact absurd rfl hne
  | cons next rest ih =>
    obtain ⟨output, outputs, rfl⟩ := exists_cons_of_length_eq_add_one hlength
    have hlength : outputs.length = rest.length := Nat.succ.inj hlength
    have hpair := h.pair_held
    have hsum : noteSum [note, next] = note.amount + next.amount := by simp [noteSum]
    cases rest with
    | nil =>
      obtain rfl := length_eq_zero_iff.mp hlength
      obtain ⟨hstep, hdone⟩ := getElem?_of_drop h.steps
      have htotal : noteSum [note, next] = amount + change.getD 0 := hsum.trans h.total
      obtain ⟨transact, htransact, hbalanced, hpaid, hown⟩ := materialize_final session.poolAddress hfits htotal
      refine ⟨_, _, run_cons (step_resolved hstep (h.resolve _) htransact)
        (completeStep_resolved hstep (h.resolve _)) rfl, rfl, ?_, ?_⟩
      · have hlt := (List.getElem?_eq_some_iff.mp hstep).1
        have hle := drop_eq_nil_iff.mp hdone
        exact le_antisymm hlt hle
      · exact .single h.distinct hpair hbalanced hpaid (hown.symm ▸ htotal) output
    | cons next' rest =>
      obtain ⟨hstep, -⟩ := getElem?_of_drop h.steps
      have hdisjoint := nodup_append.mp hfresh
      have hnew : output.1 ∉ session.wallet.map SpendableNote.commitment := fun hmem =>
        hdisjoint.2.2 _ hmem _ mem_cons_self rfl
      have hmerged := h.merged (cons_ne_nil _ _) hnew
      obtain ⟨transact, htransact, hbalanced, hpaid, houtput⟩ :=
        materialize_consolidate session.poolAddress session.target hsum
      obtain ⟨transacts, last, hrun, hsteps, hindex, houtcome⟩ := ih hmerged (cons_ne_nil _ _) hfits hlength (by
          rw [map_append, append_assoc, nodup_append]
          refine ⟨h.distinct.sublist ((removeSpent_sublist _ _).map _), hdisjoint.2.1, ?_⟩
          exact fun c hc c' hc' => hdisjoint.2.2 c (((removeSpent_sublist _ _).map _).subset hc) c' hc')
      refine ⟨_, last, run_cons (step_resolved hstep (h.resolve _) htransact)
        (completeStep_resolved hstep (h.resolve _)) hrun, hsteps, hindex, ?_⟩
      apply houtcome.cons _ h.distinct hpair _ hbalanced hpaid hsum
      · rintro rfl
        exact absurd houtcome.length (by rw [hlength]; exact Nat.succ_ne_zero _ ∘ Eq.symm)
      · rw [houtput]
      · exact fun c hc hmem => hdisjoint.2.2 c hc c hmem rfl

theorem Chosen.merging {wallet : List SpendableNote} (h : Chosen wallet amount (note :: rest) change)
    (hdistinct : (wallet.map SpendableNote.commitment).Nodup) (hne : rest ≠ []) (poolAddress : String)
    (target : SpendTarget) :
    Merging ⟨plannedSteps amount change (note :: rest), wallet, poolAddress, target, 0⟩ amount change
      (.fromSpendable note) note rest := by
  have hmem : ∀ n ∈ note :: rest, n ∈ wallet := fun n hn => h.held.subset hn
  have hnodup : (note :: rest).Nodup := by
    obtain ⟨notes, hperm, hsub⟩ := h.held
    exact hperm.nodup_iff.mp (hdistinct.of_map.sublist hsub)
  have htotal : note.amount + noteSum rest = amount + change.getD 0 := h.total
  refine ⟨?_, hdistinct, h.held, resolve_spendable hdistinct (hmem note mem_cons_self) _, ?_, htotal⟩
  · obtain ⟨next, others, rfl⟩ := exists_cons_of_ne_nil hne
    rfl
  · intro i hpos hi n hn hother htake heq
    have hlong : 2 < (note :: rest).length := by
      rw [length_cons]
      omega
    have hsplit : noteSum (rest.take i) + noteSum (rest.drop i) = noteSum rest := by
      rw [noteSum, noteSum, ← sum_append, ← map_append, take_append_drop]
    by_cases hrest : n ∈ rest
    · -- a later note is not larger than the first, so the merged ones would be empty
      obtain ⟨hfirst, -⟩ := pairwise_cons.mp (h.descending hlong)
      have hle : n.amount ≤ note.amount := hfirst _ (mem_map_of_mem hrest)
      obtain ⟨next, others, rfl⟩ := exists_cons_of_ne_nil hne
      obtain ⟨i, rfl⟩ : ∃ j, i = j + 1 := ⟨i - 1, by omega⟩
      rw [take_succ_cons, noteSum, map_cons, sum_cons] at heq
      have hzero : next.amount = 0 := by omega
      have hothers : noteSum (next :: others) = 0 := by
        obtain ⟨-, hsorted⟩ := pairwise_cons.mp (h.descending hlong)
        obtain ⟨hsecond, -⟩ := pairwise_cons.mp hsorted
        rw [noteSum, map_cons, sum_cons, hzero, zero_add, sum_eq_zero]
        intro x hx
        have := hsecond x hx
        omega
      have hsmall := h.minimal hlong [note]
        ((singleton_sublist.mpr (hmem note mem_cons_self)).subperm) (by simp)
      have hsingle : noteSum [note] = note.amount := rfl
      omega
    · -- with this note fewer would do
      have hfewer : (n :: rest.drop i).Subperm wallet := by
        have hnew : (n :: rest.drop i).Nodup := by
          refine nodup_cons.mpr ⟨fun hmem => hrest (mem_of_mem_drop hmem), ?_⟩
          exact (nodup_cons.mp hnodup).2.sublist (drop_sublist _ _)
        apply subperm_of_subset hnew
        intro x hx
        rcases mem_cons.mp hx with rfl | hx
        · exact hn
        · exact hmem x (mem_cons_of_mem _ (mem_of_mem_drop hx))
      have hsmall := h.minimal hlong (n :: rest.drop i) hfewer (by simp; omega)
      have hsum : noteSum (n :: rest.drop i) = n.amount + noteSum (rest.drop i) := rfl
      omega

theorem chainSteps_length {sum : Nat} {rest : List SpendableNote} :
    (chainSteps amount change prevNote sum rest).length = rest.length := by
  fun_induction chainSteps amount change prevNote sum rest <;> simp_all

theorem run_plannedSteps {wallet selected : List SpendableNote} {poolAddress : String}
    (h : Chosen wallet amount selected change) (hdistinct : (wallet.map SpendableNote.commitment).Nodup)
    (hfits : ∀ recipient, target = .withdraw recipient → amount < 2 ^ 127)
    (hlength : outputs.length = (plannedSteps amount change selected).length)
    (hfresh : (wallet.map SpendableNote.commitment ++ outputs.map Prod.fst).Nodup) :
    ∃ transacts last, SpendSession.run ⟨plannedSteps amount change selected, wallet, poolAddress, target, 0⟩
        outputs = .ok (transacts, last) ∧
      last.steps = plannedSteps amount change selected ∧ last.stepIndex = last.steps.length ∧
      Outcome target amount wallet outputs transacts last.wallet := by
  obtain ⟨note, rest, rfl⟩ := exists_cons_of_ne_nil h.nonempty
  cases rest with
  | nil =>
    obtain ⟨output, outputs, rfl⟩ := exists_cons_of_length_eq_add_one hlength
    obtain rfl := length_eq_zero_iff.mp (Nat.succ.inj hlength)
    have hnote : note ∈ wallet := h.held.subset mem_cons_self
    have hresolve : (PlannedStep.mk (.fromSpendable note) none (.final amount change)).resolve wallet =
        .ok [note] := by
      simp only [PlannedStep.resolve, resolve_spendable hdistinct hnote, ok_bind]
      rfl
    obtain ⟨transact, htransact, hbalanced, hpaid, hown⟩ := materialize_final poolAddress hfits h.total
    refine ⟨_, _, run_cons (step_resolved rfl hresolve htransact) (completeStep_resolved rfl hresolve) rfl,
      rfl, rfl, ?_⟩
    exact .single hdistinct h.held hbalanced hpaid (hown.symm ▸ h.total) output
  | cons next rest =>
    have hmerging := h.merging hdistinct (cons_ne_nil _ _) poolAddress target
    obtain ⟨transacts, last, hrun, hlast, hindex, houtcome⟩ :=
      hmerging.run (cons_ne_nil _ _) hfits (hlength.trans chainSteps_length) hfresh
    exact ⟨transacts, last, hrun, hlast, hindex.trans (congrArg List.length hlast).symm, houtcome⟩

/-- A session that can be set up goes through all its steps: the recipient gets the amount and
the wallet keeps the rest. -/
theorem spend_session_completes {sort : SortByAmount} {wallet : List SpendableNote} {poolAddress : String}
    {target : SpendTarget} (hdistinct : (wallet.map SpendableNote.commitment).Nodup) (hpos : 0 < amount)
    (hfits : ∀ recipient, target = .withdraw recipient → amount < 2 ^ 127)
    (hsetup : SpendSession.setup sort wallet amount poolAddress target = .ok session)
    {outputs : List (F × F)} (hlength : outputs.length = session.len)
    (hfresh : (wallet.map SpendableNote.commitment ++ outputs.map Prod.fst).Nodup) :
    ∃ transacts last, session.run outputs = .ok (transacts, last) ∧ transacts.length = session.len ∧
      last.isDone = true ∧ last.step = .ok none ∧
      (∀ output, last.completeStep output = .error .complete) ∧
      Outcome target amount wallet outputs transacts last.wallet := by
  obtain ⟨-, -, hsetup⟩ := bind_eq_ok hsetup
  obtain ⟨steps, hplan, hsetup⟩ := bind_eq_ok hsetup
  cases hsetup
  obtain ⟨selected, change, hchosen, rfl⟩ := plan_chosen (mapError_eq_ok hplan) hpos
  obtain ⟨transacts, last, hrun, -, hindex, houtcome⟩ := run_plannedSteps hchosen hdistinct hfits hlength hfresh
  have hend : last.steps[last.stepIndex]? = none := getElem?_eq_none hindex.ge
  refine ⟨transacts, last, hrun, houtcome.length.trans hlength, ?_, ?_, ?_, houtcome⟩
  · simp [SpendSession.isDone, hindex]
  · simp [SpendSession.step, hend]
  · simp [SpendSession.completeStep, hend]

end Run

section Sample

def SortByAmount.stable : SortByAmount where
  order notes := notes.insertionSort fun a b => a.2 ≤ b.2
  perm notes := perm_insertionSort _ notes
  sorted notes := by
    have htotal : Std.Total fun a b : Nat × Nat => a.2 ≤ b.2 := ⟨fun _ _ => le_total _ _⟩
    have htrans : IsTrans (Nat × Nat) fun a b => a.2 ≤ b.2 := ⟨fun _ _ _ => le_trans⟩
    exact pairwise_insertionSort _ notes

/-- Three notes are merged in two steps. -/
theorem spend_session_three_notes : ∃ session transacts last,
    SpendSession.setup .stable [⟨1, 5⟩, ⟨2, 4⟩, ⟨3, 3⟩] 11 "P" (.withdraw "A") = .ok session ∧
      session.len = 2 ∧ session.run [(11, 12), (13, 14)] = .ok (transacts, last) ∧ last.isDone = true := by
  have hlen : (SpendSession.setup .stable [⟨1, 5⟩, ⟨2, 4⟩, ⟨3, 3⟩] 11 "P" (.withdraw "A")).toOption.map
      SpendSession.len = some 2 := by decide +kernel
  cases hsetup : SpendSession.setup .stable [⟨1, 5⟩, ⟨2, 4⟩, ⟨3, 3⟩] 11 "P" (.withdraw "A") with
  | error e =>
    rw [hsetup] at hlen
    cases hlen
  | ok session =>
    rw [hsetup] at hlen
    have hlen : session.len = 2 := Option.some.inj hlen
    obtain ⟨transacts, last, hrun, -, hdone, -⟩ := @spend_session_completes session 11 .stable
      [⟨1, 5⟩, ⟨2, 4⟩, ⟨3, 3⟩] "P" (.withdraw "A") (by decide) (by decide) (fun _ _ => by decide) hsetup
      [(11, 12), (13, 14)] hlen.symm (by decide)
    exact ⟨session, transacts, last, rfl, hlen, hrun, hdone⟩

end Sample

end PrivatePayments.Sdk

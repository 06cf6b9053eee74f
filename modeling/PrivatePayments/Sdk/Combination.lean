import Mathlib.Algebra.BigOperators.Group.List.Basic
import Mathlib.Data.List.Sort
import PrivatePayments.Contracts.SorobanUtils

/-! `tx-planner/src/plan/combination.rs`: which notes are spent to reach an amount.  Of a note
only its place in the wallet and its amount are looked at. -/
namespace PrivatePayments.Sdk
open Contracts List

inductive PlanError where
  | noSpendableNotes
  | noCombination
  | tooManyNotes (selected maxNotes : Nat)
  | noteIndexOutOfRange (index : Nat)
  | inputAmountOverflow
  | invalidPlan
  | commitmentNotFound (commitment : F)
  | noteAmountMismatch (commitment : F) (actual expected : Nat)
  | noNoteForAmount (amount : Nat)
  | ambiguousNoteForAmount (amount : Nat)
deriving DecidableEq

def transactionLimit : Nat := 10

inductive CombinationResult where
  | twoExact (i j : Nat)
  | oneExact (i : Nat)
  | twoOvershoot (i j excess : Nat)
  | oneOvershoot (i excess : Nat)
  | exactK (indices : List Nat)
  | overshoot (indices : List Nat) (excess : Nat)
  | impossible
deriving DecidableEq

/-- `sort_unstable_by_key`: notes of the same amount come in any order. -/
structure SortByAmount where
  order : List (Nat × Nat) → List (Nat × Nat)
  perm : ∀ notes, (order notes).Perm notes
  sorted : ∀ notes, (order notes).Pairwise fun a b => a.2 ≤ b.2

inductive TwoScan where
  | exact (i j : Nat)
  | overshoot (i j excess : Nat)
  | miss

def twoScanLoop (sorted : List (Nat × Nat)) (goal : Nat) :
    Nat → Nat → Option (Nat × Nat × Nat) → Except PlanError TwoScan
  | 0, _, bestOvershoot =>
      .ok (match bestOvershoot with
        | some (i, j, excess) => .overshoot i j excess
        | none => .miss)
  | gap + 1, left, bestOvershoot =>
      let low := sorted.getD left (0, 0)
      let high := sorted.getD (left + gap + 1) (0, 0)
      match checkedAdd 128 low.2 high.2 with
      | none => .error .inputAmountOverflow
      | some sum =>
          if sum < goal then twoScanLoop sorted goal gap (left + 1) bestOvershoot
          else if sum - goal = 0 then .ok (.exact low.1 high.1)
          else twoScanLoop sorted goal gap left
            (if bestOvershoot.all fun best => sum - goal < best.2.2 then
              some (low.1, high.1, sum - goal)
            else bestOvershoot)

def twoScan (sorted : List (Nat × Nat)) (goal : Nat) : Except PlanError TwoScan :=
  if sorted.length < 2 then .ok .miss else twoScanLoop sorted goal (sorted.length - 1) 0 none

inductive OneScan where
  | exact (i : Nat)
  | overshoot (i excess : Nat)
  | miss

def oneScan : List (Nat × Nat) → Nat → OneScan
  | [], _ => .miss
  | (i, x) :: rest, goal =>
      if x < goal then oneScan rest goal
      else if x - goal = 0 then .exact i
      else .overshoot i (x - goal)

inductive KScan where
  | exact (indices : List Nat)
  | overshoot (indices : List Nat) (excess : Nat)
  | miss

structure DfsContext where
  iterationLimit : Nat
  path : List Nat
  bestOvershoot : Option (Nat × List Nat)

/-- Whether a path was found; the candidates are those from `index` on. -/
def dfs (goal targetK : Nat) :
    List (Nat × Nat) → Nat → DfsContext → Except PlanError (Bool × DfsContext)
  | candidates, sum, ctx =>
    if ctx.path.length = targetK then
      if sum < goal then .ok (false, ctx)
      else if sum - goal = 0 then .ok (true, ctx)
      else if ctx.bestOvershoot.all fun best => sum - goal < best.1 then
        .ok (false, { ctx with bestOvershoot := some (sum - goal, ctx.path) })
      else .ok (false, ctx)
    else match candidates with
      | [] => .ok (false, ctx)
      | note :: rest =>
        if goal ≤ sum ∨ ctx.iterationLimit = 0 then .ok (false, ctx)
        else match checkedAdd 128 sum note.2 with
          | none => .error .inputAmountOverflow
          | some withNote => do
            let (found, ctx) ← dfs goal targetK rest withNote
              { ctx with iterationLimit := ctx.iterationLimit - 1, path := ctx.path ++ [note.1] }
            if found then return (true, ctx)
            else dfs goal targetK rest sum { ctx with path := ctx.path.dropLast }

def kScanLoop (candidates : List (Nat × Nat)) (goal : Nat) : List Nat → Except PlanError (Option KScan)
  | [] => .ok none
  | k :: rest => do
      let (found, ctx) ← dfs goal k candidates 0 ⟨5000, [], none⟩
      if found then return some (.exact ctx.path)
      else match ctx.bestOvershoot with
        | some (excess, path) => return some (.overshoot path excess)
        | none => kScanLoop candidates goal rest

def greedyLoop (goal : Nat) : List (Nat × Nat) → Nat → List Nat → Except PlanError KScan
  | [], _, _ => .ok .miss
  | (i, x) :: rest, total, picks =>
      match checkedAdd 128 total x with
      | none => .error .inputAmountOverflow
      | some total =>
          if goal ≤ total then .ok (.overshoot (picks ++ [i]) (total - goal))
          else greedyLoop goal rest total (picks ++ [i])

/-- Three notes or more, as long as there are so many. -/
def kScanRounds (candidatesDesc : List (Nat × Nat)) (goal : Nat) : Except PlanError (Option KScan) :=
  if candidatesDesc.length ≥ 3 then
    kScanLoop candidatesDesc goal (List.range' 3 (min candidatesDesc.length transactionLimit - 2))
  else .ok none

def kScan (sorted : List (Nat × Nat)) (goal : Nat) : Except PlanError KScan := do
  match ← kScanRounds (sorted.filter fun note => note.2 < goal).reverse goal with
  | some result => return result
  | none => greedyLoop goal sorted.reverse 0 []

def findCombination (sort : SortByAmount) (values : List Nat) (goal : Nat) :
    Except PlanError CombinationResult :=
  if values.isEmpty then .ok .impossible
  else do
    let sorted := sort.order (values.zipIdx.map Prod.swap)
    let two ← twoScan sorted goal
    match two, oneScan sorted goal with
    | .exact i j, _ => return .twoExact i j
    | _, .exact i => return .oneExact i
    | .overshoot i j excess, _ => return .twoOvershoot i j excess
    | .miss, .overshoot i excess => return .oneOvershoot i excess
    | .miss, .miss =>
      match ← kScan sorted goal with
      | .exact indices => return .exactK indices
      | .overshoot indices excess => return .overshoot indices excess
      | .miss => return .impossible

abbrev amountSum (picks : List (Nat × Nat)) : Nat := (picks.map Prod.snd).sum

theorem sum_le_sum_take {xs ys : List Nat} (hsorted : xs.Pairwise (· ≥ ·)) (hsub : ys.Subperm xs) {k : Nat}
    (hlength : ys.length ≤ k) : ys.sum ≤ (xs.take k).sum := by
  obtain ⟨zs, hperm, hsub⟩ := hsub
  rw [← hperm.sum_eq]
  rw [← hperm.length_eq] at hlength
  clear hperm
  induction xs generalizing zs k with
  | nil =>
    rw [sublist_nil.mp hsub]
    exact Nat.zero_le _
  | cons x xs ih =>
    cases zs with
    | nil => exact Nat.zero_le _
    | cons z zs =>
      obtain ⟨k, rfl⟩ : ∃ n, k = n + 1 := ⟨k - 1, by rw [length_cons] at hlength; omega⟩
      obtain ⟨hfirst, hrest⟩ := pairwise_cons.mp hsorted
      have hz : z ≤ x := by
        rcases mem_cons.mp (hsub.subset mem_cons_self) with rfl | hmem
        · exact le_refl _
        · exact hfirst z hmem
      have htail := ih hrest zs (Nat.le_of_succ_le_succ hlength) hsub.tail
      rw [take_succ_cons, sum_cons, sum_cons]
      exact Nat.add_le_add hz htail

def Picked (notes : List (Nat × Nat)) (indices : List Nat) (total : Nat) : Prop :=
  ∃ picks, picks.Subperm notes ∧ picks.map Prod.fst = indices ∧ amountSum picks = total

variable {sorted : List (Nat × Nat)}

section TwoScan
variable {goal gap left : Nat} {best : Option (Nat × Nat × Nat)} {result : TwoScan}

def TwoScan.Sound (sorted : List (Nat × Nat)) (goal : Nat) : TwoScan → Prop
  | exact i j => Picked sorted [i, j] goal
  | overshoot i j excess => Picked sorted [i, j] (goal + excess)
  | miss => True

theorem picked_pair {right : Nat} (hlt : left < right) (hright : right < sorted.length) :
    Picked sorted [(sorted.getD left (0, 0)).1, (sorted.getD right (0, 0)).1]
      ((sorted.getD left (0, 0)).2 + (sorted.getD right (0, 0)).2) := by
  refine ⟨[sorted.getD left (0, 0), sorted.getD right (0, 0)], List.Sublist.subperm ?_, rfl, rfl⟩
  rw [getD_eq_getElem _ _ (hlt.trans hright), getD_eq_getElem _ _ hright]
  have hlow : [sorted[left]].Sublist (sorted.take right) :=
    singleton_sublist.mpr (mem_take_iff_getElem.mpr ⟨left, by omega, rfl⟩)
  have hhigh : [sorted[right]].Sublist (sorted.drop right) :=
    singleton_sublist.mpr (mem_drop_iff_getElem.mpr ⟨0, by omega, by simp⟩)
  have happend := hlow.append hhigh
  rwa [take_append_drop] at happend

theorem twoScanLoop_succ {low high : Nat × Nat} (hlow : sorted.getD left (0, 0) = low)
    (hhigh : sorted.getD (left + gap + 1) (0, 0) = high)
    (h : twoScanLoop sorted goal (gap + 1) left best = .ok result) :
    (low.2 + high.2 < goal ∧ twoScanLoop sorted goal gap (left + 1) best = .ok result) ∨
      (low.2 + high.2 = goal ∧ result = .exact low.1 high.1) ∨
      ∃ best', twoScanLoop sorted goal gap left best' = .ok result ∧ best'.isSome ∧
        (best' = best ∨ ∃ excess, low.2 + high.2 = goal + excess ∧ best' = some (low.1, high.1, excess)) := by
  simp only [twoScanLoop, hlow, hhigh] at h
  split at h
  · cases h
  · rename_i sum hsum
    obtain ⟨-, rfl⟩ := checkedAdd_eq_some hsum
    split at h
    · rename_i hless
      exact .inl ⟨hless, h⟩
    · rename_i hge
      split at h
      · cases h
        exact .inr (.inl ⟨by omega, rfl⟩)
      · refine .inr (.inr ⟨_, h, ?_⟩)
        split
        · exact ⟨rfl, .inr ⟨_, by omega, rfl⟩⟩
        · rename_i hworse
          cases best with
          | none => exact absurd rfl hworse
          | some best => exact ⟨rfl, .inl rfl⟩

theorem twoScanLoop_sound (h : twoScanLoop sorted goal gap left best = .ok result)
    (hbound : left + gap < sorted.length)
    (hbest : ∀ i j excess, best = some (i, j, excess) → Picked sorted [i, j] (goal + excess)) :
    result.Sound sorted goal := by
  induction gap generalizing left best with
  | zero =>
    cases h
    split
    · rename_i i j excess
      exact hbest i j excess rfl
    · trivial
  | succ gap ih =>
    have hpair := @picked_pair sorted left (left + gap + 1) (by omega) hbound
    rcases twoScanLoop_succ rfl rfl h with ⟨-, hnext⟩ | ⟨hsum, rfl⟩ | ⟨best', hnext, -, hbest'⟩
    · exact ih hnext (by omega) hbest
    · rwa [hsum] at hpair
    · refine ih hnext (by omega) fun i j excess hsome => ?_
      rcases hbest' with rfl | ⟨_, hsum, rfl⟩
      · exact hbest i j excess hsome
      · cases hsome
        rwa [hsum] at hpair

theorem twoScanLoop_ne_miss (hbest : best.isSome) : twoScanLoop sorted goal gap left best ≠ .ok .miss := by
  induction gap generalizing left best with
  | zero =>
    obtain ⟨⟨i, j, excess⟩, rfl⟩ := Option.isSome_iff_exists.mp hbest
    exact fun h => nomatch h
  | succ gap ih =>
    intro h
    rcases twoScanLoop_succ rfl rfl h with ⟨-, hnext⟩ | ⟨-, heq⟩ | ⟨best', hnext, hsome, -⟩
    · exact ih hbest hnext
    · cases heq
    · exact ih hsome hnext

theorem twoScanLoop_miss (h : twoScanLoop sorted goal gap left none = .ok .miss) {low : Nat}
    (hle : left ≤ low) (hlt : low < left + gap) :
    (sorted.getD low (0, 0)).2 + (sorted.getD (left + gap) (0, 0)).2 < goal := by
  induction gap generalizing left with
  | zero => omega
  | succ gap ih =>
    rcases twoScanLoop_succ rfl rfl h with ⟨hless, hnext⟩ | ⟨-, heq⟩ | ⟨best', hnext, hsome, -⟩
    · rcases Nat.eq_or_lt_of_le hle with rfl | hafter
      · exact hless
      · have hpair := ih hnext hafter (by omega)
        rwa [show left + 1 + gap = left + (gap + 1) by omega] at hpair
    · cases heq
    · exact absurd hnext (twoScanLoop_ne_miss hsome)

theorem twoScan_sound (h : twoScan sorted goal = .ok result) : result.Sound sorted goal := by
  unfold twoScan at h
  split at h
  · cases h
    trivial
  · exact twoScanLoop_sound h (by omega) (by simp)

theorem twoScan_miss (h : twoScan sorted goal = .ok .miss) (hlength : 2 ≤ sorted.length) :
    amountSum (sorted.reverse.take 2) < goal := by
  rw [twoScan, if_neg (by omega)] at h
  have hpair := @twoScanLoop_miss _ _ _ _ h (sorted.length - 2) (by omega) (by omega)
  have htake : sorted.reverse.take 2 =
      [sorted.getD (sorted.length - 1) (0, 0), sorted.getD (sorted.length - 2) (0, 0)] := by
    apply ext_getElem
    · simp
      omega
    · intro i hi hi'
      rw [getElem_take, getElem_reverse]
      simp only [length_cons, length_nil] at hi'
      rcases i with _ | _ | i
      · rw [getElem_cons_zero, getD_eq_getElem _ _ (by omega)]
        rfl
      · rw [getElem_cons_succ, getElem_cons_zero, getD_eq_getElem _ _ (by omega)]
        rfl
      · omega
  rw [htake, amountSum, map_cons, map_cons, map_nil, sum_cons, sum_cons, sum_nil]
  rw [zero_add] at hpair
  omega

end TwoScan

variable {goal : Nat}

variable {note : Nat × Nat}

section OneScan

def OneScan.Sound (sorted : List (Nat × Nat)) (goal : Nat) : OneScan → Prop
  | exact i => Picked sorted [i] goal
  | overshoot i excess => Picked sorted [i] (goal + excess)
  | miss => ∀ note ∈ sorted, note.2 < goal

theorem picked_single (h : note ∈ sorted) : Picked sorted [note.1] note.2 :=
  ⟨[note], (singleton_sublist.mpr h).subperm, rfl, rfl⟩

theorem oneScan_sound (sorted : List (Nat × Nat)) (goal : Nat) : (oneScan sorted goal).Sound sorted goal := by
  suffices h : ∀ rest, (∀ note ∈ rest, note ∈ sorted) → (∀ note ∈ sorted, note ∈ rest ∨ note.2 < goal) →
      (oneScan rest goal).Sound sorted goal from
    h sorted (fun _ => id) fun _ hmem => .inl hmem
  intro rest hsub hsmall
  induction rest with
  | nil => exact fun note hnote => (hsmall note hnote).resolve_left not_mem_nil
  | cons note rest ih =>
    obtain ⟨i, x⟩ := note
    have hpicked := picked_single (hsub (i, x) mem_cons_self)
    unfold oneScan
    split
    · rename_i hless
      apply ih fun note hnote => hsub note (mem_cons_of_mem _ hnote)
      intro note hnote
      rcases hsmall note hnote with hmem | hlt
      · rcases mem_cons.mp hmem with rfl | hrest
        · exact .inr hless
        · exact .inl hrest
      · exact .inr hlt
    · split
      · rename_i hge hzero
        rw [show x = goal by omega] at hpicked
        exact hpicked
      · rename_i hge hzero
        rw [show x = goal + (x - goal) by omega] at hpicked
        exact hpicked

end OneScan

section Search
variable {goal targetK sum : Nat} {candidates : List (Nat × Nat)} {ctx ctx' : DfsContext} {found : Bool}

def DfsContext.push (ctx : DfsContext) (note : Nat × Nat) : DfsContext :=
  { ctx with iterationLimit := ctx.iterationLimit - 1, path := ctx.path ++ [note.1] }

def DfsContext.pop (ctx : DfsContext) : DfsContext := { ctx with path := ctx.path.dropLast }

inductive Search (goal targetK : Nat) :
    List (Nat × Nat) → Nat → DfsContext → Bool → DfsContext → Prop where
  | exact {candidates : List (Nat × Nat)} {ctx : DfsContext} (hfull : ctx.path.length = targetK) :
      Search goal targetK candidates goal ctx true ctx
  | short {candidates : List (Nat × Nat)} {sum : Nat} {ctx : DfsContext}
      (hfull : ctx.path.length = targetK) (hless : sum < goal) :
      Search goal targetK candidates sum ctx false ctx
  | overshoot {candidates : List (Nat × Nat)} {excess : Nat} {ctx : DfsContext}
      {bestOvershoot : Option (Nat × List Nat)} (hfull : ctx.path.length = targetK)
      (hsome : bestOvershoot.isSome)
      (hbest : bestOvershoot = ctx.bestOvershoot ∨ bestOvershoot = some (excess, ctx.path)) :
      Search goal targetK candidates (goal + excess) ctx false { ctx with bestOvershoot }
  | stop {candidates : List (Nat × Nat)} {sum : Nat} {ctx : DfsContext}
      (hopen : ctx.path.length ≠ targetK)
      (hstop : candidates = [] ∨ goal ≤ sum ∨ ctx.iterationLimit = 0) :
      Search goal targetK candidates sum ctx false ctx
  | found {rest : List (Nat × Nat)} {note : Nat × Nat} {sum : Nat} {ctx ctx' : DfsContext}
      (hopen : ctx.path.length ≠ targetK)
      (h : Search goal targetK rest (sum + note.2) (ctx.push note) true ctx') :
      Search goal targetK (note :: rest) sum ctx true ctx'
  | skip {rest : List (Nat × Nat)} {note : Nat × Nat} {sum : Nat} {ctx ctx₁ ctx' : DfsContext}
      {found : Bool} (hopen : ctx.path.length ≠ targetK)
      (h : Search goal targetK rest (sum + note.2) (ctx.push note) false ctx₁)
      (h' : Search goal targetK rest sum ctx₁.pop found ctx') :
      Search goal targetK (note :: rest) sum ctx found ctx'

theorem dfs_leaf (hfull : ctx.path.length = targetK)
    (h : (if sum < goal then (.ok (false, ctx) : Except PlanError (Bool × DfsContext))
      else if sum - goal = 0 then .ok (true, ctx)
      else if ctx.bestOvershoot.all fun best => sum - goal < best.1 then
        .ok (false, { ctx with bestOvershoot := some (sum - goal, ctx.path) })
      else .ok (false, ctx)) = .ok (found, ctx')) :
    Search goal targetK candidates sum ctx found ctx' := by
  split at h
  · rename_i hless
    cases h
    exact .short hfull hless
  · split at h
    · cases h
      obtain rfl : sum = goal := by omega
      exact .exact hfull
    · obtain ⟨excess, rfl⟩ : ∃ excess, sum = goal + excess := ⟨sum - goal, by omega⟩
      rw [Nat.add_sub_cancel_left] at h
      split at h
      · cases h
        exact .overshoot hfull rfl (.inr rfl)
      · rename_i hworse
        cases h
        have hsome : ctx.bestOvershoot.isSome := by
          cases hbest : ctx.bestOvershoot with
          | none =>
            rw [hbest] at hworse
            exact absurd rfl hworse
          | some best => rfl
        exact .overshoot hfull hsome (.inl rfl)

theorem dfs_search (h : dfs goal targetK candidates sum ctx = .ok (found, ctx')) :
    Search goal targetK candidates sum ctx found ctx' := by
  induction candidates generalizing sum ctx ctx' found with
  | nil =>
    unfold dfs at h
    split at h
    · rename_i hfull
      exact dfs_leaf hfull h
    · rename_i hopen
      cases h
      exact .stop hopen (.inl rfl)
  | cons note rest ih =>
    unfold dfs at h
    split at h
    · rename_i hfull
      exact dfs_leaf hfull h
    · rename_i hopen
      dsimp only at h
      split at h
      · rename_i hstop
        cases h
        exact .stop hopen (.inr hstop)
      · split at h
        · cases h
        · rename_i withNote hsum
          obtain ⟨-, rfl⟩ := checkedAdd_eq_some hsum
          obtain ⟨⟨found₁, ctx₁⟩, hfirst, hsecond⟩ := bind_eq_ok h
          cases found₁ with
          | true =>
            cases hsecond
            exact .found hopen (ih hfirst)
          | false => exact .skip hopen (ih hfirst) (ih hsecond)

def SearchPath (candidates : List (Nat × Nat)) (targetK total sum : Nat) (start path : List Nat) : Prop :=
  ∃ picks, picks.Sublist candidates ∧ path = start ++ picks.map Prod.fst ∧ path.length = targetK ∧
    sum + amountSum picks = total

theorem SearchPath.nil {path : List Nat} (h : path.length = targetK) : SearchPath candidates targetK sum sum path path :=
  ⟨[], nil_sublist _, (append_nil _).symm, h, add_zero _⟩

variable {start path : List Nat} {total : Nat}

theorem SearchPath.cons
    (h : SearchPath candidates targetK total (sum + note.2) (start ++ [note.1]) path) :
    SearchPath (note :: candidates) targetK total sum start path := by
  obtain ⟨picks, hsub, rfl, hlength, htotal⟩ := h
  refine ⟨note :: picks, hsub.cons_cons note, by simp, hlength, ?_⟩
  rw [← htotal, amountSum, map_cons, sum_cons, add_assoc]

theorem SearchPath.skip
    (h : SearchPath candidates targetK total sum start path) : SearchPath (note :: candidates) targetK total sum start path := by
  obtain ⟨picks, hsub, hpath, hlength, htotal⟩ := h
  exact ⟨picks, hsub.cons note, hpath, hlength, htotal⟩

structure SearchSound (goal targetK : Nat) (candidates : List (Nat × Nat)) (sum : Nat) (ctx : DfsContext)
    (found : Bool) (ctx' : DfsContext) : Prop where
  exact : found = true → SearchPath candidates targetK goal sum ctx.path ctx'.path
  restored : found = false → ctx'.path = ctx.path
  best : ∀ excess path, ctx'.bestOvershoot = some (excess, path) →
    ctx.bestOvershoot = some (excess, path) ∨ SearchPath candidates targetK (goal + excess) sum ctx.path path
  kept : ctx.bestOvershoot.isSome → ctx'.bestOvershoot.isSome

section
variable (h : Search goal targetK candidates sum ctx found ctx')
include h

theorem Search.sound :
    SearchSound goal targetK candidates sum ctx found ctx' := by
  induction h with
  | exact hfull => exact ⟨fun _ => .nil hfull, fun _ => rfl, fun _ _ => .inl, id⟩
  | short => exact ⟨nofun, fun _ => rfl, fun _ _ => .inl, id⟩
  | overshoot hfull hsome hbest =>
    refine ⟨nofun, fun _ => rfl, fun excess path heq => ?_, fun _ => hsome⟩
    rcases hbest with hold | hnew
    · exact .inl (hold ▸ heq)
    · cases hnew.symm.trans heq
      exact .inr (.nil hfull)
  | stop => exact ⟨nofun, fun _ => rfl, fun _ _ => .inl, id⟩
  | found hopen h ih =>
    exact ⟨fun _ => (ih.exact rfl).cons, nofun,
      fun excess path heq => (ih.best excess path heq).imp_right SearchPath.cons, ih.kept⟩
  | @skip rest note sum ctx ctx₁ ctx' found hopen h h' ih ih' =>
    have hpath : ctx₁.pop.path = ctx.path := by
      rw [DfsContext.pop, ih.restored rfl]
      exact dropLast_concat
    refine ⟨fun hfound => ?_, fun hfound => (ih'.restored hfound).trans hpath, ?_,
      fun hsome => ih'.kept (ih.kept hsome)⟩
    · have hexact := ih'.exact hfound
      rw [hpath] at hexact
      exact hexact.skip
    · intro excess path heq
      rcases ih'.best excess path heq with hold | hnew
      · exact (ih.best excess path hold).imp_right SearchPath.cons
      · rw [hpath] at hnew
        exact .inr hnew.skip

theorem Search.first {m : Nat}
    (hlength : ctx.path.length + m = targetK) (hm : m ≤ candidates.length) (hlimit : m ≤ ctx.iterationLimit)
    (hless : ∀ i < m, sum + amountSum (candidates.take i) < goal)
    (hreach : goal ≤ sum + amountSum (candidates.take m)) : found = true ∨ ctx'.bestOvershoot.isSome := by
  induction h generalizing m with
  | exact => exact .inl rfl
  | short hfull hshort =>
    obtain rfl : m = 0 := by omega
    exact absurd hreach (not_le.mpr hshort)
  | overshoot hfull hsome hbest => exact .inr hsome
  | stop hopen hstop =>
    have hzero := hless 0 (by omega)
    rw [take_zero, amountSum, map_nil, sum_nil] at hzero
    rcases hstop with rfl | hge | hdone
    · rw [length_nil] at hm
      omega
    · omega
    · omega
  | found => exact .inl rfl
  | @skip rest note sum ctx ctx₁ ctx' found hopen h h' ih ih' =>
    obtain ⟨m, rfl⟩ : ∃ n, m = n + 1 := ⟨m - 1, by omega⟩
    have hsum : ∀ i, sum + amountSum ((note :: rest).take (i + 1)) =
        sum + note.2 + amountSum (rest.take i) := by
      intro i
      rw [take_succ_cons, amountSum, map_cons, sum_cons, add_assoc]
    have hfirst : false = true ∨ ctx₁.bestOvershoot.isSome := by
      apply ih (m := m)
      · simp only [DfsContext.push, length_append, length_singleton]
        omega
      · exact Nat.le_of_succ_le_succ hm
      · exact Nat.le_sub_one_of_lt hlimit
      · intro i hi
        rw [← hsum]
        exact hless (i + 1) (by omega)
      · rwa [← hsum]
    exact .inr (h'.sound.kept (hfirst.resolve_left nofun))

end

end Search

section KScan
variable {sorted candidates : List (Nat × Nat)} {result : KScan}

/-- Notes in the order of the list, and no fewer of its first notes reach the goal. -/
def PickedInOrder (notes : List (Nat × Nat)) (goal : Nat) (indices : List Nat) (total : Nat) : Prop :=
  ∃ picks, picks.Sublist notes ∧ picks.map Prod.fst = indices ∧ amountSum picks = total ∧
    ∀ i < picks.length, amountSum (notes.take i) < goal

def KScan.Sound (notes : List (Nat × Nat)) (goal : Nat) : KScan → Prop
  | exact indices => PickedInOrder notes goal indices goal
  | overshoot indices excess => PickedInOrder notes goal indices (goal + excess)
  | miss => True

theorem SearchPath.pickedInOrder {k total : Nat} {path : List Nat} (h : SearchPath candidates k total 0 [] path)
    (hless : ∀ i < k, amountSum (candidates.take i) < goal) : PickedInOrder candidates goal path total := by
  obtain ⟨picks, hsub, rfl, hlength, htotal⟩ := h
  rw [nil_append, length_map] at hlength
  exact ⟨picks, hsub, rfl, (zero_add _).symm.trans htotal, hlength ▸ hless⟩

theorem kScanLoop_sound {start count : Nat}
    (h : kScanLoop candidates goal (List.range' start count) = .ok (some result))
    (hbound : start + count ≤ candidates.length + 1) (hlimit : start + count ≤ 5000)
    (hless : ∀ i < start, amountSum (candidates.take i) < goal) : result.Sound candidates goal := by
  induction count generalizing start with
  | zero => cases h
  | succ count ih =>
    rw [range'_succ] at h
    obtain ⟨⟨found, ctx⟩, hdfs, hrest⟩ := bind_eq_ok h
    have hsearch := dfs_search hdfs
    cases found with
    | true =>
      cases hrest
      exact (hsearch.sound.exact rfl).pickedInOrder hless
    | false =>
      cases hbest : ctx.bestOvershoot with
      | some best =>
        obtain ⟨excess, path⟩ := best
        simp only [hbest] at hrest
        cases hrest
        exact ((hsearch.sound.best excess path hbest).resolve_left nofun).pickedInOrder hless
      | none =>
        simp only [hbest] at hrest
        have hmiss : amountSum (candidates.take start) < goal := by
          by_contra hge
          rcases hsearch.first (zero_add _) (by omega) (show start ≤ 5000 by omega)
            (fun i hi => by simpa using hless i hi) (by simpa using hge) with hfound | hsome
          · cases hfound
          · rw [hbest] at hsome
            cases hsome
        apply ih hrest (by omega) (by omega)
        intro i hi
        rcases Nat.lt_succ_iff_lt_or_eq.mp hi with hlt | rfl
        · exact hless i hlt
        · exact hmiss

theorem greedyLoop_sound {notes rest first : List (Nat × Nat)} (hnotes : first ++ rest = notes)
    (h : greedyLoop goal rest (amountSum first) (first.map Prod.fst) = .ok result)
    (hless : ∀ i ≤ first.length, amountSum (notes.take i) < goal) : result.Sound notes goal := by
  induction rest generalizing first with
  | nil =>
    cases h
    trivial
  | cons note rest ih =>
    obtain ⟨i, x⟩ := note
    unfold greedyLoop at h
    split at h
    · cases h
    · rename_i total htotal
      obtain ⟨-, rfl⟩ := checkedAdd_eq_some htotal
      have hsum : amountSum (first ++ [(i, x)]) = amountSum first + x := by simp [amountSum]
      have htake : notes.take (first.length + 1) = first ++ [(i, x)] := by
        rw [← hnotes, take_append]
        simp
      rw [← hsum] at h
      split at h
      · rename_i hreached
        cases h
        refine ⟨first ++ [(i, x)], ?_, by simp, (Nat.add_sub_of_le hreached).symm, ?_⟩
        · rw [← htake]
          exact take_sublist _ _
        · intro n hn
          rw [length_append, length_singleton] at hn
          exact hless n (by omega)
      · rename_i hshort
        refine @ih (first ++ [(i, x)]) ?_ ?_ ?_
        · rw [← hnotes, append_assoc]
          rfl
        · rwa [map_append]
        · intro n hn
          rw [length_append, length_singleton] at hn
          rcases Nat.lt_succ_iff_lt_or_eq.mp (Nat.lt_succ_of_le hn) with hlt | rfl
          · exact hless n (by omega)
          · rw [htake]
            exact not_le.mp hshort

theorem filter_below (hone : ∀ note ∈ sorted, note.2 < goal) : (sorted.filter fun note => note.2 < goal) = sorted :=
  filter_eq_self.mpr fun note hnote => by simpa using hone note hnote

theorem kScan_sound (h : kScan sorted goal = .ok result) (hpos : 0 < goal)
    (hone : ∀ note ∈ sorted, note.2 < goal) (htwo : twoScan sorted goal = .ok .miss) :
    result.Sound sorted.reverse goal := by
  rw [kScan, filter_below hone] at h
  obtain ⟨found, hfound, hrest⟩ := bind_eq_ok h
  cases found with
  | none =>
    have hstart : ([] : List (Nat × Nat)) ++ sorted.reverse = sorted.reverse := nil_append _
    refine greedyLoop_sound hstart hrest fun i hi => ?_
    obtain rfl := Nat.le_zero.mp hi
    exact hpos
  | some found =>
    cases hrest
    unfold kScanRounds at hfound
    split at hfound
    · rename_i hlength
      apply kScanLoop_sound hfound
      · omega
      · simp only [transactionLimit]
        omega
      · intro i hi
        rw [ge_iff_le, length_reverse] at hlength
        rcases i with _ | _ | i
        · exact hpos
        · obtain ⟨last, rest, hreverse⟩ : ∃ last rest, sorted.reverse = last :: rest :=
            exists_cons_of_length_pos (by rw [length_reverse]; omega)
          have hlast := hone last (mem_reverse.mp (hreverse ▸ mem_cons_self))
          rw [hreverse]
          exact hlast
        · obtain rfl : i = 0 := by omega
          exact twoScan_miss htwo (by omega)
    · cases hfound

end KScan

def CombinationResult.selected : CombinationResult → Option (List Nat × Option Nat)
  | twoExact i j => some ([i, j], none)
  | oneExact i => some ([i], none)
  | twoOvershoot i j excess => some ([i, j], some excess)
  | oneOvershoot i excess => some ([i], some excess)
  | exactK indices => some (indices, none)
  | overshoot indices excess => some (indices, some excess)
  | impossible => none

/-- Different notes that reach the goal.  Three or more are ordered by their amounts, and no
fewer notes would do. -/
structure Selection (values : List Nat) (goal : Nat) (picks : List (Nat × Nat)) (change : Option Nat) :
    Prop where
  picked : picks.Subperm (values.zipIdx.map Prod.swap)
  nonempty : picks ≠ []
  total : amountSum picks = goal + change.getD 0
  descending : 2 < picks.length → (picks.map Prod.snd).Pairwise (· ≥ ·)
  minimal : 2 < picks.length → ∀ others : List Nat, others.Subperm values →
    others.length < picks.length → others.sum < goal

section Selection
variable {sort : SortByAmount} {values : List Nat} {indices : List Nat} {change : Option Nat}
  {result : CombinationResult}

theorem Picked.selection (sort : SortByAmount) (h : Picked (sort.order (values.zipIdx.map Prod.swap)) indices
      (goal + change.getD 0)) (hne : indices ≠ []) (hlength : indices.length ≤ 2) :
    ∃ picks, Selection values goal picks change ∧ picks.map Prod.fst = indices := by
  obtain ⟨picks, hsub, rfl, htotal⟩ := h
  rw [length_map] at hlength
  exact ⟨picks, ⟨hsub.trans (sort.perm _).subperm, fun hnil => hne (by rw [hnil]; rfl), htotal,
    fun hlt => absurd hlt (by omega), fun hlt => absurd hlt (by omega)⟩, rfl⟩

theorem SortByAmount.descends (sort : SortByAmount) (notes : List (Nat × Nat)) :
    ((sort.order notes).reverse.map Prod.snd).Pairwise (· ≥ ·) := by
  rw [pairwise_map, pairwise_reverse]
  exact sort.sorted notes

theorem snd_zipIdx (values : List Nat) : (values.zipIdx.map Prod.swap).map Prod.snd = values := by
  rw [map_map, show (Prod.snd ∘ Prod.swap : Nat × Nat → Nat) = Prod.fst from rfl, zipIdx_map_fst]

theorem SortByAmount.amounts_perm (sort : SortByAmount) (values : List Nat) :
    ((sort.order (values.zipIdx.map Prod.swap)).reverse.map Prod.snd).Perm values := by
  have hperm := ((reverse_perm _).trans (sort.perm (values.zipIdx.map Prod.swap))).map Prod.snd
  rwa [snd_zipIdx] at hperm

theorem PickedInOrder.selection (sort : SortByAmount) (h : PickedInOrder (sort.order (values.zipIdx.map Prod.swap)).reverse goal
      indices (goal + change.getD 0)) (hpos : 0 < goal) :
    ∃ picks, Selection values goal picks change ∧ picks.map Prod.fst = indices := by
  obtain ⟨picks, hsub, rfl, htotal, hless⟩ := h
  have hdescending := sort.descends (values.zipIdx.map Prod.swap)
  refine ⟨picks, ⟨?_, ?_, htotal, ?_, ?_⟩, rfl⟩
  · exact hsub.subperm.trans ((reverse_perm _).trans (sort.perm _)).subperm
  · rintro rfl
    have hzero : 0 = goal + change.getD 0 := htotal
    omega
  · intro _
    exact hdescending.sublist (hsub.map _)
  · intro _ others hothers hlength
    have hle := sum_le_sum_take hdescending (hothers.trans (sort.amounts_perm values).symm.subperm) (le_refl others.length)
    rw [← map_take] at hle
    exact hle.trans_lt (hless _ hlength)

theorem findCombination_selection (h : findCombination sort values goal = .ok result) (hpos : 0 < goal)
    (hselected : result.selected = some (indices, change)) :
    ∃ picks, Selection values goal picks change ∧ picks.map Prod.fst = indices := by
  unfold findCombination at h
  split at h
  · cases h
    cases hselected
  · obtain ⟨two, htwo, h⟩ := bind_eq_ok h
    have hsound := twoScan_sound htwo
    have hone := oneScan_sound (sort.order (values.zipIdx.map Prod.swap)) goal
    split at h
    · cases h
      cases hselected
      exact Picked.selection sort hsound (cons_ne_nil _ _) (le_refl _)
    · rename_i i hscan hnot
      rw [hnot] at hone
      cases h
      cases hselected
      exact Picked.selection sort hone (cons_ne_nil _ _) (Nat.le_succ _)
    · cases h
      cases hselected
      exact Picked.selection sort hsound (cons_ne_nil _ _) (le_refl _)
    · rename_i hscan
      rw [hscan] at hone
      cases h
      cases hselected
      exact Picked.selection sort hone (cons_ne_nil _ _) (Nat.le_succ _)
    · rename_i hscan
      rw [hscan] at hone
      obtain ⟨found, hfound, h⟩ := bind_eq_ok h
      have hk := kScan_sound hfound hpos hone htwo
      cases found with
      | exact indices =>
        cases h
        cases hselected
        exact PickedInOrder.selection sort hk hpos
      | overshoot indices excess =>
        cases h
        cases hselected
        exact PickedInOrder.selection sort hk hpos
      | miss =>
        cases h
        cases hselected

end Selection

end PrivatePayments.Sdk

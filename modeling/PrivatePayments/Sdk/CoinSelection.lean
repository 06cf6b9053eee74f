import Mathlib.Order.Bounds.Basic
import PrivatePayments.Sdk.SpendSession

/-! What coin selection finds among all selections of a wallet's notes. -/
namespace PrivatePayments.Sdk
open Contracts List

theorem checkedAdd_of_lt {width a b : Nat} (h : a + b < 2 ^ width) : checkedAdd width a b = some (a + b) :=
  if_pos h

abbrev numbered (values : List Nat) : List (Nat × Nat) := values.zipIdx.map Prod.swap

def CombinationResult.ofScans (more : Except PlanError KScan) :
    TwoScan → OneScan → Except PlanError CombinationResult
  | .exact i j, _ => .ok (.twoExact i j)
  | .overshoot _ _ _, .exact i => .ok (.oneExact i)
  | .overshoot i j excess, _ => .ok (.twoOvershoot i j excess)
  | .miss, .exact i => .ok (.oneExact i)
  | .miss, .overshoot i excess => .ok (.oneOvershoot i excess)
  | .miss, .miss => more.map fun
    | .exact indices => .exactK indices
    | .overshoot indices excess => .overshoot indices excess
    | .miss => .impossible

theorem findCombination_eq (sort : SortByAmount) {values : List Nat} (hne : values ≠ []) (goal : Nat) {two : TwoScan}
    (htwo : twoScan (sort.order (numbered values)) goal = .ok two) :
    findCombination sort values goal = CombinationResult.ofScans (kScan (sort.order (numbered values)) goal) two
      (oneScan (sort.order (numbered values)) goal) := by
  have hnonempty : values.isEmpty = false := isEmpty_eq_false_iff.mpr hne
  rw [findCombination, hnonempty]
  simp only [Bool.false_eq_true, if_false, htwo, ok_bind]
  cases two with
  | exact i j => rfl
  | overshoot i j excess => cases oneScan (sort.order (numbered values)) goal <;> rfl
  | miss =>
    cases oneScan (sort.order (numbered values)) goal with
    | exact i => rfl
    | overshoot i excess => rfl
    | miss =>
      cases kScan (sort.order (numbered values)) goal with
      | error e => rfl
      | ok found => cases found <;> rfl

section OfScans
variable {more : Except PlanError KScan} {two : TwoScan} {one : OneScan} {i j excess : Nat}

theorem ofScans_eq_twoExact : CombinationResult.ofScans more two one = .ok (.twoExact i j) ↔ two = .exact i j := by
  rcases two with _ | _ | _ <;> rcases one with _ | _ | _ <;> rcases more with _ | _ | _ | _ <;>
    simp [CombinationResult.ofScans, Except.map]

theorem ofScans_eq_twoOvershoot (h : CombinationResult.ofScans more two one = .ok (.twoOvershoot i j excess)) :
    two = .overshoot i j excess := by
  rcases two with _ | _ | _ <;> rcases one with _ | _ | _ <;> rcases more with _ | _ | _ | _ <;>
    simp_all [CombinationResult.ofScans, Except.map]

theorem ofScans_eq_exactK {indices : List Nat} :
    CombinationResult.ofScans more .miss .miss = .ok (.exactK indices) ↔ more = .ok (.exact indices) := by
  rcases more with _ | _ | _ | _ <;> simp [CombinationResult.ofScans, Except.map]

end OfScans

variable {sorted : List (Nat × Nat)}

section Pairs
variable {goal gap left : Nat} {best : Option (Nat × Nat × Nat)}

/-- At least as good as a pair with this excess. -/
def TwoScan.Beats : TwoScan → Nat → Prop
  | exact _ _, _ => True
  | overshoot _ _ excess, bound => 0 < excess ∧ excess ≤ bound
  | miss, _ => False

theorem TwoScan.Beats.mono {result : TwoScan} {a b : Nat} (h : result.Beats a) (hle : a ≤ b) : result.Beats b := by
  cases result with
  | exact => trivial
  | overshoot => exact ⟨h.1, h.2.trans hle⟩
  | miss => exact h

theorem exists_better (best : Option (Nat × Nat × Nat)) (i j excess : Nat) :
    ∃ i' j' excess', (if best.all fun best => excess < best.2.2 then some (i, j, excess) else best) =
      some (i', j', excess') ∧ (excess' = excess ∨ best = some (i', j', excess')) ∧ excess' ≤ excess ∧
        ∀ i₀ j₀ excess₀, best = some (i₀, j₀, excess₀) → excess' ≤ excess₀ := by
  cases best with
  | none => exact ⟨i, j, excess, rfl, .inl rfl, le_refl _, nofun⟩
  | some best =>
    obtain ⟨i₀, j₀, excess₀⟩ := best
    by_cases hless : excess < excess₀
    · refine ⟨i, j, excess, if_pos (by simpa using hless), .inl rfl, le_refl _, ?_⟩
      rintro _ _ _ ⟨⟩
      exact hless.le
    · refine ⟨i₀, j₀, excess₀, if_neg (by simpa using hless), .inr rfl, Nat.le_of_not_lt hless, ?_⟩
      rintro _ _ _ ⟨⟩
      exact le_refl _

abbrev pairSum (sorted : List (Nat × Nat)) (l r : Nat) : Nat :=
  (sorted.getD l (0, 0)).2 + (sorted.getD r (0, 0)).2

theorem amount_le_amount (hsorted : sorted.Pairwise fun a b => a.2 ≤ b.2) {l r : Nat} (hle : l ≤ r)
    (hr : r < sorted.length) : (sorted.getD l (0, 0)).2 ≤ (sorted.getD r (0, 0)).2 := by
  rcases Nat.eq_or_lt_of_le hle with rfl | hlt
  · exact le_refl _
  · rw [getD_eq_getElem _ _ (hlt.trans hr), getD_eq_getElem _ _ hr]
    exact pairwise_iff_getElem.mp hsorted l r (hlt.trans hr) hr hlt

section
variable (hsorted : sorted.Pairwise fun a b => a.2 ≤ b.2)
  (hfits : ∀ l r, l < r → r < sorted.length → pairSum sorted l r < 2 ^ 128)
include hsorted hfits

/-- The loop is left with a pair that no pair between the pointers beats: moving the left pointer drops
pairs that do not reach the goal, moving the right one drops pairs with more excess. -/
theorem twoScanLoop_best
    (hbound : left + gap < sorted.length) (hpos : ∀ i j excess, best = some (i, j, excess) → 0 < excess) :
    ∃ result, twoScanLoop sorted goal gap left best = .ok result ∧
      (∀ i j excess, best = some (i, j, excess) → result.Beats excess) ∧
      ∀ l r, left ≤ l → l < r → r ≤ left + gap → goal ≤ pairSum sorted l r →
        result.Beats (pairSum sorted l r - goal) := by
  induction gap generalizing left best with
  | zero =>
    refine ⟨_, rfl, ?_, fun l r hl hlr hr => by omega⟩
    rintro i j excess rfl
    exact ⟨hpos i j excess rfl, le_refl _⟩
  | succ gap ih =>
    have hsum : (sorted.getD left (0, 0)).2 + (sorted.getD (left + gap + 1) (0, 0)).2 < 2 ^ 128 :=
      hfits left (left + gap + 1) (by omega) hbound
    simp only [twoScanLoop, checkedAdd_of_lt hsum]
    split
    · rename_i hless
      obtain ⟨result, hrun, hbest, hpairs⟩ := @ih (left + 1) best (by omega) hpos
      refine ⟨result, hrun, hbest, ?_⟩
      intro l r hl hlr hr hcover
      rcases Nat.eq_or_lt_of_le hl with rfl | hafter
      · have hhigh := amount_le_amount hsorted hr hbound
        rw [pairSum, ← add_assoc] at *
        omega
      · exact hpairs l r hafter hlr (by omega) hcover
    · split
      · exact ⟨_, rfl, fun _ _ _ _ => trivial, fun _ _ _ _ _ _ => trivial⟩
      · rename_i hge hne
        obtain ⟨i', j', excess', heq, hfrom, hle, hbetter⟩ := exists_better best (sorted.getD left (0, 0)).1
          (sorted.getD (left + gap + 1) (0, 0)).1
          ((sorted.getD left (0, 0)).2 + (sorted.getD (left + gap + 1) (0, 0)).2 - goal)
        rw [heq]
        have hpos' : 0 < excess' := by
          rcases hfrom with rfl | hold
          · omega
          · exact hpos i' j' excess' hold
        obtain ⟨result, hrun, hbest, hpairs⟩ := @ih left (some (i', j', excess')) (by omega) (by
          rintro _ _ _ ⟨⟩
          exact hpos')
        have hbeats := hbest i' j' excess' rfl
        refine ⟨result, hrun, fun i j excess hsome => hbeats.mono (hbetter i j excess hsome), ?_⟩
        intro l r hl hlr hr hcover
        rcases Nat.eq_or_lt_of_le hr with rfl | hbefore
        · have hlow := amount_le_amount hsorted hl (by omega)
          refine hbeats.mono (hle.trans ?_)
          rw [pairSum, ← add_assoc]
          omega
        · exact hpairs l r hl hlr (by omega) hcover

theorem twoScan_best (hlength : 2 ≤ sorted.length) :
    ∃ result, twoScan sorted goal = .ok result ∧ ∀ l r, l < r → r < sorted.length → goal ≤ pairSum sorted l r →
      result.Beats (pairSum sorted l r - goal) := by
  obtain ⟨result, hrun, -, hpairs⟩ := @twoScanLoop_best sorted goal (sorted.length - 1) 0 none hsorted hfits
    (by omega) nofun
  refine ⟨result, ?_, fun l r hlr hr => hpairs l r (Nat.zero_le _) hlr (by omega)⟩
  rw [twoScan, if_neg (by omega), hrun]

end

def PairAt (values : List Nat) (i j total : Nat) : Prop :=
  i ≠ j ∧ ∃ x y, values[i]? = some x ∧ values[j]? = some y ∧ x + y = total

variable {values : List Nat}

theorem mem_numbered {note : Nat × Nat} : note ∈ numbered values ↔ values[note.1]? = some note.2 := by
  obtain ⟨i, x⟩ := note
  simp only [mem_map, Prod.exists, Prod.swap_prod_mk, Prod.mk.injEq]
  constructor
  · rintro ⟨_, _, hmem, rfl, rfl⟩
    exact mk_mem_zipIdx_iff_getElem?.mp hmem
  · intro h
    exact ⟨x, i, mk_mem_zipIdx_iff_getElem?.mpr h, rfl, rfl⟩

theorem nodup_numbered (values : List Nat) : ((numbered values).map Prod.fst).Nodup := by
  have hfst : (Prod.fst ∘ Prod.swap : Nat × Nat → Nat) = Prod.snd := rfl
  rw [map_map, hfst, zipIdx_map_snd]
  exact nodup_range'

section Sorted
variable (hperm : sorted.Perm (numbered values))
include hperm

theorem pairAt_of_picked {i j total : Nat} (h : Picked sorted [i, j] total) : PairAt values i j total := by
  obtain ⟨picks, hsub, hindices, rfl⟩ := h
  obtain ⟨⟨i', x⟩, ⟨j', y⟩, rfl⟩ : ∃ a b, picks = [a, b] := by
    rw [← length_eq_two, ← length_map Prod.fst, hindices]
    rfl
  cases hindices
  have hpicked := hsub.trans hperm.subperm
  obtain ⟨others, hothers, hsublist⟩ := subperm_map Prod.fst hpicked
  have hnodup : [i', j'].Nodup := hothers.nodup_iff.mp (hsublist.nodup (nodup_numbered values))
  refine ⟨by simpa using hnodup, x, y, mem_numbered.mp (hpicked.subset mem_cons_self),
    mem_numbered.mp (hpicked.subset (by simp)), ?_⟩
  simp [amountSum]

theorem pairAt_of_places {l r : Nat} (hlr : l < r) (hr : r < sorted.length) :
    PairAt values (sorted.getD l (0, 0)).1 (sorted.getD r (0, 0)).1 (pairSum sorted l r) :=
  pairAt_of_picked hperm (picked_pair hlr hr)

theorem exists_places {i j total : Nat} (h : PairAt values i j total) :
    ∃ l r, l < r ∧ r < sorted.length ∧ pairSum sorted l r = total := by
  obtain ⟨hne, x, y, hx, hy, rfl⟩ := h
  obtain ⟨l, hl, hgetl⟩ := mem_iff_getElem.mp (hperm.mem_iff.mpr (mem_numbered.mpr hx : (i, x) ∈ _))
  obtain ⟨r, hr, hgetr⟩ := mem_iff_getElem.mp (hperm.mem_iff.mpr (mem_numbered.mpr hy : (j, y) ∈ _))
  have hlow : sorted.getD l (0, 0) = (i, x) := by rw [getD_eq_getElem _ _ hl, hgetl]
  have hhigh : sorted.getD r (0, 0) = (j, y) := by rw [getD_eq_getElem _ _ hr, hgetr]
  rcases Nat.lt_trichotomy l r with hlt | rfl | hgt
  · exact ⟨l, r, hlt, hr, by rw [pairSum, hlow, hhigh]⟩
  · rw [hlow] at hhigh
    cases hhigh
    exact absurd rfl hne
  · exact ⟨r, l, hgt, hl, by rw [pairSum, hlow, hhigh, add_comm]⟩

end Sorted

theorem pairs_smallest_change (sort : SortByAmount) (values : List Nat) (goal : Nat) (hlength : 2 ≤ values.length)
    (hfits : ∀ i j total, PairAt values i j total → total < 2 ^ 128) :
    ((∃ i j, findCombination sort values goal = .ok (.twoExact i j)) ↔ ∃ i j, PairAt values i j goal) ∧
      (∀ i j, findCombination sort values goal = .ok (.twoExact i j) → PairAt values i j goal) ∧
      ∀ i j excess, findCombination sort values goal = .ok (.twoOvershoot i j excess) →
        PairAt values i j (goal + excess) ∧
          ∀ i' j' total, PairAt values i' j' total → goal ≤ total → excess ≤ total - goal := by
  have hperm := sort.perm (numbered values)
  have hne : values ≠ [] := by
    rintro rfl
    simp at hlength
  obtain ⟨two, htwo, hbest⟩ := @twoScan_best (sort.order (numbered values)) goal (sort.sorted _)
    (fun l r hlr hr => hfits _ _ _ (pairAt_of_places hperm hlr hr)) (by simpa [hperm.length_eq] using hlength)
  have hsound := twoScan_sound htwo
  have hbeats : ∀ i j total, PairAt values i j total → goal ≤ total → two.Beats (total - goal) := by
    intro i j total hpair hcover
    obtain ⟨l, r, hlr, hr, rfl⟩ := exists_places hperm hpair
    exact hbest l r hlr hr hcover
  rw [findCombination_eq sort hne goal htwo]
  simp only [ofScans_eq_twoExact]
  refine ⟨⟨?_, ?_⟩, ?_, ?_⟩
  · rintro ⟨i, j, rfl⟩
    exact ⟨i, j, pairAt_of_picked hperm hsound⟩
  · rintro ⟨i, j, hpair⟩
    have hzero := hbeats i j goal hpair (le_refl _)
    cases two with
    | exact i j => exact ⟨i, j, rfl⟩
    | overshoot i j excess =>
      obtain ⟨hpos, hle⟩ := hzero
      omega
    | miss => cases hzero
  · rintro i j rfl
    exact pairAt_of_picked hperm hsound
  · intro i j excess hresult
    cases ofScans_eq_twoOvershoot hresult
    exact ⟨pairAt_of_picked hperm hsound, fun i' j' total hpair hcover => (hbeats i' j' total hpair hcover).2⟩

/-- Of the pairs that reach ten, five and six have the least excess. -/
theorem pairs_smallest_change_ten : findCombination .stable [6, 2, 12, 5] 10 = .ok (.twoOvershoot 3 0 1) ∧
    ∀ i' j' total, PairAt [6, 2, 12, 5] i' j' total → 10 ≤ total → 1 ≤ total - 10 := by
  have hfind : findCombination .stable [6, 2, 12, 5] 10 = .ok (.twoOvershoot 3 0 1) := by decide +kernel
  have hfits : ∀ i j total, PairAt [6, 2, 12, 5] i j total → total < 2 ^ 128 := by
    rintro i j total ⟨-, x, y, hx, hy, rfl⟩
    have hsmall : ∀ v ∈ [6, 2, 12, 5], v ≤ 12 := by decide
    have hx := hsmall x (mem_of_getElem? hx)
    have hy := hsmall y (mem_of_getElem? hy)
    omega
  exact ⟨hfind, ((pairs_smallest_change .stable [6, 2, 12, 5] 10 (by decide) hfits).2.2 3 0 1 hfind).2⟩

end Pairs

section Total
variable {sorted candidates : List (Nat × Nat)} {goal : Nat}

variable {targetK sum : Nat} {ctx : DfsContext}

theorem dfs_full (hfull : ctx.path.length = targetK) :
    ∃ found ctx', dfs goal targetK candidates sum ctx = .ok (found, ctx') := by
  unfold dfs
  rw [if_pos hfull]
  split
  · exact ⟨_, _, rfl⟩
  · split
    · exact ⟨_, _, rfl⟩
    · split <;> exact ⟨_, _, rfl⟩

theorem dfs_total (hpath : ctx.path.length ≤ targetK)
    (hfits : ∀ picks, picks.Sublist candidates → ctx.path.length + picks.length ≤ targetK →
      sum + amountSum picks < 2 ^ 128) : ∃ found ctx', dfs goal targetK candidates sum ctx = .ok (found, ctx') := by
  induction candidates generalizing sum ctx with
  | nil =>
    by_cases hfull : ctx.path.length = targetK
    · exact dfs_full hfull
    · unfold dfs
      rw [if_neg hfull]
      exact ⟨_, _, rfl⟩
  | cons note rest ih =>
    by_cases hfull : ctx.path.length = targetK
    · exact dfs_full hfull
    · unfold dfs
      rw [if_neg hfull]
      dsimp only
      split
      · exact ⟨_, _, rfl⟩
      · have hnote := hfits [note] (singleton_sublist.mpr mem_cons_self) (by
          rw [length_singleton]
          omega)
        rw [checkedAdd_of_lt (by simpa [amountSum] using hnote)]
        obtain ⟨found, ctx₁, hfirst⟩ := @ih (sum + note.2) (ctx.push note)
          (by simp only [DfsContext.push, length_append, length_singleton]; omega) (by
            intro picks hpicks hlength
            have hwith := hfits (note :: picks) (hpicks.cons_cons note) (by
              simp only [DfsContext.push, length_append, length_singleton] at hlength
              rw [length_cons]
              omega)
            rwa [amountSum, map_cons, sum_cons, ← add_assoc] at hwith)
        rw [DfsContext.push] at hfirst
        simp only [hfirst, ok_bind]
        cases found with
        | true => exact ⟨_, _, rfl⟩
        | false =>
          have hrestored : ctx₁.path.dropLast = ctx.path := by
            rw [(dfs_search hfirst).sound.restored rfl]
            exact dropLast_concat
          simp only [Bool.false_eq_true, if_false]
          apply ih
          · rwa [hrestored]
          · intro picks hpicks hlength
            rw [hrestored] at hlength
            exact hfits picks (hpicks.cons note) hlength

theorem kScanLoop_total (hfits : amountSum candidates < 2 ^ 128) (ks : List Nat) :
    ∃ result, kScanLoop candidates goal ks = .ok result ∧ result ≠ some .miss := by
  induction ks with
  | nil => exact ⟨none, rfl, nofun⟩
  | cons k rest ih =>
    obtain ⟨found, ctx, hdfs⟩ := @dfs_total candidates goal k 0 ⟨5000, [], none⟩ (Nat.zero_le _)
      fun picks hpicks _ => by
        rw [zero_add]
        exact ((hpicks.map Prod.snd).sum_le_sum fun _ _ => Nat.zero_le _).trans_lt hfits
    simp only [kScanLoop, hdfs, ok_bind]
    cases found with
    | true => exact ⟨_, rfl, nofun⟩
    | false =>
      cases hbest : ctx.bestOvershoot with
      | some best => exact ⟨_, rfl, nofun⟩
      | none => exact ih

theorem greedyLoop_total {rest : List (Nat × Nat)} {total : Nat} {picks : List Nat} (hshort : total < goal)
    (hfits : total + amountSum rest < 2 ^ 128) : ∃ result, greedyLoop goal rest total picks = .ok result ∧
      (result = .miss → total + amountSum rest < goal) := by
  induction rest generalizing total picks with
  | nil => exact ⟨.miss, rfl, fun _ => hshort⟩
  | cons note rest ih =>
    obtain ⟨i, x⟩ := note
    rw [amountSum, map_cons, sum_cons, ← add_assoc] at hfits ⊢
    rw [greedyLoop, checkedAdd_of_lt (by omega)]
    dsimp only
    split
    · refine ⟨_, rfl, fun hmiss => ?_⟩
      cases hmiss
    · rename_i hless
      exact ih (not_le.mp hless) hfits

theorem kScan_total (hpos : 0 < goal) (hfits : amountSum sorted < 2 ^ 128) :
    ∃ result, kScan sorted goal = .ok result ∧ (result = .miss → amountSum sorted < goal) := by
  have hcandidates : amountSum (sorted.filter fun note => note.2 < goal).reverse < 2 ^ 128 := by
    refine lt_of_le_of_lt ?_ hfits
    rw [amountSum, map_reverse, sum_reverse]
    exact (filter_sublist.map Prod.snd).sum_le_sum fun _ _ => Nat.zero_le _
  have hreverse : amountSum sorted.reverse = amountSum sorted := by
    rw [amountSum, map_reverse, sum_reverse]
  obtain ⟨rounds, hrounds, hne⟩ : ∃ result,
      kScanRounds (sorted.filter fun note => note.2 < goal).reverse goal = .ok result ∧ result ≠ some .miss := by
    unfold kScanRounds
    split
    · exact kScanLoop_total hcandidates _
    · exact ⟨none, rfl, Option.some_ne_none _ |>.symm⟩
  rw [kScan, hrounds]
  cases rounds with
  | some result => exact ⟨result, rfl, fun heq => absurd (congrArg some heq) hne⟩
  | none =>
    obtain ⟨result, hrun, hmiss⟩ := @greedyLoop_total goal sorted.reverse 0 [] hpos
      (by rwa [zero_add, hreverse])
    rw [zero_add, hreverse] at hmiss
    exact ⟨result, hrun, hmiss⟩

theorem sum_map_le {α : Type} {xs ys : List α} (h : xs.Subperm ys) (f : α → Nat) : (xs.map f).sum ≤ (ys.map f).sum := by
  obtain ⟨others, hperm, hsublist⟩ := subperm_map f h
  rw [← hperm.sum_eq]
  exact hsublist.sum_le_sum fun _ _ => Nat.zero_le _

theorem Picked.le {indices : List Nat} {total : Nat} (h : Picked sorted indices total) : total ≤ amountSum sorted := by
  obtain ⟨picks, hsub, -, rfl⟩ := h
  exact sum_map_le hsub Prod.snd

theorem twoScan_total (hsorted : sorted.Pairwise fun a b => a.2 ≤ b.2) (hfits : amountSum sorted < 2 ^ 128) :
    ∃ result, twoScan sorted goal = .ok result := by
  by_cases hlength : 2 ≤ sorted.length
  · obtain ⟨result, hrun, -⟩ := @twoScan_best sorted goal hsorted
      (fun l r hlr hr => (picked_pair hlr hr).le.trans_lt hfits) hlength
    exact ⟨result, hrun⟩
  · exact ⟨.miss, if_pos (by omega)⟩

end Total

variable {sort : SortByAmount}

section Wallet
variable {values : List Nat} {goal : Nat}

theorem amountSum_order (sort : SortByAmount) (values : List Nat) :
    amountSum (sort.order (numbered values)) = values.sum := by
  rw [amountSum, ((sort.perm (numbered values)).map Prod.snd).sum_eq, snd_zipIdx]

theorem findCombination_total (hne : values ≠ []) (hpos : 0 < goal) (hfits : values.sum < 2 ^ 128) :
    ∃ result, findCombination sort values goal = .ok result ∧ (result.selected = none → values.sum < goal) := by
  have hamounts := amountSum_order sort values
  obtain ⟨two, htwo⟩ := @twoScan_total _ goal (sort.sorted (numbered values)) (hamounts ▸ hfits)
  obtain ⟨more, hmore, hmiss⟩ := @kScan_total (sort.order (numbered values)) goal hpos (hamounts ▸ hfits)
  rw [findCombination_eq sort hne goal htwo, hmore, ← hamounts]
  generalize oneScan (sort.order (numbered values)) goal = one
  cases two with
  | exact i j => exact ⟨_, rfl, nofun⟩
  | overshoot i j excess => cases one <;> exact ⟨_, rfl, nofun⟩
  | miss =>
    cases one with
    | exact i => exact ⟨_, rfl, nofun⟩
    | overshoot i excess => exact ⟨_, rfl, nofun⟩
    | miss =>
      cases more with
      | exact indices => exact ⟨_, rfl, nofun⟩
      | overshoot indices excess => exact ⟨_, rfl, nofun⟩
      | miss => exact ⟨_, rfl, fun _ => hmiss rfl⟩

end Wallet

section Plans
variable {notes selected : List SpendableNote} {amount : Nat} {change : Option Nat}

variable {prevNote : StepNote} {sum : Nat}

theorem mergeSteps_total {indices : List Nat}
    (hfits : sum + noteSum (indices.map fun i => notes.getD i ⟨0, 0⟩) < 2 ^ 128) :
    ∃ steps, mergeSteps notes prevNote sum indices = .ok steps := by
  induction indices generalizing prevNote sum with
  | nil => exact ⟨[], rfl⟩
  | cons index rest ih =>
    rw [noteSum, map_cons, map_cons, sum_cons, ← add_assoc] at hfits
    have hsum : sum + (StepNote.fromSpendable (notes.getD index ⟨0, 0⟩)).amount < 2 ^ 128 :=
      lt_of_le_of_lt (Nat.le_add_right _ _) hfits
    obtain ⟨steps, hsteps⟩ := @ih (.fromAmount (sum + (StepNote.fromSpendable (notes.getD index ⟨0, 0⟩)).amount))
      (sum + (StepNote.fromSpendable (notes.getD index ⟨0, 0⟩)).amount) hfits
    unfold mergeSteps
    simp only [checkedAdd_of_lt hsum, hsteps]
    exact ⟨_, rfl⟩

theorem planSteps_total {indices : List Nat} (hne : indices ≠ [])
    (hfits : noteSum (indices.map fun i => notes.getD i ⟨0, 0⟩) < 2 ^ 128) :
    planSteps amount change notes indices =
      .ok (plannedSteps amount change (indices.map fun i => notes.getD i ⟨0, 0⟩)) := by
  match indices with
  | [] => exact absurd rfl hne
  | [index] => rfl
  | index :: index' :: rest =>
    obtain ⟨merged, hmerged⟩ := @mergeSteps_total notes (.fromSpendable (notes.getD index ⟨0, 0⟩))
      (notes.getD index ⟨0, 0⟩).amount (index' :: rest) (by
        rwa [noteSum, map_cons, map_cons, sum_cons] at hfits)
    have hchain : finishSteps (.final amount change) merged = _ := finishSteps_merge hmerged
    rw [planSteps]
    · change (mergeSteps notes (.fromSpendable (notes.getD index ⟨0, 0⟩)) (notes.getD index ⟨0, 0⟩).amount
        (index' :: rest) >>= _) = _
      rw [hmerged, ok_bind, hchain]
      rfl
    · simp

variable {rest : List SpendableNote}

theorem assemble_chainSteps (hne : rest ≠ []) :
    ∃ first second, (chainSteps amount change prevNote sum rest).getLast? = some ⟨first, second, .final amount change⟩ := by
  induction rest generalizing prevNote sum with
  | nil => exact absurd rfl hne
  | cons note rest ih =>
    cases rest with
    | nil => exact ⟨_, _, rfl⟩
    | cons note' rest =>
      obtain ⟨first, second, hlast⟩ := @ih (.fromAmount (sum + note.amount)) (sum + note.amount) (cons_ne_nil _ _)
      refine ⟨first, second, ?_⟩
      exact (getLast?_cons_of_ne_nil fun hnil => by simp [hnil] at hlast).trans hlast

theorem assemble_plannedSteps (hne : selected ≠ []) :
    assemble (plannedSteps amount change selected) = some (plannedSteps amount change selected) := by
  match selected with
  | [] => exact absurd rfl hne
  | [note] => rfl
  | note :: note' :: rest =>
    obtain ⟨first, second, hlast⟩ := @assemble_chainSteps amount change (.fromSpendable note) note.amount
      (note' :: rest) (cons_ne_nil _ _)
    unfold assemble
    rw [plannedSteps, hlast]
    exact nofun

theorem noteSum_le (h : selected.Subperm notes) : noteSum selected ≤ noteSum notes := sum_map_le h SpendableNote.amount

inductive PlanOutcome (notes : List SpendableNote) (amount : Nat) : Except PlanError (List PlannedStep) → Prop where
  | noSpendableNotes (h : notes = []) : PlanOutcome notes amount (.error .noSpendableNotes)
  | noCombination (hne : notes ≠ []) (h : noteSum notes < amount) : PlanOutcome notes amount (.error .noCombination)
  | tooManyNotes {selected : List SpendableNote} {change : Option Nat} (h : Chosen notes amount selected change)
      (hlength : transactionLimit < selected.length) :
      PlanOutcome notes amount (.error (.tooManyNotes selected.length transactionLimit))
  | steps {selected : List SpendableNote} {change : Option Nat} (h : Chosen notes amount selected change)
      (hlength : selected.length ≤ transactionLimit) :
      PlanOutcome notes amount (.ok (plannedSteps amount change selected))

theorem plan_outcome (sort : SortByAmount) (hpos : 0 < amount) (hfits : noteSum notes < 2 ^ 128) :
    PlanOutcome notes amount (plan sort amount notes) := by
  by_cases hne : notes = []
  · rw [plan, hne]
    exact .noSpendableNotes rfl
  have hnonempty : notes.isEmpty = false := isEmpty_eq_false_iff.mpr hne
  obtain ⟨combo, hcombo, hnone⟩ := @findCombination_total sort (notes.map SpendableNote.amount) amount
    (by simpa using hne) hpos hfits
  rw [plan, hnonempty]
  simp only [Bool.false_eq_true, if_false, hcombo, ok_bind]
  cases hselected : combo.selected with
  | none => exact .noCombination hne (hnone hselected)
  | some found =>
    obtain ⟨indices, change⟩ := found
    obtain ⟨picks, hselection, rfl⟩ := findCombination_selection hcombo hpos hselected
    have hchosen := hselection.chosen
    have hlength : ((picks.map Prod.fst).map fun i => notes.getD i ⟨0, 0⟩).length = (picks.map Prod.fst).length := by
      simp
    dsimp only
    split
    · rename_i hlong
      rw [← hlength] at hlong ⊢
      exact .tooManyNotes hchosen hlong
    · rename_i hshort
      have hrange : (picks.map Prod.fst).find? (fun index => index ≥ notes.length) = none := by
        rw [find?_eq_none]
        intro index hindex
        obtain ⟨pick, hpick, rfl⟩ := mem_map.mp hindex
        have hget := mem_numbered.mp (hselection.picked.subset hpick)
        have hlt := (List.getElem?_eq_some_iff.mp hget).1
        simpa using hlt
      have hsteps := @planSteps_total notes amount change (picks.map Prod.fst) (by simpa using hselection.nonempty)
        ((noteSum_le hchosen.held).trans_lt hfits)
      simp only [hrange, hsteps, ok_bind, assemble_plannedSteps hchosen.nonempty]
      exact .steps hchosen (hlength.trans_le (not_lt.mp hshort))

def PlannedStep.inputs (step : PlannedStep) : List StepNote := step.first :: step.second.toList

def StepAction.created : StepAction → Nat
  | consolidate output => output
  | final send change => send + change.getD 0

def PlannedStep.Balances (step : PlannedStep) : Prop := (step.inputs.map StepNote.amount).sum = step.action.created

def walletInputs (steps : List PlannedStep) : List StepNote :=
  (steps.flatMap PlannedStep.inputs).filter fun input => input.commitment.isSome

theorem chainSteps_balances (hprev : prevNote.amount = sum)
    (htotal : sum + noteSum rest = amount + change.getD 0) :
    ∀ step ∈ chainSteps amount change prevNote sum rest, step.Balances := by
  induction rest generalizing prevNote sum with
  | nil => simp [chainSteps]
  | cons note rest ih =>
    have hinputs : prevNote.amount + (note.amount + 0) = sum + note.amount := by rw [hprev, add_zero]
    rw [noteSum, map_cons, sum_cons, ← add_assoc] at htotal
    cases rest with
    | nil =>
      intro step hstep
      rw [mem_singleton.mp hstep]
      exact hinputs.trans htotal
    | cons note' rest =>
      have hnext := @ih (.fromAmount (sum + note.amount)) (sum + note.amount) rfl htotal
      exact forall_mem_cons.mpr ⟨hinputs, hnext⟩

theorem walletInputs_chainSteps (hne : rest ≠ []) :
    walletInputs (chainSteps amount change prevNote sum rest) =
      [prevNote].filter (fun input => input.commitment.isSome) ++ rest.map StepNote.fromSpendable := by
  induction rest generalizing prevNote sum with
  | nil => exact absurd rfl hne
  | cons note rest ih =>
    have hinputs : ([prevNote, .fromSpendable note] : List StepNote).filter (fun input => input.commitment.isSome) =
        [prevNote].filter (fun input => input.commitment.isSome) ++ [.fromSpendable note] := by
      rw [← singleton_append, filter_append]
      rfl
    cases rest with
    | nil => exact hinputs
    | cons note' rest =>
      have hnext := @ih (.fromAmount (sum + note.amount)) (sum + note.amount) (cons_ne_nil _ _)
      rw [chainSteps]
      · rw [walletInputs] at hnext ⊢
        rw [flatMap_cons, filter_append, hnext]
        change List.filter _ [prevNote, .fromSpendable note] ++ _ = _
        rw [hinputs, append_assoc]
        rfl
      · exact nofun

theorem plannedSteps_length (selected : List SpendableNote) (hne : selected ≠ []) :
    (plannedSteps amount change selected).length = max 1 (selected.length - 1) := by
  match selected with
  | [] => exact absurd rfl hne
  | [note] => rfl
  | note :: note' :: rest =>
    exact chainSteps_length.trans (Nat.max_eq_right (Nat.succ_pos _)).symm

theorem Chosen.balances (h : Chosen notes amount selected change) :
    ∀ step ∈ plannedSteps amount change selected, step.Balances := by
  have htotal := h.total
  match selected with
  | [] => simp [plannedSteps]
  | [note] =>
    intro step hstep
    rw [mem_singleton.mp hstep]
    exact htotal
  | note :: note' :: rest =>
    rw [noteSum, map_cons, sum_cons] at htotal
    exact @chainSteps_balances _ _ (.fromSpendable note) _ _ rfl htotal

theorem walletInputs_plannedSteps (selected : List SpendableNote) :
    walletInputs (plannedSteps amount change selected) = selected.map StepNote.fromSpendable := by
  match selected with
  | [] => rfl
  | [note] => rfl
  | note :: note' :: rest => exact walletInputs_chainSteps (cons_ne_nil _ _)

theorem getLast?_plannedSteps (hne : selected ≠ []) :
    (plannedSteps amount change selected).getLast?.map PlannedStep.action = some (.final amount change) := by
  match selected with
  | [] => exact absurd rfl hne
  | [note] => rfl
  | note :: note' :: rest =>
    obtain ⟨first, second, hlast⟩ := @assemble_chainSteps amount change (.fromSpendable note) note.amount
      (note' :: rest) (cons_ne_nil _ _)
    exact congrArg (Option.map PlannedStep.action) hlast

def Covered (notes : List SpendableNote) (amount count : Nat) : Prop :=
  ∃ s : List SpendableNote, s.Subperm notes ∧ s.length ≤ count ∧ amount ≤ noteSum s

variable {count : Nat}

section
variable (h : Chosen notes amount selected change)
include h

theorem Chosen.covered : Covered notes amount selected.length :=
  ⟨selected, h.held, le_refl _, h.total ▸ Nat.le_add_right _ _⟩

theorem Chosen.length_le (hcovered : Covered notes amount count) :
    selected.length ≤ max 2 count := by
  obtain ⟨s, hs, hlength, hreach⟩ := hcovered
  by_contra hlong
  have hless := h.minimal (by omega) s hs (by omega)
  omega

theorem Chosen.isLeast :
    ∃ m, IsLeast { count | Covered notes amount count } m ∧ max 1 (selected.length - 1) = max 1 (m - 1) := by
  classical
  have hexists : ∃ count, Covered notes amount count := ⟨_, h.covered⟩
  refine ⟨Nat.find hexists, ⟨Nat.find_spec hexists, fun count hcount => Nat.find_min' hexists hcount⟩, ?_⟩
  have hle := h.length_le (Nat.find_spec hexists)
  have hmin := Nat.find_min' hexists h.covered
  omega

end

theorem Covered.le (h : Covered notes amount count) : amount ≤ noteSum notes := by
  obtain ⟨s, hs, -, hreach⟩ := h
  exact hreach.trans (noteSum_le hs)

theorem Chosen.ne_nil (h : Chosen notes amount selected change) : notes ≠ [] := by
  rintro rfl
  exact h.nonempty (subperm_nil.mp h.held)

section Outcome
variable {result : Except PlanError (List PlannedStep)}

theorem not_covered_nil (hpos : 0 < amount) (count : Nat) : ¬Covered [] amount count :=
  fun h => absurd h.le (not_le.mpr hpos)

section
variable (h : PlanOutcome notes amount result)
include h

theorem PlanOutcome.ok_iff (hpos : 0 < amount) :
    (∃ steps, result = .ok steps) ↔ Covered notes amount transactionLimit := by
  cases h with
  | noSpendableNotes h =>
    subst h
    exact ⟨nofun, fun hcovered => absurd hcovered (not_covered_nil hpos _)⟩
  | noCombination hne h => exact ⟨nofun, fun hcovered => absurd hcovered.le (not_le.mpr h)⟩
  | tooManyNotes h hlength =>
    refine ⟨nofun, fun hcovered => absurd (h.length_le hcovered) (not_le.mpr hlength)⟩
  | steps h hlength =>
    obtain ⟨s, hs, hle, hreach⟩ := h.covered
    exact ⟨fun _ => ⟨s, hs, hle.trans hlength, hreach⟩, fun _ => ⟨_, rfl⟩⟩

theorem PlanOutcome.tooManyNotes_iff (hpos : 0 < amount) :
    (∃ selected maxNotes, result = .error (.tooManyNotes selected maxNotes)) ↔
      (∃ count, Covered notes amount count) ∧ ¬Covered notes amount transactionLimit := by
  have hok := h.ok_iff hpos
  cases h with
  | noSpendableNotes h =>
    subst h
    exact ⟨nofun, fun hcovered => absurd hcovered.1.choose_spec (not_covered_nil hpos _)⟩
  | noCombination hne h => exact ⟨nofun, fun hcovered => absurd hcovered.1.choose_spec.le (not_le.mpr h)⟩
  | tooManyNotes h hlength =>
    exact ⟨fun _ => ⟨⟨_, h.covered⟩, fun hcovered => nomatch hok.mpr hcovered⟩, fun _ => ⟨_, _, rfl⟩⟩
  | steps h hlength => exact ⟨nofun, fun hcovered => absurd (hok.mp ⟨_, rfl⟩) hcovered.2⟩

theorem PlanOutcome.noCombination_iff : result = .error .noCombination ↔ notes ≠ [] ∧ noteSum notes < amount := by
  cases h with
  | noSpendableNotes h => exact ⟨nofun, fun hnot => absurd h hnot.1⟩
  | noCombination hne h => exact ⟨fun _ => ⟨hne, h⟩, fun _ => rfl⟩
  | tooManyNotes h hlength => exact ⟨nofun, fun hnot => absurd h.covered.le (not_le.mpr hnot.2)⟩
  | steps h hlength => exact ⟨nofun, fun hnot => absurd h.covered.le (not_le.mpr hnot.2)⟩

theorem PlanOutcome.noSpendableNotes_iff : result = .error .noSpendableNotes ↔ notes = [] := by
  cases h with
  | noSpendableNotes h => exact ⟨fun _ => h, fun _ => rfl⟩
  | noCombination hne h => exact ⟨nofun, fun hnil => absurd hnil hne⟩
  | tooManyNotes h hlength => exact ⟨nofun, fun hnil => absurd hnil h.ne_nil⟩
  | steps h hlength => exact ⟨nofun, fun hnil => absurd hnil h.ne_nil⟩

end

end Outcome

theorem plan_fewest_transactions (sort : SortByAmount) (notes : List SpendableNote) (amount : Nat) (hpos : 0 < amount)
    (hfits : noteSum notes < 2 ^ 128) :
    ((∃ steps, plan sort amount notes = .ok steps) ↔ Covered notes amount transactionLimit) ∧
      ((∃ selected maxNotes, plan sort amount notes = .error (.tooManyNotes selected maxNotes)) ↔
        (∃ count, Covered notes amount count) ∧ ¬Covered notes amount transactionLimit) ∧
      (plan sort amount notes = .error .noCombination ↔ notes ≠ [] ∧ noteSum notes < amount) ∧
      (plan sort amount notes = .error .noSpendableNotes ↔ notes = []) ∧
      ∀ steps, plan sort amount notes = .ok steps → ∃ selected change m,
        selected.Subperm notes ∧ walletInputs steps = selected.map StepNote.fromSpendable ∧
        noteSum selected = amount + change.getD 0 ∧
        steps.getLast?.map PlannedStep.action = some (.final amount change) ∧
        (∀ step ∈ steps, step.Balances) ∧
        IsLeast { count | Covered notes amount count } m ∧ steps.length = max 1 (m - 1) := by
  have houtcome := plan_outcome sort hpos hfits
  generalize plan sort amount notes = result at houtcome
  refine ⟨houtcome.ok_iff hpos, houtcome.tooManyNotes_iff hpos, houtcome.noCombination_iff,
    houtcome.noSpendableNotes_iff, ?_⟩
  rintro steps rfl
  cases houtcome with
  | steps h hlength =>
    obtain ⟨m, hleast, hm⟩ := h.isLeast
    exact ⟨_, _, m, h.held, walletInputs_plannedSteps _, h.total, getLast?_plannedSteps h.nonempty, h.balances,
      hleast, (plannedSteps_length _ h.nonempty).trans hm⟩

theorem plan_fewest_transactions_eleven : ∃ steps, plan .stable 11 [⟨1, 5⟩, ⟨2, 4⟩, ⟨3, 3⟩] = .ok steps ∧
    ∀ step ∈ steps, step.Balances := by
  obtain ⟨hok, -, -, -, hsteps⟩ := plan_fewest_transactions .stable [⟨1, 5⟩, ⟨2, 4⟩, ⟨3, 3⟩] 11 (by decide) (by decide)
  obtain ⟨steps, hplan⟩ := hok.mpr ⟨_, List.Subperm.refl _, by decide, by decide⟩
  obtain ⟨_, _, _, -, -, -, -, hbalances, -⟩ := hsteps steps hplan
  exact ⟨steps, hplan, hbalances⟩

end Plans

variable {path : List Nat}

section Exact
variable {goal targetK sum : Nat} {candidates : List (Nat × Nat)} {ctx ctx' : DfsContext} {found : Bool}

/-- The search for `k` more of the notes without a budget: how many inner nodes it visits up to its first
exact selection, or altogether, and whether there is one. -/
def searchNodes (goal : Nat) : Nat → List Nat → Nat → Nat × Bool
  | 0, _, sum => (0, sum = goal)
  | _ + 1, [], _ => (0, false)
  | k + 1, x :: rest, sum =>
      if goal ≤ sum then (0, false)
      else
        let first := searchNodes goal k rest (sum + x)
        if first.2 then (first.1 + 1, true)
        else
          let second := searchNodes goal (k + 1) rest sum
          (first.1 + 1 + second.1, second.2)

theorem dfs_of_full (h : dfs goal targetK candidates sum ctx = .ok (found, ctx')) (hfull : ctx.path.length = targetK) :
    (found = true ↔ sum = goal) ∧ ctx'.iterationLimit = ctx.iterationLimit := by
  unfold dfs at h
  rw [if_pos hfull] at h
  split at h
  · cases h
    simp
    omega
  · split at h
    · cases h
      simp
      omega
    · have hne : sum ≠ goal := by omega
      split at h <;> cases h <;> simp [hne]

variable {k : Nat}

variable {xs : List Nat}

theorem searchNodes_pos (h : (searchNodes goal (k + 1) xs sum).2 = true) :
    0 < (searchNodes goal (k + 1) xs sum).1 := by
  cases xs with
  | nil => cases h
  | cons x rest =>
    rw [searchNodes] at h ⊢
    dsimp only at h ⊢
    split
    · rename_i hstop
      rw [if_pos hstop] at h
      cases h
    · split
      · exact Nat.succ_pos _
      · dsimp only
        omega

/-- A selection is found if the budget lasts, and otherwise the budget is used up by what was visited. -/
theorem dfs_budget (h : dfs goal targetK candidates sum ctx = .ok (found, ctx'))
    (hk : ctx.path.length + k = targetK) {nodes : Nat} {exact : Bool}
    (hnodes : searchNodes goal k (candidates.map Prod.snd) sum = (nodes, exact)) :
    (found = true ↔ exact = true ∧ nodes ≤ ctx.iterationLimit) ∧
      (found = false → ctx'.iterationLimit = ctx.iterationLimit - nodes) := by
  induction candidates generalizing sum ctx ctx' found k nodes exact with
  | nil =>
    cases k with
    | zero =>
      obtain ⟨hfound, hlimit⟩ := dfs_of_full h hk
      cases hnodes
      simp [hfound, hlimit]
    | succ k =>
      unfold dfs at h
      rw [if_neg (by omega)] at h
      cases h
      cases hnodes
      simp
  | cons note rest ih =>
    cases k with
    | zero =>
      obtain ⟨hfound, hlimit⟩ := dfs_of_full h hk
      cases hnodes
      simp [hfound, hlimit]
    | succ k =>
      unfold dfs at h
      rw [if_neg (by omega)] at h
      rw [map_cons, searchNodes] at hnodes
      dsimp only at h hnodes
      by_cases hsum : goal ≤ sum
      · rw [if_pos (.inl hsum)] at h
        rw [if_pos hsum] at hnodes
        cases h
        cases hnodes
        simp
      · rw [if_neg hsum] at hnodes
        by_cases hlimit : ctx.iterationLimit = 0
        · rw [if_pos (.inr hlimit)] at h
          have hpos : 0 < nodes := by
            split at hnodes <;> cases hnodes <;> omega
          cases h
          simp [hlimit]
          omega
        · rw [if_neg (by tauto)] at h
          split at h
          · cases h
          · rename_i withNote hadd
            obtain ⟨-, rfl⟩ := checkedAdd_eq_some hadd
            obtain ⟨⟨found₁, ctx₁⟩, hfirst, hsecond⟩ := bind_eq_ok h
            obtain ⟨hfound₁, hleft⟩ := @ih (sum + note.2) (ctx.push note) ctx₁ found₁ k hfirst (by
              simp only [DfsContext.push, length_append, length_singleton]
              omega) _ _ rfl
            simp only [DfsContext.push] at hfound₁ hleft
            cases found₁ with
            | true =>
              cases hsecond
              obtain ⟨hexact, hle⟩ := hfound₁.mp rfl
              rw [if_pos hexact] at hnodes
              cases hnodes
              simp
              omega
            | false =>
              have hpath : ctx₁.path.dropLast = ctx.path := by
                rw [(dfs_search hfirst).sound.restored rfl]
                exact dropLast_concat
              obtain ⟨hfound₂, hleft₂⟩ := @ih sum ctx₁.pop ctx' found (k + 1) hsecond (by
                rw [DfsContext.pop, hpath]
                exact hk) _ _ rfl
              simp only [DfsContext.pop] at hfound₂ hleft₂
              have hleft := hleft rfl
              have hpos := @searchNodes_pos goal sum k (rest.map Prod.snd)
              rw [hleft] at hfound₂ hleft₂
              cases hexact : (searchNodes goal k (rest.map Prod.snd) (sum + note.2)).2 with
              | true =>
                -- the budget has run out on the way to the selection
                have hout : ctx.iterationLimit - 1 < (searchNodes goal k (rest.map Prod.snd) (sum + note.2)).1 :=
                  Nat.lt_of_not_le fun hle => Bool.false_ne_true (hfound₁.mpr ⟨hexact, hle⟩)
                rw [if_pos hexact] at hnodes
                cases hnodes
                have hnot : found = false := by
                  rw [← Bool.not_eq_true, hfound₂]
                  rintro ⟨hsecond, hle⟩
                  have hsome := hpos hsecond
                  omega
                rw [hleft₂ hnot, hnot]
                simp
                omega
              | false =>
                rw [hexact] at hnodes
                cases hnodes
                refine ⟨hfound₂.trans (and_congr_right fun hsecond => ?_), fun hnot => ?_⟩
                · have hsome := hpos hsecond
                  omega
                · rw [hleft₂ hnot]
                  omega

theorem searchNodes_zero :
    (searchNodes goal 0 xs sum).2 = true ↔ ∃ ys : List Nat, ys.Sublist xs ∧ ys.length = 0 ∧ sum + ys.sum = goal := by
  rw [searchNodes]
  constructor
  · intro h
    exact ⟨[], nil_sublist _, rfl, by simpa using h⟩
  · rintro ⟨ys, -, hlength, hsum⟩
    rw [length_eq_zero_iff.mp hlength] at hsum
    simpa using hsum

/-- While fewer notes do not reach the goal, no branch is cut off. -/
theorem searchNodes_exact
    (hless : ∀ ys : List Nat, ys.Sublist xs → ys.length < k → sum + ys.sum < goal) :
    (searchNodes goal k xs sum).2 = true ↔ ∃ ys : List Nat, ys.Sublist xs ∧ ys.length = k ∧ sum + ys.sum = goal := by
  induction xs generalizing k sum with
  | nil =>
    cases k with
    | zero => exact searchNodes_zero
    | succ k =>
      rw [searchNodes]
      constructor
      · intro h
        cases h
      · rintro ⟨ys, hsub, hlength, -⟩
        rw [sublist_nil.mp hsub] at hlength
        cases hlength
  | cons x rest ih =>
    cases k with
    | zero => exact searchNodes_zero
    | succ k =>
      have hopen : ¬goal ≤ sum := not_le.mpr (hless [] (nil_sublist _) (Nat.succ_pos _))
      have hwith := @ih (sum + x) k fun ys hsub hlength => by
        have hcons := hless (x :: ys) (hsub.cons_cons x) (Nat.succ_lt_succ hlength)
        rwa [sum_cons, ← add_assoc] at hcons
      have hwithout := @ih sum (k + 1) fun ys hsub hlength => hless ys (hsub.cons x) hlength
      have hsplit : (searchNodes goal (k + 1) (x :: rest) sum).2 =
          ((searchNodes goal k rest (sum + x)).2 || (searchNodes goal (k + 1) rest sum).2) := by
        rw [searchNodes, if_neg hopen]
        dsimp only
        split
        · rename_i h
          rw [h]
          rfl
        · rename_i h
          rw [Bool.not_eq_true] at h
          rw [h]
          rfl
      rw [hsplit, Bool.or_eq_true, hwith, hwithout]
      constructor
      · rintro (⟨ys, hsub, hlength, hsum⟩ | ⟨ys, hsub, hlength, hsum⟩)
        · exact ⟨x :: ys, hsub.cons_cons x, congrArg Nat.succ hlength, by rw [sum_cons, ← add_assoc, hsum]⟩
        · exact ⟨ys, hsub.cons x, hlength, hsum⟩
      · rintro ⟨ys, hsub, hlength, hsum⟩
        cases hsub with
        | cons _ hsub => exact .inr ⟨ys, hsub, hlength, hsum⟩
        | cons_cons _ hsub =>
          rename_i zs
          refine .inl ⟨zs, hsub, Nat.succ.inj hlength, ?_⟩
          rwa [sum_cons, ← add_assoc] at hsum

theorem dfs_first_fits {m : Nat} {r : Bool × DfsContext} (h : dfs goal targetK candidates sum ctx = .ok r)
    (hlength : ctx.path.length + m = targetK) (hm : m ≤ candidates.length) (hlimit : m ≤ ctx.iterationLimit)
    (hless : ∀ i < m, sum + amountSum (candidates.take i) < goal) (hsum : sum < 2 ^ 128) :
    sum + amountSum (candidates.take m) < 2 ^ 128 := by
  induction m generalizing candidates sum ctx r with
  | zero => simpa [amountSum] using hsum
  | succ m ih =>
    cases candidates with
    | nil => simp at hm
    | cons note rest =>
      have htake : ∀ i, sum + amountSum ((note :: rest).take (i + 1)) = sum + note.2 + amountSum (rest.take i) := by
        intro i
        rw [take_succ_cons, amountSum, map_cons, sum_cons, add_assoc]
      have hopen : ¬(goal ≤ sum ∨ ctx.iterationLimit = 0) := by
        have hzero := hless 0 (Nat.succ_pos _)
        rw [take_zero, amountSum, map_nil, sum_nil] at hzero
        omega
      unfold dfs at h
      rw [if_neg (by omega)] at h
      dsimp only at h
      rw [if_neg hopen] at h
      split at h
      · cases h
      · rename_i withNote hadd
        obtain ⟨hlt, rfl⟩ := checkedAdd_eq_some hadd
        obtain ⟨first, hfirst, -⟩ := bind_eq_ok h
        rw [htake]
        apply ih hfirst
        · simp only [length_append, length_singleton]
          omega
        · exact Nat.le_of_succ_le_succ hm
        · exact Nat.le_sub_one_of_lt hlimit
        · intro i hi
          rw [← htake]
          exact hless (i + 1) (Nat.succ_lt_succ hi)
        · exact hlt

theorem dfs_short (hgoal : goal < 2 ^ 128)
    (hless : ∀ picks, picks.Sublist candidates → picks.length ≤ k → amountSum picks < goal) :
    ∃ ctx, dfs goal k candidates 0 ⟨5000, [], none⟩ = .ok (false, ctx) ∧ ctx.bestOvershoot = none := by
  obtain ⟨found, ctx, hdfs⟩ := @dfs_total candidates goal k 0 ⟨5000, [], none⟩ (Nat.zero_le _)
    fun picks hpicks hlength => by
      have hsum := hless picks hpicks (by simpa using hlength)
      omega
  have hsound := (dfs_search hdfs).sound
  have hnone : ∀ total path, goal ≤ total → ¬SearchPath candidates k total 0 [] path := by
    rintro total path hreach ⟨picks, hsub, rfl, hlength, htotal⟩
    have hsum := hless picks hsub (by simpa using hlength.le)
    omega
  cases found with
  | true => exact absurd (hsound.exact rfl) (hnone goal _ (le_refl _))
  | false =>
    refine ⟨ctx, hdfs, ?_⟩
    by_contra hsome
    obtain ⟨⟨excess, path⟩, hbest⟩ := Option.ne_none_iff_exists'.mp hsome
    exact hnone _ _ (Nat.le_add_right _ _) ((hsound.best excess path hbest).resolve_left nofun)

theorem kScanLoop_skip {start count k : Nat} (hgoal : goal < 2 ^ 128) (hstart : start ≤ k) (hk : k ≤ start + count)
    (hless : ∀ picks, picks.Sublist candidates → picks.length < k → amountSum picks < goal) :
    kScanLoop candidates goal (List.range' start count) =
      kScanLoop candidates goal (List.range' k (start + count - k)) := by
  induction count generalizing start with
  | zero =>
    obtain rfl : start = k := by omega
    rw [add_zero, Nat.sub_self]
  | succ count ih =>
    rcases Nat.eq_or_lt_of_le hstart with rfl | hlt
    · rw [Nat.add_sub_cancel_left]
    · obtain ⟨ctx, hdfs, hbest⟩ := dfs_short hgoal fun picks hpicks hlength =>
        hless picks hpicks (show picks.length < k from lt_of_le_of_lt hlength hlt)
      rw [range'_succ, kScanLoop, hdfs]
      simp only [ok_bind, Bool.false_eq_true, if_false, hbest]
      rw [ih hlt (by omega)]
      congr 2
      omega

theorem kScanLoop_eq_exact {ks : List Nat}
    (h : kScanLoop candidates goal ks = .ok (some (.exact path))) :
    ∃ k ctx, dfs goal k candidates 0 ⟨5000, [], none⟩ = .ok (true, ctx) ∧ path.length = k ∧ k ≤ candidates.length := by
  induction ks with
  | nil => cases h
  | cons k rest ih =>
    obtain ⟨⟨found, ctx⟩, hdfs, h⟩ := bind_eq_ok h
    cases found with
    | true =>
      cases h
      obtain ⟨picks, hsub, hpath, hlength, -⟩ := (dfs_search hdfs).sound.exact rfl
      refine ⟨k, ctx, hdfs, hlength, ?_⟩
      rw [hpath, nil_append, length_map] at hlength
      exact hlength ▸ hsub.length_le
    | false =>
      cases hbest : ctx.bestOvershoot with
      | some best =>
        simp only [hbest] at h
        cases h
      | none =>
        simp only [hbest] at h
        exact ih h

theorem greedyLoop_ne_exact {rest : List (Nat × Nat)} {total : Nat} {picks path : List Nat} :
    greedyLoop goal rest total picks ≠ .ok (.exact path) := by
  induction rest generalizing total picks with
  | nil => exact nofun
  | cons note rest ih =>
    intro h
    unfold greedyLoop at h
    split at h
    · cases h
    · split at h
      · cases h
      · exact ih h

end Exact

variable {goal k : Nat}

section ExactScan

theorem kScan_eq_exact (h : kScan sorted goal = .ok (.exact path))
    (hone : ∀ note ∈ sorted, note.2 < goal) :
    ∃ ctx, dfs goal path.length sorted.reverse 0 ⟨5000, [], none⟩ = .ok (true, ctx) ∧ path.length ≤ sorted.length := by
  rw [kScan, filter_below hone] at h
  obtain ⟨rounds, hrounds, h⟩ := bind_eq_ok h
  cases rounds with
  | none => exact absurd h greedyLoop_ne_exact
  | some result =>
    cases h
    unfold kScanRounds at hrounds
    split at hrounds
    · obtain ⟨_, ctx, hdfs, rfl, hle⟩ := kScanLoop_eq_exact hrounds
      exact ⟨ctx, hdfs, by rwa [length_reverse] at hle⟩
    · cases hrounds

theorem kScan_exact (hgoal : goal < 2 ^ 128) (hone : ∀ note ∈ sorted, note.2 < goal) (hthree : 3 ≤ k) (hten : k ≤ 10)
    (hlength : k ≤ sorted.length)
    (hless : ∀ picks, picks.Sublist sorted.reverse → picks.length < k → amountSum picks < goal)
    (hfits : ∀ picks, picks.Sublist sorted.reverse → picks.length = k → amountSum picks < 2 ^ 128)
    (hexact : (searchNodes goal k (sorted.reverse.map Prod.snd) 0).2 = true)
    (hnodes : (searchNodes goal k (sorted.reverse.map Prod.snd) 0).1 ≤ 5000) :
    ∃ path, kScan sorted goal = .ok (.exact path) ∧ path.length = k := by
  obtain ⟨found, ctx, hdfs⟩ := @dfs_total sorted.reverse goal k 0 ⟨5000, [], none⟩ (Nat.zero_le _)
    fun picks hpicks hle => by
      rcases Nat.eq_or_lt_of_le hle with heq | hlt
      · have hsum := hfits picks hpicks (by simpa using heq)
        omega
      · have hsum := hless picks hpicks (by simpa using hlt)
        omega
  have hfound : found = true := (dfs_budget hdfs (zero_add k) rfl).1.mpr ⟨hexact, hnodes⟩
  rw [hfound] at hdfs
  obtain ⟨picks, hsub, hpath, hlengthPath, -⟩ := (dfs_search hdfs).sound.exact rfl
  refine ⟨ctx.path, ?_, hlengthPath⟩
  have hrounds : kScanRounds sorted.reverse goal = .ok (some (.exact ctx.path)) := by
    rw [kScanRounds, length_reverse, if_pos (by omega), kScanLoop_skip hgoal hthree (by
      rw [transactionLimit]
      omega) hless]
    obtain ⟨count, hcount⟩ : ∃ count, 3 + (min sorted.length transactionLimit - 2) - k = count + 1 :=
      ⟨3 + (min sorted.length transactionLimit - 2) - k - 1, by rw [transactionLimit]; omega⟩
    rw [hcount, range'_succ, kScanLoop, hdfs]
    rfl
  rw [kScan, filter_below hone, hrounds]
  rfl

end ExactScan

section Priority
variable {values : List Nat}

def descending (values : List Nat) : List Nat := values.insertionSort (· ≥ ·)

theorem descending_eq (sort : SortByAmount) (values : List Nat) :
    (sort.order (numbered values)).reverse.map Prod.snd = descending values := by
  exact ((sort.amounts_perm values).trans (perm_insertionSort _ values).symm).eq_of_pairwise
    (fun _ _ _ _ hle hge => le_antisymm hge hle) (sort.descends _) (pairwise_insertionSort _ values)

def ExactSize (values : List Nat) (goal k : Nat) : Prop :=
  3 ≤ k ∧ k ≤ transactionLimit ∧ ∃ s : List Nat, s.Subperm values ∧ s.length = k ∧ s.sum = goal

def NeedsThree (values : List Nat) (goal : Nat) : Prop :=
  ∀ s : List Nat, s.Subperm values → s.length = 1 ∨ s.length = 2 → s.sum < goal

/-- An exact selection of the smallest size is returned if there is one of at most ten notes. -/
def ExactFirst (sort : SortByAmount) (values : List Nat) (goal : Nat) : Prop :=
  (∀ k, IsLeast { k | ExactSize values goal k } k → ∃ indices,
    findCombination sort values goal = .ok (.exactK indices) ∧ indices.length = k ∧
      Picked (numbered values) indices goal) ∧
  ∀ indices excess, findCombination sort values goal = .ok (.overshoot indices excess) →
    ∀ s : List Nat, s.Subperm values → s.length ≤ transactionLimit → s.sum ≠ goal

/-- Fewer notes do not reach the goal, the largest do not overflow, and the search comes to an exact
selection before its budget runs out. -/
structure WithinBudget (values : List Nat) (goal k : Nat) : Prop where
  fewest : ∀ s : List Nat, s.Subperm values → s.length < k → s.sum < goal
  fits : ((descending values).take k).sum < 2 ^ 128
  nodes : (searchNodes goal k (descending values) 0).1 ≤ 5000

theorem Picked.selected {sorted : List (Nat × Nat)} {indices : List Nat} {total : Nat} (h : Picked sorted indices total)
    (hperm : sorted.Perm (numbered values)) :
    ∃ s : List Nat, s.Subperm values ∧ s.length = indices.length ∧ s.sum = total := by
  obtain ⟨picks, hsub, rfl, rfl⟩ := h
  have hvalues := subperm_map Prod.snd (hsub.trans hperm.subperm)
  rw [snd_zipIdx] at hvalues
  exact ⟨_, hvalues, by simp, rfl⟩

section
variable (h : NeedsThree values goal)
include h

theorem NeedsThree.oneScan (sort : SortByAmount) : oneScan (sort.order (numbered values)) goal = .miss := by
  have hsound := oneScan_sound (sort.order (numbered values)) goal
  have hnot : ∀ i total, goal ≤ total → ¬Picked (sort.order (numbered values)) [i] total := by
    intro i total hreach hpicked
    obtain ⟨s, hs, hlength, rfl⟩ := hpicked.selected (sort.perm _)
    exact absurd (h s hs (.inl hlength)) (not_lt.mpr hreach)
  cases hscan : Sdk.oneScan (sort.order (numbered values)) goal with
  | exact i =>
    rw [hscan] at hsound
    exact absurd hsound (hnot i goal (le_refl _))
  | overshoot i excess =>
    rw [hscan] at hsound
    exact absurd hsound (hnot i _ (Nat.le_add_right _ _))
  | miss => rfl

theorem NeedsThree.twoScan (hgoal : goal < 2 ^ 128) (sort : SortByAmount) :
    twoScan (sort.order (numbered values)) goal = .ok .miss := by
  have hnot : ∀ i j total, Picked (sort.order (numbered values)) [i, j] total → total < goal := by
    intro i j total hpicked
    obtain ⟨s, hs, hlength, rfl⟩ := hpicked.selected (sort.perm _)
    exact h s hs (.inr hlength)
  by_cases hlength : 2 ≤ (sort.order (numbered values)).length
  · obtain ⟨two, htwo, -⟩ := @twoScan_best (sort.order (numbered values)) goal (sort.sorted _)
      (fun l r hlr hr => (hnot _ _ _ (picked_pair hlr hr)).trans hgoal) hlength
    have hsound := twoScan_sound htwo
    cases two with
    | exact i j => exact absurd (hnot i j goal hsound) (lt_irrefl _)
    | overshoot i j excess => exact absurd (hnot i j _ hsound) (by omega)
    | miss => exact htwo
  · exact if_pos (by omega)

theorem NeedsThree.findCombination (hgoal : goal < 2 ^ 128) (sort : SortByAmount)
    (hne : values ≠ []) : findCombination sort values goal =
      CombinationResult.ofScans (kScan (sort.order (numbered values)) goal) .miss .miss := by
  rw [findCombination_eq sort hne goal (h.twoScan hgoal sort), h.oneScan sort]

theorem NeedsThree.one (sort : SortByAmount) : ∀ note ∈ sort.order (numbered values), note.2 < goal := by
  have hsound := oneScan_sound (sort.order (numbered values)) goal
  rwa [h.oneScan sort] at hsound

theorem NeedsThree.pos (hne : values ≠ []) : 0 < goal := by
  obtain ⟨x, rest, rfl⟩ := exists_cons_of_ne_nil hne
  exact lt_of_le_of_lt (Nat.zero_le _) (h [x] (singleton_sublist.mpr mem_cons_self).subperm (.inl rfl))

end

theorem descending_perm (values : List Nat) : (descending values).Perm values := perm_insertionSort _ values

theorem selected_of_sublist (sort : SortByAmount) {picks : List (Nat × Nat)}
    (h : picks.Sublist (sort.order (numbered values)).reverse) : (picks.map Prod.snd).Subperm values := by
  have hsub := h.map Prod.snd
  rw [descending_eq sort values] at hsub
  exact hsub.subperm.trans (descending_perm values).subperm

theorem WithinBudget.kScan (h : WithinBudget values goal k) (hthree : NeedsThree values goal) (hgoal : goal < 2 ^ 128)
    (hexact : ExactSize values goal k) (sort : SortByAmount) :
    ∃ path, Sdk.kScan (sort.order (numbered values)) goal = .ok (.exact path) ∧ path.length = k := by
  obtain ⟨hlow, hhigh, s, hs, hlength, hsum⟩ := hexact
  have hdesc := descending_eq sort values
  have hlengthValues : (sort.order (numbered values)).length = values.length := by
    rw [(sort.perm _).length_eq]
    simp
  refine kScan_exact hgoal (hthree.one sort) hlow hhigh ?_ ?_ ?_ ?_ ?_
  · rw [hlengthValues, ← hlength]
    exact hs.length_le
  · intro picks hpicks hless
    exact h.fewest _ (selected_of_sublist sort hpicks) (by simpa using hless)
  · intro picks hpicks hk
    refine lt_of_le_of_lt (sum_le_sum_take (pairwise_insertionSort _ values) ?_ ?_) h.fits
    · exact (selected_of_sublist sort hpicks).trans (descending_perm values).symm.subperm
    · rw [length_map, hk]
  · rw [hdesc, searchNodes_exact]
    · obtain ⟨ys, hperm, hsub⟩ := hs.trans (descending_perm values).symm.subperm
      exact ⟨ys, hsub, hperm.length_eq.trans hlength, by rw [zero_add, hperm.sum_eq, hsum]⟩
    · intro ys hsub hless
      rw [zero_add]
      exact h.fewest ys (hsub.subperm.trans (descending_perm values).subperm) hless
  · rw [hdesc]
    exact h.nodes

theorem withinBudget_of_kScan (sort : SortByAmount) (hthree : NeedsThree values goal)
    (hten : path.length ≤ transactionLimit)
    (hfewest : ∀ s : List Nat, s.Subperm values → s.length < path.length → s.sum < goal)
    (h : Sdk.kScan (sort.order (numbered values)) goal = .ok (.exact path)) : WithinBudget values goal path.length := by
  obtain ⟨ctx, hdfs, hlength⟩ := kScan_eq_exact h (hthree.one sort)
  have hdesc := descending_eq sort values
  have hnodes := ((dfs_budget hdfs (zero_add _) rfl).1.mp rfl).2
  rw [hdesc] at hnodes
  have hless : ∀ i < path.length, 0 + amountSum ((sort.order (numbered values)).reverse.take i) < goal := by
    intro i hi
    rw [zero_add]
    refine hfewest _ (selected_of_sublist sort (take_sublist _ _)) ?_
    rw [length_map]
    exact (length_take_le _ _).trans_lt hi
  have hfirst := dfs_first_fits hdfs (zero_add _) (by rwa [length_reverse]) (by
    rw [transactionLimit] at hten
    dsimp only
    omega) hless (by decide)
  refine ⟨hfewest, ?_, hnodes⟩
  rwa [zero_add, amountSum, map_take, hdesc] at hfirst

theorem exact_before_overshoot_iff (sort : SortByAmount) (values : List Nat) (goal : Nat) (hgoal : goal < 2 ^ 128)
    (hthree : NeedsThree values goal) :
    ExactFirst sort values goal ↔ ∀ k, IsLeast { k | ExactSize values goal k } k → WithinBudget values goal k := by
  have hsize : ∀ k, ExactSize values goal k → values ≠ [] := by
    rintro k ⟨hlow, -, s, hs, hlength, -⟩ rfl
    rw [subperm_nil.mp hs] at hlength
    rw [← hlength] at hlow
    cases hlow
  constructor
  · rintro ⟨hexact, -⟩ k hleast
    obtain ⟨indices, hfind, rfl, -⟩ := hexact k hleast
    have hne := hsize _ hleast.1
    obtain ⟨picks, hselection, rfl⟩ := findCombination_selection hfind (hthree.pos hne) rfl
    rw [hthree.findCombination hgoal sort hne, ofScans_eq_exactK] at hfind
    refine withinBudget_of_kScan sort hthree hleast.1.2.1 ?_ hfind
    intro s hs hless
    rw [length_map] at hless
    refine hselection.minimal ?_ s hs hless
    have hlow := hleast.1.1
    rw [length_map] at hlow
    exact hlow
  · intro hbudget
    have hfirst : ∀ k, IsLeast { k | ExactSize values goal k } k → ∃ indices,
        findCombination sort values goal = .ok (.exactK indices) ∧ indices.length = k ∧
          Picked (numbered values) indices goal := by
      intro k hleast
      have hne := hsize k hleast.1
      obtain ⟨path, hscan, hlength⟩ := (hbudget k hleast).kScan hthree hgoal hleast.1 sort
      have hfind : findCombination sort values goal = .ok (.exactK path) := by
        rw [hthree.findCombination hgoal sort hne, ofScans_eq_exactK, hscan]
      obtain ⟨picks, hselection, hpath⟩ := findCombination_selection hfind (hthree.pos hne) rfl
      exact ⟨path, hfind, hlength, picks, hselection.picked, hpath, hselection.total⟩
    refine ⟨hfirst, ?_⟩
    intro indices excess hfind s hs hlength hsum
    classical
    have hlow : 3 ≤ s.length := by
      by_contra hshort
      have hnil : s = [] := by
        by_contra hne
        have hpos := length_pos_iff.mpr hne
        exact absurd (hthree s hs (by omega)) (by omega)
      have hempty : values = [] := by
        by_contra hne
        have hpos := hthree.pos hne
        rw [← hsum, hnil] at hpos
        exact absurd hpos (lt_irrefl _)
      rw [hempty] at hfind
      cases hfind
    have hexists : ∃ k, ExactSize values goal k := ⟨s.length, hlow, hlength, s, hs, rfl, hsum⟩
    obtain ⟨_, hexact, -⟩ := hfirst (Nat.find hexists) ⟨Nat.find_spec hexists, fun k hk => Nat.find_min' hexists hk⟩
    cases hexact.symm.trans hfind

theorem exact_before_overshoot_ten : ExactFirst .stable [2, 5, 3] 10 := by
  have hsorted : [5, 3, 2].Pairwise (· ≥ ·) := by decide
  have hbound : ∀ s : List Nat, s.Subperm [2, 5, 3] → s.length ≤ 2 → s.sum ≤ 8 := by
    intro s hs hlength
    exact sum_le_sum_take hsorted (hs.trans (descending_perm [2, 5, 3]).symm.subperm) hlength
  refine (exact_before_overshoot_iff .stable [2, 5, 3] 10 (by decide) ?_).mpr ?_
  · intro s hs hlength
    have hle := hbound s hs (by omega)
    omega
  · rintro k ⟨⟨hlow, -, s, hs, hlength, -⟩, -⟩
    have hle : s.length ≤ 3 := hs.length_le
    obtain rfl : k = 3 := by omega
    refine ⟨fun s hs hless => ?_, by decide +kernel, by decide +kernel⟩
    have hle := hbound s hs (by omega)
    omega

/-- Three fours overshoot, while four and four and one and one are exactly ten. -/
theorem overshoot_before_exact : NeedsThree [4, 4, 4, 1, 1] 10 ∧ ExactSize [4, 4, 4, 1, 1] 10 4 ∧
    findCombination .stable [4, 4, 4, 1, 1] 10 = .ok (.overshoot [2, 1, 0] 2) ∧
      ¬ExactFirst .stable [4, 4, 4, 1, 1] 10 := by
  have hfind : findCombination .stable [4, 4, 4, 1, 1] 10 = .ok (.overshoot [2, 1, 0] 2) := by decide +kernel
  have hsub : [4, 4, 1, 1].Subperm [4, 4, 4, 1, 1] := List.Sublist.subperm (by decide)
  refine ⟨?_, ⟨by decide, by decide, [4, 4, 1, 1], hsub, rfl, rfl⟩, hfind, ?_⟩
  · intro s hs hlength
    have hle := sum_le_sum_take (show [4, 4, 4, 1, 1].Pairwise (· ≥ ·) by decide) hs (show s.length ≤ 2 by omega)
    exact lt_of_le_of_lt hle (by decide)
  · rintro ⟨-, hovershoot⟩
    exact hovershoot [2, 1, 0] 2 hfind [4, 4, 1, 1] hsub (by decide) rfl

end Priority

end PrivatePayments.Sdk

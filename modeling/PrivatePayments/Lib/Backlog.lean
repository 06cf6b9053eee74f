import Mathlib.Data.Finset.Card
import Mathlib.Data.Finset.Dedup
import Mathlib.Data.Finset.SDiff

/-! A queue that is read from its front, at most `limit` items at a time. An item may bring
a key. For each key that the items read bring and no item was served with, one of them is
served and leaves the queue; the others stay where they are. -/
namespace PrivatePayments.Lib.Backlog
open List

section
variable {ι κ : Type} [DecidableEq κ] (key : ι → Option κ) (items : List ι) (limit : Nat)

def keysOf (items : List ι) : Finset κ := (items.filterMap key).toFinset

variable {key} in
@[simp] theorem mem_keysOf {items : List ι} {k : κ} : k ∈ keysOf key items ↔ ∃ x ∈ items, key x = some k := by
  simp [keysOf]

def waiting (served : ι → Bool) : List ι := items.filter fun x => !served x

def batch (served : ι → Bool) : List ι := (waiting items served).take limit

def kept (served : ι → Bool) : Finset κ := keysOf key (items.filter served)

/-- The keys that `ahead` brings and nothing was served with. -/
def newKeys (served : ι → Bool) (ahead : List ι) : Finset κ := keysOf key ahead \ kept key items served

def Brings (served : ι → Bool) (ahead : List ι) (x : ι) : Prop :=
  ∃ k, key x = some k ∧ k ∉ kept key items served ∧ k ∉ keysOf key ahead

/-- Of the items ahead of a new key, fewer than `limit` bring nothing new. -/
def Unblocked (served : ι → Bool) : Prop :=
  ∀ ahead x behind, waiting items served = ahead ++ x :: behind → Brings key items served ahead x →
    ahead.length < limit + (newKeys key items served ahead).card

def Finished (served : ι → Bool) : Prop :=
  ∀ x ∈ items, ∀ k, key x = some k → k ∈ kept key items served

structure Valid (served : ι → Bool) : Prop where
  keyed : ∀ x ∈ items, served x = true → ∃ k, key x = some k
  distinct : ∀ x ∈ items, ∀ y ∈ items, served x = true → served y = true → key x = key y → x = y

structure Serves (served served' : ι → Bool) : Prop where
  grows : ∀ x ∈ items, served x = true → served' x = true
  batch : ∀ x ∈ items, served' x = true → served x = true ∨ x ∈ batch items limit served
  keys : ∀ x ∈ Backlog.batch items limit served, ∀ k, key x = some k → k ∈ kept key items served'

end

section
variable {ι κ : Type} [DecidableEq κ] {key : ι → Option κ} {items : List ι} {limit : Nat}
  {served served' : ι → Bool} {ahead : List ι}

theorem mem_waiting {x : ι} : x ∈ waiting items served ↔ x ∈ items ∧ served x = false := by
  simp [waiting]

theorem mem_kept {k : κ} : k ∈ kept key items served ↔ ∃ x ∈ items, served x = true ∧ key x = some k := by
  simp [kept, and_assoc]

theorem mem_batch {x : ι} {behind : List ι} (hsplit : waiting items served = ahead ++ x :: behind)
    (h : ahead.length < limit) : x ∈ batch items limit served := by
  obtain ⟨n, hn⟩ : ∃ n, limit - ahead.length = n + 1 := ⟨limit - ahead.length - 1, by omega⟩
  simp [batch, hsplit, take_append, hn]

theorem batch_subset {rest : List ι} (hsplit : waiting items served = ahead ++ rest)
    (h : limit ≤ ahead.length) : batch items limit served ⊆ ahead := by
  unfold batch
  rw [hsplit, take_append_of_le_length h]
  exact take_subset _ _

theorem finished_of_newKeys (h : newKeys key items served (waiting items served) = ∅) :
    Finished key items served := by
  intro x hx k hk
  by_contra hnew
  have hwaiting : x ∈ waiting items served := by
    rw [mem_waiting]
    refine ⟨hx, ?_⟩
    by_contra hserved
    exact hnew (mem_kept.mpr ⟨x, hx, by simpa using hserved, hk⟩)
  have hmem : k ∈ newKeys key items served (waiting items served) :=
    Finset.mem_sdiff.mpr ⟨mem_keysOf.mpr ⟨x, hwaiting, hk⟩, hnew⟩
  rw [h] at hmem
  cases hmem

theorem Finished.unblocked (h : Finished key items served) : Unblocked key items limit served := by
  intro ahead x behind hsplit hbrings
  obtain ⟨k, hk, hnew, -⟩ := hbrings
  have hx : x ∈ waiting items served := by simp [hsplit]
  exact absurd (h x (mem_waiting.mp hx).1 k hk) hnew

namespace Serves

section
variable (h : Serves key items limit served served')
include h

theorem waiting_eq : waiting items served' = (waiting items served).filter fun x => !served' x := by
  unfold waiting
  rw [filter_filter]
  apply filter_congr
  intro x hx
  have hgrows := h.grows x hx
  cases hserved : served x <;> simp_all

theorem kept_eq : kept key items served' = kept key items served ∪ keysOf key (Backlog.batch items limit served) := by
  ext k
  rw [Finset.mem_union]
  constructor
  · intro hk
    obtain ⟨x, hx, hserved, hkey⟩ := mem_kept.mp hk
    rcases h.batch x hx hserved with hold | hbatch
    · exact .inl (mem_kept.mpr ⟨x, hx, hold, hkey⟩)
    · exact .inr (mem_keysOf.mpr ⟨x, hbatch, hkey⟩)
  · rintro (hk | hk)
    · obtain ⟨x, hx, hserved, hkey⟩ := mem_kept.mp hk
      exact mem_kept.mpr ⟨x, hx, h.grows x hx hserved, hkey⟩
    · obtain ⟨x, hx, hkey⟩ := mem_keysOf.mp hk
      exact h.keys x hx k hkey

theorem newKeys_eq (hahead : ahead <+: waiting items served) :
    newKeys key items served' (ahead.filter fun x => !served' x) =
      newKeys key items served ahead \ newKeys key items served (Backlog.batch items limit served) := by
  ext k
  have hserved : ∀ x ∈ ahead, served' x = true → key x = some k → k ∈ kept key items served' :=
    fun x hx hs hk => mem_kept.mpr ⟨x, (mem_waiting.mp (hahead.subset hx)).1, hs, hk⟩
  rw [h.kept_eq, Finset.mem_union] at hserved
  simp only [newKeys, h.kept_eq, Finset.mem_sdiff, Finset.mem_union, mem_keysOf, mem_filter] at *
  grind

section
variable (hvalid : Valid key items served') (hitems : items.Nodup) (hahead : ahead <+: waiting items served)
  (hbatch : Backlog.batch items limit served ⊆ ahead)
include hvalid hitems hahead hbatch

theorem served_count :
    (ahead.filter served').length = (newKeys key items served (Backlog.batch items limit served)).card := by
  have hmem : ∀ x ∈ ahead, x ∈ items ∧ served x = false := fun x hx => mem_waiting.mp (hahead.subset hx)
  have hnodup : ((ahead.filter served').map key).Nodup := by
    apply List.Nodup.map_on
    · intro x hx y hy heq
      rw [mem_filter] at hx hy
      exact hvalid.distinct x (hmem x hx.1).1 y (hmem y hy.1).1 hx.2 hy.2 heq
    · exact ((hitems.filter _).sublist hahead.sublist).filter _
  have hkeys : ((ahead.filter served').map key).toFinset =
      (newKeys key items served (Backlog.batch items limit served)).image some := by
    ext o
    simp only [mem_toFinset, mem_map, mem_filter, Finset.mem_image, newKeys,
      Finset.mem_sdiff, mem_keysOf]
    constructor
    · rintro ⟨x, ⟨hx, hserved⟩, rfl⟩
      obtain ⟨hitem, hwaits⟩ := hmem x hx
      obtain ⟨k, hk⟩ := hvalid.keyed x hitem hserved
      refine ⟨k, ⟨⟨x, (h.batch x hitem hserved).resolve_left (by simp [hwaits]), hk⟩, ?_⟩, hk.symm⟩
      intro hkept
      obtain ⟨y, hy, hyserved, hyk⟩ := mem_kept.mp hkept
      have heq := hvalid.distinct x hitem y hy hserved (h.grows y hy hyserved) (hk.trans hyk.symm)
      rw [← heq, hwaits] at hyserved
      cases hyserved
    · rintro ⟨k, ⟨⟨x, hx, hk⟩, hnew⟩, rfl⟩
      obtain ⟨y, hy, hyserved, hyk⟩ := mem_kept.mp (h.keys x hx k hk)
      have hynew : ¬served y = true := fun hold => hnew (mem_kept.mpr ⟨y, hy, hold, hyk⟩)
      exact ⟨y, ⟨hbatch ((h.batch y hy hyserved).resolve_left hynew), hyserved⟩, hyk⟩
  calc (ahead.filter served').length
    _ = ((ahead.filter served').map key).toFinset.card := by
      rw [toFinset_card_of_nodup hnodup, length_map]
    _ = _ := by rw [hkeys, Finset.card_image_of_injective _ (Option.some_injective κ)]

theorem balance :
    (ahead.filter fun x => !served' x).length + (newKeys key items served ahead).card =
      ahead.length + (newKeys key items served' (ahead.filter fun x => !served' x)).card := by
  have hsubset : newKeys key items served (Backlog.batch items limit served) ⊆
      newKeys key items served ahead := by
    apply Finset.sdiff_subset_sdiff _ (Finset.Subset.refl _)
    intro k hk
    obtain ⟨x, hx, hkey⟩ := mem_keysOf.mp hk
    exact mem_keysOf.mpr ⟨x, hbatch hx, hkey⟩
  have hcount := h.served_count hvalid hitems hahead hbatch
  have hlength := length_eq_length_filter_add (l := ahead) served'
  have hcard := Finset.card_le_card hsubset
  rw [h.newKeys_eq hahead, Finset.card_sdiff_of_subset hsubset]
  omega

end

theorem brings_iff (hahead : ahead <+: waiting items served)
    (hbatch : Backlog.batch items limit served ⊆ ahead) {x : ι} :
    Brings key items served' (ahead.filter fun x => !served' x) x ↔ Brings key items served ahead x := by
  have hmem : ∀ y ∈ ahead, served' y = true → ∀ k, key y = some k → k ∈ kept key items served' :=
    fun y hy hs k hk => mem_kept.mpr ⟨y, (mem_waiting.mp (hahead.subset hy)).1, hs, hk⟩
  simp only [h.kept_eq, Finset.mem_union] at hmem
  simp only [Brings, h.kept_eq, Finset.mem_union, mem_keysOf, mem_filter] at *
  grind

theorem unblocked_iff (hvalid : Valid key items served')
    (hitems : items.Nodup) : Unblocked key items limit served' ↔ Unblocked key items limit served := by
  constructor
  · intro hopen ahead x behind hsplit hbrings
    by_contra hfar
    have hlimit : limit ≤ ahead.length := by omega
    have hsubset := batch_subset hsplit hlimit
    have hahead : ahead <+: waiting items served := ⟨_, hsplit.symm⟩
    have hbrings' := (h.brings_iff hahead hsubset).mpr hbrings
    have hstays : served' x = false := by
      by_contra hserved
      obtain ⟨k, hk, hnew, -⟩ := hbrings'
      have hx : x ∈ waiting items served := by simp [hsplit]
      exact hnew (mem_kept.mpr ⟨x, (mem_waiting.mp hx).1, by simpa using hserved, hk⟩)
    have hsplit' : waiting items served' =
        (ahead.filter fun x => !served' x) ++ x :: behind.filter fun x => !served' x := by
      rw [h.waiting_eq, hsplit, filter_append, filter_cons_of_pos (by simp [hstays])]
    have hlt := hopen _ x _ hsplit' hbrings'
    have hbalance := h.balance hvalid hitems hahead hsubset
    omega
  · intro hopen ahead' x behind' hsplit' hbrings'
    rw [h.waiting_eq, filter_eq_append_iff] at hsplit'
    obtain ⟨before, after, hsplit, rfl, hafter⟩ := hsplit'
    obtain ⟨between, behind, rfl, hnone, -, -⟩ := filter_eq_cons_iff.mp hafter
    -- the items between `before` and `x` were all served
    have hfilter : (before.filter fun x => !served' x) = (before ++ between).filter fun x => !served' x := by
      rw [filter_append, filter_eq_nil_iff.mpr hnone, append_nil]
    rw [hfilter] at hbrings' ⊢
    rw [← append_assoc] at hsplit
    have hahead : before ++ between <+: waiting items served := ⟨_, hsplit.symm⟩
    have hlimit : limit ≤ (before ++ between).length := by
      by_contra hshort
      obtain ⟨k, hk, hnew, -⟩ := hbrings'
      apply hnew
      rw [h.kept_eq, Finset.mem_union, mem_keysOf]
      exact .inr ⟨x, mem_batch hsplit (Nat.lt_of_not_le hshort), hk⟩
    have hsubset := batch_subset hsplit hlimit
    have hlt := hopen _ x _ hsplit ((h.brings_iff hahead hsubset).mp hbrings')
    have hbalance := h.balance hvalid hitems hahead hsubset
    omega

theorem progress (hopen : Unblocked key items limit served)
    (hnew : (newKeys key items served (waiting items served)).Nonempty) :
    newKeys key items served' (waiting items served') ⊂ newKeys key items served (waiting items served) := by
  obtain ⟨k, hk⟩ := hnew
  rw [newKeys, Finset.mem_sdiff, mem_keysOf] at hk
  obtain ⟨⟨y, hy, hyk⟩, hk⟩ := hk
  let isNew : ι → Bool := fun x => (key x).any fun k => k ∉ kept key items served
  obtain ⟨x, hfind⟩ : ∃ x, (waiting items served).find? isNew = some x := by
    apply Option.isSome_iff_exists.mp
    rw [find?_isSome]
    exact ⟨y, hy, by simp [isNew, hyk, hk]⟩
  obtain ⟨hisNew, ahead, behind, hsplit, hahead⟩ := find?_eq_some_iff_append.mp hfind
  obtain ⟨j, hxj, hj⟩ := Option.any_eq_true _ _ |>.mp hisNew
  have hj : j ∉ kept key items served := by simpa using hj
  have hold : ∀ z ∈ ahead, ∀ i, key z = some i → i ∈ kept key items served := by
    intro z hz i hi
    simpa [isNew, hi] using hahead z hz
  have hnone : newKeys key items served ahead = ∅ := by
    rw [newKeys, Finset.sdiff_eq_empty_iff_subset]
    intro i hi
    obtain ⟨z, hz, hzi⟩ := mem_keysOf.mp hi
    exact hold z hz i hzi
  have hbrings : Brings key items served ahead x := by
    refine ⟨j, hxj, hj, ?_⟩
    intro hmem
    obtain ⟨z, hz, hzj⟩ := mem_keysOf.mp hmem
    exact hj (hold z hz j hzj)
  have hlt := hopen ahead x behind hsplit hbrings
  rw [hnone, Finset.card_empty] at hlt
  have hread : x ∈ Backlog.batch items limit served := mem_batch hsplit hlt
  rw [Finset.ssubset_iff_of_subset]
  · refine ⟨j, ?_, ?_⟩
    · rw [newKeys, Finset.mem_sdiff, mem_keysOf]
      exact ⟨⟨x, by simp [hsplit], hxj⟩, hj⟩
    · rw [newKeys, Finset.mem_sdiff]
      exact fun hmem => hmem.2 (h.keys x hread j hxj)
  · rw [h.waiting_eq, h.newKeys_eq (prefix_refl _)]
    exact Finset.sdiff_subset

end

end Serves

section Run
variable {run : Nat → ι → Bool}

section
variable (hstep : ∀ n, Serves key items limit (run n) (run (n + 1))) (hvalid : ∀ n, Valid key items (run n))
  (hitems : items.Nodup)
include hstep hvalid hitems

theorem unblocked_run (n : Nat) : Unblocked key items limit (run n) ↔ Unblocked key items limit (run 0) := by
  induction n with
  | zero => rfl
  | succ n ih => exact ((hstep n).unblocked_iff (hvalid (n + 1)) hitems).trans ih

theorem finished_iff_unblocked
    : (∃ n, Finished key items (run n)) ↔ Unblocked key items limit (run 0) := by
  constructor
  · rintro ⟨n, hfinished⟩
    exact (unblocked_run hstep hvalid hitems n).mp hfinished.unblocked
  · intro hopen
    by_contra hnever
    push Not at hnever
    -- the new keys that wait grow fewer with every step
    have hfewer : ∀ n, (newKeys key items (run n) (waiting items (run n))).card + n ≤
        (newKeys key items (run 0) (waiting items (run 0))).card := by
      intro n
      induction n with
      | zero => exact le_refl _
      | succ n ih =>
        have hnonempty : (newKeys key items (run n) (waiting items (run n))).Nonempty := by
          rw [Finset.nonempty_iff_ne_empty]
          exact fun hempty => hnever n (finished_of_newKeys hempty)
        have hopen' := (unblocked_run hstep hvalid hitems n).mpr hopen
        have hlt := Finset.card_lt_card ((hstep n).progress hopen' hnonempty)
        omega
    have hbound := hfewer ((newKeys key items (run 0) (waiting items (run 0))).card + 1)
    omega

end

end Run

end

end PrivatePayments.Lib.Backlog

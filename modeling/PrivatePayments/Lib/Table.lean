import Mathlib.Data.List.Nodup
import Mathlib.Data.List.Pairwise
import Mathlib.Data.List.Sigma
import Mathlib.Data.List.Sort
import Mathlib.Order.MinMax

/-! Tables with uniqueness constraints, and reading them page by page behind a
high-water mark. -/
namespace PrivatePayments.Lib
open List

theorem find?_of_unique {α : Type} {rows : List α} {select : α → Bool} {row : α} (hrow : row ∈ rows)
    (hselect : select row = true) (hunique : ∀ r ∈ rows, select r = true → r = row) :
    rows.find? select = some row := by
  cases hfind : rows.find? select with
  | none =>
    rw [find?_eq_none] at hfind
    exact absurd hselect (hfind row hrow)
  | some found =>
    rw [hunique found (mem_of_find?_eq_some hfind) (find?_some hfind)]

theorem nodup_filterMap_iff {α β : Type} {rows : List α} {f : α → Option β} (hrows : rows.Nodup) :
    (rows.filterMap f).Nodup ↔ ∀ a ∈ rows, ∀ b ∈ rows, ∀ value, f a = some value → f b = some value → a = b := by
  rw [List.Nodup, pairwise_filterMap]
  constructor
  · intro h a ha b hb value hfa hfb
    have hsymm : Std.Symm fun a b => ∀ x, f a = some x → ∀ y, f b = some y → x ≠ y :=
      ⟨fun _ _ hne y hy x hx => (hne x hx y hy).symm⟩
    by_contra hne
    exact h.forall ha hb hne value hfa value hfb rfl
  · intro h
    apply hrows.imp_of_mem
    rintro a b ha hb hne x hx y hy rfl
    exact hne (h a ha b hb x hx hy)

theorem insertionSort_of_perm_zipIdx {α β : Type} {rows : List α} {value : α → β} {position : α → Nat}
    {values : List β} (h : (rows.map fun row => (value row, position row)).Perm values.zipIdx) :
    (rows.insertionSort fun a b => position a ≤ position b).map (fun row => (value row, position row)) =
      values.zipIdx := by
  have htotal : Std.Total fun a b : α => position a ≤ position b := ⟨fun a b => le_total _ _⟩
  have htrans : IsTrans α fun a b => position a ≤ position b := ⟨fun _ _ _ => le_trans⟩
  have hperm := ((rows.perm_insertionSort fun a b => position a ≤ position b).map
    fun row => (value row, position row)).trans h
  have hsorted : values.zipIdx.Pairwise fun a b => a.2 ≤ b.2 := by
    apply pairwise_map.mp
    rw [zipIdx_map_snd]
    exact pairwise_le_range'
  apply List.Perm.eq_of_pairwise _ _ hsorted hperm
  · intro a b ha hb hle hle'
    have hposition : a.2 = b.2 := le_antisymm hle hle'
    exact inj_on_of_nodup_map (nodup_zipIdx_map_snd values) (hperm.subset ha) hb hposition
  · rw [pairwise_map]
    exact pairwise_insertionSort _ rows

theorem insertionSort_filter {α : Type} {r : α → α → Prop} [DecidableRel r] [Std.Total r] [IsTrans α r]
    {rows : List α} (hantisymm : ∀ a ∈ rows, ∀ b ∈ rows, r a b → r b a → a = b) (p : α → Bool) :
    (rows.filter p).insertionSort r = (rows.insertionSort r).filter p := by
  have hperm : ((rows.filter p).insertionSort r).Perm ((rows.insertionSort r).filter p) :=
    ((rows.filter p).perm_insertionSort r).trans ((rows.perm_insertionSort r).symm.filter p)
  apply List.Perm.eq_of_pairwise _ (pairwise_insertionSort r _)
    ((pairwise_insertionSort r rows).filter p) hperm
  intro a b ha hb
  have hmem : ∀ x ∈ (rows.filter p).insertionSort r, x ∈ rows := fun x hx =>
    mem_of_mem_filter ((mem_insertionSort r).mp hx)
  exact hantisymm a (hmem a ha) b (hmem b (hperm.symm.subset hb))

/-- No two rows are in conflict, that is, share the value of a unique column. -/
structure Table (α : Type) (conflict : α → α → Prop) where
  rows : List α
  unique : rows.Pairwise fun a b => ¬conflict a b

namespace Table
variable {α : Type} {conflict : α → α → Prop}

def empty : Table α conflict where
  rows := []
  unique := .nil

@[simp] theorem empty_rows : (empty : Table α conflict).rows = [] := rfl

variable {t t' : Table α conflict}

theorem eq_of_rows (h : t.rows = t'.rows) : t = t' := by
  cases t
  cases h
  rfl

theorem unique_append {row : α} (h : ∀ r ∈ t.rows, ¬conflict r row) :
    (t.rows ++ [row]).Pairwise fun a b => ¬conflict a b :=
  pairwise_append.mpr ⟨t.unique, pairwise_singleton _ _, fun a ha b hb => by
    rw [mem_singleton.mp hb]
    exact h a ha⟩

theorem eq_of_conflict (hsymm : ∀ a b, conflict a b → conflict b a) {a b : α}
    (ha : a ∈ t.rows) (hb : b ∈ t.rows) (h : conflict a b) : a = b := by
  have hnot : Std.Symm fun a b => ¬conflict a b := ⟨fun a b hab hba => hab (hsymm b a hba)⟩
  by_contra hne
  exact t.unique.forall ha hb hne h

variable [DecidableRel conflict]

/-- Fails where the row is in conflict with one that is there. -/
def insert? (t : Table α conflict) (row : α) : Option (Table α conflict) :=
  if h : ∀ r ∈ t.rows, ¬conflict r row then some ⟨t.rows ++ [row], unique_append h⟩ else none

/-- Fails where two rows would then be in conflict. -/
def update? (t : Table α conflict) (f : α → α) : Option (Table α conflict) :=
  if h : (t.rows.map f).Pairwise fun a b => ¬conflict a b then some ⟨t.rows.map f, h⟩ else none

def insertOrIgnore (t : Table α conflict) (row : α) : Table α conflict := (t.insert? row).getD t

theorem insert?_eq_some {row : α} (h : t.insert? row = some t') :
    (∀ r ∈ t.rows, ¬conflict r row) ∧ t'.rows = t.rows ++ [row] := by
  unfold insert? at h
  split at h
  · rename_i hfresh
    cases h
    exact ⟨hfresh, rfl⟩
  · cases h

theorem insert?_of_fresh {row : α} (h : ∀ r ∈ t.rows, ¬conflict r row) :
    ∃ t', t.insert? row = some t' := ⟨_, dif_pos h⟩

theorem update?_eq_some {f : α → α} (h : t.update? f = some t') :
    t'.rows = t.rows.map f := by
  unfold update? at h
  split at h
  · cases h
    rfl
  · cases h

theorem insertOrIgnore_cases (t : Table α conflict) (row : α) :
    (t.insertOrIgnore row = t ∧ ∃ r ∈ t.rows, conflict r row) ∨
      ((∀ r ∈ t.rows, ¬conflict r row) ∧ (t.insertOrIgnore row).rows = t.rows ++ [row]) := by
  unfold insertOrIgnore
  cases h : t.insert? row with
  | none =>
    left
    refine ⟨rfl, ?_⟩
    by_contra hno
    push Not at hno
    obtain ⟨t', ht'⟩ := insert?_of_fresh hno
    rw [h] at ht'
    cases ht'
  | some t' => exact .inr (insert?_eq_some h)

theorem prefix_insertOrIgnore (t : Table α conflict) (row : α) : t.rows <+: (t.insertOrIgnore row).rows := by
  rcases t.insertOrIgnore_cases row with ⟨hsame, -⟩ | ⟨-, hrows⟩
  · exact (congrArg Table.rows hsame).symm ▸ prefix_refl t.rows
  · exact hrows ▸ prefix_append _ _

theorem getElem?_insertOrIgnore {β : Type} [DecidableEq β] (t : Table β Eq) (row : β) :
    (t.insertOrIgnore row).rows[t.rows.idxOf row]? = some row := by
  rcases t.insertOrIgnore_cases row with ⟨hsame, r, hr, rfl⟩ | ⟨hfresh, hrows⟩
  · rw [hsame]
    exact getElem?_idxOf hr
  · have habsent : row ∉ t.rows := fun hmem => hfresh row hmem rfl
    rw [hrows, idxOf_eq_length habsent, getElem?_concat_length]

theorem idxOf_insertOrIgnore {β : Type} [DecidableEq β] (t : Table β Eq) (row : β) :
    (t.insertOrIgnore row).rows.idxOf row = t.rows.idxOf row := by
  obtain ⟨hlt, heq⟩ := List.getElem?_eq_some_iff.mp (t.getElem?_insertOrIgnore row)
  have hnodup : (t.insertOrIgnore row).rows.Nodup := (t.insertOrIgnore row).unique
  have hidx := hnodup.idxOf_getElem _ hlt
  rwa [heq] at hidx

end Table

/-- Rows numbered from one in the order of their insertion. -/
structure NumberedTable (α : Type) (rowid : α → Nat) (conflict : α → α → Prop) extends
    Table α conflict where
  numbered : rows.map rowid = List.range' 1 rows.length

namespace NumberedTable
variable {α : Type} {rowid : α → Nat} {conflict : α → α → Prop} {t t' : NumberedTable α rowid conflict}

def empty : NumberedTable α rowid conflict where
  toTable := .empty
  numbered := rfl

@[simp] theorem empty_rows : (empty : NumberedTable α rowid conflict).rows = [] := rfl

theorem eq_of_rows (h : t.rows = t'.rows) : t = t' := by
  obtain ⟨table, _⟩ := t
  obtain ⟨table', _⟩ := t'
  cases Table.eq_of_rows h
  rfl

theorem sorted (t : NumberedTable α rowid conflict) : t.rows.Pairwise fun a b => rowid a < rowid b := by
  have hrange : (t.rows.map rowid).Pairwise (· < ·) := by
    rw [t.numbered]
    exact pairwise_lt_range'
  exact pairwise_map.mp hrange

theorem rowid_inj {a b : α} (ha : a ∈ t.rows) (hb : b ∈ t.rows) (h : rowid a = rowid b) : a = b := by
  have hnodup : (t.rows.map rowid).Nodup := by
    rw [t.numbered]
    exact nodup_range'
  exact inj_on_of_nodup_map hnodup ha hb h

theorem rowid_le {a : α} (ha : a ∈ t.rows) : 0 < rowid a ∧ rowid a ≤ t.rows.length := by
  have hmem : rowid a ∈ List.range' 1 t.rows.length := t.numbered ▸ mem_map_of_mem ha
  rw [mem_range'_1] at hmem
  omega

theorem mem_of_isPrefix (h : t.rows <+: t'.rows) {a : α} (ha : a ∈ t'.rows) :
    a ∈ t.rows ∨ t.rows.length < rowid a := by
  obtain ⟨rest, hrest⟩ := h
  rw [← hrest] at ha
  rcases mem_append.mp ha with hold | hnew
  · exact .inl hold
  · right
    have hnumbered := t'.numbered
    rw [← hrest, map_append, length_append, ← range'_append_1, t.numbered] at hnumbered
    have hmem : rowid a ∈ List.range' (1 + t.rows.length) rest.length :=
      append_cancel_left hnumbered ▸ mem_map_of_mem hnew
    rw [mem_range'_1] at hmem
    omega

variable [DecidableRel conflict]

/-- The new row is made for the next number. -/
def insert? (t : NumberedTable α rowid conflict) (row : Nat → α) (hrow : ∀ n, rowid (row n) = n) :
    Option (NumberedTable α rowid conflict) :=
  if h : ∀ r ∈ t.rows, ¬conflict r (row (t.rows.length + 1)) then
    some
      { rows := t.rows ++ [row (t.rows.length + 1)]
        unique := Table.unique_append h
        numbered := by
          rw [map_append, t.numbered, length_append, map_singleton, hrow,
            length_singleton, range'_concat]
          simp [Nat.add_comm] }
  else none

theorem insert?_eq_some {row : Nat → α} {hrow : ∀ n, rowid (row n) = n} (h : t.insert? row hrow = some t') :
    (∀ r ∈ t.rows, ¬conflict r (row (t.rows.length + 1))) ∧ t'.rows = t.rows ++ [row (t.rows.length + 1)] := by
  unfold insert? at h
  split at h
  · rename_i hfresh
    cases h
    exact ⟨hfresh, rfl⟩
  · cases h

theorem insert?_of_fresh {row : Nat → α} {hrow : ∀ n, rowid (row n) = n}
    (h : ∀ r ∈ t.rows, ¬conflict r (row (t.rows.length + 1))) : ∃ t', t.insert? row hrow = some t' := ⟨_, dif_pos h⟩

end NumberedTable

/-! Storing values one after the other, each unless its key is taken. -/
section Insert
variable {ρ ε : Type} {clash : ρ → ε → Bool} {make : Nat → ε → ρ} {rows : List ρ} {events : List ε}

def insertNew (clash : ρ → ε → Bool) (make : Nat → ε → ρ) (rows : List ρ) (event : ε) : List ρ :=
  if rows.any (clash · event) then rows else rows ++ [make (rows.length + 1) event]

def insertAll (clash : ρ → ε → Bool) (make : Nat → ε → ρ) (rows : List ρ) (events : List ε) : List ρ :=
  events.foldl (insertNew clash make) rows

theorem prefix_insertAll : rows <+: insertAll clash make rows events := by
  induction events generalizing rows with
  | nil => exact prefix_refl rows
  | cons event rest ih =>
    refine List.IsPrefix.trans ?_ ih
    unfold insertNew
    split
    · exact prefix_refl rows
    · exact prefix_append _ _

theorem mem_insertAll {row : ρ} (h : row ∈ insertAll clash make rows events) :
    row ∈ rows ∨ ∃ event ∈ events, ∃ n, row = make n event := by
  induction events generalizing rows with
  | nil => exact .inl h
  | cons event rest ih =>
    rcases ih h with hfirst | ⟨e, he, n, rfl⟩
    · unfold insertNew at hfirst
      split at hfirst
      · exact .inl hfirst
      · rcases mem_append.mp hfirst with hold | hnew
        · exact .inl hold
        · exact .inr ⟨event, mem_cons_self, _, mem_singleton.mp hnew⟩
    · exact .inr ⟨e, mem_cons_of_mem _ he, n, rfl⟩

theorem clash_insertAll (hmake : ∀ n event, clash (make n event) event = true) {event : ε}
    (h : event ∈ events) : ∃ row ∈ insertAll clash make rows events, clash row event = true := by
  induction events generalizing rows with
  | nil => cases h
  | cons first rest ih =>
    rcases mem_cons.mp h with rfl | hrest
    · have htaken : ∃ row ∈ insertNew clash make rows event, clash row event = true := by
        unfold insertNew
        split
        · rename_i hany
          simpa using hany
        · exact ⟨_, mem_append_right _ (mem_singleton.mpr rfl), hmake _ event⟩
      obtain ⟨row, hrow, hclash⟩ := htaken
      have hkept : insertNew clash make rows event <+: insertAll clash make rows (event :: rest) := prefix_insertAll
      exact ⟨row, hkept.subset hrow, hclash⟩
    · exact ih hrest

end Insert

section Page
variable {α κ : Type} [LinearOrder κ] {key : α → κ} {select : α → Bool} {last : κ} {limit : Nat}
  {rows : List α}

def page (key : α → κ) (select : α → Bool) (last : κ) (limit : Nat) (rows : List α) : List α :=
  (rows.filter fun row => select row && decide (last < key row)).take limit

def highest (key : α → κ) (last : κ) (rows : List α) : κ :=
  rows.foldl (fun mark row => max mark (key row)) last

theorem mem_of_mem_page {row : α} (h : row ∈ page key select last limit rows) :
    row ∈ rows ∧ select row = true ∧ last < key row := by
  have hfilter := mem_filter.mp (mem_of_mem_take h)
  simpa using hfilter

theorem page_eq_nil (hlimit : 0 < limit) (h : page key select last limit rows = []) {row : α}
    (hrow : row ∈ rows) (hselect : select row = true) : key row ≤ last := by
  by_contra hlt
  have hmem : row ∈ rows.filter fun row => select row && decide (last < key row) := by
    simp [hrow, hselect, not_le.mp hlt]
  rw [page, take_eq_nil_iff] at h
  rcases h with hzero | hnil
  · omega
  · rw [hnil] at hmem
    cases hmem

theorem last_le_highest (last : κ) (rows : List α) : last ≤ highest key last rows := by
  induction rows generalizing last with
  | nil => exact le_refl last
  | cons row rest ih => exact (le_max_left last (key row)).trans (ih _)

theorem key_le_highest {row : α} (h : row ∈ rows) : key row ≤ highest key last rows := by
  induction rows generalizing last with
  | nil => cases h
  | cons first rest ih =>
    rcases mem_cons.mp h with rfl | hrest
    · exact (le_max_right last (key row)).trans (last_le_highest _ rest)
    · exact ih hrest

theorem highest_cases (last : κ) (rows : List α) :
    highest key last rows = last ∨ ∃ row ∈ rows, highest key last rows = key row := by
  induction rows generalizing last with
  | nil => exact .inl rfl
  | cons row rest ih =>
    rw [highest, foldl_cons]
    rcases ih (max last (key row)) with hlast | ⟨r, hr, hkey⟩
    · rcases max_choice last (key row) with hmax | hmax
      · exact .inl (hlast.trans hmax)
      · exact .inr ⟨row, mem_cons_self, hlast.trans hmax⟩
    · exact .inr ⟨r, mem_cons_of_mem _ hr, hkey⟩

section
variable (hsorted : rows.Pairwise fun a b => key a < key b)
include hsorted

theorem mem_page_of_le {row : α}
    (hrow : row ∈ rows) (hselect : select row = true)
    (hle : key row ≤ highest key last (page key select last limit rows)) :
    key row ≤ last ∨ row ∈ page key select last limit rows := by
  by_contra hno
  push Not at hno
  obtain ⟨hlast, hpage⟩ := hno
  have hmem : row ∈ rows.filter fun row => select row && decide (last < key row) := by
    simp [hrow, hselect, hlast]
  rw [← take_append_drop limit (rows.filter _)] at hmem
  have hrest := (mem_append.mp hmem).resolve_left hpage
  have hcross := hsorted.filter (fun row => select row && decide (last < key row))
  rw [← take_append_drop limit (rows.filter _), pairwise_append] at hcross
  rcases highest_cases last (page key select last limit rows) with heq | ⟨r, hr, heq⟩
  · exact absurd (heq ▸ hle) (not_le.mpr hlast)
  · exact absurd (heq ▸ hle) (not_le.mpr (hcross.2.2 r hr row hrest))

/-- In the order of their keys, the rows that were not read are those behind the new mark. -/
theorem filter_highest_take
    (hlast : ∀ row ∈ rows, last < key row) (n : Nat) :
    (rows.filter fun row => decide (highest key last (rows.take n) < key row)) = rows.drop n := by
  have hread : ((rows.take n).filter fun row => decide (highest key last (rows.take n) < key row)) = [] := by
    rw [filter_eq_nil_iff]
    intro row hrow
    simpa using key_le_highest hrow
  have hrest : ((rows.drop n).filter fun row => decide (highest key last (rows.take n) < key row)) =
      rows.drop n := by
    rw [filter_eq_self]
    intro row hrow
    rw [decide_eq_true_iff]
    have hcross := hsorted
    rw [← take_append_drop n rows, pairwise_append] at hcross
    have hmark : highest key last (rows.take n) = last ∨
      ∃ r ∈ rows.take n, highest key last (rows.take n) = key r := highest_cases last _
    rcases hmark with heq | ⟨r, hr, heq⟩
    · rw [heq]
      exact hlast row (mem_of_mem_drop hrow)
    · rw [heq]
      exact hcross.2.2 r hr row hrow
  calc (rows.filter fun row => decide (highest key last (rows.take n) < key row))
    _ = (rows.take n ++ rows.drop n).filter fun row => decide (highest key last (rows.take n) < key row) := by
      rw [take_append_drop]
    _ = rows.drop n := by rw [filter_append, hread, hrest, nil_append]

theorem filter_page :
    (rows.filter fun row => select row && decide (last < key row)) = page key select last limit rows ++
      rows.filter fun row => select row && decide (highest key last (page key select last limit rows) < key row) := by
  have hmark : last ≤ highest key last (page key select last limit rows) := last_le_highest last _
  have hnew : (rows.filter fun row => select row &&
        decide (highest key last (page key select last limit rows) < key row)) =
      (rows.filter fun row => select row && decide (last < key row)).filter
        fun row => decide (highest key last (page key select last limit rows) < key row) := by
    rw [filter_filter]
    apply filter_congr
    intro row _
    grind
  rw [hnew, page, filter_highest_take (hsorted.filter _) (by simp), take_append_drop]

end

def remaining (key mark : α → κ) (rows : List α) : Nat := rows.countP fun row => decide (mark row < key row)

theorem remaining_eq_zero {mark : α → κ} : remaining key mark rows = 0 ↔ ∀ row ∈ rows, key row ≤ mark row := by
  simp [remaining]

theorem remaining_le {mark mark' : α → κ} (h : ∀ row ∈ rows, mark row ≤ mark' row) :
    remaining key mark' rows ≤ remaining key mark rows := by
  apply countP_mono_left
  intro row hrow hbehind
  have hlt : mark' row < key row := by simpa using hbehind
  simpa using (h row hrow).trans_lt hlt

theorem remaining_lt {mark mark' : α → κ} (h : ∀ row ∈ rows, mark row ≤ mark' row) {row : α}
    (hrow : row ∈ rows) (hbefore : mark row < key row) (hafter : key row ≤ mark' row) :
    remaining key mark' rows < remaining key mark rows := by
  obtain ⟨before, after, rfl⟩ := append_of_mem hrow
  have hleft : remaining key mark' before ≤ remaining key mark before :=
    remaining_le fun r hr => h r (mem_append_left _ hr)
  have hright : remaining key mark' after ≤ remaining key mark after :=
    remaining_le fun r hr => h r (mem_append_right _ (mem_cons_of_mem _ hr))
  simp only [remaining, countP_append, countP_cons, hbefore, not_lt.mpr hafter] at hleft hright ⊢
  simp only [decide_false, decide_true, Bool.false_eq_true, if_false, if_true]
  omega

end Page

end PrivatePayments.Lib

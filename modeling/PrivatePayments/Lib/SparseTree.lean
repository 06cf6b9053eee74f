import Mathlib.Data.Set.Function
import Mathlib.Data.List.Perm.Basic
import Mathlib.Data.List.Basic
import Mathlib.Tactic.Set

/-! Compressed binary tries over arbitrary keys and digests.  An empty subtree
has the digest `zero`, a subtree with one entry is that entry's leaf, and only a
subtree with two entries or more is an inner node. -/
namespace PrivatePayments.Lib
open List

inductive SparseTree (κ ν : Type) where
  | empty
  | leaf (key : κ) (value : ν)
  | node (left right : SparseTree κ ν)
deriving DecidableEq

namespace SparseTree

variable {κ ν α : Type}

structure Hasher (κ ν α : Type) where
  leaf : κ → ν → α
  inner : α → α → α
  zero : α

inductive Input (κ ν α : Type) where
  | leaf (key : κ) (value : ν)
  | inner (left right : α)

def Hasher.digest (H : Hasher κ ν α) : Input κ ν α → α
  | .leaf key value => H.leaf key value
  | .inner left right => H.inner left right

/-- On the inputs in `S` the digests are injective, with disjoint ranges for
leaves and inner nodes, and never the digest of the empty tree. -/
structure Secure (H : Hasher κ ν α) (S : Set (Input κ ν α)) : Prop where
  inj : Set.InjOn H.digest S
  nonzero : ∀ input ∈ S, H.digest input ≠ H.zero

def hash (H : Hasher κ ν α) : SparseTree κ ν → α
  | empty => H.zero
  | leaf key value => H.leaf key value
  | node left right => H.inner (hash H left) (hash H right)

def inputs (H : Hasher κ ν α) : SparseTree κ ν → Set (Input κ ν α)
  | empty => ∅
  | leaf key value => {.leaf key value}
  | node left right => insert (.inner (hash H left) (hash H right)) (inputs H left ∪ inputs H right)

def entries : SparseTree κ ν → List (κ × ν)
  | empty => []
  | leaf key value => [(key, value)]
  | node left right => entries left ++ entries right

def keys (t : SparseTree κ ν) : List κ := t.entries.map Prod.fst

def branch (bit : Bool) (here there : SparseTree κ ν) : SparseTree κ ν :=
  if bit then node there here else node here there

def Subtree (u : SparseTree κ ν) : SparseTree κ ν → Prop
  | empty => u = empty
  | leaf key value => u = leaf key value
  | node left right => u = node left right ∨ Subtree u left ∨ Subtree u right

@[simp] theorem keys_empty : keys (empty : SparseTree κ ν) = [] := rfl
@[simp] theorem keys_leaf (key : κ) (value : ν) : keys (leaf key value) = [key] := rfl
@[simp] theorem keys_node (left right : SparseTree κ ν) : keys (node left right) = keys left ++ keys right := by
  simp [keys, entries]

variable {H : Hasher κ ν α}

variable {S : Set (Input κ ν α)}

theorem mem_inputs_node {left right : SparseTree κ ν} (h : inputs H (node left right) ⊆ S) :
    .inner (hash H left) (hash H right) ∈ S ∧ inputs H left ⊆ S ∧ inputs H right ⊆ S :=
  ⟨h (Set.mem_insert _ _), fun _ hx => h (Set.mem_insert_of_mem _ (.inl hx)),
    fun _ hx => h (Set.mem_insert_of_mem _ (.inr hx))⟩

theorem hash_inj (hS : Secure H S)
    {t u : SparseTree κ ν} (ht : inputs H t ⊆ S) (hu : inputs H u ⊆ S) (heq : hash H t = hash H u) : t = u := by
  induction t generalizing u with
  | empty =>
    cases u with
    | empty => rfl
    | leaf key value => exact absurd heq.symm (hS.nonzero (.leaf key value) (hu rfl))
    | node left right => exact absurd heq.symm (hS.nonzero _ (mem_inputs_node hu).1)
  | leaf key value =>
    have hmem : Input.leaf key value ∈ S := ht rfl
    cases u with
    | empty => exact absurd heq (hS.nonzero _ hmem)
    | leaf key' value' =>
      have h := hS.inj hmem (hu rfl : Input.leaf key' value' ∈ S) heq
      cases h
      rfl
    | node left right => cases hS.inj hmem (mem_inputs_node hu).1 heq
  | node left right ihl ihr =>
    obtain ⟨hmem, hleft, hright⟩ := mem_inputs_node ht
    cases u with
    | empty => exact absurd heq (hS.nonzero _ hmem)
    | leaf key value => cases hS.inj hmem (hu rfl : Input.leaf key value ∈ S) heq
    | node left' right' =>
      obtain ⟨hmem', hleft', hright'⟩ := mem_inputs_node hu
      have h := hS.inj hmem hmem' heq
      simp only [Input.inner.injEq] at h
      rw [ihl hleft hleft' h.1, ihr hright hright' h.2]

theorem Subtree.refl (t : SparseTree κ ν) : Subtree t t := by
  cases t with
  | empty => rfl
  | leaf key value => rfl
  | node left right => exact .inl rfl

theorem Subtree.trans {u v t : SparseTree κ ν} (huv : Subtree u v) (hvt : Subtree v t) : Subtree u t := by
  induction t with
  | empty => cases hvt; exact huv
  | leaf key value => cases hvt; exact huv
  | node left right ihl ihr =>
    rcases hvt with rfl | hvt | hvt
    · exact huv
    · exact .inr (.inl (ihl hvt))
    · exact .inr (.inr (ihr hvt))

theorem Subtree.children {left right t : SparseTree κ ν} (h : Subtree (node left right) t) :
    Subtree left t ∧ Subtree right t :=
  ⟨Subtree.trans (v := node left right) (.inr (.inl (.refl left))) h,
    Subtree.trans (v := node left right) (.inr (.inr (.refl right))) h⟩

theorem subtree_leaf_iff {t : SparseTree κ ν} {key : κ} {value : ν} :
    Subtree (leaf key value) t ↔ (key, value) ∈ t.entries := by
  induction t with
  | empty => simp [Subtree, entries]
  | leaf key' value' => simp [Subtree, entries]
  | node left right ihl ihr => simp [Subtree, entries, ihl, ihr]

variable {u t : SparseTree κ ν}

theorem Subtree.inputs_subset (h : Subtree u t) : inputs H u ⊆ inputs H t := by
  induction t with
  | empty => cases h; exact subset_rfl
  | leaf key value => cases h; exact subset_rfl
  | node left right ihl ihr =>
    rcases h with rfl | h | h
    · exact subset_rfl
    · exact fun x hx => Set.mem_insert_of_mem _ (.inl (ihl h hx))
    · exact fun x hx => Set.mem_insert_of_mem _ (.inr (ihr h hx))

theorem Subtree.keys_subset (h : Subtree u t) {key : κ} (hkey : key ∈ keys u) : key ∈ keys t := by
  induction t with
  | empty => cases h; exact hkey
  | leaf k value => cases h; exact hkey
  | node left right ihl ihr =>
    rw [keys_node, mem_append]
    rcases h with rfl | h | h
    · simpa using hkey
    · exact .inl (ihl h)
    · exact .inr (ihr h)

theorem Subtree.sizeOf_le (h : Subtree u t) : sizeOf u ≤ sizeOf t := by
  induction t with
  | empty => cases h; exact le_refl _
  | leaf key value => cases h; exact le_refl _
  | node left right ihl ihr =>
    rw [node.sizeOf_spec]
    rcases h with rfl | h | h
    · exact le_refl _
    · have := ihl h; omega
    · have := ihr h; omega

theorem branch_not_empty (b : Bool) (here there : SparseTree κ ν) : branch b here there ≠ empty := by
  cases b <;> simp [branch]

theorem exists_branch_node (b : Bool) (here there : SparseTree κ ν) : ∃ left right, branch b here there = node left right := by
  cases b <;> exact ⟨_, _, rfl⟩

variable {b : Bool}

theorem branch_not_subtree {here there u : SparseTree κ ν}
    (h : Subtree u here ∨ Subtree u there) : u ≠ branch b here there := by
  have hle : sizeOf u ≤ sizeOf here ∨ sizeOf u ≤ sizeOf there := h.imp Subtree.sizeOf_le Subtree.sizeOf_le
  rintro rfl
  cases b with
  | false =>
    rw [branch, if_neg (by simp), node.sizeOf_spec] at hle
    omega
  | true =>
    rw [branch, if_pos rfl, node.sizeOf_spec] at hle
    omega

/-! The trie discipline: at every level the next key bit decides the side. -/

variable (bit : κ → Nat → Bool)

def Canonical : Nat → SparseTree κ ν → Prop
  | _, empty => True
  | _, leaf _ _ => True
  | level, node left right =>
      (∀ key ∈ keys left, bit key level = false) ∧ (∀ key ∈ keys right, bit key level = true) ∧
        2 ≤ (entries left).length + (entries right).length ∧
        Canonical (level + 1) left ∧ Canonical (level + 1) right

def Differ (level fuel : Nat) (key key' : κ) : Prop :=
  ∃ i, level ≤ i ∧ i < level + fuel ∧ bit key i ≠ bit key' i

theorem Differ.next {bit : κ → Nat → Bool} {level fuel : Nat} {key key' : κ}
    (h : Differ bit level fuel key key') (heq : bit key level = bit key' level) :
    Differ bit (level + 1) (fuel - 1) key key' := by
  obtain ⟨i, hlo, hhi, hne⟩ := h
  have hi : i ≠ level := by
    rintro rfl
    exact hne heq
  exact ⟨i, by omega, by omega, hne⟩

/-- Two leaves below the common part of their paths. -/
def join : Nat → Nat → κ → ν → κ → ν → SparseTree κ ν
  | 0, _, _, _, _, _ => empty
  | fuel + 1, level, key, value, key', value' =>
      if bit key level = bit key' level then
        branch (bit key level) (join fuel (level + 1) key value key' value') empty
      else branch (bit key level) (leaf key value) (leaf key' value')

def insertAt (key : κ) (value : ν) : SparseTree κ ν → Nat → Nat → SparseTree κ ν
  | empty, _, _ => leaf key value
  | leaf key' value', fuel, level => join bit fuel level key value key' value'
  | node left right, fuel, level =>
      if bit key level then node left (insertAt key value right (fuel - 1) (level + 1))
      else node (insertAt key value left (fuel - 1) (level + 1)) right

def collapse : SparseTree κ ν → SparseTree κ ν → SparseTree κ ν
  | empty, empty => empty
  | empty, leaf key value => leaf key value
  | leaf key value, empty => leaf key value
  | left, right => node left right

def collapseAt (bit : Bool) (here there : SparseTree κ ν) : SparseTree κ ν :=
  if bit then collapse there here else collapse here there

def deleteAt [DecidableEq κ] (key : κ) : SparseTree κ ν → Nat → SparseTree κ ν
  | empty, _ => empty
  | leaf key' value', _ => if key' = key then empty else leaf key' value'
  | node left right, level =>
      if bit key level then collapse left (deleteAt key right (level + 1))
      else collapse (deleteAt key left (level + 1)) right

def endpoint (key : κ) : SparseTree κ ν → Nat → SparseTree κ ν
  | empty, _ => empty
  | leaf key' value', _ => leaf key' value'
  | node left right, level =>
      if bit key level then endpoint key right (level + 1) else endpoint key left (level + 1)

def graft (key : κ) (e : SparseTree κ ν) : SparseTree κ ν → Nat → SparseTree κ ν
  | empty, _ => e
  | leaf _ _, _ => e
  | node left right, level =>
      if bit key level then node left (graft key e right (level + 1))
      else node (graft key e left (level + 1)) right

def searchDepth (key : κ) : SparseTree κ ν → Nat → Nat
  | empty, _ => 0
  | leaf _ _, _ => 0
  | node left right, level =>
      (if bit key level then searchDepth key right (level + 1) else searchDepth key left (level + 1)) + 1

def siblings (H : Hasher κ ν α) (key : κ) : SparseTree κ ν → Nat → List α
  | empty, _ => []
  | leaf _ _, _ => []
  | node left right, level =>
      if bit key level then hash H left :: siblings H key right (level + 1)
      else hash H right :: siblings H key left (level + 1)

/-- The digest of a set of entries: `zero`, a leaf, or the digest of the two
halves that the next key bit makes. -/
def rootOf (H : Hasher κ ν α) : Nat → Nat → List (κ × ν) → α
  | _, _, [] => H.zero
  | _, _, [entry] => H.leaf entry.1 entry.2
  | 0, _, _ :: _ :: _ => H.zero
  | fuel + 1, level, entry :: next :: rest =>
      let all := entry :: next :: rest
      H.inner (rootOf H fuel (level + 1) (all.filter fun e => !bit e.1 level))
        (rootOf H fuel (level + 1) (all.filter fun e => bit e.1 level))

variable {fuel level : Nat} {t : SparseTree κ ν} {left right : SparseTree κ ν}

variable {here there : SparseTree κ ν} {k : κ}

section Insert
variable {bit} {key key' : κ} {value value' : ν}

@[simp] theorem keys_branch (b : Bool) (here there : SparseTree κ ν) :
    keys (branch b here there) = if b then keys there ++ keys here else keys here ++ keys there := by
  cases b <;> simp [branch]

variable {b : Bool}

theorem canonical_branch {level : Nat}
    (hhere : ∀ k ∈ keys here, bit k level = b) (hthere : ∀ k ∈ keys there, bit k level = !b)
    (hsize : 2 ≤ (entries here).length + (entries there).length)
    (hc : Canonical bit (level + 1) here) (hc' : Canonical bit (level + 1) there) :
    Canonical bit level (branch b here there) := by
  cases b with
  | false => exact ⟨hhere, hthere, hsize, hc, hc'⟩
  | true => exact ⟨hthere, hhere, by omega, hc', hc⟩


section
variable (h : Differ bit level fuel key key')
include h

theorem entries_join :
    (join bit fuel level key value key' value').entries.Perm [(key, value), (key', value')] := by
  induction fuel generalizing level with
  | zero =>
    obtain ⟨i, hlo, hhi, _⟩ := h
    omega
  | succ fuel ih =>
    rw [join]
    by_cases heq : bit key level = bit key' level
    · rw [if_pos heq]
      have hrest : Differ bit (level + 1) fuel key key' := h.next heq
      have hrest := ih hrest
      cases hb : bit key level with
      | false => simpa [branch, entries] using hrest
      | true => simpa [branch, entries] using hrest
    · rw [if_neg heq]
      cases hb : bit key level with
      | false => exact List.Perm.refl _
      | true => exact List.Perm.swap _ _ _

theorem mem_keys_join (k : κ) :
    k ∈ keys (join bit fuel level key value key' value') ↔ k = key ∨ k = key' := by
  rw [keys, ((entries_join h).map Prod.fst).mem_iff]
  simp

theorem canonical_join :
    Canonical bit level (join bit fuel level key value key' value') := by
  induction fuel generalizing level with
  | zero => trivial
  | succ fuel ih =>
    rw [join]
    by_cases heq : bit key level = bit key' level
    · rw [if_pos heq]
      have hrest : Differ bit (level + 1) fuel key key' := h.next heq
      refine canonical_branch ?_ (by simp) ?_ (ih hrest) trivial
      · intro k hk
        rcases (mem_keys_join hrest k).mp hk with rfl | rfl
        · rfl
        · exact heq.symm
      · rw [(entries_join hrest).length_eq]
        simp [entries]
    · rw [if_neg heq]
      refine canonical_branch (by simp) ?_ (by simp [entries]) trivial trivial
      simp only [keys_leaf, mem_singleton, forall_eq]
      cases hb : bit key level <;> cases hb' : bit key' level <;> simp_all

end

theorem mem_keys_branch :
    k ∈ keys (branch b here there) ↔ k ∈ keys here ∨ k ∈ keys there := by
  cases b with
  | false => simp
  | true => simp [or_comm]

theorem nodup_keys_branch (h : (keys (branch b here there)).Nodup) :
    (keys here).Nodup ∧ ∀ k ∈ keys here, k ∉ keys there := by
  cases b with
  | false =>
    have happ := nodup_append.mp (keys_node here there ▸ h)
    exact ⟨happ.1, fun k hk hk' => happ.2.2 k hk k hk' rfl⟩
  | true =>
    have happ := nodup_append.mp (keys_node there here ▸ h)
    exact ⟨happ.2.1, fun k hk hk' => happ.2.2 k hk' k hk rfl⟩

variable {u here there : SparseTree κ ν}

theorem subtree_branch (h : Subtree u (branch b here there)) :
    u = branch b here there ∨ Subtree u here ∨ Subtree u there := by
  cases b with
  | false => exact h
  | true => exact h.imp_right Or.symm

theorem subtree_branch_here (h : Subtree u here) : Subtree u (branch b here there) := by
  cases b with
  | false => exact .inr (.inl h)
  | true => exact .inr (.inr h)

theorem subtree_branch_there (h : Subtree u there) : Subtree u (branch b here there) := by
  cases b with
  | false => exact .inr (.inr h)
  | true => exact .inr (.inl h)

theorem subtree_join {u : SparseTree κ ν} (hne : u ≠ empty)
    (hdiff : Differ bit level fuel key key') (h : Subtree u (join bit fuel level key value key' value')) :
    key ∈ keys u ∨ u = leaf key' value' := by
  induction fuel generalizing level with
  | zero => exact absurd h hne
  | succ fuel ih =>
    rw [join] at h
    by_cases heq : bit key level = bit key' level
    · rw [if_pos heq] at h
      have hrest : Differ bit (level + 1) fuel key key' := hdiff.next heq
      rcases subtree_branch h with rfl | h | h
      · left
        have hmem : key ∈ keys (join bit fuel (level + 1) key value key' value') :=
          (mem_keys_join hrest key).mpr (.inl rfl)
        cases hb : bit key level <;> simpa using hmem
      · exact ih hrest h
      · exact absurd h hne
    · rw [if_neg heq] at h
      rcases subtree_branch h with rfl | h | h
      · left
        cases hb : bit key level <;> simp
      · left
        rw [show u = leaf key value from h]
        simp
      · exact .inr h

section Node
variable {level fuel : Nat}

theorem differ_right (hc : Canonical bit level (node left right)) (hb : bit key level = true)
    (h : ∀ k ∈ keys (node left right), Differ bit level fuel key k) :
    ∀ k ∈ keys right, Differ bit (level + 1) (fuel - 1) key k := fun k hk =>
  (h k (by simp [hk])).next (hb.trans (hc.2.1 k hk).symm)

theorem differ_left (hc : Canonical bit level (node left right)) (hb : bit key level = false)
    (h : ∀ k ∈ keys (node left right), Differ bit level fuel key k) :
    ∀ k ∈ keys left, Differ bit (level + 1) (fuel - 1) key k := fun k hk =>
  (h k (by simp [hk])).next (hb.trans (hc.1 k hk).symm)

end Node


section
variable (hc : Canonical bit level t) (h : ∀ k ∈ keys t, Differ bit level fuel key k)
include hc h

theorem entries_insertAt
    : (insertAt bit key value t fuel level).entries.Perm ((key, value) :: t.entries) := by
  induction t generalizing fuel level with
  | empty => exact List.Perm.refl _
  | leaf key' value' => exact entries_join (h key' (by simp))
  | node left right ihl ihr =>
    rw [insertAt]
    cases hb : bit key level with
    | false =>
      have hleft := ihl hc.2.2.2.1 (differ_left hc hb h)
      simpa [entries] using hleft.append_right right.entries
    | true =>
      have hright := ihr hc.2.2.2.2 (differ_right hc hb h)
      simpa [entries] using (hright.append_left left.entries).trans perm_middle

theorem mem_keys_insertAt (k : κ) : k ∈ keys (insertAt bit key value t fuel level) ↔ k = key ∨ k ∈ keys t := by
  rw [keys, ((entries_insertAt hc h).map Prod.fst).mem_iff]
  simp [keys]

theorem canonical_insertAt : Canonical bit level (insertAt bit key value t fuel level) := by
  induction t generalizing fuel level with
  | empty => trivial
  | leaf key' value' => exact canonical_join (h key' (by simp))
  | node left right ihl ihr =>
    obtain ⟨hl, hr, hsize, hcl, hcr⟩ := id hc
    rw [insertAt]
    cases hb : bit key level with
    | false =>
      have hd := differ_left hc hb h
      refine ⟨fun k hk => ?_, hr, ?_, ihl hcl hd, hcr⟩
      · rcases (mem_keys_insertAt hcl hd k).mp hk with rfl | hk
        · exact hb
        · exact hl k hk
      · rw [(entries_insertAt hcl hd).length_eq, length_cons]
        omega
    | true =>
      have hd := differ_right hc hb h
      refine ⟨hl, fun k hk => ?_, ?_, hcl, ihr hcr hd⟩
      · rcases (mem_keys_insertAt hcr hd k).mp hk with rfl | hk
        · exact hb
        · exact hr k hk
      · rw [(entries_insertAt hcr hd).length_eq, length_cons]
        omega

end

theorem subtree_insertAt {t u : SparseTree κ ν} (hne : u ≠ empty)
    (hc : Canonical bit level t) (h : ∀ k ∈ keys t, Differ bit level fuel key k)
    (hsub : Subtree u (insertAt bit key value t fuel level)) : key ∈ keys u ∨ Subtree u t := by
  induction t generalizing fuel level with
  | empty =>
    left
    rw [show u = leaf key value from hsub]
    simp
  | leaf key' value' => exact subtree_join hne (h key' (by simp)) hsub
  | node left right ihl ihr =>
    rw [insertAt] at hsub
    cases hb : bit key level with
    | false =>
      have hd := differ_left hc hb h
      rw [hb] at hsub
      rcases hsub with rfl | hsub | hsub
      · left
        simp [(mem_keys_insertAt hc.2.2.2.1 hd key).mpr (.inl rfl)]
      · exact (ihl hc.2.2.2.1 hd hsub).imp_right fun h => .inr (.inl h)
      · exact .inr (.inr (.inr hsub))
    | true =>
      have hd := differ_right hc hb h
      rw [hb] at hsub
      rcases hsub with rfl | hsub | hsub
      · left
        simp [(mem_keys_insertAt hc.2.2.2.2 hd key).mpr (.inl rfl)]
      · exact .inr (.inr (.inl hsub))
      · exact (ihr hc.2.2.2.2 hd hsub).imp_right fun h => .inr (.inr h)

end Insert

variable {level : Nat} {key : κ}

section Delete
variable {bit}

@[simp] theorem entries_collapse (left right : SparseTree κ ν) :
    (collapse left right).entries = left.entries ++ right.entries := by
  cases left <;> cases right <;> rfl

theorem collapseAt_eq_branch (b : Bool)
    (h : (∃ l r, here = node l r) ∨ (here = empty → ∃ l r, there = node l r) ∧ there ≠ empty) :
    collapseAt b here there = branch b here there := by
  cases b <;> cases here <;> cases there <;> simp_all [collapseAt, collapse, branch]

theorem collapseAt_empty (b : Bool) {here : SparseTree κ ν} (h : ∀ l r, here ≠ node l r) :
    collapseAt b here empty = here := by
  cases here with
  | empty => cases b <;> rfl
  | leaf k v => cases b <;> rfl
  | node l r => exact absurd rfl (h l r)

theorem subtree_collapse {left right u : SparseTree κ ν} (hne : u ≠ empty)
    (h : Subtree u left ∨ Subtree u right) : Subtree u (collapse left right) := by
  cases left <;> cases right <;> simp_all [collapse, Subtree]


theorem canonical_collapse
    (hl : ∀ k ∈ keys left, bit k level = false) (hr : ∀ k ∈ keys right, bit k level = true)
    (hcl : Canonical bit (level + 1) left) (hcr : Canonical bit (level + 1) right) :
    Canonical bit level (collapse left right) := by
  cases left <;> cases right
  case empty.empty => trivial
  case empty.leaf => trivial
  case leaf.empty => trivial
  -- Every other pair of children holds at least two entries.
  all_goals
    refine ⟨hl, hr, ?_, hcl, hcr⟩
    simp only [entries, length_nil, length_singleton, length_append, Canonical] at hcl hcr ⊢
    omega

variable [DecidableEq κ]

theorem filter_entries_of_bit (h : ∀ k ∈ keys t, bit k level = b) (hb : bit key level ≠ b) :
    t.entries.filter (fun e => e.1 ≠ key) = t.entries := by
  rw [filter_eq_self]
  intro e he
  have hbit := h e.1 (mem_map_of_mem he)
  simp only [decide_eq_true_eq]
  rintro rfl
  exact hb hbit

theorem entries_deleteAt (hc : Canonical bit level t) :
    (deleteAt bit key t level).entries = t.entries.filter fun e => e.1 ≠ key := by
  induction t generalizing level with
  | empty => rfl
  | leaf key' value' =>
    rw [deleteAt]
    by_cases heq : key' = key <;> simp [entries, heq]
  | node left right ihl ihr =>
    rw [deleteAt, entries, filter_append]
    cases hb : bit key level with
    | false =>
      rw [if_neg (by simp), entries_collapse, ihl hc.2.2.2.1, filter_entries_of_bit hc.2.1 (by simp [hb])]
    | true =>
      rw [if_pos rfl, entries_collapse, ihr hc.2.2.2.2, filter_entries_of_bit hc.1 (by simp [hb])]

theorem mem_keys_deleteAt (hc : Canonical bit level t)
    (hk : k ∈ keys (deleteAt bit key t level)) : k ∈ keys t ∧ k ≠ key := by
  rw [keys, entries_deleteAt hc] at hk
  obtain ⟨e, he, rfl⟩ := mem_map.mp hk
  rw [mem_filter] at he
  exact ⟨mem_map_of_mem he.1, by simpa using he.2⟩

theorem deleteAt_ne_empty
    (hc : Canonical bit level (node left right)) (hnodup : (node left right).keys.Nodup) :
    deleteAt bit key (node left right) level ≠ empty := by
  intro hempty
  have hnone : (deleteAt bit key (node left right) level).entries = _ := entries_deleteAt hc
  rw [hempty, entries] at hnone
  have hsize : 2 ≤ (node left right).entries.length := by
    simpa [entries] using hc.2.2.1
  match hes : (node left right).entries, hsize with
  | e :: e' :: rest, _ =>
    rw [keys, hes] at hnodup
    have hne : e.1 ≠ e'.1 := rel_of_pairwise_cons hnodup mem_cons_self
    rw [hes] at hnone
    have hall := filter_eq_nil_iff.mp hnone.symm
    have he := hall e (by simp)
    have he' := hall e' (by simp)
    simp only [decide_eq_true_eq, not_not] at he he'
    exact hne (he.trans he'.symm)

theorem canonical_deleteAt (hc : Canonical bit level t) : Canonical bit level (deleteAt bit key t level) := by
  induction t generalizing level with
  | empty => trivial
  | leaf key' value' =>
    rw [deleteAt]
    split <;> trivial
  | node left right ihl ihr =>
    obtain ⟨hl, hr, -, hcl, hcr⟩ := hc
    rw [deleteAt]
    split
    · exact canonical_collapse hl (fun k hk => hr k (mem_keys_deleteAt hcr hk).1) hcl (ihr hcr)
    · exact canonical_collapse (fun k hk => hl k (mem_keys_deleteAt hcl hk).1) hr (ihl hcl) hcr

end Delete

variable {v : ν}

section Search

theorem endpoint_cases (key : κ) (t : SparseTree κ ν) (level : Nat) :
    endpoint bit key t level = empty ∨ ∃ k v, endpoint bit key t level = leaf k v := by
  induction t generalizing level with
  | empty => exact .inl rfl
  | leaf k v => exact .inr ⟨k, v, rfl⟩
  | node left right ihl ihr =>
    rw [endpoint]
    split
    · exact ihr (level + 1)
    · exact ihl (level + 1)

variable {bit}

theorem mem_entries_of_endpoint
    (h : endpoint bit key t level = leaf k v) : (k, v) ∈ t.entries := by
  induction t generalizing level with
  | empty => cases h
  | leaf k' v' =>
    cases h
    exact mem_singleton.mpr rfl
  | node left right ihl ihr =>
    rw [endpoint] at h
    rw [entries, mem_append]
    split at h
    · exact .inr (ihr h)
    · exact .inl (ihl h)

theorem endpoint_ne (habsent : key ∉ keys t)
    (h : endpoint bit key t level = leaf k v) : k ≠ key := by
  rintro rfl
  exact habsent (mem_map_of_mem (mem_entries_of_endpoint h))

theorem subtree_endpoint {t e : SparseTree κ ν} (h : endpoint bit key t level = e) : Subtree e t := by
  subst h
  induction t generalizing level with
  | empty => rfl
  | leaf k v => rfl
  | node left right ihl ihr =>
    rw [endpoint]
    split
    · exact .inr (.inr ihr)
    · exact .inr (.inl ihl)

theorem endpoint_of_mem (hc : Canonical bit level t)
    (h : (key, v) ∈ t.entries) : endpoint bit key t level = leaf key v := by
  induction t generalizing level with
  | empty => cases h
  | leaf k' v' =>
    cases mem_singleton.mp h
    rfl
  | node left right ihl ihr =>
    obtain ⟨hl, hr, -, hcl, hcr⟩ := hc
    rw [endpoint]
    rcases mem_append.mp h with h | h
    · rw [if_neg (by simp [hl key (mem_map_of_mem h)])]
      exact ihl hcl h
    · rw [if_pos (hr key (mem_map_of_mem h))]
      exact ihr hcr h

end Search

/-! Everything that follows the path of one key sees a node as a branch with
the side of that key first. -/

section Path

theorem path_induction (key : κ) {motive : SparseTree κ ν → Nat → Prop} (hempty : ∀ level, motive empty level)
    (hleaf : ∀ k v level, motive (leaf k v) level)
    (hbranch : ∀ here there level, motive here (level + 1) →
      motive (branch (bit key level) here there) level) (t : SparseTree κ ν) (level : Nat) : motive t level := by
  induction t generalizing level with
  | empty => exact hempty level
  | leaf k v => exact hleaf k v level
  | node left right ihl ihr =>
    cases hb : bit key level with
    | false => simpa [branch, hb] using hbranch left right level (ihl (level + 1))
    | true => simpa [branch, hb] using hbranch right left level (ihr (level + 1))

variable {bit} {here there : SparseTree κ ν}

theorem siblings_branch (H : Hasher κ ν α) :
    siblings bit H key (branch (bit key level) here there) level =
      hash H there :: siblings bit H key here (level + 1) := by
  cases hb : bit key level <;> simp [branch, siblings, hb]

theorem siblings_length (H : Hasher κ ν α) (key : κ) (t : SparseTree κ ν) (level : Nat) :
    (siblings bit H key t level).length = searchDepth bit key t level := by
  induction t generalizing level with
  | empty => rfl
  | leaf k v => rfl
  | node left right ihl ihr => cases hb : bit key level <;> simp [siblings, searchDepth, hb, ihl, ihr]

theorem endpoint_branch :
    endpoint bit key (branch (bit key level) here there) level = endpoint bit key here (level + 1) := by
  cases hb : bit key level <;> simp [branch, endpoint, hb]

theorem searchDepth_branch :
    searchDepth bit key (branch (bit key level) here there) level = searchDepth bit key here (level + 1) + 1 := by
  cases hb : bit key level <;> simp [branch, searchDepth, hb]

theorem graft_branch (e : SparseTree κ ν) :
    graft bit key e (branch (bit key level) here there) level =
      branch (bit key level) (graft bit key e here (level + 1)) there := by
  cases hb : bit key level <;> simp [branch, graft, hb]

theorem insertAt_branch (value : ν) (fuel : Nat) :
    insertAt bit key value (branch (bit key level) here there) fuel level =
      branch (bit key level) (insertAt bit key value here (fuel - 1) (level + 1)) there := by
  cases hb : bit key level <;> simp [branch, insertAt, hb]

theorem insertAt_eq_graft (value : ν) (t : SparseTree κ ν) (fuel level : Nat) :
    insertAt bit key value t fuel level =
      graft bit key (insertAt bit key value (endpoint bit key t level)
        (fuel - searchDepth bit key t level) (level + searchDepth bit key t level)) t level := by
  induction t, level using path_induction bit key generalizing fuel with
  | hempty level => rfl
  | hleaf k v level => rfl
  | hbranch here there level ih =>
    rw [insertAt_branch, graft_branch, endpoint_branch, searchDepth_branch, ih, Nat.sub_sub,
      Nat.add_comm 1, Nat.add_assoc, Nat.add_comm 1]

theorem deleteAt_branch [DecidableEq κ] :
    deleteAt bit key (branch (bit key level) here there) level =
      collapseAt (bit key level) (deleteAt bit key here (level + 1)) there := by
  cases hb : bit key level <;> simp [branch, collapseAt, deleteAt, hb]

theorem Canonical.of_branch (h : Canonical bit level (branch b here there)) :
    (∀ k ∈ keys here, bit k level = b) ∧ (∀ k ∈ keys there, bit k level = !b) ∧
      2 ≤ (entries here).length + (entries there).length ∧
      Canonical bit (level + 1) here ∧ Canonical bit (level + 1) there := by
  cases b with
  | false => exact h
  | true => exact ⟨h.2.1, h.1, by have := h.2.2.1; omega, h.2.2.2.2, h.2.2.2.1⟩

theorem Canonical.notMem_there (hc : Canonical bit level (branch (bit key level) here there)) : key ∉ keys there := by
  intro hk
  have h := hc.of_branch.2.1 key hk
  cases hb : bit key level <;> simp [hb] at h

section Replace
variable [DecidableEq κ]

def setValue (key : κ) (value : ν) (entries : List (κ × ν)) : List (κ × ν) :=
  entries.map fun e => if e.1 = key then (key, value) else e

theorem setValue_keys (key : κ) (value : ν) (entries : List (κ × ν)) :
    (setValue key value entries).map Prod.fst = entries.map Prod.fst := by
  rw [setValue, map_map]
  apply map_congr_left
  intro e _
  by_cases h : e.1 = key <;> simp [h]

theorem setValue_of_absent {value : ν} {entries : List (κ × ν)} (h : key ∉ entries.map Prod.fst) :
    setValue key value entries = entries := by
  conv_rhs => rw [← map_id entries]
  apply map_congr_left
  intro e he
  rw [if_neg]
  · rfl
  · rintro rfl
    exact h (mem_map_of_mem he)


section
variable (value : ν) (hc : Canonical bit level t) (hmem : key ∈ keys t)
include value hc hmem

theorem entries_graft : (graft bit key (leaf key value) t level).entries = setValue key value t.entries := by
  induction t, level using path_induction bit key with
  | hempty level => cases hmem
  | hleaf k v level =>
    obtain rfl : key = k := by simpa [keys, entries] using hmem
    simp [graft, entries, setValue]
  | hbranch here there level ih =>
    have hthere : key ∉ keys there := hc.notMem_there
    have hhere := ih hc.of_branch.2.2.2.1 ((mem_keys_branch.mp hmem).resolve_right hthere)
    rw [graft_branch]
    cases hb : bit key level <;>
      simp only [branch, entries, hhere, setValue, map_append, if_true, Bool.false_eq_true, if_false] <;>
      rw [show there.entries.map _ = there.entries from setValue_of_absent hthere]

theorem keys_graft : keys (graft bit key (leaf key value) t level) = keys t := by
  rw [keys, entries_graft value hc hmem, setValue_keys, keys]

theorem canonical_graft : Canonical bit level (graft bit key (leaf key value) t level) := by
  induction t, level using path_induction bit key with
  | hempty level => cases hmem
  | hleaf k v level => trivial
  | hbranch here there level ih =>
    obtain ⟨hhere, hthere, hsize, hcHere, hcThere⟩ := hc.of_branch
    have hmemHere := (mem_keys_branch.mp hmem).resolve_right hc.notMem_there
    rw [graft_branch]
    apply canonical_branch
    · rwa [keys_graft value hcHere hmemHere]
    · exact hthere
    · rwa [entries_graft value hcHere hmemHere, setValue, length_map]
    · exact ih hcHere hmemHere
    · exact hcThere

end

end Replace

variable {fuel : Nat}

theorem Differ.ne {key' : κ} (h : Differ bit level fuel key key') : key ≠ key' := by
  rintro rfl
  obtain ⟨_, _, _, hne⟩ := h
  exact hne rfl

theorem Differ.fuel_pos {key' : κ} (h : Differ bit level fuel key key') : 0 < fuel := by
  obtain ⟨i, hlo, hhi, _⟩ := h
  omega

theorem Subtree.canonical {u t : SparseTree κ ν} (h : Subtree u t) (hc : Canonical bit level t) :
    ∃ level', Canonical bit level' u := by
  induction t generalizing level with
  | empty => cases h; exact ⟨level, hc⟩
  | leaf k v => cases h; exact ⟨level, hc⟩
  | node left right ihl ihr =>
    rcases h with rfl | h | h
    · exact ⟨level, hc⟩
    · exact ihl h hc.2.2.2.1
    · exact ihr h hc.2.2.2.2


theorem Canonical.exists_key (hc : Canonical bit level t) (hne : t ≠ empty) : ∃ k, k ∈ keys t := by
  cases t with
  | empty => exact absurd rfl hne
  | leaf k v => exact ⟨k, by simp⟩
  | node left right =>
    apply exists_mem_of_length_pos
    have hsize := hc.2.2.1
    simp only [keys, entries, length_map, length_append]
    omega

section
variable (hc : Canonical bit level (branch (bit key level) here there))
  (hkey : ∀ k ∈ keys (branch (bit key level) here there), Differ bit level fuel key k)
include hc hkey

theorem differ_here
    : ∀ k ∈ keys here, Differ bit (level + 1) (fuel - 1) key k := fun k hk =>
  (hkey k (mem_keys_branch.mpr (.inl hk))).next (hc.of_branch.1 k hk).symm

theorem fuel_pos_of_branch : 0 < fuel := by
  obtain ⟨k, hk⟩ := hc.exists_key (branch_not_empty _ _ _)
  exact (hkey k hk).fuel_pos

end

theorem siblings_length_le (H : Hasher κ ν α)
    (hc : Canonical bit level t) (hkey : ∀ k ∈ keys t, Differ bit level fuel key k) :
    (siblings bit H key t level).length ≤ fuel := by
  induction t, level using path_induction bit key generalizing fuel with
  | hempty level => exact Nat.zero_le _
  | hleaf k v level => exact Nat.zero_le _
  | hbranch here there level ih =>
    have hpos := fuel_pos_of_branch hc hkey
    have hrest := ih hc.of_branch.2.2.2.1 (differ_here hc hkey)
    rw [siblings_branch, length_cons]
    omega

theorem subtree_deleteAt [DecidableEq κ] {t u : SparseTree κ ν} (hc : Canonical bit level t)
    (hmem : key ∈ keys t) (hne : u ≠ empty) (h : Subtree u t) (hkey : key ∉ keys u) :
    Subtree u (deleteAt bit key t level) := by
  induction t, level using path_induction bit key with
  | hempty level => exact absurd h hne
  | hleaf k v level =>
    rw [show u = leaf k v from h] at hkey
    exact absurd hmem hkey
  | hbranch here there level ih =>
    have hhere : key ∈ keys here := (mem_keys_branch.mp hmem).resolve_right hc.notMem_there
    have hcHere := hc.of_branch.2.2.2.1
    rw [deleteAt_branch]
    have hparts : Subtree u (deleteAt bit key here (level + 1)) ∨ Subtree u there := by
      rcases subtree_branch h with rfl | h | h
      · exact absurd hmem hkey
      · exact .inl (ih hcHere hhere h)
      · exact .inr h
    unfold collapseAt
    split
    · exact subtree_collapse hne hparts.symm
    · exact subtree_collapse hne hparts

theorem differ_endpoint (H : Hasher κ ν α)
    (hc : Canonical bit level t) (hkey : ∀ k ∈ keys t, Differ bit level fuel key k)
    (hend : endpoint bit key t level = leaf k v) :
    Differ bit (level + (siblings bit H key t level).length) (fuel - (siblings bit H key t level).length) key k := by
  induction t, level using path_induction bit key generalizing fuel with
  | hempty level => cases hend
  | hleaf k' v' level =>
    cases hend
    exact hkey k (by simp)
  | hbranch here there level ih =>
    rw [endpoint_branch] at hend
    have hrest := ih hc.of_branch.2.2.2.1 (differ_here hc hkey) hend
    rw [siblings_branch, length_cons]
    rwa [Nat.sub_sub, Nat.add_assoc, Nat.add_comm 1] at hrest

theorem Canonical.apart (hc : Canonical bit level (branch b here there))
    {u : SparseTree κ ν} (hne : u ≠ empty) (hthere : Subtree u there) : ¬Subtree u here := by
  intro hhere
  obtain ⟨hbit, hbit', -, hcHere, -⟩ := hc.of_branch
  obtain ⟨level', hcu⟩ := hhere.canonical hcHere
  obtain ⟨k, hk⟩ := hcu.exists_key hne
  have h := (hbit k (hhere.keys_subset hk)).symm.trans (hbit' k (hthere.keys_subset hk))
  cases b <;> cases h

theorem siblings_getLast?_ne_zero {H : Hasher κ ν α} (hS : Secure H S)
    (hc : Canonical bit level t) (ht : inputs H t ⊆ S) {last : α}
    (hlast : (siblings bit H key t level).getLast? = some last) : last ≠ H.zero := by
  induction t, level using path_induction bit key with
  | hempty level => cases hlast
  | hleaf k v level => cases hlast
  | hbranch here there level ih =>
    obtain ⟨-, -, hsize, hcHere, -⟩ := hc.of_branch
    have hhere : inputs H here ⊆ S := (subtree_branch_here (.refl here)).inputs_subset.trans ht
    have hthere : inputs H there ⊆ S := (subtree_branch_there (.refl there)).inputs_subset.trans ht
    rw [siblings_branch] at hlast
    by_cases hnil : siblings bit H key here (level + 1) = []
    · -- Beside an end of the path there is an entry.
      rw [hnil] at hlast
      cases hlast
      intro hzero
      have hempty : there = empty := hash_inj hS hthere (fun _ hx => absurd hx (Set.notMem_empty _)) hzero
      have hone : (entries here).length ≤ 1 := by
        cases here with
        | empty => exact Nat.zero_le _
        | leaf k v => exact le_refl _
        | node left right =>
          rw [siblings] at hnil
          split at hnil <;> cases hnil
      rw [hempty] at hsize
      simp only [entries, length_nil] at hsize
      omega
    · rw [getLast?_cons_of_ne_nil hnil] at hlast
      exact ih hcHere hhere hlast

/-! Where the path of a key ends can be read off the entries that agree with
the key in its first bits. -/

variable (bit) in
def agree : Nat → Nat → κ → κ → Bool
  | 0, _, _, _ => true
  | count + 1, level, key, k => bit key level == bit k level && agree count (level + 1) key k

def near (bit : κ → Nat → Bool) (count level : Nat) (key : κ) (es : List (κ × ν)) : List (κ × ν) :=
  es.filter fun e => agree bit count level key e.1

theorem near_zero (es : List (κ × ν)) : near bit 0 level key es = es :=
  filter_eq_self.mpr fun _ _ => rfl

theorem near_branch (count : Nat) (hc : Canonical bit level (branch (bit key level) here there)) :
    near bit (count + 1) level key (branch (bit key level) here there).entries =
      near bit count (level + 1) key here.entries := by
  obtain ⟨hbit, hbit', -, -, -⟩ := hc.of_branch
  have hhere : near bit (count + 1) level key here.entries =
      near bit count (level + 1) key here.entries := by
    apply filter_congr
    intro e he
    simp [agree, hbit e.1 (mem_map_of_mem he)]
  have hthere : near bit (count + 1) level key there.entries = [] := by
    apply filter_eq_nil_iff.mpr
    intro e he
    simp [agree, hbit' e.1 (mem_map_of_mem he)]
  cases hb : bit key level with
  | false =>
    rw [branch, if_neg (by simp), entries, near, filter_append]
    exact (congrArg₂ _ hhere hthere).trans (append_nil _)
  | true =>
    rw [branch, if_pos rfl, entries, near, filter_append]
    exact congrArg₂ _ hthere hhere

theorem two_le_entries_branch (hc : Canonical bit level (branch b here there)) :
    2 ≤ (branch b here there).entries.length := by
  have hsize := hc.of_branch.2.2.1
  cases b <;> simp [branch, entries] <;> omega

theorem siblings_length_le_iff (H : Hasher κ ν α) (count : Nat) (hc : Canonical bit level t) :
    (siblings bit H key t level).length ≤ count ↔ (near bit count level key t.entries).length ≤ 1 := by
  induction t, level using path_induction bit key generalizing count with
  | hempty level => simp [siblings, entries, near]
  | hleaf k v level =>
    refine iff_of_true (Nat.zero_le _) ?_
    exact (length_filter_le _ _).trans (le_refl _)
  | hbranch here there level ih =>
    rw [siblings_branch, length_cons]
    cases count with
    | zero =>
      have hsize := two_le_entries_branch hc
      rw [near_zero]
      exact iff_of_false (by omega) (by omega)
    | succ count =>
      rw [near_branch count hc, ← ih count hc.of_branch.2.2.2.1]
      omega

theorem endpoint_eq_leaf_iff (hc : Canonical bit level t) :
    endpoint bit key t level = leaf k v ↔ ∃ count, near bit count level key t.entries = [(k, v)] := by
  induction t, level using path_induction bit key with
  | hempty level => simp [endpoint, entries, near]
  | hleaf k' v' level =>
    rw [endpoint]
    constructor
    · intro h
      cases h
      exact ⟨0, near_zero _⟩
    · rintro ⟨count, h⟩
      have hmem : (k, v) ∈ near bit count level key [(k', v')] := by
        rw [show [(k', v')] = (leaf k' v').entries from rfl, h]
        exact mem_singleton.mpr rfl
      cases mem_singleton.mp (mem_of_mem_filter hmem)
      rfl
  | hbranch here there level ih =>
    rw [endpoint_branch, ih hc.of_branch.2.2.2.1]
    constructor
    · rintro ⟨count, h⟩
      exact ⟨count + 1, (near_branch count hc).trans h⟩
    · rintro ⟨count, h⟩
      cases count with
      | zero =>
        have hsize := two_le_entries_branch hc
        rw [near_zero] at h
        simp [h] at hsize
      | succ count => exact ⟨count, (near_branch count hc).symm.trans h⟩

/-- The path of a key ends at an entry that differs from it right there, or at nothing, when
every entry that is alone in agreeing with the key for some number of bits differs at the next. -/
theorem endpoint_parts_iff (H : Hasher κ ν α) (hc : Canonical bit level t) :
    (∀ count, (near bit count level key t.entries).length = 1 →
        near bit (count + 1) level key t.entries = []) ↔
      ∀ k v, endpoint bit key t level = leaf k v →
        bit key (level + (siblings bit H key t level).length) ≠
          bit k (level + (siblings bit H key t level).length) := by
  induction t, level using path_induction bit key with
  | hempty level => simp [endpoint, entries, near]
  | hleaf k v level =>
    constructor
    · intro h k' v' hend
      cases hend
      simpa [entries, near, agree, siblings] using h 0 (by rw [near_zero]; rfl)
    · intro h count _
      have hne : bit key level ≠ bit k level := h k v rfl
      simp [entries, near, agree, hne]
  | hbranch here there level ih =>
    rw [endpoint_branch, siblings_branch, length_cons, ← Nat.add_assoc, Nat.add_right_comm,
      ← ih hc.of_branch.2.2.2.1]
    constructor
    · intro h count hone
      rw [← near_branch count hc] at hone
      rw [← near_branch (count + 1) hc]
      exact h (count + 1) hone
    · intro h count hone
      cases count with
      | zero =>
        have hsize := two_le_entries_branch hc
        rw [near_zero] at hone
        omega
      | succ count =>
        rw [near_branch count hc] at hone
        rw [near_branch (count + 1) hc]
        exact h count hone

end Path

section Root
variable {bit}

theorem rootOf_node (H : Hasher κ ν α) {es : List (κ × ν)} (h : 2 ≤ es.length) :
    rootOf bit H (fuel + 1) level es =
      H.inner (rootOf bit H fuel (level + 1) (es.filter fun e => !bit e.1 level))
        (rootOf bit H fuel (level + 1) (es.filter fun e => bit e.1 level)) := by
  match es, h with
  | entry :: next :: rest, _ => rw [rootOf]


theorem filter_left (hc : Canonical bit level (node left right)) :
    (node left right).entries.filter (fun e => !bit e.1 level) = left.entries := by
  have hl : left.entries.filter (fun e => !bit e.1 level) = left.entries :=
    filter_eq_self.mpr fun e he => by simp [hc.1 e.1 (mem_map_of_mem he)]
  have hr : right.entries.filter (fun e => !bit e.1 level) = [] :=
    filter_eq_nil_iff.mpr fun e he => by simp [hc.2.1 e.1 (mem_map_of_mem he)]
  rw [entries, filter_append, hl, hr, append_nil]

theorem filter_right (hc : Canonical bit level (node left right)) :
    (node left right).entries.filter (fun e => bit e.1 level) = right.entries := by
  have hl : left.entries.filter (fun e => bit e.1 level) = [] :=
    filter_eq_nil_iff.mpr fun e he => by simp [hc.1 e.1 (mem_map_of_mem he)]
  have hr : right.entries.filter (fun e => bit e.1 level) = right.entries :=
    filter_eq_self.mpr fun e he => by simp [hc.2.1 e.1 (mem_map_of_mem he)]
  rw [entries, filter_append, hl, hr, nil_append]

theorem pairwise_next
    (hbit : ∀ k ∈ keys t, bit k level = b) (h : t.keys.Pairwise (Differ bit level fuel)) :
    t.keys.Pairwise (Differ bit (level + 1) (fuel - 1)) :=
  h.imp_of_mem fun hk hk' hd => hd.next ((hbit _ hk).trans (hbit _ hk').symm)

theorem fuel_pos_of_node (hc : Canonical bit level (node left right))
    (hdiff : (node left right).keys.Pairwise (Differ bit level fuel)) : 0 < fuel := by
  have hsize : 2 ≤ (node left right).entries.length := by
    simpa [entries] using hc.2.2.1
  obtain ⟨e, e', rest, hes⟩ : ∃ e e' rest, (node left right).entries = e :: e' :: rest := by
    match hes : (node left right).entries, hsize with
    | e :: e' :: rest, _ => exact ⟨e, e', rest, rfl⟩
  rw [keys, hes] at hdiff
  obtain ⟨i, hlo, hhi, -⟩ := rel_of_pairwise_cons hdiff mem_cons_self
  omega

theorem rootOf_eq_hash (H : Hasher κ ν α) {es : List (κ × ν)} (hc : Canonical bit level t)
    (hdiff : t.keys.Pairwise (Differ bit level fuel)) (hperm : es.Perm t.entries) :
    rootOf bit H fuel level es = hash H t := by
  induction t generalizing fuel level es with
  | empty =>
    obtain rfl : es = [] := perm_nil.mp hperm
    rw [rootOf, hash]
  | leaf key value =>
    obtain rfl : es = [(key, value)] := perm_singleton.mp hperm
    rw [rootOf, hash]
  | node left right ihl ihr =>
    have hsize : 2 ≤ (node left right).entries.length := by
      simpa [entries] using hc.2.2.1
    have hpair := pairwise_append.mp ((keys_node left right) ▸ hdiff)
    cases fuel with
    | zero => exact absurd (fuel_pos_of_node hc hdiff) (by omega)
    | succ fuel =>
      have hleft : left.keys.Pairwise (Differ bit (level + 1) fuel) := pairwise_next hc.1 hpair.1
      have hright : right.keys.Pairwise (Differ bit (level + 1) fuel) := pairwise_next hc.2.1 hpair.2.1
      rw [rootOf_node H (by rwa [hperm.length_eq]), hash, ihl hc.2.2.2.1 hleft (filter_left hc ▸ hperm.filter _),
        ihr hc.2.2.2.2 hright (filter_right hc ▸ hperm.filter _)]

end Root

/-! A proof for a key is the list of digests beside its path and the digest at
its end.  Its root is computed from the end upwards, whoever chose the digests. -/

section Proofs

def stepInput (right : Bool) (child sibling : α) : Input κ ν α :=
  if right then .inner sibling child else .inner child sibling

def proofRoot (H : Hasher κ ν α) (key : κ) (last : α) : List α → Nat → α
  | [], _ => last
  | sibling :: rest, level =>
      H.digest (stepInput (bit key level) (proofRoot H key last rest (level + 1)) sibling)

def proofInputs (H : Hasher κ ν α) (key : κ) (last : α) : List α → Nat → List (Input κ ν α)
  | [], _ => []
  | sibling :: rest, level =>
      stepInput (bit key level) (proofRoot bit H key last rest (level + 1)) sibling ::
        proofInputs H key last rest (level + 1)

variable {bit} {S : Set (Input κ ν α)}

theorem child_of_stepInput (hS : Secure H S) {right : Bool} {child sibling : α}
    (hin : stepInput right child sibling ∈ S) (ht : inputs H t ⊆ S)
    (heq : H.digest (stepInput right child sibling) = hash H t) :
    ∃ here there, t = branch right here there ∧ child = hash H here ∧ inputs H here ⊆ S := by
  cases t with
  | empty => exact absurd heq (hS.nonzero _ hin)
  | leaf k v =>
    have h := hS.inj hin (ht rfl : Input.leaf k v ∈ S) heq
    cases right <;> simp [stepInput] at h
  | node left other =>
    obtain ⟨hmem, hleft, hright⟩ := mem_inputs_node ht
    have h := hS.inj hin hmem heq
    cases right with
    | false =>
      simp only [stepInput, Bool.false_eq_true, if_false, Input.inner.injEq] at h
      exact ⟨left, other, rfl, h.1, hleft⟩
    | true =>
      simp only [stepInput, if_true, Input.inner.injEq] at h
      exact ⟨other, left, rfl, h.2, hright⟩

/-- A proof under the digest of a tree is as long as the path of its key and
ends where that path ends. -/
theorem path_of_proofRoot (hS : Secure H S) {e : SparseTree κ ν} (he : inputs H e ⊆ S)
    (hend : e = empty ∨ ∃ k v, e = leaf k v) {proof : List α}
    (hin : ∀ input ∈ proofInputs bit H key (hash H e) proof level, input ∈ S)
    (ht : inputs H t ⊆ S) (heq : proofRoot bit H key (hash H e) proof level = hash H t) :
    endpoint bit key t level = e ∧ (siblings bit H key t level).length = proof.length := by
  induction proof generalizing t level with
  | nil =>
    obtain rfl : e = t := hash_inj hS he ht heq
    rcases hend with rfl | ⟨k, v, rfl⟩ <;> exact ⟨rfl, rfl⟩
  | cons sibling rest ih =>
    obtain ⟨hstep, hrest⟩ := forall_mem_cons.mp hin
    obtain ⟨here, there, rfl, hchild, hhere⟩ := child_of_stepInput hS hstep ht heq
    obtain ⟨hfound, hlength⟩ := ih hrest hhere hchild
    rw [endpoint_branch, siblings_branch, length_cons, length_cons, hlength]
    exact ⟨hfound, rfl⟩

theorem proofRoot_siblings (H : Hasher κ ν α) (key : κ) (t : SparseTree κ ν) (level : Nat) :
    proofRoot bit H key (hash H (endpoint bit key t level)) (siblings bit H key t level) level = hash H t := by
  induction t, level using path_induction bit key with
  | hempty level => rfl
  | hleaf k v level => rfl
  | hbranch here there level ih =>
    rw [siblings_branch, endpoint_branch, proofRoot, ih]
    cases hb : bit key level <;> simp [branch, stepInput, Hasher.digest, hash]

end Proofs

end SparseTree

end PrivatePayments.Lib

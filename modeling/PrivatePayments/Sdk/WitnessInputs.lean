import PrivatePayments.Sdk.Hex

/-! `witness/src/lib.rs`: the JSON inputs of a circuit become lists of numbers, one for each
signal.  The values are walked with explicit stacks; `parseBytes` is `BigInt::parse_bytes`. -/
namespace PrivatePayments.Sdk.Witness
open Contracts List

/-- What `as_u64` and `as_i64` make of a JSON number. -/
inductive Number where
  | u64 (n : UInt64)
  | i64 (n : Int64)
  | float

/-- The fields of an object stand in the order of its map. -/
inductive Value where
  | null
  | bool (b : Bool)
  | number (n : Number)
  | string (s : String)
  | array (items : List Value)
  | object (fields : List (String × Value))

inductive InputError where
  | invalidNumber (key : String)
  | invalidBigint (key s : String)
  | unexpectedObject (key : String)

abbrev Inputs := String → Option (List Int)

def push (inputs : Inputs) (key : String) (bi : Int) : Inputs :=
  Function.update inputs key (some ((inputs key).getD [] ++ [bi]))

def toFieldElement (bi : Int) : Except (Abort InputError) Int :=
  if bi < 0 then
    if -bi < bn256Modulus then .ok (bn256Modulus - -bi) else .error .panic
  else if bi < bn256Modulus then .ok bi else .error .panic

def numberInput (key : String) : Number → Except (Abort InputError) Int
  | .u64 n => toFieldElement n.toNat
  | .i64 n => toFieldElement n.toInt
  | .float => .error (.error (.invalidNumber key))

variable {v : Value}

section
variable (parseBytes : List Char → Nat → Option Int)

def parseBigint (s : String) : Option Int :=
  match s.toList with
  | '0' :: 'x' :: hex => parseBytes hex 16
  | text => parseBytes text 10

def stringInput (key s : String) : Except (Abort InputError) Int :=
  match parseBigint parseBytes s with
  | some bi => toFieldElement bi
  | none => .error (.error (.invalidBigint key s))

def boolInput (b : Bool) : Int := if b then 1 else 0

/-- The texts that `flows.rs` writes are read as the numbers of their bytes. -/
theorem stringInput_hexBytes {parseBytes : List Char → Nat → Option Int} (key : String) {be : Bytes}
    (hparse : ∀ hex : List Char, (∀ c ∈ hex, Hex.IsHexDigit c) → hex.length = 64 →
      parseBytes hex 16 = some (Hex.denoted hex : Int))
    (hlength : be.length = 32) (hlt : fromLittleEndian be.reverse < bn256Modulus) :
    stringInput parseBytes key (.ofList ('0' :: 'x' :: be.flatMap hexByte)) =
      .ok (fromLittleEndian be.reverse : Int) := by
  have hread := hparse (be.flatMap hexByte) (Hex.hexBytes_digits be) (by rw [Hex.length_hexBytes, hlength])
  rw [Hex.denoted_hexBytes] at hread
  rw [stringInput, parseBigint, String.toList_ofList]
  simp only [hread, toFieldElement]
  rw [if_neg (by omega), if_pos (by omega)]

theorem stringInput_scalarToHex {parseBytes : List Char → Nat → Option Int} (key : String) (x : F)
    (hparse : ∀ hex : List Char, (∀ c ∈ hex, Hex.IsHexDigit c) → hex.length = 64 →
      parseBytes hex 16 = some (Hex.denoted hex : Int)) :
    stringInput parseBytes key (.ofList (scalarToHex x)) = .ok (x.val : Int) := by
  have hval : fromLittleEndian (toLeBytes x).reverse.reverse = x.val := by
    rw [reverse_reverse, toLeBytes, fromLittleEndian_toLittleEndian ((ZMod.val_lt x).trans (by decide))]
  rw [← hval]
  exact stringInput_hexBytes key hparse (by rw [length_reverse, toLeBytes, toLittleEndian_length])
    (by rw [hval]; exact ZMod.val_lt x)

theorem sizeOf_sum_le (items : List Value) : (items.map sizeOf).sum < sizeOf items := by
  induction items with
  | nil => simp
  | cons v rest ih =>
    simp only [map_cons, sum_cons, List.cons.sizeOf_spec]
    omega

def isPureLoop : List Value → Bool
  | [] => true
  | .array items :: stack => isPureLoop (items.reverse ++ stack)
  | .object _ :: _ => false
  | .number _ :: stack | .string _ :: stack | .bool _ :: stack | .null :: stack => isPureLoop stack
termination_by stack => (stack.map sizeOf).sum
decreasing_by
  · have := sizeOf_sum_le items
    simp
    omega
  all_goals simp

def isPureArray (value : Value) : Bool := isPureLoop [value]

inductive WorkItem where
  | value (v : Value)
  | arrayIter (arr : List Value) (idx : Nat)

noncomputable def WorkItem.size : WorkItem → Nat
  | .value v => 2 * sizeOf v
  | .arrayIter arr idx => 2 * sizeOf (arr.drop idx) + 1

theorem drop_of_get {arr : List Value} {idx : Nat} (h : arr[idx]? = some v) :
    arr.drop idx = v :: arr.drop (idx + 1) := by
  obtain ⟨hlt, rfl⟩ := List.getElem?_eq_some_iff.mp h
  exact drop_eq_getElem_cons hlt

def flattenPureLoop (key : String) : List WorkItem → Inputs → Except (Abort InputError) Inputs
  | [], inputs => .ok inputs
  | .value (.number n) :: stack, inputs => do
      let bi ← numberInput key n
      flattenPureLoop key stack (push inputs key bi)
  | .value (.string s) :: stack, inputs => do
      let bi ← stringInput parseBytes key s
      flattenPureLoop key stack (push inputs key bi)
  | .value (.array arr) :: stack, inputs =>
      if arr.isEmpty then flattenPureLoop key stack inputs
      else flattenPureLoop key (.arrayIter arr 0 :: stack) inputs
  | .value (.bool b) :: stack, inputs => flattenPureLoop key stack (push inputs key (boolInput b))
  | .value .null :: stack, inputs => flattenPureLoop key stack (push inputs key 0)
  | .value (.object _) :: _, _ => .error (.error (.unexpectedObject key))
  | .arrayIter arr idx :: stack, inputs =>
      match h : arr[idx]? with
      | none => .error .panic
      | some v =>
          if idx + 1 < arr.length then
            flattenPureLoop key (.value v :: .arrayIter arr (idx + 1) :: stack) inputs
          else flattenPureLoop key (.value v :: stack) inputs
termination_by stack => (stack.map WorkItem.size).sum
decreasing_by
  all_goals simp [WorkItem.size]
  · omega
  · rw [drop_of_get h, List.cons.sizeOf_spec]
    omega
  · rw [drop_of_get h, List.cons.sizeOf_spec]
    omega

def flattenPureArray (key : String) (value : Value) (inputs : Inputs) : Except (Abort InputError) Inputs :=
  flattenPureLoop parseBytes key [.value value] inputs

def itemKey (key : String) (idx : Nat) : String := key ++ "[" ++ toString idx ++ "]"

def fieldKey (key field : String) : String := key ++ "." ++ field

/-- The items of an array from a place on, in the order in which they are popped. -/
def indexed (key : String) (idx : Nat) (items : List Value) : List (String × Value) :=
  (items.zipIdx idx).map fun (item, idx) => (itemKey key idx, item)

def named (key : String) (fields : List (String × Value)) : List (String × Value) :=
  fields.map fun (field, v) => (fieldKey key field, v)

noncomputable def pending (stack : List (String × Value)) : Nat := (stack.map fun entry => sizeOf entry.2).sum

theorem pending_append (stack rest : List (String × Value)) :
    pending (stack ++ rest) = pending stack + pending rest := by
  simp [pending]

theorem pending_indexed (key : String) (idx : Nat) (items : List Value) :
    pending (indexed key idx items) < sizeOf items := by
  induction items generalizing idx with
  | nil => simp [pending, indexed]
  | cons v rest ih =>
    have hrest := ih (idx + 1)
    simp only [pending, indexed, zipIdx_cons, map_cons, sum_cons, List.cons.sizeOf_spec] at hrest ⊢
    omega

theorem pending_named (key : String) (fields : List (String × Value)) :
    pending (named key fields).reverse < sizeOf fields := by
  induction fields with
  | nil => simp [pending, named]
  | cons field rest ih =>
    obtain ⟨name, v⟩ := field
    simp only [pending, named, map_cons, reverse_cons, map_append, sum_append,
      map_nil, sum_cons, sum_nil, List.cons.sizeOf_spec, Prod.mk.sizeOf_spec] at ih ⊢
    omega

/-- The loop of `flatten_input`.  Items are pushed in reverse, fields as they come. -/
def flattenLoop : List (String × Value) → Inputs → Except (Abort InputError) Inputs
  | [], inputs => .ok inputs
  | (key, .number n) :: stack, inputs => do
      let bi ← numberInput key n
      flattenLoop stack (push inputs key bi)
  | (key, .string s) :: stack, inputs => do
      let bi ← stringInput parseBytes key s
      flattenLoop stack (push inputs key bi)
  | (key, .array arr) :: stack, inputs =>
      if isPureArray (.array arr) then do
        let inputs ← flattenPureArray parseBytes key (.array arr) inputs
        flattenLoop stack inputs
      else flattenLoop (indexed key 0 arr ++ stack) inputs
  | (key, .object obj) :: stack, inputs => flattenLoop ((named key obj).reverse ++ stack) inputs
  | (key, .bool b) :: stack, inputs => flattenLoop stack (push inputs key (boolInput b))
  | (key, .null) :: stack, inputs => flattenLoop stack (push inputs key 0)
termination_by stack => pending stack
decreasing_by
  · simp [pending]
  · simp [pending]
  · simp [pending]
  · have := pending_indexed key 0 arr
    rw [pending_append]
    simp [pending] at this ⊢
    omega
  · have := pending_named key obj
    rw [pending_append]
    simp [pending] at this ⊢
    omega
  · simp [pending]
  · simp [pending]

def flattenInput (key : String) (value : Value) (inputs : Inputs) : Except (Abort InputError) Inputs :=
  flattenLoop parseBytes [(key, value)] inputs

/-- The part of `compute_witness` that flattens the fields of its object. -/
def flattenInputs (inputsMap : List (String × Value)) : Except (Abort InputError) Inputs :=
  inputsMap.foldlM (fun inputs (key, value) => flattenInput parseBytes key value inputs) fun _ => none

end

/-! What the loops compute: every primitive is pushed under its path, one after the other. -/

mutual

def leaves : Value → List Value
  | .array items => leavesOf items
  | v => [v]

def leavesOf : List Value → List Value
  | [] => []
  | v :: rest => leaves v ++ leavesOf rest

end

def isPrimitive : Value → Bool
  | .array _ | .object _ => false
  | _ => true

def isPure (value : Value) : Bool := (leaves value).all isPrimitive

mutual

/-- The primitives of a value with their paths, in the order in which the loops come to them. -/
def visits (key : String) : Value → List (String × Value)
  | .array items =>
      if isPure (.array items) then (leavesOf items).map (key, ·) else visitsItems key 0 items
  | .object fields => visitsFields key fields
  | v => [(key, v)]

def visitsItems (key : String) (idx : Nat) : List Value → List (String × Value)
  | [] => []
  | v :: rest => visits (itemKey key idx) v ++ visitsItems key (idx + 1) rest

def visitsFields (key : String) : List (String × Value) → List (String × Value)
  | [] => []
  | (field, v) :: rest => visitsFields key rest ++ visits (fieldKey key field) v

end

section
variable (parseBytes : List Char → Nat → Option Int)

def leafInput (key : String) : Value → Except (Abort InputError) Int
  | .number n => numberInput key n
  | .string s => stringInput parseBytes key s
  | .bool b => .ok (boolInput b)
  | .null => .ok 0
  | _ => .error (.error (.unexpectedObject key))

def pushLeaf (inputs : Inputs) (entry : String × Value) : Except (Abort InputError) Inputs := do
  let bi ← leafInput parseBytes entry.1 entry.2
  return push inputs entry.1 bi

theorem all_leavesOf (items : List Value) : (leavesOf items).all isPrimitive = items.all isPure := by
  induction items with
  | nil => rfl
  | cons v rest ih => rw [leavesOf, all_append, ih, all_cons, isPure]

theorem isPureLoop_eq (stack : List Value) : isPureLoop stack = stack.all isPure := by
  fun_induction isPureLoop stack with
  | case1 => rfl
  | case2 items stack ih =>
    simp only [unattach_reverse, unattach_attach] at ih
    rw [ih, all_append, all_reverse, all_cons, isPure, leaves, all_leavesOf]
  | case3 fields stack => simp [isPure, leaves, isPrimitive]
  | case4 n stack ih => simp [ih, isPure, leaves, isPrimitive]
  | case5 s stack ih => simp [ih, isPure, leaves, isPrimitive]
  | case6 b stack ih => simp [ih, isPure, leaves, isPrimitive]
  | case7 stack ih => simp [ih, isPure, leaves, isPrimitive]

theorem isPureArray_eq (value : Value) : isPureArray value = isPure value := by
  rw [isPureArray, isPureLoop_eq]
  simp

def WorkItem.leaves : WorkItem → List Value
  | .value v => Witness.leaves v
  | .arrayIter arr idx => leavesOf (arr.drop idx)

def WorkItem.InBounds : WorkItem → Prop
  | .value _ => True
  | .arrayIter arr idx => idx < arr.length

theorem flattenPureLoop_eq (key : String) (stack : List WorkItem) (inputs : Inputs)
    (hstack : ∀ item ∈ stack, item.InBounds) :
    flattenPureLoop parseBytes key stack inputs =
      ((stack.flatMap WorkItem.leaves).map (key, ·)).foldlM (pushLeaf parseBytes) inputs := by
  fun_induction flattenPureLoop parseBytes key stack inputs with
  | case1 inputs => rfl
  | case2 n stack inputs ih =>
    have hrest := fun bi => ih bi (forall_mem_cons.mp hstack).2
    simp [WorkItem.leaves, leaves, pushLeaf, leafInput, hrest]
  | case3 s stack inputs ih =>
    have hrest := fun bi => ih bi (forall_mem_cons.mp hstack).2
    simp [WorkItem.leaves, leaves, pushLeaf, leafInput, hrest]
  | case4 arr stack inputs hempty ih =>
    rw [ih (forall_mem_cons.mp hstack).2, List.isEmpty_iff.mp hempty]
    simp [WorkItem.leaves, leaves, leavesOf]
  | case5 arr stack inputs hempty ih =>
    have hpos : 0 < arr.length := length_pos_iff.mpr (hempty ∘ List.isEmpty_iff.mpr)
    rw [ih (forall_mem_cons.mpr ⟨hpos, (forall_mem_cons.mp hstack).2⟩)]
    simp [WorkItem.leaves, leaves]
  | case6 b stack inputs ih =>
    rw [ih (forall_mem_cons.mp hstack).2]
    simp [WorkItem.leaves, leaves, pushLeaf, leafInput, ok_bind]
  | case7 stack inputs ih =>
    rw [ih (forall_mem_cons.mp hstack).2]
    simp [WorkItem.leaves, leaves, pushLeaf, leafInput, ok_bind]
  | case8 fields stack inputs =>
    simp [WorkItem.leaves, leaves, pushLeaf, leafInput, error_bind]
  | case9 arr idx stack inputs hget =>
    have hlt : idx < arr.length := (forall_mem_cons.mp hstack).1
    exact absurd (List.getElem?_eq_none_iff.mp hget) (Nat.not_le.mpr hlt)
  | case10 arr idx stack inputs v hget hnext ih =>
    rw [ih (forall_mem_cons.mpr ⟨trivial, forall_mem_cons.mpr ⟨hnext, (forall_mem_cons.mp hstack).2⟩⟩)]
    simp only [flatMap_cons, WorkItem.leaves, drop_of_get hget, leavesOf, append_assoc]
  | case11 arr idx stack inputs v hget hlast ih =>
    rw [ih (forall_mem_cons.mpr ⟨trivial, (forall_mem_cons.mp hstack).2⟩)]
    simp only [flatMap_cons, WorkItem.leaves, drop_of_get hget, leavesOf,
      drop_eq_nil_of_le (Nat.le_of_not_lt hlast), append_nil]

theorem flattenPureArray_eq (key : String) (value : Value) (inputs : Inputs) :
    flattenPureArray parseBytes key value inputs =
      ((leaves value).map (key, ·)).foldlM (pushLeaf parseBytes) inputs := by
  have hstack : ∀ item ∈ [WorkItem.value value], item.InBounds := by simp [WorkItem.InBounds]
  rw [flattenPureArray, flattenPureLoop_eq parseBytes key _ inputs hstack, flatMap_singleton]
  rfl

theorem visits_indexed (key : String) (idx : Nat) (items : List Value) :
    (indexed key idx items).flatMap (fun entry => visits entry.1 entry.2) = visitsItems key idx items := by
  induction items generalizing idx with
  | nil => simp [indexed, visitsItems]
  | cons v rest ih =>
    rw [visitsItems, ← ih (idx + 1), indexed, zipIdx_cons, map_cons, flatMap_cons]
    rfl

theorem visits_named (key : String) (fields : List (String × Value)) :
    (named key fields).reverse.flatMap (fun entry => visits entry.1 entry.2) = visitsFields key fields := by
  induction fields with
  | nil => simp [named, visitsFields]
  | cons field rest ih =>
    obtain ⟨name, v⟩ := field
    rw [visitsFields, ← ih, named, map_cons, reverse_cons, flatMap_append, flatMap_singleton]
    rfl

theorem flattenLoop_eq (stack : List (String × Value)) (inputs : Inputs) :
    flattenLoop parseBytes stack inputs =
      (stack.flatMap fun entry => visits entry.1 entry.2).foldlM (pushLeaf parseBytes) inputs := by
  fun_induction flattenLoop parseBytes stack inputs with
  | case1 inputs => rfl
  | case2 key n stack inputs ih => simp [visits, pushLeaf, leafInput, ih]
  | case3 key s stack inputs ih => simp [visits, pushLeaf, leafInput, ih]
  | case4 key arr stack inputs hpure ih =>
    rw [isPureArray_eq] at hpure
    rw [flattenPureArray_eq, flatMap_cons, visits, if_pos hpure, foldlM_append, leaves]
    simp only [ih]
  | case5 key arr stack inputs hpure ih =>
    rw [isPureArray_eq] at hpure
    rw [ih, flatMap_append, visits_indexed, flatMap_cons, visits, if_neg hpure]
  | case6 key fields stack inputs ih =>
    rw [ih, flatMap_append, visits_named, flatMap_cons, visits]
  | case7 key b stack inputs ih => simp [visits, pushLeaf, leafInput, ih, ok_bind]
  | case8 key stack inputs ih => simp [visits, pushLeaf, leafInput, ih, ok_bind]

theorem flattenInput_eq (key : String) (value : Value) (inputs : Inputs) :
    flattenInput parseBytes key value inputs = (visits key value).foldlM (pushLeaf parseBytes) inputs := by
  rw [flattenInput, flattenLoop_eq, flatMap_singleton]

theorem flattenInputs_eq (inputsMap : List (String × Value)) :
    flattenInputs parseBytes inputsMap =
      (inputsMap.flatMap fun entry => visits entry.1 entry.2).foldlM (pushLeaf parseBytes) fun _ => none := by
  rw [flattenInputs]
  generalize (fun _ => none : Inputs) = inputs
  induction inputsMap generalizing inputs with
  | nil => rfl
  | cons entry rest ih =>
    obtain ⟨key, value⟩ := entry
    simp only [foldlM_cons, flatMap_cons, foldlM_append, flattenInput_eq] at ih ⊢
    simp only [ih]

end

theorem visits_of_primitive (h : isPrimitive v = true) (key : String) : visits key v = [(key, v)] := by
  cases v with
  | array items => cases h
  | object fields => cases h
  | _ => rw [visits] <;> simp

mutual

theorem visits_primitive (key : String) : ∀ value, ∀ entry ∈ visits key value, isPrimitive entry.2 = true
  | .array items => by
    rw [visits]
    split
    · rename_i hpure
      rw [isPure, leaves, all_eq_true] at hpure
      simpa using hpure
    · exact visitsItems_primitive key 0 items
  | .object fields => by
    rw [visits]
    exact visitsFields_primitive key fields
  | .null | .bool _ | .number _ | .string _ => by simp [visits, isPrimitive]

theorem visitsItems_primitive (key : String) (idx : Nat) :
    ∀ items, ∀ entry ∈ visitsItems key idx items, isPrimitive entry.2 = true
  | [] => by simp [visitsItems]
  | v :: rest => by
    rw [visitsItems]
    exact forall_mem_append.mpr ⟨visits_primitive (itemKey key idx) v, visitsItems_primitive key (idx + 1) rest⟩

theorem visitsFields_primitive (key : String) :
    ∀ fields, ∀ entry ∈ visitsFields key fields, isPrimitive entry.2 = true
  | [] => by simp [visitsFields]
  | (field, v) :: rest => by
    rw [visitsFields]
    exact forall_mem_append.mpr ⟨visitsFields_primitive key rest, visits_primitive (fieldKey key field) v⟩

end

section
variable (parseBytes : List Char → Nat → Option Int)

/-- A number that is not an integer, or a text that is not one. -/
def Unreadable : Value → Prop
  | .number .float => True
  | .string s => parseBigint parseBytes s = none
  | _ => False

def OutOfRange : Value → Prop
  | .string s => ∃ bi, parseBigint parseBytes s = some bi ∧ bn256Modulus ≤ bi.natAbs
  | _ => False

/-- The field element of a primitive, as its least residue. -/
def fieldElement : Value → Int
  | .number (.u64 n) => n.toNat % bn256Modulus
  | .number (.i64 n) => n.toInt % bn256Modulus
  | .string s => (parseBigint parseBytes s).getD 0 % bn256Modulus
  | .bool true => 1
  | _ => 0

end

theorem toFieldElement_inRange {bi : Int} (h : bi.natAbs < bn256Modulus) :
    toFieldElement bi = .ok (bi % bn256Modulus) := by
  unfold toFieldElement
  split
  · rename_i hneg
    rw [if_pos (by omega), ← Int.add_emod_right, Int.emod_eq_of_lt (by omega) (by omega)]
    congr 1
    omega
  · rw [if_pos (by omega), Int.emod_eq_of_lt (by omega) (by omega)]

theorem toFieldElement_outOfRange {bi : Int} (h : bn256Modulus ≤ bi.natAbs) : toFieldElement bi = .error .panic := by
  unfold toFieldElement
  split
  · rw [if_neg (by omega)]
  · rw [if_neg (by omega)]

theorem natAbs_u64 (n : UInt64) : (n.toNat : Int).natAbs < bn256Modulus := by
  have hwidth : 2 ^ 64 < bn256Modulus := by decide
  have hn := n.toNat_lt
  rw [Int.natAbs_natCast]
  omega

theorem natAbs_i64 (n : Int64) : n.toInt.natAbs < bn256Modulus := by
  have hwidth : 2 ^ 63 < bn256Modulus := by decide
  have hlow := n.le_toInt
  have hhigh := n.toInt_lt
  omega

variable {parseBytes : List Char → Nat → Option Int}

variable {entries : List (String × Value)}

section

theorem leafInput_unreadable (h : Unreadable parseBytes v) (key : String) :
    ∃ e, leafInput parseBytes key v = .error (.error e) := by
  cases v with
  | number n =>
    cases n with
    | float => exact ⟨_, rfl⟩
    | u64 n => exact h.elim
    | i64 n => exact h.elim
  | string s =>
    rw [Unreadable] at h
    simp only [leafInput, stringInput, h]
    exact ⟨_, rfl⟩
  | _ => exact h.elim

theorem leafInput_outOfRange (h : OutOfRange parseBytes v) (key : String) :
    leafInput parseBytes key v = .error .panic := by
  cases v with
  | string s =>
    obtain ⟨bi, hparse, hbig⟩ := h
    simp only [leafInput, stringInput, hparse]
    exact toFieldElement_outOfRange hbig
  | _ => exact h.elim

theorem leafInput_readable (hprimitive : isPrimitive v = true) (hread : ¬Unreadable parseBytes v)
    (hrange : ¬OutOfRange parseBytes v) (key : String) :
    leafInput parseBytes key v = .ok (fieldElement parseBytes v) := by
  cases v with
  | null => rfl
  | bool b => cases b <;> rfl
  | number n =>
    cases n with
    | u64 n => rw [leafInput, numberInput, fieldElement, toFieldElement_inRange (natAbs_u64 n)]
    | i64 n => rw [leafInput, numberInput, fieldElement, toFieldElement_inRange (natAbs_i64 n)]
    | float => exact absurd trivial hread
  | string s =>
    cases hparse : parseBigint parseBytes s with
    | none => exact absurd hparse hread
    | some bi =>
      have hsmall : bi.natAbs < bn256Modulus := Nat.lt_of_not_le fun hbig => hrange ⟨bi, hparse, hbig⟩
      simp only [leafInput, stringInput, fieldElement, hparse, Option.getD_some]
      exact toFieldElement_inRange hsmall
  | array items => cases hprimitive
  | object fields => cases hprimitive

/-- Before a text that denotes too large an integer there is something unreadable. -/
def Reported (parseBytes : List Char → Nat → Option Int) (entries : List (String × Value)) : Prop :=
  ∀ before entry after, entries = before ++ entry :: after → OutOfRange parseBytes entry.2 →
    ∃ bad ∈ before, Unreadable parseBytes bad.2

theorem not_outOfRange_of_unreadable (h : Unreadable parseBytes v) : ¬OutOfRange parseBytes v := by
  intro hrange
  obtain ⟨e, he⟩ := leafInput_unreadable h ""
  rw [leafInput_outOfRange hrange] at he
  cases he

theorem reported_cons_unreadable {entry : String × Value} (h : Unreadable parseBytes entry.2)
    (rest : List (String × Value)) : Reported parseBytes (entry :: rest) := by
  intro before big after hsplit hbig
  cases before with
  | nil =>
    cases hsplit
    exact absurd hbig (not_outOfRange_of_unreadable h)
  | cons first before =>
    cases hsplit
    exact ⟨entry, mem_cons_self, h⟩

theorem reported_cons_readable {entry : String × Value} (hread : ¬Unreadable parseBytes entry.2)
    (hrange : ¬OutOfRange parseBytes entry.2) (rest : List (String × Value)) :
    Reported parseBytes (entry :: rest) ↔ Reported parseBytes rest := by
  constructor
  · intro h before big after hsplit hbig
    obtain ⟨bad, hbad, hunreadable⟩ := h (entry :: before) big after (by rw [hsplit]; rfl) hbig
    rcases mem_cons.mp hbad with rfl | hbad
    · exact absurd hunreadable hread
    · exact ⟨bad, hbad, hunreadable⟩
  · intro h before big after hsplit hbig
    cases before with
    | nil =>
      cases hsplit
      exact absurd hbig hrange
    | cons first before =>
      cases hsplit
      obtain ⟨bad, hbad, hunreadable⟩ := h before big after rfl hbig
      exact ⟨bad, mem_cons_of_mem _ hbad, hunreadable⟩

theorem fold_panics_iff (hprimitive : ∀ entry ∈ entries, isPrimitive entry.2 = true)
    (inputs : Inputs) :
    entries.foldlM (pushLeaf parseBytes) inputs ≠ .error .panic ↔ Reported parseBytes entries := by
  induction entries generalizing inputs with
  | nil => exact iff_of_true nofun fun before entry after hsplit => by cases before <;> cases hsplit
  | cons entry rest ih =>
    obtain ⟨hentry, hrest⟩ := forall_mem_cons.mp hprimitive
    rw [foldlM_cons, pushLeaf]
    by_cases hread : Unreadable parseBytes entry.2
    · obtain ⟨e, he⟩ := leafInput_unreadable hread entry.1
      rw [he]
      exact iff_of_true nofun (reported_cons_unreadable hread rest)
    · by_cases hrange : OutOfRange parseBytes entry.2
      · rw [leafInput_outOfRange hrange]
        refine iff_of_false (fun h => h rfl) (fun h => ?_)
        obtain ⟨bad, hbad, -⟩ := h [] entry rest rfl hrange
        cases hbad
      · rw [leafInput_readable hentry hread hrange, reported_cons_readable hread hrange, ← ih hrest]
        rfl

/-- Too large an integer is fatal, unless something else was reported before. -/
theorem flatten_panics_iff (parseBytes : List Char → Nat → Option Int) (inputsMap : List (String × Value)) :
    flattenInputs parseBytes inputsMap ≠ .error .panic ↔
      Reported parseBytes (inputsMap.flatMap fun entry => visits entry.1 entry.2) := by
  rw [flattenInputs_eq]
  apply fold_panics_iff
  intro entry hentry
  obtain ⟨field, -, hvisit⟩ := mem_flatMap.mp hentry
  exact visits_primitive field.1 field.2 entry hvisit

def parseDecimal (text : List Char) (_ : Nat) : Option Int :=
  text.foldlM (fun n c => if c.isDigit then some (n * 10 + (c.toNat - 48)) else none) 0

theorem flatten_panics_modulus :
    flattenInputs parseDecimal [("x", .string
      "21888242871839275222246405745257275088548364400416034343698204186575808495617")] = .error .panic := by
  have hparse : parseBigint parseDecimal
      "21888242871839275222246405745257275088548364400416034343698204186575808495617" = some (bn256Modulus : Int) := by
    decide +kernel
  have hbig : OutOfRange parseDecimal (.string
      "21888242871839275222246405745257275088548364400416034343698204186575808495617") :=
    ⟨_, hparse, le_refl _⟩
  rw [flattenInputs_eq, flatMap_singleton, visits_of_primitive rfl, foldlM_cons, pushLeaf,
    leafInput_outOfRange hbig]
  rfl

end

mutual

/-- Each path to a primitive, or to an array of primitives that is not inside another, with the
primitives found there. -/
def paths (key : String) : Value → List (String × List Value)
  | .array items => if isPure (.array items) then [(key, leavesOf items)] else pathsItems key 0 items
  | .object fields => pathsFields key fields
  | v => [(key, [v])]

def pathsItems (key : String) (idx : Nat) : List Value → List (String × List Value)
  | [] => []
  | v :: rest => paths (itemKey key idx) v ++ pathsItems key (idx + 1) rest

def pathsFields (key : String) : List (String × Value) → List (String × List Value)
  | [] => []
  | (field, v) :: rest => paths (fieldKey key field) v ++ pathsFields key rest

end

def expand (path : String × List Value) : List (String × Value) := path.2.map (path.1, ·)

/-- The paths in the order in which the loops come to them. -/
def Walks (walk : List (String × Value)) (found : List (String × List Value)) : Prop :=
  ∃ order : List (String × List Value), order.Perm found ∧ walk = order.flatMap expand

variable {found found' : List (String × List Value)}

theorem Walks.append {walk walk' : List (String × Value)}
    (h : Walks walk found) (h' : Walks walk' found') : Walks (walk ++ walk') (found ++ found') := by
  obtain ⟨order, hperm, rfl⟩ := h
  obtain ⟨order', hperm', rfl⟩ := h'
  exact ⟨order ++ order', hperm.append hperm', by rw [flatMap_append]⟩

theorem Walks.perm {walk : List (String × Value)}
    (h : Walks walk found) (hperm : found.Perm found') : Walks walk found' := by
  obtain ⟨order, horder, rfl⟩ := h
  exact ⟨order, horder.trans hperm, rfl⟩

theorem walks_single (key : String) (found : List Value) : Walks (found.map (key, ·)) [(key, found)] :=
  ⟨[(key, found)], .refl _, by simp [expand]⟩

mutual

theorem walks_visits (key : String) : ∀ value, Walks (visits key value) (paths key value)
  | .array items => by
    rw [visits, paths]
    split
    · exact walks_single key (leavesOf items)
    · exact walks_visitsItems key 0 items
  | .object fields => by
    rw [visits, paths]
    exact walks_visitsFields key fields
  | .null | .bool _ | .number _ | .string _ => by
    simp only [visits, paths]
    exact walks_single key [_]

theorem walks_visitsItems (key : String) (idx : Nat) :
    ∀ items, Walks (visitsItems key idx items) (pathsItems key idx items)
  | [] => by
    rw [visitsItems, pathsItems]
    exact ⟨[], .refl _, rfl⟩
  | v :: rest => by
    rw [visitsItems, pathsItems]
    exact (walks_visits (itemKey key idx) v).append (walks_visitsItems key (idx + 1) rest)

theorem walks_visitsFields (key : String) :
    ∀ fields, Walks (visitsFields key fields) (pathsFields key fields)
  | [] => by
    rw [visitsFields, pathsFields]
    exact ⟨[], .refl _, rfl⟩
  | (field, v) :: rest => by
    rw [visitsFields, pathsFields]
    exact ((walks_visitsFields key rest).append (walks_visits (fieldKey key field) v)).perm perm_append_comm

end

section

theorem fold_pushes (hprimitive : ∀ entry ∈ entries, isPrimitive entry.2 = true)
    (hread : ∀ entry ∈ entries, ¬Unreadable parseBytes entry.2)
    (hrange : ∀ entry ∈ entries, ¬OutOfRange parseBytes entry.2) (inputs : Inputs) :
    ∃ inputs', entries.foldlM (pushLeaf parseBytes) inputs = .ok inputs' ∧
      ∀ path, inputs' path =
        let found := (entries.filter (·.1 = path)).map fun entry => fieldElement parseBytes entry.2
        if found = [] then inputs path else some ((inputs path).getD [] ++ found) := by
  induction entries generalizing inputs with
  | nil => exact ⟨inputs, rfl, fun path => rfl⟩
  | cons entry rest ih =>
    obtain ⟨hentry, hprimitive⟩ := forall_mem_cons.mp hprimitive
    obtain ⟨hentryRead, hread⟩ := forall_mem_cons.mp hread
    obtain ⟨hentryRange, hrange⟩ := forall_mem_cons.mp hrange
    obtain ⟨inputs', hfold, hpaths⟩ := ih hprimitive hread hrange
      (push inputs entry.1 (fieldElement parseBytes entry.2))
    refine ⟨inputs', ?_, fun path => ?_⟩
    · rw [foldlM_cons, pushLeaf, leafInput_readable hentry hentryRead hentryRange]
      exact hfold
    · rw [hpaths path]
      by_cases hkey : entry.1 = path
      · subst hkey
        by_cases hrest : (rest.filter (·.1 = entry.1)).map (fun entry => fieldElement parseBytes entry.2) = []
        · simp [push, hrest]
        · simp [push, hrest]
      · have hfilter : (entry :: rest).filter (·.1 = path) = rest.filter (·.1 = path) :=
          filter_cons_of_neg (by simpa using hkey)
        rw [hfilter, push, Function.update_of_ne (Ne.symm hkey)]

theorem filter_expand (first : String × List Value) (path : String) :
    (expand first).filter (·.1 = path) = if first.1 = path then expand first else [] := by
  by_cases h : first.1 = path
  · simp [expand, h]
  · simp [expand, h]

variable {order : List (String × List Value)}

theorem filter_absent {path : String} (h : path ∉ order.map Prod.fst) :
    (order.flatMap expand).filter (·.1 = path) = [] := by
  induction order with
  | nil => rfl
  | cons first rest ih =>
    rw [map_cons, mem_cons, not_or] at h
    rw [flatMap_cons, filter_append, filter_expand, if_neg (Ne.symm h.1), ih h.2, nil_append]

theorem filter_present (hnodup : (order.map Prod.fst).Nodup)
    {path : String} {found : List Value} (hmem : (path, found) ∈ order) :
    (order.flatMap expand).filter (·.1 = path) = expand (path, found) := by
  induction order with
  | nil => cases hmem
  | cons first rest ih =>
    rw [map_cons, nodup_cons] at hnodup
    rw [flatMap_cons, filter_append, filter_expand]
    rcases mem_cons.mp hmem with rfl | hmem
    · rw [if_pos rfl, filter_absent hnodup.1, append_nil]
    · have hne : first.1 ≠ path := by
        rintro rfl
        exact hnodup.1 (mem_map.mpr ⟨_, hmem, rfl⟩)
      rw [if_neg hne, ih hnodup.2 hmem, nil_append]

/-- Under every path there are its primitives in row-major order, and nothing else. -/
theorem flatten_row_major (parseBytes : List Char → Nat → Option Int) (key : String) (value : Value)
    (hread : ∀ path found, (path, found) ∈ paths key value → ∀ v ∈ found, ¬Unreadable parseBytes v)
    (hrange : ∀ path found, (path, found) ∈ paths key value → ∀ v ∈ found, ¬OutOfRange parseBytes v)
    (hpaths : ((paths key value).map Prod.fst).Nodup) :
    ∃ inputs, flattenInput parseBytes key value (fun _ => none) = .ok inputs ∧
      (∀ path found, (path, found) ∈ paths key value →
        inputs path = if found = [] then none else some (found.map (fieldElement parseBytes))) ∧
      ∀ path, path ∉ (paths key value).map Prod.fst → inputs path = none := by
  obtain ⟨order, hperm, hvisits⟩ := walks_visits key value
  have hmem : ∀ entry ∈ visits key value, ∃ path found, (path, found) ∈ paths key value ∧ entry.2 ∈ found := by
    rw [hvisits]
    intro entry hentry
    obtain ⟨⟨path, found⟩, horder, hfound⟩ := mem_flatMap.mp hentry
    obtain ⟨v, hv, rfl⟩ := mem_map.mp hfound
    exact ⟨path, found, hperm.mem_iff.mp horder, hv⟩
  obtain ⟨inputs, hfold, hinputs⟩ := fold_pushes (visits_primitive key value) (fun entry hentry => by
      obtain ⟨path, found, hpath, hv⟩ := hmem entry hentry
      exact hread path found hpath _ hv)
    (fun entry hentry => by
      obtain ⟨path, found, hpath, hv⟩ := hmem entry hentry
      exact hrange path found hpath _ hv) fun _ => none
  have hnodup : (order.map Prod.fst).Nodup := (hperm.map Prod.fst).nodup_iff.mpr hpaths
  refine ⟨inputs, by rw [flattenInput_eq, hfold], ?_, ?_⟩
  · intro path found hpath
    rw [hinputs path, hvisits, filter_present hnodup (hperm.mem_iff.mpr hpath)]
    simp [expand, Function.comp_def]
  · intro path habsent
    rw [hinputs path, hvisits, filter_absent fun h => habsent ((hperm.map Prod.fst).mem_iff.mp h)]
    rfl

def sampleValue : Value :=
  .object [("m", .array [.array [.number (.u64 1), .bool true], .array [], .null]),
    ("o", .array [.object [("x", .string "7")]]), ("e", .array [])]

theorem sampleValue_paths : paths "in" sampleValue =
    [("in.m", [.number (.u64 1), .bool true, .null]), ("in.o[0].x", [.string "7"]), ("in.e", [])] := by
  have hindex : itemKey (fieldKey "in" "o") 0 = "in.o[0]" := by decide +kernel
  simp [sampleValue, paths, pathsFields, pathsItems, isPure, leaves, leavesOf, isPrimitive, hindex]
  decide +kernel

theorem flatten_row_major_sample :
    ∃ inputs, flattenInput parseDecimal "in" sampleValue (fun _ => none) = .ok inputs ∧
      inputs "in.m" = some [1, 1, 0] ∧ inputs "in.o[0].x" = some [7] ∧ inputs "in.e" = none := by
  have hseven : parseBigint parseDecimal "7" = some 7 := by decide +kernel
  have hsmall : 7 < bn256Modulus := by decide
  have hfine : ∀ path found, (path, found) ∈ paths "in" sampleValue → ∀ v ∈ found,
      ¬Unreadable parseDecimal v ∧ ¬OutOfRange parseDecimal v := by
    intro path found hmem v hv
    rw [sampleValue_paths] at hmem
    simp only [mem_cons, Prod.mk.injEq, not_mem_nil, or_false] at hmem
    rcases hmem with ⟨-, rfl⟩ | ⟨-, rfl⟩ | ⟨-, rfl⟩
    · simp only [mem_cons, not_mem_nil, or_false] at hv
      rcases hv with rfl | rfl | rfl <;> simp [Unreadable, OutOfRange]
    · rw [mem_singleton.mp hv]
      simp [Unreadable, OutOfRange, hseven, hsmall]
    · cases hv
  obtain ⟨inputs, hok, hfound, -⟩ := flatten_row_major parseDecimal "in" sampleValue
    (fun path found hmem v hv => (hfine path found hmem v hv).1)
    (fun path found hmem v hv => (hfine path found hmem v hv).2) (by rw [sampleValue_paths]; decide)
  rw [sampleValue_paths] at hfound
  refine ⟨inputs, hok, ?_, ?_, ?_⟩
  · rw [hfound _ [.number (.u64 1), .bool true, .null] (by simp)]
    simp [fieldElement]
    decide
  · rw [hfound _ [.string "7"] (by simp)]
    simp [fieldElement, hseven]
    decide
  · rw [hfound _ [] (by simp)]
    rfl

end

end PrivatePayments.Sdk.Witness

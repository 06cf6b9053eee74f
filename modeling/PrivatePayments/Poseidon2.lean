import Mathlib.Data.ZMod.Basic
import Mathlib.Data.List.GetD
import Mathlib.Data.Set.Function

/-! The BN254 scalar field and the Poseidon2 constructions shared by contracts,
circuits and SDK.  The permutation itself is a host function of the ledger (and
a constraint system in the circuits), so it stays a parameter; what is built
from it (feed-forward compression, domain-separated hashing) is fixed here. -/
namespace PrivatePayments
open List

def bn256Modulus : Nat :=
  0x30644e72e131a029b85045b68181585d2833e84879b9709143e1f593f0000001

abbrev F := ZMod bn256Modulus

/-- A ledger `U256`.  Values at or above `2 ^ 256` do not occur; every place
where a value enters the field checks it against the modulus. -/
abbrev U256 := Nat

instance : NeZero bn256Modulus := ⟨by decide⟩
instance : Fact (1 < bn256Modulus) := ⟨by decide⟩

/-- A numeral of the field is the cast of its number. -/
instance {n : Nat} : OfNat F (n + 2) := ⟨(n + 2 : Nat)⟩

/-- The first lane of the Poseidon2 permutation of each width in use. -/
structure Permutation where
  t2 : F → F → F
  t3 : F → F → F → F
  t4 : F → F → F → F → F

/-- Everything that is ever hashed: a compression of two nodes, or a hash of
two or three inputs with its domain separation. -/
inductive Query where
  | compress (left right : F)
  | hash2 (a b sep : F)
  | hash3 (a b c sep : F)
deriving DecidableEq

def Query.digest (P : Permutation) : Query → F
  | .compress left right => P.t2 left right + left
  | .hash2 a b sep => P.t3 a b sep
  | .hash3 a b c sep => P.t4 a b c sep

/-- `PoseidonCompress`: the permutation with its input fed forward. -/
abbrev compress (P : Permutation) (left right : F) : F := (Query.compress left right).digest P

abbrev hash2 (P : Permutation) (a b sep : F) : F := (Query.hash2 a b sep).digest P

abbrev hash3 (P : Permutation) (a b c sep : F) : F := (Query.hash3 a b c sep).digest P

/-- No two different inputs out of `Q` have one digest.  A hash into a finite
field cannot be injective on all inputs, so the property is always about the
inputs of one run. -/
def CollisionFree (P : Permutation) (Q : Set Query) : Prop := Set.InjOn (Query.digest P) Q

/-- No input out of `Q` hashes to the value `x`. -/
def Avoids (P : Permutation) (Q : Set Query) (x : F) : Prop := ∀ q ∈ Q, q.digest P ≠ x

/-- `get_zeroes`: the empty-subtree hashes of the levels 0 to 32. -/
def getZeroes : List U256 :=
  [0x25302288db99350344974183ce310d63b53abb9ef0f8575753eed36e0118f9ce,
   0x21f4ea2492ade006a8ee7fb764060a95a4eef5ca931e037bcdf05fc28067d008,
   0x0ebfb4d2f05bb6a473c9bff72586fec806f1ac237015c570d7c78249cf7d7740,
   0x066882a5dab186d4d63fa6600f9ea3d5cdfef2a2811c89731128a729d7e8b897,
   0x065db3148d8da5329beaec5042785c69f2ce0709e26d468bda1e255c599b5686,
   0x19926faa23b0737d467f9476f0f84b2968ff6666e16a23e4d44898f884504764,
   0x287c485a72ccc8d4d80692d97eb62c164953a0422791f6af6214a9a7ad2279c0,
   0x1f729e103e7d415f728dc945e3b6e2c40ac0cb369e532ba50a569790cdde2acc,
   0x1887e71f92217ffe86620e6ea5a71ad3521fade4c83203ffa3e838fe3d6e7203,
   0x295aa78e56c7a09a864f2f4175100095f3e7b9ef2a911af87cb0f3f7eef27700,
   0x0517032a796b0340dc5f9df28b1fd320daba24d5a45335a137167300ee368828,
   0x15fadf4947d2a40c7b439e83ea3c979ff725aad11c47aaaf892aab413db2dcdd,
   0x00acb7236b6d87f4875b3b9d1720a9e0682c70e4bc6d54edf61faa2bc93841d6,
   0x09836dd9054d560ae60ea6a8033404b3e40309f6ee4d170acb92e6667e86c775,
   0x2198946b17f9ba035d7ee728741ca5f4e5875cb6afb29684a6f5f9a82feec482,
   0x15d4b16830604dbe0b3212e31f9574787c15b0f54e5e24b080687e7a6ef6d455,
   0x2d07f73e04cf0a538037ba07561651ac979bb00e1705c75ddc9516ec4b8a6a76,
   0x02f8731aea289a6b401000487e8c6925c922407eeca58f2e18cc8ad9b6c5d13f,
   0x0a30053c1787c79782e60bc8d825e9e323c8a902f93aa5923c24d17d16db925c,
   0x0ea3058d9958ba5fe441fbd79dc968f449215ddee66146161afcf34c34bfa490,
   0x27b9937e47a65983ad50a5b7f6b9cf0542c91a8dfa1714cef89013438a06f9b7,
   0x2d347be4e547c5837c1b2172322628a0c48d668193196791b310674b0453c039,
   0x03f2461b35b892fc8c589706283d1083f4d2d66be4f97e461abaf2f06f89cffd,
   0x259b8fa0082cf6066f005a0a49006712fe1dcfef6a98d68f7ab445f88adb61a7,
   0x1980a5f7eac09daac7b2d2179ba1d970fb3f0213dd90613128f5d55863d84414,
   0x1cfcd94aabc23cacd4ccab22e87d2303200d09b03042b2047f03d2e0def57e85,
   0x102bdc81acbf8c52d35871a21ff27516ddbe6e31ef51740c49bd2ee2b1980c21,
   0x2fad84f388a263e714c7b39fb0dd24be6158b9e21480aa3a60778707889f76ad,
   0x2ace942d30becb369f1cfd025b5394d6ee4c97f55930048a18fb501128c87777,
   0x0930feccbf762a6b239acee2c369de9a31bd3e232c90c64af141945c1c415463,
   0x1a59e2ba55f1e829bca2c6316a9ccd08017d2e9bf532942c26d82365ca604b58,
   0x1a8e840c84e2fb5212d61f09ad5f91d6a70a83074e942772ef74b42d12a11f50,
   0x134b50df02e2ccb98b59af2c2c55d7a41ff102681730c42ba364dbff1271cf62]

def zeroLeaf : F := ((getZeroes.getD 0 0 : Nat) : F)

/-- The stated construction of the constants: each is the compression of the
one below with itself. -/
def ZeroesChain (P : Permutation) : Prop :=
  ∀ i, i < 32 → compress P (getZeroes.getD i 0 : Nat) (getZeroes.getD i 0 : Nat) =
    (getZeroes.getD (i + 1) 0 : Nat)

theorem getZeroes_length : getZeroes.length = 33 := by decide

theorem getZeroes_lt {i : Nat} (h : i < 33) : getZeroes.getD i 0 < bn256Modulus := by
  have hall : ∀ z ∈ getZeroes, z < bn256Modulus := by decide
  rw [getD_eq_getElem _ _ (by rw [getZeroes_length]; exact h)]
  exact hall _ (getElem_mem _)

section Queries
variable {P : Permutation} {Q : Set Query}

theorem CollisionFree.mono {R : Set Query} (h : CollisionFree P Q) (hsub : R ⊆ Q) :
    CollisionFree P R := Set.InjOn.mono hsub h

theorem Avoids.mono {R : Set Query} {x : F} (h : Avoids P Q x) (hsub : R ⊆ Q) : Avoids P R x :=
  fun q hq => h q (hsub hq)

theorem CollisionFree.compress_inj (h : CollisionFree P Q) {a b c d : F}
    (hl : .compress a b ∈ Q) (hr : .compress c d ∈ Q) (heq : compress P a b = compress P c d) : a = c ∧ b = d := by
  simpa using h hl hr heq

theorem CollisionFree.hash2_inj (h : CollisionFree P Q) {a b s a' b' s' : F}
    (hl : .hash2 a b s ∈ Q) (hr : .hash2 a' b' s' ∈ Q) (heq : hash2 P a b s = hash2 P a' b' s') :
    a = a' ∧ b = b' ∧ s = s' := by
  simpa using h hl hr heq

theorem CollisionFree.hash3_inj (h : CollisionFree P Q) {a b c s a' b' c' s' : F}
    (hl : .hash3 a b c s ∈ Q) (hr : .hash3 a' b' c' s' ∈ Q)
    (heq : hash3 P a b c s = hash3 P a' b' c' s') : a = a' ∧ b = b' ∧ c = c' ∧ s = s' := by
  simpa using h hl hr heq

end Queries

/-- Digests as decimal numerals: no collisions among small inputs. -/
def decimalPermutation : Permutation where
  t2 _ right := 1000 * right
  t3 a b _ := a + 10 * b
  t4 a b c _ := a + 10 * b + 100 * c

/-! Permutations given by a finite table of digests: the smallest functions that
meet the assumptions made about Poseidon2 on the inputs of a given run. -/

def tablePermutation (table : List (Query × F)) : Permutation where
  t2 left right := (table.lookup (.compress left right)).getD 0 - left
  t3 a b sep := (table.lookup (.hash2 a b sep)).getD 0
  t4 a b c sep := (table.lookup (.hash3 a b c sep)).getD 0

theorem digest_tablePermutation (table : List (Query × F)) (q : Query) :
    q.digest (tablePermutation table) = (table.lookup q).getD 0 := by
  cases q with
  | compress left right => exact sub_add_cancel _ _
  | hash2 a b sep => rfl
  | hash3 a b c sep => rfl

def zeroAt (i : Nat) : F := ((getZeroes.getD i 0 : Nat) : F)

def zeroesTable : List (Query × F) :=
  (List.range 32).map fun i => (.compress (zeroAt i) (zeroAt i), zeroAt (i + 1))

theorem zeroAt_inj {i j : Nat} (hi : i < 33) (hj : j < 33) (h : zeroAt i = zeroAt j) : i = j := by
  have hval := congrArg ZMod.val h
  rw [zeroAt, zeroAt, ZMod.val_natCast_of_lt (getZeroes_lt hi), ZMod.val_natCast_of_lt (getZeroes_lt hj)] at hval
  have hnodup : getZeroes.Nodup := by decide
  rw [getD_eq_getElem _ _ (by rwa [getZeroes_length]),
    getD_eq_getElem _ _ (by rwa [getZeroes_length])] at hval
  exact (hnodup.getElem_inj_iff).mp hval

theorem lookup_of_mem {α β : Type} [DecidableEq α] {table : List (α × β)} {key : α} {value : β}
    (hkeys : (table.map Prod.fst).Nodup) (h : (key, value) ∈ table) : table.lookup key = some value := by
  induction table with
  | nil => cases h
  | cons entry rest ih =>
    obtain ⟨k, v⟩ := entry
    rw [map_cons, nodup_cons] at hkeys
    rcases mem_cons.mp h with heq | hmem
    · cases heq
      simp
    · have hne : key ≠ k := by
        rintro rfl
        exact hkeys.1 (mem_map.mpr ⟨_, hmem, rfl⟩)
      rw [lookup_cons, beq_eq_false_iff_ne.mpr hne]
      exact ih hkeys.2 hmem

theorem zeroesTable_keys_nodup : (zeroesTable.map Prod.fst).Nodup := by
  rw [zeroesTable, map_map]
  apply nodup_range.map_on
  intro i hi j hj heq
  have hi := mem_range.mp hi
  have hj := mem_range.mp hj
  exact zeroAt_inj (by omega) (by omega) (Query.compress.inj heq).1

theorem zeroesTable_lookup {i : Nat} (hi : i < 32) :
    zeroesTable.lookup (.compress (zeroAt i) (zeroAt i)) = some (zeroAt (i + 1)) :=
  lookup_of_mem zeroesTable_keys_nodup (mem_map.mpr ⟨i, mem_range.mpr hi, rfl⟩)

theorem zeroesChain_tablePermutation (extra : List (Query × F)) :
    ZeroesChain (tablePermutation (zeroesTable ++ extra)) := by
  intro i hi
  change compress _ (zeroAt i) (zeroAt i) = zeroAt (i + 1)
  rw [compress, digest_tablePermutation, lookup_append, zeroesTable_lookup hi]
  rfl

section Table
variable {table : List (Query × F)}

section
variable (hkeys : (table.map Prod.fst).Nodup)
include hkeys

theorem digest_of_mem {q : Query} {d : F}
    (h : (q, d) ∈ table) : q.digest (tablePermutation table) = d := by
  rw [digest_tablePermutation, lookup_of_mem hkeys h]
  rfl

theorem collisionFree_tablePermutation (hdigests : (table.map Prod.snd).Nodup) :
    CollisionFree (tablePermutation table) { q | q ∈ table.map Prod.fst } := by
  intro q hq q' hq' heq
  obtain ⟨⟨_, d⟩, hmem, rfl⟩ := mem_map.mp hq
  obtain ⟨⟨_, d'⟩, hmem', rfl⟩ := mem_map.mp hq'
  rw [digest_of_mem hkeys hmem, digest_of_mem hkeys hmem'] at heq
  exact congrArg Prod.fst (inj_on_of_nodup_map hdigests hmem hmem' heq)

theorem avoids_tablePermutation {x : F} (hx : x ∉ table.map Prod.snd) :
    Avoids (tablePermutation table) { q | q ∈ table.map Prod.fst } x := by
  intro q hq heq
  obtain ⟨⟨_, d⟩, hmem, rfl⟩ := mem_map.mp hq
  rw [digest_of_mem hkeys hmem] at heq
  exact hx (mem_map.mpr ⟨_, hmem, heq⟩)

end

end Table

end PrivatePayments

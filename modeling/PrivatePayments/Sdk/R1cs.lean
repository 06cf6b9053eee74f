import Mathlib.Data.List.Perm.Basic
import PrivatePayments.Contracts.SorobanUtils
import PrivatePayments.Lib.Reader
import PrivatePayments.Sdk.Field

/-! `prover/src/r1cs.rs`: the parser of `.r1cs` files. -/
namespace PrivatePayments.Sdk.R1cs
open Lib
open List hiding Vector
open Contracts hiding bind_eq_ok okOr_eq_ok
open Reader (bind_eq_ok bind_of_ok pure_eq_ok failIf_eq_ok position_eq_ok okOr_eq_ok)

structure Term where
  wireId : UInt32
  coefficient : F
deriving DecidableEq

structure LinearCombination where
  terms : List Term
deriving DecidableEq

structure Constraint where
  a : LinearCombination
  b : LinearCombination
  c : LinearCombination
deriving DecidableEq

structure R1CS where
  numWires : UInt32
  numPubOut : UInt32
  numPubIn : UInt32
  numPrvIn : UInt32
  numPublic : UInt32
  constraints : List Constraint
deriving DecidableEq

structure R1CSHeader where
  fieldSize : UInt32
  numWires : UInt32
  numPubOut : UInt32
  numPubIn : UInt32
  numPrvIn : UInt32
  numConstraints : UInt32
deriving DecidableEq

inductive ParseError where
  | invalidMagic
  | unsupportedVersion (version : UInt32)
  | sectionSizeTooLarge
  | invalidCursorPosition
  | missingHeader
  | numPublicOverflow
  | unsupportedFieldSize (fieldSize : UInt32)
  | cursorPositionOverflow
  | cursorSkipOverflow
  | unexpectedEnd
deriving DecidableEq

/-- A slice's length fits a `usize` of `width` bits. -/
abbrev Slice (width : Nat) := { bytes : Bytes // bytes.length < 2 ^ width }

variable {width : Nat} (data : Slice width)

/-! `Cursor`. -/

def readBytes (n : Nat) : Reader ParseError Bytes := fun position =>
  match checkedAdd width position n with
  | none => .error .cursorPositionOverflow
  | some stop =>
    if stop > data.1.length then .error .unexpectedEnd
    else .ok ((data.1.drop position).take n, stop)

def readU32Le : Reader ParseError UInt32 := do
  let bytes ← readBytes data 4
  return .ofNat (fromLittleEndian bytes)

def readU64Le : Reader ParseError UInt64 := do
  let bytes ← readBytes data 8
  return .ofNat (fromLittleEndian bytes)

def skip (n : Nat) : Reader ParseError Unit := fun position =>
  match checkedAdd width position n with
  | none => .error .cursorSkipOverflow
  | some stop => if stop > data.1.length then .error .unexpectedEnd else .ok ((), stop)

/-! `R1CS::parse`. -/

def parseHeader : Reader ParseError R1CSHeader := do
  let fieldSize ← readU32Le data
  Reader.failIf (fieldSize ≠ 32) (.unsupportedFieldSize fieldSize)
  skip data fieldSize.toNat
  let numWires ← readU32Le data
  let numPubOut ← readU32Le data
  let numPubIn ← readU32Le data
  let numPrvIn ← readU32Le data
  let _ ← readU64Le data
  let numConstraints ← readU32Le data
  return { fieldSize, numWires, numPubOut, numPubIn, numPrvIn, numConstraints }

def parseTerm (fieldSize : UInt32) : Reader ParseError Term := do
  let wireId ← readU32Le data
  let coeffBytes ← readBytes data fieldSize.toNat
  return { wireId, coefficient := fromLeBytesModOrder coeffBytes }

def parseLinearCombination (fieldSize : UInt32) : Reader ParseError LinearCombination := do
  let numTerms ← readU32Le data
  let terms ← (parseTerm data fieldSize).times numTerms.toNat
  return { terms }

def parseConstraint (fieldSize : UInt32) : Reader ParseError Constraint := do
  let a ← parseLinearCombination data fieldSize
  let b ← parseLinearCombination data fieldSize
  let c ← parseLinearCombination data fieldSize
  return { a, b, c }

def parseConstraints (header : R1CSHeader) : Reader ParseError (List Constraint) :=
  (parseConstraint data header.fieldSize).times header.numConstraints.toNat

/-- What the first pass sees of a section.  `stop` is where the cursor stands after the section's own
arm, before the rest of the section is skipped; nothing computes with it. -/
structure Visit where
  sectionType : UInt32
  start : Nat
  size : Nat
  header : Option R1CSHeader
  stop : Nat
deriving DecidableEq

/-- All sections but the header are skipped. -/
def sectionArm (sectionType : UInt32) (size : Nat) : Reader ParseError (Option R1CSHeader) :=
  if sectionType = 1 then do
    let header ← parseHeader data
    return some header
  else do
    skip data size
    return none

/-- The cursor goes to the end of the section if it is not there yet. -/
def skipRemaining (consumed size : Nat) : Reader ParseError Unit :=
  if consumed < size then skip data (size - consumed) else pure ()

def readSection : Reader ParseError Visit := do
  let sectionType ← readU32Le data
  let sectionSize ← readU64Le data
  let start ← Reader.position
  Reader.failIf (sectionSize.toNat ≥ 2 ^ width) .sectionSizeTooLarge
  let size := sectionSize.toNat
  let header ← sectionArm data sectionType size
  let stop ← Reader.position
  Reader.failIf (stop < start) .invalidCursorPosition
  skipRemaining data (stop - start) size
  return { sectionType, start, size, header, stop }

structure Pass where
  header : Option R1CSHeader := none
  constraintsData : Option (Nat × Nat) := none

def Pass.visit (pass : Pass) (v : Visit) : Pass :=
  if v.sectionType = 1 then { pass with header := v.header }
  else if v.sectionType = 2 then { pass with constraintsData := some (v.start, v.size) }
  else pass

def magicBytes : Bytes := [0x72, 0x31, 0x63, 0x73]

def readNumSections : Reader ParseError UInt32 := do
  let magic ← readBytes data 4
  Reader.failIf (magic ≠ magicBytes) .invalidMagic
  let version ← readU32Le data
  Reader.failIf (version ≠ 1) (.unsupportedVersion version)
  readU32Le data

def firstPass : Reader ParseError (List Visit) := do
  let numSections ← readNumSections data
  (readSection data).times numSections.toNat

def readConstraints (constraintsData : Option (Nat × Nat)) (header : R1CSHeader) :
    Reader ParseError (List Constraint) :=
  match constraintsData with
  | some (start, _) => do
    Reader.seek start
    parseConstraints data header
  | none => pure []

def secondPass (pass : Pass) : Reader ParseError R1CS := do
  let header ← Reader.okOr pass.header .missingHeader
  let constraints ← readConstraints data pass.constraintsData header
  let numPublic ← Reader.okOr (checkedAdd 32 header.numPubOut.toNat header.numPubIn.toNat) .numPublicOverflow
  return {
    numWires := header.numWires
    numPubOut := header.numPubOut
    numPubIn := header.numPubIn
    numPrvIn := header.numPrvIn
    numPublic := .ofNat numPublic
    constraints }

def parse : Except ParseError R1CS :=
  ((firstPass data >>= fun visits => secondPass data (visits.foldl Pass.visit {})) 0).map Prod.fst

namespace File

/-- A coefficient has 32 bytes. -/
structure Term where
  wire : UInt32
  coefficient : Fin (2 ^ 256)

/-- Lengths are `u32`. -/
structure LinearCombination where
  terms : List Term
  fits : terms.length < 2 ^ 32

structure Constraint where
  a : LinearCombination
  b : LinearCombination
  c : LinearCombination

def Term.encode (t : Term) : Bytes := toLittleEndian 4 t.wire.toNat ++ toLittleEndian 32 t.coefficient

def LinearCombination.encode (l : LinearCombination) : Bytes :=
  toLittleEndian 4 l.terms.length ++ l.terms.flatMap Term.encode

def Constraint.encode (c : Constraint) : Bytes := c.a.encode ++ c.b.encode ++ c.c.encode

def Term.value (t : Term) : R1cs.Term where
  wireId := t.wire
  coefficient := (t.coefficient.val : F)

def LinearCombination.value (l : LinearCombination) : R1cs.LinearCombination where
  terms := l.terms.map Term.value

def Constraint.value (c : Constraint) : R1cs.Constraint where
  a := c.a.value
  b := c.b.value
  c := c.c.value

/-- The prime and the number of labels are not kept. -/
def encodeHeader (h : R1CSHeader) (prime : Bytes) (numLabels : UInt64) : Bytes :=
  toLittleEndian 4 h.fieldSize.toNat ++ (prime ++ (toLittleEndian 4 h.numWires.toNat ++
    (toLittleEndian 4 h.numPubOut.toNat ++ (toLittleEndian 4 h.numPubIn.toNat ++
      (toLittleEndian 4 h.numPrvIn.toNat ++ (toLittleEndian 8 numLabels.toNat ++
        toLittleEndian 4 h.numConstraints.toNat))))))

def HeaderLayout : Grammar UInt8 R1CSHeader := fun chunk h =>
  h.fieldSize = 32 ∧ ∃ prime numLabels, prime.length = 32 ∧ chunk = encodeHeader h prime numLabels

/-- A section declares the size of its body. -/
structure Section where
  sectionType : UInt32
  body : Bytes
  fits : body.length < 2 ^ 64

def Section.encode (s : Section) : Bytes :=
  toLittleEndian 4 s.sectionType.toNat ++ (toLittleEndian 8 s.body.length ++ s.body)

def preamble (count : UInt32) : Bytes := magicBytes ++ (toLittleEndian 4 1 ++ toLittleEndian 4 count.toNat)

def encode (count : UInt32) (sections : List Section) : Bytes :=
  preamble count ++ sections.flatMap Section.encode

end File

variable {n pos stop : Nat}

section Cursor

variable {data}

theorem skip_eq_ok {u : Unit} :
    skip data n pos = .ok (u, stop) ↔ pos + n ≤ data.1.length ∧ stop = pos + n := by
  have hlt := data.2
  unfold skip checkedAdd
  split_ifs <;> grind

theorem readBytes_eq_ok {bytes : Bytes} : readBytes data n pos = .ok (bytes, stop) ↔
    pos + n ≤ data.1.length ∧ bytes = (data.1.drop pos).take n ∧ stop = pos + n := by
  have hlt := data.2
  unfold readBytes checkedAdd
  split_ifs <;> grind

theorem length_slice {n pos : Nat} (h : pos + n ≤ data.1.length) : ((data.1.drop pos).take n).length = n := by
  rw [length_take, length_drop]
  omega

theorem skip_accepts (n : Nat) : (skip data n).Accepts data.1 fun chunk _ => chunk.length = n := by
  intro pos hpos u stop
  rw [skip_eq_ok]
  constructor
  · rintro ⟨hle, rfl⟩
    exact ⟨_, length_slice hle, .of_le hle, by rw [length_slice hle]⟩
  · rintro ⟨chunk, rfl, hstands, rfl⟩
    exact ⟨hstands.le, rfl⟩

theorem readBytes_accepts (n : Nat) :
    (readBytes data n).Accepts data.1 fun chunk bytes => chunk = bytes ∧ bytes.length = n := by
  intro pos hpos bytes stop
  rw [readBytes_eq_ok]
  constructor
  · rintro ⟨hle, rfl, rfl⟩
    exact ⟨_, ⟨rfl, length_slice hle⟩, .of_le hle, by rw [length_slice hle]⟩
  · rintro ⟨_, ⟨rfl, rfl⟩, hstands, rfl⟩
    exact ⟨hstands.le, hstands.eq_take.symm, rfl⟩

theorem readUInt_accepts {β : Type} {n : Nat} {ofNat : Nat → β} {toNat : β → Nat} (hlt : ∀ v, toNat v < 256 ^ n)
    (hto : ∀ m < 256 ^ n, toNat (ofNat m) = m) (hof : ∀ v, ofNat (toNat v) = v) :
    (readBytes data n >>= fun bytes => pure (ofNat (fromLittleEndian bytes))).Accepts data.1
      fun chunk v => chunk = toLittleEndian n (toNat v) := by
  refine ((readBytes_accepts n).bind fun bytes => .pure (ofNat (fromLittleEndian bytes))).congr ?_
  intro chunk v
  constructor
  · rintro ⟨bytes, _, _, rfl, ⟨rfl, rfl⟩, rfl, rfl⟩
    rw [hto _ (fromLittleEndian_lt bytes), toLittleEndian_fromLittleEndian, append_nil]
  · rintro rfl
    refine ⟨_, [], toLittleEndian n (toNat v), (append_nil _).symm, ⟨rfl, toLittleEndian_length n _⟩, rfl, ?_⟩
    rw [fromLittleEndian_toLittleEndian (hlt v), hof]

theorem readU32Le_accepts : (readU32Le data).Accepts data.1 fun chunk v => chunk = toLittleEndian 4 v.toNat :=
  readUInt_accepts UInt32.toNat_lt (fun _ => UInt32.toNat_ofNat_of_lt) fun _ => UInt32.ofNat_toNat

theorem readU64Le_accepts : (readU64Le data).Accepts data.1 fun chunk v => chunk = toLittleEndian 8 v.toNat :=
  readUInt_accepts UInt64.toNat_lt (fun _ => UInt64.toNat_ofNat_of_lt) fun _ => UInt64.ofNat_toNat

end Cursor

section Layout
open File

variable {data}

theorem parseHeader_accepts : (parseHeader data).Accepts data.1 HeaderLayout := by
  refine (readU32Le_accepts.bind fun fieldSize => Reader.Accepts.failIf.bind fun _ =>
    (skip_accepts fieldSize.toNat).bind fun _ => readU32Le_accepts.bind fun numWires =>
    readU32Le_accepts.bind fun numPubOut => readU32Le_accepts.bind fun numPubIn =>
    readU32Le_accepts.bind fun numPrvIn => readU64Le_accepts.bind fun _ =>
    readU32Le_accepts.bind fun numConstraints => .pure (R1CSHeader.mk fieldSize numWires numPubOut numPubIn
      numPrvIn numConstraints)).congr ?_
  intro chunk h
  constructor
  · rintro ⟨_, _, fieldSize, rfl, rfl, _, _, _, rfl, ⟨rfl, hfield⟩, prime, _, _, rfl, hprime, _, _, numWires, rfl,
      rfl, _, _, numPubOut, rfl, rfl, _, _, numPubIn, rfl, rfl, _, _, numPrvIn, rfl, rfl, _, _, numLabels, rfl, rfl,
      _, _, numConstraints, rfl, rfl, rfl, rfl⟩
    have hfield := not_not.mp hfield
    subst hfield
    refine ⟨rfl, prime, numLabels, hprime, ?_⟩
    rw [encodeHeader, nil_append, append_nil]
  · obtain ⟨fieldSize, numWires, numPubOut, numPubIn, numPrvIn, numConstraints⟩ := h
    rintro ⟨hfield, prime, numLabels, hprime, rfl⟩
    cases hfield
    refine ⟨_, _, _, rfl, rfl, [], _, (), rfl, ⟨rfl, not_not.mpr rfl⟩, prime, _, (), rfl, hprime, _, _, numWires, rfl,
      rfl, _, _, numPubOut, rfl, rfl, _, _, numPubIn, rfl, rfl, _, _, numPrvIn, rfl, rfl, _, _, numLabels, rfl, rfl,
      _, [], numConstraints, (append_nil _).symm, rfl, rfl, rfl⟩

theorem parseTerm_accepts : (parseTerm data 32).Accepts data.1 (.encoded Term.encode Term.value) := by
  refine (readU32Le_accepts.bind fun wireId => (readBytes_accepts 32).bind fun bytes =>
    .pure (R1cs.Term.mk wireId (fromLeBytesModOrder bytes))).congr ?_
  intro chunk t
  constructor
  · rintro ⟨_, _, wireId, rfl, rfl, bytes, _, _, rfl, ⟨rfl, hlength⟩, rfl, rfl⟩
    have hlt := fromLittleEndian_lt bytes
    rw [hlength] at hlt
    have hbytes := toLittleEndian_fromLittleEndian bytes
    rw [hlength] at hbytes
    refine ⟨⟨wireId, ⟨fromLittleEndian bytes, hlt⟩⟩, ?_, rfl⟩
    rw [Term.encode, hbytes, append_nil]
  · rintro ⟨⟨wireId, coefficient⟩, rfl, rfl⟩
    have hlt : coefficient.val < 256 ^ 32 := coefficient.2
    refine ⟨_, _, wireId, rfl, rfl, toLittleEndian 32 coefficient, [], _, (append_nil _).symm,
      ⟨rfl, toLittleEndian_length 32 _⟩, rfl, ?_⟩
    rw [Term.value, fromLeBytesModOrder, fromLittleEndian_toLittleEndian hlt]

theorem parseLinearCombination_accepts : (parseLinearCombination data 32).Accepts data.1
    (.encoded LinearCombination.encode LinearCombination.value) := by
  refine (readU32Le_accepts.bind fun numTerms => (parseTerm_accepts.times numTerms.toNat).bind fun terms =>
    .pure (R1cs.LinearCombination.mk terms)).congr ?_
  intro chunk l
  constructor
  · rintro ⟨_, _, numTerms, rfl, rfl, second, _, terms, rfl, hterms, rfl, rfl⟩
    obtain ⟨raw, hlength, rfl, rfl⟩ := (Grammar.times_encoded _ _ _ _ _).mp hterms
    rw [← hlength, append_nil]
    exact ⟨⟨raw, hlength ▸ numTerms.toNat_lt⟩, rfl, rfl⟩
  · rintro ⟨⟨raw, hfits⟩, rfl, rfl⟩
    have hnum : (UInt32.ofNat raw.length).toNat = raw.length := UInt32.toNat_ofNat_of_lt hfits
    exact ⟨_, _, .ofNat raw.length, rfl, congrArg _ hnum.symm, raw.flatMap Term.encode, [], raw.map Term.value,
      (append_nil _).symm, (Grammar.times_encoded _ _ _ _ _).mpr ⟨raw, hnum.symm, rfl, rfl⟩, rfl, rfl⟩

theorem parseConstraint_accepts :
    (parseConstraint data 32).Accepts data.1 (.encoded Constraint.encode Constraint.value) := by
  refine (parseLinearCombination_accepts.bind fun a => parseLinearCombination_accepts.bind fun b =>
    parseLinearCombination_accepts.bind fun c => .pure (R1cs.Constraint.mk a b c)).congr ?_
  intro chunk l
  constructor
  · rintro ⟨_, _, _, rfl, ⟨a, rfl, rfl⟩, _, _, _, rfl, ⟨b, rfl, rfl⟩, _, _, _, rfl, ⟨c, rfl, rfl⟩, rfl, rfl⟩
    refine ⟨⟨a, b, c⟩, ?_, rfl⟩
    rw [Constraint.encode, append_nil, append_assoc]
  · rintro ⟨⟨a, b, c⟩, rfl, rfl⟩
    exact ⟨_, _, _, append_assoc _ _ _, ⟨a, rfl, rfl⟩, _, _, _, rfl, ⟨b, rfl, rfl⟩, _, [], _,
      (append_nil _).symm, ⟨c, rfl, rfl⟩, rfl, rfl⟩

theorem parseConstraints_accepts {header : R1CSHeader} (hfield : header.fieldSize = 32) :
    (parseConstraints data header).Accepts data.1 fun chunk cs => ∃ raw : List File.Constraint,
      raw.length = header.numConstraints.toNat ∧ chunk = raw.flatMap Constraint.encode ∧
        raw.map Constraint.value = cs := by
  rw [parseConstraints, hfield]
  exact (parseConstraint_accepts.times _).congr (Grammar.times_encoded _ _ _)

end Layout

variable {visits : List Visit}

variable {sections : List File.Section} {sectionType : UInt32} {v : Visit} {count : UInt32}

variable {pos : Nat} {chunk : Bytes} {stop : Nat}

section Sections
open File

theorem length_encodeHeader (h : R1CSHeader) {prime : Bytes} (numLabels : UInt64) (hprime : prime.length = 32) :
    (encodeHeader h prime numLabels).length = 64 := by
  simp [encodeHeader, hprime]

theorem File.HeaderLayout.length {h : R1CSHeader} (hlayout : HeaderLayout chunk h) :
    chunk.length = 64 := by
  obtain ⟨_, prime, numLabels, hprime, rfl⟩ := hlayout
  exact length_encodeHeader h numLabels hprime

structure Visited (pos : Nat) (v : Visit) (stop : Nat) : Prop where
  declared : StandsAt data.1 pos (toLittleEndian 4 v.sectionType.toNat ++ toLittleEndian 8 v.size)
  start : v.start = pos + 12
  size : v.size < 2 ^ 64
  header : v.sectionType = 1 → ∃ h chunk, v.header = some h ∧ HeaderLayout chunk h ∧
    StandsAt data.1 v.start chunk ∧ v.stop = v.start + 64
  other : v.sectionType ≠ 1 → v.header = none ∧ v.stop = v.start + v.size
  ends : stop = max v.stop (v.start + v.size)
  le : stop ≤ data.1.length

variable {data}

variable {header : Option R1CSHeader}

theorem sectionArm_eq_ok {size pos stop : Nat}
    (hpos : pos ≤ data.1.length) : sectionArm data sectionType size pos = .ok (header, stop) ↔
      (sectionType = 1 → ∃ h chunk, header = some h ∧ HeaderLayout chunk h ∧ StandsAt data.1 pos chunk ∧
        stop = pos + 64) ∧ (sectionType ≠ 1 → header = none ∧ pos + size ≤ data.1.length ∧ stop = pos + size) := by
  unfold sectionArm
  split
  · rename_i htype
    rw [bind_eq_ok]
    constructor
    · rintro ⟨h, _, hparse, hreturn⟩
      obtain ⟨rfl, rfl⟩ := pure_eq_ok.mp hreturn
      obtain ⟨chunk, hlayout, hstands, rfl⟩ := (parseHeader_accepts pos hpos _ _).mp hparse
      exact ⟨fun _ => ⟨h, chunk, rfl, hlayout, hstands, by rw [hlayout.length]⟩, fun hne => absurd htype hne⟩
    · rintro ⟨hheader, -⟩
      obtain ⟨h, chunk, rfl, hlayout, hstands, rfl⟩ := hheader htype
      refine ⟨h, _, (parseHeader_accepts pos hpos _ _).mpr ⟨chunk, hlayout, hstands, rfl⟩, ?_⟩
      rw [hlayout.length]
      rfl
  · rename_i htype
    rw [bind_eq_ok]
    constructor
    · rintro ⟨_, _, hskip, hreturn⟩
      obtain ⟨rfl, rfl⟩ := pure_eq_ok.mp hreturn
      obtain ⟨hle, rfl⟩ := skip_eq_ok.mp hskip
      exact ⟨fun heq => absurd heq htype, fun _ => ⟨rfl, hle, rfl⟩⟩
    · rintro ⟨-, hother⟩
      obtain ⟨rfl, hle, rfl⟩ := hother htype
      exact ⟨(), _, skip_eq_ok.mpr ⟨hle, rfl⟩, rfl⟩

theorem sectionArm_le {size pos stop : Nat}
    (hpos : pos ≤ data.1.length) (h : sectionArm data sectionType size pos = .ok (header, stop)) :
    stop ≤ data.1.length := by
  obtain ⟨hheader, hother⟩ := (sectionArm_eq_ok hpos).mp h
  by_cases htype : sectionType = 1
  · obtain ⟨_, chunk, -, hlayout, hstands, rfl⟩ := hheader htype
    have hle := hstands.le
    rwa [hlayout.length] at hle
  · obtain ⟨-, hle, rfl⟩ := hother htype
    exact hle

theorem skipRemaining_eq_ok {consumed size pos stop : Nat} {u : Unit} (hpos : pos ≤ data.1.length) :
    skipRemaining data consumed size pos = .ok (u, stop) ↔
      pos + (size - consumed) ≤ data.1.length ∧ stop = pos + (size - consumed) := by
  unfold skipRemaining
  split
  · exact skip_eq_ok
  · rw [pure_eq_ok]
    constructor
    · rintro ⟨-, rfl⟩
      omega
    · rintro ⟨-, rfl⟩
      exact ⟨rfl, by omega⟩

variable {pos stop : Nat}

theorem readSection_eq_ok (hpos : pos ≤ data.1.length) :
    readSection data pos = .ok (v, stop) ↔ Visited data pos v stop := by
  unfold readSection
  constructor
  · intro h
    obtain ⟨sectionType, _, hread, h⟩ := bind_eq_ok.mp h
    obtain ⟨_, rfl, htype, rfl⟩ := (readU32Le_accepts pos hpos _ _).mp hread
    obtain ⟨sectionSize, _, hread', h⟩ := bind_eq_ok.mp h
    obtain ⟨_, rfl, hsize, rfl⟩ := (readU64Le_accepts _ htype.le _ _).mp hread'
    obtain ⟨start, _, hstart, h⟩ := bind_eq_ok.mp h
    obtain ⟨rfl, rfl⟩ := position_eq_ok.mp hstart
    obtain ⟨_, _, hfits, h⟩ := bind_eq_ok.mp h
    obtain ⟨-, rfl⟩ := failIf_eq_ok.mp hfits
    obtain ⟨header, mid, harm, h⟩ := bind_eq_ok.mp h
    obtain ⟨_, _, hmid, h⟩ := bind_eq_ok.mp h
    obtain ⟨rfl, rfl⟩ := position_eq_ok.mp hmid
    obtain ⟨_, _, hcheck, h⟩ := bind_eq_ok.mp h
    obtain ⟨hforth, rfl⟩ := failIf_eq_ok.mp hcheck
    obtain ⟨_, _, hrest, h⟩ := bind_eq_ok.mp h
    obtain ⟨rfl, rfl⟩ := pure_eq_ok.mp h
    have hmid := sectionArm_le hsize.le harm
    obtain ⟨hheader, hother⟩ := (sectionArm_eq_ok hsize.le).mp harm
    obtain ⟨hle, rfl⟩ := (skipRemaining_eq_ok hmid).mp hrest
    simp only [toLittleEndian_length] at hheader hother hforth hle ⊢
    exact {
      declared := StandsAt.append_iff.mpr ⟨htype, hsize⟩
      start := rfl
      size := sectionSize.toNat_lt
      header := hheader
      other := fun hne => ⟨(hother hne).1, (hother hne).2.2⟩
      ends := by dsimp only; omega
      le := hle }
  · rintro ⟨hdeclared, hstart, hsize, hheader, hother, rfl, hle⟩
    obtain ⟨sectionType, start, size, header, mid⟩ := v
    dsimp only at hdeclared hstart hsize hheader hother hle ⊢
    obtain ⟨htype, hdeclared⟩ := StandsAt.append_iff.mp hdeclared
    have hnum : (UInt64.ofNat size).toNat = size := UInt64.toNat_ofNat_of_lt hsize
    have hfits : ¬(UInt64.ofNat size).toNat ≥ 2 ^ width := by
      have hlt := data.2
      omega
    have harm : sectionArm data sectionType size start = .ok (header, mid) := by
      refine (sectionArm_eq_ok ?_).mpr ⟨hheader, fun hne => ⟨(hother hne).1, ?_, (hother hne).2⟩⟩ <;> omega
    have hforth : start ≤ mid := by
      by_cases hone : sectionType = 1
      · obtain ⟨_, _, -, -, -, rfl⟩ := hheader hone
        omega
      · rw [(hother hone).2]
        omega
    have hrest : skipRemaining data (mid - start) size mid = .ok ((), max mid (start + size)) := by
      rw [skipRemaining_eq_ok (by omega)]
      omega
    rw [bind_of_ok ((readU32Le_accepts pos hpos sectionType _).mpr ⟨_, rfl, htype, rfl⟩),
      bind_of_ok ((readU64Le_accepts _ htype.le (.ofNat size) _).mpr ⟨_, rfl, by rwa [hnum], rfl⟩)]
    simp only [toLittleEndian_length, hnum, ← hstart]
    rw [bind_of_ok (position_eq_ok.mpr ⟨rfl, rfl⟩),
      bind_of_ok (failIf_eq_ok.mpr ⟨hfits, rfl⟩), bind_of_ok harm,
      bind_of_ok (position_eq_ok.mpr ⟨rfl, rfl⟩),
      bind_of_ok (failIf_eq_ok.mpr ⟨not_lt.mpr hforth, rfl⟩),
      bind_of_ok hrest]
    rfl

structure Covers (data : Bytes) (v : Visit) (s : File.Section) : Prop where
  sectionType : v.sectionType = s.sectionType
  size : v.size = s.body.length
  body : StandsAt data v.start s.body
  header : s.sectionType = 1 → ∃ h, v.header = some h ∧ HeaderLayout (s.body.take 64) h
  inside : v.stop ≤ v.start + v.size

theorem toLittleEndian_inj {k n m : Nat} (hn : n < 256 ^ k) (hm : m < 256 ^ k)
    (h : toLittleEndian k n = toLittleEndian k m) : n = m := by
  rw [← fromLittleEndian_toLittleEndian hn, h, fromLittleEndian_toLittleEndian hm]

theorem length_section (s : File.Section) : s.encode.length = 12 + s.body.length := by
  simp only [Section.encode, length_append, toLittleEndian_length]
  omega

variable {s : File.Section}

theorem standsAt_section {bytes : Bytes} : StandsAt bytes pos s.encode ↔
    StandsAt bytes pos (toLittleEndian 4 s.sectionType.toNat ++ toLittleEndian 8 s.body.length) ∧
      StandsAt bytes (pos + 12) s.body := by
  rw [Section.encode, ← append_assoc, StandsAt.append_iff]
  simp only [length_append, toLittleEndian_length]

theorem declared_inj {t t' : UInt32} {n n' : Nat} (hn : n < 2 ^ 64) (hn' : n' < 2 ^ 64)
    (h : toLittleEndian 4 t.toNat ++ toLittleEndian 8 n = toLittleEndian 4 t'.toNat ++ toLittleEndian 8 n') :
    t = t' ∧ n = n' := by
  obtain ⟨htype, hsize⟩ := append_inj h (by simp only [toLittleEndian_length])
  exact ⟨UInt32.toNat.inj (toLittleEndian_inj t.toNat_lt t'.toNat_lt htype), toLittleEndian_inj hn hn' hsize⟩

theorem Visited.covers (h : Visited data pos v stop)
    (hs : StandsAt data.1 pos s.encode) (hlong : s.sectionType = 1 → 64 ≤ s.body.length) :
    Covers data.1 v s ∧ stop = pos + s.encode.length := by
  obtain ⟨hdeclared, hbody⟩ := standsAt_section.mp hs
  obtain ⟨htype, hsize⟩ := declared_inj h.size s.fits (h.declared.unique hdeclared (by simp))
  rw [← h.start] at hbody
  have hinside : v.stop ≤ v.start + v.size := by
    by_cases hone : v.sectionType = 1
    · obtain ⟨_, _, -, -, -, hstop⟩ := h.header hone
      have hlong := hlong (htype ▸ hone)
      omega
    · rw [(h.other hone).2]
  refine ⟨⟨htype, hsize, hbody, ?_, hinside⟩, ?_⟩
  · intro hone
    obtain ⟨header, chunk, hheader, hlayout, hchunk, -⟩ := h.header (htype.trans hone)
    have htake : s.body.take 64 = chunk := by
      rw [← hbody.eq_take, take_take, Nat.min_eq_left (hlong hone), ← hlayout.length, hchunk.eq_take]
    exact ⟨header, hheader, htake ▸ hlayout⟩
  · rw [h.ends, h.start, length_section]
    have hstart := h.start
    omega

theorem Visited.exists_section (h : Visited data pos v stop) (hinside : v.stop ≤ v.start + v.size) :
    ∃ s : File.Section, StandsAt data.1 pos s.encode ∧ (s.sectionType = 1 → 64 ≤ s.body.length) := by
  have hle : v.start + v.size ≤ data.1.length := (le_max_right _ _).trans (h.ends ▸ h.le)
  have hlength := length_slice hle
  refine ⟨⟨v.sectionType, (data.1.drop v.start).take v.size, by rw [hlength]; exact h.size⟩, ?_, ?_⟩
  · rw [standsAt_section]
    dsimp only
    rw [hlength, ← h.start]
    exact ⟨h.declared, .of_le hle⟩
  · intro hone
    obtain ⟨_, _, -, -, -, hstop⟩ := h.header hone
    dsimp only
    omega

theorem exists_visited (hs : StandsAt data.1 pos s.encode)
    (hheader : s.sectionType = 1 → ∃ h, HeaderLayout s.body h) : ∃ v, Visited data pos v (pos + s.encode.length) := by
  obtain ⟨hdeclared, hbody⟩ := standsAt_section.mp hs
  have hle := hs.le
  rw [length_section] at hle ⊢
  by_cases hone : s.sectionType = 1
  · obtain ⟨h, hlayout⟩ := hheader hone
    have hlength := hlayout.length
    refine ⟨⟨s.sectionType, pos + 12, s.body.length, some h, pos + 12 + 64⟩, hdeclared, rfl, s.fits,
      fun _ => ⟨h, s.body, rfl, hlayout, hbody, rfl⟩, fun hne => absurd hone hne, ?_, hle⟩
    dsimp only
    omega
  · refine ⟨⟨s.sectionType, pos + 12, s.body.length, none, pos + 12 + s.body.length⟩, hdeclared, rfl, s.fits,
      fun heq => absurd heq hone, fun _ => ⟨rfl, rfl⟩, ?_, hle⟩
    dsimp only
    omega


theorem sections_covered
    (hpos : pos ≤ data.1.length) (h : (readSection data).times sections.length pos = .ok (visits, stop))
    (hs : StandsAt data.1 pos (sections.flatMap Section.encode))
    (hlong : ∀ s ∈ sections, s.sectionType = 1 → 64 ≤ s.body.length) :
    List.Forall₂ (Covers data.1) visits sections := by
  induction sections generalizing pos visits with
  | nil =>
    obtain ⟨rfl, -⟩ := pure_eq_ok.mp h
    exact .nil
  | cons s rest ih =>
    obtain ⟨v, others, mid, rfl, hfirst, hothers⟩ := Reader.times_succ_eq_ok.mp h
    rw [flatMap_cons, StandsAt.append_iff] at hs
    have hvisited := (readSection_eq_ok hpos).mp hfirst
    obtain ⟨hcovers, rfl⟩ := hvisited.covers hs.1 (hlong s mem_cons_self)
    exact .cons hcovers (ih hs.1.le hothers hs.2 fun s' hs' => hlong s' (mem_cons_of_mem s hs'))

theorem exists_sections (hpos : pos ≤ data.1.length)
    (h : (readSection data).times n pos = .ok (visits, stop)) (hinside : ∀ v ∈ visits, v.stop ≤ v.start + v.size) :
    ∃ sections : List File.Section, sections.length = n ∧
      StandsAt data.1 pos (sections.flatMap Section.encode) ∧
        ∀ s ∈ sections, s.sectionType = 1 → 64 ≤ s.body.length := by
  induction n generalizing pos visits with
  | zero => exact ⟨[], rfl, .nil hpos, by simp⟩
  | succ n ih =>
    obtain ⟨v, others, mid, rfl, hfirst, hothers⟩ := Reader.times_succ_eq_ok.mp h
    have hvisited := (readSection_eq_ok hpos).mp hfirst
    obtain ⟨s, hs, hlong⟩ := hvisited.exists_section (hinside v mem_cons_self)
    obtain ⟨-, rfl⟩ := hvisited.covers hs hlong
    obtain ⟨rest, rfl, hrest, hlongRest⟩ := ih hs.le hothers fun v' hv' => hinside v' (mem_cons_of_mem v hv')
    refine ⟨s :: rest, rfl, ?_, forall_mem_cons.mpr ⟨hlong, hlongRest⟩⟩
    rw [flatMap_cons, StandsAt.append_iff]
    exact ⟨hs, hrest⟩

theorem exists_visits (hpos : pos ≤ data.1.length)
    (hs : StandsAt data.1 pos (sections.flatMap Section.encode))
    (hheader : ∀ s ∈ sections, s.sectionType = 1 → ∃ h, HeaderLayout s.body h) :
    ∃ visits stop, (readSection data).times sections.length pos = .ok (visits, stop) := by
  induction sections generalizing pos with
  | nil => exact ⟨[], pos, rfl⟩
  | cons s rest ih =>
    rw [flatMap_cons, StandsAt.append_iff] at hs
    obtain ⟨v, hv⟩ := exists_visited hs.1 (hheader s mem_cons_self)
    obtain ⟨others, stop, hothers⟩ := ih hs.1.le hs.2 fun s' hs' => hheader s' (mem_cons_of_mem s hs')
    exact ⟨v :: others, stop, Reader.times_succ_eq_ok.mpr ⟨v, others, _, rfl, (readSection_eq_ok hpos).mpr hv, hothers⟩⟩

theorem readNumSections_accepts :
    (readNumSections data).Accepts data.1 fun chunk count => chunk = preamble count := by
  refine ((readBytes_accepts 4).bind fun magic => Reader.Accepts.failIf.bind fun _ =>
    readU32Le_accepts.bind fun version => Reader.Accepts.failIf.bind fun _ => readU32Le_accepts).congr ?_
  intro chunk count
  constructor
  · rintro ⟨_, _, magic, rfl, ⟨rfl, -⟩, _, _, _, rfl, ⟨rfl, hmagic⟩, _, _, version, rfl, rfl, _, _, _, rfl,
      ⟨rfl, hversion⟩, rfl⟩
    rw [not_not.mp hmagic, not_not.mp hversion]
    rfl
  · rintro rfl
    exact ⟨_, _, magicBytes, rfl, ⟨rfl, rfl⟩, [], _, (), rfl, ⟨rfl, not_not.mpr rfl⟩, _, _, 1, rfl, rfl, [], _, (),
      rfl, ⟨rfl, not_not.mpr rfl⟩, rfl⟩

theorem length_preamble (count : UInt32) : (preamble count).length = 12 := by
  simp [preamble, magicBytes]

theorem le_of_preamble {bytes : Bytes} (h : StandsAt bytes 0 (preamble count)) :
    12 ≤ bytes.length := by
  have hle := h.le
  rwa [length_preamble, Nat.zero_add] at hle

theorem firstPass_eq_ok : firstPass data 0 = .ok (visits, stop) ↔
    ∃ count : UInt32, StandsAt data.1 0 (preamble count) ∧
      (readSection data).times count.toNat 12 = .ok (visits, stop) := by
  rw [firstPass, bind_eq_ok]
  constructor
  · rintro ⟨count, _, hread, htimes⟩
    obtain ⟨_, rfl, hstands, rfl⟩ := (readNumSections_accepts 0 (Nat.zero_le _) _ _).mp hread
    rw [length_preamble] at htimes
    exact ⟨count, hstands, htimes⟩
  · rintro ⟨count, hstands, htimes⟩
    refine ⟨count, _, (readNumSections_accepts 0 (Nat.zero_le _) _ _).mpr ⟨_, rfl, hstands, rfl⟩, ?_⟩
    rw [length_preamble, htimes]

end Sections

variable {r : R1CS} {s : File.Section}

section Passes
open File

def lastVisit (visits : List Visit) (sectionType : UInt32) : Option Visit :=
  (visits.filter fun v => v.sectionType = sectionType).getLast?

def File.lastSection (sections : List Section) (sectionType : UInt32) : Option Section :=
  (sections.filter fun s => s.sectionType = sectionType).getLast?

theorem lastVisit_append (visits : List Visit) (v : Visit) (sectionType : UInt32) :
    lastVisit (visits ++ [v]) sectionType = if v.sectionType = sectionType then some v else lastVisit visits sectionType := by
  unfold lastVisit
  rw [filter_append]
  split
  · rename_i h
    simp [h]
  · rename_i h
    simp [h]

theorem foldl_visit (visits : List Visit) : visits.foldl Pass.visit {} =
    { header := (lastVisit visits 1).bind (·.header)
      constraintsData := (lastVisit visits 2).map fun v => (v.start, v.size) } := by
  induction visits using List.reverseRecOn with
  | nil => rfl
  | append_singleton visits v ih =>
    rw [foldl_append, foldl_cons, foldl_nil, ih, Pass.visit, lastVisit_append, lastVisit_append]
    by_cases hone : v.sectionType = 1
    · have htwo : ¬v.sectionType = 2 := by
        rw [hone]
        decide
      simp [hone]
    · by_cases htwo : v.sectionType = 2
      · simp [htwo]
      · simp [hone, htwo]

variable {data}
variable {sections : List File.Section}

section
variable (h : List.Forall₂ (Covers data.1) visits sections)
include h

theorem lastSection_covered (sectionType : UInt32) :
    Option.Rel (Covers data.1) (lastVisit visits sectionType) (lastSection sections sectionType) := by
  have hfilter : List.Forall₂ (Covers data.1) (visits.filter fun v => v.sectionType = sectionType)
      (sections.filter fun s => s.sectionType = sectionType) := by
    refine rel_filter (fun v s hcovers => ?_) h
    simp only [hcovers.sectionType]
  have hreverse := forall₂_reverse_iff.mpr hfilter
  rw [lastVisit, lastSection, getLast?_eq_head?_reverse, getLast?_eq_head?_reverse]
  generalize List.reverse _ = l at hreverse
  generalize List.reverse _ = l' at hreverse
  cases hreverse with
  | nil => exact .none
  | cons hhead _ => exact .some hhead

theorem exists_lastVisit (hs : lastSection sections sectionType = some s) :
    ∃ v, lastVisit visits sectionType = some v ∧ Covers data.1 v s := by
  have hlast := lastSection_covered h sectionType
  rw [hs] at hlast
  generalize lastVisit visits sectionType = last at hlast
  cases hlast with
  | some hcovers => exact ⟨_, rfl, hcovers⟩

theorem exists_lastSection (hv : lastVisit visits sectionType = some v) :
    ∃ s, lastSection sections sectionType = some s ∧ Covers data.1 v s := by
  have hlast := lastSection_covered h sectionType
  rw [hv] at hlast
  generalize lastSection sections sectionType = last at hlast
  cases hlast with
  | some hcovers => exact ⟨_, rfl, hcovers⟩

end

theorem readConstraints_some (place : Nat × Nat) (header : R1CSHeader) (pos : Nat) :
    readConstraints data (some place) header pos = parseConstraints data header place.1 := rfl

def R1CSHeader.system (header : R1CSHeader) (constraints : List R1cs.Constraint) : R1CS where
  numWires := header.numWires
  numPubOut := header.numPubOut
  numPubIn := header.numPubIn
  numPrvIn := header.numPrvIn
  numPublic := .ofNat (header.numPubOut.toNat + header.numPubIn.toNat)
  constraints := constraints

theorem parse_eq_ok : parse data = .ok r ↔ ∃ visits stop header constraints,
    firstPass data 0 = .ok (visits, stop) ∧ (visits.foldl Pass.visit {}).header = some header ∧
      (∃ stop', readConstraints data (visits.foldl Pass.visit {}).constraintsData header stop =
        .ok (constraints, stop')) ∧
      header.numPubOut.toNat + header.numPubIn.toNat < 2 ^ 32 ∧ r = header.system constraints := by
  have hmap : parse data = .ok r ↔ ∃ stop,
      (firstPass data >>= fun visits => secondPass data (visits.foldl Pass.visit {})) 0 = .ok (r, stop) := by
    rw [parse]
    cases (firstPass data >>= fun visits => secondPass data (visits.foldl Pass.visit {})) 0 with
    | error e => simp [Except.map]
    | ok result => simp [Except.map, Prod.ext_iff, eq_comm]
  simp only [hmap, secondPass, bind_eq_ok, okOr_eq_ok, pure_eq_ok]
  constructor
  · rintro ⟨_, visits, stop, hfirst, header, _, ⟨hheader, rfl⟩, constraints, stop', hconstraints, _, _,
      ⟨hpublic, rfl⟩, rfl, rfl⟩
    obtain ⟨hlt, hsum⟩ := Option.ite_none_right_eq_some.mp hpublic
    cases hsum
    exact ⟨visits, stop, header, constraints, hfirst, hheader, ⟨stop', hconstraints⟩, hlt, rfl⟩
  · rintro ⟨visits, stop, header, constraints, hfirst, hheader, ⟨stop', hconstraints⟩, hlt, rfl⟩
    exact ⟨stop', visits, stop, hfirst, header, stop, ⟨hheader, rfl⟩, constraints, stop', hconstraints, _, stop',
      ⟨if_pos hlt, rfl⟩, rfl, rfl⟩

theorem HeaderLayout.unique {h h' : R1CSHeader} (hstands : StandsAt data.1 pos chunk)
    (hlayout : HeaderLayout chunk h) (hlayout' : HeaderLayout chunk h') : h = h' := by
  have hpos : pos ≤ data.1.length := (Nat.le_add_right _ _).trans hstands.le
  have hparse := (parseHeader_accepts pos hpos h _).mpr ⟨chunk, hlayout, hstands, rfl⟩
  have hparse' := (parseHeader_accepts pos hpos h' _).mpr ⟨chunk, hlayout', hstands, rfl⟩
  rw [hparse] at hparse'
  cases hparse'
  rfl

end Passes

section Inverse
open File

/-- Public signals are wires. -/
structure System where
  numWires : UInt32
  numPubOut : UInt32
  numPubIn : UInt32
  numPrvIn : UInt32
  constraints : List File.Constraint
  fits : constraints.length < 2 ^ 32
  publicWires : numPubOut.toNat + numPubIn.toNat ≤ numWires.toNat

def System.value (sys : System) : R1CS where
  numWires := sys.numWires
  numPubOut := sys.numPubOut
  numPubIn := sys.numPubIn
  numPrvIn := sys.numPrvIn
  numPublic := sys.numPubOut + sys.numPubIn
  constraints := sys.constraints.map Constraint.value

def System.header (sys : System) : R1CSHeader where
  fieldSize := 32
  numWires := sys.numWires
  numPubOut := sys.numPubOut
  numPubIn := sys.numPubIn
  numPrvIn := sys.numPrvIn
  numConstraints := .ofNat sys.constraints.length

/-- An encoding of a system: one header, one constraints section, the wire map and unknown sections. -/
structure Encoding (sys : System) where
  prime : Vector UInt8 32
  labels : Vector UInt64 sys.numWires.toNat
  numLabels : UInt64
  header : File.Section
  constraints : File.Section
  wireMap : File.Section
  unknown : List File.Section
  sections : List File.Section
  count : UInt32
  header_eq : header.sectionType = 1 ∧ header.body = encodeHeader sys.header prime.toList numLabels
  constraints_eq : constraints.sectionType = 2 ∧ constraints.body = sys.constraints.flatMap Constraint.encode
  wireMap_eq : wireMap.sectionType = 3 ∧ wireMap.body = labels.toList.flatMap fun l => toLittleEndian 8 l.toNat
  unknown_type : ∀ s ∈ unknown, s.sectionType ≠ 1 ∧ s.sectionType ≠ 2 ∧ s.sectionType ≠ 3
  order : sections.Perm (header :: constraints :: wireMap :: unknown)
  count_eq : count.toNat = sections.length

namespace Encoding
variable {sys : System} (encoding : Encoding sys)

def bytes : Bytes := File.encode encoding.count encoding.sections

theorem lastSection_header : lastSection encoding.sections 1 = some encoding.header := by
  have hperm := encoding.order.filter fun s => s.sectionType = 1
  have hunknown : encoding.unknown.filter (fun s => s.sectionType = 1) = [] := by
    simpa using fun s hs => (encoding.unknown_type s hs).1
  simp [encoding.header_eq.1, encoding.constraints_eq.1, encoding.wireMap_eq.1, hunknown] at hperm
  rw [lastSection, hperm]
  rfl

theorem lastSection_constraints : lastSection encoding.sections 2 = some encoding.constraints := by
  have hperm := encoding.order.filter fun s => s.sectionType = 2
  have hunknown : encoding.unknown.filter (fun s => s.sectionType = 2) = [] := by
    simpa using fun s hs => (encoding.unknown_type s hs).2.1
  simp [encoding.header_eq.1, encoding.constraints_eq.1, encoding.wireMap_eq.1, hunknown] at hperm
  rw [lastSection, hperm]
  rfl

theorem headerLayout : HeaderLayout encoding.header.body sys.header := by
  rw [encoding.header_eq.2]
  exact ⟨rfl, _, _, by simp, rfl⟩

theorem headerLayout_of_mem (hs : s ∈ encoding.sections) (hone : s.sectionType = 1) :
    HeaderLayout s.body sys.header := by
  have hmem := encoding.order.mem_iff.mp hs
  simp only [mem_cons] at hmem
  rcases hmem with rfl | rfl | rfl | hmem
  · exact encoding.headerLayout
  · rw [encoding.constraints_eq.1] at hone
    cases hone
  · rw [encoding.wireMap_eq.1] at hone
    cases hone
  · exact absurd hone (encoding.unknown_type s hmem).1

end Encoding

theorem standsAt_encode {bytes : Bytes} :
    StandsAt bytes 0 (File.encode count sections) ↔
      StandsAt bytes 0 (preamble count) ∧ StandsAt bytes 12 (sections.flatMap Section.encode) := by
  rw [File.encode, StandsAt.append_iff, length_preamble]

theorem parse_inverts_encoding (sys : System) (encoding : Encoding sys) (data : Slice width)
    (hdata : data.1 = encoding.bytes) : parse data = .ok sys.value := by
  have hstands : StandsAt data.1 0 (File.encode encoding.count encoding.sections) :=
    ⟨[], [], rfl, by rw [append_nil, hdata]; rfl⟩
  obtain ⟨hpreamble, hsections⟩ := standsAt_encode.mp hstands
  have hpos : 12 ≤ data.1.length := (Nat.le_add_right _ _).trans hsections.le
  obtain ⟨visits, stop, htimes⟩ := exists_visits hpos hsections
    fun s hs hone => ⟨sys.header, encoding.headerLayout_of_mem hs hone⟩
  have hfirst : firstPass data 0 = .ok (visits, stop) :=
    firstPass_eq_ok.mpr ⟨encoding.count, hpreamble, encoding.count_eq ▸ htimes⟩
  have hcovered := sections_covered hpos htimes hsections
    fun s hs hone => (encoding.headerLayout_of_mem hs hone).length.ge
  have hheader : (visits.foldl Pass.visit {}).header = some sys.header := by
    obtain ⟨v, hv, hcovers⟩ := exists_lastVisit hcovered encoding.lastSection_header
    obtain ⟨h, hh, hlayout⟩ := hcovers.header encoding.header_eq.1
    rw [← encoding.headerLayout.length, take_length] at hlayout
    rw [foldl_visit, hv, Option.bind_some, hh, HeaderLayout.unique hcovers.body hlayout encoding.headerLayout]
  have hconstraints : ∃ stop', readConstraints data (visits.foldl Pass.visit {}).constraintsData sys.header stop =
      .ok (sys.constraints.map Constraint.value, stop') := by
    obtain ⟨v, hv, hcovers⟩ := exists_lastVisit hcovered encoding.lastSection_constraints
    have hbody := hcovers.body
    rw [encoding.constraints_eq.2] at hbody
    have hnum : sys.constraints.length = sys.header.numConstraints.toNat := (UInt32.toNat_ofNat_of_lt sys.fits).symm
    rw [foldl_visit, hv, Option.map_some, readConstraints_some]
    exact ⟨_, (parseConstraints_accepts rfl _ ((Nat.le_add_right _ _).trans hbody.le) _ _).mpr
      ⟨_, ⟨sys.constraints, hnum, rfl, rfl⟩, hbody, rfl⟩⟩
  have hpublic : sys.numPubOut.toNat + sys.numPubIn.toNat < 2 ^ 32 := sys.publicWires.trans_lt sys.numWires.toNat_lt
  refine parse_eq_ok.mpr ⟨visits, stop, sys.header, _, hfirst, hheader, hconstraints, hpublic, ?_⟩
  have hsum : UInt32.ofNat (sys.numPubOut.toNat + sys.numPubIn.toNat) = sys.numPubOut + sys.numPubIn := by
    rw [UInt32.ofNat_add, UInt32.ofNat_toNat, UInt32.ofNat_toNat]
  simp only [System.value, R1CSHeader.system, System.header, hsum]

/-- Wire 1 times itself is twice wire 2, with an unknown section first and the header last. -/
def squareSystem : System where
  numWires := 3
  numPubOut := 1
  numPubIn := 0
  numPrvIn := 1
  constraints := [⟨⟨[⟨1, 1⟩], by decide⟩, ⟨[⟨1, 1⟩], by decide⟩, ⟨[⟨2, 2⟩], by decide⟩⟩]
  fits := by decide
  publicWires := by decide

def squareEncoding : Encoding squareSystem where
  prime := .replicate 32 7
  labels := ⟨#[0, 1, 2], rfl⟩
  numLabels := 3
  header := ⟨1, encodeHeader squareSystem.header (List.replicate 32 7) 3, by decide⟩
  constraints := ⟨2, squareSystem.constraints.flatMap Constraint.encode, by decide⟩
  wireMap := ⟨3, [0, 1, 2].flatMap fun l => toLittleEndian 8 l, by decide⟩
  unknown := [⟨9, [4, 4], by decide⟩]
  sections := [⟨9, [4, 4], by decide⟩, ⟨2, squareSystem.constraints.flatMap Constraint.encode, by decide⟩,
    ⟨3, [0, 1, 2].flatMap fun l => toLittleEndian 8 l, by decide⟩,
    ⟨1, encodeHeader squareSystem.header (List.replicate 32 7) 3, by decide⟩]
  count := 4
  header_eq := ⟨rfl, rfl⟩
  constraints_eq := ⟨rfl, rfl⟩
  wireMap_eq := ⟨rfl, by decide⟩
  unknown_type := by decide
  order := by
    refine .trans (@perm_append_comm _ [_] [_, _, _]) ?_
    exact (@perm_append_comm _ [_, _] [_]).append_right [_]
  count_eq := rfl

def squareFile : Slice 32 := ⟨squareEncoding.bytes, by decide +kernel⟩

theorem parse_square : parse squareFile = .ok squareSystem.value :=
  parse_inverts_encoding squareSystem squareEncoding squareFile rfl

end Inverse

section Inside
open File

/-- Every header ends inside its section, and the constraints end where the section they are read from
ends.  The cursor only moves forward, so what is read lies between where it starts and where it stops. -/
def StaysInside (data : Slice width) : Prop :=
  ∃ visits stop, firstPass data 0 = .ok (visits, stop) ∧
    (∀ v ∈ visits, v.header.isSome → v.sectionType = 1 ∧ v.stop ≤ v.start + v.size) ∧
    ∀ header start size constraints stop',
      (visits.foldl Pass.visit {}).header = some header →
      (visits.foldl Pass.visit {}).constraintsData = some (start, size) →
      parseConstraints data header start = .ok (constraints, stop') →
        (∃ v ∈ visits, v.sectionType = 2 ∧ v.start = start ∧ v.size = size) ∧ stop' = start + size

/-- A file of the format, up to bytes behind it: a header section has room for a header, and the last
constraints section consists of as many constraints as the last header announces. -/
def WellFormed (bytes : Bytes) : Prop :=
  ∃ (count : UInt32) (sections : List File.Section) (trailing : Bytes), sections.length = count.toNat ∧
    bytes = File.encode count sections ++ trailing ∧
    (∀ s ∈ sections, s.sectionType = 1 → 64 ≤ s.body.length) ∧
    ∀ h c, lastSection sections 1 = some h → lastSection sections 2 = some c →
      ∃ (header : R1CSHeader) (constraints : List File.Constraint), HeaderLayout (h.body.take 64) header ∧
        constraints.length = header.numConstraints.toNat ∧ c.body = constraints.flatMap Constraint.encode


theorem forall_visited (hpos : pos ≤ data.1.length)
    (h : (readSection data).times n pos = .ok (visits, stop)) : ∀ v ∈ visits, ∃ pos stop, Visited data pos v stop := by
  induction n generalizing pos visits with
  | zero =>
    obtain ⟨rfl, -⟩ := pure_eq_ok.mp h
    simp
  | succ n ih =>
    obtain ⟨v, others, mid, rfl, hfirst, hothers⟩ := Reader.times_succ_eq_ok.mp h
    have hvisited := (readSection_eq_ok hpos).mp hfirst
    exact forall_mem_cons.mpr ⟨⟨pos, mid, hvisited⟩, ih hvisited.le hothers⟩

variable {data}

theorem Visited.inside {pos stop : Nat} (h : Visited data pos v stop)
    (hheader : v.header.isSome → v.stop ≤ v.start + v.size) : v.stop ≤ v.start + v.size := by
  by_cases hone : v.sectionType = 1
  · obtain ⟨_, _, hsome, -⟩ := h.header hone
    exact hheader (by rw [hsome]; rfl)
  · rw [(h.other hone).2]

theorem Visited.sectionType_of_header {pos stop : Nat} (h : Visited data pos v stop)
    (hheader : v.header.isSome) : v.sectionType = 1 := by
  by_contra hone
  rw [(h.other hone).1] at hheader
  cases hheader

theorem firstPass_covered {trailing : Bytes}
    (hdata : data.1 = File.encode count sections ++ trailing) (hcount : sections.length = count.toNat)
    (hlong : ∀ s ∈ sections, s.sectionType = 1 → 64 ≤ s.body.length)
    (hfirst : firstPass data 0 = .ok (visits, stop)) : List.Forall₂ (Covers data.1) visits sections := by
  obtain ⟨hpreamble, hsections⟩ := standsAt_encode.mp (⟨[], trailing, rfl, hdata⟩ : StandsAt data.1 0 _)
  obtain ⟨count', hpreamble', htimes⟩ := firstPass_eq_ok.mp hfirst
  have heq : count' = count := by
    have hbytes := hpreamble'.unique hpreamble (by simp [preamble])
    simp only [preamble, append_cancel_left_eq] at hbytes
    exact UInt32.toNat.inj (toLittleEndian_inj count'.toNat_lt count.toNat_lt hbytes)
  rw [heq, ← hcount] at htimes
  exact sections_covered ((Nat.le_add_right _ _).trans hsections.le) htimes hsections hlong

theorem lastVisit_mem
    (h : lastVisit visits sectionType = some v) : v ∈ visits ∧ v.sectionType = sectionType := by
  have hmem := mem_filter.mp (mem_of_getLast? h)
  exact ⟨hmem.1, by simpa using hmem.2⟩

theorem StaysInside.wellFormed (hparse : parse data = .ok r) (h : StaysInside data) :
    WellFormed data.1 := by
  obtain ⟨visits, stop, hfirst, hheaders, hends⟩ := h
  obtain ⟨count, hpreamble, htimes⟩ := firstPass_eq_ok.mp hfirst
  have hpos : 12 ≤ data.1.length := le_of_preamble hpreamble
  have hinside : ∀ v ∈ visits, v.stop ≤ v.start + v.size := by
    intro v hv
    obtain ⟨_, _, hvisited⟩ := forall_visited data hpos htimes v hv
    exact hvisited.inside fun hsome => (hheaders v hv hsome).2
  obtain ⟨sections, hcount, hsections, hlong⟩ := exists_sections hpos htimes hinside
  obtain ⟨front, trailing, hfront, hdata⟩ := standsAt_encode.mpr ⟨hpreamble, hsections⟩
  rw [length_eq_zero_iff.mp hfront, nil_append] at hdata
  refine ⟨count, sections, trailing, hcount, hdata, hlong, ?_⟩
  intro h c hh hc
  have hcovered := firstPass_covered hdata hcount hlong hfirst
  obtain ⟨hv, hlast, hcovers⟩ := exists_lastVisit hcovered hh
  obtain ⟨cv, hlast', hcovers'⟩ := exists_lastVisit hcovered hc
  have htype : h.sectionType = 1 := hcovers.sectionType ▸ (lastVisit_mem hlast).2
  obtain ⟨header, hsome, hlayout⟩ := hcovers.header htype
  obtain ⟨_, _, header', constraints, hfirst', hheader, ⟨stop', hread⟩, -, -⟩ := parse_eq_ok.mp hparse
  rw [hfirst] at hfirst'
  cases hfirst'
  have hdataEq : (visits.foldl Pass.visit {}).constraintsData = some (cv.start, cv.size) := by
    rw [foldl_visit, hlast', Option.map_some]
  have hheaderEq : header' = header := by
    rw [foldl_visit, hlast, Option.bind_some, hsome] at hheader
    exact (Option.some.inj hheader).symm
  rw [hdataEq, readConstraints_some, hheaderEq] at hread
  rw [hheaderEq] at hheader
  have hstop := (hends header cv.start cv.size constraints stop' hheader hdataEq hread).2
  have hpos' : cv.start ≤ data.1.length := (Nat.le_add_right _ _).trans hcovers'.body.le
  obtain ⟨chunk, ⟨raw, hnum, rfl, -⟩, hchunk, hstop'⟩ := (parseConstraints_accepts hlayout.1 _ hpos' _ _).mp hread
  refine ⟨header, raw, hlayout, hnum, hcovers'.body.unique hchunk ?_⟩
  rw [← hcovers'.size]
  omega

theorem WellFormed.staysInside (hparse : parse data = .ok r) (h : WellFormed data.1) :
    StaysInside data := by
  obtain ⟨count, sections, trailing, hcount, hdata, hlong, hlast⟩ := h
  obtain ⟨visits, stop, _, _, hfirst, -⟩ := parse_eq_ok.mp hparse
  have hcovered := firstPass_covered hdata hcount hlong hfirst
  have hinside : ∀ v ∈ visits, v.stop ≤ v.start + v.size :=
    ((forall₂_and_left visits sections).mp (hcovered.imp fun v s hcovers => ⟨hcovers.inside, hcovers⟩)).1
  refine ⟨visits, stop, hfirst, ?_, ?_⟩
  · intro v hv hsome
    obtain ⟨count', hpreamble, htimes⟩ := firstPass_eq_ok.mp hfirst
    have hpos : 12 ≤ data.1.length := le_of_preamble hpreamble
    obtain ⟨_, _, hvisited⟩ := forall_visited data hpos htimes v hv
    exact ⟨hvisited.sectionType_of_header hsome, hinside v hv⟩
  · intro header start size constraints stop' hheader hplace hread
    rw [foldl_visit] at hheader hplace
    obtain ⟨hv, hlastHeader, hsome⟩ := Option.bind_eq_some_iff.mp hheader
    obtain ⟨cv, hlastConstraints, hpair⟩ := Option.map_eq_some_iff.mp hplace
    cases hpair
    obtain ⟨h, hh, hcovers⟩ := exists_lastSection hcovered hlastHeader
    obtain ⟨c, hc, hcovers'⟩ := exists_lastSection hcovered hlastConstraints
    refine ⟨⟨cv, (lastVisit_mem hlastConstraints).1, (lastVisit_mem hlastConstraints).2, rfl, rfl⟩, ?_⟩
    obtain ⟨header', hsome', hlayout'⟩ := hcovers.header (hcovers.sectionType ▸ (lastVisit_mem hlastHeader).2)
    obtain ⟨announced, raw, hlayout, hnum, hbody⟩ := hlast h c hh hc
    have hstands : StandsAt data.1 hv.start (h.body.take 64) := by
      obtain ⟨front, rest, hfront, hbytes⟩ := hcovers.body
      refine ⟨front, h.body.drop 64 ++ rest, hfront, ?_⟩
      rw [hbytes, append_assoc, append_assoc, ← append_assoc (h.body.take 64), take_append_drop]
    have hheaderEq : announced = header := by
      rw [hsome] at hsome'
      rw [Option.some.inj hsome']
      exact HeaderLayout.unique hstands hlayout hlayout'
    rw [hheaderEq] at hlayout hnum
    have hpos : cv.start ≤ data.1.length := (Nat.le_add_right _ _).trans hcovers'.body.le
    have hparse := (parseConstraints_accepts hlayout.1 _ hpos _ _).mpr ⟨_, ⟨raw, hnum, hbody, rfl⟩, hcovers'.body, rfl⟩
    rw [hread] at hparse
    cases hparse
    rw [hcovers'.size]

theorem parse_inside_iff (data : Slice width) (r : R1CS) (hparse : parse data = .ok r) :
    StaysInside data ↔ WellFormed data.1 :=
  ⟨StaysInside.wellFormed hparse, WellFormed.staysInside hparse⟩

theorem Encoding.wellFormed {sys : System} (encoding : Encoding sys) : WellFormed encoding.bytes := by
  refine ⟨encoding.count, encoding.sections, [], encoding.count_eq.symm, (append_nil _).symm, ?_, ?_⟩
  · intro s hs hone
    exact (encoding.headerLayout_of_mem hs hone).length.ge
  · intro h c hh hc
    cases encoding.lastSection_header.symm.trans hh
    cases encoding.lastSection_constraints.symm.trans hc
    refine ⟨sys.header, sys.constraints, ?_, (UInt32.toNat_ofNat_of_lt sys.fits).symm, encoding.constraints_eq.2⟩
    rw [← encoding.headerLayout.length, take_length]
    exact encoding.headerLayout

theorem square_accepted : parse squareFile = .ok squareSystem.value := by
  decide +kernel

theorem square_stays_inside : StaysInside squareFile ∧ WellFormed squareFile.1 :=
  ⟨(parse_inside_iff squareFile squareSystem.value square_accepted).mpr squareEncoding.wellFormed,
    squareEncoding.wellFormed⟩

/-- A header section that declares no bytes, with a header behind it. -/
def overrunBytes : Bytes :=
  magicBytes ++ toLittleEndian 4 1 ++ toLittleEndian 4 1 ++ toLittleEndian 4 1 ++ toLittleEndian 8 0 ++
    toLittleEndian 4 32 ++ List.replicate 32 0 ++ toLittleEndian 4 1 ++ List.replicate 24 0

def overrun : Slice 64 := ⟨overrunBytes, by decide⟩

theorem overrun_accepted : parse overrun = .ok ⟨1, 0, 0, 0, 0, []⟩ := by
  decide +kernel

theorem overrun_visits : firstPass overrun 0 = .ok ([⟨1, 24, 0, some ⟨32, 1, 0, 0, 0, 0⟩, 88⟩], 88) := by
  decide +kernel

theorem header_overruns : parse overrun = .ok ⟨1, 0, 0, 0, 0, []⟩ ∧ ¬StaysInside overrun := by
  refine ⟨overrun_accepted, ?_⟩
  rintro ⟨visits, stop, hfirst, hheaders, -⟩
  rw [overrun_visits] at hfirst
  cases hfirst
  have hinside := (hheaders _ mem_cons_self rfl).2
  simp at hinside

end Inside

end PrivatePayments.Sdk.R1cs

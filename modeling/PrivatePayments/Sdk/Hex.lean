import PrivatePayments.Contracts.SorobanUtils
import PrivatePayments.Sdk.Field

/-! `prover/src/serialization.rs`: scalars as hexadecimal texts.  A text is its list of
characters. -/
namespace PrivatePayments.Sdk
open List

inductive HexError where
  | tooLong
  | invalidHexCharacter
  | indexOverflow
deriving DecidableEq

namespace Hex

def strip0x : List Char → List Char
  | '0' :: 'x' :: hex => hex
  | hex => hex

def asBytes (text : List Char) : Bytes := text.flatMap String.utf8EncodeChar

/-- `{:0>64}`, which counts characters. -/
def padded (hex : List Char) : List Char := List.replicate (64 - hex.length) '0' ++ hex

def chunks {α : Type} : List α → List (List α)
  | first :: second :: rest => [first, second] :: chunks rest
  | [last] => [[last]]
  | [] => []

/-- `str::from_utf8`, for at most two bytes. -/
def isUtf8 : Bytes → Bool
  | [lead, next] =>
      lead.toNat < 0x80 && next.toNat < 0x80 ||
        0xC2 ≤ lead.toNat && lead.toNat ≤ 0xDF && 0x80 ≤ next.toNat && next.toNat < 0xC0
  | chunk => chunk.all fun byte => byte.toNat < 0x80

def toDigit (code : Nat) : Option Nat :=
  if 48 ≤ code ∧ code ≤ 57 then some (code - 48)
  else if 97 ≤ code ∧ code ≤ 102 then some (code - 87)
  else if 65 ≤ code ∧ code ≤ 70 then some (code - 55)
  else none

def digits (src : Bytes) : Option Nat :=
  src.foldlM (fun result byte => (toDigit byte.toNat).map (result * 16 + ·)) 0

/-- `u8::from_str_radix(src, 16)`, for at most two bytes: the value cannot overflow, and a plus
sign may precede the digits. -/
def fromStrRadix : Bytes → Option UInt8
  | [] => none
  | first :: rest =>
      if first.toNat = 43 ∧ rest ≠ [] then (digits rest).map .ofNat
      else (digits (first :: rest)).map .ofNat

def parseChunk (chunk : Bytes) : Option UInt8 :=
  if isUtf8 chunk then fromStrRadix chunk else none

/-- The loop over the pieces, which fills the buffer from its end. -/
def parseChunks : Nat → List Bytes → Bytes → Except HexError Bytes
  | _, [], bytes => .ok bytes
  | i, chunk :: rest, bytes =>
      if !isUtf8 chunk then .error .invalidHexCharacter
      else if 31 < i then .error .indexOverflow
      else match fromStrRadix chunk with
        | none => .error .invalidHexCharacter
        | some byte => parseChunks (i + 1) rest (bytes.set (31 - i) byte)

end Hex

open Hex

def hexToScalar (hex : List Char) : Except HexError F := do
  let hex := strip0x hex
  if 64 < (asBytes hex).length then .error .tooLong
  else
    let bytes ← parseChunks 0 (chunks (asBytes (padded hex))) (List.replicate 32 0)
    return fromLeBytesModOrder bytes

def hexByte (byte : UInt8) : List Char := [Nat.digitChar (byte.toNat / 16), Nat.digitChar (byte.toNat % 16)]

def scalarToHex (scalar : F) : List Char := '0' :: 'x' :: (toLeBytes scalar).reverse.flatMap hexByte

variable {bytes : Bytes} {c : Char}

variable {hex : List Char} {count : Nat}

namespace Hex

theorem chunks_length {α : Type} (items : List α) : (chunks items).length = (items.length + 1) / 2 := by
  fun_induction chunks items with
  | case1 first second rest ih =>
    simp only [length_cons, ih]
    omega
  | case2 last => simp
  | case3 => simp

theorem chunks_map {α β : Type} (f : α → β) (items : List α) :
    chunks (items.map f) = (chunks items).map (List.map f) := by
  fun_induction chunks items with
  | case1 first second rest ih => simp [chunks, ih]
  | case2 last => rfl
  | case3 => rfl

variable {bytes out : Bytes}

theorem parseChunks_cons {i : Nat} {chunk : Bytes} {rest : List Bytes} :
    parseChunks i (chunk :: rest) bytes = .ok out ↔
      i ≤ 31 ∧ ∃ byte, parseChunk chunk = some byte ∧
        parseChunks (i + 1) rest (bytes.set (31 - i) byte) = .ok out := by
  rw [parseChunks, parseChunk]
  by_cases hutf : isUtf8 chunk = true
  · by_cases hi : 31 < i
    · simp [hutf, hi, not_le.mpr hi]
    · cases hradix : fromStrRadix chunk <;> simp [hutf, hi, not_lt.mp hi]
  · simp [hutf]

theorem set_take_drop (hlen : bytes.length = 32) {i count : Nat} (hi : i + 1 + count ≤ 32)
    (byte : UInt8) (vals : Bytes) :
    (bytes.set (31 - i) byte).take (32 - (i + 1 + count)) ++ vals ++ (bytes.set (31 - i) byte).drop (32 - (i + 1)) =
      bytes.take (32 - (i + 1 + count)) ++ (vals ++ [byte]) ++ bytes.drop (32 - i) := by
  have htake : (bytes.set (31 - i) byte).take (32 - (i + 1 + count)) = bytes.take (32 - (i + 1 + count)) := by
    rw [take_set, set_eq_of_length_le (by rw [length_take]; omega)]
  have hdrop : (bytes.set (31 - i) byte).drop (32 - (i + 1)) = byte :: bytes.drop (32 - i) := by
    rw [show 32 - (i + 1) = 31 - i by omega, show 32 - i = 31 - i + 1 by omega, drop_set,
      if_neg (lt_irrefl _), Nat.sub_self, drop_eq_getElem_cons (by omega), set_cons_zero]
  rw [htake, hdrop]
  simp

theorem parseChunks_eq_ok {i : Nat} {pieces : List Bytes} (hi : i ≤ 32)
    (hlen : bytes.length = 32) :
    parseChunks i pieces bytes = .ok out ↔ i + pieces.length ≤ 32 ∧
      ∃ vals, List.Forall₂ (fun chunk byte => parseChunk chunk = some byte) pieces vals ∧
        out = bytes.take (32 - (i + pieces.length)) ++ vals.reverse ++ bytes.drop (32 - i) := by
  induction pieces generalizing i bytes with
  | nil => simp [parseChunks, hi, eq_comm]
  | cons chunk rest ih =>
    rw [parseChunks_cons, length_cons]
    constructor
    · rintro ⟨hle, byte, hbyte, hrest⟩
      rw [ih (by omega) (by rw [length_set, hlen])] at hrest
      obtain ⟨hbound, vals, hvals, rfl⟩ := hrest
      refine ⟨by omega, byte :: vals, .cons hbyte hvals, ?_⟩
      rw [set_take_drop hlen hbound, reverse_cons, Nat.add_right_comm, add_assoc]
    · rintro ⟨hbound, vals, hvals, rfl⟩
      cases hvals with
      | @cons _ byte _ vals hbyte hvals =>
        refine ⟨by omega, byte, hbyte, ?_⟩
        rw [ih (by omega) (by rw [length_set, hlen])]
        refine ⟨by omega, vals, hvals, ?_⟩
        rw [set_take_drop hlen (by omega), reverse_cons, Nat.add_right_comm i 1, add_assoc i]

def IsHexDigit (c : Char) : Prop := (toDigit c.toNat).isSome

instance (c : Char) : Decidable (IsHexDigit c) := inferInstanceAs (Decidable ((toDigit c.toNat).isSome = true))

def denoted (text : List Char) : Nat := text.foldl (fun n c => n * 16 + (toDigit c.toNat).getD 0) 0

def byteOf (c : Char) : UInt8 := .ofNat c.toNat

theorem byteOf_toNat (h : c.toNat < 128) : (byteOf c).toNat = c.toNat := by
  rw [byteOf, UInt8.toNat_ofNat']
  omega

theorem toDigit_lt {code digit : Nat} (h : toDigit code = some digit) : code < 128 ∧ digit < 16 := by
  unfold toDigit at h
  split at h
  · cases h
    omega
  · split at h
    · cases h
      omega
    · split at h
      · cases h
        omega
      · cases h

theorem encode_ascii (h : c.toNat < 128) : String.utf8EncodeChar c = [byteOf c] := by
  have hle : c.val.toNat ≤ 127 := Nat.le_of_lt_succ h
  rw [String.utf8EncodeChar, if_pos hle]
  rfl

variable {text : List Char}

theorem asBytes_ascii (h : ∀ c ∈ text, c.toNat < 128) : asBytes text = text.map byteOf := by
  induction text with
  | nil => rfl
  | cons c text ih =>
    obtain ⟨hc, htext⟩ := forall_mem_cons.mp h
    rw [asBytes, flatMap_cons, encode_ascii hc, map_cons, ← ih htext]
    rfl

theorem encode_length (c : Char) :
    1 ≤ (String.utf8EncodeChar c).length ∧ ((String.utf8EncodeChar c).length ≤ 1 → c.toNat < 128) := by
  have hle : c.val.toNat ≤ 127 ∨ ¬c.val.toNat ≤ 127 := em _
  rw [String.utf8EncodeChar]
  rcases hle with hle | hgt
  · rw [if_pos hle]
    exact ⟨le_refl _, fun _ => Nat.lt_succ_of_le hle⟩
  · rw [if_neg hgt]
    split
    · simp
    · split <;> simp

theorem length_asBytes (text : List Char) :
    text.length ≤ (asBytes text).length ∧ ((asBytes text).length ≤ text.length → ∀ c ∈ text, c.toNat < 128) := by
  induction text with
  | nil => exact ⟨le_refl _, fun _ => nofun⟩
  | cons c text ih =>
    obtain ⟨hone, hascii⟩ := encode_length c
    rw [asBytes, flatMap_cons, length_append, length_cons, ← asBytes]
    refine ⟨by omega, fun hle => forall_mem_cons.mpr ⟨hascii (by omega), ih.2 (by omega)⟩⟩

/-- Two characters are read as a byte; the first one may be a plus sign. -/
def ReadsPair (first second : Char) (byte : UInt8) : Prop :=
  ∃ low, toDigit second.toNat = some low ∧
    (first = '+' ∧ byte = .ofNat low ∨ ∃ high, toDigit first.toNat = some high ∧ byte = .ofNat (high * 16 + low))

def Reads : List Char → Bytes → Prop
  | first :: second :: rest, byte :: bytes => ReadsPair first second byte ∧ Reads rest bytes
  | [], [] => True
  | _, _ => False

theorem plus_iff : c.toNat = 43 ↔ c = '+' := @Char.toNat_inj c '+'

variable {first second : Char}

theorem ReadsPair.ascii {byte : UInt8} (h : ReadsPair first second byte) :
    first.toNat < 128 ∧ second.toNat < 128 := by
  obtain ⟨low, hlow, hfirst⟩ := h
  refine ⟨?_, (toDigit_lt hlow).1⟩
  rcases hfirst with ⟨rfl, -⟩ | ⟨high, hhigh, -⟩
  · decide
  · exact (toDigit_lt hhigh).1

theorem Reads.ascii (h : Reads text bytes) : ∀ c ∈ text, c.toNat < 128 := by
  fun_induction Reads text bytes with
  | case1 first second rest byte bytes ih =>
    simp only [mem_cons, forall_eq_or_imp]
    exact ⟨h.1.ascii.1, h.1.ascii.2, ih h.2⟩
  | case2 => nofun
  | case3 => exact h.elim

theorem parseChunk_pair (hfirst : first.toNat < 128) (hsecond : second.toNat < 128)
    (byte : UInt8) : parseChunk [byteOf first, byteOf second] = some byte ↔ ReadsPair first second byte := by
  have hutf : isUtf8 [byteOf first, byteOf second] = true := by
    simp [isUtf8, byteOf_toNat hfirst, byteOf_toNat hsecond, hfirst, hsecond]
  have hplus : toDigit 43 = none := rfl
  rw [parseChunk, if_pos hutf, fromStrRadix, byteOf_toNat hfirst, ReadsPair]
  simp only [plus_iff]
  by_cases hsign : first = '+'
  · subst hsign
    cases hlow : toDigit second.toNat with
    | none => simp [digits, byteOf_toNat hsecond, hlow]
    | some low => simp [digits, byteOf_toNat hsecond, hlow, hplus, eq_comm]
  · cases hlow : toDigit second.toNat <;> cases hhigh : toDigit first.toNat <;>
      simp [digits, byteOf_toNat hfirst, byteOf_toNat hsecond, hsign, hlow, hhigh, eq_comm]

theorem forall₂_chunks (heven : text.length = 2 * count)
    (hascii : ∀ c ∈ text, c.toNat < 128) (bytes : Bytes) :
    List.Forall₂ (fun chunk byte => parseChunk chunk = some byte) (chunks (text.map byteOf)) bytes ↔
      Reads text bytes := by
  rw [chunks_map]
  fun_induction Reads text bytes generalizing count with
  | case1 first second rest byte bytes ih =>
    simp only [mem_cons, forall_eq_or_imp] at hascii
    have hrest := @ih (count - 1) (by simp only [length_cons] at heven; omega) hascii.2.2
    simp only [chunks, map_cons, map_nil, forall₂_cons, parseChunk_pair hascii.1 hascii.2.1, hrest]
  | case2 => simp [chunks]
  | case3 text bytes hcons hnil =>
    refine iff_of_false (fun h => ?_) id
    match text, bytes with
    | first :: second :: rest, byte :: bytes => exact hcons _ _ _ _ _ rfl rfl
    | [], [] => exact hnil rfl rfl
    | [_], _ => simp only [length_cons, length_nil] at heven; omega
    | _ :: _ :: _, [] => simp [chunks] at h
    | [], _ :: _ => simp [chunks] at h

theorem length_padded (h : hex.length ≤ 64) : (padded hex).length = 64 := by
  rw [padded, length_append, length_replicate]
  omega

theorem parse_text (hlen : text.length = 64) (out : Bytes) :
    parseChunks 0 (chunks (asBytes text)) (List.replicate 32 0) = .ok out ↔ Reads text out.reverse := by
  rw [parseChunks_eq_ok (Nat.zero_le 32) rfl, chunks_length, zero_add]
  constructor
  · rintro ⟨hcount, bytes, hbytes, rfl⟩
    obtain ⟨hle, hascii⟩ := length_asBytes text
    have hall := hascii (by omega)
    rw [asBytes_ascii hall] at hbytes
    have hreads := (forall₂_chunks (hlen.trans rfl : text.length = 2 * 32) hall bytes).mp hbytes
    have hzero : 32 - ((asBytes text).length + 1) / 2 = 0 := by omega
    rw [hzero]
    simpa using hreads
  · intro hreads
    have hall := hreads.ascii
    have hbytes := (forall₂_chunks (hlen.trans rfl : text.length = 2 * 32) hall out.reverse).mpr hreads
    rw [asBytes_ascii hall, length_map, hlen]
    exact ⟨by decide, out.reverse, hbytes, by simp⟩

end Hex

theorem hexToScalar_eq_ok {x : F} :
    hexToScalar hex = .ok x ↔ (strip0x hex).length ≤ 64 ∧
      ∃ bytes, Reads (padded (strip0x hex)) bytes ∧ x = fromLeBytesModOrder bytes.reverse := by
  obtain ⟨hchars, -⟩ := length_asBytes (strip0x hex)
  rw [hexToScalar]
  constructor
  · intro h
    split at h
    · cases h
    · have hle : (strip0x hex).length ≤ 64 := by omega
      obtain ⟨out, hout, h⟩ := Contracts.bind_eq_ok h
      cases h
      rw [parse_text (length_padded hle)] at hout
      exact ⟨hle, out.reverse, hout, by rw [reverse_reverse]⟩
  · rintro ⟨hle, bytes, hreads, rfl⟩
    have hascii : ∀ c ∈ strip0x hex, c.toNat < 128 := fun c hc =>
      hreads.ascii c (mem_append_right _ hc)
    have hout := (parse_text (length_padded hle) bytes.reverse).mpr (by rwa [reverse_reverse])
    rw [if_neg (by rw [asBytes_ascii hascii, length_map]; omega), hout]
    rfl

/-- A text is read exactly when it is made of at most 64 hexadecimal digits, and then as the number
they denote. -/
def Exact (hex : List Char) : Prop :=
  ∀ x, hexToScalar hex = .ok x ↔
    (∀ c ∈ strip0x hex, IsHexDigit c) ∧ (strip0x hex).length ≤ 64 ∧ x = (denoted (strip0x hex) : F)

/-- At most 64 characters with a plus sign among them, all digits but for plus signs that begin a
piece of the padded text. -/
def Signed (hex : List Char) : Prop :=
  (strip0x hex).length ≤ 64 ∧ '+' ∈ strip0x hex ∧
    ∀ piece ∈ chunks (padded (strip0x hex)), ∃ first second, piece = [first, second] ∧
      (first = '+' ∨ IsHexDigit first) ∧ IsHexDigit second

namespace Hex

theorem not_isHexDigit_plus : ¬IsHexDigit '+' := by decide

variable {digit : Nat}

theorem isHexDigit_of (h : toDigit c.toNat = some digit) : IsHexDigit c := by
  rw [IsHexDigit, h]
  rfl

variable {text : List Char}

theorem exists_reads_iff :
    (∃ bytes, Reads text bytes) ↔ ∀ piece ∈ chunks text, ∃ first second, piece = [first, second] ∧
      (first = '+' ∨ IsHexDigit first) ∧ IsHexDigit second := by
  fun_induction chunks text with
  | case1 first second rest ih =>
    rw [forall_mem_cons, ← ih]
    constructor
    · rintro ⟨bytes, hreads⟩
      cases bytes with
      | nil => exact hreads.elim
      | cons byte bytes =>
        obtain ⟨⟨low, hlow, hfirst⟩, hrest⟩ := hreads
        refine ⟨⟨first, second, rfl, hfirst.imp And.left ?_, isHexDigit_of hlow⟩, bytes, hrest⟩
        rintro ⟨high, hhigh, -⟩
        exact isHexDigit_of hhigh
    · rintro ⟨⟨first', second', heq, hfirst, hsecond⟩, bytes, hrest⟩
      cases heq
      obtain ⟨low, hlow⟩ := Option.isSome_iff_exists.mp hsecond
      rcases hfirst with rfl | hfirst
      · exact ⟨.ofNat low :: bytes, ⟨low, hlow, .inl ⟨rfl, rfl⟩⟩, hrest⟩
      · obtain ⟨high, hhigh⟩ := Option.isSome_iff_exists.mp hfirst
        exact ⟨.ofNat (high * 16 + low) :: bytes, ⟨low, hlow, .inr ⟨high, hhigh, rfl⟩⟩, hrest⟩
  | case2 last =>
    refine iff_of_false (fun ⟨bytes, hreads⟩ => ?_) (fun h => ?_)
    · cases bytes <;> exact hreads
    · obtain ⟨first, second, heq, -⟩ := h [last] (mem_singleton.mpr rfl)
      cases heq
  | case3 => exact iff_of_true ⟨[], trivial⟩ nofun

theorem Reads.digits (h : Reads text bytes) (hplus : '+' ∉ text) : ∀ c ∈ text, IsHexDigit c := by
  fun_induction Reads text bytes with
  | case1 first second rest byte bytes ih =>
    simp only [mem_cons, not_or] at hplus
    obtain ⟨⟨low, hlow, hfirst⟩, hrest⟩ := h
    simp only [mem_cons, forall_eq_or_imp]
    refine ⟨?_, isHexDigit_of hlow, ih hrest hplus.2.2⟩
    rcases hfirst with ⟨heq, -⟩ | ⟨high, hhigh, -⟩
    · exact absurd heq.symm hplus.1
    · exact isHexDigit_of hhigh
  | case2 => nofun
  | case3 => exact h.elim

theorem Reads.value (h : Reads text bytes) (hplus : '+' ∉ text)
    (high : Bytes) {n : Nat} (hn : fromLittleEndian high = n) :
    fromLittleEndian (bytes.reverse ++ high) = text.foldl (fun n c => n * 16 + (toDigit c.toNat).getD 0) n := by
  fun_induction Reads text bytes generalizing high n with
  | case1 first second rest byte bytes ih =>
    simp only [mem_cons, not_or] at hplus
    obtain ⟨⟨low, hlow, hfirst⟩, hrest⟩ := h
    rcases hfirst with ⟨heq, -⟩ | ⟨upper, hupper, rfl⟩
    · exact absurd heq.symm hplus.1
    · have hbyte : (UInt8.ofNat (upper * 16 + low)).toNat = upper * 16 + low := by
        have hlow := (toDigit_lt hlow).2
        have hupper := (toDigit_lt hupper).2
        rw [UInt8.toNat_ofNat']
        omega
      have hnext : fromLittleEndian (.ofNat (upper * 16 + low) :: high) = (n * 16 + upper) * 16 + low := by
        rw [fromLittleEndian, hn, hbyte]
        omega
      rw [reverse_cons, append_assoc, singleton_append, ih hrest hplus.2.2 _ hnext]
      simp [hlow, hupper]
  | case2 => exact hn
  | case3 => exact h.elim

variable {hex : List Char}

theorem mem_padded : c ∈ padded hex ↔ (hex.length < 64 ∧ c = '0') ∨ c ∈ hex := by
  rw [padded, mem_append, mem_replicate, Nat.sub_ne_zero_iff_lt]

theorem denoted_padded (hex : List Char) : denoted (padded hex) = denoted hex := by
  have hzeros : ∀ count, (List.replicate count '0').foldl (fun n c => n * 16 + (toDigit c.toNat).getD 0) 0 = 0 := by
    intro count
    induction count with
    | zero => rfl
    | succ count ih => exact ih
  rw [denoted, padded, foldl_append, hzeros, denoted]

theorem signed_iff :
    Signed hex ↔ (strip0x hex).length ≤ 64 ∧ '+' ∈ strip0x hex ∧ ∃ bytes, Reads (padded (strip0x hex)) bytes := by
  rw [Signed, exists_reads_iff]

theorem exists_reads_of_digits (heven : text.length = 2 * count)
    (h : ∀ c ∈ text, IsHexDigit c) : ∃ bytes, Reads text bytes := by
  rw [exists_reads_iff]
  fun_induction chunks text generalizing count with
  | case1 first second rest ih =>
    simp only [mem_cons, forall_eq_or_imp] at h
    refine forall_mem_cons.mpr ⟨⟨first, second, rfl, .inr h.1, h.2.1⟩, ?_⟩
    exact @ih (count - 1) (by simp only [length_cons] at heven; omega) h.2.2
  | case2 last =>
    simp only [length_cons, length_nil] at heven
    omega
  | case3 => nofun

theorem not_exact_of_signed (h : Signed hex) : ¬Exact hex := by
  obtain ⟨hle, hplus, bytes, hreads⟩ := signed_iff.mp h
  intro hexact
  have hok := (hexact _).mp (hexToScalar_eq_ok.mpr ⟨hle, bytes, hreads, rfl⟩)
  exact not_isHexDigit_plus (hok.1 '+' hplus)

theorem exact_of_not_signed (h : ¬Signed hex) : Exact hex := by
  -- Without a plus sign, what is read is made of digits, and has their value.
  have hvalue : ∀ {bytes}, Reads (padded (strip0x hex)) bytes → '+' ∉ strip0x hex →
      fromLeBytesModOrder bytes.reverse = (denoted (strip0x hex) : F) := fun hreads hplus => by
    have hpadded : '+' ∉ padded (strip0x hex) := by simp [mem_padded, hplus]
    have hbytes := hreads.value hpadded [] rfl
    rw [append_nil] at hbytes
    rw [fromLeBytesModOrder, hbytes, ← denoted_padded]
    rfl
  intro x
  rw [hexToScalar_eq_ok]
  constructor
  · rintro ⟨hle, bytes, hreads, rfl⟩
    have hplus : '+' ∉ strip0x hex := fun hplus => h (signed_iff.mpr ⟨hle, hplus, bytes, hreads⟩)
    have hdigits := hreads.digits (by simp [mem_padded, hplus])
    exact ⟨fun c hc => hdigits c (mem_append_right _ hc), hle, hvalue hreads hplus⟩
  · rintro ⟨hdigits, hle, rfl⟩
    have hplus : '+' ∉ strip0x hex := fun hplus => not_isHexDigit_plus (hdigits '+' hplus)
    have hpadded : ∀ c ∈ padded (strip0x hex), IsHexDigit c := by
      intro c hc
      rcases mem_padded.mp hc with ⟨-, rfl⟩ | hc
      · decide
      · exact hdigits c hc
    obtain ⟨bytes, hreads⟩ := exists_reads_of_digits ((length_padded hle).trans rfl : _ = 2 * 32) hpadded
    exact ⟨hle, bytes, hreads, (hvalue hreads hplus).symm⟩

theorem toDigit_digitChar (h : digit < 16) : toDigit (Nat.digitChar digit).toNat = some digit := by
  have hall : ∀ digit < 16, toDigit (Nat.digitChar digit).toNat = some digit := by decide
  exact hall digit h

theorem reads_hexBytes (bytes : Bytes) : Reads (bytes.flatMap hexByte) bytes := by
  induction bytes with
  | nil => trivial
  | cons byte bytes ih =>
    have hbyte := byte.toNat_lt
    rw [flatMap_cons, hexByte, cons_append, cons_append, nil_append]
    refine ⟨⟨byte.toNat % 16, toDigit_digitChar (by omega), .inr ⟨byte.toNat / 16, toDigit_digitChar (by omega), ?_⟩⟩, ih⟩
    rw [show byte.toNat / 16 * 16 + byte.toNat % 16 = byte.toNat by omega, UInt8.ofNat_toNat]

theorem length_hexBytes (bytes : Bytes) : (bytes.flatMap hexByte).length = bytes.length * 2 := by
  induction bytes with
  | nil => rfl
  | cons byte bytes ih =>
    rw [flatMap_cons, length_append, ih, length_cons, hexByte, length_cons,
      length_cons, length_nil]
    omega

theorem hexBytes_digits (bytes : Bytes) : ∀ c ∈ bytes.flatMap hexByte, IsHexDigit c := by
  intro c hc
  obtain ⟨byte, -, hc⟩ := mem_flatMap.mp hc
  have hbyte := byte.toNat_lt
  rcases mem_cons.mp hc with rfl | hc
  · exact isHexDigit_of (toDigit_digitChar (by omega))
  · rw [mem_singleton.mp hc]
    exact isHexDigit_of (toDigit_digitChar (by omega))

theorem denoted_hexBytes (bytes : Bytes) : denoted (bytes.flatMap hexByte) = fromLittleEndian bytes.reverse := by
  have hplus : '+' ∉ bytes.flatMap hexByte := fun h => not_isHexDigit_plus (hexBytes_digits bytes '+' h)
  have hvalue := (reads_hexBytes bytes).value hplus [] rfl
  rw [append_nil] at hvalue
  exact hvalue.symm

end Hex

/-- A plus sign in front of a digit is read where a piece of two characters begins; other texts
are read exactly, and what is written is read back. -/
theorem hex_read_exactly (hex : List Char) (scalar : F) :
    (Exact hex ↔ ¬Signed hex) ∧ hexToScalar (scalarToHex scalar) = .ok scalar := by
  refine ⟨⟨fun hexact hsigned => not_exact_of_signed hsigned hexact, exact_of_not_signed⟩, ?_⟩
  have hlen : ((toLeBytes scalar).reverse.flatMap hexByte).length = 64 := by
    rw [length_hexBytes, length_reverse, toLeBytes, toLittleEndian_length]
  have hpadded : padded ((toLeBytes scalar).reverse.flatMap hexByte) = (toLeBytes scalar).reverse.flatMap hexByte := by
    rw [padded, hlen]
    rfl
  have hstrip : strip0x (scalarToHex scalar) = (toLeBytes scalar).reverse.flatMap hexByte := rfl
  rw [hexToScalar_eq_ok, hstrip, hpadded, hlen]
  refine ⟨le_refl _, (toLeBytes scalar).reverse, reads_hexBytes _, ?_⟩
  rw [reverse_reverse, fromLeBytesModOrder_toLeBytes]

theorem hex_reads_sign : hexToScalar ['0', 'x', '+', '5'] = .ok 5 ∧ ¬Exact ['0', 'x', '+', '5'] := by
  have hok : hexToScalar ['0', 'x', '+', '5'] = .ok 5 := by decide +kernel
  refine ⟨hok, fun hexact => ?_⟩
  have hdigits := ((hexact 5).mp hok).1
  exact not_isHexDigit_plus (hdigits '+' (by decide))

end PrivatePayments.Sdk

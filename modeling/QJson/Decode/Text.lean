import QJson.Decode.Strings
import QJson.Doc.Parse
import QJson.Rfc8259.Utf8

/-!
# What a string denotes

A character of a string body denotes itself or, where it is an escape, the character that
RFC 8259 §7 says, in UTF-8.  The decoder returns the text that the body denotes, whichever
of its branches it takes.
-/

namespace QJson.Decode

open Rfc8259 Validate Doc

/-! ## The text of a body -/

/-- The characters of the eight two-character escapes. -/
def escapedChar (b : UInt8) : Option Char :=
  if b = 0x22 then some '"'
  else if b = 0x5C then some '\\'
  else if b = 0x2F then some '/'
  else if b = 0x62 then some '\x08'
  else if b = 0x66 then some '\x0C'
  else if b = 0x6E then some '\n'
  else if b = 0x72 then some '\r'
  else if b = 0x74 then some '\t'
  else none

/-- The character of a surrogate pair. -/
def pairChar (high low : Nat) : Char :=
  Char.ofNat (0x10000 + (high - 0xD800) * 0x400 + (low - 0xDC00))

/-- What a character of a string body denotes. -/
inductive Denotes : Bytes → Bytes → Prop where
  | plain {b : UInt8} : 0x20 ≤ b → b < 0x80 → b ≠ 0x5C → Denotes [b] [b]
  | utf8 {text : Bytes} : IsUtf8Multi text → Denotes text text
  | escape {b : UInt8} {c : Char} : escapedChar b = some c →
      Denotes [0x5C, b] (String.utf8EncodeChar c)
  | unit {hex : Bytes} {unit : Nat} : hexUnit hex = some unit →
      ¬ IsHigh unit → ¬ IsLow unit →
      Denotes (0x5C :: 0x75 :: hex) (String.utf8EncodeChar (Char.ofNat unit))
  | pair {high low : Bytes} {highUnit lowUnit : Nat} :
      hexUnit high = some highUnit → IsHigh highUnit →
      hexUnit low = some lowUnit → IsLow lowUnit →
      Denotes (0x5C :: 0x75 :: (high ++ 0x5C :: 0x75 :: low))
        (String.utf8EncodeChar (pairChar highUnit lowUnit))

/-- What a string body denotes, character by character. -/
inductive Text : Bytes → Bytes → Prop where
  | nil : Text [] []
  | cons {piece out rest text : Bytes} : Denotes piece out → Text rest text →
      Text (piece ++ rest) (out ++ text)

/-! ## `encode_utf8` -/

theorem or_payload :
    (∀ k < 32, (0xC0 : UInt8) ||| UInt8.ofNat k = UInt8.ofNat (k % 0x20 + 0xc0)) ∧
    (∀ k < 16, (0xE0 : UInt8) ||| UInt8.ofNat k = UInt8.ofNat (k % 0x10 + 0xe0)) ∧
    (∀ k < 8, (0xF0 : UInt8) ||| UInt8.ofNat k = UInt8.ofNat (k % 0x08 + 0xf0)) ∧
    ∀ k < 64, (0x80 : UInt8) ||| UInt8.ofNat k = UInt8.ofNat (k + 0x80) := by
  decide

/-- `encode_utf8` encodes scalar values. -/
theorem encodeUtf8_eq {cp : Nat} (scalar : cp.isValidChar) :
    encodeUtf8 cp = String.utf8EncodeChar (Char.ofNat cp) := by
  have bound : cp < 0x110000 := by
    have := isValidChar_iff.1 scalar
    omega
  have low (n : Nat) : n &&& 0x3F = n % 64 := Nat.and_two_pow_sub_one_eq_mod n 6
  have below (n : Nat) : (cp ≤ n) = (cp < n + 1) := propext Nat.lt_succ_iff.symm
  obtain ⟨two, three, four, tail⟩ := or_payload
  unfold String.utf8EncodeChar encodeUtf8
  simp only [toNat_ofNat scalar, Nat.shiftRight_eq_div_pow, low, below]
  by_cases one : cp < 0x80
  · rw [if_pos one, if_pos one]
  rw [if_neg one, if_neg one]
  by_cases twoBytes : cp < 0x800
  · rw [if_pos twoBytes, if_pos twoBytes, two _ (by omega), tail _ (by omega)]
  rw [if_neg twoBytes, if_neg twoBytes]
  by_cases threeBytes : cp < 0x10000
  · rw [if_pos threeBytes, if_pos threeBytes, three _ (by omega), tail _ (by omega),
      tail _ (by omega)]
  · rw [if_neg threeBytes, if_neg threeBytes, four _ (by omega), tail _ (by omega),
      tail _ (by omega), tail _ (by omega)]

/-! ## The decoder -/

/-- The decoder pushes the byte of the character that an escape stands for, and the
validator accepts the same escapes. -/
theorem unescape_eq : ∀ b : UInt8,
    (unescape b).map (fun byte => [byte]) = (escapedChar b).map String.utf8EncodeChar ∧
      isSimpleEscape b = (escapedChar b).isSome :=
  Bits.forall_uint8 (by decide +kernel)

/-- The scalar values that escapes can spell. -/
theorem isValidChar_unit {unit : Nat} (small : unit < 0x10000) (notHigh : ¬ IsHigh unit)
    (notLow : ¬ IsLow unit) : unit.isValidChar := by
  unfold IsHigh at notHigh
  unfold IsLow at notLow
  exact isValidChar_iff.2 (by omega)

theorem isValidChar_pair {high low : Nat} (isHigh : IsHigh high) (isLow : IsLow low) :
    (0x10000 + (high - 0xD800) * 0x400 + (low - 0xDC00)).isValidChar := by
  unfold IsHigh at isHigh
  unfold IsLow at isLow
  exact isValidChar_iff.2 (by omega)

theorem hexUnit_lt {hex : Bytes} {unit : Nat} (spelled : hexUnit hex = some unit) :
    unit < 0x10000 := by
  unfold hexUnit at spelled
  split at spelled
  · simp only [Option.bind_eq_bind, Option.bind_eq_some_iff, Option.pure_def,
      Option.some.injEq] at spelled
    obtain ⟨a, digitA, b, digitB, c, digitC, d, digitD, rfl⟩ := spelled
    have smallA := hexVal_lt digitA
    have smallB := hexVal_lt digitB
    have smallC := hexVal_lt digitC
    have smallD := hexVal_lt digitD
    omega
  · cases spelled

/-- The decoder returns what a character denotes, in front of what follows. -/
theorem decodeFrom_denotes {piece out : Bytes} (denotes : Denotes piece out) (rest : Bytes) :
    decodeFrom (piece ++ rest) = (decodeFrom rest).map (out ++ ·) := by
  cases denotes with
  | plain low high notSlash => exact decodeFrom_plain rest notSlash
  | utf8 multi => exact decodeFrom_bytes rest (noSlash_of_multi multi)
  | @escape b c denoted =>
      have pushed := (unescape_eq b).1
      rw [denoted, Option.map_some, Option.map_eq_some_iff] at pushed
      obtain ⟨byte, plain, same⟩ := pushed
      refine @decodeFrom_escape (b :: rest) _ _ ?_
      rw [decodeEscape, plain, ← same]
  | @unit hex unit spelled notHigh notLow =>
      rw [← encodeUtf8_eq (isValidChar_unit (hexUnit_lt spelled) notHigh notLow)]
      refine @decodeFrom_escape (0x75 :: (hex ++ rest)) _ _ ?_
      rw [decodeEscape]
      exact decodeUnicode_unit rest spelled notHigh notLow
  | @pair high low highUnit lowUnit spelledHigh isHigh spelledLow isLow =>
      rw [pairChar, ← encodeUtf8_eq (isValidChar_pair isHigh isLow), ← Nat.shiftLeft_eq _ 10,
        List.cons_append, List.cons_append, List.append_assoc]
      refine decodeFrom_escape ?_
      rw [decodeEscape]
      exact decodeUnicode_pair rest spelledHigh isHigh spelledLow isLow

/-- The decoder returns the text of a body. -/
theorem decodeFrom_text {body text : Bytes} (denotes : Text body text) :
    decodeFrom body = .ok text := by
  induction denotes with
  | nil => rw [decodeFrom.eq_def]
  | cons piece _ ih =>
      rw [decodeFrom_denotes piece, ih]
      rfl

theorem exists_denotes {piece : Bytes} (valid : IsPiece piece) :
    ∃ out, Denotes piece out ∧ IsUtf8 out := by
  cases valid with
  | plain low high notSlash => exact ⟨_, .plain low high notSlash, isUtf8_ascii high⟩
  | utf8 multi => exact ⟨_, .utf8 multi, multi.isUtf8⟩
  | @escape b simple =>
      rw [(unescape_eq b).2] at simple
      obtain ⟨c, denoted⟩ := Option.isSome_iff_exists.1 simple
      exact ⟨_, .escape denoted, isUtf8_encode c⟩
  | unit spelled notHigh notLow =>
      exact ⟨_, .unit spelled notHigh notLow, isUtf8_encode _⟩
  | pair spelledHigh isHigh spelledLow isLow =>
      exact ⟨_, .pair spelledHigh isHigh spelledLow isLow, isUtf8_encode _⟩

/-- Every span that the validator accepts denotes a text, in valid UTF-8. -/
theorem exists_text {span : Bytes} (valid : IsSpan span) :
    ∃ text, Text span text ∧ IsUtf8 text := by
  induction valid with
  | nil => exact ⟨[], .nil, .nil⟩
  | cons piece _ ih =>
      obtain ⟨out, denotes, validOut⟩ := exists_denotes piece
      obtain ⟨text, rest, validText⟩ := ih
      exact ⟨_, .cons denotes rest, validOut.append validText⟩

/-- Without a backslash the loop copies the span. -/
theorem decodeFrom_copy {span : Bytes} (noSlash : 0x5C ∉ span) : decodeFrom span = .ok span := by
  have bytes (b : UInt8) (member : b ∈ span) : b ≠ 0x5C := by
    rintro rfl
    exact noSlash member
  have copied := decodeFrom_bytes [] bytes
  rw [List.append_nil, decodeFrom.eq_def []] at copied
  rw [copied]
  simp [Except.map]

/-- Without validation the two branches agree. -/
theorem decodeSpan_skip (validate : Bytes → Rust QjsonErr Unit) (span : Bytes) :
    decodeSpan validate true span = toRust (decodeFrom span) := by
  rw [decodeSpan]
  simp only [if_true, ok_bind]
  by_cases slash : 0x5C ∈ span
  · rw [if_pos slash]
  · rw [if_neg slash, decodeFrom_copy slash]
    rfl

theorem decodeSpan_text (strings : StringPath) {span text : Bytes}
    (ok : strings.validate span = .ok ()) (denotes : Text span text) (skipValidation : Bool) :
    decodeSpan strings.validate skipValidation span = .ok text := by
  rw [decodeSpan_of_valid ok, decodeSpan_skip, decodeFrom_text denotes]
  rfl

/-- A span that the validator accepts decodes in both modes to the text that it denotes,
with or without the loop, and a validating decoder fails exactly as the validator does. -/
theorem decodeSpan_exact (strings : StringPath) (span : Bytes) :
    (strings.validate span = .ok () →
      ∃ text, Text span text ∧ (∀ other, Text span other → other = text) ∧ IsUtf8 text ∧
        decodeFrom span = .ok text ∧
        ∀ skipValidation, decodeSpan strings.validate skipValidation span = .ok text) ∧
    (0x5C ∉ span → decodeFrom span = .ok span) ∧
    ∀ fault, decodeSpan strings.validate false span = .error fault ↔
      strings.validate span = .error fault := by
  have denoted (ok : strings.validate span = .ok ()) : ∃ text, Text span text ∧ IsUtf8 text := by
    rw [strings.isStringValidator] at ok
    exact exists_text ((validateSpanScalar_ok_iff span).1 (toRust_eq_ok_iff.1 ok))
  refine ⟨fun ok => ?_, decodeFrom_copy, fun fault => ?_⟩
  · obtain ⟨text, denotes, valid⟩ := denoted ok
    have decoded := decodeFrom_text denotes
    refine ⟨text, denotes, fun other same => ?_, valid, decoded, decodeSpan_text strings ok denotes⟩
    exact Except.ok.inj ((decodeFrom_text same).symm.trans decoded)
  · cases checked : strings.validate span with
    | ok result =>
        obtain ⟨text, denotes, -⟩ := denoted checked
        rw [decodeSpan_text strings checked denotes]
        simp
    | error fault' =>
        have failed : decodeSpan strings.validate false span = .error fault' := by
          rw [decodeSpan, checked]
          rfl
        rw [failed, Except.error.injEq, Except.error.injEq]

end QJson.Decode

import Mathlib.Data.List.GetD
import QJson.Rfc8259.Outline
import QJson.Rfc8259.Token
import QJson.Source.Error
import QJson.Bits.Mask

/-!
# The string validator

`src/validate/strings/`.  A byte index into the span is modelled by the bytes
from that index on: a helper that returns the next index returns the rest of
the span.  The scalar state machine accepts exactly the spans of RFC 8259 and
RFC 3629, and the two vector paths only skip bytes the state machine would
accept one by one.
-/

namespace QJson.Validate

open Rfc8259 Bits

/-- The loop of `parse_hex4`; `v` is a `u16`. -/
def parseHex4From (v : Nat) : Bytes → Except QjsonErr Nat
  | [] => .ok v
  | h :: rest =>
      match hexVal h with
      | some digit => parseHex4From ((v <<< 4) % 2 ^ 16 ||| digit) rest
      | none => .error .invalidString

/-- `parse_hex4`. -/
def parseHex4 (bytes : Bytes) : Except QjsonErr Nat :=
  parseHex4From 0 bytes

/-- The low half of a surrogate pair in `validate_escape`; `span` starts at
`low_escape`. -/
def validateLow (span : Bytes) : Except QjsonErr Bytes :=
  if span.length < 6 ∨ span.take 2 ≠ [0x5C, 0x75] then .error .invalidString
  else
    match parseHex4 ((span.drop 2).take 4) with
    | .error code => .error code
    | .ok low =>
        if ¬ (0xDC00 ≤ low ∧ low ≤ 0xDFFF) then .error .invalidString
        else .ok (span.drop 6)

/-- The `\u` arm of `validate_escape`; `span` starts at `hex_start`. -/
def validateUnicode (span : Bytes) : Except QjsonErr Bytes :=
  if span.length < 4 then .error .invalidString
  else
    match parseHex4 (span.take 4) with
    | .error code => .error code
    | .ok unit =>
        if 0xD800 ≤ unit ∧ unit ≤ 0xDBFF then validateLow (span.drop 4)
        else if 0xDC00 ≤ unit ∧ unit ≤ 0xDFFF then .error .invalidString
        else .ok (span.drop 4)

/-- `validate_escape`; `span` starts behind the backslash. -/
def validateEscape : Bytes → Except QjsonErr Bytes
  | [] => .error .invalidString
  | b :: rest =>
      if isSimpleEscape b then .ok rest
      else if b = 0x75 then validateUnicode rest
      else .error .invalidString

/-- `b1_lo` and `b1_hi` of the three-byte and the four-byte arm. -/
def threeLo (lead : UInt8) : UInt8 := if lead = 0xE0 then 0xA0 else 0x80
@[inherit_doc threeLo] def threeHi (lead : UInt8) : UInt8 :=
  if lead = 0xED then 0x9F else 0xBF
@[inherit_doc threeLo] def fourLo (lead : UInt8) : UInt8 :=
  if lead = 0xF0 then 0x90 else 0x80
@[inherit_doc threeLo] def fourHi (lead : UInt8) : UInt8 :=
  if lead = 0xF4 then 0x8F else 0xBF

/-- The two-byte arm of `validate_utf8_sequence`. -/
def validateUtf8Two : Bytes → Except QjsonErr Bytes
  | b1 :: rest => if ¬ IsTail b1 then .error .invalidUtf8 else .ok rest
  | [] => .error .invalidUtf8

/-- The three-byte arm of `validate_utf8_sequence`. -/
def validateUtf8Three (lead : UInt8) : Bytes → Except QjsonErr Bytes
  | b1 :: b2 :: rest =>
      if b1 < threeLo lead ∨ b1 > threeHi lead then .error .invalidUtf8
      else if ¬ IsTail b2 then .error .invalidUtf8
      else .ok rest
  | _ => .error .invalidUtf8

/-- The four-byte arm of `validate_utf8_sequence`. -/
def validateUtf8Four (lead : UInt8) : Bytes → Except QjsonErr Bytes
  | b1 :: b2 :: b3 :: rest =>
      if b1 < fourLo lead ∨ b1 > fourHi lead then .error .invalidUtf8
      else if ¬ IsTail b2 then .error .invalidUtf8
      else if ¬ IsTail b3 then .error .invalidUtf8
      else .ok rest
  | _ => .error .invalidUtf8

/-- `validate_utf8_sequence`; `rest` is what follows the lead byte. -/
def validateUtf8Sequence (lead : UInt8) (rest : Bytes) : Except QjsonErr Bytes :=
  if 0xC2 ≤ lead ∧ lead ≤ 0xDF then validateUtf8Two rest
  else if 0xE0 ≤ lead ∧ lead ≤ 0xEF then validateUtf8Three lead rest
  else if 0xF0 ≤ lead ∧ lead ≤ 0xF4 then validateUtf8Four lead rest
  else .error .invalidUtf8

/-! ## The helpers consume one character -/

/-- Shifting in a digit is multiplication by sixteen and addition. -/
theorem shift_or_digit {v digit width : Nat} (room : v * 16 < width) (hex : digit < 16) :
    (v <<< 4) % width ||| digit = v * 16 + digit := by
  have small : v <<< 4 < width := by
    rw [Nat.shiftLeft_eq]
    exact room
  rw [Nat.mod_eq_of_lt small, ← Nat.shiftLeft_add_eq_or_of_lt (by simpa using hex),
    Nat.shiftLeft_eq]

theorem hexVal_lt {b : UInt8} {digit : Nat} (hex : hexVal b = some digit) :
    digit < 16 := by
  unfold hexVal at hex
  simp only [UInt8.le_iff_toNat_le] at hex
  split at hex
  · rename_i range
    cases hex
    have := range.2
    simp at this
    omega
  · split at hex
    · rename_i range
      cases hex
      have := range.2
      simp at this
      omega
    · split at hex
      · rename_i range
        cases hex
        have := range.2
        simp at this
        omega
      · cases hex

theorem parseHex4_eq_ok_iff {hex : Bytes} (four : hex.length = 4) (unit : Nat) :
    parseHex4 hex = .ok unit ↔ hexUnit hex = some unit := by
  match hex, four with
  | [a, b, c, d], _ =>
      cases digitA : hexVal a with
      | none => simp [parseHex4, parseHex4From, hexUnit, digitA]
      | some a' =>
          have smallA := hexVal_lt digitA
          cases digitB : hexVal b with
          | none => simp [parseHex4, parseHex4From, hexUnit, digitA, digitB]
          | some b' =>
              have smallB := hexVal_lt digitB
              cases digitC : hexVal c with
              | none =>
                  simp [parseHex4, parseHex4From, hexUnit, digitA, digitB, digitC]
              | some c' =>
                  have smallC := hexVal_lt digitC
                  cases digitD : hexVal d with
                  | none =>
                      simp [parseHex4, parseHex4From, hexUnit, digitA, digitB,
                        digitC, digitD]
                  | some d' =>
                      have smallD := hexVal_lt digitD
                      simp only [parseHex4, parseHex4From, hexUnit, digitA, digitB,
                        digitC, digitD, Option.bind_eq_bind, Option.bind_some,
                        Option.pure_def, Except.ok.injEq, Option.some.injEq]
                      rw [shift_or_digit (by omega) smallA,
                        shift_or_digit (by omega) smallB,
                        shift_or_digit (by omega) smallC,
                        shift_or_digit (by omega) smallD]
                      have value : (((0 * 16 + a') * 16 + b') * 16 + c') * 16 + d' =
                          a' * 4096 + b' * 256 + c' * 16 + d' := by omega
                      rw [value]

/-- A successful `validate_low` has consumed the escape of a low surrogate. -/
theorem validateLow_ok {span rest : Bytes} (ok : validateLow span = .ok rest) :
    ∃ hex low, span = 0x5C :: 0x75 :: (hex ++ rest) ∧ hexUnit hex = some low ∧
      IsLow low := by
  unfold validateLow at ok
  split at ok
  · cases ok
  · rename_i shape
    push Not at shape
    obtain ⟨longer, escape⟩ := shape
    split at ok
    · cases ok
    · rename_i low parsed
      have four : ((span.drop 2).take 4).length = 4 := by simp; omega
      split at ok
      · cases ok
      · rename_i isLow
        push Not at isLow
        cases ok
        refine ⟨_, low, ?_, (parseHex4_eq_ok_iff four low).1 parsed, isLow⟩
        have dropped : span.drop 6 = (span.drop 2).drop 4 := by simp
        rw [dropped, List.take_append_drop]
        calc
          span = span.take 2 ++ span.drop 2 := (List.take_append_drop 2 span).symm
          _ = 0x5C :: 0x75 :: span.drop 2 := by rw [escape]; rfl

theorem validateUnicode_ok {span rest : Bytes}
    (ok : validateUnicode span = .ok rest) :
    ∃ piece, span = piece ++ rest ∧ IsPiece (0x5C :: 0x75 :: piece) := by
  unfold validateUnicode at ok
  split at ok
  · cases ok
  · rename_i enough
    split at ok
    · cases ok
    · rename_i unit parsed
      have four : (span.take 4).length = 4 := by simp; omega
      have spelled := (parseHex4_eq_ok_iff four unit).1 parsed
      split at ok
      · rename_i high
        obtain ⟨hex, low, split, spelledLow, isLow⟩ := validateLow_ok ok
        refine ⟨span.take 4 ++ 0x5C :: 0x75 :: hex, ?_,
          .pair spelled high spelledLow isLow⟩
        calc
          span = span.take 4 ++ span.drop 4 := (List.take_append_drop 4 span).symm
          _ = span.take 4 ++ 0x5C :: 0x75 :: hex ++ rest := by rw [split]; simp
      · split at ok
        · cases ok
        · rename_i notHigh notLow
          cases ok
          exact ⟨span.take 4, (List.take_append_drop 4 span).symm,
            .unit spelled notHigh notLow⟩

/-- A successful `validate_escape` has consumed the escape of one character. -/
theorem validateEscape_ok {span rest : Bytes}
    (ok : validateEscape span = .ok rest) :
    ∃ piece, span = piece ++ rest ∧ IsPiece (0x5C :: piece) := by
  cases span with
  | nil => simp [validateEscape] at ok
  | cons b span =>
      rw [validateEscape] at ok
      by_cases simple : isSimpleEscape b = true
      · rw [if_pos simple] at ok
        cases ok
        exact ⟨[b], rfl, .escape simple⟩
      · rw [if_neg simple] at ok
        by_cases isU : b = 0x75
        · subst isU
          obtain ⟨piece, rfl, valid⟩ := validateUnicode_ok ok
          exact ⟨0x75 :: piece, rfl, valid⟩
        · rw [if_neg isU] at ok
          cases ok

theorem validateUtf8Three_ok {lead : UInt8} {span rest : Bytes}
    (range : 0xE0 ≤ lead ∧ lead ≤ 0xEF)
    (ok : validateUtf8Three lead span = .ok rest) :
    ∃ piece, span = piece ++ rest ∧ IsUtf8Multi (lead :: piece) := by
  unfold validateUtf8Three at ok
  split at ok
  · rename_i b1 b2 rest'
    split at ok
    · cases ok
    · rename_i bounds
      rw [not_or, UInt8.not_lt, UInt8.not_lt] at bounds
      split at ok
      · cases ok
      · rename_i tail
        push Not at tail
        cases ok
        refine ⟨[b1, b2], rfl, ?_⟩
        by_cases isE0 : lead = 0xE0
        · subst isE0
          exact .e0 bounds.1 bounds.2 tail
        · by_cases isED : lead = 0xED
          · subst isED
            exact .ed bounds.1 bounds.2 tail
          · have above : 0xE1 ≤ lead := by
              have low := range.1
              simp only [UInt8.le_iff_toNat_le, ← UInt8.toNat_inj] at low isE0 ⊢
              simp at low isE0 ⊢
              omega
            simp only [threeLo, threeHi, isE0, isED, if_false] at bounds
            exact .three above range.2 isED bounds tail
  · cases ok

theorem validateUtf8Four_ok {lead : UInt8} {span rest : Bytes}
    (range : 0xF0 ≤ lead ∧ lead ≤ 0xF4)
    (ok : validateUtf8Four lead span = .ok rest) :
    ∃ piece, span = piece ++ rest ∧ IsUtf8Multi (lead :: piece) := by
  unfold validateUtf8Four at ok
  split at ok
  · rename_i b1 b2 b3 rest'
    split at ok
    · cases ok
    · rename_i bounds
      rw [not_or, UInt8.not_lt, UInt8.not_lt] at bounds
      split at ok
      · cases ok
      · rename_i tail2
        push Not at tail2
        split at ok
        · cases ok
        · rename_i tail3
          push Not at tail3
          cases ok
          refine ⟨[b1, b2, b3], rfl, ?_⟩
          by_cases isF0 : lead = 0xF0
          · subst isF0
            exact .f0 bounds.1 bounds.2 tail2 tail3
          · by_cases isF4 : lead = 0xF4
            · subst isF4
              exact .f4 bounds.1 bounds.2 tail2 tail3
            · have inner : 0xF1 ≤ lead ∧ lead ≤ 0xF3 := by
                obtain ⟨low, high⟩ := range
                simp only [UInt8.le_iff_toNat_le, ← UInt8.toNat_inj] at low high isF0 isF4 ⊢
                simp at low high isF0 isF4 ⊢
                omega
              simp only [fourLo, fourHi, isF0, isF4, if_false] at bounds
              exact .four inner.1 inner.2 bounds tail2 tail3
  · cases ok

/-- A successful `validate_utf8_sequence` has consumed the rest of one
multi-byte sequence. -/
theorem validateUtf8Sequence_ok {lead : UInt8} {span rest : Bytes}
    (ok : validateUtf8Sequence lead span = .ok rest) :
    ∃ piece, span = piece ++ rest ∧ IsUtf8Multi (lead :: piece) := by
  unfold validateUtf8Sequence at ok
  split at ok
  · rename_i range
    unfold validateUtf8Two at ok
    split at ok
    · rename_i b1 rest'
      split at ok
      · cases ok
      · rename_i tail
        push Not at tail
        cases ok
        exact ⟨[b1], rfl, .two range.1 range.2 tail⟩
    · cases ok
  · split at ok
    · rename_i range
      exact validateUtf8Three_ok range ok
    · split at ok
      · rename_i range
        exact validateUtf8Four_ok range ok
      · cases ok

/-! ## Characters are consumed whole -/

theorem parseHex4_append {hex rest : Bytes} {unit : Nat}
    (spelled : hexUnit hex = some unit) :
    ¬ (hex ++ rest).length < 4 ∧ parseHex4 ((hex ++ rest).take 4) = .ok unit ∧
      (hex ++ rest).drop 4 = rest := by
  have four := length_of_hexUnit spelled
  refine ⟨by simp [four], ?_, by simp [← four]⟩
  rw [← four, List.take_left]
  exact (parseHex4_eq_ok_iff four unit).2 spelled

theorem validateLow_pair {hex rest : Bytes} {low : Nat}
    (spelled : hexUnit hex = some low) (isLow : IsLow low) :
    validateLow (0x5C :: 0x75 :: (hex ++ rest)) = .ok rest := by
  unfold IsLow at isLow
  obtain ⟨-, parsed, dropped⟩ := @parseHex4_append _ rest _ spelled
  have four := length_of_hexUnit spelled
  have long : ¬ ((0x5C :: 0x75 :: (hex ++ rest)).length < 6 ∨
      (0x5C :: 0x75 :: (hex ++ rest)).take 2 ≠ [0x5C, 0x75]) := by
    simp [four]
  rw [validateLow, if_neg long]
  simp only [List.drop_succ_cons, List.drop_zero, parsed]
  rw [if_neg (not_not.2 isLow), dropped]

theorem validateUnicode_unit {hex rest : Bytes} {unit : Nat}
    (spelled : hexUnit hex = some unit) (notHigh : ¬ IsHigh unit)
    (notLow : ¬ IsLow unit) : validateUnicode (hex ++ rest) = .ok rest := by
  unfold IsHigh at notHigh
  unfold IsLow at notLow
  obtain ⟨long, parsed, dropped⟩ := @parseHex4_append _ rest _ spelled
  unfold validateUnicode
  simp only [if_neg long, parsed]
  rw [if_neg notHigh, if_neg notLow, dropped]

theorem validateUnicode_pair {high low rest : Bytes} {highUnit lowUnit : Nat}
    (spelledHigh : hexUnit high = some highUnit) (isHigh : IsHigh highUnit)
    (spelledLow : hexUnit low = some lowUnit) (isLow : IsLow lowUnit) :
    validateUnicode (high ++ 0x5C :: 0x75 :: (low ++ rest)) = .ok rest := by
  unfold IsHigh at isHigh
  obtain ⟨long, parsed, dropped⟩ :=
    @parseHex4_append _ (0x5C :: 0x75 :: (low ++ rest)) _ spelledHigh
  unfold validateUnicode
  simp only [if_neg long, parsed]
  rw [if_pos isHigh, dropped, validateLow_pair spelledLow isLow]

theorem validateUtf8Sequence_multi {lead : UInt8} {piece rest : Bytes}
    (multi : IsUtf8Multi (lead :: piece)) :
    0x80 ≤ lead ∧ validateUtf8Sequence lead (piece ++ rest) = .ok rest := by
  cases multi with
  | two low high tail =>
      refine ⟨UInt8.le_trans (by decide) low, ?_⟩
      rw [validateUtf8Sequence, if_pos ⟨low, high⟩]
      simp [validateUtf8Two, tail]
  | e0 low high tail =>
      refine ⟨by decide, ?_⟩
      rw [validateUtf8Sequence, if_neg (by decide), if_pos (by decide)]
      simp [validateUtf8Three, threeLo, threeHi, tail, low, high]
  | ed low high tail =>
      refine ⟨by decide, ?_⟩
      rw [validateUtf8Sequence, if_neg (by decide), if_pos (by decide)]
      simp [validateUtf8Three, threeLo, threeHi, tail, low, high]
  | three low high notED tailB tailC =>
      have notTwo : ¬ (0xC2 ≤ lead ∧ lead ≤ 0xDF) := by
        rintro ⟨-, above⟩
        exact absurd (UInt8.le_trans low above) (by decide)
      have notE0 : lead ≠ 0xE0 := by
        rintro rfl
        exact absurd low (by decide)
      refine ⟨UInt8.le_trans (by decide) low, ?_⟩
      rw [validateUtf8Sequence, if_neg notTwo,
        if_pos ⟨UInt8.le_trans (by decide) low, high⟩]
      simp [validateUtf8Three, threeLo, threeHi, notE0, notED, tailB.1, tailB.2,
        tailC]
  | f0 low high tailC tailD =>
      refine ⟨by decide, ?_⟩
      rw [validateUtf8Sequence, if_neg (by decide), if_neg (by decide),
        if_pos (by decide)]
      simp [validateUtf8Four, fourLo, fourHi, tailC, tailD, low, high]
  | f4 low high tailC tailD =>
      refine ⟨by decide, ?_⟩
      rw [validateUtf8Sequence, if_neg (by decide), if_neg (by decide),
        if_pos (by decide)]
      simp [validateUtf8Four, fourLo, fourHi, tailC, tailD, low, high]
  | four low high tailB tailC tailD =>
      have notTwo : ¬ (0xC2 ≤ lead ∧ lead ≤ 0xDF) := by
        rintro ⟨-, above⟩
        exact absurd (UInt8.le_trans low above) (by decide)
      have notThree : ¬ (0xE0 ≤ lead ∧ lead ≤ 0xEF) := by
        rintro ⟨-, above⟩
        exact absurd (UInt8.le_trans low above) (by decide)
      have notF0 : lead ≠ 0xF0 := by
        rintro rfl
        exact absurd low (by decide)
      have notF4 : lead ≠ 0xF4 := by
        rintro rfl
        exact absurd high (by decide)
      refine ⟨UInt8.le_trans (by decide) low, ?_⟩
      rw [validateUtf8Sequence, if_neg notTwo, if_neg notThree,
        if_pos ⟨UInt8.le_trans (by decide) low, UInt8.le_trans high (by decide)⟩]
      simp [validateUtf8Four, fourLo, fourHi, notF0, notF4, tailB.1, tailB.2, tailC,
        tailD]

/-! ## The state machine -/

theorem validateEscape_shorter {span rest : Bytes}
    (ok : validateEscape span = .ok rest) : rest.length ≤ span.length := by
  obtain ⟨piece, rfl, -⟩ := validateEscape_ok ok
  simp

theorem validateUtf8Sequence_shorter {lead : UInt8} {span rest : Bytes}
    (ok : validateUtf8Sequence lead span = .ok rest) :
    rest.length ≤ span.length := by
  obtain ⟨piece, rfl, -⟩ := validateUtf8Sequence_ok ok
  simp

/-- `validate_span_scalar`. -/
def validateSpanScalar : Bytes → Except QjsonErr Unit
  | [] => .ok ()
  | b :: span =>
      if b < 0x80 then
        if b < 0x20 then .error .invalidString
        else if b = 0x5C then
          match _ : validateEscape span with
          | .error code => .error code
          | .ok rest => validateSpanScalar rest
        else validateSpanScalar span
      else
        match _ : validateUtf8Sequence b span with
        | .error code => .error code
        | .ok rest => validateSpanScalar rest
termination_by span => span.length
decreasing_by
  · have := validateEscape_shorter ‹_›
    simp only [List.length_cons]
    omega
  · simp
  · have := validateUtf8Sequence_shorter ‹_›
    simp only [List.length_cons]
    omega

theorem validateSpanScalar_escape {span rest : Bytes}
    (escape : validateEscape span = .ok rest) :
    validateSpanScalar (0x5C :: span) = validateSpanScalar rest := by
  rw [validateSpanScalar]
  simp only [show ((0x5C : UInt8) < 0x80) = True by decide,
    show ((0x5C : UInt8) < 0x20) = False by decide, if_true, if_false]
  split
  · rename_i failed
    rw [escape] at failed
    cases failed
  · rename_i ok
    rw [escape] at ok
    cases ok
    rfl

theorem validateSpanScalar_piece {piece : Bytes} (rest : Bytes)
    (valid : IsPiece piece) :
    validateSpanScalar (piece ++ rest) = validateSpanScalar rest := by
  cases valid with
  | @plain b low high notSlash =>
      rw [List.singleton_append, validateSpanScalar, if_pos high,
        if_neg (UInt8.not_lt.2 low), if_neg notSlash]
  | utf8 multi =>
      obtain ⟨lead, tail, rfl⟩ : ∃ lead tail, piece = lead :: tail := by
        cases multi <;> exact ⟨_, _, rfl⟩
      obtain ⟨high, ok⟩ := @validateUtf8Sequence_multi _ _ rest multi
      rw [List.cons_append, validateSpanScalar, if_neg (UInt8.not_lt.2 high)]
      split
      · rename_i failed
        rw [ok] at failed
        cases failed
      · rename_i stepped
        rw [ok] at stepped
        cases stepped
        rfl
  | escape simple =>
      rw [List.cons_append]
      refine validateSpanScalar_escape ?_
      rw [List.singleton_append, validateEscape, if_pos simple]
  | unit spelled notHigh notLow =>
      rw [List.cons_append]
      refine validateSpanScalar_escape ?_
      rw [List.cons_append, validateEscape, if_neg (by decide), if_pos rfl]
      exact validateUnicode_unit spelled notHigh notLow
  | pair spelledHigh isHigh spelledLow isLow =>
      rw [List.cons_append]
      refine validateSpanScalar_escape ?_
      rw [List.cons_append, List.append_assoc, validateEscape, if_neg (by decide),
        if_pos rfl]
      exact validateUnicode_pair spelledHigh isHigh spelledLow isLow

/-- The scalar validator accepts exactly the spans of well-formed characters. -/
theorem validateSpanScalar_ok_iff (span : Bytes) :
    validateSpanScalar span = .ok () ↔ IsSpan span := by
  constructor
  · intro ok
    induction span using validateSpanScalar.induct with
    | case1 => exact .nil
    | case2 b span ascii control =>
        rw [validateSpanScalar, if_pos ascii, if_pos control] at ok
        cases ok
    | case3 span code escape ascii printable =>
        rw [validateSpanScalar, if_pos ascii, if_neg printable, if_pos rfl] at ok
        split at ok
        · cases ok
        · rename_i stepped
          rw [escape] at stepped
          cases stepped
    | case4 span rest escape ascii printable ih =>
        rw [validateSpanScalar_escape escape] at ok
        obtain ⟨piece, rfl, valid⟩ := validateEscape_ok escape
        exact .cons valid (ih ok)
    | case5 b span ascii printable notSlash ih =>
        rw [validateSpanScalar, if_pos ascii, if_neg printable, if_neg notSlash] at ok
        exact .cons (.plain (UInt8.not_lt.1 printable) ascii notSlash) (ih ok)
    | case6 b span high code sequence =>
        rw [validateSpanScalar, if_neg high] at ok
        split at ok
        · cases ok
        · rename_i stepped
          rw [sequence] at stepped
          cases stepped
    | case7 b span high rest sequence ih =>
        obtain ⟨piece, rfl, multi⟩ := validateUtf8Sequence_ok sequence
        have stepped := validateSpanScalar_piece rest (.utf8 multi)
        rw [List.cons_append] at stepped
        rw [stepped] at ok
        exact .cons (.utf8 multi) (ih ok)
  · intro valid
    induction valid with
    | nil => simp [validateSpanScalar]
    | cons piece _ ih => rw [validateSpanScalar_piece _ piece, ih]

/-! ## The vector paths -/

/-- A byte the vector paths hand to the state machine: the high bit set, a
backslash, or a control character. -/
def needsAttention (b : UInt8) : Bool :=
  0x80 ≤ b || b == 0x5C || b < 0x20

/-- `interesting` of `validate_span_avx2`: the movemasks of the high bits, of the
comparison with a backslash, and of the signed comparison with `0x20`. -/
def interestingAvx2 (chunk : Bytes) : BitVec 32 :=
  maskOf 32 (fun lane => decide (0x80 ≤ chunk.getD lane 0)) |||
    maskOf 32 (fun lane => chunk.getD lane 0 == 0x5C) |||
    maskOf 32 (fun lane => decide ((0x20 : Int8) > (chunk.getD lane 0).toInt8))

/-- `validate_span_avx2_impl`. -/
def validateSpanAvx2 (span : Bytes) : Rust QjsonErr Unit :=
  if 32 ≤ span.length then
    if interestingAvx2 (span.take 32) ≠ 0 then
      toRust (validateSpanScalar
        (span.drop (trailingZeros (interestingAvx2 (span.take 32)))))
    else validateSpanAvx2 (span.drop 32)
  else toRust (validateSpanScalar span)
termination_by span.length
decreasing_by
  simp only [List.length_drop]
  omega

/-- `validate_span_neon_impl`; the lane search is `find`, whose miss is the
`unreachable!`. -/
def validateSpanNeon (span : Bytes) : Rust QjsonErr Unit :=
  if 16 ≤ span.length then
    if (span.take 16).any needsAttention then
      match (List.range 16).find? fun lane => needsAttention (span.getD lane 0) with
      | some lane => toRust (validateSpanScalar (span.drop lane))
      | none => .error .panic
    else validateSpanNeon (span.drop 16)
  else toRust (validateSpanScalar span)
termination_by span.length
decreasing_by
  simp only [List.length_drop]
  omega

/-- Bytes that need no attention are accepted one by one. -/
theorem validateSpanScalar_drop {span : Bytes} {n : Nat}
    (calm : ∀ i < n, needsAttention (span.getD i 0) = false) :
    validateSpanScalar (span.drop n) = validateSpanScalar span := by
  induction n generalizing span with
  | zero => rfl
  | succ n ih =>
      cases span with
      | nil => rfl
      | cons b span =>
          have first := calm 0 (Nat.succ_pos n)
          simp only [List.getD_cons_zero, needsAttention, Bool.or_eq_false_iff,
            decide_eq_false_iff_not, UInt8.not_le, UInt8.not_lt,
            beq_eq_false_iff_ne] at first
          obtain ⟨⟨ascii, notSlash⟩, printable⟩ := first
          rw [List.drop_succ_cons, ih fun i small => by
            simpa using calm (i + 1) (Nat.succ_lt_succ small)]
          exact (validateSpanScalar_piece span (.plain printable ascii notSlash)).symm

theorem getLsbD_interestingAvx2 (chunk : Bytes) (i : Nat) :
    (interestingAvx2 chunk).getLsbD i =
      (decide (i < 32) && needsAttention (chunk.getD i 0)) := by
  -- the signed comparison also catches bytes with the high bit set
  have signed : ∀ b : UInt8, (decide (0x80 ≤ b) || b == 0x5C ||
      decide ((0x20 : Int8) > b.toInt8)) = needsAttention b :=
    forall_uint8 (by decide +kernel)
  simp only [interestingAvx2, BitVec.getLsbD_or, getLsbD_maskOf, ← signed]
  cases decide (i < 32) <;> simp

theorem getD_take {chunk : Bytes} {n i : Nat} (small : i < n) :
    (chunk.take n).getD i 0 = chunk.getD i 0 := by
  simp [List.getD_eq_getElem?_getD, small]

theorem validateSpanAvx2_eq (span : Bytes) :
    validateSpanAvx2 span = toRust (validateSpanScalar span) := by
  induction span using validateSpanAvx2.induct with
  | case1 span full hit =>
      rw [validateSpanAvx2, if_pos full, if_pos hit]
      obtain ⟨lane, -⟩ := getLsbD_trailingZeros hit
      rw [validateSpanScalar_drop fun i below => ?_]
      have clear := getLsbD_of_lt_trailingZeros below
      rw [getLsbD_interestingAvx2, getD_take (below.trans lane),
        decide_eq_true (below.trans lane), Bool.true_and] at clear
      exact clear
  | case2 span full miss ih =>
      rw [validateSpanAvx2, if_pos full, if_neg miss, ih,
        validateSpanScalar_drop fun i small => ?_]
      have clear := (eq_zero_iff _).1 (not_not.1 miss) i small
      rw [getLsbD_interestingAvx2, getD_take small, decide_eq_true small,
        Bool.true_and] at clear
      exact clear
  | case3 span short => rw [validateSpanAvx2, if_neg short]

/-- The NEON path agrees with the state machine, and its `unreachable!` is. -/
theorem validateSpanNeon_eq (span : Bytes) :
    validateSpanNeon span = toRust (validateSpanScalar span) := by
  induction span using validateSpanNeon.induct with
  | case1 span full hit lane found =>
      rw [validateSpanNeon, if_pos full, if_pos hit, found]
      simp only
      rw [validateSpanScalar_drop fun i below => ?_]
      have before := (List.find?_range_eq_some.1 found).2.2 i below
      simpa using before
  | case2 span full hit missing =>
      obtain ⟨b, member, attention⟩ := List.any_eq_true.1 hit
      obtain ⟨i, inside, rfl⟩ := List.getElem_of_mem member
      simp only [List.length_take] at inside
      have quiet := List.find?_eq_none.1 missing i (List.mem_range.2 (by omega))
      rw [List.getD_eq_getElem _ _ (by omega)] at quiet
      rw [List.getElem_take] at attention
      exact absurd attention quiet
  | case3 span full miss ih =>
      rw [validateSpanNeon, if_pos full, if_neg miss, ih,
        validateSpanScalar_drop fun i small => ?_]
      simp only [List.any_eq_true, not_exists, not_and] at miss
      have within : i < (span.take 16).length := by simp; omega
      have quiet := miss (span.take 16)[i] (List.getElem_mem _)
      rw [List.getD_eq_getElem _ _ (by omega)]
      simpa using quiet
  | case4 span short => rw [validateSpanNeon, if_neg short]

/-- On every span both vector paths return what the scalar state machine returns, error codes
included. -/
theorem vector_validators_eq_scalar (span : Bytes) :
    validateSpanAvx2 span = toRust (validateSpanScalar span) ∧
      validateSpanNeon span = toRust (validateSpanScalar span) :=
  ⟨validateSpanAvx2_eq span, validateSpanNeon_eq span⟩

end QJson.Validate

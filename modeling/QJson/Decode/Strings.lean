import QJson.Validate.Runs

/-!
# The string decoder

`src/decode/string.rs`.  As in the validator, an index into the span is modelled by
the bytes from that index on.  Only the `validate_string_span` call can tell the
modes apart; the loop behind it checks every escape again by itself.
-/

namespace QJson.Decode

open Rfc8259

/-- `parse_hex4`; `v` is a `u32`. -/
def parseHex4From (v : Nat) : Bytes → Except QjsonErr Nat
  | [] => .ok v
  | b :: rest =>
      match hexVal b with
      | some digit => parseHex4From ((v <<< 4) % 2 ^ 32 ||| digit) rest
      | none => .error .decodeFailed

@[inherit_doc parseHex4From] def parseHex4 (bytes : Bytes) : Except QjsonErr Nat :=
  parseHex4From 0 bytes

/-- `encode_utf8`. -/
def encodeUtf8 (cp : Nat) : Bytes :=
  if cp < 0x80 then [UInt8.ofNat cp]
  else if cp < 0x800 then
    [(0xC0 : UInt8) ||| UInt8.ofNat (cp >>> 6), (0x80 : UInt8) ||| UInt8.ofNat (cp &&& 0x3F)]
  else if cp < 0x10000 then
    [(0xE0 : UInt8) ||| UInt8.ofNat (cp >>> 12), (0x80 : UInt8) ||| UInt8.ofNat ((cp >>> 6) &&& 0x3F),
      (0x80 : UInt8) ||| UInt8.ofNat (cp &&& 0x3F)]
  else
    [(0xF0 : UInt8) ||| UInt8.ofNat (cp >>> 18), (0x80 : UInt8) ||| UInt8.ofNat ((cp >>> 12) &&& 0x3F),
      (0x80 : UInt8) ||| UInt8.ofNat ((cp >>> 6) &&& 0x3F), (0x80 : UInt8) ||| UInt8.ofNat (cp &&& 0x3F)]

/-- The low half of a surrogate pair; `span` starts behind the high half. -/
def decodeLow (high : Nat) (span : Bytes) : Except QjsonErr (Bytes × Bytes) :=
  if span.length < 6 ∨ span.take 2 ≠ [0x5C, 0x75] then .error .decodeFailed
  else
    match parseHex4 ((span.drop 2).take 4) with
    | .error code => .error code
    | .ok low =>
        if ¬ (0xDC00 ≤ low ∧ low ≤ 0xDFFF) then .error .decodeFailed
        else .ok (encodeUtf8 (0x10000 + ((high - 0xD800) <<< 10) + (low - 0xDC00)),
          span.drop 6)

/-- The `\u` arm; `span` starts at the hexadecimal digits. -/
def decodeUnicode (span : Bytes) : Except QjsonErr (Bytes × Bytes) :=
  if span.length < 4 then .error .decodeFailed
  else
    match parseHex4 (span.take 4) with
    | .error code => .error code
    | .ok unit =>
        if 0xD800 ≤ unit ∧ unit ≤ 0xDBFF then decodeLow unit (span.drop 4)
        else if 0xDC00 ≤ unit ∧ unit ≤ 0xDFFF then .error .decodeFailed
        else .ok (encodeUtf8 unit, span.drop 4)

/-- The byte that a two-character escape stands for. -/
def unescape (b : UInt8) : Option UInt8 :=
  if b = 0x22 then some 0x22
  else if b = 0x5C then some 0x5C
  else if b = 0x2F then some 0x2F
  else if b = 0x62 then some 0x08
  else if b = 0x66 then some 0x0C
  else if b = 0x6E then some 0x0A
  else if b = 0x72 then some 0x0D
  else if b = 0x74 then some 0x09
  else none

/-- One escape; `span` starts behind the backslash.  The bytes pushed to `scratch`
and the rest of the span. -/
def decodeEscape : Bytes → Except QjsonErr (Bytes × Bytes)
  | [] => .error .decodeFailed
  | b :: rest =>
      match unescape b with
      | some byte => .ok ([byte], rest)
      | none => if b = 0x75 then decodeUnicode rest else .error .decodeFailed

theorem decodeLow_shorter {high : Nat} {span out rest : Bytes}
    (ok : decodeLow high span = .ok (out, rest)) : rest.length < span.length := by
  unfold decodeLow at ok
  split at ok
  · cases ok
  · rename_i long
    split at ok
    · cases ok
    · split at ok
      · cases ok
      · obtain ⟨-, rfl⟩ := Prod.mk.inj (Except.ok.inj ok)
        rw [List.length_drop]
        omega

theorem decodeUnicode_shorter {span out rest : Bytes}
    (ok : decodeUnicode span = .ok (out, rest)) : rest.length < span.length := by
  unfold decodeUnicode at ok
  split at ok
  · cases ok
  · rename_i long
    split at ok
    · cases ok
    · split at ok
      · have := decodeLow_shorter ok
        rw [List.length_drop] at this
        omega
      · split at ok
        · cases ok
        · obtain ⟨-, rfl⟩ := Prod.mk.inj (Except.ok.inj ok)
          rw [List.length_drop]
          omega

theorem decodeEscape_shorter {span out rest : Bytes}
    (ok : decodeEscape span = .ok (out, rest)) : rest.length < span.length := by
  cases span with
  | nil => cases ok
  | cons b span =>
      have longer : span.length < (b :: span).length := Nat.lt_succ_self _
      rw [decodeEscape] at ok
      cases plain : unescape b with
      | some byte =>
          rw [plain] at ok
          obtain ⟨-, rfl⟩ := Prod.mk.inj (Except.ok.inj ok)
          exact longer
      | none =>
          rw [plain] at ok
          by_cases unicode : b = 0x75
          · simp only [if_pos unicode] at ok
            exact (decodeUnicode_shorter ok).trans longer
          · simp only [if_neg unicode] at ok
            cases ok

/-- The loop of `decode_string`: what is pushed to `scratch`. -/
def decodeFrom : Bytes → Except QjsonErr Bytes
  | [] => .ok []
  | b :: rest =>
      if b ≠ 0x5C then (decodeFrom rest).map (b :: ·)
      else
        match _ : decodeEscape rest with
        | .error code => .error code
        | .ok (out, rest) => (decodeFrom rest).map (out ++ ·)
termination_by span => span.length
decreasing_by
  · simp
  · have := decodeEscape_shorter ‹_›
    rw [List.length_cons]
    omega

/-- `decode_string` on the bytes between the quotes. -/
def decodeSpan (validate : Bytes → Rust QjsonErr Unit) (skipValidation : Bool)
    (span : Bytes) : Rust QjsonErr Bytes := do
  if skipValidation then .ok () else validate span
  if 0x5C ∈ span then toRust (decodeFrom span) else .ok span

/-- A span that passes validation decodes alike in both modes. -/
theorem decodeSpan_of_valid {validate : Bytes → Rust QjsonErr Unit} {span : Bytes}
    (valid : validate span = .ok ()) (skipValidation : Bool) :
    decodeSpan validate skipValidation span = decodeSpan validate true span := by
  cases skipValidation <;> simp [decodeSpan, valid]

/-- Decoding does not panic. -/
theorem decodeSpan_ne_panic {validate : Bytes → Rust QjsonErr Unit}
    (validator : Validate.IsStringValidator validate) (skipValidation : Bool)
    (span : Bytes) : decodeSpan validate skipValidation span ≠ .error .panic := by
  have calm {α : Type} (result : Except QjsonErr α) : toRust result ≠ .error .panic := by
    cases result <;> simp [toRust, fail]
  have last : (if 0x5C ∈ span then toRust (decodeFrom span) else .ok span) ≠
      (.error .panic : Rust QjsonErr Bytes) := by
    split
    · exact calm _
    · simp
  intro panicked
  rw [decodeSpan] at panicked
  cases skipValidation with
  | true => exact last panicked
  | false =>
      simp only [Bool.false_eq_true, if_false] at panicked
      cases checked : validate span with
      | ok result =>
          rw [checked] at panicked
          exact last panicked
      | error fault =>
          rw [checked] at panicked
          cases panicked
          exact calm _ ((validator span).symm.trans checked)

/-! ## Valid bodies decode -/

theorem parseHex4_of_hexUnit {hex : Bytes} {unit : Nat} (spelled : hexUnit hex = some unit) :
    parseHex4 hex = .ok unit := by
  unfold hexUnit at spelled
  split at spelled
  · rename_i a b c d
    simp only [Option.bind_eq_bind, Option.bind_eq_some_iff, Option.pure_def,
      Option.some.injEq] at spelled
    obtain ⟨a', digitA, b', digitB, c', digitC, d', digitD, rfl⟩ := spelled
    have smallA := Validate.hexVal_lt digitA
    have smallB := Validate.hexVal_lt digitB
    have smallC := Validate.hexVal_lt digitC
    have smallD := Validate.hexVal_lt digitD
    simp only [parseHex4, parseHex4From, digitA, digitB, digitC, digitD, Except.ok.injEq]
    rw [Validate.shift_or_digit (by omega) smallA, Validate.shift_or_digit (by omega) smallB,
      Validate.shift_or_digit (by omega) smallC, Validate.shift_or_digit (by omega) smallD]
    omega
  · cases spelled

theorem parseHex4_take {hex rest : Bytes} {unit : Nat} (spelled : hexUnit hex = some unit) :
    ¬ (hex ++ rest).length < 4 ∧ parseHex4 ((hex ++ rest).take 4) = .ok unit ∧
      (hex ++ rest).drop 4 = rest := by
  have four := length_of_hexUnit spelled
  refine ⟨by simp [four], ?_, by simp [← four]⟩
  rw [← four, List.take_left]
  exact parseHex4_of_hexUnit spelled

theorem decodeFrom_plain {b : UInt8} (rest : Bytes) (notSlash : b ≠ 0x5C) :
    decodeFrom (b :: rest) = (decodeFrom rest).map (b :: ·) := by
  rw [decodeFrom.eq_def]
  simp only [ne_eq, notSlash, not_false_eq_true, if_true]

theorem decodeFrom_escape {span out rest : Bytes} (ok : decodeEscape span = .ok (out, rest)) :
    decodeFrom (0x5C :: span) = (decodeFrom rest).map (out ++ ·) := by
  rw [decodeFrom.eq_def]
  simp only [ne_eq, not_true_eq_false, if_false]
  split
  · rename_i failed
    rw [ok] at failed
    cases failed
  · rename_i decoded
    rw [ok] at decoded
    cases decoded
    rfl

theorem decodeUnicode_unit {hex : Bytes} {unit : Nat} (rest : Bytes)
    (spelled : hexUnit hex = some unit) (notHigh : ¬ IsHigh unit) (notLow : ¬ IsLow unit) :
    decodeUnicode (hex ++ rest) = .ok (encodeUtf8 unit, rest) := by
  obtain ⟨long, parsed, dropped⟩ := @parseHex4_take _ rest _ spelled
  unfold IsHigh at notHigh
  unfold IsLow at notLow
  unfold decodeUnicode
  simp only [if_neg long, parsed]
  rw [if_neg notHigh, if_neg notLow, dropped]

theorem decodeUnicode_pair {high low : Bytes} {highUnit lowUnit : Nat} (rest : Bytes)
    (spelledHigh : hexUnit high = some highUnit) (isHigh : IsHigh highUnit)
    (spelledLow : hexUnit low = some lowUnit) (isLow : IsLow lowUnit) :
    decodeUnicode (high ++ 0x5C :: 0x75 :: (low ++ rest)) =
      .ok (encodeUtf8 (0x10000 + ((highUnit - 0xD800) <<< 10) + (lowUnit - 0xDC00)), rest) := by
  obtain ⟨long, parsed, dropped⟩ :=
    @parseHex4_take _ (0x5C :: 0x75 :: (low ++ rest)) _ spelledHigh
  obtain ⟨-, parsedLow, droppedLow⟩ := @parseHex4_take _ rest _ spelledLow
  have four := length_of_hexUnit spelledLow
  have enough : ¬ ((0x5C :: 0x75 :: (low ++ rest)).length < 6 ∨
      (0x5C :: 0x75 :: (low ++ rest)).take 2 ≠ [0x5C, 0x75]) := by
    simp [four]
  unfold IsHigh at isHigh
  unfold IsLow at isLow
  unfold decodeUnicode
  simp only [if_neg long, parsed]
  rw [if_pos isHigh, dropped, decodeLow, if_neg enough]
  simp only [List.drop_succ_cons, List.drop_zero, parsedLow]
  rw [if_neg (not_not.2 isLow), droppedLow]

theorem decodeFrom_bytes {text : Bytes} (rest : Bytes) (noSlash : ∀ b ∈ text, b ≠ 0x5C) :
    decodeFrom (text ++ rest) = (decodeFrom rest).map (text ++ ·) := by
  induction text with
  | nil =>
      rw [List.nil_append]
      cases decodeFrom rest <;> rfl
  | cons b text ih =>
      obtain ⟨first, others⟩ := List.forall_mem_cons.1 noSlash
      rw [List.cons_append, decodeFrom_plain _ first, ih others]
      cases decodeFrom rest <;> rfl

theorem unescape_of_simple {b : UInt8} (simple : isSimpleEscape b = true) :
    ∃ byte, unescape b = some byte := by
  simp only [isSimpleEscape, Bool.or_eq_true, beq_iff_eq] at simple
  rcases simple with ((((((rfl | rfl) | rfl) | rfl) | rfl) | rfl) | rfl) | rfl <;>
    exact ⟨_, rfl⟩

theorem noSlash_of_multi {text : Bytes} (multi : IsUtf8Multi text) : ∀ b ∈ text, b ≠ 0x5C := by
  rintro b member rfl
  exact absurd (multi.high _ member) (by decide)

/-- Every character decodes, whatever follows it. -/
theorem decodeFrom_piece {piece : Bytes} (valid : IsPiece piece) :
    ∃ out, ∀ rest, decodeFrom (piece ++ rest) = (decodeFrom rest).map (out ++ ·) := by
  cases valid with
  | @plain b _ _ notSlash => exact ⟨[b], fun rest => decodeFrom_plain rest notSlash⟩
  | utf8 multi => exact ⟨piece, fun rest => decodeFrom_bytes rest (noSlash_of_multi multi)⟩
  | @escape b simple =>
      obtain ⟨byte, plain⟩ := unescape_of_simple simple
      refine ⟨[byte], fun rest => @decodeFrom_escape (b :: rest) _ _ ?_⟩
      rw [decodeEscape, plain]
  | @unit hex unit spelled notHigh notLow =>
      refine ⟨encodeUtf8 unit, fun rest => @decodeFrom_escape (0x75 :: (hex ++ rest)) _ _ ?_⟩
      rw [decodeEscape]
      exact decodeUnicode_unit rest spelled notHigh notLow
  | @pair high low highUnit lowUnit spelledHigh isHigh spelledLow isLow =>
      refine ⟨encodeUtf8 (0x10000 + ((highUnit - 0xD800) <<< 10) + (lowUnit - 0xDC00)),
        fun rest => ?_⟩
      rw [List.cons_append, List.cons_append, List.append_assoc]
      refine decodeFrom_escape ?_
      rw [decodeEscape]
      exact decodeUnicode_pair rest spelledHigh isHigh spelledLow isLow

theorem decodeFrom_span {body : Bytes} (valid : IsSpan body) :
    ∃ text, decodeFrom body = .ok text := by
  induction valid with
  | nil =>
      refine ⟨[], ?_⟩
      rw [decodeFrom.eq_def]
  | @cons piece rest valid _ ih =>
      obtain ⟨out, decoded⟩ := decodeFrom_piece valid
      obtain ⟨text, tail⟩ := ih
      rw [decoded, tail]
      exact ⟨_, rfl⟩

/-- What a string with a valid body reads as. -/
def bodyText (body : Bytes) : Bytes :=
  if 0x5C ∈ body then
    match decodeFrom body with
    | .ok text => text
    | .error _ => []
  else body

/-- A valid body decodes to its text in both modes. -/
theorem decodeSpan_body {validate : Bytes → Rust QjsonErr Unit}
    (validator : Validate.IsStringValidator validate) {body : Bytes} (valid : IsSpan body)
    (skipValidation : Bool) :
    decodeSpan validate skipValidation body = .ok (bodyText body) := by
  have accepted : validate body = .ok () := by
    rw [validator, (Validate.validateSpanScalar_ok_iff body).2 valid]
    rfl
  obtain ⟨text, decoded⟩ := decodeFrom_span valid
  rw [decodeSpan_of_valid accepted, decodeSpan, bodyText]
  simp only [if_true, ok_bind, decoded]
  split <;> rfl

end QJson.Decode

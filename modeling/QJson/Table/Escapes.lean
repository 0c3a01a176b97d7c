import QJson.Decode.Text
import QJson.Scan.Scalar
import QJson.Table.Encode

/-!
# Encoded strings read back

What `encode_string` writes is one string token for the scanner, its interior decodes to the
bytes that were encoded, and the validator accepts it when they are valid UTF-8.
-/

namespace QJson.Table

open Rfc8259 Validate Doc Decode Scan

/-! ## The loop -/

/-- The loop of `encode_string` with the bytes from position `i` on left to scan.  Positions
count from zero: `last` is where the segment that is not yet copied begins. -/
def encodeStringFrom (s : Bytes) :
    (rest : Bytes) → (i last : Nat) → (out : Option (List Bytes)) → Bytes
  | [], _, _, none => 0x22 :: (s ++ [0x22])
  | [], _, last, some out =>
      let out := if last < s.length then out ++ [sub s last s.length] else out
      (out ++ [[0x22]]).flatten
  | b :: rest, i, last, out =>
      if (escapeOf b).isSome ∨ b < 0x20 then
        let out := out.getD [[0x22]]
        let out := if last < i then out ++ [sub s last i] else out
        encodeStringFrom s rest (i + 1) (i + 1) (some (out ++ [escapeByte b]))
      else encodeStringFrom s rest (i + 1) last out

/-- `encode_string`, with its segments. -/
def encodeStringLoop (s : Bytes) : Bytes := encodeStringFrom s s 0 0 none

/-- What is collected, and the segment that is not yet copied. -/
def collected (out : Option (List Bytes)) (segment : Bytes) : Bytes :=
  (out.getD [[0x22]]).flatten ++ segment

theorem sub_of_le {s : Bytes} {first stop : Nat} (empty : stop ≤ first) :
    sub s first stop = [] := by
  rw [sub, Nat.sub_eq_zero_of_le empty, List.take_zero]

theorem sub_succ {s done rest : Bytes} {b : UInt8} (split : s = done ++ b :: rest) {last : Nat}
    (before : last ≤ done.length) :
    sub s last (done.length + 1) = sub s last done.length ++ [b] := by
  have behind : s.drop last = done.drop last ++ b :: rest := by
    rw [split, List.drop_append_of_le_length before]
  have length : (done.drop last).length = done.length - last := List.length_drop ..
  rw [sub, sub, behind, Nat.sub_add_comm before, ← length, List.take_left,
    List.take_length_add_append]
  rfl

/-- What is collected and the segment behind it, copied or left out when it is empty. -/
theorem flatten_segment (out : List Bytes) (s : Bytes) (first stop : Nat) :
    (if first < stop then out ++ [sub s first stop] else out).flatten =
      out.flatten ++ sub s first stop := by
  by_cases some_ : first < stop
  · rw [if_pos some_, List.flatten_append, List.flatten_singleton]
  · rw [if_neg some_, sub_of_le (Nat.not_lt.1 some_), List.append_nil]

/-- A byte that is copied. -/
theorem escapeByte_copied {b : UInt8} (copied : ¬ ((escapeOf b).isSome ∨ b < 0x20)) :
    escapeByte b = [b] := by
  rw [not_or] at copied
  rw [escapeByte, Option.not_isSome_iff_eq_none.1 copied.1]
  exact if_neg copied.2

theorem encodeStringFrom_eq {s : Bytes} (done rest : Bytes) (split : s = done ++ rest)
    {last : Nat} (before : last ≤ done.length) (out : Option (List Bytes))
    (first : out = none → last = 0)
    (copied : collected out (sub s last done.length) = 0x22 :: done.flatMap escapeByte) :
    encodeStringFrom s rest done.length last out = encodeString s := by
  induction rest generalizing done last out with
  | nil =>
      rw [List.append_nil] at split
      subst split
      cases out with
      | none =>
          obtain rfl := first rfl
          have whole : sub s 0 s.length = s := by simp [sub]
          rw [whole] at copied
          rw [encodeStringFrom, encodeString, ← List.cons_append, ← List.cons_append, ← copied]
          rfl
      | some out =>
          rw [encodeStringFrom, encodeString, List.flatten_append, flatten_segment,
            ← List.cons_append, ← copied]
          rfl
  | cons b rest ih =>
      have next : s = (done ++ [b]) ++ rest := by rw [split, List.append_assoc]; rfl
      have length : (done ++ [b]).length = done.length + 1 := List.length_append
      rw [encodeStringFrom]
      by_cases escaped : (escapeOf b).isSome ∨ b < 0x20
      · rw [if_pos escaped, ← length]
        refine ih (done ++ [b]) next le_rfl _ nofun ?_
        rw [sub_of_le le_rfl, collected, List.append_nil, Option.getD_some, List.flatten_append,
          flatten_segment, List.flatten_singleton, List.flatMap_append, List.flatMap_singleton,
          ← List.cons_append, ← copied]
        rfl
      · rw [if_neg escaped, ← length]
        refine ih (done ++ [b]) next (by omega) out first ?_
        rw [length, sub_succ split before, collected, ← List.append_assoc, List.flatMap_append,
          List.flatMap_singleton, escapeByte_copied escaped, ← List.cons_append, ← copied]
        rfl

theorem encodeStringLoop_eq (s : Bytes) : encodeStringLoop s = encodeString s :=
  encodeStringFrom_eq [] s rfl le_rfl none (fun _ => rfl) rfl

/-! ## Single bytes -/

/-- An escape sequence is undone by the decoder. -/
theorem unescape_escapeOf : ∀ b : UInt8, ∀ esc ∈ escapeOf b,
    unescape esc = some b ∧ isSimpleEscape esc = true := by
  have undone : ∀ b : UInt8, (escapeOf b).all fun esc =>
      decide (unescape esc = some b ∧ isSimpleEscape esc = true) :=
    Bits.forall_uint8 (by decide +kernel)
  intro b esc member
  have here := undone b
  rw [Option.mem_def.1 member] at here
  exact of_decide_eq_true here

theorem unitEscape_digits : ∀ b : UInt8, b < 0x20 →
    hexUnit [0x30, 0x30, hexDigit (b.toNat / 16), hexDigit (b.toNat % 16)] = some b.toNat ∧
      hexDigit (b.toNat / 16) ≠ 0x5C ∧ hexDigit (b.toNat / 16) ≠ 0x22 ∧
      hexDigit (b.toNat % 16) ≠ 0x5C ∧ hexDigit (b.toNat % 16) ≠ 0x22 :=
  Bits.forall_uint8 (by decide +kernel)

/-- Bytes without an escape sequence are neither quotes nor backslashes. -/
theorem plain_of_escapeOf : ∀ b : UInt8, escapeOf b = none → b ≠ 0x5C ∧ b ≠ 0x22 :=
  Bits.forall_uint8 (by decide +kernel)

theorem inert_escapeByte (b : UInt8) : IsInert (escapeByte b) := by
  rw [escapeByte]
  cases escape : escapeOf b with
  | some esc => exact .escape .nil
  | none =>
      obtain ⟨notSlash, notQuote⟩ := plain_of_escapeOf b escape
      by_cases control : b < 0x20
      · obtain ⟨-, slashH, quoteH, slashL, quoteL⟩ := unitEscape_digits b control
        simp only [if_pos control, unitEscape]
        exact .escape (.plain (by decide) (by decide) (.plain (by decide) (by decide)
          (.plain slashH quoteH (.plain slashL quoteL .nil))))
      · simp only [if_neg control]
        exact .plain notSlash notQuote .nil

/-- What is written for a byte decodes to it. -/
theorem decodeFrom_escapeByte (b : UInt8) (rest : Bytes) :
    decodeFrom (escapeByte b ++ rest) = (decodeFrom rest).map (b :: ·) := by
  rw [escapeByte]
  cases escape : escapeOf b with
  | some esc =>
      have undone := (unescape_escapeOf b esc escape).1
      refine @decodeFrom_escape (esc :: rest) [b] _ ?_
      rw [decodeEscape, undone]
  | none =>
      have notSlash := (plain_of_escapeOf b escape).1
      by_cases control : b < 0x20
      · simp only [if_pos control]
        have small : b.toNat < 0x20 := UInt8.lt_iff_toNat_lt.1 control
        have text : encodeUtf8 b.toNat = [b] := by
          rw [encodeUtf8, if_pos (by omega), UInt8.ofNat_toNat]
        refine @decodeFrom_escape (0x75 :: 0x30 :: 0x30 :: _) [b] _ ?_
        rw [decodeEscape, ← text]
        exact decodeUnicode_unit rest (unitEscape_digits b control).1
          (by unfold IsHigh; omega) (by unfold IsLow; omega)
      · simp only [if_neg control]
        exact decodeFrom_plain rest notSlash

/-- What is written for a character below `U+0080` is a character of a string. -/
theorem isPiece_escapeByte {b : UInt8} (ascii : b < 0x80) : IsPiece (escapeByte b) := by
  rw [escapeByte]
  cases escape : escapeOf b with
  | some esc => exact .escape (unescape_escapeOf b esc escape).2
  | none =>
      by_cases control : b < 0x20
      · have small : b.toNat < 0x20 := UInt8.lt_iff_toNat_lt.1 control
        simp only [if_pos control]
        exact .unit (unitEscape_digits b control).1 (by unfold IsHigh; omega)
          (by unfold IsLow; omega)
      · simp only [if_neg control]
        exact .plain (UInt8.not_lt.1 control) ascii (plain_of_escapeOf b escape).1

/-- Bytes from `0x80` on are copied. -/
theorem flatMap_escapeByte {text : Bytes} (high : ∀ b ∈ text, 0x80 ≤ b) :
    text.flatMap escapeByte = text := by
  have copied : ∀ b : UInt8, 0x80 ≤ b → escapeByte b = [b] :=
    Bits.forall_uint8 (by decide +kernel)
  rw [List.flatMap_congr fun b member => copied b (high b member), List.flatMap_singleton']

/-! ## Whole strings -/

/-- The interior does not end the string. -/
theorem inert_interior (x : Bytes) : IsInert (x.flatMap escapeByte) := by
  induction x with
  | nil => exact .nil
  | cons b x ih =>
      rw [List.flatMap_cons]
      exact (inert_escapeByte b).append ih

/-- The interior decodes to what was encoded. -/
theorem decodeFrom_interior (x : Bytes) : decodeFrom (x.flatMap escapeByte) = .ok x := by
  induction x with
  | nil => rw [List.flatMap_nil, decodeFrom.eq_def]
  | cons b x ih =>
      rw [List.flatMap_cons, decodeFrom_escapeByte, ih]
      rfl

/-- The interior of valid UTF-8 is a string body. -/
theorem isSpan_interior {x : Bytes} (valid : IsUtf8 x) : IsSpan (x.flatMap escapeByte) := by
  obtain ⟨chars, rfl⟩ := valid
  induction chars with
  | nil => exact .nil
  | cons c chars ih =>
      rw [List.flatMap_cons, List.flatMap_append]
      refine .cons ?_ ih
      by_cases ascii : c.val.toNat < 0x80
      · have single : String.utf8EncodeChar c = [UInt8.ofNat c.val.toNat] := by
          unfold String.utf8EncodeChar
          exact if_pos (Nat.lt_succ_iff.1 ascii)
        rw [single, List.flatMap_singleton]
        refine isPiece_escapeByte ?_
        rw [UInt8.lt_iff_toNat_lt, UInt8.toNat_ofNat', Nat.mod_eq_of_lt (by omega)]
        exact ascii
      · have multi := isUtf8Multi_encode c (Nat.not_lt.1 ascii)
        rw [flatMap_escapeByte multi.high]
        exact .utf8 multi

/-- The validator accepts the interior exactly for valid UTF-8. -/
theorem validate_interior_iff (strings : StringPath) (x : Bytes) :
    strings.validate (x.flatMap escapeByte) = .ok () ↔ IsUtf8 x := by
  rw [strings.isStringValidator, toRust_eq_ok_iff, validateSpanScalar_ok_iff]
  constructor
  · intro span
    obtain ⟨text, denotes, valid⟩ := exists_text span
    have decoded := decodeFrom_text denotes
    rw [decodeFrom_interior] at decoded
    exact Except.ok.inj decoded ▸ valid
  · exact isSpan_interior

/-- An encoded string is one token for the scanner, closed at its last byte; its interior
decodes to what was encoded, and is a valid string body exactly for valid UTF-8. -/
theorem encodeString_reads_back (strings : StringPath) (x : Bytes) :
    ∃ interior, encodeStringLoop x = 0x22 :: (interior ++ [0x22]) ∧
      (∀ len rest i stack,
        scanAndValidateFrom len (encodeStringLoop x ++ rest) i false stack =
          ((scanAndValidateFrom len rest (i + (encodeStringLoop x).length) false stack).push
            (i + ((encodeStringLoop x).length - 1))).push i) ∧
      decodeSpan strings.validate true interior = .ok x ∧
      (strings.validate interior = .ok () ↔ IsUtf8 x) := by
  refine ⟨x.flatMap escapeByte, encodeStringLoop_eq x, fun len rest i stack => ?_, ?_,
    validate_interior_iff strings x⟩
  · have length : (encodeStringLoop x).length = (x.flatMap escapeByte).length + 2 := by
      rw [encodeStringLoop_eq, encodeString, List.length_cons, List.length_append]
      rfl
    rw [length, encodeStringLoop_eq, encodeString, List.cons_append, List.append_assoc]
    have behind : i + 1 + (x.flatMap escapeByte).length + 1 =
        i + ((x.flatMap escapeByte).length + 2) := by omega
    have closing : i + 1 + (x.flatMap escapeByte).length =
        i + ((x.flatMap escapeByte).length + 2 - 1) := by omega
    rw [List.singleton_append, scanFrom_string (inert_interior x), behind, closing]
  · rw [decodeSpan_skip, decodeFrom_interior]
    rfl

end QJson.Table

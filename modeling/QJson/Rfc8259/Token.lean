import QJson.Rfc8259.Bytes

/-!
# Tokens of RFC 8259

The three kinds of leaf token of the grammar: numbers (§6), string bodies (§7,
with the UTF-8 syntax of RFC 3629), and the literal names (§3).  Each is a
predicate on byte strings, stated production by production and independently of
any program that recognises it.
-/

namespace QJson.Rfc8259

/-! ## Numbers -/

/-- `1*DIGIT`. -/
def IsDigits (text : Bytes) : Prop :=
  text ≠ [] ∧ ∀ b ∈ text, isDigit b = true

/-- `int = zero / ( digit1-9 *DIGIT )`. -/
inductive IsInt : Bytes → Prop where
  | zero : IsInt [0x30]
  | nonzero {b : UInt8} {digits : Bytes} :
      isDigit b = true → b ≠ 0x30 → (∀ d ∈ digits, isDigit d = true) →
      IsInt (b :: digits)

/-- `[ frac ]`, with `frac = decimal-point 1*DIGIT`. -/
inductive IsFrac : Bytes → Prop where
  | none : IsFrac []
  | some {digits : Bytes} : IsDigits digits → IsFrac (0x2E :: digits)

/-- `[ minus / plus ]` in front of an exponent. -/
inductive IsSign : Bytes → Prop where
  | none : IsSign []
  | plus : IsSign [0x2B]
  | minus : IsSign [0x2D]

/-- `[ exp ]`, with `exp = e [ minus / plus ] 1*DIGIT`. -/
inductive IsExp : Bytes → Prop where
  | none : IsExp []
  | some {e : UInt8} {sign digits : Bytes} :
      e = 0x65 ∨ e = 0x45 → IsSign sign → IsDigits digits →
      IsExp (e :: (sign ++ digits))

/-- `number = [ minus ] int [ frac ] [ exp ]`. -/
inductive IsNumber : Bytes → Prop where
  | mk {minus int frac exp : Bytes} :
      minus = [] ∨ minus = [0x2D] → IsInt int → IsFrac frac → IsExp exp →
      IsNumber (minus ++ int ++ frac ++ exp)

/-- The literal names `true`, `false` and `null`. -/
def litTrue : Bytes := [0x74, 0x72, 0x75, 0x65]
@[inherit_doc litTrue] def litFalse : Bytes := [0x66, 0x61, 0x6C, 0x73, 0x65]
@[inherit_doc litTrue] def litNull : Bytes := [0x6E, 0x75, 0x6C, 0x6C]

/-- A value that is neither a string nor a container. -/
inductive IsScalar : Bytes → Prop where
  | true : IsScalar litTrue
  | false : IsScalar litFalse
  | null : IsScalar litNull
  | number {text : Bytes} : IsNumber text → IsScalar text

/-! ## Strings -/

/-- A continuation byte of RFC 3629, `UTF8-tail = %x80-BF`. -/
def IsTail (b : UInt8) : Prop := 0x80 ≤ b ∧ b ≤ 0xBF

instance (b : UInt8) : Decidable (IsTail b) :=
  inferInstanceAs (Decidable (0x80 ≤ b ∧ b ≤ 0xBF))

/-- The multi-byte sequences of RFC 3629 §4: no overlong form, no surrogate,
nothing above U+10FFFF. -/
inductive IsUtf8Multi : Bytes → Prop where
  | two {a b : UInt8} : 0xC2 ≤ a → a ≤ 0xDF → IsTail b → IsUtf8Multi [a, b]
  | e0 {b c : UInt8} : 0xA0 ≤ b → b ≤ 0xBF → IsTail c →
      IsUtf8Multi [0xE0, b, c]
  | ed {b c : UInt8} : 0x80 ≤ b → b ≤ 0x9F → IsTail c →
      IsUtf8Multi [0xED, b, c]
  | three {a b c : UInt8} : 0xE1 ≤ a → a ≤ 0xEF → a ≠ 0xED → IsTail b →
      IsTail c → IsUtf8Multi [a, b, c]
  | f0 {b c d : UInt8} : 0x90 ≤ b → b ≤ 0xBF → IsTail c → IsTail d →
      IsUtf8Multi [0xF0, b, c, d]
  | f4 {b c d : UInt8} : 0x80 ≤ b → b ≤ 0x8F → IsTail c → IsTail d →
      IsUtf8Multi [0xF4, b, c, d]
  | four {a b c d : UInt8} : 0xF1 ≤ a → a ≤ 0xF3 → IsTail b → IsTail c →
      IsTail d → IsUtf8Multi [a, b, c, d]

/-- A multi-byte sequence has no ASCII byte. -/
theorem IsUtf8Multi.high {text : Bytes} (multi : IsUtf8Multi text) : ∀ b ∈ text, 0x80 ≤ b := by
  cases multi with
  | two low _ tailB => simp [UInt8.le_trans _ low, tailB.1]
  | e0 low _ tailC => simp [UInt8.le_trans _ low, tailC.1]
  | ed low _ tailC => simp [low, tailC.1]
  | three low _ _ tailB tailC => simp [UInt8.le_trans _ low, tailB.1, tailC.1]
  | f0 low _ tailC tailD => simp [UInt8.le_trans _ low, tailC.1, tailD.1]
  | f4 low _ tailC tailD => simp [low, tailC.1, tailD.1]
  | four low _ tailB tailC tailD => simp [UInt8.le_trans _ low, tailB.1, tailC.1, tailD.1]

/-- The eight two-character escapes of RFC 8259 §7. -/
def isSimpleEscape (b : UInt8) : Bool :=
  b == 0x22 || b == 0x5C || b == 0x2F || b == 0x62 || b == 0x66 || b == 0x6E ||
    b == 0x72 || b == 0x74

/-- The UTF-16 code unit spelled by exactly four hexadecimal digits. -/
def hexUnit : Bytes → Option Nat
  | [a, b, c, d] => do
      let a ← hexVal a
      let b ← hexVal b
      let c ← hexVal c
      let d ← hexVal d
      pure (a * 4096 + b * 256 + c * 16 + d)
  | _ => none

/-- High and low halves of a surrogate pair. -/
def IsHigh (unit : Nat) : Prop := 0xD800 ≤ unit ∧ unit ≤ 0xDBFF
@[inherit_doc IsHigh] def IsLow (unit : Nat) : Prop :=
  0xDC00 ≤ unit ∧ unit ≤ 0xDFFF

instance (unit : Nat) : Decidable (IsHigh unit) :=
  inferInstanceAs (Decidable (_ ∧ _))
instance (unit : Nat) : Decidable (IsLow unit) :=
  inferInstanceAs (Decidable (_ ∧ _))

/-- One character of a string body, as it is spelled between the quotes.
`plain` still contains the quotation mark, which only the enclosing string
rules out. -/
inductive IsPiece : Bytes → Prop where
  | plain {b : UInt8} : 0x20 ≤ b → b < 0x80 → b ≠ 0x5C → IsPiece [b]
  | utf8 {text : Bytes} : IsUtf8Multi text → IsPiece text
  | escape {b : UInt8} : isSimpleEscape b = true → IsPiece [0x5C, b]
  | unit {hex : Bytes} {unit : Nat} : hexUnit hex = some unit →
      ¬ IsHigh unit → ¬ IsLow unit → IsPiece (0x5C :: 0x75 :: hex)
  | pair {high low : Bytes} {highUnit lowUnit : Nat} :
      hexUnit high = some highUnit → IsHigh highUnit →
      hexUnit low = some lowUnit → IsLow lowUnit →
      IsPiece (0x5C :: 0x75 :: (high ++ 0x5C :: 0x75 :: low))

/-- A concatenation of characters, quotation marks allowed: the language of a
byte span whose surrounding quotes were found by other means. -/
inductive IsSpan : Bytes → Prop where
  | nil : IsSpan []
  | cons {piece rest : Bytes} : IsPiece piece → IsSpan rest →
      IsSpan (piece ++ rest)

/-- `*char` of RFC 8259 §7: the interior of a string, in which a quotation mark
has to be escaped. -/
inductive IsBody : Bytes → Prop where
  | nil : IsBody []
  | cons {piece rest : Bytes} : IsPiece piece → piece ≠ [0x22] →
      IsBody rest → IsBody (piece ++ rest)

theorem IsBody.isSpan {text : Bytes} (body : IsBody text) : IsSpan text := by
  induction body with
  | nil => exact .nil
  | cons piece _ _ ih => exact .cons piece ih

/-! ## Shape of tokens -/

/-- No character is spelled by the empty string. -/
theorem IsPiece.ne_nil {piece : Bytes} (h : IsPiece piece) : piece ≠ [] := by
  cases h with
  | utf8 multi => cases multi <;> simp
  | _ => simp

theorem length_of_hexUnit {hex : Bytes} {unit : Nat}
    (spelled : hexUnit hex = some unit) : hex.length = 4 := by
  unfold hexUnit at spelled
  split at spelled
  · rfl
  · cases spelled

theorem isDigit_not_isWs {b : UInt8} (digit : isDigit b = true) :
    isWs b = false := by
  simp only [isDigit, Bool.and_eq_true, decide_eq_true_eq] at digit
  have := UInt8.le_iff_toNat_le.1 digit.1
  rw [← Bool.not_eq_true]
  intro ws
  rcases isWs_cases ws with rfl | rfl | rfl | rfl <;> simp at this

theorem isDigit_not_isMark {b : UInt8} (digit : isDigit b = true) :
    isMark b = false := by
  simp only [isDigit, Bool.and_eq_true, decide_eq_true_eq] at digit
  rw [← Bool.not_eq_true]
  intro mark
  rcases isMark_cases mark with rfl | rfl | rfl | rfl | rfl | rfl | rfl <;>
    exact absurd digit (by decide)

/-- A byte that may occur in a scalar token: neither whitespace nor a mark nor
a backslash. -/
def IsInk (b : UInt8) : Prop :=
  isWs b = false ∧ isMark b = false ∧ b ≠ 0x5C

theorem isInk_of_isDigit {b : UInt8} (digit : isDigit b = true) : IsInk b := by
  refine ⟨isDigit_not_isWs digit, isDigit_not_isMark digit, ?_⟩
  rintro rfl
  exact absurd digit (by decide)

theorem IsInt.isInk {text : Bytes} (int : IsInt text) : ∀ b ∈ text, IsInk b := by
  cases int with
  | zero => simp [IsInk]; decide
  | nonzero first _ rest =>
      intro b member
      rcases List.mem_cons.1 member with rfl | tail
      · exact isInk_of_isDigit first
      · exact isInk_of_isDigit (rest b tail)

theorem IsFrac.isInk {text : Bytes} (frac : IsFrac text) :
    ∀ b ∈ text, IsInk b := by
  cases frac with
  | none => simp
  | some digits =>
      intro b member
      rcases List.mem_cons.1 member with rfl | tail
      · exact ⟨rfl, rfl, by decide⟩
      · exact isInk_of_isDigit (digits.2 b tail)

theorem IsExp.isInk {text : Bytes} (exp : IsExp text) :
    ∀ b ∈ text, IsInk b := by
  cases exp with
  | none => simp
  | some letter sign digits =>
      intro b member
      rcases List.mem_cons.1 member with rfl | tail
      · rcases letter with rfl | rfl <;> exact ⟨rfl, rfl, by decide⟩
      · rcases List.mem_append.1 tail with inSign | inDigits
        · cases sign with
          | none => simp at inSign
          | plus =>
              obtain rfl := List.mem_singleton.1 inSign
              exact ⟨rfl, rfl, by decide⟩
          | minus =>
              obtain rfl := List.mem_singleton.1 inSign
              exact ⟨rfl, rfl, by decide⟩
        · exact isInk_of_isDigit (digits.2 b inDigits)

theorem IsNumber.isInk {text : Bytes} (number : IsNumber text) :
    ∀ b ∈ text, IsInk b := by
  cases number with
  | mk minus int frac exp =>
      intro b member
      simp only [List.mem_append] at member
      rcases member with ((inMinus | inInt) | inFrac) | inExp
      · rcases minus with rfl | rfl
        · simp at inMinus
        · obtain rfl := List.mem_singleton.1 inMinus
          exact ⟨rfl, rfl, by decide⟩
      · exact int.isInk b inInt
      · exact frac.isInk b inFrac
      · exact exp.isInk b inExp

/-- A scalar token contains neither whitespace nor marks nor backslashes. -/
theorem IsScalar.isInk {text : Bytes} (scalar : IsScalar text) :
    ∀ b ∈ text, IsInk b := by
  cases scalar with
  | true => simp [litTrue, IsInk]; decide
  | false => simp [litFalse, IsInk]; decide
  | null => simp [litNull, IsInk]; decide
  | number number => exact number.isInk

theorem IsNumber.exists_cons {text : Bytes} (number : IsNumber text) :
    ∃ b rest, text = b :: rest ∧ (b = 0x2D ∨ isDigit b = true) := by
  cases number with
  | mk minus int frac exp =>
      rcases minus with rfl | rfl
      · cases int with
        | zero => exact ⟨_, _, rfl, .inr rfl⟩
        | nonzero digit _ _ => exact ⟨_, _, rfl, .inr digit⟩
      · exact ⟨_, _, rfl, .inl rfl⟩

theorem IsNumber.ne_nil {text : Bytes} (number : IsNumber text) : text ≠ [] := by
  cases number with
  | mk _ int _ _ => cases int <;> simp

theorem IsScalar.ne_nil {text : Bytes} (scalar : IsScalar text) : text ≠ [] := by
  cases scalar with
  | number number => exact number.ne_nil
  | _ => simp [litTrue, litFalse, litNull]

end QJson.Rfc8259

import QJson.Source.Calm
import QJson.Validate.Number

/-!
# The number decoders

`src/decode/number.rs`.  Integer arithmetic is checked, with the bounds of `i64` and
`u64`; taking `b'0'` from a smaller byte panics.  The floating-point parser of the
standard library is a parameter.
-/

namespace QJson.Decode

open Rfc8259 Validate

/-- What `parse_f64` uses of the standard library: `str::from_utf8` succeeds,
`str::parse::<f64>` and `f64::is_finite`. -/
structure StdFloat (F : Type) where
  fromUtf8 : Bytes → Bool
  parse : Bytes → Option F
  isFinite : F → Bool

/-- A standard library that reads every number as the same value. -/
def unitFloat : StdFloat Unit := ⟨fun _ => true, fun _ => some (), fun _ => true⟩

/-- `b'-' | b'0'..=b'9'`. -/
def startsNumber (b : UInt8) : Bool := b == 0x2D || isDigit b

/-- The validation or, where it is skipped, the guard on the first byte. -/
def admission (skipValidation : Bool) (starts : UInt8 → Bool) (bytes : Bytes) :
    Rust QjsonErr Unit :=
  if skipValidation then
    match bytes.head? with
    | none => fail .invalidNumber
    | some b => if starts b then .ok () else fail .invalidNumber
  else toRust (validateNumber bytes)

/-- `v.checked_mul(10).and_then(|x| x.checked_add(d))` within bounds. -/
def checked (low high : Int) (n : Int) : Option Int :=
  if low ≤ n ∧ n ≤ high then some n else none

/-- The digit loop of `parse_i64` and `parse_u64`; `sign` is the factor the digits
come with. -/
def digitLoop (low high sign : Int) : (v : Int) → Bytes → Rust QjsonErr Int
  | v, [] => .ok v
  | v, c :: rest =>
      if c < 0x30 then .error .panic
      else
        let digit : Int := (c.toNat : Int) - 0x30
        match (checked low high (v * 10)).bind fun x => checked low high (x + sign * digit) with
        | some n => digitLoop low high sign n rest
        | none => fail .outOfRange

/-- `memchr3(b'.', b'e', b'E', bytes).is_some()`. -/
def hasFraction (bytes : Bytes) : Bool :=
  bytes.any fun b => b == 0x2E || b == 0x65 || b == 0x45

/-- `parse_i64`. -/
def parseI64 (bytes : Bytes) (skipValidation : Bool) : Rust QjsonErr Int := do
  admission skipValidation startsNumber bytes
  if bytes = [] then fail .invalidNumber
  else if hasFraction bytes then fail .typeMismatch
  else if bytes.head? = some 0x2D then digitLoop (-2 ^ 63) (2 ^ 63 - 1) (-1) 0 bytes.tail
  else digitLoop (-2 ^ 63) (2 ^ 63 - 1) 1 0 bytes

/-- `parse_u64`. -/
def parseU64 (bytes : Bytes) (skipValidation : Bool) : Rust QjsonErr Int := do
  admission skipValidation startsNumber bytes
  if bytes = [] then fail .invalidNumber
  else if hasFraction bytes then fail .typeMismatch
  else if bytes.head? = some 0x2D then fail .outOfRange
  else digitLoop 0 (2 ^ 64 - 1) 1 0 bytes

/-- `parse_f64`. -/
def parseF64 {F : Type} (std : StdFloat F) (bytes : Bytes) (skipValidation : Bool) :
    Rust QjsonErr F := do
  admission skipValidation (fun b => startsNumber b || b == 0x2E) bytes
  if std.fromUtf8 bytes then
    match std.parse bytes with
    | some v => if std.isFinite v then .ok v else fail .numberOutOfRange
    | none => fail .decodeFailed
  else fail .decodeFailed

/-! ## Scalars decode alike in both modes -/

/-- Where the guard on the first byte stands in for the validation, it tells the same
scalars from numbers. -/
theorem admit_scalar {starts : UInt8 → Bool} {bytes : Bytes}
    (numeric : ∀ b, startsNumber b = true → starts b = true)
    (literal : starts 0x74 = false ∧ starts 0x66 = false ∧ starts 0x6E = false)
    (shape : bytes = [] ∨ IsScalar bytes) :
    admission true starts bytes = admission false starts bytes := by
  have rejects {b : UInt8} {rest : Bytes} (no : starts b = false)
      (rejected : validateNumber (b :: rest) = .error .invalidNumber) :
      admission true starts (b :: rest) = admission false starts (b :: rest) := by
    simp [admission, rejected, toRust, no]
  rcases shape with rfl | scalar
  · rfl
  · cases scalar with
    | true => exact rejects literal.1 (by decide)
    | false => exact rejects literal.2.1 (by decide)
    | null => exact rejects literal.2.2 (by decide)
    | number number =>
        have accepted := (validateNumber_ok_iff bytes).2 number
        obtain ⟨b, rest, rfl, first⟩ := number.exists_cons
        have starting : starts b = true := numeric b (by simpa [startsNumber] using first)
        simp [admission, accepted, toRust, starting]

section Scalars

variable {F : Type} {bytes : Bytes} (shape : bytes = [] ∨ IsScalar bytes)
include shape

theorem parseI64_scalar : parseI64 bytes true = parseI64 bytes false := by
  have same := @admit_scalar startsNumber bytes (fun _ => id) (by decide) shape
  rw [parseI64, parseI64, same]

theorem parseU64_scalar : parseU64 bytes true = parseU64 bytes false := by
  have same := @admit_scalar startsNumber bytes (fun _ => id) (by decide) shape
  rw [parseU64, parseU64, same]

theorem parseF64_scalar (std : StdFloat F) :
    parseF64 std bytes true = parseF64 std bytes false := by
  have same := @admit_scalar (fun b => startsNumber b || b == 0x2E) bytes
    (fun b starts => by simp [starts]) (by decide) shape
  rw [parseF64, parseF64, same]

end Scalars

/-! ## Decoding what was validated does not panic -/

/-- The digits of an integer. -/
theorem IsInt.numeric {digits : Bytes} (int : IsInt digits) :
    ∀ b ∈ digits, isDigit b = true := by
  cases int with
  | zero => exact List.forall_mem_singleton.2 rfl
  | nonzero first _ rest => exact List.forall_mem_cons.2 ⟨first, rest⟩

/-- A number without fraction and exponent is an integer behind a sign. -/
theorem IsNumber.digits {text : Bytes} (number : IsNumber text)
    (whole : hasFraction text = false) :
    ∃ minus digits, text = minus ++ digits ∧ (minus = [] ∨ minus = [0x2D]) ∧
      IsInt digits := by
  cases number with
  | @mk minus int frac exp sign isInt isFrac isExp =>
      have none : ∀ b ∈ minus ++ int ++ frac ++ exp,
          (b == 0x2E || b == 0x65 || b == 0x45) = false := by
        intro b member
        rw [hasFraction, List.any_eq_false] at whole
        simpa using whole b member
      have noFrac : frac = [] := by
        cases isFrac with
        | none => rfl
        | some _ =>
            have := none 0x2E (by simp)
            simp at this
      have noExp : exp = [] := by
        cases isExp with
        | none => rfl
        | @some e sign digits letter _ _ =>
            have := none e (by simp)
            rcases letter with rfl | rfl <;> simp at this
      exact ⟨minus, int, by simp [noFrac, noExp], sign, isInt⟩

theorem digitLoop_calm {low high sign : Int} {digits : Bytes}
    (numeric : ∀ b ∈ digits, isDigit b = true) (v : Int) :
    Calm (fun _ => True) (digitLoop low high sign v digits) := by
  induction digits generalizing v with
  | nil => trivial
  | cons c digits ih =>
      obtain ⟨first, rest⟩ := List.forall_mem_cons.1 numeric
      have large : ¬ c < 0x30 := by
        simp only [isDigit, Bool.and_eq_true, decide_eq_true_eq] at first
        exact UInt8.not_lt.2 first.1
      rw [digitLoop, if_neg large]
      simp only
      split
      · exact ih rest _
      · trivial

/-- What passes validation is a number. -/
theorem admit_calm {starts : UInt8 → Bool} {bytes : Bytes} :
    Calm (fun _ => IsNumber bytes) (admission false starts bytes) :=
  calm_toRust fun _ ok => (validateNumber_ok_iff bytes).1 ok

theorem parseI64_calm (bytes : Bytes) : Calm (fun _ => True) (parseI64 bytes false) := by
  refine admit_calm.bind fun _ number => ?_
  split
  · trivial
  · split
    · trivial
    · rename_i fraction
      obtain ⟨minus, digits, rfl, sign, int⟩ :=
        IsNumber.digits number (by simpa using fraction)
      have numeric := IsInt.numeric int
      rcases sign with rfl | rfl
      · split
        · exact digitLoop_calm (fun b member => numeric b (List.mem_of_mem_tail member)) 0
        · exact digitLoop_calm numeric 0
      · exact digitLoop_calm numeric 0

theorem parseU64_calm (bytes : Bytes) : Calm (fun _ => True) (parseU64 bytes false) := by
  refine admit_calm.bind fun _ number => ?_
  split
  · trivial
  · split
    · trivial
    · rename_i fraction
      split
      · trivial
      · rename_i unsigned
        obtain ⟨minus, digits, rfl, sign, int⟩ :=
          IsNumber.digits number (by simpa using fraction)
        have numeric := IsInt.numeric int
        rcases sign with rfl | rfl
        · exact digitLoop_calm numeric 0
        · exact absurd rfl unsigned

theorem parseF64_calm {F : Type} (std : StdFloat F) (bytes : Bytes) (skipValidation : Bool) :
    Calm (fun _ => True) (parseF64 std bytes skipValidation) := by
  have admitted : Calm (fun _ => True)
      (admission skipValidation (fun b => startsNumber b || b == 0x2E) bytes) := by
    cases skipValidation with
    | false => exact admit_calm.mono fun _ _ => trivial
    | true =>
        simp only [admission, if_true]
        split
        · trivial
        · split <;> trivial
  refine admitted.bind fun _ _ => ?_
  split
  · split
    · split <;> trivial
    · trivial
  · trivial

end QJson.Decode

import Mathlib.Data.Nat.Digits.Defs
import QJson.Decode.Numbers

/-!
# The integers behind the digits

The digit loop multiplies and adds with checked arithmetic and gives up at the first
overflow, where negative numbers count down from zero.  Its intermediate values only move
away from zero, so it gives up exactly when the number spelled by all digits is out of
range.
-/

namespace QJson.Decode

open Rfc8259 Validate

/-! ## Values of tokens -/

/-- The number that decimal digits spell. -/
def magnitude (digits : Bytes) : Nat :=
  Nat.ofDigits 10 (digits.map fun b => b.toNat - 0x30).reverse

/-- The number that a token without fraction and exponent spells. -/
def integerValue (token : Bytes) : Int :=
  if token.head? = some 0x2D then -(magnitude token.tail : Int) else magnitude token

/-- An integer, when it lies within bounds. -/
def within (low high value : Int) : Except QjsonErr Int :=
  if low ≤ value ∧ value ≤ high then .ok value else .error .outOfRange

/-- The integer that a token denotes within bounds. -/
def exactInteger (low high : Int) (token : Bytes) : Except QjsonErr Int :=
  if hasFraction token then .error .typeMismatch else within low high (integerValue token)

@[simp] theorem magnitude_nil : magnitude [] = 0 := rfl

theorem magnitude_cons (b : UInt8) (digits : Bytes) :
    magnitude (b :: digits) =
      (b.toNat - 0x30) * 10 ^ digits.length + magnitude digits := by
  rw [magnitude, List.map_cons, List.reverse_cons, Nat.ofDigits_append, Nat.ofDigits_singleton,
    List.length_reverse, List.length_map, magnitude]
  ring

example : integerValue [0x2D, 0x31, 0x30, 0x37] = -107 := by decide

/-! ## The loop -/

theorem digit_eq {b : UInt8} (digit : isDigit b = true) :
    ¬ b < 0x30 ∧ (b.toNat : Int) - 0x30 = ((b.toNat - 0x30 : Nat) : Int) := by
  simp only [isDigit, Bool.and_eq_true, decide_eq_true_eq] at digit
  have least : 0x30 ≤ b.toNat := UInt8.le_iff_toNat_le.1 digit.1
  exact ⟨UInt8.not_lt.2 digit.1, by omega⟩

/-- One round of the loop: both checks pass exactly when the sum is in range, since the
product lies between zero and the sum. -/
theorem checked_step {low high sign : Int} (unit : sign = 1 ∨ sign = -1) (least : low ≤ 0)
    (most : 0 ≤ high) (n d : Nat) :
    ((checked low high (sign * n * 10)).bind fun x => checked low high (x + sign * d)) =
      checked low high (sign * ((n * 10 + d : Nat) : Int)) := by
  have sum : sign * (n : Int) * 10 + sign * (d : Int) = sign * ((n * 10 + d : Nat) : Int) := by
    push_cast
    ring
  by_cases inside : low ≤ sign * (n : Int) * 10 ∧ sign * (n : Int) * 10 ≤ high
  · rw [checked, if_pos inside, Option.bind_some, sum]
  · have beyond : ¬ (low ≤ sign * ((n * 10 + d : Nat) : Int) ∧
        sign * ((n * 10 + d : Nat) : Int) ≤ high) := by
      rcases unit with rfl | rfl <;> omega
    rw [checked, if_neg inside, checked, if_neg beyond]
    rfl

/-- The loop computes the number that all digits spell, when it is in range. -/
theorem digitLoop_eq {low high sign : Int} (unit : sign = 1 ∨ sign = -1) (least : low ≤ 0)
    (most : 0 ≤ high) {digits : Bytes} (numeric : ∀ b ∈ digits, isDigit b = true) (n : Nat)
    (inside : low ≤ sign * n ∧ sign * n ≤ high) :
    digitLoop low high sign (sign * n) digits =
      toRust (within low high
        (sign * ((n * 10 ^ digits.length + magnitude digits : Nat) : Int))) := by
  induction digits generalizing n with
  | nil =>
      rw [magnitude_nil, List.length_nil, pow_zero, mul_one, add_zero, within, if_pos inside]
      rfl
  | cons c digits ih =>
      obtain ⟨first, rest⟩ := List.forall_mem_cons.1 numeric
      obtain ⟨large, digit⟩ := digit_eq first
      have total : n * 10 ^ (c :: digits).length + magnitude (c :: digits) =
          (n * 10 + (c.toNat - 0x30)) * 10 ^ digits.length + magnitude digits := by
        rw [magnitude_cons, List.length_cons, pow_succ]
        ring
      rw [digitLoop, if_neg large, total]
      simp only [digit]
      rw [checked_step unit least most]
      generalize n * 10 + (c.toNat - 0x30) = next
      by_cases inside : low ≤ sign * (next : Int) ∧ sign * (next : Int) ≤ high
      · rw [checked, if_pos inside]
        exact ih rest next inside
      · -- what follows only moves further away from zero
        have grows : next ≤ next * 10 ^ digits.length + magnitude digits :=
          (Nat.le_mul_of_pos_right next (Nat.pow_pos (by decide))).trans (Nat.le_add_right _ _)
        generalize next * 10 ^ digits.length + magnitude digits = final at grows
        have beyond : ¬ (low ≤ sign * (final : Int) ∧ sign * (final : Int) ≤ high) := by
          rcases unit with rfl | rfl <;> omega
        rw [checked, if_neg inside, within, if_neg beyond]
        rfl

theorem digitLoop_zero {low high sign : Int} (unit : sign = 1 ∨ sign = -1) (least : low ≤ 0)
    (most : 0 ≤ high) {digits : Bytes} (numeric : ∀ b ∈ digits, isDigit b = true) :
    digitLoop low high sign 0 digits =
      toRust (within low high (sign * (magnitude digits : Int))) := by
  have run := digitLoop_eq unit least most numeric 0 (by simp [least, most])
  simpa using run

/-! ## The parsers -/

section Parsers

variable {token : Bytes} (number : IsNumber token) (skipValidation : Bool)
include number

/-- A number passes the check in front of either parser. -/
theorem admission_number : admission skipValidation startsNumber token = .ok () := by
  obtain ⟨b, rest, rfl, starts⟩ := number.exists_cons
  cases skipValidation with
  | true =>
      have first : startsNumber b = true := by simpa [startsNumber] using starts
      simp [admission, first]
  | false => simp [admission, (validateNumber_ok_iff _).2 number, toRust]

/-- The token of an integer is a sign, or none, in front of its digits. -/
theorem integer_cases (whole : hasFraction token = false) :
    (∃ digits, token = 0x2D :: digits ∧ (∀ b ∈ digits, isDigit b = true) ∧
      integerValue token = -1 * (magnitude digits : Int)) ∨
    (token.head? ≠ some 0x2D ∧ (∀ b ∈ token, isDigit b = true) ∧
      integerValue token = 1 * (magnitude token : Int)) := by
  obtain ⟨minus, digits, rfl, sign, int⟩ := IsNumber.digits number whole
  have numeric := IsInt.numeric int
  rcases sign with rfl | rfl
  · have unsigned : ([] ++ digits).head? ≠ some 0x2D := by
      intro signed
      exact absurd (numeric 0x2D (List.mem_of_head? signed)) (by decide)
    exact .inr ⟨unsigned, numeric, by rw [integerValue, if_neg unsigned, one_mul]⟩
  · exact .inl ⟨digits, rfl, numeric, by simp [integerValue]⟩

/-- `parse_i64` is exact on numbers. -/
theorem parseI64_number :
    parseI64 token skipValidation = toRust (exactInteger (-2 ^ 63) (2 ^ 63 - 1) token) := by
  rw [parseI64, admission_number number, ok_bind, if_neg number.ne_nil, exactInteger]
  cases whole : hasFraction token with
  | true => rfl
  | false =>
      simp only [Bool.false_eq_true, if_false]
      rcases integer_cases number whole with
        ⟨digits, rfl, numeric, value⟩ | ⟨unsigned, numeric, value⟩
      · rw [value, if_pos (by rfl), List.tail_cons]
        exact digitLoop_zero (.inr rfl) (by decide) (by decide) numeric
      · rw [value, if_neg unsigned]
        exact digitLoop_zero (.inl rfl) (by decide) (by decide) numeric

/-- `parse_u64` is exact on numbers without a sign, and refuses the others. -/
theorem parseU64_number :
    parseU64 token skipValidation =
      if hasFraction token = false ∧ token.head? = some 0x2D then fail .outOfRange
      else toRust (exactInteger 0 (2 ^ 64 - 1) token) := by
  rw [parseU64, admission_number number, ok_bind, if_neg number.ne_nil, exactInteger]
  cases whole : hasFraction token with
  | true => simp [toRust]
  | false =>
      simp only [Bool.false_eq_true, if_false, true_and]
      rcases integer_cases number whole with
        ⟨digits, rfl, numeric, value⟩ | ⟨unsigned, numeric, value⟩
      · rw [if_pos (by rfl), if_pos (by rfl)]
      · rw [value, if_neg unsigned, if_neg unsigned]
        exact digitLoop_zero (.inl rfl) (by decide) (by decide) numeric

end Parsers

/-! ## Agreement of the two parsers -/

/-- An integer that does not start with a zero is positive. -/
theorem magnitude_pos {digits : Bytes} (int : IsInt digits) (notZero : digits ≠ [0x30]) :
    0 < magnitude digits := by
  cases int with
  | zero => exact absurd rfl notZero
  | @nonzero b digits digit notNull _ =>
      have least := UInt8.not_lt.1 (digit_eq digit).1
      have positive : 0 < b.toNat - 0x30 := by
        have differ : b.toNat ≠ 0x30 := fun same => notNull (UInt8.toNat_inj.1 same)
        rw [UInt8.le_iff_toNat_le] at least
        simp only [UInt8.reduceToNat] at least
        omega
      rw [magnitude_cons]
      exact Nat.add_pos_left (Nat.mul_pos positive (Nat.pow_pos (by decide))) _

/-- The unsigned parser is exact on a token, and the two parsers agree on the range that
they share. -/
structure SignsAgree (token : Bytes) (skipValidation : Bool) : Prop where
  exact_ : parseU64 token skipValidation =
    toRust (within 0 (2 ^ 64 - 1) (integerValue token))
  unsigned : ∀ v, parseI64 token skipValidation = .ok v → 0 ≤ v →
    parseU64 token skipValidation = .ok v
  signed : ∀ v, parseU64 token skipValidation = .ok v → v < 2 ^ 63 →
    parseI64 token skipValidation = .ok v

/-- What is in both ranges is decoded by both parsers. -/
theorem within_eq_ok_iff {low high value v : Int} :
    toRust (within low high value) = .ok v ↔ (low ≤ value ∧ value ≤ high) ∧ value = v := by
  rw [toRust_eq_ok_iff, within]
  split <;> simp_all

/-- On integers the parsers agree but for the negative zero, which only the signed one
takes. -/
theorem signsAgree_iff (token : Bytes) (accepted : validateNumber token = .ok ())
    (whole : hasFraction token = false) (skipValidation : Bool) :
    SignsAgree token skipValidation ↔ token ≠ [0x2D, 0x30] := by
  have number := (validateNumber_ok_iff token).1 accepted
  have signed := parseI64_number number skipValidation
  have unsigned := parseU64_number number skipValidation
  rw [exactInteger, whole] at signed unsigned
  simp only [Bool.false_eq_true, if_false, true_and] at signed unsigned
  constructor
  · rintro agree rfl
    have zero := agree.exact_
    rw [unsigned] at zero
    exact absurd zero (by decide)
  · intro notZero
    have exact_ : parseU64 token skipValidation =
        toRust (within 0 (2 ^ 64 - 1) (integerValue token)) := by
      rw [unsigned]
      split
      · rename_i minus
        obtain ⟨sign, digits, rfl, shape, int⟩ := IsNumber.digits number whole
        rcases shape with rfl | rfl
        · exact absurd (IsInt.numeric int 0x2D (List.mem_of_head? minus)) (by decide)
        · have positive := magnitude_pos int (by rintro rfl; exact notZero rfl)
          have negative : integerValue ([0x2D] ++ digits) = -(magnitude digits : Int) := by
            rw [integerValue, if_pos minus]
            rfl
          rw [negative, within, if_neg (by omega)]
          rfl
      · rfl
    refine ⟨exact_, fun v ok least => ?_, fun v ok most => ?_⟩
    · obtain ⟨range, rfl⟩ := within_eq_ok_iff.1 (signed.symm.trans ok)
      exact exact_.trans (within_eq_ok_iff.2 ⟨⟨least, by omega⟩, rfl⟩)
    · obtain ⟨range, rfl⟩ := within_eq_ok_iff.1 (exact_.symm.trans ok)
      exact signed.trans (within_eq_ok_iff.2 ⟨⟨by omega, by omega⟩, rfl⟩)

theorem signsAgree_iff_seven :
    SignsAgree [0x37] true ↔ ([0x37] : Bytes) ≠ [0x2D, 0x30] :=
  signsAgree_iff [0x37] (by decide) (by decide) true

/-- The negative zero is in the range of `u64` but refused. -/
theorem not_signsAgree_negative_zero :
    ¬ ∀ token, validateNumber token = .ok () → hasFraction token = false →
      ∀ skipValidation, SignsAgree token skipValidation := fun all =>
  absurd (all [0x2D, 0x30] (by decide) (by decide) true).exact_ (by decide)

end QJson.Decode

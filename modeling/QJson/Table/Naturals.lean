import Mathlib.Data.List.Perm.Subperm
import QJson.Table.Values

/-!
# A Lua whose numbers are the natural numbers

What `Env` leaves open can be had: here numbers are natural numbers, `next` lists a table in
the order of the map and `#` counts the indices from 1 on.
-/

namespace QJson.Table

open Rfc8259 Validate Doc Decode Ffi Lua

/-! ## Decimal text -/

/-- The decimal digits, with fuel for each digit but the first. -/
def decimalFrom : Nat → Nat → Bytes
  | 0, n => [UInt8.ofNat (0x30 + n % 10)]
  | fuel + 1, n =>
      if n < 10 then [UInt8.ofNat (0x30 + n)]
      else decimalFrom fuel (n / 10) ++ [UInt8.ofNat (0x30 + n % 10)]

/-- `%d` -/
def decimal (n : Nat) : Bytes := decimalFrom n n

/-- The value of decimal digits. -/
def decimalValue (digits : Bytes) : Nat :=
  digits.foldl (fun value b => 10 * value + (b.toNat - 0x30)) 0

theorem isDigit_ofNat {n : Nat} (small : n < 10) :
    isDigit (UInt8.ofNat (0x30 + n)) = true ∧ (n ≠ 0 → UInt8.ofNat (0x30 + n) ≠ 0x30) := by
  have each : ∀ n < 10, isDigit (UInt8.ofNat (0x30 + n)) = true ∧
      (n ≠ 0 → UInt8.ofNat (0x30 + n) ≠ 0x30) := by decide
  exact each n small

/-- Decimal text has no leading zero. -/
theorem isInt_decimalFrom (fuel n : Nat) (enough : n ≤ fuel) :
    (∀ b ∈ decimalFrom fuel n, isDigit b = true) ∧
      ∃ b digits, decimalFrom fuel n = b :: digits ∧
        (n = 0 ∧ b = 0x30 ∧ digits = [] ∨ b ≠ 0x30) := by
  induction fuel generalizing n with
  | zero =>
      obtain rfl : n = 0 := Nat.le_zero.1 enough
      exact ⟨List.forall_mem_singleton.2 rfl, 0x30, [], rfl, .inl ⟨rfl, rfl, rfl⟩⟩
  | succ fuel ih =>
      rw [decimalFrom]
      split
      · rename_i small
        obtain ⟨digit, notZero⟩ := isDigit_ofNat small
        refine ⟨fun b member => ?_, _, [], rfl, ?_⟩
        · rw [List.mem_singleton.1 member]
          exact digit
        · by_cases zero : n = 0
          · subst zero
            exact .inl ⟨rfl, rfl, rfl⟩
          · exact .inr (notZero zero)
      · obtain ⟨digits, b, rest, same, lead⟩ := ih (n / 10) (by omega)
        refine ⟨fun b member => ?_, b, rest ++ [_], by rw [same]; rfl, ?_⟩
        · rcases List.mem_append.1 member with front | last
          · exact digits b front
          · rw [List.mem_singleton.1 last]
            exact (isDigit_ofNat (Nat.mod_lt n (by decide))).1
        · rcases lead with ⟨zero, -⟩ | notZero
          · omega
          · exact .inr notZero

theorem decimal_digits {n : Nat} {b : UInt8} (member : b ∈ decimal n) : isDigit b = true :=
  (isInt_decimalFrom n n (Nat.le_refl n)).1 b member

theorem isNumber_decimal {minus : Bytes} (sign : minus = [] ∨ minus = [0x2D]) (n : Nat) :
    IsNumber (minus ++ decimal n) := by
  obtain ⟨digits, b, rest, same, lead⟩ := isInt_decimalFrom n n (Nat.le_refl n)
  have int : IsInt (decimal n) := by
    rw [decimal, same]
    rcases lead with ⟨-, rfl, rfl⟩ | notZero
    · exact .zero
    · refine .nonzero (digits b (by rw [same]; exact List.mem_cons_self)) notZero fun d member => ?_
      exact digits d (by rw [same]; exact List.mem_cons_of_mem b member)
  have number := IsNumber.mk sign int .none .none
  rwa [List.append_nil, List.append_nil] at number

/-! ## Numbers -/

theorem decimal_plain {n : Nat} {b : UInt8} (member : b ∈ decimal n) :
    0x20 ≤ b ∧ b < 0x7F ∧ b ≠ 0x22 ∧ b ≠ 0x5C := by
  have digit := decimal_digits member
  simp only [isDigit, Bool.and_eq_true, decide_eq_true_eq] at digit
  refine ⟨?_, ?_, ?_, ?_⟩ <;> grind

/-- Natural numbers as the numbers of Lua, with `hugeIndex` for `math.huge`. -/
def natNumbers : Numbers Nat where
  ofNat n := n
  key n := some (if n = 0 then .inr 0 else .inl n)
  offset n := if n = 0 then none else some (n - 1)
  isFinite n := n < hugeIndex
  isInteger n := n < 10 ^ 15
  formatD := decimal
  formatG _ := decimal
  toString := decimal
  int64Text n := (if n < 0 then [0x2D] else []) ++ decimal n.natAbs
  key_huge := congrArg some (if_neg (by decide +kernel))
  isFinite_huge := decide_eq_false (Nat.lt_irrefl hugeIndex)
  offset_key n i offset _ := by
    by_cases zero : n = 0
    · rw [if_pos zero] at offset
      cases offset
    · rw [if_neg zero] at offset ⊢
      obtain rfl := Option.some.inj offset
      rw [Nat.sub_add_cancel (Nat.one_le_iff_ne_zero.2 zero)]
  formatD_number n _ _ := isNumber_decimal (.inl rfl) n
  formatG_number _ n _ := isNumber_decimal (.inl rfl) n
  toString_plain _ _ member := decimal_plain member
  int64Text_number n := by
    split
    · exact isNumber_decimal (.inr rfl) _
    · exact isNumber_decimal (.inl rfl) _

/-- Reading digits. -/
def natFloat : StdFloat Nat where
  fromUtf8 _ := true
  parse digits := if digits.all isDigit then some (decimalValue digits) else none
  isFinite _ := true

/-! ## Tables -/

section Border

variable {α : Type}

/-- The indices from the given one on, with fuel. -/
def borderFrom (map : Map (Key Nat) α) : Nat → Nat → Nat
  | 0, n => n
  | fuel + 1, n => if .idx (n + 1) ∈ map then borderFrom map fuel (n + 1) else n

/-- `#` -/
def border (map : Map (Key Nat) α) : Nat := borderFrom map (map.entries.length + 1) 0

/-- There are fewer indices than entries. -/
theorem index_le_length {map : Map (Key Nat) α} {n : Nat}
    (inside : ∀ i, 1 ≤ i → i ≤ n → .idx i ∈ map) : n ≤ map.entries.length := by
  have nodup : ((List.range' 1 n).map fun i => (.idx i : Key Nat)).Nodup :=
    List.Nodup.map (fun _ _ same => Key.idx.inj same) List.nodup_range'
  have subset : (List.range' 1 n).map (fun i => (.idx i : Key Nat)) ⊆ map.keys := by
    intro k member
    obtain ⟨i, range, rfl⟩ := List.mem_map.1 member
    obtain ⟨low, high⟩ := List.mem_range'_1.1 range
    exact AList.mem_keys.2 (inside i low (by omega))
  have le := (nodup.subperm subset).length_le
  rwa [List.length_map, List.length_range', AList.keys, List.keys, List.length_map] at le

theorem borderFrom_border {map : Map (Key Nat) α} (fuel n : Nat)
    (room : map.entries.length < n + fuel) (inside : ∀ i, 1 ≤ i → i ≤ n → .idx i ∈ map) :
    .idx (borderFrom map fuel n + 1) ∉ map ∧
      (borderFrom map fuel n = 0 ∨ .idx (borderFrom map fuel n) ∈ map) := by
  induction fuel generalizing n with
  | zero =>
      have := index_le_length inside
      omega
  | succ fuel ih =>
      rw [borderFrom]
      split
      · rename_i next
        refine ih (n + 1) (by omega) fun i low high => ?_
        rcases Nat.lt_or_ge n i with new | old
        · obtain rfl : i = n + 1 := by omega
          exact next
        · exact inside i low old
      · rename_i next
        refine ⟨next, ?_⟩
        rcases Nat.eq_zero_or_pos n with zero | positive
        · exact .inl zero
        · exact .inr (inside n positive (Nat.le_refl n))

end Border

/-- A Lua with `cjson` over the scalar functions of the library. -/
def natEnv : Env Nat where
  scanner := .scalar
  strings := .scalar
  std := natFloat
  numbers := natNumbers
  hasCjson := true
  order map := map.entries.map fun e => (e.1, e.2)
  length := border
  order_perm _ := List.Perm.refl _
  length_border map := borderFrom_border _ 0 (by omega) fun i low high => by omega

end QJson.Table

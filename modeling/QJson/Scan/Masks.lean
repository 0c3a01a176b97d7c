import QJson.Bits.Carry
import QJson.Scan.Scalar

/-!
# Masks of 64 bytes

The helpers of `src/scan/mod.rs` that the vector scanners share.  Each comes
with what it means position by position.
-/

namespace QJson.Scan

open Rfc8259 Bits

/-- A flag that the code keeps in a `u64`. -/
def flag (b : Bool) : BitVec 64 := if b then 1 else 0

/-- `even_bits` and `odd_bits`. -/
def evenBits : BitVec 64 := 0x5555555555555555
@[inherit_doc evenBits] def oddBits : BitVec 64 := 0xAAAAAAAAAAAAAAAA

/-- `find_escape_mask_with_carry`: the escaped positions and the new carry. -/
def findEscapeMaskWithCarry (bs pc : BitVec 64) : BitVec 64 × BitVec 64 :=
  let starts := bs &&& ~~~((bs <<< 1) ||| pc)
  let evenStarts := starts &&& evenBits
  let oddStarts := starts &&& oddBits
  let evenCarries := bs + evenStarts
  let oddCarries := bs + oddStarts
  let evenCarryEnds := evenCarries &&& ~~~bs
  let oddCarryEnds := oddCarries &&& ~~~bs
  let escapedFromRuns := (evenCarryEnds &&& oddBits) ||| (oddCarryEnds &&& evenBits)
  let escaped := escapedFromRuns ||| pc
  let leadingBs := trailingOnes bs
  let escaped :=
    if pc ≠ 0 ∧ bs &&& 1 ≠ 0 ∧ leadingBs < 64 ∧ leadingBs % 2 = 0 then
      escaped ||| (1#64 <<< leadingBs)
    else escaped
  let trailingBs := leadingZeros (~~~bs)
  let newCarry := if bs = BitVec.allOnes 64 then pc else BitVec.ofNat 64 trailingBs &&& 1
  (escaped, newCarry)

/-- `emit_bits`: the positions pushed for a mask. -/
def emitBits (mask : BitVec 64) (base : Nat) : List Nat :=
  if mask = 0 then []
  else u32 (base + trailingZeros mask) :: emitBits (mask &&& (mask - 1)) base
termination_by mask.toNat
decreasing_by exact clearLowest_lt ‹_›

/-- The loop of `validate_brackets`. -/
def bracketsFrom (buf : Bytes) : List Nat → (inString : Bool) → (stack : List UInt8) →
    Rust Nat Unit
  | [], _, stack => if stack.isEmpty then .ok () else .error (.err buf.length)
  | pos :: indices, inString, stack => do
      let b ← atIdx buf pos
      if b = 0x22 then bracketsFrom buf indices (!inString) stack
      else if inString then bracketsFrom buf indices inString stack
      else if b = 0x7B ∨ b = 0x5B then bracketsFrom buf indices inString (b :: stack)
      else if b = 0x7D then
        if stack.head? = some 0x7B then bracketsFrom buf indices inString stack.tail
        else .error (.err pos)
      else if b = 0x5D then
        if stack.head? = some 0x5B then bracketsFrom buf indices inString stack.tail
        else .error (.err pos)
      else bracketsFrom buf indices inString stack

/-- `validate_brackets`. -/
def validateBrackets (buf : Bytes) (indices : List Nat) : Rust Nat Unit :=
  bracketsFrom buf indices false []

/-! ## The escape mask -/

@[simp] theorem getLsbD_flag (b : Bool) (i : Nat) :
    (flag b).getLsbD i = (decide (i = 0) && b) := by
  cases b <;> simp [flag]

theorem flag_ne_zero (b : Bool) : flag b ≠ 0 ↔ b = true := by
  cases b <;> decide

theorem getLsbD_evenBits {i : Nat} (small : i < 64) :
    evenBits.getLsbD i = (i % 2 == 0) := by
  have all : ∀ i : Fin 64, evenBits.getLsbD i = (i.val % 2 == 0) := by decide
  exact all ⟨i, small⟩

theorem getLsbD_oddBits {i : Nat} (small : i < 64) :
    oddBits.getLsbD i = !(i % 2 == 0) := by
  have all : ∀ i : Fin 64, oddBits.getLsbD i = !(i.val % 2 == 0) := by decide
  exact all ⟨i, small⟩

/-- `starts` holds the first position of each run that the carry does not reach. -/
theorem getLsbD_starts (bs : BitVec 64) (carry : Bool) (i : Nat) :
    (bs &&& ~~~((bs <<< 1) ||| flag carry)).getLsbD i =
      (bs.getLsbD i && !before bs.getLsbD carry i) := by
  by_cases small : i < 64
  · rw [BitVec.getLsbD_and, BitVec.getLsbD_not, BitVec.getLsbD_or, BitVec.getLsbD_shiftLeft,
      getLsbD_flag]
    cases i with
    | zero => simp [before]
    | succ i => simp [before, small]
  · rw [BitVec.getLsbD_of_ge _ _ (by omega), BitVec.getLsbD_of_ge bs _ (by omega)]
    rfl

theorem isStarts_even (bs : BitVec 64) (carry : Bool) :
    IsStarts bs carry true ((bs &&& ~~~((bs <<< 1) ||| flag carry)) &&& evenBits) := by
  intro i
  rw [BitVec.getLsbD_and, getLsbD_starts]
  by_cases small : i < 64
  · simp [getLsbD_evenBits small]
  · rw [BitVec.getLsbD_of_ge bs _ (by omega)]
    rfl

theorem isStarts_odd (bs : BitVec 64) (carry : Bool) :
    IsStarts bs carry false ((bs &&& ~~~((bs <<< 1) ||| flag carry)) &&& oddBits) := by
  intro i
  rw [BitVec.getLsbD_and, getLsbD_starts]
  by_cases small : i < 64
  · simp [getLsbD_oddBits small]
  · rw [BitVec.getLsbD_of_ge bs _ (by omega)]
    rfl

theorem first_ne_zero (bs : BitVec 64) : bs &&& 1 ≠ 0 ↔ bs.getLsbD 0 = true := by
  have one (i : Nat) : (1 : BitVec 64).getLsbD i = decide (i = 0) := by
    rw [show (1 : BitVec 64) = 1#64 from rfl, BitVec.getLsbD_one]
    simp
  rw [ne_eq, show (0 : BitVec 64) = 0#64 from rfl, eq_zero_iff]
  constructor
  · intro some_
    by_contra none
    refine some_ fun i _ => ?_
    rw [BitVec.getLsbD_and, one]
    by_cases first : i = 0
    · rw [first, Bool.eq_false_iff.2 none, Bool.false_and]
    · rw [decide_eq_false first, Bool.and_false]
  · intro set clearAll
    have clear := clearAll 0 (by decide)
    rw [BitVec.getLsbD_and, one, set] at clear
    cases clear

/-- A byte that is not a backslash is escaped exactly behind an odd run. -/
theorem getLsbD_escaped {bs : BitVec 64} {i : Nat} (carry : Bool) (small : i < 64)
    (clear : bs.getLsbD i = false) :
    (findEscapeMaskWithCarry bs (flag carry)).1.getLsbD i = oddRun bs.getLsbD carry i := by
  obtain ⟨-, parity, -⟩ :=
    oddRun_eq_carries (isStarts_even bs carry) (isStarts_odd bs carry) i
  have evens := getLsbD_add_of_clear small clear (isStarts_even bs carry).subset
  have odds := getLsbD_add_of_clear small clear (isStarts_odd bs carry).subset
  have leads := @leadingRun_of_clear _ _ carry _ small clear
  have extra : (1#64 <<< trailingOnes bs).getLsbD i = (i == trailingOnes bs) := by
    rw [Bool.eq_iff_iff, BitVec.getLsbD_shiftLeft, BitVec.getLsbD_one]
    simp only [small, decide_true, Bool.true_and, Bool.and_eq_true, Bool.not_eq_true',
      decide_eq_false_iff_not, decide_eq_true_iff, beq_iff_eq]
    omega
  have runs : (((bs + ((bs &&& ~~~((bs <<< 1) ||| flag carry)) &&& evenBits)) &&& ~~~bs &&&
          oddBits) |||
        ((bs + ((bs &&& ~~~((bs <<< 1) ||| flag carry)) &&& oddBits)) &&& ~~~bs &&&
          evenBits)).getLsbD i =
      (BitVec.carry i bs ((bs &&& ~~~((bs <<< 1) ||| flag carry)) &&& evenBits) false &&
          !(i % 2 == 0) ||
        BitVec.carry i bs ((bs &&& ~~~((bs <<< 1) ||| flag carry)) &&& oddBits) false &&
          (i % 2 == 0)) := by
    rw [BitVec.getLsbD_or, BitVec.getLsbD_and, BitVec.getLsbD_and, BitVec.getLsbD_and,
      BitVec.getLsbD_and, evens, odds, getLsbD_evenBits small, getLsbD_oddBits small,
      BitVec.getLsbD_not, clear, decide_eq_true small]
    simp
  rw [parity, findEscapeMaskWithCarry]
  -- what the carried run adds: the carry itself at 0, else the restored position
  rcases Nat.eq_zero_or_pos i with rfl | pos
  · have noFix : ¬ (flag carry ≠ 0 ∧ bs &&& 1 ≠ 0 ∧ trailingOnes bs < 64 ∧
        trailingOnes bs % 2 = 0) := fun fix => by
      rw [first_ne_zero, clear] at fix
      exact absurd fix.2.1 (by decide)
    simp only [if_neg noFix]
    rw [BitVec.getLsbD_or, runs, getLsbD_flag]
    simp [leadingRun]
  · have notFirst : decide (i = 0) = false := by simp; omega
    split
    · rename_i fix
      obtain ⟨carried, -, -, even⟩ := fix
      rw [flag_ne_zero] at carried
      rw [BitVec.getLsbD_or, BitVec.getLsbD_or, runs, getLsbD_flag, extra, leads, notFirst,
        carried]
      by_cases here : i = trailingOnes bs
      · simp [← here, here ▸ even]
      · have apart : (i == trailingOnes bs) = false := by simpa using here
        have apart' : (trailingOnes bs == i) = false := by simpa using Ne.symm here
        rw [apart, apart']
        simp
    · rename_i noFix
      rw [BitVec.getLsbD_or, runs, getLsbD_flag, leads, notFirst]
      by_cases here : trailingOnes bs = i
      · have odd : carry = true → ¬ i % 2 = 0 := fun carried even => by
          refine noFix ⟨(flag_ne_zero carry).2 carried, (first_ne_zero bs).2 ?_, by omega,
            by rw [here, even]⟩
          have miss := getLsbD_of_lt_trailingZeros (m := ~~~bs) (i := 0) (by
            rw [trailingOnes] at here
            omega)
          simpa using miss
        cases carry with
        | false => simp
        | true => simp [odd rfl]
      · simp [here]

/-- The carry left behind is the parity of the run that ends the chunk. -/
theorem findEscapeMaskWithCarry_carry (bs : BitVec 64) (carry : Bool) :
    (findEscapeMaskWithCarry bs (flag carry)).2 = flag (oddRun bs.getLsbD carry 64) := by
  have width := oddRun_width bs carry
  change (if bs = BitVec.allOnes 64 then flag carry
    else BitVec.ofNat 64 (leadingZeros (~~~bs)) &&& 1) = _
  split
  · rename_i full
    rw [if_pos full] at width
    rw [width]
    cases carry <;> rfl
  · rename_i notFull
    rw [if_neg notFull] at width
    rw [width]
    refine mask_ext fun i small => ?_
    rw [getLsbD_flag, show (1 : BitVec 64) = 1#64 from rfl, BitVec.getLsbD_and,
      BitVec.getLsbD_one, BitVec.getLsbD_ofNat, decide_eq_true small]
    rcases Nat.eq_zero_or_pos i with rfl | pos
    · simp only [Nat.testBit_zero, decide_true, Bool.true_and, Nat.zero_lt_succ,
        Bool.and_true]
      rfl
    · have : i ≠ 0 := by omega
      simp [this]

/-! ## The listed positions -/

/-- `emit_bits` pushes the positions of the mask in increasing order. -/
theorem emitBits_eq (mask : BitVec 64) (base : Nat) :
    emitBits mask base = (positions mask).map fun i => u32 (base + i) := by
  induction mask using emitBits.induct with
  | case1 => simp [emitBits]
  | case2 mask nonzero ih =>
      rw [emitBits, if_neg nonzero, ih, positions_eq_cons nonzero, List.map_cons]
      rfl

end QJson.Scan

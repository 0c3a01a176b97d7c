import Mathlib.Data.List.Basic
import Mathlib.Data.List.Range
import Mathlib.Tactic.Common

/-!
# Bit masks

A mask is a bit vector read as a set of positions.  The lemmas say which
positions an operation selects, so that code written with machine words can be
reasoned about position by position: masks built from a predicate, the lowest
set position, clearing it, and the loop that lists every set position in order.
-/

namespace QJson.Bits

variable {w : Nat}

/-- The mask of width `w` that selects the positions satisfying `p`. -/
def maskOf : (w : Nat) → (Nat → Bool) → BitVec w
  | 0, _ => 0#0
  | w + 1, p => BitVec.cons (p w) (maskOf w p)

@[simp] theorem getLsbD_maskOf (p : Nat → Bool) (i : Nat) :
    (maskOf w p).getLsbD i = (decide (i < w) && p i) := by
  induction w with
  | zero => simp [maskOf]
  | succ w ih =>
      rw [maskOf, BitVec.getLsbD_cons, ih]
      by_cases last : i = w
      · simp [last]
      · have : i < w + 1 ↔ i < w := by omega
        simp [last, this]

theorem mask_ext {left right : BitVec w}
    (same : ∀ i < w, left.getLsbD i = right.getLsbD i) : left = right :=
  BitVec.eq_of_getLsbD_eq same

theorem eq_zero_iff (m : BitVec w) : m = 0#w ↔ ∀ i < w, m.getLsbD i = false := by
  constructor
  · rintro rfl
    simp
  · intro clear
    exact mask_ext fun i small => by simp [clear i small]

/-- Position of the lowest set bit, the width when there is none. -/
def trailingZeros (m : BitVec w) : Nat :=
  (List.range w).findIdx m.getLsbD

/-- How many of the highest bits are clear. -/
def leadingZeros (m : BitVec w) : Nat :=
  (List.range w).findIdx m.getMsbD

/-- How many of the lowest bits are set. -/
def trailingOnes (m : BitVec w) : Nat :=
  trailingZeros (~~~m)

theorem getLsbD_of_lt_trailingZeros {m : BitVec w} {i : Nat}
    (below : i < trailingZeros m) : m.getLsbD i = false := by
  have miss := List.not_of_lt_findIdx below
  simpa using miss

theorem getLsbD_trailingZeros {m : BitVec w} (nonzero : m ≠ 0#w) :
    trailingZeros m < w ∧ m.getLsbD (trailingZeros m) = true := by
  have exists_ : ∃ i ∈ List.range w, m.getLsbD i = true := by
    by_contra none
    push Not at none
    refine nonzero ((eq_zero_iff m).2 fun i small => ?_)
    exact Bool.eq_false_iff.2 (none i (List.mem_range.2 small))
  have found := List.findIdx_lt_length_of_exists exists_
  refine ⟨by simpa [trailingZeros] using found, ?_⟩
  have hit := List.findIdx_getElem (w := found)
  simpa [trailingZeros] using hit

/-- The lowest set bit is characterised by what lies below it. -/
theorem trailingZeros_eq {m : BitVec w} {i : Nat} (set : m.getLsbD i = true)
    (clear : ∀ j < i, m.getLsbD j = false) : trailingZeros m = i := by
  have nonzero : m ≠ 0#w := by
    rintro rfl
    simp at set
  obtain ⟨-, hit⟩ := getLsbD_trailingZeros nonzero
  rcases Nat.lt_trichotomy (trailingZeros m) i with below | same | above
  · rw [clear _ below] at hit
    cases hit
  · exact same
  · rw [getLsbD_of_lt_trailingZeros above] at set
    cases set

/-- A property of bytes that holds of the 256 of them holds of every byte. -/
theorem forall_uint8 {p : UInt8 → Prop} (all : ∀ n : Fin 256, p (UInt8.ofFin n)) :
    ∀ b, p b :=
  fun b => all b.toFin

end QJson.Bits

import QJson.Bits.Mask

/-!
# Carries, set positions and prefix parities

What the arithmetic of masks means for their positions.  Subtracting one and
masking clears the lowest set position; adding the first positions of some runs
of ones carries to the positions behind these runs; a carry-less product with
all ones holds the prefix parities.
-/

namespace QJson.Bits

variable {w : Nat}

/-! ## Listing the set positions -/

/-- The positions a mask selects, in increasing order. -/
def positions (m : BitVec w) : List Nat :=
  (List.range w).filter m.getLsbD

@[simp] theorem positions_zero : positions (0#w) = [] := by
  simp [positions]

theorem lt_trailingZeros_succ (m : BitVec w) {i : Nat} (small : i < w) :
    trailingZeros m < i + 1 ↔ m.getLsbD i = true ∨ trailingZeros m < i := by
  constructor
  · intro below
    rcases Nat.lt_succ_iff_lt_or_eq.1 below with under | same
    · exact .inr under
    · have nonzero : m ≠ 0#w := by
        rintro rfl
        simp only [trailingZeros] at same
        rw [List.findIdx_eq_length_of_false (by simp), List.length_range] at same
        omega
      exact .inl (same ▸ (getLsbD_trailingZeros nonzero).2)
  · rintro (set | under)
    · by_contra above
      rw [getLsbD_of_lt_trailingZeros (by omega)] at set
      cases set
    · omega

/-- Adding all ones carries everywhere above the lowest set position. -/
theorem carry_allOnes (m : BitVec w) {i : Nat} (small : i ≤ w) :
    BitVec.carry i m (BitVec.allOnes w) false = decide (trailingZeros m < i) := by
  induction i with
  | zero => simp
  | succ i ih =>
      have lt : i < w := small
      rw [BitVec.carry_succ, ih (Nat.le_of_lt lt), BitVec.getLsbD_allOnes,
        decide_eq_true lt, Bool.eq_iff_iff, decide_eq_true_iff,
        lt_trailingZeros_succ m lt]
      cases m.getLsbD i <;> simp [Bool.atLeastTwo]

/-- `mask & (mask - 1)` clears the lowest set position. -/
theorem getLsbD_clearLowest (m : BitVec w) (i : Nat) :
    (m &&& (m - 1#w)).getLsbD i = (m.getLsbD i && decide (trailingZeros m < i)) := by
  by_cases small : i < w
  · rw [BitVec.getLsbD_and, BitVec.sub_eq_add_neg, BitVec.neg_one_eq_allOnes,
      BitVec.getLsbD_add small, carry_allOnes m (Nat.le_of_lt small),
      BitVec.getLsbD_allOnes, decide_eq_true small]
    cases m.getLsbD i <;> cases decide (trailingZeros m < i) <;> rfl
  · simp [BitVec.getLsbD_of_ge _ _ (by omega : w ≤ i)]

/-- Listing starts at the lowest set position and goes on without it. -/
theorem positions_eq_cons {m : BitVec w} (nonzero : m ≠ 0#w) :
    positions m = trailingZeros m :: positions (m &&& (m - 1#w)) := by
  obtain ⟨small, set⟩ := getLsbD_trailingZeros nonzero
  have split : List.range w = List.range (trailingZeros m) ++
      trailingZeros m :: (List.range' (trailingZeros m + 1) (w - trailingZeros m - 1)) := by
    have join := List.range'_append_1 (s := 0) (m := trailingZeros m)
      (n := w - trailingZeros m - 1 + 1)
    rw [Nat.zero_add, List.range'_succ] at join
    rw [List.range_eq_range', List.range_eq_range', join]
    congr 1
    omega
  have below : (List.range (trailingZeros m)).filter m.getLsbD = [] := by
    rw [List.filter_eq_nil_iff]
    intro i member
    rw [getLsbD_of_lt_trailingZeros (List.mem_range.1 member)]
    simp
  have cleared : (List.range (trailingZeros m)).filter (m &&& (m - 1#w)).getLsbD = [] := by
    rw [List.filter_eq_nil_iff]
    intro i member
    rw [getLsbD_clearLowest, getLsbD_of_lt_trailingZeros (List.mem_range.1 member)]
    simp
  rw [positions, positions, split, List.filter_append, List.filter_append, below, cleared,
    List.filter_cons_of_pos set, List.filter_cons_of_neg, List.nil_append, List.nil_append]
  · congr 1
    refine List.filter_congr fun i member => ?_
    have above : trailingZeros m < i := by
      have := (List.mem_range'_1.1 member).1
      omega
    rw [getLsbD_clearLowest, decide_eq_true above, Bool.and_true]
  · rw [getLsbD_clearLowest]
    simp

/-- The masks that `mask &= mask - 1` runs through get smaller. -/
theorem clearLowest_lt {m : BitVec w} (nonzero : m ≠ 0#w) :
    (m &&& (m - 1#w)).toNat < m.toNat := by
  obtain ⟨small, set⟩ := getLsbD_trailingZeros nonzero
  refine Nat.lt_of_le_of_ne ?_ fun same => ?_
  · rw [BitVec.toNat_and]
    exact Nat.and_le_left
  · have cleared := getLsbD_clearLowest m (trailingZeros m)
    rw [BitVec.eq_of_toNat_eq same, set] at cleared
    simp at cleared

/-! ## Runs of ones -/

/-- Adding positions of a mask to it: a carry enters a position exactly when the
run of ones in front of it holds one of these positions. -/
theorem carry_succ_of_subset {m starts : BitVec w}
    (subset : ∀ i, starts.getLsbD i = true → m.getLsbD i = true) (i : Nat) :
    BitVec.carry (i + 1) m starts false =
      (m.getLsbD i && (starts.getLsbD i || BitVec.carry i m starts false)) := by
  rw [BitVec.carry_succ]
  have sub := subset i
  cases held : m.getLsbD i with
  | false =>
      have start : starts.getLsbD i = false := by
        by_contra set
        rw [sub (by simpa using set)] at held
        cases held
      simp [start, Bool.atLeastTwo]
  | true =>
      cases starts.getLsbD i <;> simp [Bool.atLeastTwo]

/-- The sum differs from the mask on clear positions by the carries. -/
theorem getLsbD_add_of_clear {m starts : BitVec w} {i : Nat} (small : i < w)
    (clear : m.getLsbD i = false)
    (subset : ∀ i, starts.getLsbD i = true → m.getLsbD i = true) :
    (m + starts).getLsbD i = BitVec.carry i m starts false := by
  have start : starts.getLsbD i = false := by
    by_contra set
    rw [subset i (by simpa using set)] at clear
    cases clear
  rw [BitVec.getLsbD_add small, clear, start]
  simp

/-- Whether the run of ones in front of position `n` has odd length, when a set
`carry` lengthens a run that starts at position 0 by one. -/
def oddRun (p : Nat → Bool) (carry : Bool) : Nat → Bool
  | 0 => carry
  | n + 1 => p n && !oddRun p carry n

/-- Whether all positions below `n` are ones that lengthen the carried run. -/
def leadingRun (p : Nat → Bool) (carry : Bool) : Nat → Bool
  | 0 => carry
  | n + 1 => leadingRun p carry n && p n

/-- The position in front of `n`, where `carry` stands in front of position 0. -/
def before (p : Nat → Bool) (carry : Bool) : Nat → Bool
  | 0 => carry
  | n + 1 => p n

/-- The first position of each run that the carry does not reach, by parity. -/
def IsStarts (m : BitVec w) (carry even : Bool) (starts : BitVec w) : Prop :=
  ∀ i, starts.getLsbD i =
    (m.getLsbD i && !before m.getLsbD carry i && ((i % 2 == 0) == even))

theorem IsStarts.subset {m starts : BitVec w} {carry side : Bool}
    (isStarts : IsStarts m carry side starts) (i : Nat)
    (set : starts.getLsbD i = true) : m.getLsbD i = true := by
  rw [isStarts i] at set
  simp only [Bool.and_eq_true] at set
  exact set.1.1

/-- Adding the starts at even positions and those at odd ones tells how long the
run in front of a position is: one carry chain at a time, or the carried run. -/
theorem oddRun_eq_carries {m even odd : BitVec w} {carry : Bool}
    (evenStarts : IsStarts m carry true even) (oddStarts : IsStarts m carry false odd)
    (i : Nat) :
    before m.getLsbD carry i = (leadingRun m.getLsbD carry i ||
        (BitVec.carry i m even false || BitVec.carry i m odd false)) ∧
      oddRun m.getLsbD carry i = (leadingRun m.getLsbD carry i && (i % 2 == 0) ||
        (BitVec.carry i m even false && !(i % 2 == 0) ||
          BitVec.carry i m odd false && (i % 2 == 0))) ∧
      (leadingRun m.getLsbD carry i && BitVec.carry i m even false) = false ∧
      (leadingRun m.getLsbD carry i && BitVec.carry i m odd false) = false ∧
      (BitVec.carry i m even false && BitVec.carry i m odd false) = false := by
  induction i with
  | zero => simp [before, leadingRun, oddRun]
  | succ i ih =>
      obtain ⟨prev, parity, apartEven, apartOdd, apart⟩ := ih
      have flip : ((i + 1) % 2 == 0) = !(i % 2 == 0) := by
        rcases Nat.mod_two_eq_zero_or_one i with even | odd
        · rw [show (i + 1) % 2 = 1 by omega, even]
          rfl
        · rw [show (i + 1) % 2 = 0 by omega, odd]
          rfl
      rw [carry_succ_of_subset evenStarts.subset i, carry_succ_of_subset oddStarts.subset i,
        evenStarts i, oddStarts i, prev, flip]
      simp only [before, leadingRun, oddRun, parity]
      revert apartEven apartOdd apart
      generalize m.getLsbD i = bit
      generalize leadingRun m.getLsbD carry i = lead
      generalize BitVec.carry i m even false = chainEven
      generalize BitVec.carry i m odd false = chainOdd
      generalize (i % 2 == 0) = isEven
      cases bit <;> cases lead <;> cases chainEven <;> cases chainOdd <;> cases isEven <;>
        decide

/-- Along ones the parity alternates. -/
theorem oddRun_add {p : Nat → Bool} {carry : Bool} {k n : Nat}
    (ones : ∀ i, k ≤ i → i < k + n → p i = true) :
    oddRun p carry (k + n) = (oddRun p carry k ^^ (n % 2 == 1)) := by
  induction n with
  | zero => simp
  | succ n ih =>
      rw [← Nat.add_assoc, oddRun, ones (k + n) (by omega) (by omega),
        ih fun i low high => ones i low (by omega)]
      rcases Nat.mod_two_eq_zero_or_one n with even | odd
      · rw [show (n + 1) % 2 = 1 by omega, even]
        cases oddRun p carry k <;> rfl
      · rw [show (n + 1) % 2 = 0 by omega, odd]
        cases oddRun p carry k <;> rfl

theorem oddRun_of_clear {p : Nat → Bool} {carry : Bool} {n : Nat} (clear : p n = false) :
    oddRun p carry (n + 1) = false := by
  rw [oddRun, clear, Bool.false_and]

/-- The carried run ends at the first clear position. -/
theorem leadingRun_of_clear {m : BitVec w} {carry : Bool} {i : Nat} (small : i < w)
    (clear : m.getLsbD i = false) :
    leadingRun m.getLsbD carry i = (carry && trailingOnes m == i) := by
  have set : (~~~m).getLsbD i = true := by
    rw [BitVec.getLsbD_not, clear, decide_eq_true small]
    rfl
  have all {n : Nat} : leadingRun m.getLsbD carry n = true ↔
      carry = true ∧ ∀ j < n, m.getLsbD j = true := by
    induction n with
    | zero => simp [leadingRun]
    | succ n ih =>
        rw [leadingRun, Bool.and_eq_true, ih, and_assoc]
        refine and_congr_right fun _ => ⟨fun ⟨below, last⟩ j small => ?_, fun below =>
          ⟨fun j small => below j (by omega), below n (by omega)⟩⟩
        rcases Nat.lt_succ_iff_lt_or_eq.1 small with under | rfl
        · exact below j under
        · exact last
  rw [Bool.eq_iff_iff, all, Bool.and_eq_true, beq_iff_eq]
  refine and_congr_right fun _ => ⟨fun ones => ?_, fun ends j below => ?_⟩
  · exact trailingZeros_eq set fun j below => by simp [ones j below]
  · rw [trailingOnes] at ends
    have miss := getLsbD_of_lt_trailingZeros (m := ~~~m) (i := j) (by omega)
    simpa [show j < w by omega] using miss

/-- The number of leading ones is the length of the run that ends the mask. -/
theorem oddRun_width (m : BitVec w) (carry : Bool) :
    oddRun m.getLsbD carry w =
      if m = BitVec.allOnes w then carry ^^ (w % 2 == 1)
      else leadingZeros (~~~m) % 2 == 1 := by
  have highOnes : ∀ i, w - leadingZeros (~~~m) ≤ i → i < w → m.getLsbD i = true := by
    intro i low high
    have miss := @List.not_of_lt_findIdx _ ((~~~m).getMsbD) (List.range w) (w - 1 - i)
      (by rw [leadingZeros] at low; omega)
    simp only [List.getElem_range, BitVec.getMsbD_eq_getLsbD, BitVec.getLsbD_not] at miss
    rw [show w - 1 - (w - 1 - i) = i by omega] at miss
    simpa [high, show w - 1 - i < w by omega] using miss
  have short : leadingZeros (~~~m) ≤ w := by
    have := @List.findIdx_le_length _ ((~~~m).getMsbD) (List.range w)
    rwa [List.length_range] at this
  split
  · rename_i full
    have ones := @oddRun_add m.getLsbD carry 0 w
      fun i _ small => by simp [full]; omega
    rw [Nat.zero_add] at ones
    rw [ones, oddRun]
  · rename_i notFull
    have proper : leadingZeros (~~~m) < w := by
      refine Nat.lt_of_le_of_ne short fun all => notFull (mask_ext fun i small => ?_)
      rw [highOnes i (by omega) small, BitVec.getLsbD_allOnes, decide_eq_true small]
    have last := @List.findIdx_getElem _ ((~~~m).getMsbD) (List.range w)
      (by rw [List.length_range]; exact proper)
    simp only [List.getElem_range, BitVec.getMsbD_eq_getLsbD, BitVec.getLsbD_not] at last
    have clear : m.getLsbD (w - leadingZeros (~~~m) - 1) = false := by
      have : w - 1 - leadingZeros (~~~m) = w - leadingZeros (~~~m) - 1 := by omega
      rw [← leadingZeros, this] at last
      simpa [proper, show w - leadingZeros (~~~m) - 1 < w by omega] using last
    have tail := @oddRun_add m.getLsbD carry (w - leadingZeros (~~~m))
      (leadingZeros (~~~m))
      fun i low high => highOnes i low (by omega)
    have start := @oddRun_of_clear _ carry _ clear
    rw [show w - leadingZeros (~~~m) - 1 + 1 = w - leadingZeros (~~~m) by omega] at start
    rw [show w - leadingZeros (~~~m) + leadingZeros (~~~m) = w by omega, start] at tail
    rw [tail, Bool.false_xor]

/-! ## Sums of distinct powers -/

/-- The sum of the powers of two that `p` selects among the lowest `n`. -/
def powerSum (w : Nat) (p : Nat → Bool) : Nat → BitVec w
  | 0 => 0
  | n + 1 => powerSum w p n + (if p n then BitVec.twoPow w n else 0)

/-- Powers that are distinct do not carry. -/
theorem getLsbD_powerSum (p : Nat → Bool) (n i : Nat) :
    (powerSum w p n).getLsbD i = (decide (i < w) && (decide (i < n) && p i)) := by
  induction n generalizing i with
  | zero => simp [powerSum]
  | succ n ih =>
      have power (i : Nat) : (if p n then BitVec.twoPow w n else 0).getLsbD i =
          (decide (i < w) && (decide (n = i) && p n)) := by
        split
        · rename_i set
          rw [BitVec.getLsbD_twoPow, set, Bool.and_true]
          by_cases same : n = i
          · rw [same]
          · simp [same]
        · rename_i clear
          simp [Bool.eq_false_iff.2 clear]
      have apart : powerSum w p n &&& (if p n then BitVec.twoPow w n else 0) = 0#w := by
        refine (eq_zero_iff _).2 fun i _ => ?_
        rw [BitVec.getLsbD_and, ih, power]
        by_cases same : n = i
        · simp [same]
        · simp [same]
      rw [powerSum, BitVec.add_eq_or_of_and_eq_zero _ _ apart, BitVec.getLsbD_or, ih, power]
      by_cases same : n = i
      · subst same
        simp
      · have below : decide (i < n + 1) = decide (i < n) := by
          rw [decide_eq_decide]
          omega
        rw [below]
        simp [same]

/-! ## Carry-less products -/

/-- The sum without carries of the shifted copies of `b` that the lowest `n` bits
of `a` select. -/
def clmulSteps (a b : BitVec w) : Nat → BitVec (w + w)
  | 0 => 0
  | n + 1 =>
      clmulSteps a b n ^^^ (if a.getLsbD n then b.setWidth (w + w) <<< n else 0)

/-- The carry-less product. -/
def clmul (a b : BitVec w) : BitVec (w + w) := clmulSteps a b w

/-- Parity of the number of positions below `n` that satisfy `p`. -/
def prefixParity (p : Nat → Bool) : Nat → Bool
  | 0 => false
  | n + 1 => prefixParity p n ^^ p n

theorem getLsbD_clmulSteps_allOnes (a : BitVec w) {k : Nat} (small : k < w) (n : Nat) :
    (clmulSteps a (BitVec.allOnes w) n).getLsbD k =
      prefixParity a.getLsbD (min n (k + 1)) := by
  induction n with
  | zero => simp [clmulSteps, prefixParity]
  | succ n ih =>
      have copy : ((BitVec.allOnes w).setWidth (w + w) <<< n).getLsbD k =
          decide (n ≤ k) := by
        rw [Bool.eq_iff_iff]
        simp only [BitVec.getLsbD_shiftLeft, BitVec.getLsbD_setWidth,
          BitVec.getLsbD_allOnes, Bool.and_eq_true, Bool.not_eq_true', decide_eq_true_iff,
          decide_eq_false_iff_not]
        omega
      rw [clmulSteps, BitVec.getLsbD_xor, ih]
      rcases Nat.lt_or_ge k n with above | inside
      · rw [show min (n + 1) (k + 1) = k + 1 by omega, show min n (k + 1) = k + 1 by omega]
        split
        · rw [copy, decide_eq_false (by omega), Bool.xor_false]
        · simp
      · rw [show min (n + 1) (k + 1) = n + 1 by omega, show min n (k + 1) = n by omega,
          prefixParity]
        split
        · rename_i set
          rw [copy, decide_eq_true inside, set]
        · rename_i clear
          simp [Bool.eq_false_iff.2 clear]

/-- The low half of the product with all ones holds the prefix parities. -/
theorem getLsbD_clmul_allOnes (a : BitVec w) {k : Nat} (small : k < w) :
    ((clmul a (BitVec.allOnes w)).setWidth w).getLsbD k =
      prefixParity a.getLsbD (k + 1) := by
  rw [BitVec.getLsbD_setWidth, decide_eq_true small, Bool.true_and, clmul,
    getLsbD_clmulSteps_allOnes a small, show min w (k + 1) = k + 1 by omega]

end QJson.Bits

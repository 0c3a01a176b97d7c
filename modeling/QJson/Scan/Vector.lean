import QJson.Scan.Chunks

/-!
# The AVX2 and the NEON scanner

The masks of `src/scan/avx2.rs` and `src/scan/neon.rs`.  A vector register is a
run of bytes of the chunk, an instruction is what its documentation says of each
lane, and both families select the same bytes.
-/

namespace QJson.Scan

open Rfc8259 Bits

/-- The byte in a lane of the chunk. -/
def lane (chunk : Bytes) (i : Nat) : UInt8 := chunk.getD i 0

/-- The prefix parities of the real quotes, from a carry-less product with all
ones; the polarity flips when the chunk began inside a string. -/
def prefixXor (realQuote prevInString : BitVec 64) : BitVec 64 × BitVec 64 :=
  let mask := (clmul realQuote (BitVec.allOnes 64)).setWidth 64
  let mask := if prevInString ≠ 0 then ~~~mask else mask
  (mask, (mask >>> 63) &&& 1)

/-! ## AVX2 -/

/-- `mlo | (mhi << 32)`. -/
def joinHalves (lo hi : BitVec 32) : BitVec 64 :=
  lo.setWidth 64 ||| (hi.setWidth 64 <<< 32)

/-- `byte_mask`: two comparisons and their movemasks. -/
def byteMask (chunk : Bytes) (c : UInt8) : BitVec 64 :=
  joinHalves (maskOf 32 fun i => lane chunk i == c)
    (maskOf 32 fun i => lane chunk (32 + i) == c)

/-- `quote_or_backslash_mask`. -/
def quoteOrBackslashMask (chunk : Bytes) : BitVec 64 :=
  joinHalves (maskOf 32 fun i => lane chunk i == 0x22 || lane chunk i == 0x5C)
    (maskOf 32 fun i => lane chunk (32 + i) == 0x22 || lane chunk (32 + i) == 0x5C)

/-- `chars` of `structural_mask_chunk`. -/
def structuralChars : List UInt8 := [0x7B, 0x7D, 0x5B, 0x5D, 0x3A, 0x2C, 0x22]

/-- `structural_mask_chunk`. -/
def structuralMaskChunk (chunk : Bytes) : BitVec 64 :=
  joinHalves
    (structuralChars.foldl
      (fun mask c => mask ||| maskOf 32 fun i => lane chunk i == c) 0)
    (structuralChars.foldl
      (fun mask c => mask ||| maskOf 32 fun i => lane chunk (32 + i) == c) 0)

/-- `inside_string_mask`. -/
def insideStringMask (realQuote prevInString : BitVec 64) : BitVec 64 × BitVec 64 :=
  prefixXor realQuote prevInString

def avx2Masks : ChunkMasks where
  interesting chunk := quoteOrBackslashMask chunk != 0
  backslash chunk := byteMask chunk 0x5C
  quote chunk := byteMask chunk 0x22
  structural := structuralMaskChunk
  insideString := insideStringMask

/-- `scan_avx2_impl`. -/
def scanAvx2Impl (buf : Bytes) : ScanOut := scanChunked avx2Masks buf

/-- `Avx2Scanner::scan`. -/
def scanAvx2 (buf : Bytes) : ScanOut :=
  if buf.isEmpty then ⟨[], .ok ()⟩ else scanAvx2Impl buf

/-! ## NEON -/

def tagQuote : UInt8 := 0x01
def tagComma : UInt8 := 0x02
def tagColon : UInt8 := 0x04
def tagOpenBracket : UInt8 := 0x08
def tagCloseBracket : UInt8 := 0x10
def tagOpenBrace : UInt8 := 0x20
def tagCloseBrace : UInt8 := 0x40
def tagStructural : UInt8 :=
  tagQuote ||| tagComma ||| tagColon ||| tagOpenBracket ||| tagCloseBracket |||
    tagOpenBrace ||| tagCloseBrace
def tagBackslash : UInt8 := 0x80

/-- `HI_LUT`. -/
def hiLut : List UInt8 :=
  [0x00, 0x00, tagQuote ||| tagComma, tagColon,
    0x00, tagOpenBracket ||| tagCloseBracket ||| tagBackslash, 0x00,
    tagOpenBrace ||| tagCloseBrace,
    0x00, 0x00, 0x00, 0x00,
    0x00, 0x00, 0x00, 0x00]

/-- `LO_LUT`. -/
def loLut : List UInt8 :=
  [0x00, 0x00, tagQuote, 0x00,
    0x00, 0x00, 0x00, 0x00,
    0x00, 0x00, tagColon, tagOpenBracket ||| tagOpenBrace,
    tagComma ||| tagBackslash, tagCloseBracket ||| tagCloseBrace, 0x00, 0x00]

/-- `classify16`, in one lane: two table lookups by nibble. -/
def classify (b : UInt8) : UInt8 :=
  hiLut.getD (b >>> 4).toNat 0 &&& loLut.getD (b &&& 0x0F).toNat 0

/-- `movemask16`: the lanes of each half are weighted and added up. -/
def movemask16 (lanes : Nat → Bool) : BitVec 16 :=
  powerSum 16 lanes 8 ||| (powerSum 16 (fun i => lanes (8 + i)) 8 <<< 8)

/-- `tag_mask16` on the quarter of the chunk that starts at byte `base`. -/
def tagMask16 (chunk : Bytes) (base : Nat) (bits : UInt8) : BitVec 16 :=
  movemask16 fun i => classify (lane chunk (base + i)) &&& bits != 0

/-- `tag_mask64`. -/
def tagMask64 (chunk : Bytes) (bits : UInt8) : BitVec 64 :=
  (tagMask16 chunk 0 bits).setWidth 64 |||
    ((tagMask16 chunk 16 bits).setWidth 64 <<< 16) |||
    ((tagMask16 chunk 32 bits).setWidth 64 <<< 32) |||
    ((tagMask16 chunk 48 bits).setWidth 64 <<< 48)

/-- `inside_string_neon`. -/
def insideStringNeon (realQuote prevInString : BitVec 64) : BitVec 64 × BitVec 64 :=
  prefixXor realQuote prevInString

/-- `m` of the fast probe, in one lane: the comparisons of four quarters. -/
def probeLane (chunk : Bytes) (i : Nat) : Bool :=
  let hit := fun base =>
    lane chunk (base + i) == 0x22 || lane chunk (base + i) == 0x5C
  (hit 0 || hit 16) || (hit 32 || hit 48)

def neonMasks : ChunkMasks where
  interesting chunk := (List.range 16).any (probeLane chunk)
  backslash chunk := tagMask64 chunk tagBackslash
  quote chunk := tagMask64 chunk tagQuote
  structural chunk := tagMask64 chunk tagStructural
  insideString := insideStringNeon

/-- `scan_neon_impl`. -/
def scanNeonImpl (buf : Bytes) : ScanOut := scanChunked neonMasks buf

/-- `NeonScanner::scan`. -/
def scanNeon (buf : Bytes) : ScanOut :=
  if buf.isEmpty then ⟨[], .ok ()⟩ else scanNeonImpl buf

/-! ## The masks are sound -/

theorem getLsbD_prefixXor (realQuote : BitVec 64) (state : Bool) {i : Nat}
    (small : i < 64) :
    (prefixXor realQuote (flag state)).1.getLsbD i =
      (state ^^ prefixParity realQuote.getLsbD (i + 1)) := by
  have parity := getLsbD_clmul_allOnes realQuote small
  rw [prefixXor]
  cases state with
  | false =>
      rw [if_neg (by decide), parity, Bool.false_xor]
  | true =>
      rw [if_pos (by decide), BitVec.getLsbD_not, parity, decide_eq_true small,
        Bool.true_and, Bool.true_xor]

theorem prefixXor_state (realQuote : BitVec 64) (state : Bool) :
    (prefixXor realQuote (flag state)).2 =
      flag (state ^^ prefixParity realQuote.getLsbD 64) := by
  have last := getLsbD_prefixXor realQuote state (i := 63) (by decide)
  refine mask_ext fun i small => ?_
  rw [← last, prefixXor, getLsbD_flag, BitVec.getLsbD_and, BitVec.getLsbD_ushiftRight,
    show (1 : BitVec 64) = 1#64 from rfl, BitVec.getLsbD_one]
  by_cases first : i = 0
  · subst first
    simp
  · simp [first]

theorem getLsbD_joinHalves (lo hi : BitVec 32) {i : Nat} (small : i < 64) :
    (joinHalves lo hi).getLsbD i =
      if i < 32 then lo.getLsbD i else hi.getLsbD (i - 32) := by
  rw [joinHalves, BitVec.getLsbD_or, BitVec.getLsbD_shiftLeft, BitVec.getLsbD_setWidth,
    BitVec.getLsbD_setWidth]
  split
  · rename_i low
    simp [low, small]
  · rename_i high
    rw [BitVec.getLsbD_of_ge lo i (by omega)]
    simp [high, show i - 32 < 64 by omega, small]

/-- Two movemasks joined select the lanes that satisfy the predicate. -/
theorem getLsbD_joinHalves_maskOf (p : UInt8 → Bool) (chunk : Bytes) {i : Nat}
    (small : i < 64) :
    (joinHalves (maskOf 32 fun i => p (lane chunk i))
      (maskOf 32 fun i => p (lane chunk (32 + i)))).getLsbD i = p (lane chunk i) := by
  rw [getLsbD_joinHalves _ _ small]
  split
  · rename_i low
    rw [getLsbD_maskOf, decide_eq_true low, Bool.true_and]
  · rename_i high
    rw [getLsbD_maskOf, decide_eq_true (by omega), Bool.true_and,
      show 32 + (i - 32) = i by omega]

theorem foldl_or_maskOf (cs : List UInt8) (byteAt : Nat → UInt8) (mask : BitVec 32)
    (i : Nat) :
    (cs.foldl (fun mask c => mask ||| maskOf 32 fun i => byteAt i == c) mask).getLsbD i =
      (mask.getLsbD i || (decide (i < 32) && cs.any (byteAt i == ·))) := by
  induction cs generalizing mask with
  | nil => simp
  | cons c cs ih =>
      rw [List.foldl_cons, ih, BitVec.getLsbD_or, getLsbD_maskOf, List.any_cons]
      cases mask.getLsbD i <;> cases decide (i < 32) <;> rfl

theorem any_structuralChars : ∀ b : UInt8, structuralChars.any (b == ·) = isMark b :=
  forall_uint8 (by decide +kernel)

theorem avx2Masks_sound : avx2Masks.Sound where
  interesting chunk dull full b member := by
    obtain ⟨i, small, rfl⟩ := List.mem_iff_getElem.1 member
    have zero : quoteOrBackslashMask chunk = 0#64 := by
      have := dull
      simp only [avx2Masks, bne_eq_false_iff_eq] at this
      exact this
    have clear := (eq_zero_iff _).1 zero i (by omega)
    rw [quoteOrBackslashMask,
      getLsbD_joinHalves_maskOf (fun b => b == 0x22 || b == 0x5C) chunk (by omega), lane,
      List.getD_eq_getElem _ _ small] at clear
    simpa using clear
  backslash chunk i small := getLsbD_joinHalves_maskOf (· == 0x5C) chunk small
  quote chunk i small := getLsbD_joinHalves_maskOf (· == 0x22) chunk small
  structural chunk i small := by
    change (structuralMaskChunk chunk).getLsbD i = _
    rw [structuralMaskChunk, getLsbD_joinHalves _ _ small, ← any_structuralChars]
    split
    · rename_i low
      rw [foldl_or_maskOf structuralChars (lane chunk), decide_eq_true low]
      simp [lane]
    · rename_i high
      rw [foldl_or_maskOf structuralChars (fun i => lane chunk (32 + i)),
        decide_eq_true (by omega), show 32 + (i - 32) = i by omega]
      simp [lane]
  inside realQuote state _ small := getLsbD_prefixXor realQuote state small
  state := prefixXor_state

theorem getLsbD_movemask16 (lanes : Nat → Bool) {i : Nat} (small : i < 16) :
    (movemask16 lanes).getLsbD i = lanes i := by
  rw [movemask16, BitVec.getLsbD_or, BitVec.getLsbD_shiftLeft, getLsbD_powerSum,
    getLsbD_powerSum]
  by_cases low : i < 8
  · simp [small, low]
  · simp [small, low, show i - 8 < 16 by omega, show i - 8 < 8 by omega,
      show 8 + (i - 8) = i by omega]

/-- Four movemasks joined select the lanes with one of the tags. -/
theorem getLsbD_tagMask64 (chunk : Bytes) (bits : UInt8) {i : Nat} (small : i < 64) :
    (tagMask64 chunk bits).getLsbD i = (classify (lane chunk i) &&& bits != 0) := by
  have quarter (base : Nat) {i : Nat} (low : base ≤ i) (high : i < base + 16) :
      (tagMask16 chunk base bits).getLsbD (i - base) =
        (classify (lane chunk i) &&& bits != 0) := by
    rw [tagMask16, getLsbD_movemask16 _ (by omega), show base + (i - base) = i by omega]
  have outside (base : Nat) {i : Nat} (far : 16 ≤ i) :
      (tagMask16 chunk base bits).getLsbD i = false := BitVec.getLsbD_of_ge _ _ far
  simp only [tagMask64, BitVec.getLsbD_or, BitVec.getLsbD_shiftLeft,
    BitVec.getLsbD_setWidth, small, decide_true, Bool.true_and]
  by_cases q1 : i < 16
  · rw [show i = i - 0 from rfl, quarter 0 (Nat.zero_le _) (by omega)]
    simp [show i < 32 by omega, show i < 48 by omega, q1]
  · by_cases q2 : i < 32
    · rw [outside 0 (by omega), quarter 16 (by omega) (by omega)]
      simp [show i < 48 by omega, q1, q2, show i - 16 < 64 by omega]
    · by_cases q3 : i < 48
      · rw [outside 0 (by omega), outside 16 (by omega), quarter 32 (by omega) (by omega)]
        simp [q2, q3, show i - 32 < 64 by omega]
      · rw [outside 0 (by omega), outside 16 (by omega), outside 32 (by omega),
          quarter 48 (by omega) (by omega)]
        simp [q3, show i - 48 < 64 by omega]

theorem classify_quote : ∀ b : UInt8, (classify b &&& tagQuote != 0) = (b == 0x22) :=
  forall_uint8 (by decide +kernel)

theorem classify_backslash : ∀ b : UInt8,
    (classify b &&& tagBackslash != 0) = (b == 0x5C) :=
  forall_uint8 (by decide +kernel)

theorem classify_structural : ∀ b : UInt8,
    (classify b &&& tagStructural != 0) = isMark b :=
  forall_uint8 (by decide +kernel)

theorem neonMasks_sound : neonMasks.Sound where
  interesting chunk dull full b member := by
    obtain ⟨i, small, rfl⟩ := List.mem_iff_getElem.1 member
    have quiet : probeLane chunk (i % 16) = false := by
      have := List.any_eq_false.1 dull (i % 16) (List.mem_range.2 (by omega))
      simpa using this
    have hit : (lane chunk i == 0x22 || lane chunk i == 0x5C) = false := by
      simp only [probeLane, Bool.or_eq_false_iff] at quiet ⊢
      have cases_ : i = 0 + i % 16 ∨ i = 16 + i % 16 ∨ i = 32 + i % 16 ∨ i = 48 + i % 16 := by
        omega
      rcases cases_ with at_ | at_ | at_ | at_ <;> rw [at_]
      · exact quiet.1.1
      · exact quiet.1.2
      · exact quiet.2.1
      · exact quiet.2.2
    rw [lane, List.getD_eq_getElem _ _ small] at hit
    simpa using hit
  backslash chunk i small := by
    change (tagMask64 chunk tagBackslash).getLsbD i = _
    rw [getLsbD_tagMask64 chunk _ small, classify_backslash]
    rfl
  quote chunk i small := by
    change (tagMask64 chunk tagQuote).getLsbD i = _
    rw [getLsbD_tagMask64 chunk _ small, classify_quote]
    rfl
  structural chunk i small := by
    change (tagMask64 chunk tagStructural).getLsbD i = _
    rw [getLsbD_tagMask64 chunk _ small, classify_structural]
    rfl
  inside realQuote state _ small := getLsbD_prefixXor realQuote state small
  state := prefixXor_state

/-- Both vector scanners push what the automaton pushes and then check the
brackets. -/
theorem scan_empty_or_chunked {masks : ChunkMasks} (sound : masks.Sound) (buf : Bytes) :
    (if buf.isEmpty then ⟨[], .ok ()⟩ else scanChunked masks buf : ScanOut) =
      (laneScan buf.length ⟨false, false⟩ 0 (blockEnd buf) buf).checked buf := by
  cases buf with
  | nil => rfl
  | cons b buf => exact scanChunked_eq sound (b :: buf)

end QJson.Scan

import QJson.Scan.Skips

/-!
# Escape masks over many chunks

`find_escape_mask_with_carry` sees one chunk and the carry of the chunk before it.  Chunk
after chunk it marks exactly the bytes behind backslash runs of odd length, wherever these
runs begin.
-/

namespace QJson.Scan

open Rfc8259 Bits

/-- How many backslashes stand immediately in front of position `n`. -/
def slashRun (text : Bytes) (n : Nat) : Nat :=
  ((text.take n).reverse.takeWhile (· == 0x5C)).length

/-- Chunk number `c` of a text. -/
def chunkAt (text : Bytes) (c : Nat) : Bytes := (text.drop (64 * c)).take 64

/-- The carry in front of chunk number `c`. -/
def carryAt (masks : ChunkMasks) (text : Bytes) : Nat → BitVec 64
  | 0 => 0
  | c + 1 => (findEscapeMaskWithCarry (masks.backslash (chunkAt text c)) (carryAt masks text c)).2

/-- The escaped positions of chunk number `c`. -/
def escapedAt (masks : ChunkMasks) (text : Bytes) (c : Nat) : BitVec 64 :=
  (findEscapeMaskWithCarry (masks.backslash (chunkAt text c)) (carryAt masks text c)).1

/-- The automaton counts the backslashes in front of a position. -/
theorem esc_eq_slashRun (text : Bytes) (n : Nat) (inStr : Bool) :
    ((⟨false, inStr⟩ : Lanes).run (text.take n)).esc = (slashRun text n % 2 == 1) := by
  rw [slashRun]
  generalize text.take n = front
  induction front using List.reverseRecOn with
  | nil => rfl
  | append_singleton front b ih =>
      rw [Lanes.run_append, List.reverse_append, List.reverse_singleton, List.singleton_append]
      change (b == 0x5C && !((⟨false, inStr⟩ : Lanes).run front).esc) = _
      rw [ih]
      by_cases slash : b = 0x5C
      · rw [List.takeWhile_cons_of_pos (by simp [slash]), List.length_cons, slash]
        generalize (front.reverse.takeWhile (· == 0x5C)).length = run
        rcases Nat.mod_two_eq_zero_or_one run with even | odd
        · simp [even, show (run + 1) % 2 = 1 by omega]
        · simp [odd, show (run + 1) % 2 = 0 by omega]
      · rw [List.takeWhile_cons_of_neg (by simpa using slash)]
        simp [slash]

section Chunks

variable {masks : ChunkMasks} (sound : masks.Sound) (text : Bytes)
include sound

/-- The carry is the parity of the run that ends the chunk. -/
theorem carryAt_eq {c : Nat} (inside : 64 * c ≤ text.length) :
    carryAt masks text c = flag ((⟨false, false⟩ : Lanes).run (text.take (64 * c))).esc := by
  induction c with
  | zero => rfl
  | succ c ih =>
      have full : (chunkAt text c).length = 64 := by
        simp only [chunkAt, List.length_take, List.length_drop]
        omega
      rw [carryAt, ih (by omega),
        (state_chunk sound (chunkAt text c) ((⟨false, false⟩ : Lanes).run _) full).1,
        ← Lanes.run_append, chunkAt, ← List.take_add]
      rfl

theorem escapedAt_eq {c k : Nat} (inside : 64 * (c + 1) ≤ text.length) (lane : k < 64)
    (other : text[64 * c + k]? ≠ some 0x5C) :
    (escapedAt masks text c).getLsbD k =
      ((⟨false, false⟩ : Lanes).run (text.take (64 * c + k))).esc := by
  have full : (chunkAt text c).length = 64 := by
    simp only [chunkAt, List.length_take, List.length_drop]
    omega
  have byte : (chunkAt text c).getD k 0 = text.getD (64 * c + k) 0 := by
    simp [chunkAt, List.getD_eq_getElem?_getD, lane]
  have clear : (masks.backslash (chunkAt text c)).getLsbD k = false := by
    rw [sound.backslash _ _ lane, byte, List.getD_eq_getElem _ _ (by omega)]
    rw [List.getElem?_eq_getElem (by omega)] at other
    simpa using other
  rw [escapedAt, carryAt_eq sound text (by omega), getLsbD_escaped _ lane clear,
    oddRun_backslash sound _ ((⟨false, false⟩ : Lanes).run _) full (Nat.le_of_lt lane),
    ← Lanes.run_append, chunkAt, List.take_take, Nat.min_eq_left (Nat.le_of_lt lane),
    ← List.take_add]

end Chunks

/-- In every chunk a byte that is not a backslash is escaped exactly behind a run of odd
length, and the carry behind the chunk is the parity of the run that ends it. -/
theorem escapedAt_iff_odd (text : Bytes) : ∀ masks ∈ [avx2Masks, neonMasks], ∀ c,
    64 * (c + 1) ≤ text.length →
      (∀ k < 64, text[64 * c + k]? ≠ some 0x5C →
        ((escapedAt masks text c).getLsbD k = true ↔ slashRun text (64 * c + k) % 2 = 1)) ∧
      carryAt masks text (c + 1) = if slashRun text (64 * (c + 1)) % 2 = 1 then 1 else 0 := by
  intro masks one c inside
  have sound := sound_of_mem one
  refine ⟨fun k lane other => ?_, ?_⟩
  · rw [escapedAt_eq sound text inside lane other, esc_eq_slashRun, beq_iff_eq]
  · rw [carryAt_eq sound text inside, esc_eq_slashRun, flag]
    simp

/-- The quotation mark behind a chunk's 63 backslashes is escaped. -/
theorem escapedAt_iff_odd_quote :
    (escapedAt avx2Masks (List.replicate 63 0x5C ++ [0x22]) 0).getLsbD 63 = true :=
  ((escapedAt_iff_odd (List.replicate 63 0x5C ++ [0x22]) avx2Masks (List.mem_cons_self ..) 0
    (by simp)).1 63 (by decide) (by simp)).2 (by decide)

end QJson.Scan

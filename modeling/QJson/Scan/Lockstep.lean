import QJson.Scan.Vector

/-!
# The vector scanners against the scalar one

Both kinds of scanner are read byte by byte.  They take the same steps until a
quotation mark stands outside strings behind an odd run of backslashes in the
full chunks (a stray quote): the scalar scanner opens a string there, the vector
scanners push the position and stay outside.  From then on their in-string states
are opposite, and they cannot both succeed with the same positions.
-/

namespace QJson.Scan

open Rfc8259 Bits

/-! ## One byte -/

namespace Lanes

/-- The state behind a byte in the scalar tail: outside strings a backslash has
no effect. -/
def tailStep (st : Lanes) (b : UInt8) : Lanes :=
  if st.inStr then st.step b else ⟨false, b == 0x22⟩

/-- Whether a byte is pushed in the scalar tail. -/
def tailEmits (st : Lanes) (b : UInt8) : Bool :=
  if st.inStr then b == 0x22 && !st.esc else isMark b

/-- Whether a quotation mark stands outside strings behind an odd run of
backslashes. -/
def stray (st : Lanes) : Bytes → Bool
  | [] => false
  | b :: rest => (b == 0x22 && st.esc && !st.inStr) || (st.step b).stray rest

theorem stray_append (st : Lanes) (left right : Bytes) :
    st.stray (left ++ right) = (st.stray left || (st.run left).stray right) := by
  induction left generalizing st with
  | nil => rfl
  | cons b left ih =>
      rw [List.cons_append, stray, stray, ih, Bool.or_assoc]
      rfl

theorem emits_eq (st : Lanes) (b : UInt8) :
    st.emits b = if st.inStr then b == 0x22 && !st.esc else isMark b := by
  have quoteMark : b = 0x22 → isMark b = true := by rintro rfl; rfl
  cases st with
  | mk esc inStr =>
      by_cases quote : b = 0x22
      · subst quote
        cases esc <;> cases inStr <;> rfl
      · have other : (b == 0x22) = false := by simpa using quote
        cases inStr <;> simp [emits, step, other]

/-- The two steps differ on a stray quote only, but for what a backslash outside
strings leaves behind. -/
theorem step_eq_tailStep {st : Lanes} {b : UInt8}
    (notStray : (b == 0x22 && st.esc && !st.inStr) = false) :
    (st.step b).inStr = (st.tailStep b).inStr ∧
      ((st.tailStep b).inStr = true → st.step b = st.tailStep b) := by
  cases st with
  | mk esc inStr =>
      cases inStr with
      | true => exact ⟨rfl, fun _ => rfl⟩
      | false =>
          by_cases quote : b = 0x22
          · subst quote
            have plain : esc = false := by simpa using notStray
            subst plain
            exact ⟨rfl, fun _ => rfl⟩
          · have other : (b == 0x22) = false := by simpa using quote
            simp [step, tailStep, other]

end Lanes

section Bytewise

variable {len i k : Nat} {st : Lanes}

theorem laneScan_step (b : UInt8) (rest : Bytes) :
    laneScan len st i (k + 1) (b :: rest) =
      if st.emits b then (laneScan len (st.step b) (i + 1) k rest).push i
      else laneScan len (st.step b) (i + 1) k rest := by
  rw [laneScan]

/-- In the tail a backslash outside strings has no effect. -/
theorem laneScan_outside (esc : Bool) (text : Bytes) :
    laneScan len ⟨esc, false⟩ i 0 text = scanEmitResumeFrom len text i false := by
  cases text <;> rfl

theorem laneScan_inside (text : Bytes) :
    laneScan len ⟨false, true⟩ i 0 text = scanEmitResumeFrom len text i true := by
  cases text <;> rfl

theorem laneScan_congr {st st' : Lanes} (inStr : st.inStr = st'.inStr)
    (inside : st'.inStr = true → st = st') (text : Bytes) :
    laneScan len st i 0 text = laneScan len st' i 0 text := by
  cases st' with
  | mk esc' inStr' =>
      cases inStr' with
      | true => rw [inside rfl]
      | false =>
          obtain ⟨esc, _⟩ := st
          obtain rfl := inStr
          rw [laneScan_outside, laneScan_outside]

theorem resume_inside {b : UInt8} (rest : Bytes) (notSlash : b ≠ 0x5C) :
    scanEmitResumeFrom len (b :: rest) i true =
      if b = 0x22 then (scanEmitResumeFrom len rest (i + 1) false).push i
      else scanEmitResumeFrom len rest (i + 1) true := by
  cases rest <;> simp only [scanEmitResumeFrom, notSlash, if_false]

theorem resume_outside (b : UInt8) (rest : Bytes) :
    scanEmitResumeFrom len (b :: rest) i false =
      if isMark b then (scanEmitResumeFrom len rest (i + 1) (b == 0x22)).push i
      else scanEmitResumeFrom len rest (i + 1) false := by
  by_cases quote : b = 0x22
  · subst quote
    cases rest <;> simp [scanEmitResumeFrom, isMark]
  · have other : (b == 0x22) = false := by simpa using quote
    cases rest <;> simp [scanEmitResumeFrom, isMark, quote, other]

/-- One byte in the tail. -/
theorem laneScan_tail (b : UInt8) (rest : Bytes) :
    laneScan len st i 0 (b :: rest) =
      if st.tailEmits b then (laneScan len (st.tailStep b) (i + 1) 0 rest).push i
      else laneScan len (st.tailStep b) (i + 1) 0 rest := by
  obtain ⟨esc, inStr⟩ := st
  cases inStr with
  | false =>
      rw [laneScan_outside, resume_outside]
      simp only [Lanes.tailEmits, Lanes.tailStep, Bool.false_eq_true, if_false]
      by_cases quote : b = 0x22
      · subst quote
        simp [isMark, laneScan_inside]
      · have other : (b == 0x22) = false := by simpa using quote
        rw [other, laneScan_outside]
  | true =>
      cases esc with
      | true =>
          have skip : laneScan len ⟨true, true⟩ i 0 (b :: rest) =
              scanEmitResumeFrom len rest (i + 1) true := rfl
          rw [skip]
          simp [Lanes.tailEmits, Lanes.tailStep, Lanes.step, laneScan_inside]
      | false =>
          rw [laneScan_inside]
          by_cases slash : b = 0x5C
          · subst slash
            simp only [Lanes.tailEmits, Lanes.tailStep, Lanes.step]
            cases rest <;> rfl
          · rw [resume_inside rest slash]
            by_cases quote : b = 0x22
            · subst quote
              simp [Lanes.tailEmits, Lanes.tailStep, Lanes.step, laneScan_outside]
            · have noQuote : (b == 0x22) = false := by simpa using quote
              have noSlash : (b == 0x5C) = false := by simpa using slash
              simp [Lanes.tailEmits, Lanes.tailStep, Lanes.step, quote, noQuote, noSlash,
                laneScan_inside]

/-- Pushed positions lie in the text. -/
theorem le_of_mem_laneScan {text : Bytes} (small : i + text.length < 2 ^ 32) :
    ∀ p ∈ (laneScan len st i k text).out, i ≤ p := by
  induction text generalizing st i k with
  | nil => simp [laneScan]
  | cons b text ih =>
      simp only [List.length_cons] at small
      have room : i + 1 + text.length < 2 ^ 32 := by omega
      have pushed {scan : ScanOut} (above : ∀ p ∈ scan.out, i + 1 ≤ p) :
          ∀ p ∈ (scan.push i).out, i ≤ p := by
        intro p member
        rcases List.mem_cons.1 member with rfl | later
        · rw [u32_of_lt (by omega)]
        · exact Nat.le_of_succ_le (above p later)
      cases k with
      | zero =>
          rw [laneScan_tail]
          split
          · exact pushed (ih room)
          · exact fun p member => Nat.le_of_succ_le (ih room p member)
      | succ k =>
          rw [laneScan_step]
          split
          · exact pushed (ih room)
          · exact fun p member => Nat.le_of_succ_le (ih room p member)

end Bytewise

/-! ## Without stray quotes -/

/-- Without stray quotes the full chunks are read like the tail. -/
theorem laneScan_of_not_stray {len i k : Nat} {st : Lanes} {text : Bytes}
    (notStray : st.stray (text.take k) = false) :
    laneScan len st i k text = laneScan len st i 0 text := by
  induction text generalizing st i k with
  | nil => cases k <;> rfl
  | cons b text ih =>
      cases k with
      | zero => rfl
      | succ k =>
          rw [List.take_succ_cons, Lanes.stray, Bool.or_eq_false_iff] at notStray
          obtain ⟨inStr, inside⟩ := Lanes.step_eq_tailStep notStray.1
          rw [laneScan_step, laneScan_tail, ih notStray.2, laneScan_congr inStr inside,
            Lanes.emits_eq, Lanes.tailEmits]

/-! ## Behind a stray quote -/

/-- Two scans that both succeed, with the same positions. -/
def BothSucceed (left right : ScanOut) : Prop :=
  left.result = .ok () ∧ right.result = .ok () ∧ left.out = right.out

section Opposite

variable {len i : Nat}

/-- When only one of two scans pushes a position, the positions differ. -/
theorem not_bothSucceed_push {left right : ScanOut} (room : i < 2 ^ 32)
    (above : ∀ p ∈ right.out, i + 1 ≤ p) :
    ¬ BothSucceed (left.push i) right ∧ ¬ BothSucceed right (left.push i) := by
  have absurd_ (same : u32 i :: left.out = right.out) : False := by
    have := above (u32 i) (same ▸ List.mem_cons_self ..)
    rw [u32_of_lt room] at this
    omega
  exact ⟨fun both => absurd_ both.2.2, fun both => absurd_ both.2.2.symm⟩

theorem bothSucceed_push {left right : ScanOut} :
    BothSucceed (left.push i) (right.push i) ↔ BothSucceed left right := by
  simp [BothSucceed]

/-- One step of two scans: they push the same byte or neither does. -/
theorem bothSucceed_step {leftEmits rightEmits : Bool} {left right : ScanOut}
    (room : i < 2 ^ 32) (aboveLeft : ∀ p ∈ left.out, i + 1 ≤ p)
    (aboveRight : ∀ p ∈ right.out, i + 1 ≤ p)
    (both : BothSucceed (if leftEmits then left.push i else left)
      (if rightEmits then right.push i else right)) :
    leftEmits = rightEmits ∧ BothSucceed left right := by
  cases leftEmits <;> cases rightEmits <;>
    simp only [Bool.false_eq_true, if_false, if_true] at both
  · exact ⟨rfl, both⟩
  · exact absurd both (not_bothSucceed_push room aboveLeft).2
  · exact absurd both (not_bothSucceed_push room aboveRight).1
  · exact ⟨rfl, bothSucceed_push.1 both⟩

/-- Opposite in-string states stay opposite, so one of the scans ends inside a
string. -/
theorem not_bothSucceed_opposite {text : Bytes} (small : i + text.length < 2 ^ 32)
    (k : Nat) (esc : Bool) :
    ¬ BothSucceed (laneScan len ⟨esc, true⟩ i 0 text) (laneScan len ⟨esc, false⟩ i k text) ∧
      ∀ esc', ¬ BothSucceed (laneScan len ⟨esc', false⟩ i 0 text)
        (laneScan len ⟨esc, true⟩ i k text) := by
  induction text generalizing i k esc with
  | nil => cases k <;> simp [BothSucceed, laneScan]
  | cons b text ih =>
      simp only [List.length_cons] at small
      have room : i + 1 + text.length < 2 ^ 32 := by omega
      have fits : i < 2 ^ 32 := by omega
      -- the step of the right scan, in a chunk or in the tail
      have right (st : Lanes) : ∃ k' st', laneScan len st i k (b :: text) =
            (if st.tailEmits b then (laneScan len st' (i + 1) k' text).push i
              else laneScan len st' (i + 1) k' text) ∧
          (k' ≠ 0 → st' = st.step b) ∧ (k' = 0 → st' = st.step b ∨ st' = st.tailStep b) := by
        cases k with
        | zero => exact ⟨0, _, laneScan_tail b text, by simp, fun _ => .inr rfl⟩
        | succ k =>
            refine ⟨k, _, ?_, fun _ => rfl, fun _ => .inl rfl⟩
            rw [laneScan_step, Lanes.emits_eq, Lanes.tailEmits]
      constructor
      · intro both
        obtain ⟨k', st', stepped, inChunk, inTail⟩ := right ⟨esc, false⟩
        rw [laneScan_tail, stepped] at both
        obtain ⟨same, both⟩ := bothSucceed_step fits (le_of_mem_laneScan room)
          (le_of_mem_laneScan room) both
        simp only [Lanes.tailEmits, if_true, Bool.false_eq_true, if_false] at same
        by_cases quote : b = 0x22
        · subst quote
          have plain : esc = false := by simpa [isMark] using same
          subst plain
          have flipped : st' = ⟨false, true⟩ := by
            by_cases zero : k' = 0
            · rcases inTail zero with rfl | rfl <;> rfl
            · rw [inChunk zero]
              rfl
          rw [flipped] at both
          exact (ih room k' false).2 false both
        · have other : (b == 0x22) = false := by simpa using quote
          simp only [Lanes.tailStep, Lanes.step, other, Bool.false_and, Bool.xor_false,
            if_true] at both
          by_cases zero : k' = 0
          · have outside : st'.inStr = false := by
              rcases inTail zero with rfl | rfl <;> simp [Lanes.step, Lanes.tailStep, other]
            obtain ⟨esc', _⟩ := st'
            obtain rfl := outside
            subst zero
            rw [laneScan_outside, ← laneScan_outside (b == 0x5C && !esc)] at both
            exact (ih room 0 _).1 both
          · have next : st' = ⟨b == 0x5C && !esc, false⟩ := by
              rw [inChunk zero]
              simp [Lanes.step, other]
            rw [next] at both
            exact (ih room k' _).1 both
      · intro esc' both
        obtain ⟨k', st', stepped, inChunk, inTail⟩ := right ⟨esc, true⟩
        rw [laneScan_tail, stepped] at both
        obtain ⟨same, both⟩ := bothSucceed_step fits (le_of_mem_laneScan room)
          (le_of_mem_laneScan room) both
        have next : st' = Lanes.step ⟨esc, true⟩ b := by
          by_cases zero : k' = 0
          · rcases inTail zero with rfl | rfl <;> rfl
          · exact inChunk zero
        rw [next] at both
        simp only [Lanes.tailEmits, if_true, Bool.false_eq_true, if_false] at same
        simp only [Lanes.tailStep, Bool.false_eq_true, if_false] at both
        by_cases quote : b = 0x22
        · subst quote
          have plain : esc = false := by simpa [isMark] using same
          subst plain
          exact (ih room k' false).1 both
        · have other : (b == 0x22) = false := by simpa using quote
          simp only [Lanes.step, other, Bool.false_and, Bool.xor_false] at both
          exact (ih room k' _).2 false both

end Opposite

/-- With a stray quote in the full chunks, the scans do not both succeed with the
same positions. -/
theorem not_bothSucceed_stray {len i k : Nat} {st : Lanes} {text : Bytes}
    (small : i + text.length < 2 ^ 32) (stray : st.stray (text.take k) = true) :
    ¬ BothSucceed (laneScan len st i 0 text) (laneScan len st i k text) := by
  induction text generalizing st i k with
  | nil => simp [Lanes.stray] at stray
  | cons b text ih =>
      cases k with
      | zero => simp [Lanes.stray] at stray
      | succ k =>
          simp only [List.length_cons] at small
          have room : i + 1 + text.length < 2 ^ 32 := by omega
          intro both
          rw [laneScan_tail, laneScan_step] at both
          obtain ⟨-, both⟩ := bothSucceed_step (by omega) (le_of_mem_laneScan room)
            (le_of_mem_laneScan room) both
          rw [List.take_succ_cons, Lanes.stray, Bool.or_eq_true] at stray
          by_cases here : (b == 0x22 && st.esc && !st.inStr) = true
          · simp only [Bool.and_eq_true, beq_iff_eq, Bool.not_eq_true'] at here
            obtain ⟨⟨rfl, esc⟩, outside⟩ := here
            obtain ⟨_, _⟩ := st
            obtain rfl := esc
            obtain rfl := outside
            exact (not_bothSucceed_opposite room k false).1 both
          · have below := stray.resolve_left here
            obtain ⟨inStr, inside⟩ := Lanes.step_eq_tailStep (Bool.eq_false_iff.2 here)
            rw [← laneScan_congr inStr inside] at both
            exact ih room below both

end QJson.Scan

import QJson.Scan.Vector

/-!
# The skip paths of the chunk loop

Inside a string the loop leaves a chunk without quotation marks and backslashes alone, and
jumps to the chunk of the next such byte when enough bytes remain.  The loop that computes
every chunk in full reaches the tail with the same variables and the same pushes.
-/

namespace QJson.Scan

open Rfc8259 Bits

/-! ## One round of the loop -/

/-- The variables at the head of the chunk loop. -/
structure LoopHead where
  i : Nat
  bsCarry : BitVec 64
  inString : BitVec 64

/-- The chunk at the head of the loop. -/
def LoopHead.chunk (buf : Bytes) (head : LoopHead) : Bytes := (buf.drop head.i).take 64

/-- The fast probe finds nothing of interest in the chunk. -/
def LoopHead.Skips (masks : ChunkMasks) (buf : Bytes) (head : LoopHead) : Prop :=
  head.inString ≠ 0 ∧ masks.interesting (head.chunk buf) = false

instance (masks : ChunkMasks) (buf : Bytes) (head : LoopHead) :
    Decidable (head.Skips masks buf) :=
  inferInstanceAs (Decidable (_ ∧ _))

/-- The pushes of the full computation on the chunk, with the variables behind it. -/
def fullRound (masks : ChunkMasks) (buf : Bytes) (head : LoopHead) : List Nat × LoopHead :=
  let chunk := head.chunk buf
  let escape := findEscapeMaskWithCarry (masks.backslash chunk) head.bsCarry
  let realQuote := masks.quote chunk &&& ~~~escape.1
  let inside := masks.insideString realQuote head.inString
  (emitBits ((masks.structural chunk &&& ~~~inside.1) ||| realQuote) (u32 head.i),
    ⟨head.i + 64, escape.2, inside.2⟩)

/-- A round of the loop. -/
def loopRound (masks : ChunkMasks) (buf : Bytes) (head : LoopHead) : List Nat × LoopHead :=
  if head.Skips masks buf then
    ([], ⟨head.i + 64 + jump buf (head.i + 64), 0, head.inString⟩)
  else fullRound masks buf head

/-- The chunk loop without its skip paths. -/
def fullLoop (masks : ChunkMasks) (buf : Bytes) (head : LoopHead) : ChunkEnd :=
  if head.i + 64 ≤ buf.length then
    let round := fullRound masks buf head
    let rest := fullLoop masks buf round.2
    { rest with out := round.1 ++ rest.out }
  else ⟨[], head.i, head.bsCarry, head.inString⟩
termination_by buf.length - head.i
decreasing_by
  simp only [fullRound]
  omega

/-- The heads that the loop comes by. -/
inductive Heads (masks : ChunkMasks) (buf : Bytes) : LoopHead → Prop where
  | start : Heads masks buf ⟨0, 0, 0⟩
  | next {head : LoopHead} : Heads masks buf head → head.i + 64 ≤ buf.length →
      Heads masks buf (loopRound masks buf head).2

section Rounds

variable {masks : ChunkMasks} {buf : Bytes}

/-- The chunk loop takes round after round. -/
theorem chunkLoop_eq_round (head : LoopHead) :
    chunkLoop masks buf head.i head.bsCarry head.inString =
      if head.i + 64 ≤ buf.length then
        let round := loopRound masks buf head
        let rest := chunkLoop masks buf round.2.i round.2.bsCarry round.2.inString
        { rest with out := round.1 ++ rest.out }
      else ⟨[], head.i, head.bsCarry, head.inString⟩ := by
  rw [chunkLoop]
  split
  · by_cases skip : head.Skips masks buf
    · rw [loopRound, if_pos skip]
      exact if_pos skip
    · rw [loopRound, if_neg skip]
      exact if_neg skip
  · rfl

variable (sound : masks.Sound) {head : LoopHead} {st : Lanes}

/-- The variables of a head are those of the automaton at a chunk boundary. -/
structure Follows (buf : Bytes) (head : LoopHead) (st : Lanes) : Prop where
  aligned : head.i % 64 = 0
  inside : head.i ≤ buf.length
  carry : head.bsCarry = flag st.esc
  inString : head.inString = flag st.inStr

include sound

/-- The full computation does what the automaton does on the chunk. -/
theorem fullRound_eq (follows : Follows buf head st) (more : head.i + 64 ≤ buf.length) :
    (fullRound masks buf head).1 = st.out head.i (head.chunk buf) ∧
      Follows buf (fullRound masks buf head).2 (st.run (head.chunk buf)) := by
  have full : (head.chunk buf).length = 64 := by
    simp only [LoopHead.chunk, List.length_take, List.length_drop]
    omega
  obtain ⟨carry, state⟩ := state_chunk sound (head.chunk buf) st full
  have emitted := emitBits_chunk sound (head.chunk buf) st full head.i
  simp only at emitted carry state
  have aligned := follows.aligned
  rw [fullRound, follows.carry, follows.inString]
  exact ⟨emitted, ⟨by simp only; omega, more, carry, state⟩⟩

/-- The loop without skip paths does what the automaton does up to the last full chunk. -/
theorem fullLoop_eq (follows : Follows buf head st) :
    fullLoop masks buf head =
      ⟨st.out head.i ((buf.drop head.i).take (blockEnd buf - head.i)), blockEnd buf,
        flag (st.run ((buf.drop head.i).take (blockEnd buf - head.i))).esc,
        flag (st.run ((buf.drop head.i).take (blockEnd buf - head.i))).inStr⟩ := by
  induction size : buf.length - head.i using Nat.strongRecOn generalizing head st with
  | ind size ih =>
    subst size
    have aligned := follows.aligned
    have inside := follows.inside
    rw [fullLoop]
    by_cases more : head.i + 64 ≤ buf.length
    · obtain ⟨emitted, next⟩ := fullRound_eq sound follows more
      have rest := ih (buf.length - (head.i + 64)) (by omega) next rfl
      have cut := drop_take_drop buf (show head.i + 64 ≤ blockEnd buf by
        unfold blockEnd
        omega)
      have full : (head.chunk buf).length = 64 := by
        simp only [LoopHead.chunk, List.length_take, List.length_drop]
        omega
      rw [if_pos more]
      simp only
      rw [rest, emitted, cut, ← LoopHead.chunk, Lanes.out_append, Lanes.run_append, full]
      rfl
    · have stop : head.i = blockEnd buf := by
        unfold blockEnd
        omega
      rw [if_neg more, ← stop, Nat.sub_self, List.take_zero, follows.carry, follows.inString]
      rfl

/-- A round goes forward to a chunk boundary, and a skip passes nothing of interest. -/
theorem loopRound_spec (follows : Follows buf head st) (more : head.i + 64 ≤ buf.length) :
    head.i < (loopRound masks buf head).2.i ∧
      (loopRound masks buf head).2.i ≤ blockEnd buf ∧
      (head.Skips masks buf → ∀ b ∈ (buf.drop head.i).take
        ((loopRound masks buf head).2.i - head.i), b ≠ 0x22 ∧ b ≠ 0x5C) ∧
      ∃ st', Follows buf (loopRound masks buf head).2 st' := by
  have aligned := follows.aligned
  by_cases skip : head.Skips masks buf
  · obtain ⟨whole, within, calmJump⟩ := jump_spec buf more (by omega)
    have full : (head.chunk buf).length = 64 := by
      simp only [LoopHead.chunk, List.length_take, List.length_drop]
      omega
    have calm := sound.interesting _ skip.2 full
    have inStr : st.inStr = true := by
      have inString := skip.1
      rwa [follows.inString, flag_ne_zero] at inString
    rw [loopRound, if_pos skip]
    refine ⟨by simp only; omega, ?_, fun _ b member => ?_, ⟨false, true⟩, ?_⟩
    · simp only [blockEnd]
      omega
    · simp only [show head.i + 64 + jump buf (head.i + 64) - head.i =
        64 + jump buf (head.i + 64) by omega, List.take_add, List.drop_drop] at member
      rcases List.mem_append.1 member with first | later
      · exact calm b first
      · exact calmJump b later
    · exact ⟨by simp only; omega, within, rfl, by rw [follows.inString, inStr]⟩
  · rw [loopRound, if_neg skip]
    refine ⟨by simp only [fullRound]; omega, ?_, fun skips => absurd skips skip, _,
      (fullRound_eq sound follows more).2⟩
    simp only [fullRound, blockEnd]
    omega

/-- Every head of the loop is at a chunk boundary. -/
theorem Heads.follows (heads : Heads masks buf head) : ∃ st, Follows buf head st := by
  induction heads with
  | start => exact ⟨⟨false, false⟩, rfl, Nat.zero_le _, rfl, rfl⟩
  | next _ more ih =>
      obtain ⟨st, follows⟩ := ih
      exact (loopRound_spec sound follows more).2.2.2

end Rounds

theorem sound_of_mem {masks : ChunkMasks} (one : masks ∈ [avx2Masks, neonMasks]) :
    masks.Sound := by
  rcases List.mem_pair.1 one with rfl | rfl
  · exact avx2Masks_sound
  · exact neonMasks_sound

/-- The skip paths change nothing: the loop ends as the loop without them does.  Each of its
rounds goes forward to a boundary between full chunks, and a skip passes neither a quotation
mark nor a backslash. -/
theorem chunkLoop_eq_fullLoop (buf : Bytes) : ∀ masks ∈ [avx2Masks, neonMasks],
    chunkLoop masks buf 0 0 0 = fullLoop masks buf ⟨0, 0, 0⟩ ∧
      ∀ head, Heads masks buf head → head.i + 64 ≤ buf.length →
        head.i < (loopRound masks buf head).2.i ∧
          (loopRound masks buf head).2.i % 64 = 0 ∧
          (loopRound masks buf head).2.i ≤ blockEnd buf ∧
          (head.Skips masks buf → ∀ b ∈ (buf.drop head.i).take
            ((loopRound masks buf head).2.i - head.i), b ≠ 0x22 ∧ b ≠ 0x5C) := by
  intro masks one
  have sound := sound_of_mem one
  have start : Follows buf ⟨0, 0, 0⟩ ⟨false, false⟩ := ⟨rfl, Nat.zero_le _, rfl, rfl⟩
  refine ⟨?_, fun head heads more => ?_⟩
  · rw [fullLoop_eq sound start]
    exact chunkLoop_eq sound buf 0 ⟨false, false⟩ (Nat.zero_le _) rfl
  · obtain ⟨st, follows⟩ := heads.follows sound
    obtain ⟨forward, within, calm, st', next⟩ := loopRound_spec sound follows more
    exact ⟨forward, next.aligned, within, calm⟩

/-- A string that begins with the first chunk and never ends. -/
def lettersText : Bytes := 0x22 :: List.replicate 4351 0x61

/-- Behind its first round the loop jumps to the end of the letters. -/
theorem chunkLoop_eq_fullLoop_letters :
    chunkLoop avx2Masks lettersText 0 0 0 = fullLoop avx2Masks lettersText ⟨0, 0, 0⟩ ∧
      (loopRound avx2Masks lettersText (loopRound avx2Masks lettersText ⟨0, 0, 0⟩).2).2.i =
        4352 ∧
      ∀ b ∈ (lettersText.drop (loopRound avx2Masks lettersText ⟨0, 0, 0⟩).2.i).take
          ((loopRound avx2Masks lettersText (loopRound avx2Masks lettersText ⟨0, 0, 0⟩).2).2.i -
            (loopRound avx2Masks lettersText ⟨0, 0, 0⟩).2.i),
        b ≠ 0x22 ∧ b ≠ 0x5C := by
  obtain ⟨same, rounds⟩ := chunkLoop_eq_fullLoop lettersText avx2Masks (List.mem_cons_self ..)
  obtain ⟨-, -, -, calm⟩ := rounds _ (.next .start (by decide +kernel)) (by decide +kernel)
  exact ⟨same, by decide +kernel, calm (by decide +kernel)⟩

end QJson.Scan

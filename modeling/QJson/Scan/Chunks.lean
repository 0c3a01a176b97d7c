import Mathlib.Data.List.GetD
import QJson.Scan.Masks

/-!
# The chunk loop of the vector scanners

`scan_avx2_impl` and `scan_neon_impl` are one loop over chunks of 64 bytes; they
differ in the instructions that compute the masks of a chunk, which are a
parameter here.  Whatever sound masks it is given, the loop does what an
automaton does byte by byte: a backslash run of odd length escapes the byte
behind it, also outside strings, and an unescaped quotation mark flips the
in-string state.
-/

namespace QJson.Scan

open Rfc8259 Bits

/-! ## The code -/

/-- The masks of a chunk of 64 bytes. -/
structure ChunkMasks where
  /-- Whether the fast probe sees a quotation mark or a backslash. -/
  interesting : Bytes → Bool
  backslash : Bytes → BitVec 64
  quote : Bytes → BitVec 64
  structural : Bytes → BitVec 64
  /-- The inside mask and the new state, from the real quotes and the old state. -/
  insideString : BitVec 64 → BitVec 64 → BitVec 64 × BitVec 64

/-- `memchr::memchr2`. -/
def memchr2 (a b : UInt8) (haystack : Bytes) : Option Nat :=
  haystack.findIdx? fun c => c == a || c == b

/-- The cross-chunk jump from byte `i` on. -/
def jump (buf : Bytes) (i : Nat) : Nat :=
  if i + 4096 ≤ buf.length then
    let scanEnd := buf.length - buf.length % 64
    match memchr2 0x22 0x5C ((buf.drop i).take (scanEnd - i)) with
    | some rel => rel - rel % 64
    | none => scanEnd - i
  else 0

/-- The variables when the chunk loop ends, with what it pushed to `out`. -/
structure ChunkEnd where
  out : List Nat
  i : Nat
  bsCarry : BitVec 64
  inString : BitVec 64
  deriving DecidableEq

/-- `while i + 64 <= buf.len()`. -/
def chunkLoop (masks : ChunkMasks) (buf : Bytes) (i : Nat) (bsCarry inString : BitVec 64) :
    ChunkEnd :=
  if i + 64 ≤ buf.length then
    let chunk := (buf.drop i).take 64
    if inString ≠ 0 ∧ masks.interesting chunk = false then
      chunkLoop masks buf (i + 64 + jump buf (i + 64)) 0 inString
    else
      let escape := findEscapeMaskWithCarry (masks.backslash chunk) bsCarry
      let realQuote := masks.quote chunk &&& ~~~escape.1
      let inside := masks.insideString realQuote inString
      let finalMask := (masks.structural chunk &&& ~~~inside.1) ||| realQuote
      let rest := chunkLoop masks buf (i + 64) escape.2 inside.2
      { rest with out := emitBits finalMask (u32 i) ++ rest.out }
  else ⟨[], i, bsCarry, inString⟩
termination_by buf.length - i

/-- The body of `scan_avx2_impl` and `scan_neon_impl`; `out` is empty before. -/
def scanChunked (masks : ChunkMasks) (buf : Bytes) : ScanOut :=
  let last := chunkLoop masks buf 0 0 0
  if last.i < buf.length then
    let scalarStart := if last.inString ≠ 0 ∧ last.bsCarry ≠ 0 then last.i + 1 else last.i
    let tail := scanEmitResume buf scalarStart (last.inString ≠ 0)
    match tail.result with
    | .error fault => ⟨last.out ++ tail.out, .error fault⟩
    | .ok () => ⟨last.out ++ tail.out, validateBrackets buf (last.out ++ tail.out)⟩
  else if last.inString ≠ 0 then ⟨last.out, .error (.err buf.length)⟩
  else ⟨last.out, validateBrackets buf last.out⟩

/-! ## The automaton -/

/-- What is known between two bytes: whether the next one is escaped, and
whether it is inside a string. -/
structure Lanes where
  esc : Bool
  inStr : Bool
  deriving DecidableEq

namespace Lanes

/-- The state behind a byte. -/
def step (st : Lanes) (b : UInt8) : Lanes :=
  ⟨b == 0x5C && !st.esc, st.inStr ^^ (b == 0x22 && !st.esc)⟩

/-- The state behind a text. -/
def run (st : Lanes) (text : Bytes) : Lanes := text.foldl step st

/-- Whether a byte is pushed. -/
def emits (st : Lanes) (b : UInt8) : Bool :=
  isMark b && !(st.step b).inStr || b == 0x22 && !st.esc

/-- The positions pushed for a text that starts at byte `i`. -/
def out (st : Lanes) (i : Nat) : Bytes → List Nat
  | [] => []
  | b :: rest => (if st.emits b then [u32 i] else []) ++ (st.step b).out (i + 1) rest

theorem run_append (st : Lanes) (left right : Bytes) :
    st.run (left ++ right) = (st.run left).run right := List.foldl_append ..

theorem out_append (st : Lanes) (i : Nat) (left right : Bytes) :
    st.out i (left ++ right) = st.out i left ++ (st.run left).out (i + left.length) right := by
  induction left generalizing st i with
  | nil => rfl
  | cons b left ih =>
      rw [List.cons_append, out, out, ih, List.append_assoc, List.length_cons,
        Nat.add_assoc i 1, Nat.add_comm 1]
      rfl

/-- Inside a string nothing happens on bytes that are neither quotation marks nor
backslashes. -/
theorem calm {st : Lanes} (inside : st.inStr = true) {text : Bytes}
    (noMark : ∀ b ∈ text, b ≠ 0x22 ∧ b ≠ 0x5C) (i : Nat) :
    st.out i text = [] ∧ (text ≠ [] → st.run text = ⟨false, true⟩) := by
  induction text generalizing st i with
  | nil => exact ⟨rfl, fun some_ => absurd rfl some_⟩
  | cons b text ih =>
      obtain ⟨notQuote, notSlash⟩ := noMark b (List.mem_cons_self ..)
      have next : st.step b = ⟨false, true⟩ := by simp [step, notQuote, notSlash, inside]
      have quiet : st.emits b = false := by simp [emits, next, notQuote]
      obtain ⟨nothing, state⟩ := @ih (st.step b) (by rw [next])
        (fun c member => noMark c (List.mem_cons_of_mem b member)) (i + 1)
      refine ⟨by rw [out, quiet, nothing]; rfl, fun _ => ?_⟩
      cases text with
      | nil => exact next
      | cons c text => exact state (by simp)

/-- The pushed positions, as a filter on positions. -/
theorem out_eq (st : Lanes) (i : Nat) (text : Bytes) :
    st.out i text =
      ((List.range text.length).filter fun k =>
        (st.run (text.take k)).emits (text.getD k 0)).map fun k => u32 (i + k) := by
  induction text generalizing st i with
  | nil => rfl
  | cons b text ih =>
      rw [out, ih, List.length_cons, List.range_succ_eq_map, List.filter_cons,
        List.filter_map]
      have shift : (fun k => u32 (i + k)) ∘ Nat.succ = fun k => u32 (i + 1 + k) := by
        funext k
        simp only [Function.comp]
        congr 1
        omega
      have tail : (fun k => (st.run ((b :: text).take k)).emits ((b :: text).getD k 0)) ∘
          Nat.succ = fun k => ((st.step b).run (text.take k)).emits (text.getD k 0) := by
        funext k
        rfl
      rw [tail]
      have head : (st.run ((b :: text).take 0)).emits ((b :: text).getD 0 0) = st.emits b :=
        rfl
      rw [head]
      cases st.emits b <;> simp [← shift, List.map_map]

end Lanes

/-! ## Sound masks -/

/-- The masks select the bytes they are named after. -/
structure ChunkMasks.Sound (masks : ChunkMasks) : Prop where
  interesting : ∀ chunk, masks.interesting chunk = false → chunk.length = 64 →
    ∀ b ∈ chunk, b ≠ 0x22 ∧ b ≠ 0x5C
  backslash : ∀ chunk, ∀ i < 64,
    (masks.backslash chunk).getLsbD i = (chunk.getD i 0 == 0x5C)
  quote : ∀ chunk, ∀ i < 64, (masks.quote chunk).getLsbD i = (chunk.getD i 0 == 0x22)
  structural : ∀ chunk, ∀ i < 64,
    (masks.structural chunk).getLsbD i = isMark (chunk.getD i 0)
  inside : ∀ realQuote state, ∀ i < 64,
    (masks.insideString realQuote (flag state)).1.getLsbD i =
      (state ^^ prefixParity realQuote.getLsbD (i + 1))
  state : ∀ realQuote state, (masks.insideString realQuote (flag state)).2 =
    flag (state ^^ prefixParity realQuote.getLsbD 64)

section Chunk

variable {masks : ChunkMasks} (sound : masks.Sound) (chunk : Bytes) (st : Lanes)

theorem Lanes.run_take_succ {k : Nat} (inside : k < chunk.length) :
    st.run (chunk.take (k + 1)) = (st.run (chunk.take k)).step (chunk.getD k 0) := by
  rw [List.take_succ_eq_append_getElem inside, Lanes.run_append,
    List.getD_eq_getElem _ _ inside]
  rfl

include sound

theorem oddRun_backslash {k : Nat} (full : chunk.length = 64) (inside : k ≤ 64) :
    oddRun (masks.backslash chunk).getLsbD st.esc k = (st.run (chunk.take k)).esc := by
  induction k with
  | zero => rfl
  | succ k ih =>
      rw [oddRun, ih (by omega), sound.backslash chunk k (by omega),
        Lanes.run_take_succ chunk st (by omega)]
      rfl

/-- The real quotation marks are the unescaped ones. -/
theorem getLsbD_realQuote {k : Nat} (full : chunk.length = 64) (inside : k < 64) :
    (masks.quote chunk &&&
        ~~~(findEscapeMaskWithCarry (masks.backslash chunk) (flag st.esc)).1).getLsbD k =
      (chunk.getD k 0 == 0x22 && !(st.run (chunk.take k)).esc) := by
  rw [BitVec.getLsbD_and, BitVec.getLsbD_not, sound.quote chunk k inside,
    decide_eq_true inside, Bool.true_and]
  by_cases quote : chunk.getD k 0 = 0x22
  · have clear : (masks.backslash chunk).getLsbD k = false := by
      rw [sound.backslash chunk k inside, quote]
      rfl
    rw [getLsbD_escaped st.esc inside clear,
      oddRun_backslash sound chunk st full (Nat.le_of_lt inside)]
  · have other : (chunk.getD k 0 == 0x22) = false := by simpa using quote
    rw [other]
    rfl

/-- The prefix parities of the real quotation marks follow the automaton. -/
theorem parity_realQuote {k : Nat} (full : chunk.length = 64) (inside : k ≤ 64) :
    (st.inStr ^^ prefixParity (masks.quote chunk &&&
      ~~~(findEscapeMaskWithCarry (masks.backslash chunk) (flag st.esc)).1).getLsbD k) =
      (st.run (chunk.take k)).inStr := by
  induction k with
  | zero =>
      rw [prefixParity, Bool.xor_false]
      rfl
  | succ k ih =>
      rw [prefixParity, ← Bool.xor_assoc, ih (by omega),
        getLsbD_realQuote sound chunk st full (by omega),
        Lanes.run_take_succ chunk st (by omega)]
      rfl

/-- The masks of a chunk push what the automaton pushes. -/
theorem emitBits_chunk (full : chunk.length = 64) (i : Nat) :
    let escape := findEscapeMaskWithCarry (masks.backslash chunk) (flag st.esc)
    let realQuote := masks.quote chunk &&& ~~~escape.1
    let inside := masks.insideString realQuote (flag st.inStr)
    emitBits ((masks.structural chunk &&& ~~~inside.1) ||| realQuote) (u32 i) =
      st.out i chunk := by
  intro escape realQuote inside
  have wraps : (fun k => u32 (u32 i + k)) = fun k => u32 (i + k) :=
    funext fun k => Nat.mod_add_mod i (2 ^ 32) k
  rw [emitBits_eq, Lanes.out_eq, full, wraps, positions]
  congr 1
  refine List.filter_congr fun k member => ?_
  have lane := List.mem_range.1 member
  rw [BitVec.getLsbD_or, BitVec.getLsbD_and, BitVec.getLsbD_not,
    sound.structural chunk k lane, sound.inside realQuote st.inStr k lane,
    parity_realQuote sound chunk st full (k := k + 1) (by omega),
    getLsbD_realQuote sound chunk st full lane,
    Lanes.run_take_succ chunk st (by omega), decide_eq_true lane, Bool.true_and]
  rfl

/-- The state behind a chunk is that of the automaton. -/
theorem state_chunk (full : chunk.length = 64) :
    let escape := findEscapeMaskWithCarry (masks.backslash chunk) (flag st.esc)
    let realQuote := masks.quote chunk &&& ~~~escape.1
    escape.2 = flag (st.run chunk).esc ∧
      (masks.insideString realQuote (flag st.inStr)).2 = flag (st.run chunk).inStr := by
  intro escape realQuote
  have whole : chunk.take 64 = chunk := List.take_of_length_le (by omega)
  constructor
  · rw [findEscapeMaskWithCarry_carry,
      oddRun_backslash sound chunk st full (Nat.le_refl 64), whole]
  · rw [sound.state, parity_realQuote sound chunk st full (Nat.le_refl 64), whole]

end Chunk

/-! ## The loop -/

theorem memchr2_miss {a b : UInt8} {haystack : Bytes} (miss : memchr2 a b haystack = none) :
    ∀ c ∈ haystack, c ≠ a ∧ c ≠ b := by
  intro c member
  have := List.findIdx?_eq_none_iff.1 miss c member
  simpa using this

theorem memchr2_below {a b : UInt8} {haystack : Bytes} {rel : Nat}
    (hit : memchr2 a b haystack = some rel) :
    rel < haystack.length ∧ ∀ c ∈ haystack.take rel, c ≠ a ∧ c ≠ b := by
  obtain ⟨inside, -, below⟩ := List.findIdx?_eq_some_iff_getElem.1 hit
  refine ⟨inside, fun c member => ?_⟩
  obtain ⟨k, small, rfl⟩ := List.mem_iff_getElem.1 member
  rw [List.length_take] at small
  rw [List.getElem_take]
  simpa using below k (by omega)

/-- The jump skips whole chunks without quotation marks and backslashes. -/
theorem jump_spec (buf : Bytes) {i : Nat} (inside : i ≤ buf.length)
    (aligned : i % 64 = 0) :
    jump buf i % 64 = 0 ∧ i + jump buf i ≤ buf.length ∧
      ∀ b ∈ (buf.drop i).take (jump buf i), b ≠ 0x22 ∧ b ≠ 0x5C := by
  unfold jump
  split
  · simp only
    split
    · rename_i rel hit
      obtain ⟨within, below⟩ := memchr2_below hit
      simp only [List.length_take, List.length_drop] at within
      refine ⟨by omega, by omega, fun b member => below b ?_⟩
      rw [List.take_take, show min rel _ = rel by omega]
      have prefix_ := List.take_subset_take_left (buf.drop i)
        (show rel - rel % 64 ≤ rel by omega)
      exact prefix_ member
    · rename_i miss
      exact ⟨by omega, by omega, memchr2_miss miss⟩
  · simp [inside]

/-- Where the chunk loop stops. -/
def blockEnd (buf : Bytes) : Nat := buf.length - buf.length % 64

theorem drop_take_drop (buf : Bytes) {i n stop : Nat} (low : i + n ≤ stop) :
    (buf.drop i).take (stop - i) =
      (buf.drop i).take n ++ (buf.drop (i + n)).take (stop - (i + n)) := by
  rw [show stop - i = n + (stop - (i + n)) by omega, List.take_add, List.drop_drop]

/-- The chunk loop does what the automaton does up to the last full chunk. -/
theorem chunkLoop_eq {masks : ChunkMasks} (sound : masks.Sound) (buf : Bytes) (i : Nat)
    (st : Lanes) (inside : i ≤ buf.length)
    (aligned : i % 64 = 0) :
    chunkLoop masks buf i (flag st.esc) (flag st.inStr) =
      ⟨st.out i ((buf.drop i).take (blockEnd buf - i)), blockEnd buf,
        flag (st.run ((buf.drop i).take (blockEnd buf - i))).esc,
        flag (st.run ((buf.drop i).take (blockEnd buf - i))).inStr⟩ := by
  induction size : buf.length - i using Nat.strongRecOn generalizing i st with
  | ind size ih =>
    subst size
    rw [chunkLoop]
    by_cases more : i + 64 ≤ buf.length
    · rw [if_pos more]
      have full : ((buf.drop i).take 64).length = 64 := by
        simp only [List.length_take, List.length_drop]
        omega
      by_cases skip : flag st.inStr ≠ 0 ∧ masks.interesting ((buf.drop i).take 64) = false
      · simp only
        rw [if_pos skip]
        obtain ⟨inStr, dull⟩ := skip
        rw [flag_ne_zero] at inStr
        obtain ⟨whole, within, calmJump⟩ := jump_spec buf more (by omega)
        have calm := sound.interesting _ dull full
        have stop : i + (64 + jump buf (i + 64)) ≤ blockEnd buf := by
          unfold blockEnd
          omega
        have rest := ih (buf.length - (i + 64 + jump buf (i + 64))) (by omega)
          (i + 64 + jump buf (i + 64)) ⟨false, true⟩ (by omega) (by omega) rfl
        have cut := drop_take_drop buf stop
        have skipped : ∀ b ∈ (buf.drop i).take (64 + jump buf (i + 64)),
            b ≠ 0x22 ∧ b ≠ 0x5C := by
          intro b member
          rw [List.take_add, List.drop_drop] at member
          rcases List.mem_append.1 member with first | later
          · exact calm b first
          · exact calmJump b later
        obtain ⟨nothing, state⟩ := Lanes.calm inStr skipped i
        have behind := state (by
          rw [← List.length_pos_iff, List.length_take, List.length_drop]
          omega)
        have length : ((buf.drop i).take (64 + jump buf (i + 64))).length =
            64 + jump buf (i + 64) := by
          simp only [List.length_take, List.length_drop]
          omega
        rw [cut, Lanes.out_append, Lanes.run_append, nothing, behind, length, inStr,
          List.nil_append, ← Nat.add_assoc]
        exact rest
      · simp only
        rw [if_neg skip]
        obtain ⟨carry, state⟩ := state_chunk sound ((buf.drop i).take 64) st full
        have emitted := emitBits_chunk sound ((buf.drop i).take 64) st full i
        have rest := ih (buf.length - (i + 64)) (by omega) (i + 64)
          (st.run ((buf.drop i).take 64)) (by omega) (by omega) rfl
        have cut := drop_take_drop buf (show i + 64 ≤ blockEnd buf by
          unfold blockEnd
          omega)
        simp only at emitted carry state
        rw [emitted, carry, state, rest, cut, Lanes.out_append, Lanes.run_append, full]
    · rw [if_neg more]
      have stop : i = blockEnd buf := by
        unfold blockEnd
        omega
      rw [← stop, Nat.sub_self, List.take_zero]
      rfl

/-! ## The loop and its tail, byte by byte -/

/-- The pushes of a vector scanner from byte `i` on, with `k` bytes to go to the
end of the last full chunk. -/
def laneScan (len : Nat) (st : Lanes) : (i k : Nat) → Bytes → ScanOut
  | _, _, [] => ⟨[], if st.inStr then .error (.err len) else .ok ()⟩
  | i, k + 1, b :: rest =>
      let scan := laneScan len (st.step b) (i + 1) k rest
      if st.emits b then scan.push i else scan
  | i, 0, b :: rest =>
      if st.inStr && st.esc then scanEmitResumeFrom len rest (i + 1) true
      else scanEmitResumeFrom len (b :: rest) i st.inStr

/-- The check of the brackets behind a scan that only emits. -/
def ScanOut.checked (buf : Bytes) (scan : ScanOut) : ScanOut :=
  match scan.result with
  | .error fault => ⟨scan.out, .error fault⟩
  | .ok () => ⟨scan.out, validateBrackets buf scan.out⟩

theorem laneScan_zero (len : Nat) (st : Lanes) (i : Nat) (text : Bytes) :
    laneScan len st i 0 text =
      if text.isEmpty then ⟨[], if st.inStr then .error (.err len) else .ok ()⟩
      else scanEmitResumeFrom len (text.drop (if st.inStr && st.esc then 1 else 0))
        (if st.inStr && st.esc then i + 1 else i) st.inStr := by
  cases text with
  | nil => rfl
  | cons b text =>
      rw [laneScan]
      cases st.inStr <;> cases st.esc <;> rfl

theorem laneScan_append (len : Nat) (st : Lanes) (i : Nat) (region rest : Bytes) :
    laneScan len st i region.length (region ++ rest) =
      { laneScan len (st.run region) (i + region.length) 0 rest with
        out := st.out i region ++
          (laneScan len (st.run region) (i + region.length) 0 rest).out } := by
  induction region generalizing st i with
  | nil => rfl
  | cons b region ih =>
      rw [List.cons_append, List.length_cons, laneScan, ih, Lanes.out,
        show i + (region.length + 1) = i + 1 + region.length by omega]
      cases st.emits b <;> rfl

/-- A vector scanner pushes what the automaton pushes and then checks the
brackets. -/
theorem scanChunked_eq {masks : ChunkMasks} (sound : masks.Sound) (buf : Bytes) :
    scanChunked masks buf =
      (laneScan buf.length ⟨false, false⟩ 0 (blockEnd buf) buf).checked buf := by
  have loop := chunkLoop_eq sound buf 0 ⟨false, false⟩ (Nat.zero_le _) rfl
  have within : blockEnd buf ≤ buf.length := Nat.sub_le ..
  have length : (buf.take (blockEnd buf)).length = blockEnd buf := by
    rw [List.length_take]
    omega
  have lanes := laneScan_append buf.length ⟨false, false⟩ 0 (buf.take (blockEnd buf))
    (buf.drop (blockEnd buf))
  rw [List.take_append_drop, length, Nat.zero_add, laneScan_zero] at lanes
  rw [lanes, scanChunked]
  simp only [List.drop_zero, Nat.sub_zero] at loop
  rw [show (0 : BitVec 64) = flag false from rfl, loop]
  generalize hst : (⟨false, false⟩ : Lanes).run (buf.take (blockEnd buf)) = st
  simp only
  by_cases tail : blockEnd buf < buf.length
  · have some_ : ¬ (buf.drop (blockEnd buf)).isEmpty = true := by
      simp only [List.isEmpty_iff, List.drop_eq_nil_iff]
      omega
    rw [if_pos tail, if_neg some_]
    have start : (if flag st.inStr ≠ flag false ∧ flag st.esc ≠ flag false then
        blockEnd buf + 1 else blockEnd buf) =
        blockEnd buf + if st.inStr && st.esc then 1 else 0 := by
      cases st.inStr <;> cases st.esc <;> rfl
    have decided : decide (flag st.inStr ≠ flag false) = st.inStr := by
      cases st.inStr <;> rfl
    have resumed : (if (st.inStr && st.esc) = true then blockEnd buf + 1
        else blockEnd buf) = blockEnd buf + if st.inStr && st.esc then 1 else 0 := by
      split <;> rfl
    rw [start, decided, resumed, scanEmitResume, ← List.drop_drop]
    cases result : (scanEmitResumeFrom buf.length ((buf.drop (blockEnd buf)).drop
      (if st.inStr && st.esc then 1 else 0))
      (blockEnd buf + if st.inStr && st.esc then 1 else 0) st.inStr).result <;>
      simp [ScanOut.checked]
  · have none : (buf.drop (blockEnd buf)).isEmpty = true := by
      simp only [List.isEmpty_iff, List.drop_eq_nil_iff]
      omega
    rw [if_neg tail, if_pos none]
    cases st.inStr <;> simp [ScanOut.checked, flag]

end QJson.Scan

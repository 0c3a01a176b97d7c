import QJson.Scan.Lockstep

/-!
# Where the scanners agree

The reading of a text follows its strings and its open brackets.  The scalar
scanner stops at the first closing bracket that does not match; the vector
scanners look at brackets only once they have seen the text end outside strings.
Without stray quotes the scanners therefore differ exactly on texts that have
such a closing bracket and end inside a string.
-/

namespace QJson.Scan

open Rfc8259 Bits

/-- The vector scanners. -/
inductive VectorPath where
  | avx2
  | neon
  deriving DecidableEq, Repr

/-- The function behind a vector scanner. -/
def VectorPath.scan : VectorPath → Bytes → ScanOut
  | .avx2 => scanAvx2
  | .neon => scanNeon

theorem VectorPath.scan_eq (path : VectorPath) (buf : Bytes) :
    path.scan buf = (laneScan buf.length ⟨false, false⟩ 0 (blockEnd buf) buf).checked buf := by
  cases path with
  | avx2 => exact scan_empty_or_chunked avx2Masks_sound buf
  | neon => exact scan_empty_or_chunked neonMasks_sound buf

/-! ## Readings -/

/-- What is known of a text read from the left: the state of its strings, and the
brackets open outside them, nothing once a closing bracket did not match. -/
structure Reading where
  esc : Bool
  inStr : Bool
  opened : Option (List UInt8)
  deriving DecidableEq

namespace Reading

/-- The brackets open behind a byte outside strings. -/
def brackets (opened : Option (List UInt8)) (b : UInt8) : Option (List UInt8) :=
  opened.bind fun stack =>
    if b = 0x7B ∨ b = 0x5B then some (b :: stack)
    else if b = 0x7D then if stack.head? = some 0x7B then some stack.tail else none
    else if b = 0x5D then if stack.head? = some 0x5B then some stack.tail else none
    else some stack

def step (r : Reading) (b : UInt8) : Reading :=
  if r.inStr then
    if r.esc then { r with esc := false }
    else if b = 0x5C then { r with esc := true }
    else if b = 0x22 then { r with inStr := false }
    else r
  else if b = 0x22 then { r with inStr := true }
  else { r with opened := brackets r.opened b }

def run (r : Reading) (text : Bytes) : Reading := text.foldl step r

theorem run_append (r : Reading) (left right : Bytes) :
    r.run (left ++ right) = (r.run left).run right := List.foldl_append ..

theorem run_cons (r : Reading) (b : UInt8) (text : Bytes) :
    r.run (b :: text) = (r.step b).run text := rfl

theorem step_plain {opened : Option (List UInt8)} {b : UInt8} (noMark : isMark b = false) :
    step ⟨false, false, opened⟩ b = ⟨false, false, opened⟩ := by
  simp only [isMark, isStructural, Bool.or_eq_false_iff, beq_eq_false_iff_ne] at noMark
  simp only [step, brackets, noMark, if_false, or_self, Bool.false_eq_true]
  cases opened <;> rfl

theorem run_plain {opened : Option (List UInt8)} {gap : Bytes} (plain : IsPlain gap) :
    run ⟨false, false, opened⟩ gap = ⟨false, false, opened⟩ := by
  induction gap with
  | nil => rfl
  | cons b gap ih =>
      obtain ⟨noMark, tail⟩ := (isPlain_cons b gap).1 plain
      rw [run_cons, step_plain noMark, ih tail]

theorem run_inert {opened : Option (List UInt8)} {body : Bytes} (inert : IsInert body) :
    run ⟨false, true, opened⟩ body = ⟨false, true, opened⟩ := by
  induction inert with
  | nil => rfl
  | escape _ ih =>
      rw [run_cons, run_cons]
      exact ih
  | plain notSlash notQuote _ ih =>
      rw [run_cons]
      simp only [step, notSlash, notQuote, if_true, if_false, Bool.false_eq_true]
      exact ih

theorem run_unclosed {opened : Option (List UInt8)} {body : Bytes}
    (unclosed : IsUnclosed body) :
    (run ⟨false, true, opened⟩ body).inStr = true ∧
      (run ⟨false, true, opened⟩ body).opened = opened := by
  induction unclosed with
  | nil => exact ⟨rfl, rfl⟩
  | dangling => exact ⟨rfl, rfl⟩
  | escape _ ih =>
      rw [run_cons, run_cons]
      exact ih
  | plain notSlash notQuote _ ih =>
      rw [run_cons]
      simp only [step, notSlash, notQuote, if_true, if_false, Bool.false_eq_true]
      exact ih

/-- Brackets have no say in where strings end. -/
theorem run_inStr (esc inStr : Bool) (opened opened' : Option (List UInt8))
    (text : Bytes) :
    (run ⟨esc, inStr, opened⟩ text).inStr = (run ⟨esc, inStr, opened'⟩ text).inStr := by
  induction text generalizing esc inStr opened opened' with
  | nil => rfl
  | cons b text ih =>
      rw [run_cons, run_cons]
      unfold step
      split
      · split
        · exact ih ..
        · split
          · exact ih ..
          · split <;> exact ih ..
      · split <;> exact ih ..

/-- A mismatch stays. -/
theorem run_none (r : Reading) (broken : r.opened = none) (text : Bytes) :
    (r.run text).opened = none := by
  induction text generalizing r with
  | nil => exact broken
  | cons b text ih =>
      rw [run_cons]
      refine ih _ ?_
      unfold step
      split
      · split
        · exact broken
        · split
          · exact broken
          · split <;> exact broken
      · split
        · exact broken
        · rw [broken]
          rfl

end Reading

/-- The reading of a whole text. -/
def reading (text : Bytes) : Reading := Reading.run ⟨false, false, some []⟩ text

/-- A text with a closing bracket that does not match, and that ends inside a
string. -/
def IsTorn (text : Bytes) : Prop :=
  (reading text).opened = none ∧ (reading text).inStr = true

instance (text : Bytes) : Decidable (IsTorn text) := by
  unfold IsTorn
  infer_instance

/-- A text with a quotation mark outside strings behind an odd run of backslashes,
in the full chunks of 64 bytes. -/
def HasStrayQuote (text : Bytes) : Prop :=
  Lanes.stray ⟨false, false⟩ (text.take (blockEnd text)) = true

instance (text : Bytes) : Decidable (HasStrayQuote text) := by
  unfold HasStrayQuote
  infer_instance

/-! ## The tail scanner along an outline -/

section Resume

variable {len i : Nat} {gap body rest : Bytes}

theorem resume_plain (plain : IsPlain gap) :
    scanEmitResumeFrom len (gap ++ rest) i false =
      scanEmitResumeFrom len rest (i + gap.length) false := by
  induction gap generalizing i with
  | nil => simp
  | cons b gap ih =>
      obtain ⟨noMark, tail⟩ := (isPlain_cons b gap).1 plain
      rw [List.cons_append, resume_outside, noMark, if_neg (by simp), ih tail,
        List.length_cons, Nat.add_right_comm, Nat.add_assoc]

theorem resume_structural {b : UInt8} (structural : isStructural b = true) :
    scanEmitResumeFrom len (b :: rest) i false =
      (scanEmitResumeFrom len rest (i + 1) false).push i := by
  have other : (b == 0x22) = false := by simpa using isStructural_ne_quote structural
  rw [resume_outside, isMark_of_isStructural structural, if_pos rfl, other]

theorem resume_quote :
    scanEmitResumeFrom len (0x22 :: rest) i false =
      (scanEmitResumeFrom len rest (i + 1) true).push i := by
  rw [resume_outside]
  rfl

theorem resume_inert (inert : IsInert body) :
    scanEmitResumeFrom len (body ++ rest) i true =
      scanEmitResumeFrom len rest (i + body.length) true := by
  induction inert generalizing i with
  | nil => simp
  | escape _ ih =>
      rw [List.cons_append, List.cons_append, scanEmitResumeFrom, if_pos rfl, ih]
      simp only [List.length_cons]
      congr 1
      omega
  | plain notSlash notQuote _ ih =>
      rw [List.cons_append, resume_inside _ notSlash, if_neg notQuote, ih]
      simp only [List.length_cons]
      congr 1
      omega

theorem resume_string (inert : IsInert body) :
    scanEmitResumeFrom len (0x22 :: (body ++ 0x22 :: rest)) i false =
      ((scanEmitResumeFrom len rest (i + 1 + body.length + 1) false).push
        (i + 1 + body.length)).push i := by
  rw [resume_quote, resume_inert inert, resume_inside _ (by decide)]
  simp

theorem resume_unclosed (unclosed : IsUnclosed body) :
    scanEmitResumeFrom len body i true = ⟨[], .error (.err len)⟩ := by
  induction unclosed generalizing i with
  | nil => rfl
  | dangling => rfl
  | escape _ ih => rw [scanEmitResumeFrom, if_pos rfl, ih]
  | plain notSlash notQuote _ ih => rw [resume_inside _ notSlash, if_neg notQuote, ih]

end Resume

/-! ## The fused scanner against the two passes -/

section Fused

variable {buf front text : Bytes} {stack : List UInt8}

/-- What the scalar scanner and the two passes make of a reading. -/
structure Fused (buf : Bytes) (scan emit : ScanOut) (brackets : Rust Nat Unit)
    (final : Reading) : Prop where
  emitted : emit.result = if final.inStr then .error (.err buf.length) else .ok ()
  mismatch : final.opened = none →
    ∃ pos < buf.length, brackets = .error (.err pos) ∧ scan.result = .error (.err pos)
  matched : ∀ stack, final.opened = some stack →
    brackets = (if stack.isEmpty then .ok () else .error (.err buf.length)) ∧
      scan = ⟨emit.out, if final.inStr then .error (.err buf.length) else brackets⟩

/-- A position that both scans push and the bracket pass goes over. -/
theorem Fused.push {scan emit : ScanOut} {brackets : Rust Nat Unit} {final : Reading}
    (fused : Fused buf scan emit brackets final) (i : Nat) :
    Fused buf (scan.push i) (emit.push i) brackets final where
  emitted := fused.emitted
  mismatch := fused.mismatch
  matched stack opened := by
    obtain ⟨checked, scanned⟩ := fused.matched stack opened
    exact ⟨checked, by rw [scanned]; rfl⟩

theorem brackets_step {indices : List Nat} {i : Nat} {b : UInt8} (byte : buf[i]? = some b)
    (structural : isStructural b = true) :
    bracketsFrom buf (i :: indices) false stack =
      match Reading.brackets (some stack) b with
      | some stack => bracketsFrom buf indices false stack
      | none => .error (.err i) := by
  have notQuote := isStructural_ne_quote structural
  rw [bracketsFrom, atIdx_of_getElem? byte, ok_bind, if_neg notQuote]
  simp only [Bool.false_eq_true, if_false, Reading.brackets, Option.bind_some]
  split
  · rfl
  · split
    · split <;> rfl
    · split
      · split <;> rfl
      · rfl

theorem scan_step {len i : Nat} {b : UInt8} {rest : Bytes}
    (structural : isStructural b = true) :
    scanAndValidateFrom len (b :: rest) i false stack =
      match Reading.brackets (some stack) b with
      | some stack => (scanAndValidateFrom len rest (i + 1) false stack).push i
      | none => ⟨[u32 i], .error (.err i)⟩ := by
  have notQuote := isStructural_ne_quote structural
  rw [scanFrom_outside, if_neg notQuote]
  simp only [Reading.brackets, Option.bind_some]
  simp only [isStructural, Bool.or_eq_true, beq_iff_eq] at structural
  rcases structural with ((((rfl | rfl) | rfl) | rfl) | rfl) | rfl
  · rfl
  · simp only [show ¬ ((0x7D : UInt8) = 0x7B ∨ (0x7D : UInt8) = 0x5B) by decide, if_false,
      if_true]
    split <;> rfl
  · rfl
  · simp only [show ¬ ((0x5D : UInt8) = 0x7B ∨ (0x5D : UInt8) = 0x5B) by decide,
      show ¬ ((0x5D : UInt8) = 0x7D) by decide, if_false, if_true]
    split <;> rfl
  · rfl
  · rfl

/-- The scalar scanner does in one pass what emitting and checking the brackets do
in two, but for texts with a mismatch. -/
theorem fused (whole : buf = front ++ text) (small : buf.length < 2 ^ 32) :
    Fused buf (scanAndValidateFrom buf.length text front.length false stack)
      (scanEmitResumeFrom buf.length text front.length false)
      (bracketsFrom buf (scanEmitResumeFrom buf.length text front.length false).out false
        stack)
      (Reading.run ⟨false, false, some stack⟩ text) := by
  induction text using outline_induction generalizing front stack with
  | plain gap plain =>
      have scan := @scanFrom_plain buf.length front.length stack _ [] plain
      have emit := @resume_plain buf.length front.length _ [] plain
      rw [List.append_nil] at scan emit
      rw [scan, emit, Reading.run_plain plain]
      refine ⟨rfl, fun none => by simp at none, fun open_ same => ?_⟩
      obtain rfl := Option.some.inj same
      refine ⟨rfl, ?_⟩
      unfold scanAndValidateFrom
      simp only [Bool.false_eq_true, if_false]
      split <;> simp_all [scanEmitResumeFrom, bracketsFrom]
  | mark gap b rest plain structural ih =>
      have i_lt : front.length + gap.length < buf.length := by
        rw [whole]
        simp
      have byte : buf[front.length + gap.length]? = some b := by
        rw [whole, ← List.append_assoc]
        exact getElem?_at (by simp)
      rw [scanFrom_plain plain, resume_plain plain, resume_structural structural,
        Reading.run_append, Reading.run_plain plain, Reading.run_cons]
      have next : Reading.step ⟨false, false, some stack⟩ b =
          ⟨false, false, Reading.brackets (some stack) b⟩ := by
        simp [Reading.step, isStructural_ne_quote structural]
      rw [next, scan_step structural, push_out,
        u32_of_lt (by omega : front.length + gap.length < 2 ^ 32),
        brackets_step byte structural]
      have below := @ih (front ++ gap ++ [b])
      simp only [List.length_append, List.length_cons, List.length_nil, Nat.zero_add]
        at below
      cases matched : Reading.brackets (some stack) b with
      | some stack' =>
          exact (@below stack' (by rw [whole]; simp)).push _
      | none =>
          have final := Reading.run_none ⟨false, false, none⟩ rfl rest
          have emitted := (@below [] (by rw [whole]; simp)).emitted
          have inStr := Reading.run_inStr false false none (some []) rest
          refine ⟨?_, fun _ => ⟨_, i_lt, rfl, rfl⟩, fun stack some_ => ?_⟩
          · rw [inStr]
            exact emitted
          · rw [final] at some_
            cases some_
  | string gap body rest plain inert ih =>
      have lengths := congrArg List.length whole
      simp only [List.length_append, List.length_cons] at lengths
      have opening : buf[front.length + gap.length]? = some 0x22 := by
        rw [whole, ← List.append_assoc]
        exact getElem?_at (by simp)
      have closing : buf[front.length + gap.length + 1 + body.length]? = some 0x22 := by
        have split : buf = (front ++ gap ++ 0x22 :: body) ++ 0x22 :: rest := by
          rw [whole]
          simp
        rw [split]
        exact getElem?_at (by simp; omega)
      have below := @ih (front ++ gap ++ 0x22 :: (body ++ [0x22])) stack (by
        rw [whole]
        simp)
      have start : (front ++ gap ++ 0x22 :: (body ++ [0x22])).length =
          front.length + gap.length + 1 + body.length + 1 := by
        simp only [List.length_append, List.length_cons, List.length_nil]
        omega
      rw [start] at below
      have read : Reading.run ⟨false, false, some stack⟩
          (gap ++ 0x22 :: (body ++ 0x22 :: rest)) =
          Reading.run ⟨false, false, some stack⟩ rest := by
        rw [Reading.run_append, Reading.run_plain plain, Reading.run_cons,
          Reading.run_append]
        have open_ : Reading.step ⟨false, false, some stack⟩ 0x22 =
          ⟨false, true, some stack⟩ := rfl
        rw [open_, Reading.run_inert inert]
        rfl
      rw [scanFrom_plain plain, resume_plain plain, scanFrom_string inert,
        resume_string inert, read, push_out, push_out,
        u32_of_lt (by omega : front.length + gap.length < 2 ^ 32),
        u32_of_lt (by omega : front.length + gap.length + 1 + body.length < 2 ^ 32)]
      have check : bracketsFrom buf ((front.length + gap.length) ::
          (front.length + gap.length + 1 + body.length) ::
            (scanEmitResumeFrom buf.length rest
              (front.length + gap.length + 1 + body.length + 1) false).out) false stack =
          bracketsFrom buf (scanEmitResumeFrom buf.length rest
            (front.length + gap.length + 1 + body.length + 1) false).out false stack := by
        rw [bracketsFrom, atIdx_of_getElem? opening, ok_bind, if_pos rfl, bracketsFrom,
          atIdx_of_getElem? closing, ok_bind, if_pos rfl]
        rfl
      rw [check]
      exact (below.push _).push _
  | unclosed gap body plain unclosed =>
      have lengths := congrArg List.length whole
      simp only [List.length_append, List.length_cons] at lengths
      have opening : buf[front.length + gap.length]? = some 0x22 := by
        rw [whole, ← List.append_assoc]
        exact getElem?_at (by simp)
      have read := @Reading.run_unclosed (some stack) _ unclosed
      rw [scanFrom_plain plain, resume_plain plain, scanFrom_open, resume_quote,
        scanFrom_unclosed unclosed, resume_unclosed unclosed, Reading.run_append,
        Reading.run_plain plain, Reading.run_cons]
      have open_ : Reading.step ⟨false, false, some stack⟩ 0x22 =
        ⟨false, true, some stack⟩ := rfl
      have check : bracketsFrom buf [front.length + gap.length] false stack =
          if stack.isEmpty then .ok () else .error (.err buf.length) := by
        rw [bracketsFrom, atIdx_of_getElem? opening, ok_bind, if_pos rfl]
        rfl
      rw [open_, push_out, u32_of_lt (by omega : front.length + gap.length < 2 ^ 32), check]
      refine ⟨by rw [read.1]; rfl, fun none => ?_, fun stack' same => ?_⟩
      · rw [read.2] at none
        cases none
      · rw [read.2] at same
        obtain rfl := Option.some.inj same
        exact ⟨rfl, by rw [read.1]; rfl⟩

end Fused

/-! ## The scanners compared -/

/-- Two scans with the same result and, when they succeed, the same positions. -/
def SameScan (left right : ScanOut) : Prop :=
  left.result = right.result ∧ (left.result = .ok () → left.out = right.out)

instance (left right : ScanOut) : Decidable (SameScan left right) := by
  unfold SameScan
  infer_instance

/-- Emitting from the start, without stray quotes, is what a vector scanner does
before it checks the brackets. -/
theorem VectorPath.scan_of_not_stray (path : VectorPath) {buf : Bytes}
    (notStray : ¬ HasStrayQuote buf) :
    path.scan buf = (scanEmitResumeFrom buf.length buf 0 false).checked buf := by
  rw [path.scan_eq buf, laneScan_of_not_stray (Bool.eq_false_iff.2 notStray),
    laneScan_outside]

theorem fused_whole {buf : Bytes} (small : buf.length < 2 ^ 32) :
    Fused buf (scanAndValidate buf) (scanEmitResumeFrom buf.length buf 0 false)
      (validateBrackets buf (scanEmitResumeFrom buf.length buf 0 false).out)
      (reading buf) :=
  @fused _ [] _ _ rfl small

/-- A successful scalar scan pushes what the tail scanner pushes. -/
theorem ok_of_scalar_ok {buf : Bytes} (small : buf.length < 2 ^ 32)
    (ok : (scanAndValidate buf).result = .ok ()) :
    (scanEmitResumeFrom buf.length buf 0 false).result = .ok () ∧
      validateBrackets buf (scanEmitResumeFrom buf.length buf 0 false).out = .ok () ∧
      (scanAndValidate buf).out = (scanEmitResumeFrom buf.length buf 0 false).out := by
  have fused := fused_whole small
  cases opened : (reading buf).opened with
  | none =>
      obtain ⟨pos, -, -, failed⟩ := fused.mismatch opened
      rw [ok] at failed
      cases failed
  | some stack =>
      obtain ⟨-, scanned⟩ := fused.matched stack opened
      rw [scanned] at ok ⊢
      have emitted := fused.emitted
      cases inStr : (reading buf).inStr with
      | true => rw [inStr] at ok; cases ok
      | false =>
          rw [inStr] at ok emitted
          exact ⟨emitted, ok, rfl⟩

/-- Without stray quotes the vector scanners agree with the scalar one exactly on
texts that are not torn. -/
theorem sameScan_iff_not_torn (path : VectorPath) {buf : Bytes}
    (small : buf.length < 2 ^ 32) (notStray : ¬ HasStrayQuote buf) :
    SameScan (path.scan buf) (scanAndValidate buf) ↔ ¬ IsTorn buf := by
  have fused := fused_whole small
  have emitted := fused.emitted
  rw [path.scan_of_not_stray notStray]
  cases opened : (reading buf).opened with
  | none =>
      obtain ⟨pos, inside, checked, failed⟩ := fused.mismatch opened
      cases inStr : (reading buf).inStr with
      | true =>
          rw [inStr, if_pos rfl] at emitted
          have torn : IsTorn buf := ⟨opened, inStr⟩
          refine iff_of_false (fun same => ?_) fun notTorn => notTorn torn
          have results := same.1
          rw [ScanOut.checked, emitted, failed] at results
          have : buf.length = pos := by simpa using results
          omega
      | false =>
          rw [inStr, if_neg (by simp)] at emitted
          refine iff_of_true ⟨?_, ?_⟩ fun torn => by rw [torn.2] at inStr; cases inStr
          · rw [ScanOut.checked, emitted, failed]
            exact checked
          · intro ok
            rw [ScanOut.checked, emitted] at ok
            rw [checked] at ok
            cases ok
  | some stack =>
      obtain ⟨-, scanned⟩ := fused.matched stack opened
      refine iff_of_true ?_ fun torn => by rw [torn.1] at opened; cases opened
      have same : (scanEmitResumeFrom buf.length buf 0 false).checked buf =
          scanAndValidate buf := by
        rw [scanned, ScanOut.checked]
        cases inStr : (reading buf).inStr <;> rw [inStr] at emitted <;> rw [emitted] <;> rfl
      rw [same]
      exact ⟨rfl, fun _ => rfl⟩

/-- The vector scanners agree with the scalar one on every text that has no stray
quote and is not torn.  Without stray quotes a torn text is where they differ; with
one they do not both succeed with the same positions. -/
theorem sameScan_of_not_stray_of_not_torn (path : VectorPath) (buf : Bytes)
    (small : buf.length < 2 ^ 32 - 1) :
    (¬ HasStrayQuote buf →
      (SameScan (path.scan buf) (scanAndValidate buf) ↔ ¬ IsTorn buf)) ∧
    (HasStrayQuote buf → SameScan (path.scan buf) (scanAndValidate buf) →
      (scanAndValidate buf).result ≠ .ok ()) := by
  have width : buf.length < 2 ^ 32 := by omega
  refine ⟨sameScan_iff_not_torn path width, fun stray same ok => ?_⟩
  obtain ⟨emitted, -, positions⟩ := ok_of_scalar_ok width ok
  have apart := @not_bothSucceed_stray buf.length 0 _ _ _ (by omega) stray
  rw [laneScan_outside] at apart
  have vectorOk : (path.scan buf).result = .ok () := same.1.trans ok
  have outs := same.2 vectorOk
  rw [path.scan_eq buf] at vectorOk outs
  refine apart ⟨emitted, ?_, ?_⟩
  · unfold ScanOut.checked at vectorOk
    split at vectorOk
    · cases vectorOk
    · assumption
  · rw [← positions, ← outs]
    unfold ScanOut.checked
    split <;> rfl

/-- `{"a":"x…x"}` with 70 letters: the first chunk ends inside the string. -/
def acrossText : Bytes :=
  [0x7B, 0x22, 0x61, 0x22, 0x3A, 0x22] ++ (List.replicate 70 0x78 ++ [0x22, 0x7D])

theorem sameScan_of_not_torn_across :
    SameScan (VectorPath.avx2.scan acrossText) (scanAndValidate acrossText) :=
  ((sameScan_of_not_stray_of_not_torn .avx2 acrossText (by decide)).1
    (by decide +kernel)).2 (by decide +kernel)

/-- A closing bracket without an opening one, and then an open string. -/
def tornText : Bytes := [0x7D, 0x22]

/-- An escaped quotation mark outside strings, 61 spaces, a quotation mark. -/
def strayText : Bytes := 0x5C :: 0x22 :: (List.replicate 61 0x20 ++ [0x22])

/-- On both texts both vector scanners differ from the scalar one, which fails at
the bracket of the first and accepts the second. -/
theorem not_sameScan_torn_stray :
    ¬ (∀ (path : VectorPath) (buf : Bytes), buf.length < 2 ^ 32 - 1 →
      SameScan (path.scan buf) (scanAndValidate buf)) ∧
    (VectorPath.avx2.scan tornText).result = .error (.err 2) ∧
    (VectorPath.neon.scan tornText).result = .error (.err 2) ∧
    (scanAndValidate tornText).result = .error (.err 0) ∧
    (VectorPath.avx2.scan strayText).result = .error (.err 64) ∧
    (VectorPath.neon.scan strayText).result = .error (.err 64) ∧
    scanAndValidate strayText = ⟨[1, 63], .ok ()⟩ := by
  refine ⟨fun same => ?_, by decide +kernel, by decide +kernel, by decide +kernel,
    by decide +kernel, by decide +kernel, by decide +kernel⟩
  exact absurd (same .avx2 tornText (by decide)) (by decide +kernel)

end QJson.Scan

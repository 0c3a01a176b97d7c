import QJson.Rfc8259.Outline
import QJson.Source.Error

/-!
# The scalar structural scanner

`src/scan/scalar.rs`.  The byte loop `while i < buf.len()` is a recursion on the
bytes from `i` on; the pushes to `out` are collected in order, so that a failed
scan still shows what it had emitted.
-/

namespace QJson.Scan

open Rfc8259

/-- What a scan leaves behind: the positions pushed to `out`, and
`Result<(), usize>`. -/
structure ScanOut where
  out : List Nat
  result : Rust Nat Unit
  deriving DecidableEq

/-- A scan that pushes `i as u32` first. -/
def ScanOut.push (i : Nat) (scan : ScanOut) : ScanOut :=
  { scan with out := u32 i :: scan.out }

/-- The loop of `scan_and_validate` from byte `i` on; `len` is `buf.len()`. -/
def scanAndValidateFrom (len : Nat) :
    Bytes → (i : Nat) → (inStr : Bool) → (stack : List UInt8) → ScanOut
  | [], _, inStr, stack =>
      if inStr then ⟨[], .error (.err len)⟩
      else if stack.isEmpty then ⟨[], .ok ()⟩
      else ⟨[], .error (.err len)⟩
  | b :: rest, i, true, stack =>
      if b = 0x5C then
        -- `i += 2`, which may step over the end of the buffer
        match rest with
        | [] => ⟨[], .error (.err len)⟩
        | _ :: rest => scanAndValidateFrom len rest (i + 2) true stack
      else if b = 0x22 then
        (scanAndValidateFrom len rest (i + 1) false stack).push i
      else
        scanAndValidateFrom len rest (i + 1) true stack
  | b :: rest, i, false, stack =>
      if b = 0x22 then
        (scanAndValidateFrom len rest (i + 1) true stack).push i
      else if b = 0x7B ∨ b = 0x5B then
        (scanAndValidateFrom len rest (i + 1) false (b :: stack)).push i
      else if b = 0x7D then
        if stack.head? = some 0x7B then
          (scanAndValidateFrom len rest (i + 1) false stack.tail).push i
        else ⟨[u32 i], .error (.err i)⟩
      else if b = 0x5D then
        if stack.head? = some 0x5B then
          (scanAndValidateFrom len rest (i + 1) false stack.tail).push i
        else ⟨[u32 i], .error (.err i)⟩
      else if b = 0x3A ∨ b = 0x2C then
        (scanAndValidateFrom len rest (i + 1) false stack).push i
      else
        scanAndValidateFrom len rest (i + 1) false stack

/-- `scan_and_validate`, the body of `ScalarScanner::scan`. -/
def scanAndValidate (buf : Bytes) : ScanOut :=
  scanAndValidateFrom buf.length buf 0 false []

/-- The loop of `scan_emit_resume` from byte `i` on. -/
def scanEmitResumeFrom (len : Nat) :
    Bytes → (i : Nat) → (inStr : Bool) → ScanOut
  | [], _, inStr => ⟨[], if inStr then .error (.err len) else .ok ()⟩
  | b :: rest, i, true =>
      if b = 0x5C then
        match rest with
        | [] => ⟨[], .error (.err len)⟩
        | _ :: rest => scanEmitResumeFrom len rest (i + 2) true
      else if b = 0x22 then
        (scanEmitResumeFrom len rest (i + 1) false).push i
      else
        scanEmitResumeFrom len rest (i + 1) true
  | b :: rest, i, false =>
      if b = 0x22 then
        (scanEmitResumeFrom len rest (i + 1) true).push i
      else if isStructural b then
        (scanEmitResumeFrom len rest (i + 1) false).push i
      else
        scanEmitResumeFrom len rest (i + 1) false

/-- `scan_emit_resume(buf, start, in_str_init, out)`. -/
def scanEmitResume (buf : Bytes) (start : Nat) (inStrInit : Bool) : ScanOut :=
  scanEmitResumeFrom buf.length (buf.drop start) start inStrInit

/-! ## The loops along an outline -/

@[simp] theorem push_out (i : Nat) (scan : ScanOut) :
    (scan.push i).out = u32 i :: scan.out := rfl

@[simp] theorem push_result (i : Nat) (scan : ScanOut) :
    (scan.push i).result = scan.result := rfl

section Outline

variable {len i : Nat} {stack : List UInt8} {gap body rest : Bytes}

theorem scanFrom_outside (b : UInt8) :
    scanAndValidateFrom len (b :: rest) i false stack =
      if b = 0x22 then
        (scanAndValidateFrom len rest (i + 1) true stack).push i
      else if b = 0x7B ∨ b = 0x5B then
        (scanAndValidateFrom len rest (i + 1) false (b :: stack)).push i
      else if b = 0x7D then
        if stack.head? = some 0x7B then
          (scanAndValidateFrom len rest (i + 1) false stack.tail).push i
        else ⟨[u32 i], .error (.err i)⟩
      else if b = 0x5D then
        if stack.head? = some 0x5B then
          (scanAndValidateFrom len rest (i + 1) false stack.tail).push i
        else ⟨[u32 i], .error (.err i)⟩
      else if b = 0x3A ∨ b = 0x2C then
        (scanAndValidateFrom len rest (i + 1) false stack).push i
      else
        scanAndValidateFrom len rest (i + 1) false stack := by
  cases rest <;> simp only [scanAndValidateFrom]

/-- One byte inside a string that is not a backslash. -/
theorem scanFrom_inside {b : UInt8} (notSlash : b ≠ 0x5C) :
    scanAndValidateFrom len (b :: rest) i true stack =
      if b = 0x22 then
        (scanAndValidateFrom len rest (i + 1) false stack).push i
      else scanAndValidateFrom len rest (i + 1) true stack := by
  cases rest <;> simp only [scanAndValidateFrom, notSlash, if_false]

/-- A backslash inside a string steps over the next byte. -/
theorem scanFrom_escape (c : UInt8) :
    scanAndValidateFrom len (0x5C :: c :: rest) i true stack =
      scanAndValidateFrom len rest (i + 2) true stack := by
  simp only [scanAndValidateFrom, if_true]

theorem scanFrom_plain (plain : IsPlain gap) :
    scanAndValidateFrom len (gap ++ rest) i false stack =
      scanAndValidateFrom len rest (i + gap.length) false stack := by
  induction gap generalizing i with
  | nil => simp
  | cons b gap ih =>
      obtain ⟨noMark, tail⟩ := (isPlain_cons b gap).1 plain
      simp only [isMark, isStructural, Bool.or_eq_false_iff, beq_eq_false_iff_ne] at noMark
      rw [List.cons_append, scanFrom_outside]
      simp only [noMark, if_false, or_self]
      rw [ih tail, List.length_cons, Nat.add_right_comm, Nat.add_assoc]

theorem scanFrom_inert (inert : IsInert body) :
    scanAndValidateFrom len (body ++ rest) i true stack =
      scanAndValidateFrom len rest (i + body.length) true stack := by
  induction inert generalizing i with
  | nil => simp
  | escape _ ih =>
      rw [List.cons_append, List.cons_append, scanFrom_escape, ih]
      simp only [List.length_cons]
      congr 1
      omega
  | plain notSlash notQuote _ ih =>
      rw [List.cons_append, scanFrom_inside notSlash, if_neg notQuote, ih]
      simp only [List.length_cons]
      congr 1
      omega

theorem scanFrom_unclosed (unclosed : IsUnclosed body) :
    scanAndValidateFrom len body i true stack = ⟨[], .error (.err len)⟩ := by
  induction unclosed generalizing i with
  | nil => simp [scanAndValidateFrom]
  | dangling => simp [scanAndValidateFrom]
  | escape _ ih => rw [scanFrom_escape, ih]
  | plain notSlash notQuote _ ih =>
      rw [scanFrom_inside notSlash, if_neg notQuote, ih]

/-- Outside strings an opening quotation mark is pushed. -/
theorem scanFrom_open :
    scanAndValidateFrom len (0x22 :: rest) i false stack =
      (scanAndValidateFrom len rest (i + 1) true stack).push i := by
  simp [scanFrom_outside]

/-- A whole string is two pushes. -/
theorem scanFrom_string (inert : IsInert body) :
    scanAndValidateFrom len (0x22 :: (body ++ 0x22 :: rest)) i false stack =
      ((scanAndValidateFrom len rest (i + 1 + body.length + 1) false stack).push
        (i + 1 + body.length)).push i := by
  rw [scanFrom_open, scanFrom_inert inert, scanFrom_inside (by decide)]
  simp

/-- A structural character is pushed; the scan goes on unless it is a closer
that the stack does not match. -/
theorem scanFrom_structural {b : UInt8} (structural : isStructural b = true) :
    (∃ stack', scanAndValidateFrom len (b :: rest) i false stack =
      (scanAndValidateFrom len rest (i + 1) false stack').push i) ∨
    scanAndValidateFrom len (b :: rest) i false stack = ⟨[u32 i], .error (.err i)⟩ := by
  simp only [isStructural, Bool.or_eq_true, beq_iff_eq] at structural
  rcases structural with ((((rfl | rfl) | rfl) | rfl) | rfl) | rfl
  · exact .inl ⟨0x7B :: stack, by simp [scanFrom_outside]⟩
  · by_cases matched : stack.head? = some 0x7B
    · exact .inl ⟨stack.tail, by simp [scanFrom_outside, matched]⟩
    · exact .inr (by simp [scanFrom_outside, matched])
  · exact .inl ⟨0x5B :: stack, by simp [scanFrom_outside]⟩
  · by_cases matched : stack.head? = some 0x5B
    · exact .inl ⟨stack.tail, by simp [scanFrom_outside, matched]⟩
    · exact .inr (by simp [scanFrom_outside, matched])
  · exact .inl ⟨stack, by simp [scanFrom_outside]⟩
  · exact .inl ⟨stack, by simp [scanFrom_outside]⟩

end Outline

/-- A successful scan pushes a structural index of what it read. -/
theorem isIndex_of_scanFrom_ok {len i : Nat} {text : Bytes} {stack : List UInt8}
    {out : List Nat} (small : i + text.length < 2 ^ 32)
    (ok : scanAndValidateFrom len text i false stack = ⟨out, .ok ()⟩) :
    IsIndex text i out := by
  induction text using outline_induction generalizing i stack out with
  | plain gap plain =>
      have scan := @scanFrom_plain len i stack _ [] plain
      rw [List.append_nil, ok] at scan
      have empty := congrArg ScanOut.out scan
      unfold scanAndValidateFrom at empty
      have nilOut : out = [] := by
        split at empty
        · exact empty
        · split at empty <;> exact empty
      exact nilOut ▸ .plain plain
  | mark gap b rest plain structural ih =>
      simp only [List.length_append, List.length_cons] at small
      rw [scanFrom_plain plain] at ok
      rcases @scanFrom_structural len (i + gap.length) stack rest _ structural
        with ⟨stack', scan⟩ | scan
      · rw [scan] at ok
        injection ok with outEq resultEq
        subst outEq
        rw [u32_of_lt (by omega)]
        exact .mark plain structural (ih (by omega) (by rw [← resultEq]))
      · rw [scan] at ok
        injection ok with _ resultEq
        cases resultEq
  | string gap body rest plain inert ih =>
      simp only [List.length_append, List.length_cons] at small
      rw [scanFrom_plain plain, scanFrom_string inert] at ok
      injection ok with outEq resultEq
      subst outEq
      simp only [push_out]
      rw [u32_of_lt (by omega), u32_of_lt (by omega)]
      exact .string plain inert (ih (by omega) (by rw [← resultEq]; rfl))
  | unclosed gap body plain unclosed =>
      rw [scanFrom_plain plain, scanFrom_open, scanFrom_unclosed unclosed] at ok
      injection ok with _ resultEq
      cases resultEq

end QJson.Scan

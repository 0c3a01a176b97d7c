import QJson.Scan.Agree

/-!
# Structural indices from the vector scanners

What a vector scanner pushes for a text that ends outside strings is a structural
index of the text, up to the first stray quote.
-/

namespace QJson.Scan

open Rfc8259

section Outline

variable {len i k : Nat} {esc : Bool} {gap body rest : Bytes}

/-- Backslashes are what escapes. -/
theorem Lanes.mem_of_esc (inStr : Bool) (escapes : (Lanes.run ⟨false, inStr⟩ gap).esc = true) :
    0x5C ∈ gap := by
  by_contra none
  have calm : ∀ text : Bytes, 0x5C ∉ text → ∀ st : Lanes, st.esc = false →
      (st.run text).esc = false := by
    intro text
    induction text with
    | nil => exact fun _ st plain => plain
    | cons b text ih =>
        intro noSlash st plain
        simp only [List.mem_cons, not_or] at noSlash
        have other : (b == 0x5C) = false := by simpa using Ne.symm noSlash.1
        exact ih noSlash.2 (st.step b) (by simp [step, other])
  rw [calm gap none _ rfl] at escapes
  cases escapes

/-- Outside strings the state does not change on a plain byte, but for escapes. -/
theorem Lanes.step_plain {b : UInt8} (noMark : isMark b = false) :
    (Lanes.step ⟨esc, false⟩ b).inStr = false ∧ Lanes.emits ⟨esc, false⟩ b = false := by
  have other : (b == 0x22) = false := by
    simp only [isMark, Bool.or_eq_false_iff] at noMark
    exact noMark.2
  exact ⟨by simp [step, other], by rw [emits_eq]; simpa using noMark⟩

theorem laneScan_plain (plain : IsPlain gap) :
    ∃ esc', laneScan len ⟨esc, false⟩ i k (gap ++ rest) =
        laneScan len ⟨esc', false⟩ (i + gap.length) (k - gap.length) rest ∧
      (esc' = true → k - gap.length ≠ 0 → esc' = (Lanes.run ⟨esc, false⟩ gap).esc) := by
  induction gap generalizing i k esc with
  | nil => exact ⟨esc, rfl, fun _ _ => rfl⟩
  | cons b gap ih =>
      obtain ⟨noMark, tail⟩ := (isPlain_cons b gap).1 plain
      have next : i + (b :: gap).length = i + 1 + gap.length := by
        rw [List.length_cons]
        omega
      cases k with
      | zero =>
          refine ⟨false, ?_, by simp⟩
          rw [laneScan_outside, resume_plain plain, Nat.zero_sub, laneScan_outside]
      | succ k =>
          obtain ⟨inStr, quiet⟩ := @Lanes.step_plain esc _ noMark
          have state : Lanes.step ⟨esc, false⟩ b = ⟨(Lanes.step ⟨esc, false⟩ b).esc, false⟩ := by
            generalize Lanes.step ⟨esc, false⟩ b = st at inStr
            cases st
            cases inStr
            rfl
          obtain ⟨esc', scan, final⟩ := @ih (i + 1) k
            (Lanes.step ⟨esc, false⟩ b).esc tail
          have length : k + 1 - (b :: gap).length = k - gap.length := by
            rw [List.length_cons]
            omega
          refine ⟨esc', ?_, ?_⟩
          · rw [List.cons_append, laneScan_step, quiet, if_neg (by simp), state, scan, next,
              length]
          · rw [length]
            intro set inside
            rw [final set inside, ← state]
            rfl

theorem laneScan_structural {b : UInt8} (structural : isStructural b = true) :
    laneScan len ⟨esc, false⟩ i k (b :: rest) =
      (laneScan len ⟨false, false⟩ (i + 1) (k - 1) rest).push i := by
  have notQuote : (b == 0x22) = false := by simpa using isStructural_ne_quote structural
  have notSlash : (b == 0x5C) = false := by
    refine beq_eq_false_iff_ne.2 ?_
    rintro rfl
    exact absurd structural (by decide)
  have mark := isMark_of_isStructural structural
  cases k with
  | zero => rw [laneScan_outside, resume_structural structural, laneScan_outside]
  | succ k =>
      rw [laneScan_step, Lanes.emits_eq]
      simp [mark, Lanes.step, notQuote, notSlash]

/-- An opening quotation mark is pushed; a stray one opens nothing. -/
theorem laneScan_quote :
    laneScan len ⟨esc, false⟩ i k (0x22 :: rest) =
      (laneScan len ⟨false, !(esc && k != 0)⟩ (i + 1) (k - 1) rest).push i := by
  cases k with
  | zero =>
      rw [laneScan_outside, resume_quote]
      simp [laneScan_inside]
  | succ k =>
      rw [laneScan_step, Lanes.emits_eq]
      cases esc <;> simp [isMark, Lanes.step]

theorem laneScan_inert (inert : IsInert body) :
    laneScan len ⟨false, true⟩ i k (body ++ rest) =
      laneScan len ⟨false, true⟩ (i + body.length) (k - body.length) rest := by
  induction inert generalizing i k with
  | nil => rfl
  | @escape c body _ ih =>
      have shift : i + (0x5C :: c :: body).length = i + 2 + body.length := by
        simp only [List.length_cons]
        omega
      rw [List.cons_append, List.cons_append, shift]
      match k with
      | 0 =>
          rw [laneScan_inside, scanEmitResumeFrom, if_pos rfl, ← laneScan_inside, ih,
            Nat.zero_sub, Nat.zero_sub]
      | 1 =>
          have tail : laneScan len ⟨false, true⟩ i 1 (0x5C :: c :: (body ++ rest)) =
              scanEmitResumeFrom len (body ++ rest) (i + 2) true := by
            rw [laneScan_step]
            rfl
          rw [tail, ← laneScan_inside, ih, Nat.zero_sub,
            show 1 - (0x5C :: c :: body).length = 0 by simp only [List.length_cons]; omega]
      | k + 2 =>
          have chunk : laneScan len ⟨false, true⟩ i (k + 2) (0x5C :: c :: (body ++ rest)) =
              laneScan len ⟨false, true⟩ (i + 2) k (body ++ rest) := by
            rw [laneScan_step, if_neg (by decide), laneScan_step, Lanes.emits_eq]
            have first : Lanes.step ⟨false, true⟩ 0x5C = ⟨true, true⟩ := rfl
            rw [first]
            simp [Lanes.step]
          rw [chunk, ih]
          congr 1
          simp only [List.length_cons]
          omega
  | @plain b body notSlash notQuote _ ih =>
      have shift : i + (b :: body).length = i + 1 + body.length := by
        rw [List.length_cons]
        omega
      have noQuote : (b == 0x22) = false := by simpa using notQuote
      have noSlash : (b == 0x5C) = false := by simpa using notSlash
      rw [List.cons_append, shift]
      cases k with
      | zero =>
          rw [laneScan_inside, resume_inside _ notSlash, if_neg notQuote, ← laneScan_inside,
            ih, Nat.zero_sub, Nat.zero_sub]
      | succ k =>
          have state : Lanes.step ⟨false, true⟩ b = ⟨false, true⟩ := by
            simp [Lanes.step, noQuote, noSlash]
          rw [laneScan_step, Lanes.emits_eq, state, ih]
          simp [noQuote]

theorem laneScan_close :
    laneScan len ⟨false, true⟩ i k (0x22 :: rest) =
      (laneScan len ⟨false, false⟩ (i + 1) (k - 1) rest).push i := by
  cases k with
  | zero =>
      rw [laneScan_inside, resume_inside _ (by decide), if_pos rfl, laneScan_outside]
  | succ k =>
      rw [laneScan_step]
      rfl

theorem laneScan_unclosed (unclosed : IsUnclosed body) :
    (laneScan len ⟨false, true⟩ i k body).result = .error (.err len) := by
  induction unclosed generalizing i k with
  | nil => cases k <;> rfl
  | dangling =>
      match k with
      | 0 | 1 | k + 2 => rfl
  | @escape c body _ ih =>
      match k with
      | 0 =>
          rw [laneScan_inside, scanEmitResumeFrom, if_pos rfl, ← laneScan_inside]
          exact ih
      | 1 =>
          have tail : laneScan len ⟨false, true⟩ i 1 (0x5C :: c :: body) =
              scanEmitResumeFrom len body (i + 2) true := by
            rw [laneScan_step]
            rfl
          rw [tail, ← laneScan_inside]
          exact ih
      | k + 2 =>
          have chunk : laneScan len ⟨false, true⟩ i (k + 2) (0x5C :: c :: body) =
              laneScan len ⟨false, true⟩ (i + 2) k body := by
            rw [laneScan_step, if_neg (by decide), laneScan_step, Lanes.emits_eq]
            have first : Lanes.step ⟨false, true⟩ 0x5C = ⟨true, true⟩ := rfl
            rw [first]
            simp [Lanes.step]
          rw [chunk]
          exact ih
  | @plain b body notSlash notQuote _ ih =>
      have noQuote : (b == 0x22) = false := by simpa using notQuote
      have noSlash : (b == 0x5C) = false := by simpa using notSlash
      cases k with
      | zero =>
          rw [laneScan_inside, resume_inside _ notSlash, if_neg notQuote, ← laneScan_inside]
          exact ih
      | succ k =>
          have state : Lanes.step ⟨false, true⟩ b = ⟨false, true⟩ := by
            simp [Lanes.step, noQuote, noSlash]
          rw [laneScan_step, Lanes.emits_eq, state]
          simp only [noQuote, Bool.false_and, if_true, Bool.false_eq_true, if_false]
          exact ih

end Outline

/-- What is pushed for a text that ends outside strings is a structural index. -/
theorem isIndex_of_laneScan_ok {len i k : Nat} {text : Bytes}
    (small : i + text.length < 2 ^ 32)
    (ok : (laneScan len ⟨false, false⟩ i k text).result = .ok ()) :
    IsIndex text i (laneScan len ⟨false, false⟩ i k text).out := by
  induction text using outline_induction generalizing i k with
  | plain gap plain =>
      obtain ⟨esc, scan, -⟩ := @laneScan_plain len i k false _ [] plain
      rw [List.append_nil] at scan
      rw [scan]
      cases k - gap.length <;> exact .plain plain
  | mark gap b rest plain structural ih =>
      simp only [List.length_append, List.length_cons] at small
      obtain ⟨esc, scan, -⟩ := @laneScan_plain len i k false _ (b :: rest) plain
      rw [scan, laneScan_structural structural] at ok ⊢
      rw [push_out, u32_of_lt (by omega)]
      exact .mark plain structural (ih (by omega) ok)
  | string gap body rest plain inert ih =>
      simp only [List.length_append, List.length_cons] at small
      obtain ⟨esc, scan, escapes⟩ := @laneScan_plain len i k false _
        (0x22 :: (body ++ 0x22 :: rest)) plain
      rw [scan, laneScan_quote] at ok ⊢
      rw [push_out, u32_of_lt (by omega)]
      cases stray : esc && (k - gap.length) != 0 with
      | true =>
          simp only [Bool.and_eq_true, bne_iff_ne, ne_eq] at stray
          exact .stray plain (Lanes.mem_of_esc false (escapes stray.1 stray.2 ▸ stray.1))
      | false =>
          rw [stray] at ok
          rw [Bool.not_false, laneScan_inert inert, laneScan_close] at ok ⊢
          rw [push_out, u32_of_lt (by omega)]
          exact .string plain inert (ih (by omega) ok)
  | unclosed gap body plain unclosed =>
      simp only [List.length_append, List.length_cons] at small
      obtain ⟨esc, scan, escapes⟩ := @laneScan_plain len i k false _ (0x22 :: body)
        plain
      rw [scan, laneScan_quote] at ok ⊢
      rw [push_out, u32_of_lt (by omega)]
      cases stray : esc && (k - gap.length) != 0 with
      | true =>
          simp only [Bool.and_eq_true, bne_iff_ne, ne_eq] at stray
          exact .stray plain (Lanes.mem_of_esc false (escapes stray.1 stray.2 ▸ stray.1))
      | false =>
          rw [stray, Bool.not_false, push_result, laneScan_unclosed unclosed] at ok
          cases ok

/-! ## Positions ascend -/

/-- The positions ascend within a text that starts at `i` and ends before `n`. -/
def Ascends (i n : Nat) (out : List Nat) : Prop :=
  out.Pairwise (· < ·) ∧ ∀ pos ∈ out, i ≤ pos ∧ pos < n

theorem Ascends.mono {i j n : Nat} {out : List Nat} (ascends : Ascends j n out)
    (before : i ≤ j) : Ascends i n out :=
  ⟨ascends.1, fun pos member => ⟨before.trans (ascends.2 pos member).1,
    (ascends.2 pos member).2⟩⟩

theorem Ascends.push {i n : Nat} {scan : ScanOut} (ascends : Ascends (i + 1) n scan.out)
    (inside : i < n) (small : n < 2 ^ 32) : Ascends i n (scan.push i).out := by
  rw [push_out, u32_of_lt (inside.trans small)]
  refine ⟨List.pairwise_cons.2 ⟨fun pos member => (ascends.2 pos member).1, ascends.1⟩, ?_⟩
  intro pos member
  rcases List.mem_cons.1 member with rfl | member
  · exact ⟨Nat.le_refl _, inside⟩
  · exact (ascends.mono (Nat.le_succ i)).2 pos member

theorem resume_ascends (len : Nat) {text : Bytes} {i : Nat} {inStr : Bool}
    (small : i + text.length < 2 ^ 32) :
    Ascends i (i + text.length) (scanEmitResumeFrom len text i inStr).out := by
  have none (i n : Nat) : Ascends i n [] := ⟨.nil, fun _ absent => by cases absent⟩
  fun_induction scanEmitResumeFrom len text i inStr with
  | case1 => exact none ..
  | case2 => exact none ..
  | case3 i b rest ih =>
      simp only [List.length_cons] at ih small ⊢
      rw [show i + (rest.length + 1 + 1) = i + 2 + rest.length by omega] at small ⊢
      exact (ih small).mono (by omega)
  | case4 rest i _ ih =>
      simp only [List.length_cons] at ih small ⊢
      rw [show i + (rest.length + 1) = i + 1 + rest.length by omega] at small ⊢
      exact (ih small).push (by omega) small
  | case5 b rest i _ _ ih =>
      simp only [List.length_cons] at ih small ⊢
      rw [show i + (rest.length + 1) = i + 1 + rest.length by omega] at small ⊢
      exact (ih small).mono (by omega)
  | case6 rest i ih =>
      simp only [List.length_cons] at ih small ⊢
      rw [show i + (rest.length + 1) = i + 1 + rest.length by omega] at small ⊢
      exact (ih small).push (by omega) small
  | case7 b rest i _ _ ih =>
      simp only [List.length_cons] at ih small ⊢
      rw [show i + (rest.length + 1) = i + 1 + rest.length by omega] at small ⊢
      exact (ih small).push (by omega) small
  | case8 b rest i _ _ ih =>
      simp only [List.length_cons] at ih small ⊢
      rw [show i + (rest.length + 1) = i + 1 + rest.length by omega] at small ⊢
      exact (ih small).mono (by omega)

/-- A vector scanner pushes ascending positions, whatever the text. -/
theorem laneScan_ascends (len : Nat) {text : Bytes} {st : Lanes} {i k : Nat}
    (small : i + text.length < 2 ^ 32) :
    Ascends i (i + text.length) (laneScan len st i k text).out := by
  induction text generalizing st i k with
  | nil =>
      have none : (laneScan len st i k []).out = [] := by cases k <;> rfl
      rw [none]
      exact ⟨.nil, fun _ absent => by cases absent⟩
  | cons b text ih =>
      have length : i + (b :: text).length = i + 1 + text.length := by
        rw [List.length_cons]
        omega
      rw [length] at small ⊢
      cases k with
      | zero =>
          rw [laneScan]
          split
          · exact (resume_ascends len small).mono (Nat.le_succ i)
          · have whole := @resume_ascends len (b :: text) i st.inStr (by rw [length]; exact small)
            rwa [length] at whole
      | succ k =>
          have tail := @ih (st.step b) (i + 1) k small
          rw [laneScan]
          split
          · exact tail.push (by omega) small
          · exact tail.mono (Nat.le_succ i)

theorem VectorPath.ascends (path : VectorPath) {buf : Bytes} (small : buf.length < 2 ^ 32) :
    Ascends 0 buf.length (path.scan buf).out := by
  have emitted := @laneScan_ascends buf.length buf ⟨false, false⟩ 0 (blockEnd buf)
    (by omega)
  rw [Nat.zero_add] at emitted
  rw [path.scan_eq buf, ScanOut.checked]
  split <;> exact emitted

/-- The positions of a successful vector scan are a structural index. -/
theorem VectorPath.isIndex_of_ok (path : VectorPath) {buf : Bytes}
    (small : buf.length < 2 ^ 32) (ok : (path.scan buf).result = .ok ()) :
    IsIndex buf 0 (path.scan buf).out := by
  rw [path.scan_eq buf] at ok ⊢
  unfold ScanOut.checked at ok ⊢
  split at ok
  · cases ok
  · rename_i emitted
    have index := @isIndex_of_laneScan_ok buf.length 0 (blockEnd buf) _ (by omega)
      emitted
    exact index

end QJson.Scan

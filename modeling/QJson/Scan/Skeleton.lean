import QJson.Rfc8259.Layout
import QJson.Scan.Agree

/-!
# The structural skeleton

The marks that a reading sees are the structural characters outside strings and
the quotation marks that open and close strings.  A successful scalar scan pushes
exactly these, and it succeeds exactly on texts that end outside strings and whose
marks balance.
-/

namespace QJson.Scan

open Rfc8259

namespace Reading

/-- The byte is a mark where it stands: a structural character or a quotation mark
outside strings, or the quotation mark that ends a string. -/
def sees (r : Reading) (b : UInt8) : Bool :=
  if r.inStr then !r.esc && b == 0x22 else isMark b

/-- The positions of the marks of a text that starts at `i`. -/
def marks (r : Reading) (i : Nat) : Bytes → List Nat
  | [] => []
  | b :: text => (if r.sees b then [i] else []) ++ (r.step b).marks (i + 1) text

/-- The bytes at these positions. -/
def signs (r : Reading) : Bytes → Bytes
  | [] => []
  | b :: text => (if r.sees b then [b] else []) ++ (r.step b).signs text

/-- The number of brackets open at this point. -/
def height (r : Reading) : Nat := (r.opened.getD []).length

/-- The largest number of brackets open at once. -/
def deepest (r : Reading) : Bytes → Nat
  | [] => r.height
  | b :: text => max r.height ((r.step b).deepest text)

end Reading

/-- The start of a text. -/
def outset : Reading := ⟨false, false, some []⟩

/-- Byte `i` of the text is a mark. -/
def IsMarkAt (text : Bytes) (i : Nat) : Prop :=
  ∃ b, text[i]? = some b ∧ (reading (text.take i)).sees b = true

/-- Byte `i` is the first closing bracket outside strings that does not match. -/
def IsMismatchAt (text : Bytes) (i : Nat) : Prop :=
  (reading (text.take i)).opened ≠ none ∧ (reading (text.take (i + 1))).opened = none

/-- The bytes at the marks of a text. -/
def signs (text : Bytes) : Bytes := outset.signs text

/-- The nesting depth of a text. -/
def nesting (text : Bytes) : Nat := outset.deepest text

namespace Reading

/-! ## The marks of a text -/

theorem marks_append (r : Reading) (i : Nat) (left right : Bytes) :
    r.marks i (left ++ right) =
      r.marks i left ++ (r.run left).marks (i + left.length) right := by
  induction left generalizing r i with
  | nil => rfl
  | cons b left ih =>
      rw [List.cons_append, marks, marks, ih, List.append_assoc, run_cons,
        List.length_cons, Nat.add_assoc, Nat.add_comm 1]

theorem signs_append (r : Reading) (left right : Bytes) :
    r.signs (left ++ right) = r.signs left ++ (r.run left).signs right := by
  induction left generalizing r with
  | nil => rfl
  | cons b left ih =>
      rw [List.cons_append, signs, signs, ih, List.append_assoc, run_cons]

/-- The marks stand where they are seen. -/
theorem mem_marks_iff (r : Reading) (i j : Nat) (text : Bytes) :
    j ∈ r.marks i text ↔
      ∃ k b, j = i + k ∧ text[k]? = some b ∧ (r.run (text.take k)).sees b = true := by
  induction text generalizing r i with
  | nil => simp [marks]
  | cons b text ih =>
      rw [marks, List.mem_append, ih]
      constructor
      · intro member
        rcases member with here | ⟨k, c, rfl, byte, seen⟩
        · split at here
          · rename_i seen
            obtain rfl := List.mem_singleton.1 here
            exact ⟨0, b, rfl, rfl, seen⟩
          · cases here
        · exact ⟨k + 1, c, by omega, byte, seen⟩
      · intro member
        obtain ⟨k, c, rfl, byte, seen⟩ := member
        cases k with
        | zero =>
            obtain rfl := Option.some.inj byte
            left
            have here : r.sees b = true := seen
            rw [if_pos here]
            exact List.mem_singleton.2 rfl
        | succ k => exact .inr ⟨k, c, by omega, byte, seen⟩

theorem le_of_mem_marks {r : Reading} {i j : Nat} {text : Bytes}
    (member : j ∈ r.marks i text) : i ≤ j ∧ j < i + text.length := by
  obtain ⟨k, b, rfl, byte, -⟩ := (mem_marks_iff r i j text).1 member
  have := (List.getElem?_eq_some_iff.1 byte).1
  omega

theorem marks_pairwise (r : Reading) (i : Nat) (text : Bytes) :
    (r.marks i text).Pairwise (· < ·) := by
  induction text generalizing r i with
  | nil => exact List.Pairwise.nil
  | cons b text ih =>
      rw [marks]
      split
      · refine List.pairwise_cons.2 ⟨fun j member => ?_, ih ..⟩
        have := le_of_mem_marks member
        omega
      · exact ih ..

/-- The marks carry the signs. -/
theorem reads_marks (r : Reading) (front text : Bytes) :
    Reads (front ++ text) (r.marks front.length text) (r.signs text) := by
  induction text generalizing r front with
  | nil => exact reads_nil _
  | cons b text ih =>
      have tail := ih (r.step b) (front ++ [b])
      rw [List.append_assoc, List.length_append] at tail
      rw [marks, signs]
      split
      · exact reads_cons.2 ⟨getElem?_at rfl, tail⟩
      · exact tail

section Outline

variable {opened : Option (List UInt8)} {gap body : Bytes}

theorem marks_plain (plain : IsPlain gap) (i : Nat) :
    marks ⟨false, false, opened⟩ i gap = [] ∧ signs ⟨false, false, opened⟩ gap = [] := by
  induction gap generalizing i with
  | nil => exact ⟨rfl, rfl⟩
  | cons b gap ih =>
      obtain ⟨noMark, tail⟩ := (isPlain_cons b gap).1 plain
      have blind : sees ⟨false, false, opened⟩ b = false := noMark
      rw [marks, signs, blind, step_plain noMark]
      exact ih tail (i + 1)

/-- Inside a string a byte that is neither a quotation mark nor a backslash is passed
over. -/
theorem step_inside {b : UInt8} (notSlash : b ≠ 0x5C) (notQuote : b ≠ 0x22) :
    step ⟨false, true, opened⟩ b = ⟨false, true, opened⟩ ∧
      sees ⟨false, true, opened⟩ b = false := by
  simp [step, sees, notSlash, notQuote]

theorem marks_inert (inert : IsInert body) (i : Nat) :
    marks ⟨false, true, opened⟩ i body = [] ∧ signs ⟨false, true, opened⟩ body = [] := by
  induction inert generalizing i with
  | nil => exact ⟨rfl, rfl⟩
  | escape _ ih =>
      obtain ⟨none, noSign⟩ := ih (i + 1 + 1)
      exact ⟨none, noSign⟩
  | plain notSlash notQuote _ ih =>
      obtain ⟨same, blind⟩ := @step_inside opened _ notSlash notQuote
      rw [marks, signs, same, blind]
      exact ih (i + 1)

theorem marks_unclosed (unclosed : IsUnclosed body) (i : Nat) :
    marks ⟨false, true, opened⟩ i body = [] := by
  induction unclosed generalizing i with
  | nil => rfl
  | dangling => rfl
  | escape _ ih => exact ih (i + 1 + 1)
  | plain notSlash notQuote _ ih =>
      obtain ⟨same, blind⟩ := @step_inside opened _ notSlash notQuote
      rw [marks, same, blind]
      exact ih (i + 1)

/-- A structural character behind a gap is a mark. -/
theorem run_mark {b : UInt8} (plain : IsPlain gap) (structural : isStructural b = true)
    (i : Nat) (rest : Bytes) :
    run ⟨false, false, opened⟩ (gap ++ b :: rest) =
        run ⟨false, false, brackets opened b⟩ rest ∧
      marks ⟨false, false, opened⟩ i (gap ++ b :: rest) =
        (i + gap.length) ::
          marks ⟨false, false, brackets opened b⟩ (i + gap.length + 1) rest ∧
      signs ⟨false, false, opened⟩ (gap ++ b :: rest) =
        b :: signs ⟨false, false, brackets opened b⟩ rest := by
  have next : step ⟨false, false, opened⟩ b = ⟨false, false, brackets opened b⟩ := by
    simp [step, isStructural_ne_quote structural]
  have seen : sees ⟨false, false, opened⟩ b = true := isMark_of_isStructural structural
  rw [run_append, run_plain plain, run_cons, next, marks_append, run_plain plain,
    (marks_plain plain i).1, marks, seen, next, signs_append, run_plain plain,
    (marks_plain plain i).2, signs, seen, next]
  exact ⟨rfl, rfl, rfl⟩

/-- Both quotation marks of a string behind a gap are marks. -/
theorem run_string (plain : IsPlain gap) (inert : IsInert body) (i : Nat) (rest : Bytes) :
    run ⟨false, false, opened⟩ (gap ++ 0x22 :: (body ++ 0x22 :: rest)) =
        run ⟨false, false, opened⟩ rest ∧
      marks ⟨false, false, opened⟩ i (gap ++ 0x22 :: (body ++ 0x22 :: rest)) =
        (i + gap.length) :: (i + gap.length + 1 + body.length) ::
          marks ⟨false, false, opened⟩ (i + gap.length + 1 + body.length + 1) rest ∧
      signs ⟨false, false, opened⟩ (gap ++ 0x22 :: (body ++ 0x22 :: rest)) =
        0x22 :: 0x22 :: signs ⟨false, false, opened⟩ rest := by
  have opening : step ⟨false, false, opened⟩ 0x22 = ⟨false, true, opened⟩ := rfl
  have closing : step ⟨false, true, opened⟩ 0x22 = ⟨false, false, opened⟩ := rfl
  have seen : sees ⟨false, false, opened⟩ 0x22 = true := rfl
  have seen' : sees ⟨false, true, opened⟩ 0x22 = true := rfl
  rw [run_append, run_plain plain, run_cons, opening, run_append, run_inert inert, run_cons,
    closing, marks_append, run_plain plain, (marks_plain plain i).1, marks, seen, opening,
    marks_append, run_inert inert, (marks_inert inert _).1, marks, seen', closing,
    signs_append, run_plain plain, (marks_plain plain i).2, signs, seen, opening,
    signs_append, run_inert inert, (marks_inert inert i).2, signs, seen', closing]
  exact ⟨rfl, rfl, rfl⟩

/-- The quotation mark of a string that nothing closes is the last mark. -/
theorem marks_open (plain : IsPlain gap) (unclosed : IsUnclosed body) (i : Nat) :
    marks ⟨false, false, opened⟩ i (gap ++ 0x22 :: body) = [i + gap.length] := by
  have opening : step ⟨false, false, opened⟩ 0x22 = ⟨false, true, opened⟩ := rfl
  have seen : sees ⟨false, false, opened⟩ 0x22 = true := rfl
  rw [marks_append, run_plain plain, (marks_plain plain i).1, marks, seen, opening,
    marks_unclosed unclosed]
  rfl

end Outline

end Reading

/-! ## What the scalar scanner does -/

/-- What a scan from byte `i` on does with a text that is read from `r`; `len` is the
length of the buffer. -/
structure Scanned (len i : Nat) (r : Reading) (text : Bytes) (scan : ScanOut) : Prop where
  matched : ∀ stack, (r.run text).opened = some stack →
    scan.out = (r.marks i text).map u32 ∧
      scan.result =
        if (r.run text).inStr = false ∧ stack = [] then .ok () else .error (.err len)
  mismatch : (r.run text).opened = none → ∃ k < text.length,
    scan.result = .error (.err (i + k)) ∧ (r.run (text.take k)).opened ≠ none ∧
      (r.run (text.take (k + 1))).opened = none

/-- A prefix of the text that leaves no bracket unmatched changes nothing but the
positions. -/
theorem Scanned.prepend {len i : Nat} {r next : Reading} {front text : Bytes}
    {scan scan' : ScanOut} (run : r.run front = next)
    (tail : Scanned len (i + front.length) next text scan)
    (out : scan'.out = (r.marks i front).map u32 ++ scan.out)
    (result : scan'.result = scan.result) :
    Scanned len i r (front ++ text) scan' where
  matched stack opened := by
    rw [Reading.run_append, run] at opened ⊢
    obtain ⟨pushed, ended⟩ := tail.matched stack opened
    rw [out, result, pushed, ended, Reading.marks_append, run, List.map_append]
    exact ⟨rfl, rfl⟩
  mismatch none := by
    rw [Reading.run_append, run] at none
    obtain ⟨k, inside, ended, before, behind⟩ := tail.mismatch none
    refine ⟨front.length + k, by simp only [List.length_append]; omega, ?_, ?_, ?_⟩
    · rw [result, ended, Nat.add_assoc]
    · rw [List.take_length_add_append, Reading.run_append, run]
      exact before
    · rw [Nat.add_assoc, List.take_length_add_append, Reading.run_append, run]
      exact behind

/-- The scanner against the reading. -/
theorem scanned {len i : Nat} {text : Bytes} {stack : List UInt8} :
    Scanned len i ⟨false, false, some stack⟩ text
      (scanAndValidateFrom len text i false stack) := by
  induction text using outline_induction generalizing i stack with
  | plain gap plain =>
      have scan := @scanFrom_plain len i stack _ [] plain
      rw [List.append_nil] at scan
      rw [scan]
      refine ⟨fun open_ same => ?_, fun none => ?_⟩
      · rw [Reading.run_plain plain] at same ⊢
        obtain rfl := Option.some.inj same
        rw [(Reading.marks_plain plain i).1]
        cases stack <;> exact ⟨rfl, rfl⟩
      · rw [Reading.run_plain plain] at none
        cases none
  | mark gap b rest plain structural ih =>
      rw [scanFrom_plain plain, scan_step structural]
      obtain ⟨run, marks, -⟩ := @Reading.run_mark (some stack) _ b plain structural i []
      have split : gap ++ b :: rest = (gap ++ [b]) ++ rest := by simp
      cases matched : Reading.brackets (some stack) b with
      | some stack' =>
          rw [matched] at run marks
          rw [split]
          refine Scanned.prepend run (@ih _ stack') ?_ ?_
          · rw [marks]
            rw [List.length_append, List.length_singleton, ← Nat.add_assoc]
            rfl
          · rw [List.length_append, List.length_singleton, ← Nat.add_assoc]
            rfl
      | none =>
          rw [matched] at run
          refine ⟨fun open_ same => ?_, fun _ => ⟨gap.length, ?_, rfl, ?_, ?_⟩⟩
          · rw [split, Reading.run_append, run, Reading.run_none _ rfl] at same
            cases same
          · simp only [List.length_append, List.length_cons]
            omega
          · rw [List.take_left, Reading.run_plain plain]
            exact Option.some_ne_none stack
          · rw [List.take_length_add_append, List.take_succ_cons, List.take_zero, run]
            rfl
  | string gap body rest plain inert ih =>
      obtain ⟨run, marks, -⟩ := @Reading.run_string (some stack) _ _ plain inert i []
      have split : gap ++ 0x22 :: (body ++ 0x22 :: rest) =
          (gap ++ 0x22 :: (body ++ [0x22])) ++ rest := by simp
      have moved : i + (gap ++ 0x22 :: (body ++ [0x22])).length =
          i + gap.length + 1 + body.length + 1 := by
        simp only [List.length_append, List.length_cons, List.length_nil]
        omega
      rw [scanFrom_plain plain, scanFrom_string inert, split]
      refine Scanned.prepend run ih ?_ ?_
      · rw [marks, moved]
        rfl
      · rw [moved]
        rfl
  | unclosed gap body plain unclosed =>
      have read : Reading.run ⟨false, false, some stack⟩ (gap ++ 0x22 :: body) =
          Reading.run ⟨false, true, some stack⟩ body := by
        rw [Reading.run_append, Reading.run_plain plain]
        rfl
      obtain ⟨inStr, opened⟩ := @Reading.run_unclosed (some stack) _ unclosed
      rw [scanFrom_plain plain, scanFrom_open, scanFrom_unclosed unclosed]
      refine ⟨fun open_ same => ?_, fun none => ?_⟩
      · rw [Reading.marks_open plain unclosed, read, inStr]
        exact ⟨rfl, rfl⟩
      · rw [read, opened] at none
        cases none

/-! ## Balance -/

namespace Reading

@[simp] theorem brackets_quote (opened : Option (List UInt8)) :
    brackets opened 0x22 = opened := by
  cases opened <;> rfl

/-- A byte that is no mark opens and closes nothing. -/
theorem step_blind {r : Reading} {b : UInt8} (blind : r.sees b = false) :
    (r.step b).opened = r.opened := by
  obtain ⟨esc, inStr, opened⟩ := r
  cases inStr with
  | true =>
      unfold step
      split
      · split
        · rfl
        · split
          · rfl
          · split <;> rfl
      · split <;> simp_all
  | false =>
      have noMark : isMark b = false := blind
      simp only [isMark, isStructural, Bool.or_eq_false_iff, beq_eq_false_iff_ne] at noMark
      simp only [step, brackets, noMark, if_false, or_self, Bool.false_eq_true]
      cases opened <;> rfl

/-- A mark opens and closes what its byte says. -/
theorem step_seen {r : Reading} {b : UInt8} (seen : r.sees b = true) :
    (r.step b).opened = brackets r.opened b := by
  obtain ⟨esc, inStr, opened⟩ := r
  cases inStr with
  | true =>
      simp only [sees, if_true, Bool.and_eq_true, Bool.not_eq_true', beq_iff_eq] at seen
      obtain ⟨rfl, rfl⟩ := seen
      rw [brackets_quote]
      rfl
  | false =>
      by_cases quote : b = 0x22
      · subst quote
        rw [brackets_quote]
        rfl
      · simp [step, quote]

/-- The open brackets depend on the signs only. -/
theorem opened_run (r : Reading) (text : Bytes) :
    (r.run text).opened = (r.signs text).foldl brackets r.opened := by
  induction text generalizing r with
  | nil => rfl
  | cons b text ih =>
      rw [run_cons, ih, signs]
      cases seen : r.sees b with
      | true =>
          rw [step_seen seen]
          rfl
      | false =>
          rw [step_blind seen]
          rfl

end Reading

/-- Behind the open brackets of the stack, the signs close them one by one. -/
def Closes : List UInt8 → Bytes → Prop
  | [], signs => Balanced signs
  | b :: stack, signs => ∃ (kind : Kind) (inner rest : Bytes), b = kind.opener ∧
      signs = inner ++ kind.closer :: rest ∧ Balanced inner ∧ Closes stack rest

theorem Closes.prepend {stack : List UInt8} {inner signs : Bytes} (balanced : Balanced inner)
    (closes : Closes stack signs) : Closes stack (inner ++ signs) := by
  cases stack with
  | nil => exact balanced.append closes
  | cons b stack =>
      obtain ⟨kind, inner', rest, rfl, rfl, balanced', rest'⟩ := closes
      exact ⟨kind, inner ++ inner', rest, rfl, by simp, balanced.append balanced', rest'⟩

/-- What a structural character does to the open brackets. -/
theorem brackets_cases {b : UInt8} (structural : isStructural b = true)
    (stack : List UInt8) :
    (∃ kind : Kind, b = kind.opener ∧
        Reading.brackets (some stack) b = some (kind.opener :: stack)) ∨
      (∃ (kind : Kind) (rest : List UInt8), b = kind.closer ∧ stack = kind.opener :: rest ∧
        Reading.brackets (some stack) b = some rest) ∨
      ((b = 0x2C ∨ b = 0x3A) ∧ Reading.brackets (some stack) b = some stack) ∨
      Reading.brackets (some stack) b = none := by
  simp only [isStructural, Bool.or_eq_true, beq_iff_eq] at structural
  rcases structural with ((((rfl | rfl) | rfl) | rfl) | rfl) | rfl
  · exact .inl ⟨.obj, rfl, rfl⟩
  · cases stack with
    | nil => exact .inr (.inr (.inr rfl))
    | cons top rest =>
        by_cases same : top = 0x7B
        · subst same
          exact .inr (.inl ⟨.obj, rest, rfl, rfl, rfl⟩)
        · refine .inr (.inr (.inr ?_))
          simp [Reading.brackets, same]
  · exact .inl ⟨.arr, rfl, rfl⟩
  · cases stack with
    | nil => exact .inr (.inr (.inr rfl))
    | cons top rest =>
        by_cases same : top = 0x5B
        · subst same
          exact .inr (.inl ⟨.arr, rest, rfl, rfl, rfl⟩)
        · refine .inr (.inr (.inr ?_))
          simp [Reading.brackets, same]
  · exact .inr (.inr (.inl ⟨.inr rfl, rfl⟩))
  · exact .inr (.inr (.inl ⟨.inl rfl, rfl⟩))

/-- The signs of a text that ends outside strings with no bracket open close the
brackets it started with. -/
theorem closes_signs {text : Bytes} {stack : List UInt8}
    (opened : (Reading.run ⟨false, false, some stack⟩ text).opened = some [])
    (inStr : (Reading.run ⟨false, false, some stack⟩ text).inStr = false) :
    Closes stack (Reading.signs ⟨false, false, some stack⟩ text) := by
  induction text using outline_induction generalizing stack with
  | plain gap plain =>
      rw [Reading.run_plain plain] at opened
      obtain rfl := Option.some.inj opened
      rw [(Reading.marks_plain plain 0).2]
      exact .nil
  | mark gap b rest plain structural ih =>
      obtain ⟨run, -, signs⟩ := @Reading.run_mark (some stack) _ b plain structural 0 rest
      rw [run] at opened inStr
      rw [signs]
      rcases brackets_cases structural stack with
        ⟨kind, rfl, next⟩ | ⟨kind, below, rfl, rfl, next⟩ | ⟨separator, next⟩ | next
      · rw [next] at opened inStr ⊢
        obtain ⟨kind', inner, rest', same, split, balanced, closes⟩ := ih opened inStr
        obtain rfl : kind = kind' := by
          cases kind <;> cases kind' <;> first | rfl | cases same
        rw [split]
        have nest := Balanced.nest kind balanced .nil
        have whole := closes.prepend nest
        simpa using whole
      · rw [next] at opened inStr ⊢
        exact ⟨kind, [], _, rfl, rfl, .nil, ih opened inStr⟩
      · rw [next] at opened inStr ⊢
        exact @Closes.prepend _ [b] _ (.sep separator .nil) (ih opened inStr)
      · rw [next, Reading.run_none _ rfl] at opened
        cases opened
  | string gap body rest plain inert ih =>
      obtain ⟨run, -, signs⟩ := @Reading.run_string (some stack) _ _ plain inert 0 rest
      rw [run] at opened inStr
      rw [signs]
      exact @Closes.prepend _ [0x22, 0x22] _ (.quotes .nil) (ih opened inStr)
  | unclosed gap body plain unclosed =>
      have read : Reading.run ⟨false, false, some stack⟩ (gap ++ 0x22 :: body) =
          Reading.run ⟨false, true, some stack⟩ body := by
        rw [Reading.run_append, Reading.run_plain plain]
        rfl
      rw [read, (@Reading.run_unclosed (some stack) _ unclosed).1] at inStr
      cases inStr

/-- Balanced signs leave the open brackets as they were. -/
theorem foldl_brackets {signs : Bytes} (balanced : Balanced signs)
    (stack : List UInt8) : signs.foldl Reading.brackets (some stack) = some stack := by
  induction balanced generalizing stack with
  | nil => rfl
  | sep separator _ ih => rcases separator with rfl | rfl <;> exact ih stack
  | quotes _ ih => exact ih stack
  | nest kind _ _ ihInner ih =>
      rw [List.foldl_cons, List.foldl_append, List.foldl_cons]
      have opening : Reading.brackets (some stack) kind.opener =
          some (kind.opener :: stack) := by cases kind <;> rfl
      have closing : Reading.brackets (some (kind.opener :: stack)) kind.closer =
          some stack := by cases kind <;> rfl
      rw [opening, ihInner, closing, ih]

/-- A text that ends outside strings ends without open brackets when its signs
balance. -/
theorem opened_eq_nil_iff {text : Bytes} (inStr : (reading text).inStr = false) :
    (reading text).opened = some [] ↔ Balanced (signs text) := by
  constructor
  · intro opened
    exact closes_signs opened inStr
  · intro balanced
    have fold := outset.opened_run text
    rw [show outset.signs text = signs text from rfl] at fold
    exact fold.trans (foldl_brackets balanced [])

end QJson.Scan

import QJson.Doc.Handed
import QJson.Rfc8259.Front
import QJson.Validate.Failures

/-!
# Where the root ends

`validate_trailing_with_offset` picks one of four rules by the first structural byte of the
text and does not look at the bytes before it.  On texts that begin with that byte, and on
texts without any, the rule finds the end of the root value; everywhere else the position it
reports does not lie right behind a single value.
-/

namespace QJson.Doc

open Rfc8259 Validate Scan

/-! ## What the root is -/

/-- One root value, as far as its extent goes, and what follows it: a container whose
brackets balance, a string, or as many bytes as there are that are neither whitespace nor
structural. -/
inductive IsRoot : Bytes → Bytes → Prop where
  | container {kind : Kind} {inner rest : Bytes} : (reading inner).inStr = false →
      Balanced (signs inner) → IsRoot (kind.opener :: (inner ++ [kind.closer])) rest
  | string {body rest : Bytes} : IsInert body → IsRoot (0x22 :: (body ++ [0x22])) rest
  | run {token rest : Bytes} : token ≠ [] →
      (∀ b ∈ token, isWs b = false ∧ isMark b = false) →
      (∀ b, rest.head? = some b → isWs b = true ∨ isMark b = true) → IsRoot token rest

/-- Byte `o` is the first one behind the root and the whitespace around it. -/
def BehindRoot (buf : Bytes) (o : Nat) : Prop :=
  ∃ before token between b tail, buf = before ++ (token ++ (between ++ b :: tail)) ∧
    o = (before ++ (token ++ between)).length ∧ IsBlank before ∧
    IsRoot token (between ++ b :: tail) ∧ IsBlank between ∧ isWs b = false

/-- The bytes that begin a container or a string. -/
def opensRoot (b : UInt8) : Bool := b == 0x7B || b == 0x5B || b == 0x22

/-- The text has no structural byte, or begins with one that begins a value. -/
def RootFirst (buf : Bytes) : Prop :=
  (∀ b ∈ buf, isMark b = false) ∨ ∃ b, (trimStart buf).head? = some b ∧ opensRoot b = true

instance (buf : Bytes) : Decidable (RootFirst buf) :=
  decidable_of_iff (buf.all (fun b => !isMark b) = true ∨
      (trimStart buf).head?.any opensRoot = true) (by simp [RootFirst, Option.any_eq_true])

/-! ## The bracket that closes the root -/

section Closer

variable {r : Reading} {left right : Bytes} {b : UInt8}

/-- Which bytes are marks does not depend on the open brackets. -/
theorem signs_opened (esc inStr : Bool) (opened opened' : Option (List UInt8)) (text : Bytes) :
    Reading.signs ⟨esc, inStr, opened⟩ text = Reading.signs ⟨esc, inStr, opened'⟩ text := by
  induction text generalizing esc inStr opened opened' with
  | nil => rfl
  | cons b text ih =>
      rw [Reading.signs, Reading.signs]
      refine congrArg₂ _ rfl ?_
      unfold Reading.step
      split
      · split
        · exact ih ..
        · split
          · exact ih ..
          · split <;> exact ih ..
      · split <;> exact ih ..

theorem marks_seen {inner tail : Bytes} {i : Nat} (sees : (r.run inner).sees b = true) :
    r.marks i (inner ++ b :: tail) = r.marks i inner ++ (i + inner.length) ::
      ((r.run inner).step b).marks (i + inner.length + 1) tail := by
  rw [Reading.marks_append, Reading.marks, sees]
  rfl

/-- The text around a mark. -/
theorem exists_of_signs_eq {text : Bytes} (same : r.signs text = left ++ b :: right) :
    ∃ inner tail, text = inner ++ b :: tail ∧ r.signs inner = left ∧
      (r.run inner).sees b = true := by
  induction text generalizing r left with
  | nil => simp [Reading.signs] at same
  | cons c text ih =>
      rw [Reading.signs] at same
      cases seen : r.sees c with
      | false =>
          rw [seen, if_neg (by simp), List.nil_append] at same
          obtain ⟨inner, tail, rfl, signs, sees⟩ := ih same
          refine ⟨c :: inner, tail, rfl, ?_, sees⟩
          rw [Reading.signs, seen, if_neg (by simp), List.nil_append, signs]
      | true =>
          rw [seen, if_pos rfl, List.cons_append, List.nil_append] at same
          cases left with
          | nil =>
              obtain ⟨rfl, -⟩ := List.cons.inj same
              exact ⟨[], text, rfl, rfl, seen⟩
          | cons d left =>
              rw [List.cons_append] at same
              obtain ⟨rfl, later⟩ := List.cons.inj same
              obtain ⟨inner, tail, rfl, signs, sees⟩ := ih later
              refine ⟨c :: inner, tail, rfl, ?_, sees⟩
              rw [Reading.signs, seen, if_pos rfl, signs]
              rfl

/-- A text that ends outside strings and closes one open bracket has a byte that does. -/
theorem exists_closer {kind : Kind} {text : Bytes}
    (opened : (Reading.run ⟨false, false, some [kind.opener]⟩ text).opened = some [])
    (inStr : (Reading.run ⟨false, false, some [kind.opener]⟩ text).inStr = false) :
    ∃ inner tail, text = inner ++ kind.closer :: tail ∧
      Balanced (Reading.signs ⟨false, false, some [kind.opener]⟩ inner) ∧
      (Reading.run ⟨false, false, some [kind.opener]⟩ inner).sees kind.closer = true := by
  obtain ⟨kind', signs, rest, same, split, balanced, -⟩ := closes_signs opened inStr
  obtain rfl : kind = kind' := by
    cases kind <;> cases kind' <;> first | rfl | cases same
  obtain ⟨inner, tail, rfl, rfl, sees⟩ := exists_of_signs_eq split
  exact ⟨inner, tail, rfl, balanced, sees⟩

/-- What a buffer reads at given positions it still reads when it goes on. -/
theorem reads_append_right {buf more : Bytes} {marks : List Nat} {signs : Bytes}
    (reads : Reads buf marks signs) : Reads (buf ++ more) marks signs := by
  induction signs generalizing marks with
  | nil =>
      obtain rfl : marks = [] := by simpa using reads.length_eq
      exact reads_nil _
  | cons b signs ih =>
      obtain ⟨i, marks, rfl, byte, reads⟩ := exists_of_reads_cons reads
      refine reads_cons.2 ⟨?_, ih reads⟩
      rw [List.getElem?_append_left (List.getElem?_eq_some_iff.1 byte).1]
      exact byte

end Closer

/-! ## Right behind the root -/

section Behind

variable {before token rest gap : Bytes} {b : UInt8} {o p : Nat}

/-- Skipping the whitespace behind a root leads right behind it. -/
theorem behindRoot_of_skipWs (blank : IsBlank before) (root : IsRoot token rest)
    (at_ : p = (before ++ token).length)
    (stop : o = skipWs (before ++ (token ++ rest)) p)
    (inside : o < (before ++ (token ++ rest)).length) :
    BehindRoot (before ++ (token ++ rest)) o := by
  have split := takeWhile_append_trimStart rest
  have moved : o = (before ++ token).length + (rest.takeWhile isWs).length := by
    rw [stop, at_, ← List.append_assoc, skipWs, List.drop_left]
  cases behind : trimStart rest with
  | nil =>
      rw [behind, List.append_nil] at split
      rw [moved, split, ← List.append_assoc, List.length_append] at inside
      simp only [List.length_append] at inside
      omega
  | cons b tail =>
      rw [behind] at split
      have ink : isWs b = false := by
        have head := List.head?_dropWhile_not isWs rest
        rw [show rest.dropWhile isWs = b :: tail from behind] at head
        simpa using head
      refine ⟨before, token, rest.takeWhile isWs, b, tail, by rw [split], ?_, blank, ?_,
        isBlank_takeWhile rest, ink⟩
      · rw [moved, ← List.append_assoc, List.length_append]
        simp [Nat.add_assoc]
      · rw [split]
        exact root

/-- A text with a root behind whose first structural byte a position lies begins with that
byte. -/
theorem rootFirst_of_behindRoot (mark : isMark b = true)
    (behind : BehindRoot (gap ++ b :: rest) o) (beyond : gap.length < o) :
    RootFirst (gap ++ b :: rest) := by
  obtain ⟨before, token, between, c, tail, split, rfl, blank, root, betweenBlank, -⟩ := behind
  have first (d : UInt8) (more : Bytes) (spelled : token = d :: more) (ink : isWs d = false) :
      (trimStart (gap ++ b :: rest)).head? = some d := by
    rw [split, spelled, trimStart, List.dropWhile_append_of_pos blank, List.cons_append,
      List.dropWhile_cons_of_neg (by simp [ink])]
    rfl
  cases root with
  | @container kind inner =>
      exact .inr ⟨kind.opener, first _ _ rfl (by cases kind <;> rfl), by cases kind <;> rfl⟩
  | @string body => exact .inr ⟨0x22, first _ _ rfl rfl, rfl⟩
  | run _ noMark _ =>
      have here : (before ++ (token ++ between))[gap.length]? = some b := by
        have whole : (gap ++ b :: rest)[gap.length]? = some b := getElem?_at rfl
        rw [split] at whole
        have front : before ++ (token ++ (between ++ c :: tail)) =
            (before ++ (token ++ between)) ++ c :: tail := by simp
        rw [front, List.getElem?_append_left beyond] at whole
        exact whole
      have clean : IsPlain (before ++ (token ++ between)) :=
        (isPlain_append _ _).2 ⟨blank.isPlain, (isPlain_append _ _).2
          ⟨fun d member => (noMark d member).2, betweenBlank.isPlain⟩⟩
      rw [clean b (List.mem_of_getElem? here)] at mark
      cases mark

theorem blank_of_head? {c : UInt8} (plain : IsPlain gap) (mark : isMark b = true)
    (head : (trimStart (gap ++ b :: rest)).head? = some c) (opens : opensRoot c = true) :
    IsBlank gap ∧ c = b := by
  have split := takeWhile_append_trimStart gap
  have front := isBlank_takeWhile gap
  cases behind : trimStart gap with
  | nil =>
      rw [behind, List.append_nil] at split
      rw [split] at front
      have ink : isWs b = false := by
        cases ws : isWs b with
        | false => rfl
        | true => rw [isMark_of_isWs ws] at mark; cases mark
      rw [trimStart, List.dropWhile_append_of_pos front,
        List.dropWhile_cons_of_neg (by simp [ink])] at head
      exact ⟨front, (Option.some.inj head).symm⟩
  | cons d more =>
      rw [behind] at split
      have ink : isWs d = false := by
        have first := List.head?_dropWhile_not isWs gap
        rw [show gap.dropWhile isWs = d :: more from behind] at first
        simpa using first
      rw [← split, List.append_assoc, trimStart, List.dropWhile_append_of_pos front,
        List.cons_append, List.dropWhile_cons_of_neg (by simp [ink])] at head
      obtain rfl : d = c := Option.some.inj head
      have noMark := plain d (by rw [← split]; simp)
      simp only [opensRoot, Bool.or_eq_true, beq_iff_eq] at opens
      rcases opens with (rfl | rfl) | rfl <;> cases noMark

end Behind

/-! ## The four rules -/

section Rules

variable {buf gap rest : Bytes} {o : Nat}

/-- The longest front part of bytes of one sort. -/
theorem exists_front (sort : UInt8 → Bool) (text : Bytes) :
    ∃ front back, text = front ++ back ∧ front = text.takeWhile sort ∧
      (∀ b ∈ front, sort b = true) ∧ ∀ b, back.head? = some b → sort b = false := by
  refine ⟨text.takeWhile sort, text.dropWhile sort, List.takeWhile_append_dropWhile.symm, rfl,
    fun b => List.mem_takeWhile_imp, fun b head => ?_⟩
  have first := List.head?_dropWhile_not sort text
  rw [head] at first
  simpa using first

theorem behindRoot_plain (plain : IsPlain buf)
    (moved : skipWs buf 0 ≠ skipInk buf (skipWs buf 0))
    (stop : o = skipWs buf (skipInk buf (skipWs buf 0))) (inside : o < buf.length) :
    BehindRoot buf o := by
  obtain ⟨before, text, whole, first, blank, -⟩ := exists_front isWs buf
  obtain ⟨token, rest, split, second, ink, next⟩ := exists_front (fun b => !isWs b) text
  have start : skipWs buf 0 = before.length := by
    rw [skipWs, List.drop_zero, ← first, Nat.zero_add]
  have behind : skipInk buf before.length = (before ++ token).length := by
    rw [whole, skipInk, List.drop_left, ← second, List.length_append]
  rw [start, behind] at stop moved
  rw [whole, split] at plain stop inside ⊢
  refine behindRoot_of_skipWs blank (.run ?_ (fun b member => ?_) fun b head => ?_) rfl stop
    inside
  · rintro rfl
    simp at moved
  · exact ⟨by simpa using ink b member, plain b (by simp [member])⟩
  · exact .inl (by simpa using next b head)

theorem exists_marks_container {kind : Kind} {inner tail : Bytes} (plain : IsPlain gap)
    (sees : (Reading.run ⟨false, false, some [kind.opener]⟩ inner).sees kind.closer = true) :
    ∃ marks more, outset.marks 0 (gap ++ kind.opener :: (inner ++ kind.closer :: tail)) =
        gap.length :: (marks ++ (gap.length + 1 + inner.length) :: more) ∧
      Reads (gap ++ kind.opener :: (inner ++ kind.closer :: tail)) marks
        (Reading.signs ⟨false, false, some [kind.opener]⟩ inner) := by
  have structural : isStructural kind.opener = true := by cases kind <;> rfl
  have next : Reading.brackets (some []) kind.opener = some [kind.opener] := by
    cases kind <;> rfl
  have marks := (@Reading.run_mark (some []) _ kind.opener plain structural 0
    (inner ++ kind.closer :: tail)).2.1
  rw [next, Nat.zero_add, marks_seen sees] at marks
  refine ⟨_, _, marks, ?_⟩
  have front := Reading.reads_marks ⟨false, false, some [kind.opener]⟩
    (gap ++ [kind.opener]) inner
  have whole := @reads_append_right _ (kind.closer :: tail) _ _ front
  simpa using whole

theorem behindRoot_container {kind : Kind} (small : (gap ++ kind.opener :: rest).length < u32Max)
    (blank : IsBlank gap) (opened : (reading (gap ++ kind.opener :: rest)).opened = some [])
    (inStr : (reading (gap ++ kind.opener :: rest)).inStr = false)
    (ended : rootEnd (gap ++ kind.opener :: rest)
      (outset.marks 0 (gap ++ kind.opener :: rest) ++ [u32Max]) gap.length = .ok o)
    (inside : o < (gap ++ kind.opener :: rest).length) :
    BehindRoot (gap ++ kind.opener :: rest) o := by
  have run : reading (gap ++ kind.opener :: rest) =
      Reading.run ⟨false, false, some [kind.opener]⟩ rest := by
    rw [reading, Reading.run_append, Reading.run_plain blank.isPlain]
    cases kind <;> rfl
  rw [run] at opened inStr
  obtain ⟨inner, tail, rfl, balanced, sees⟩ := exists_closer opened inStr
  obtain ⟨marks, more, spelled, reads⟩ := @exists_marks_container _ _ _ tail blank.isPlain sees
  have opening : (gap ++ kind.opener :: (inner ++ kind.closer :: tail))[gap.length]? =
      some kind.opener := getElem?_at rfl
  have closing : (gap ++ kind.opener :: (inner ++ kind.closer :: tail))[gap.length + 1 +
      inner.length]? = some kind.closer := by
    have front : gap ++ kind.opener :: (inner ++ kind.closer :: tail) =
        (gap ++ kind.opener :: inner) ++ kind.closer :: tail := by simp
    rw [front]
    refine getElem?_at ?_
    simp only [List.length_append, List.length_cons]
    omega
  rw [spelled, rootEnd, atIdx_of_getElem? opening, ok_bind, if_pos (Kind.opener_cases kind).1,
    List.cons_append, List.append_assoc, List.cons_append,
    rootCloser_nest small kind balanced opening reads closing, ok_bind] at ended
  have stop := (Except.ok.inj ended).symm
  have split : gap ++ kind.opener :: (inner ++ kind.closer :: tail) =
      gap ++ (kind.opener :: (inner ++ [kind.closer]) ++ tail) := by simp
  have outside : (reading inner).inStr = false := by
    cases inStr : (Reading.run ⟨false, false, some [kind.opener]⟩ inner).inStr with
    | false => exact (Reading.run_inStr _ _ _ _ _).trans inStr
    | true =>
        rw [Reading.sees, inStr] at sees
        cases kind <;> simp [Kind.closer] at sees
  rw [signs_opened _ _ _ (some [])] at balanced
  rw [split] at stop inside ⊢
  refine behindRoot_of_skipWs blank (.container outside balanced) ?_ stop inside
  simp only [List.length_append, List.length_cons, List.length_nil]
  omega

theorem behindRoot_string (small : (gap ++ 0x22 :: rest).length < u32Max)
    (blank : IsBlank gap) (inStr : (reading (gap ++ 0x22 :: rest)).inStr = false)
    (ended : rootEnd (gap ++ 0x22 :: rest)
      (outset.marks 0 (gap ++ 0x22 :: rest) ++ [u32Max]) gap.length = .ok o)
    (inside : o < (gap ++ 0x22 :: rest).length) :
    BehindRoot (gap ++ 0x22 :: rest) o := by
  rcases exists_close_or_unclosed rest with ⟨body, tail, inert, rfl⟩ | unclosed
  · have marks := (@Reading.run_string (some []) _ _ blank.isPlain inert 0 tail).2.1
    have opening : (gap ++ 0x22 :: (body ++ 0x22 :: tail))[gap.length]? = some 0x22 :=
      getElem?_at rfl
    have real : gap.length + 1 + body.length ≠ u32Max := by
      simp only [List.length_append, List.length_cons] at small
      omega
    rw [show outset = ⟨false, false, some []⟩ from rfl, marks, rootEnd,
      atIdx_of_getElem? opening, ok_bind, if_neg (by decide), if_pos rfl, Nat.zero_add] at ended
    have stop : o = skipWs (gap ++ 0x22 :: (body ++ 0x22 :: tail))
        (gap.length + 1 + body.length + 1) := by simpa [real] using ended.symm
    have split : gap ++ 0x22 :: (body ++ 0x22 :: tail) =
        gap ++ (0x22 :: (body ++ [0x22]) ++ tail) := by simp
    rw [split] at stop inside ⊢
    refine behindRoot_of_skipWs blank (.string inert) ?_ stop inside
    simp only [List.length_append, List.length_cons, List.length_nil]
    omega
  · have read : reading (gap ++ 0x22 :: rest) = Reading.run ⟨false, true, some []⟩ rest := by
      rw [reading, Reading.run_append, Reading.run_plain blank.isPlain]
      rfl
    rw [read, (@Reading.run_unclosed (some []) _ unclosed).1] at inStr
    cases inStr

end Rules

/-! ## Trailing content -/

section Trailing

variable {buf gap rest : Bytes} {b : UInt8} {opts : Options} {o : Nat}

theorem ScanPath.marks_of_ok (scanner : ScanPath) (small : buf.length < u32Max)
    (calm : scanner = .scalar ∨ ¬ HasStrayQuote buf)
    (ok : (scanner.scan buf).result = .ok ()) :
    (scanner.scan buf).out = outset.marks 0 buf ∧ (reading buf).opened = some [] ∧
      (reading buf).inStr = false := by
  have width : buf.length < 2 ^ 32 := small.trans (by decide)
  cases scanner with
  | scalar =>
      obtain ⟨out, opened⟩ := scalar_out small ok
      exact ⟨out, opened, (scalar_ok_iff.1 ok).1⟩
  | vector path =>
      have notStray := calm.resolve_left (by simp)
      have notTorn : ¬ IsTorn buf := by
        rintro ⟨-, inStr⟩
        have emitted := (fused_whole width).emitted
        rw [inStr, if_pos rfl] at emitted
        simp only [scan, path.scan_of_not_stray notStray, ScanOut.checked, emitted] at ok
        cases ok
      have same := (sameScan_iff_not_torn path width notStray).2 notTorn
      have scalar := same.1.symm.trans ok
      obtain ⟨out, opened⟩ := scalar_out small scalar
      exact ⟨(same.2 ok).trans out, opened, (scalar_ok_iff.1 scalar).1⟩

theorem ScanPath.exists_first (scanner : ScanPath) (small : (gap ++ b :: rest).length < u32Max)
    (plain : IsPlain gap) (mark : isMark b = true)
    (ok : (scanner.scan (gap ++ b :: rest)).result = .ok ()) :
    ∃ more, (scanner.scan (gap ++ b :: rest)).out = gap.length :: more ∧
      ∀ i ∈ more, gap.length < i := by
  have indexed := scanner.isIndex_of_ok (small.trans (by decide)) ok
  have ascends := scanner.ascends small ok
  obtain ⟨more, spelled⟩ := indexed.exists_first plain mark
  rw [Nat.zero_add] at spelled
  rw [spelled] at ascends
  exact ⟨more, spelled, (List.pairwise_cons.1 ascends.1).1⟩

/-- A parse reports trailing content where the trailing pass does. -/
theorem trailing_of_parse (scanner : ScanPath) (strings : StringPath)
    (failed : parseWithOptionsDetailed (dispatch scanner strings) buf opts =
      .error (.err ⟨.trailingContent, o⟩)) :
    (scanner.scan buf).result = .ok () ∧
      validateTrailing buf ((scanner.scan buf).out ++ [u32Max]) =
        .error (.err ⟨.trailingContent, o⟩) := by
  cases origin_of_parse failed with
  | trailing _ scanned refused => exact ⟨scanned, refused⟩
  | eager _ _ refused =>
      rw [validateEagerValues_eq] at refused
      exact absurd rfl ((eagerFrom_ends strings.isStringValidator _).of_err refused)
  | depth _ _ refused =>
      have never := (depthLoop_code _).of_err refused
      cases never

/-- On a text that begins with an opening bracket or with a quotation mark, or that has no
structural byte, the offset of trailing content lies right behind the root; elsewhere it
does not. -/
theorem trailing_behind_root_iff (scanner : ScanPath) (strings : StringPath) (buf : Bytes)
    (opts : Options) (o : Nat) (small : buf.length < 2 ^ 32 - 1)
    (failed : parseWithOptionsDetailed (dispatch scanner strings) buf opts =
      .error (.err ⟨.trailingContent, o⟩)) :
    (BehindRoot buf o → RootFirst buf) ∧
      (scanner = .scalar ∨ ¬ HasStrayQuote buf → (BehindRoot buf o ↔ RootFirst buf)) := by
  obtain ⟨scanned, refused⟩ := trailing_of_parse scanner strings failed
  rcases isPlain_or_exists_mark buf with plain | ⟨gap, b, rest, rfl, plain, mark⟩
  · have out := (scanner.isIndex_of_ok (Nat.lt_succ_of_lt small) scanned).eq_nil_iff.2 plain
    rw [out] at refused
    obtain ⟨-, inside, moved, stop⟩ := validateTrailing_err_plain (by simp) refused
    have behind := behindRoot_plain plain moved stop inside
    exact ⟨fun _ => .inl plain, fun _ => iff_of_true behind (.inl plain)⟩
  · obtain ⟨more, out, later⟩ := scanner.exists_first small plain mark scanned
    have real : gap.length ≠ u32Max := ne_u32Max_of_getElem? small (getElem?_at rfl)
    have found : ((scanner.scan (gap ++ b :: rest)).out ++ [u32Max]).find? (· ≠ u32Max) =
        some gap.length := by simp [out, real]
    obtain ⟨-, inside, ended⟩ := validateTrailing_err found refused
    have beyond : gap.length < o := by
      refine (rootEnd_ends (le_refl _) fun i member => ?_).of_ok ended
      rw [out] at member
      rcases List.mem_append.1 member with listed | sentinel
      · rcases List.mem_cons.1 listed with rfl | listed
        · exact le_refl _
        · exact (later i listed).le
      · have inside := (List.getElem?_eq_some_iff.1 (@getElem?_at gap rest b _ rfl)).1
        rw [List.mem_singleton.1 sentinel]
        exact (inside.trans small).le
    have first : BehindRoot (gap ++ b :: rest) o → RootFirst (gap ++ b :: rest) :=
      fun behind => rootFirst_of_behindRoot mark behind beyond
    refine ⟨first, fun calm => ⟨first, fun begins => ?_⟩⟩
    obtain ⟨marks, opened, inStr⟩ := scanner.marks_of_ok small calm scanned
    rw [marks] at ended
    rcases begins with noMark | ⟨c, head, opens⟩
    · rw [noMark b (by simp)] at mark
      cases mark
    · obtain ⟨blank, rfl⟩ := blank_of_head? plain mark head opens
      simp only [opensRoot, Bool.or_eq_true, beq_iff_eq] at opens
      rcases opens with (rfl | rfl) | rfl
      · exact @behindRoot_container _ _ _ .obj small blank opened inStr ended inside
      · exact @behindRoot_container _ _ _ .arr small blank opened inStr ended inside
      · exact behindRoot_string small blank inStr ended inside

/-- `{}x`, `"a" 1`, ` 1 2`: the three rules that find the end of the root. -/
theorem trailing_behind_root_iff_word :
    BehindRoot [0x7B, 0x7D, 0x78] 2 ∧ BehindRoot [0x22, 0x61, 0x22, 0x20, 0x31] 4 ∧
      BehindRoot [0x20, 0x31, 0x20, 0x32] 3 := by
  refine ⟨?_, ?_, ?_⟩
  · exact ((trailing_behind_root_iff .scalar .scalar [0x7B, 0x7D, 0x78] .default 2 (by decide)
      (by decide +kernel)).2 (.inl rfl)).2 (by decide)
  · exact ((trailing_behind_root_iff (.vector .avx2) .avx2 [0x22, 0x61, 0x22, 0x20, 0x31]
      .default 4 (by decide) (by decide +kernel)).2 (.inr (by decide +kernel))).2 (by decide)
  · exact ((trailing_behind_root_iff (.vector .neon) .neon [0x20, 0x31, 0x20, 0x32]
      .default 3 (by decide) (by decide +kernel)).2 (.inr (by decide +kernel))).2 (by decide)

/-- `1 {} x` is refused at `x`, and not at the container behind the root `1`. -/
theorem not_trailing_behind_root :
    ¬ ∀ (scanner : ScanPath) (strings : StringPath) (buf : Bytes) (opts : Options) (o : Nat),
      opts.isEager = true →
      parseWithOptionsDetailed (dispatch scanner strings) buf opts =
        .error (.err ⟨.trailingContent, o⟩) → BehindRoot buf o := by
  intro always
  have behind := always .scalar .scalar [0x31, 0x20, 0x7B, 0x7D, 0x20, 0x78] .default 5
    (by decide) (by decide +kernel)
  have first := @rootFirst_of_behindRoot [0x7D, 0x20, 0x78] [0x31, 0x20] 0x7B 5 (by decide)
    behind (by decide)
  exact absurd first (by decide)

end Trailing

end QJson.Doc

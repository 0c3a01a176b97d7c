import QJson.Doc.Handed
import QJson.Validate.Failures

/-!
# The depth limit

Lazy parsing counts brackets along the index, eager parsing compares the number of frames,
of which the root is one.  Along the marks of a text the frames are one more than the open
brackets, so that both passes stop at the same bracket: the first one at which as many
brackets are open as the limit allows.
-/

namespace QJson.Doc

open Rfc8259 Validate Scan

/-- Byte `k` of the text is an opening bracket outside strings. -/
def OpensAt (r : Reading) (text : Bytes) (k : Nat) : Prop :=
  (r.run (text.take k)).inStr = false ∧ ∃ kind : Kind, text[k]? = some kind.opener

/-- Fewer than `limit` brackets are open at every opening bracket. -/
def Shallow (limit : Nat) (r : Reading) (text : Bytes) : Prop :=
  ∀ k, OpensAt r text k → (r.run (text.take k)).height < limit

/-- Byte `k` is the first opening bracket at which `limit` brackets are open. -/
structure TooDeep (limit : Nat) (r : Reading) (text : Bytes) (k : Nat) : Prop where
  opens : OpensAt r text k
  full : ∃ stack, (r.run (text.take k)).opened = some stack ∧ stack.length = limit
  first : ∀ j < k, OpensAt r text j → (r.run (text.take j)).height < limit

/-- An error about nesting names the first bracket that is nested too deep. -/
def Blames (limit : Nat) (r : Reading) (front text : Bytes) (error : ParseError) : Prop :=
  error.code = .nestingTooDeep →
    ∃ k, error.offset = front.length + k ∧ TooDeep limit r text k

section Pieces

variable {limit : Nat} {r next : Reading} {front text gap body : Bytes} {k : Nat}
  {stack : List UInt8}

/-- Opening brackets are marks. -/
theorem opensAt_iff_mem_marks :
    OpensAt r text k ↔ k ∈ r.marks 0 text ∧ ∃ kind : Kind, text[k]? = some kind.opener := by
  rw [Reading.mem_marks_iff]
  constructor
  · rintro ⟨outside, kind, byte⟩
    refine ⟨⟨k, kind.opener, (Nat.zero_add k).symm, byte, ?_⟩, kind, byte⟩
    rw [Reading.sees, outside]
    cases kind <;> rfl
  · rintro ⟨⟨k', b, same, byte', seen⟩, kind, byte⟩
    obtain rfl : k = k' := same.trans (Nat.zero_add k')
    obtain rfl : b = kind.opener := Option.some.inj (byte'.symm.trans byte)
    refine ⟨?_, kind, byte⟩
    cases inStr : (r.run (text.take k)).inStr with
    | false => rfl
    | true =>
        rw [Reading.sees, inStr] at seen
        cases kind <;> simp [Kind.opener] at seen

theorem opensAt_append_left (inside : k < front.length) :
    OpensAt r (front ++ text) k ↔ OpensAt r front k := by
  rw [OpensAt, OpensAt, List.take_append_of_le_length inside.le,
    List.getElem?_append_left inside]

theorem opensAt_append_right :
    OpensAt r (front ++ text) (front.length + k) ↔ OpensAt (r.run front) text k := by
  rw [OpensAt, OpensAt, List.take_length_add_append, Reading.run_append,
    List.getElem?_append_right (Nat.le_add_right ..), Nat.add_sub_cancel_left]

/-- A shallow piece in front of a text moves the first bracket that is too deep. -/
theorem TooDeep.prepend (shallow : Shallow limit r front)
    (deep : TooDeep limit (r.run front) text k) :
    TooDeep limit r (front ++ text) (front.length + k) where
  opens := opensAt_append_right.2 deep.opens
  full := by
    rw [List.take_length_add_append, Reading.run_append]
    exact deep.full
  first j before opens := by
    by_cases inside : j < front.length
    · rw [List.take_append_of_le_length inside.le]
      exact shallow j ((opensAt_append_left inside).1 opens)
    · obtain ⟨j, rfl⟩ := Nat.exists_eq_add_of_le (Nat.not_lt.1 inside)
      rw [List.take_length_add_append, Reading.run_append]
      exact deep.first j (by omega) (opensAt_append_right.1 opens)

theorem Blames.prepend {piece : Bytes} {error : ParseError} (shallow : Shallow limit r piece)
    (run : r.run piece = next) (blames : Blames limit next (front ++ piece) text error) :
    Blames limit r front (piece ++ text) error := by
  intro nesting
  obtain ⟨k, offset, deep⟩ := blames nesting
  subst run
  refine ⟨piece.length + k, ?_, deep.prepend shallow⟩
  rw [offset, List.length_append, Nat.add_assoc]

theorem blames_of_ordinary {error : ParseError} (ordinary : Ordinary error) :
    Blames limit r front text error := fun nesting => absurd nesting ordinary.1

theorem not_opensAt_plain (plain : IsPlain gap) : ¬ OpensAt r gap k := by
  rintro ⟨-, kind, byte⟩
  have noMark := plain _ (List.mem_of_getElem? byte)
  cases kind <;> cases noMark

theorem Blames.mark {b : UInt8} {stack' : List UInt8} {error : ParseError}
    (plain : IsPlain gap) (structural : isStructural b = true)
    (next : Reading.brackets (some stack) b = some stack')
    (room : ∀ kind : Kind, b = kind.opener → stack.length < limit)
    (blames : Blames limit ⟨false, false, some stack'⟩ (front ++ (gap ++ [b])) text error) :
    Blames limit ⟨false, false, some stack⟩ front (gap ++ b :: text) error := by
  obtain ⟨run, marks, -⟩ := @Reading.run_mark (some stack) _ b plain structural 0 []
  have split : gap ++ b :: text = (gap ++ [b]) ++ text := by simp
  rw [split]
  rw [next] at run
  refine blames.prepend (fun k opens => ?_) run
  obtain ⟨member, kind, byte⟩ := opensAt_iff_mem_marks.1 opens
  obtain rfl : k = gap.length := by simpa [marks, Reading.marks] using member
  have opener : b = kind.opener := by simpa using byte
  rw [List.take_left, Reading.run_plain plain]
  exact room kind opener

/-- A string behind a gap: its marks are quotation marks. -/
theorem Blames.string {error : ParseError} (plain : IsPlain gap) (inert : IsInert body)
    (blames : Blames limit ⟨false, false, some stack⟩
      (front ++ (gap ++ 0x22 :: (body ++ [0x22]))) text error) :
    Blames limit ⟨false, false, some stack⟩ front (gap ++ 0x22 :: (body ++ 0x22 :: text))
      error := by
  obtain ⟨run, marks, signs⟩ := @Reading.run_string (some stack) _ _ plain inert 0 []
  have split : gap ++ 0x22 :: (body ++ 0x22 :: text) =
      (gap ++ 0x22 :: (body ++ [0x22])) ++ text := by simp
  rw [split]
  refine blames.prepend (fun k opens => ?_) run
  obtain ⟨member, kind, byte⟩ := opensAt_iff_mem_marks.1 opens
  have quote : (gap ++ 0x22 :: (body ++ [0x22]))[k]? = some 0x22 := by
    have places : k = gap.length ∨ k = gap.length + 1 + body.length := by
      simpa [marks, Reading.marks] using member
    rcases places with rfl | rfl
    · exact getElem?_at rfl
    · have closing : gap ++ 0x22 :: (body ++ [0x22]) = (gap ++ 0x22 :: body) ++ [0x22] := by
        simp
      rw [closing]
      exact getElem?_at (by simp only [List.length_append, List.length_cons]; omega)
  rw [quote] at byte
  cases kind <;> cases byte

/-- An opening bracket behind a gap, with as many brackets open as the limit allows. -/
theorem blames_opener {kind : Kind} (plain : IsPlain gap) (full : stack.length = limit) :
    Blames limit ⟨false, false, some stack⟩ front (gap ++ kind.opener :: text)
      ⟨.nestingTooDeep, front.length + gap.length⟩ := by
  refine fun _ => ⟨gap.length, rfl, ?_, ⟨stack, ?_, full⟩, fun j before opens => ?_⟩
  · rw [OpensAt, List.take_left, Reading.run_plain plain]
    exact ⟨rfl, kind, getElem?_at rfl⟩
  · rw [List.take_left, Reading.run_plain plain]
  · exact absurd ((opensAt_append_left before).1 opens) (not_opensAt_plain plain)

theorem marks_mark {b : UInt8} {stack' : List UInt8} (plain : IsPlain gap)
    (structural : isStructural b = true)
    (next : Reading.brackets (some stack) b = some stack') :
    Reading.marks ⟨false, false, some stack⟩ front.length (gap ++ b :: text) =
      (front.length + gap.length) ::
        Reading.marks ⟨false, false, some stack'⟩ (front ++ (gap ++ [b])).length text := by
  rw [(@Reading.run_mark (some stack) _ b plain structural front.length text).2.1, next]
  simp only [List.length_append, List.length_singleton, Nat.add_assoc]

theorem marks_string (plain : IsPlain gap) (inert : IsInert body) :
    Reading.marks ⟨false, false, some stack⟩ front.length
        (gap ++ 0x22 :: (body ++ 0x22 :: text)) =
      (front.length + gap.length) :: (front.length + gap.length + 1 + body.length) ::
        Reading.marks ⟨false, false, some stack⟩
          (front ++ (gap ++ 0x22 :: (body ++ [0x22]))).length text := by
  rw [(@Reading.run_string (some stack) _ _ plain inert front.length text).2.1]
  simp only [List.length_append, List.length_cons, List.length_nil]
  congr 3
  omega

end Pieces

/-! ## The two passes -/

section Passes

variable {buf front text : Bytes} {limit : Nat} {stack : List UInt8}

/-- The depth pass along the marks of a text. -/
theorem depthLoop_ends (whole : buf = front ++ text) (small : buf.length < u32Max)
    (matched : (Reading.run ⟨false, false, some stack⟩ text).opened ≠ none)
    (within : stack.length ≤ limit) :
    Ends (fun _ => True) (Blames limit ⟨false, false, some stack⟩ front text)
      (depthLoop buf limit stack.length
        (Reading.marks ⟨false, false, some stack⟩ front.length text ++ [u32Max])) := by
  induction text using outline_induction generalizing stack front with
  | plain gap plain =>
      rw [(Reading.marks_plain plain _).1]
      trivial
  | mark gap b rest plain structural ih =>
      have byte : buf[front.length + gap.length]? = some b := by
        rw [whole, ← List.append_assoc]
        exact getElem?_at (List.length_append ..).symm
      have tail : buf = (front ++ (gap ++ [b])) ++ rest := by simp [whole]
      rw [(@Reading.run_mark (some stack) _ b plain structural 0 rest).1] at matched
      rcases brackets_cases structural stack with
        ⟨kind, rfl, next⟩ | ⟨kind, below, rfl, rfl, next⟩ | ⟨separator, next⟩ | next
      · rw [next] at matched
        rw [marks_mark plain structural next, List.cons_append]
        by_cases room : stack.length + 1 ≤ limit
        · rw [depthLoop_open small byte room]
          exact (ih tail matched room).mono (fun _ _ => trivial) fun _ blames =>
            blames.mark plain structural next fun _ _ => room
        · rw [depthLoop_deep small byte (Nat.not_le.1 room)]
          exact blames_opener plain (by omega)
      · rw [next] at matched
        rw [marks_mark plain structural next, List.cons_append, List.length_cons,
          depthLoop_close small byte]
        rw [List.length_cons] at within
        refine (ih tail matched (by omega)).mono (fun _ _ => trivial) fun _ blames =>
          blames.mark plain structural next fun kind' same => ?_
        cases kind <;> cases kind' <;> cases same
      · rw [next] at matched
        rw [marks_mark plain structural next, List.cons_append,
          depthLoop_skip small byte (.inr separator.symm)]
        refine (ih tail matched within).mono (fun _ _ => trivial) fun _ blames =>
          blames.mark plain structural next fun kind same => ?_
        rcases separator with rfl | rfl <;> cases kind <;> cases same
      · rw [next] at matched
        exact absurd (Reading.run_none _ rfl rest) matched
  | string gap body rest plain inert ih =>
      have opening : buf[front.length + gap.length]? = some 0x22 := by
        rw [whole, ← List.append_assoc]
        exact getElem?_at (List.length_append ..).symm
      have closing : buf[front.length + gap.length + 1 + body.length]? = some 0x22 := by
        have split : buf = (front ++ (gap ++ 0x22 :: body)) ++ 0x22 :: rest := by simp [whole]
        rw [split]
        refine getElem?_at ?_
        simp only [List.length_append, List.length_cons]
        omega
      have tail : buf = (front ++ (gap ++ 0x22 :: (body ++ [0x22]))) ++ rest := by
        simp [whole]
      rw [(@Reading.run_string (some stack) _ _ plain inert 0 rest).1] at matched
      rw [marks_string plain inert, List.cons_append, List.cons_append,
        depthLoop_skip small opening (.inl rfl), depthLoop_skip small closing (.inl rfl)]
      exact (ih tail matched within).mono (fun _ _ => trivial) fun _ blames =>
        blames.string plain inert
  | unclosed gap body plain unclosed =>
      have opening : buf[front.length + gap.length]? = some 0x22 := by
        rw [whole, ← List.append_assoc]
        exact getElem?_at (List.length_append ..).symm
      rw [Reading.marks_open plain unclosed, List.cons_append,
        depthLoop_skip small opening (.inl rfl)]
      trivial

/-- A step that fails with errors of the grammar only. -/
theorem blames_of_ends {α : Type} {good : α → Prop} {r : Reading}
    {outcome : Rust ParseError α} (ends : Ends good Ordinary outcome) :
    Ends good (Blames limit r front text) outcome :=
  ends.mono (fun _ holds => holds) fun _ => blames_of_ordinary

/-- The step at an opening bracket, with one more frame than open brackets. -/
theorem onOpener_blames {gap rest : Bytes} {kind : Kind} {frames : Frames}
    (plain : IsPlain gap) (within : stack.length ≤ limit)
    (tall : frames.length = stack.length + 1) :
    Ends (fun next => next.length = stack.length + 2 ∧ stack.length < limit)
      (Blames limit ⟨false, false, some stack⟩ front (gap ++ kind.opener :: rest))
      (onOpener frameOps limit kind (front.length + gap.length) frames) := by
  refine (onOpener_ends kind (front.length + gap.length)).mono (fun next added => ?_)
    fun error fair nesting => ?_
  · exact ⟨by omega, by omega⟩
  · obtain ⟨offset, full⟩ := fair.2 nesting
    rw [offset]
    exact blames_opener plain (by omega) rfl

/-- The eager pass along the marks of a text, with one more frame than open brackets. -/
theorem eagerFrom_blames {validate : Bytes → Rust QjsonErr Unit}
    (validator : IsStringValidator validate) (whole : buf = front ++ text)
    (small : buf.length < u32Max)
    (matched : (Reading.run ⟨false, false, some stack⟩ text).opened ≠ none)
    (within : stack.length ≤ limit) {prevEnd : Nat} {frames : Frames}
    (tall : frames.length = stack.length + 1) :
    Ends (fun _ => True) (Blames limit ⟨false, false, some stack⟩ front text)
      (eagerFrom frameOps validate buf limit
        (Reading.marks ⟨false, false, some stack⟩ front.length text ++ [u32Max]) prevEnd
        frames) := by
  induction text using outline_induction generalizing stack front prevEnd frames with
  | plain gap plain =>
      rw [(Reading.marks_plain plain _).1, List.nil_append, eagerFrom_sentinel]
      exact blames_of_ends eagerFinish_ends
  | mark gap b rest plain structural ih =>
      have byte : buf[front.length + gap.length]? = some b := by
        rw [whole, ← List.append_assoc]
        exact getElem?_at (List.length_append ..).symm
      have tail : buf = (front ++ (gap ++ [b])) ++ rest := by simp [whole]
      have real := ne_u32Max_of_getElem? small byte
      rw [(@Reading.run_mark (some stack) _ b plain structural 0 rest).1] at matched
      rcases brackets_cases structural stack with
        ⟨kind, rfl, next⟩ | ⟨kind, below, rfl, rfl, next⟩ | ⟨separator, next⟩ | next
      · rw [next] at matched
        rw [marks_mark plain structural next, List.cons_append,
          eagerFrom_structural _ _ _ _ real byte (isStructural_ne_quote structural)]
        refine (blames_of_ends (consumeGap_ends _ _)).bind fun frames' same => ?_
        rw [onStructural_opener]
        refine (onOpener_blames plain within (same.trans tall)).bind fun frames'' added => ?_
        exact (ih tail matched added.2 added.1).mono (fun _ _ => trivial) fun _ blames =>
          blames.mark plain structural next fun _ _ => added.2
      · rw [next] at matched
        rw [marks_mark plain structural next, List.cons_append,
          eagerFrom_structural _ _ _ _ real byte (isStructural_ne_quote structural)]
        refine (blames_of_ends (consumeGap_ends _ _)).bind fun frames' same => ?_
        rw [onStructural_closer]
        rw [List.length_cons] at within tall
        refine (blames_of_ends (onCloser_ends kind _)).bind fun frames'' removed => ?_
        refine (ih tail matched (by omega) (by omega)).mono (fun _ _ => trivial)
          fun _ blames => blames.mark plain structural next fun kind' same => ?_
        cases kind <;> cases kind' <;> cases same
      · rw [next] at matched
        rw [marks_mark plain structural next, List.cons_append,
          eagerFrom_structural _ _ _ _ real byte (isStructural_ne_quote structural)]
        refine (blames_of_ends (consumeGap_ends _ _)).bind fun frames' same => ?_
        refine (blames_of_ends (onStructural_separator_ends separator _)).bind
          fun frames'' same' => ?_
        refine (ih tail matched within (by omega)).mono (fun _ _ => trivial)
          fun _ blames => blames.mark plain structural next fun kind same => ?_
        rcases separator with rfl | rfl <;> cases kind <;> cases same
      · rw [next] at matched
        exact absurd (Reading.run_none _ rfl rest) matched
  | string gap body rest plain inert ih =>
      have opening : buf[front.length + gap.length]? = some 0x22 := by
        rw [whole, ← List.append_assoc]
        exact getElem?_at (List.length_append ..).symm
      have tail : buf = (front ++ (gap ++ 0x22 :: (body ++ [0x22]))) ++ rest := by
        simp [whole]
      rw [(@Reading.run_string (some stack) _ _ plain inert 0 rest).1] at matched
      rw [marks_string plain inert, List.cons_append, List.cons_append,
        eagerFrom_quote _ _ _ _ (ne_u32Max_of_getElem? small opening) opening]
      refine (blames_of_ends (consumeGap_ends _ _)).bind fun frames' same => ?_
      refine (blames_of_ends (onString_ends validator _ _)).bind fun frames'' same' => ?_
      exact (ih tail matched within (by omega)).mono (fun _ _ => trivial) fun _ blames =>
        blames.string plain inert
  | unclosed gap body plain unclosed =>
      have opening : buf[front.length + gap.length]? = some 0x22 := by
        rw [whole, ← List.append_assoc]
        exact getElem?_at (List.length_append ..).symm
      rw [Reading.marks_open plain unclosed, List.cons_append, List.nil_append,
        eagerFrom_quote _ _ _ _ (ne_u32Max_of_getElem? small opening) opening]
      refine (blames_of_ends (consumeGap_ends _ _)).bind fun frames' _ => ?_
      refine (blames_of_ends (onString_ends validator _ _)).bind fun frames'' _ => ?_
      rw [eagerFrom_nil]
      exact blames_of_ends eagerFinish_ends

end Passes

/-! ## Parsing -/

section Parsing

variable {buf : Bytes} {opts : Options}

section

variable (scanner : ScanPath) (calm : scanner = .scalar ∨ ¬ HasStrayQuote buf)
include calm

/-- The error of a parse, without stray quotes. -/
theorem parse_blames {strings : StringPath} (small : buf.length < u32Max) {error : ParseError}
    (failed : parseWithOptionsDetailed (dispatch scanner strings) buf opts =
      .error (.err error)) :
    Blames opts.effectiveMaxDepth outset [] buf error := by
  have width : buf.length < 2 ^ 32 := small.trans (by decide)
  cases origin_of_parse failed with
  | blank => exact blames_of_ordinary (ordinary_parseError _)
  | scan _ => exact blames_of_ordinary (ordinary_parseError _)
  | trailing _ _ refused =>
      intro nesting
      have trailing := validateTrailing_code refused
      rw [nesting] at trailing
      cases trailing
  | eager _ handed refused =>
      obtain ⟨matched, marks⟩ := marks_of_handsOver scanner width calm handed
      have out : ((dispatch scanner strings).scan buf).out = outset.marks 0 buf := marks
      rw [out, validateEagerValues_eq] at refused
      exact (@eagerFrom_blames buf [] buf _ [] _ strings.isStringValidator rfl small matched
        (Nat.zero_le _) 0 [.top] rfl).of_err refused
  | depth _ handed refused =>
      obtain ⟨matched, marks⟩ := marks_of_handsOver scanner width calm handed
      have out : ((dispatch scanner strings).scan buf).out = outset.marks 0 buf := marks
      rw [out] at refused
      exact (@depthLoop_ends buf [] buf _ [] rfl small matched (Nat.zero_le _)).of_err refused

/-- What lazy parsing accepts is not nested too deep, without stray quotes. -/
theorem nesting_of_lazy {strings : StringPath} (small : buf.length < u32Max)
    (lazy : opts.isEager = false) {doc : Document}
    (accepted : parseWithOptions (dispatch scanner strings) buf opts = .ok doc) :
    nesting buf ≤ opts.effectiveMaxDepth := by
  obtain ⟨-, scanned, shallow, -⟩ := (lazy_ok_iff lazy doc).1 accepted
  have handed : HandsOver (dispatch scanner strings) buf := .inl scanned
  obtain ⟨matched, marks⟩ :=
    marks_of_handsOver scanner (small.trans (by decide)) calm handed
  have out : ((dispatch scanner strings).scan buf).out = outset.marks 0 buf := marks
  rw [out] at shallow
  exact (@depthLoop_marks buf [] buf _ outset [] rfl small rfl matched (Nat.zero_le _)).1
    shallow

end

/-- The depth limit is exact in both modes: an accepted document never has more brackets
open at once, and a document refused for its nesting is refused at the first opening bracket
at which that many are open. -/
theorem depth_limit_exact (strings : StringPath) (buf : Bytes) (opts : Options)
    (small : buf.length < 2 ^ 32 - 1) :
    (∀ doc, parseWithOptionsDetailed (dispatch .scalar strings) buf opts = .ok doc →
      nesting buf ≤ opts.effectiveMaxDepth) ∧
    ∀ o, parseWithOptionsDetailed (dispatch .scalar strings) buf opts =
        .error (.err ⟨.nestingTooDeep, o⟩) →
      TooDeep opts.effectiveMaxDepth outset buf o := by
  constructor
  · intro doc accepted
    have accepted := parseWithOptions_ok_iff.2 accepted
    cases eager : opts.isEager with
    | false => exact nesting_of_lazy .scalar (.inl rfl) small eager accepted
    | true =>
        have lazy : (⟨modeLazy, opts.maxDepth⟩ : Options).isEager = false := rfl
        exact @nesting_of_lazy buf ⟨modeLazy, opts.maxDepth⟩ .scalar (.inl rfl) strings small lazy _
          (lazy_of_eager .scalar strings small eager lazy rfl accepted)
  · intro o failed
    obtain ⟨k, offset, deep⟩ := parse_blames .scalar (.inl rfl) small failed rfl
    obtain rfl : o = k := offset.trans (Nat.zero_add k)
    exact deep

/-- `[[` and `["[",[]` with room for one bracket. -/
theorem depth_limit_exact_unclosed :
    TooDeep 1 outset [0x5B, 0x5B] 1 ∧
      TooDeep 1 outset [0x5B, 0x22, 0x5B, 0x22, 0x2C, 0x5B, 0x5D] 5 :=
  ⟨(depth_limit_exact .scalar [0x5B, 0x5B] ⟨modeLazy, 1⟩ (by decide)).2 1 (by decide +kernel),
    (depth_limit_exact .scalar [0x5B, 0x22, 0x5B, 0x22, 0x2C, 0x5B, 0x5D] ⟨modeEager, 1⟩
      (by decide)).2 5 (by decide +kernel)⟩

end Parsing

end QJson.Doc

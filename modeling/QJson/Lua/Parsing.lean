import QJson.Doc.Depth
import QJson.Doc.Located
import QJson.Lua.Messages

/-!
# What `qjson.parse` raises

The function checks its options, hands the text to the library, and raises a message when there
is no document.  The wrapper computes the nesting limit for the message from the number that it
was given; the library gets that number as a `uint32_t` and enforces what it makes of it.
-/

namespace QJson.Lua

open Rfc8259 Scan Validate Doc Ffi Bits

/-! ## The function -/

/-- A field of the options: not there, with a value that is meant for it, or with another
one. -/
inductive Field (α : Type) where
  | absent
  | value (value : α)
  | other
  deriving DecidableEq, Repr

/-- The numbers that are not negative and are their own `math.floor`; `math.huge` is one. -/
inductive Depth where
  | whole (n : Nat)
  | huge
  deriving DecidableEq, Repr

/-- The numbers that a `uint32_t` holds. -/
def Depth.Narrow (depth : Depth) : Prop := ∃ n < 2 ^ 32, depth = .whole n

/-- The options of `qjson.parse`.  A `max_depth` that is not there may be `false` too. -/
structure ParseOpts where
  lazy : Field Bool
  maxDepth : Field Depth
  deriving DecidableEq, Repr

/-- `opts.max_depth or 0` -/
def Field.orZero : Field Depth → Depth
  | .value depth => depth
  | _ => .whole 0

/-- `effective_max_depth`. -/
def effectiveMaxDepth : Depth → Nat
  | .whole raw =>
      if raw = 0 then defaultMaxDepth
      else if raw > maxMaxDepth then maxMaxDepth
      else raw
  | .huge => maxMaxDepth

/-- What the library leaves in `err_box` when there is no document. -/
def parseEx (cpu : Dispatch) (buf : Bytes) (opts : Options) : Except ParseError Document :=
  match parseWithOptionsDetailed cpu buf opts with
  | .ok doc => .ok doc
  | .error (.err error) => .error error
  | .error .panic => .error (ParseError.noOffset .oom)

/-- `parse_error_message`. -/
def parseErrorMessage (error : ParseError) (buf : Bytes) (maxDepth : Nat) : Bytes :=
  formatErrorText (codeNumber error.code) error.offset
    (if error.code = .nestingTooDeep then some maxDepth else none) (some buf)

/-- The text that is raised for an error of the library. -/
def raiseParse (buf : Bytes) (maxDepth : Nat) : Except ParseError Document → Except Bytes Document
  | .ok doc => .ok doc
  | .error error => .error (literal "qjson: " ++ parseErrorMessage error buf maxDepth)

/-- What the checks of the options make of them: the limit for the message, and what is handed
to the library. -/
def ParseOpts.check (toUint32 : Depth → UInt32) (opts : ParseOpts) :
    Except Bytes (Nat × Options) :=
  if opts.lazy = .other then .error (literal "qjson.parse: opts.lazy must be a boolean")
  else if opts.maxDepth = .other then
    .error (literal "qjson.parse: opts.max_depth must be a non-negative integer")
  else
    let maxDepth := opts.maxDepth.orZero
    .ok (effectiveMaxDepth maxDepth,
      ⟨if opts.lazy = .value true then modeLazy else modeEager, (toUint32 maxDepth).toNat⟩)

/-- `qjson.parse`; the options are `nil`, not a table, or a table.  `toUint32` is the conversion
of a number for a field of a C struct.  The position in the Lua source that `error` puts in front
of a message is left out. -/
def parse (cpu : Dispatch) (toUint32 : Depth → UInt32) (buf : Bytes) :
    Field ParseOpts → Except Bytes Document
  | .absent => raiseParse buf defaultMaxDepth (parseEx cpu buf Options.default)
  | .other => .error (literal "qjson.parse: opts must be a table")
  | .value opts => do
      let (effectiveDepth, opts) ← opts.check toUint32
      raiseParse buf effectiveDepth (parseEx cpu buf opts)

/-! ## Two limits -/

/-- The number that the limits are computed from. -/
def depthOf : Field ParseOpts → Depth
  | .value opts => opts.maxDepth.orZero
  | .absent | .other => .whole 0

/-- The limit that a message speaks of. -/
def shownLimit (opts : Field ParseOpts) : Nat := effectiveMaxDepth (depthOf opts)

/-- The limit that the library enforces. -/
def enforcedLimit (toUint32 : Depth → UInt32) (opts : Field ParseOpts) : Nat :=
  (⟨modeEager, (toUint32 (depthOf opts)).toNat⟩ : Options).effectiveMaxDepth

section Limits

variable {toUint32 : Depth → UInt32} {opts : Field ParseOpts}

theorem effectiveMaxDepth_eq (opts : Options) :
    effectiveMaxDepth (.whole opts.maxDepth) = opts.effectiveMaxDepth := by
  rw [effectiveMaxDepth, Options.effectiveMaxDepth, defaultMaxDepth, maxMaxDepth]
  split
  · rfl
  · split <;> omega

theorem effectiveMaxDepth_wide {depth : Depth} (wide : ¬ depth.Narrow) :
    effectiveMaxDepth depth = maxMaxDepth := by
  cases depth with
  | huge => rfl
  | whole n =>
      have large : 2 ^ 32 ≤ n := Nat.not_lt.1 fun small => wide ⟨n, small, rfl⟩
      rw [effectiveMaxDepth, maxMaxDepth, if_neg (by omega), if_pos (by omega)]

/-- The limits are the same unless a number that no `uint32_t` holds becomes one below the
ceiling. -/
theorem shownLimit_eq_iff (keeps : ∀ n < 2 ^ 32, (toUint32 (.whole n)).toNat = n) :
    shownLimit opts = enforcedLimit toUint32 opts ↔
      (depthOf opts).Narrow ∨ maxMaxDepth ≤ (toUint32 (depthOf opts)).toNat := by
  rw [shownLimit, enforcedLimit]
  generalize depthOf opts = depth
  by_cases narrow : depth.Narrow
  · refine iff_of_true ?_ (.inl narrow)
    obtain ⟨n, small, rfl⟩ := narrow
    rw [← effectiveMaxDepth_eq]
    exact congrArg (fun n => effectiveMaxDepth (.whole n)) (keeps n small).symm
  · rw [or_iff_right narrow, effectiveMaxDepth_wide narrow, ← effectiveMaxDepth_eq,
      effectiveMaxDepth, defaultMaxDepth, maxMaxDepth]
    dsimp only
    split
    · omega
    · split <;> omega

end Limits

/-! ## Its messages -/

/-- The position in a message. -/
def atByte (offset : Nat) : Bytes := literal " at byte " ++ indexText offset

/-- What `qjson.parse` may raise for a text, given the limit that is shown and the one that is
enforced, with what it says. -/
inductive ParseText (scanner : ScanPath) (buf : Bytes) (limit enforced : Nat) :
    Bytes → Prop where
  | blank : buf.all isWs = true →
      ParseText scanner buf limit enforced (literal "qjson: parse error")
  | ended :
      ParseText scanner buf limit enforced (literal "qjson: parse error" ++ atByte buf.length)
  | unexpected {offset : Nat} {b : UInt8} : buf[offset]? = some b →
      ParseText scanner buf limit enforced (literal "qjson: parse error" ++ (atByte offset ++
        (literal ": unexpected " ++ (escapeUnexpectedChar b ++
          if b = 0x7D ∨ b = 0x5D ∨ b = 0x2C then literal ", expected value" else []))))
  | number {offset : Nat} {b : UInt8} {word rest : Bytes} :
      buf.drop offset = b :: (word ++ rest) → beginsNumber b = true →
      validateNumber (b :: word) = .error .invalidNumber →
      (∀ c ∈ rest.head?, endsWord c = true) →
      ParseText scanner buf limit enforced (literal "qjson: invalid number '" ++
        (escapeSnippet (snippetBytes buf offset) ++ (literal "'" ++ atByte offset)))
  | control {offset : Nat} {span rest : Bytes} :
      buf.drop offset = 0x22 :: (span ++ 0x22 :: rest) →
      validateSpanScalar span = .error .invalidString →
      ParseText scanner buf limit enforced
        (literal "qjson: invalid string content" ++ atByte offset)
  | utf8 {offset : Nat} {span rest : Bytes} :
      buf.drop offset = 0x22 :: (span ++ 0x22 :: rest) →
      validateSpanScalar span = .error .invalidUtf8 →
      ParseText scanner buf limit enforced
        (literal "qjson: invalid UTF-8 in string" ++ atByte offset)
  | nesting {offset : Nat} {kind : Kind} : buf[offset]? = some kind.opener →
      (scanner = .scalar ∨ ¬ HasStrayQuote buf → TooDeep enforced outset buf offset) →
      ParseText scanner buf limit enforced (literal "qjson: nesting too deep" ++
        (atByte offset ++ (literal " (max " ++ (indexText limit ++ literal ")"))))
  | trailing {offset : Nat} {b : UInt8} : buf[offset]? = some b → isWs b = false →
      ParseText scanner buf limit enforced (literal "qjson: trailing content '" ++
        (escapeSnippet (snippetBytes buf offset) ++
          (literal "' after root value" ++ atByte offset)))
  | memory : ParseText scanner buf limit enforced (literal "qjson: out of memory")

/-- What is raised about the options alone. -/
inductive OptsText : Field ParseOpts → Bytes → Prop where
  | table : OptsText .other (literal "qjson.parse: opts must be a table")
  | lazy {maxDepth : Field Depth} : OptsText (.value ⟨.other, maxDepth⟩)
      (literal "qjson.parse: opts.lazy must be a boolean")
  | maxDepth {lazy : Field Bool} : lazy ≠ .other → OptsText (.value ⟨lazy, .other⟩)
      (literal "qjson.parse: opts.max_depth must be a non-negative integer")

section Texts

variable {buf : Bytes} {scanner : ScanPath} {limit enforced offset : Nat}

theorem quoted_text (inside : offset < buf.length) (fits : buf.length ≤ noOffset)
    (plain before behind : Bytes) :
    literal "qjson: " ++ pushOffset (if snippetFromOffset buf offset = [] then plain
      else before ++ (snippetFromOffset buf offset ++ behind)) offset =
      literal "qjson: " ++ (before ++ (escapeSnippet (snippetBytes buf offset) ++
        (behind ++ atByte offset))) := by
  rw [pushOffset_snippet inside fits, atByte, List.append_assoc, List.append_assoc]

theorem lt_of_drop {b : UInt8} {rest : Bytes} (here : buf.drop offset = b :: rest) :
    offset < buf.length := by
  by_contra outside
  rw [List.drop_eq_nil_of_le (Nat.not_lt.1 outside)] at here
  cases here

theorem parseText_of_speaks {error : ParseError} (small : buf.length < u32Max)
    (speaks : Speaks buf error)
    (blames : scanner = .scalar ∨ ¬ HasStrayQuote buf →
      Doc.Blames enforced outset [] buf error) :
    ParseText scanner buf limit enforced
      (literal "qjson: " ++ parseErrorMessage error buf limit) := by
  have fits : buf.length ≤ noOffset := (Nat.le_of_lt small).trans (by decide)
  have located {offset : Nat} (inside : offset < buf.length) : offset ≠ noOffset :=
    Nat.ne_of_lt (Nat.lt_of_lt_of_le inside fits)
  rw [parseErrorMessage, formatErrorText_eq, messageOf, errFromI32_codeNumber]
  cases speaks with
  | blank blank => exact .blank blank
  | @unexpected offset inside =>
      rcases Nat.lt_or_eq_of_le inside with within | rfl
      · dsimp only
        rw [formatError_parseError within fits]
        exact .unexpected (List.getElem?_eq_getElem within)
      · have end_ : buf.length ≠ noOffset := Nat.ne_of_lt (small.trans (by decide))
        simp only [formatError, if_pos end_, List.getElem?_length]
        exact .ended
  | @number offset b word rest here begins number ends =>
      have text := quoted_text (lt_of_drop here) fits (literal "invalid number")
        (literal "invalid number '") (literal "'")
      exact text ▸ .number here begins number ends
  | @string offset span rest code here failed =>
      have refused : StringPath.scalar.validate span = .error (.err code) := by
        change toRust (validateSpanScalar span) = _
        rw [failed]
        rfl
      have set_ := located (lt_of_drop here)
      rcases (StringPath.scalar.isStringValidator.error span).of_err refused with rfl | rfl
      · simp only [formatError, pushOffset, if_pos set_]
        exact .utf8 here failed
      · simp only [formatError, pushOffset, if_pos set_]
        exact .control here failed
  | @nesting offset _ byte =>
      simp only [formatError, if_neg (located (List.getElem?_eq_some_iff.1 byte).1), if_true]
      refine .nesting byte fun calm => ?_
      obtain ⟨k, at_, deep⟩ := blames calm rfl
      obtain rfl : offset = k := at_.trans (Nat.zero_add k)
      exact deep
  | @trailing offset b byte ink =>
      have text := quoted_text (List.getElem?_eq_some_iff.1 byte).1 fits
        (literal "trailing content after root value") (literal "trailing content '")
        (literal "' after root value")
      exact text ▸ .trailing byte ink

end Texts

/-- Whatever `qjson.parse` raises, for whatever text and options, is about the options or about
the text; then it is one of the messages of `ParseText`.  The limit that it speaks of is the one
that the library enforces unless the number does not fit in a `uint32_t`. -/
theorem parse_raises (scanner : ScanPath) (strings : StringPath) (toUint32 : Depth → UInt32)
    (keeps : ∀ n < 2 ^ 32, (toUint32 (.whole n)).toNat = n) (buf : Bytes)
    (opts : Field ParseOpts) (small : buf.length < 2 ^ 32 - 1) :
    (∀ text, parse (dispatch scanner strings) toUint32 buf opts = .error text →
      OptsText opts text ∨
        ParseText scanner buf (shownLimit opts) (enforcedLimit toUint32 opts) text) ∧
    (shownLimit opts = enforcedLimit toUint32 opts ↔
      (depthOf opts).Narrow ∨ maxMaxDepth ≤ (toUint32 (depthOf opts)).toNat) := by
  refine ⟨fun text raised => ?_, shownLimit_eq_iff keeps⟩
  have said (options : Options) (limit : Nat)
      (raised : raiseParse buf limit (parseEx (dispatch scanner strings) buf options) =
        .error text) : ParseText scanner buf limit options.effectiveMaxDepth text := by
    rw [parseEx] at raised
    split at raised
    · cases raised
    · rename_i error failed
      cases raised
      exact parseText_of_speaks small ((parse_speaks scanner strings options small).of_err failed)
        fun calm => parse_blames scanner calm small failed
    · cases raised
      exact .memory
  cases opts with
  | absent =>
      rw [enforcedLimit, depthOf, keeps 0 (by decide)]
      exact .inr (said _ _ raised)
  | other =>
      cases raised
      exact .inl .table
  | value opts =>
      obtain ⟨lazy, maxDepth⟩ := opts
      rw [parse, ParseOpts.check] at raised
      by_cases refused : lazy = .other
      · subst refused
        cases raised
        exact .inl .lazy
      · rw [if_neg refused] at raised
        by_cases refused' : maxDepth = .other
        · subst refused'
          cases raised
          exact .inl (.maxDepth refused)
        · rw [if_neg refused'] at raised
          let options : Options :=
            ⟨if lazy = .value true then modeLazy else modeEager, (toUint32 maxDepth.orZero).toNat⟩
          exact .inr (said options (effectiveMaxDepth maxDepth.orZero) raised)

/-- The conversion of a number below `2 ^ 63` keeps its lower bits. -/
def lowBits : Depth → UInt32
  | .whole n => if n < 2 ^ 63 then .ofNat n else 0
  | .huge => 0

theorem lowBits_keeps : ∀ n < 2 ^ 32, (lowBits (.whole n)).toNat = n := by
  intro n small
  rw [lowBits, if_pos (by omega)]
  exact Nat.mod_eq_of_lt small

/-- `[[]]` with `max_depth = 2 ^ 32 + 1`: the library has room for one bracket, and the message
speaks of 4096. -/
theorem parse_raises_wide :
    (OptsText (.value ⟨.absent, .value (.whole (2 ^ 32 + 1))⟩)
        (literal "qjson: nesting too deep at byte 1 (max 4096)") ∨
      ParseText .scalar [0x5B, 0x5B, 0x5D, 0x5D] 4096 1
        (literal "qjson: nesting too deep at byte 1 (max 4096)")) ∧
    ¬ (Depth.Narrow (.whole (2 ^ 32 + 1)) ∨ maxMaxDepth ≤ (1 : UInt32).toNat) := by
  obtain ⟨raises, limits⟩ := parse_raises .scalar .scalar lowBits lowBits_keeps
    [0x5B, 0x5B, 0x5D, 0x5D] (.value ⟨.absent, .value (.whole (2 ^ 32 + 1))⟩) (by decide)
  exact ⟨raises _ (by decide +kernel), mt limits.2 (by decide +kernel)⟩

end QJson.Lua

import QJson.Ffi.Messages
import QJson.Ffi.Offsets
import QJson.Lua.Cursors

/-!
# What the Lua wrapper raises

`format_error`, `check_access` and the methods behind it in `src/lua/qjson.lua`.  The wrapper
asks for the length of a message first and for its text then, and gets it whole.  What a method
raises tells where the call failed and, for a mismatch, what is there.
-/

namespace QJson.Lua

open Rfc8259 Validate Doc Decode Ffi

/-! ## Texts -/

/-- The number of a code. -/
def codeNumber : QjsonErr → Int
  | .ok => 0
  | .parseError => 1
  | .notFound => 2
  | .typeMismatch => 3
  | .outOfRange => 4
  | .decodeFailed => 5
  | .invalidPath => 6
  | .invalidArg => 7
  | .oom => 8
  | .nestingTooDeep => 9
  | .trailingContent => 10
  | .numberOutOfRange => 11
  | .invalidNumber => 12
  | .invalidString => 13
  | .invalidUtf8 => 14

/-- The number of a type. -/
def typeNumber : QjsonType → Nat
  | .null => 0
  | .bool => 1
  | .num => 2
  | .str => 3
  | .arr => 4
  | .obj => 5

/-- What the methods pass to `check_access`. -/
def Expected.extra : Expected → Nat
  | .type value => typeNumber value
  | .container => expectContainer

/-- `extra_or_none`. -/
def extraOrNone (extra : Option Nat) : Nat := extra.getD noOffset

/-- `format_error`. -/
def formatErrorText (code : Int) (offset : Nat) (extra : Option Nat) (buf : Option Bytes) :
    Bytes :=
  let input := buf.getD []
  let extra := extraOrNone extra
  let needed := (qjsonFormatError code offset extra input none 0).1
  let out := List.replicate (needed + 1) 0
  let written := qjsonFormatError code offset extra input (some out) (needed + 1)
  (written.2.getD []).take written.1

/-- What `check_access` raises, without the position in the Lua source that `error` puts in
front of it. -/
def accessMessage (buf : Bytes) (code : QjsonErr) (offset : Nat) (expected : Option Expected) :
    Bytes :=
  literal "qjson: " ++ formatErrorText (codeNumber code) offset (expected.map Expected.extra)
    (some buf)

/-- The document whose error offset a method looks at. -/
def Module.docOf (m : Module) : Method → Option Nat
  | .docGet doc _ _ | .docIsNull doc _ => some doc
  | .cursorGet slot _ _ | .cursorField slot _ | .cursorIndex slot _ =>
      (m.cursors[slot]?).map CursorObject.doc

/-- The text of the error that a method raises, if it raises one, without its position in the
Lua source. -/
def Module.raises {F : Type} (host : Host F) (docs : List Document) (m : Module)
    (method : Method) : Option Bytes :=
  match (m.docOf method).bind fun d => docs[d]?, m.step host docs method with
  | some doc, some (.error code offset expected, _) =>
      some (accessMessage doc.buf code offset expected)
  | _, _ => none

/-! ## Both calls together -/

section Texts

variable {code : Int} {offset extra : Nat} {buf memory : Bytes} {outLen : Nat}

@[simp] theorem errFromI32_codeNumber (code : QjsonErr) :
    errFromI32 (codeNumber code) = some code := by
  cases code <;> rfl

@[simp] theorem typeOfCode_typeNumber (type : QjsonType) :
    typeOfCode (typeNumber type) = some type := by
  cases type <;> rfl

/-- Every message is a line of at most 145 bytes, of a known code or not. -/
theorem isLine_messageOf (small : offset < 2 ^ 64) (small' : extra < 2 ^ 64) :
    IsLine 145 (messageOf code offset extra buf) := by
  rw [messageOf]
  split
  · exact isLine_formatError _ buf small small'
  · decide

theorem qjsonFormatError_length (out : Option Bytes) :
    (qjsonFormatError code offset extra buf out outLen).1 =
      (messageOf code offset extra buf).length := by
  cases out with
  | none => rfl
  | some memory =>
      rw [qjsonFormatError]
      split <;> rfl

/-- Where there is room, the message and the byte behind it are written. -/
theorem qjsonFormatError_room (room : (messageOf code offset extra buf).length < outLen) :
    (qjsonFormatError code offset extra buf (some memory) outLen).2 =
      some (messageOf code offset extra buf ++
        0 :: memory.drop ((messageOf code offset extra buf).length + 1)) := by
  rw [qjsonFormatError]
  simp only [if_neg (Nat.not_le.2 room), overwrite, List.length_append, List.append_assoc]
  rfl

/-- The wrapper gets the whole message. -/
theorem formatErrorText_eq (code : Int) (offset : Nat) (extra : Option Nat) (buf : Bytes) :
    formatErrorText code offset extra (some buf) =
      messageOf code offset (extraOrNone extra) buf := by
  rw [formatErrorText]
  simp only [qjsonFormatError_length, Option.getD_some,
    qjsonFormatError_room (Nat.lt_succ_self _)]
  exact List.take_left

/-- A message is read back as a C string. -/
theorem takeWhile_message (small : offset < 2 ^ 64) (small' : extra < 2 ^ 64) (rest : Bytes) :
    (messageOf code offset extra buf ++ 0 :: rest).takeWhile (· ≠ 0) =
      messageOf code offset extra buf := by
  have shown := (@isLine_messageOf code offset extra buf small small').printable
  have plain : ∀ b ∈ messageOf code offset extra buf, decide (b ≠ 0) = true := by
    intro b member
    refine decide_eq_true fun zero => ?_
    subst zero
    exact absurd (shown 0 member) (by decide)
  rw [List.takeWhile_append_of_pos plain, List.takeWhile_cons_of_neg (by decide),
    List.append_nil]

end Texts

/-- `qjson_format_error` returns the length of the message, which is a line of at most 145
bytes, whatever it is given.  It writes nothing unless there is room for the whole message and
the byte behind it; the memory then is the message as a C string, and what was there behind it.
The wrapper, which asks for the length first, gets the whole message. -/
theorem format_error_protocol (code : Int) (offset extra : Nat) (buf : Bytes)
    (small : offset < 2 ^ 64) (small' : extra < 2 ^ 64) :
    IsLine 145 (messageOf code offset extra buf) ∧
    (∀ out outLen, (qjsonFormatError code offset extra buf out outLen).1 =
      (messageOf code offset extra buf).length) ∧
    (∀ outLen, (qjsonFormatError code offset extra buf none outLen).2 = none) ∧
    (∀ memory outLen, outLen ≤ memory.length →
      ∃ after, (qjsonFormatError code offset extra buf (some memory) outLen).2 = some after ∧
        after.length = memory.length ∧
        (outLen ≤ (messageOf code offset extra buf).length → after = memory) ∧
        ((messageOf code offset extra buf).length < outLen →
          after.takeWhile (· ≠ 0) = messageOf code offset extra buf ∧
          after.drop ((messageOf code offset extra buf).length + 1) =
            memory.drop ((messageOf code offset extra buf).length + 1))) ∧
    formatErrorText code offset (some extra) (some buf) = messageOf code offset extra buf := by
  refine ⟨isLine_messageOf small small', fun out outLen => qjsonFormatError_length out,
    fun _ => rfl, fun memory outLen fits => ?_, formatErrorText_eq code offset (some extra) buf⟩
  by_cases room : (messageOf code offset extra buf).length < outLen
  · refine ⟨_, qjsonFormatError_room room, ?_, fun short => absurd room (Nat.not_lt.2 short),
      fun _ => ⟨takeWhile_message small small' _, ?_⟩⟩
    · rw [List.length_append, List.length_cons, List.length_drop]
      omega
    · rw [List.drop_append, List.drop_of_length_le (Nat.le_succ _), Nat.add_sub_cancel_left]
      rfl
  · refine ⟨memory, ?_, rfl, fun _ => rfl, fun long => absurd long room⟩
    rw [qjsonFormatError]
    simp only [if_pos (Nat.not_lt.1 room)]

/-- `[}` -/
theorem format_error_protocol_closer :
    IsLine 145 (messageOf 1 1 0 [0x5B, 0x7D]) ∧
    (∀ out outLen, (qjsonFormatError 1 1 0 [0x5B, 0x7D] out outLen).1 =
      (messageOf 1 1 0 [0x5B, 0x7D]).length) ∧
    formatErrorText 1 1 (some 0) (some [0x5B, 0x7D]) =
      literal "parse error at byte 1: unexpected '\x7d', expected value" := by
  obtain ⟨line, length, -, -, whole⟩ :=
    format_error_protocol 1 1 0 [0x5B, 0x7D] (by decide) (by decide)
  exact ⟨line, length, whole.trans (by decide +kernel)⟩

end QJson.Lua

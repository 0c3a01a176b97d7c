import Mathlib.Data.Nat.Digits.Lemmas
import QJson.Bits.Mask
import QJson.Doc.Segments
import QJson.Source.Framed

/-!
# Error messages

`format_error` of `src/error.rs`, and `qjson_format_error` of `src/ffi.rs`, which hands the
message to a caller in a buffer.  Whatever the input was, a message is one line of printable
ASCII and no longer than 145 bytes, and where it quotes the input the quotation can be read
back.
-/

namespace QJson.Ffi

open Rfc8259 Doc Bits

/-! ## The parts of a message -/

/-- A text of the source. -/
def literal (text : String) : Bytes := text.toUTF8.data.toList

/-- `QJSON_EXPECT_CONTAINER` -/
def expectContainer : Nat := 2 ^ 64 - 2

/-- The names that messages have for the types. -/
def typeText : QjsonType → Bytes
  | .null => literal "null"
  | .bool => literal "boolean"
  | .num => literal "number"
  | .str => literal "string"
  | .arr => literal "array"
  | .obj => literal "object"

/-- The type with a number. -/
def typeOfCode : Nat → Option QjsonType
  | 0 => some .null
  | 1 => some .bool
  | 2 => some .num
  | 3 => some .str
  | 4 => some .arr
  | 5 => some .obj
  | _ => none

/-- `expected_type_name`. -/
def expectedTypeName (extra : Nat) : Option Bytes :=
  if extra = expectContainer then some (literal "array/object")
  else (typeOfCode extra).map typeText

/-- `inferred_type_name`. -/
def inferredTypeName (buf : Bytes) (offset : Nat) : Option Bytes :=
  match buf[offset]? with
  | none => none
  | some lead =>
      if lead = 0x7B then some (typeText .obj)
      else if lead = 0x5B then some (typeText .arr)
      else if lead = 0x22 then some (typeText .str)
      else if lead = 0x74 ∨ lead = 0x66 then some (typeText .bool)
      else if lead = 0x6E then some (typeText .null)
      else if lead = 0x2D ∨ 0x30 ≤ lead ∧ lead ≤ 0x39 then some (typeText .num)
      else none

/-- `push_offset`. -/
def pushOffset (msg : Bytes) (offset : Nat) : Bytes :=
  if offset ≠ noOffset then msg ++ (literal " at byte " ++ indexText offset) else msg

/-- A digit of `{:X}`. -/
def hexUpper (n : Nat) : UInt8 :=
  if n < 10 then UInt8.ofNat (0x30 + n) else UInt8.ofNat (0x37 + n)

/-- `{byte:02X}` -/
def byteHex (byte : UInt8) : Bytes := [hexUpper (byte.toNat / 16), hexUpper (byte.toNat % 16)]

/-- The bytes that stand for themselves, apart from the quotation mark and the backslash. -/
def printable (byte : UInt8) : Bool := 0x20 ≤ byte && byte ≤ 0x7E

/-- `escape_unexpected_char`. -/
def escapeUnexpectedChar (byte : UInt8) : Bytes :=
  if printable byte then
    if byte = 0x27 then [0x27, 0x5C, 0x27, 0x27]
    else if byte = 0x5C then [0x27, 0x5C, 0x5C, 0x27]
    else [0x27, byte, 0x27]
  else literal "0x" ++ byteHex byte

/-- What `escape_snippet` writes for a byte. -/
def snippetByte (byte : UInt8) : Bytes :=
  if printable byte then
    if byte = 0x27 then [0x5C, 0x27]
    else if byte = 0x5C then [0x5C, 0x5C]
    else [byte]
  else [0x5C, 0x78] ++ byteHex byte

/-- `escape_snippet`. -/
def escapeSnippet (bytes : Bytes) : Bytes := bytes.flatMap snippetByte

/-- `is_snippet_boundary`. -/
def isSnippetBoundary (byte : UInt8) : Bool :=
  byte == 0x20 || byte == 0x09 || byte == 0x0A || byte == 0x0D || byte == 0x2C || byte == 0x3A ||
    byte == 0x7D || byte == 0x5D

/-- The loop of `snippet_from_offset`: what is left of `CAP`, and `end`. -/
def snippetEnd (buf : Bytes) (offset : Nat) : Nat → Nat → Nat
  | 0, stop => stop
  | room + 1, stop =>
      match buf[stop]? with
      | none => stop
      | some byte =>
          if offset < stop ∧ isSnippetBoundary byte then stop
          else snippetEnd buf offset room (stop + 1)

/-- `CAP` -/
def snippetCap : Nat := 20

/-- The bytes that `snippet_from_offset` takes. -/
def snippetBytes (buf : Bytes) (offset : Nat) : Bytes :=
  (buf.drop offset).take (snippetEnd buf offset snippetCap offset - offset)

/-- `snippet_from_offset`. -/
def snippetFromOffset (buf : Bytes) (offset : Nat) : Bytes :=
  if buf.length ≤ offset then [] else escapeSnippet (snippetBytes buf offset)

/-! ## Messages -/

/-- `format_error`. -/
def formatError (code : QjsonErr) (offset extra : Nat) (buf : Bytes) : Bytes :=
  match code with
  | .parseError =>
      if offset ≠ noOffset then
        match buf[offset]? with
        | some byte =>
            literal "parse error at byte " ++ (indexText offset ++ (literal ": unexpected " ++
              (escapeUnexpectedChar byte ++
                if byte = 0x7D ∨ byte = 0x5D ∨ byte = 0x2C then literal ", expected value"
                else [])))
        | none => literal "parse error at byte " ++ indexText offset
      else literal "parse error"
  | .invalidNumber =>
      let snippet := snippetFromOffset buf offset
      pushOffset (if snippet = [] then literal "invalid number"
        else literal "invalid number '" ++ (snippet ++ literal "'")) offset
  | .invalidString => pushOffset (literal "invalid string content") offset
  | .invalidUtf8 => pushOffset (literal "invalid UTF-8 in string") offset
  | .nestingTooDeep =>
      if offset = noOffset then
        literal "nesting too deep (max " ++ (indexText extra ++ literal ")")
      else
        literal "nesting too deep at byte " ++ (indexText offset ++ (literal " (max " ++
          (indexText extra ++ literal ")")))
  | .trailingContent =>
      let snippet := snippetFromOffset buf offset
      pushOffset (if snippet = [] then literal "trailing content after root value"
        else literal "trailing content '" ++ (snippet ++ literal "' after root value")) offset
  | .typeMismatch =>
      pushOffset (match expectedTypeName extra, inferredTypeName buf offset with
        | some expected, some got =>
            literal "type mismatch: expected " ++ (expected ++ (literal ", got " ++ got))
        | _, _ => literal "type mismatch") offset
  | .outOfRange | .numberOutOfRange => pushOffset (literal "out of range") offset
  | .decodeFailed => pushOffset (literal "decode failed") offset
  | .notFound => literal "path not found"
  | .invalidPath => literal "invalid path syntax"
  | .invalidArg => literal "invalid argument"
  | .ok => literal "ok"
  | .oom => literal "out of memory"

/-- `err_from_i32`. -/
def errFromI32 : Int → Option QjsonErr
  | 0 => some .ok
  | 1 => some .parseError
  | 2 => some .notFound
  | 3 => some .typeMismatch
  | 4 => some .outOfRange
  | 5 => some .decodeFailed
  | 6 => some .invalidPath
  | 7 => some .invalidArg
  | 8 => some .oom
  | 9 => some .nestingTooDeep
  | 10 => some .trailingContent
  | 11 => some .numberOutOfRange
  | 12 => some .invalidNumber
  | 13 => some .invalidString
  | 14 => some .invalidUtf8
  | _ => none

/-- The message of a code, which need not be one of the enumeration. -/
def messageOf (code : Int) (offset extra : Nat) (buf : Bytes) : Bytes :=
  match errFromI32 code with
  | some err => formatError err offset extra buf
  | none => literal "unknown error code"

/-- The memory behind `copy_nonoverlapping` to its front. -/
def overwrite (memory text : Bytes) : Bytes := text ++ memory.drop text.length

/-- `qjson_format_error`: what it returns, and the memory at `out` behind it. -/
def qjsonFormatError (code : Int) (offset extra : Nat) (buf : Bytes) (out : Option Bytes)
    (outLen : Nat) : Nat × Option Bytes :=
  let msg := messageOf code offset extra buf
  let needed := msg.length
  match out with
  | none => (needed, none)
  | some memory =>
      if outLen ≤ needed then (needed, some memory)
      else (needed, some (overwrite memory (msg ++ [0])))

/-! ## Printable lines -/

/-- One line of printable ASCII that is not too long. -/
structure IsLine (bound : Nat) (text : Bytes) : Prop where
  printable : ∀ b ∈ text, printable b = true
  length : text.length ≤ bound

section Lines

variable {n m bound : Nat} {left right text buf : Bytes} {offset extra : Nat}

instance : Decidable (IsLine bound text) :=
  decidable_of_iff (text.all printable = true ∧ text.length ≤ bound)
    ⟨fun both => ⟨List.all_eq_true.1 both.1, both.2⟩,
      fun line => ⟨List.all_eq_true.2 line.printable, line.length⟩⟩

theorem IsLine.append (first : IsLine n left) (second : IsLine m right) :
    IsLine (n + m) (left ++ right) where
  printable b member := by
    rcases List.mem_append.1 member with front | back
    · exact first.printable b front
    · exact second.printable b back
  length := by
    rw [List.length_append]
    exact Nat.add_le_add first.length second.length

theorem IsLine.mono (line : IsLine n text) (le : n ≤ m) : IsLine m text :=
  ⟨line.printable, line.length.trans le⟩

theorem isLine_indexText (small : n < 2 ^ 64) : IsLine 20 (indexText n) where
  printable b member := by
    have digit : ∀ b : UInt8, isDigit b = true → printable b = true :=
      forall_uint8 (by decide +kernel)
    exact digit b ((indexText_spec n).2.1 b member)
  length := by
    rw [indexText]
    split
    · decide
    · rw [List.length_map, List.length_reverse]
      exact (Nat.digits_length_le_iff (by decide) n).2 (small.trans (by decide))

theorem isLine_typeText (type : QjsonType) : IsLine 7 (typeText type) := by
  cases type <;> decide +kernel

theorem isLine_expectedTypeName (named : expectedTypeName extra = some text) : IsLine 12 text := by
  rw [expectedTypeName] at named
  split at named
  · obtain rfl := Option.some.inj named
    decide +kernel
  · obtain ⟨type, -, rfl⟩ := Option.map_eq_some_iff.1 named
    exact (isLine_typeText type).mono (by decide)

theorem isLine_inferredTypeName (named : inferredTypeName buf offset = some text) :
    IsLine 7 text := by
  rw [inferredTypeName] at named
  split at named
  · cases named
  · repeat' split at named
    all_goals first
      | exact Option.some.inj named ▸ isLine_typeText _
      | cases named

theorem isLine_escapeUnexpectedChar : ∀ byte, IsLine 4 (escapeUnexpectedChar byte) :=
  forall_uint8 (by decide +kernel)

theorem isLine_snippetByte : ∀ byte, IsLine 4 (snippetByte byte) := forall_uint8 (by decide +kernel)

theorem isLine_escapeSnippet (bytes : Bytes) :
    IsLine (4 * bytes.length) (escapeSnippet bytes) := by
  induction bytes with
  | nil => decide
  | cons byte bytes ih =>
      rw [escapeSnippet, List.flatMap_cons, List.length_cons, Nat.mul_succ, Nat.add_comm]
      exact (isLine_snippetByte byte).append ih

theorem snippetEnd_le (buf : Bytes) (offset room stop : Nat) :
    snippetEnd buf offset room stop ≤ stop + room := by
  induction room generalizing stop with
  | zero => exact Nat.le_refl _
  | succ room ih =>
      rw [snippetEnd]
      split
      · exact Nat.le_add_right _ _
      · split
        · exact Nat.le_add_right _ _
        · have := ih (stop + 1)
          omega

theorem isLine_snippetFromOffset (buf : Bytes) (offset : Nat) :
    IsLine 80 (snippetFromOffset buf offset) := by
  rw [snippetFromOffset]
  split
  · decide
  · apply (isLine_escapeSnippet _).mono
    have stop := snippetEnd_le buf offset snippetCap offset
    have taken : (snippetBytes buf offset).length ≤ 20 := by
      rw [snippetBytes]
      refine (List.length_take_le _ _).trans ?_
      rw [snippetCap] at stop ⊢
      omega
    exact Nat.mul_le_mul_left 4 taken

theorem IsLine.pushOffset (line : IsLine n text) (small : offset < 2 ^ 64) :
    IsLine (n + 29) (pushOffset text offset) := by
  rw [Ffi.pushOffset]
  split
  · have position : IsLine 29 (literal " at byte " ++ indexText offset) :=
      IsLine.append (n := 9) (by decide) (isLine_indexText small)
    exact line.append position
  · exact line.mono (Nat.le_add_right _ _)

theorem isLine_quoted {before behind plain : Bytes} (snippet : IsLine 80 text)
    (front : IsLine 18 before) (back : IsLine 18 behind) (short : IsLine 33 plain)
    (small : offset < 2 ^ 64) :
    IsLine 145 (pushOffset (if text = [] then plain else before ++ (text ++ behind)) offset) := by
  apply IsLine.pushOffset (n := 116) _ small
  split
  · exact short.mono (by decide)
  · exact front.append (snippet.append back)

/-- Every message is a line of at most 145 bytes. -/
theorem isLine_formatError (code : QjsonErr) (buf : Bytes) (small : offset < 2 ^ 64)
    (small' : extra < 2 ^ 64) : IsLine 145 (formatError code offset extra buf) := by
  have position := isLine_indexText small
  have limit := isLine_indexText small'
  have short {text : Bytes} (line : IsLine 60 text) : IsLine 145 (pushOffset text offset) :=
    (line.pushOffset small).mono (by decide)
  cases code with
  | parseError =>
      simp only [formatError]
      split
      · split
        · rename_i byte _
          have behind : IsLine 16 (if byte = 0x7D ∨ byte = 0x5D ∨ byte = 0x2C then
              literal ", expected value" else []) := by
            split <;> decide
          have front : IsLine 21 (literal "parse error at byte ") := by decide
          have middle : IsLine 13 (literal ": unexpected ") := by decide
          exact (front.append (position.append (middle.append
            ((isLine_escapeUnexpectedChar byte).append behind)))).mono (by decide)
        · have front : IsLine 21 (literal "parse error at byte ") := by decide
          exact (front.append position).mono (by decide)
      · decide
  | invalidNumber =>
      exact isLine_quoted (isLine_snippetFromOffset buf offset) (by decide) (by decide)
        (by decide) small
  | trailingContent =>
      exact isLine_quoted (isLine_snippetFromOffset buf offset) (by decide) (by decide)
        (by decide) small
  | invalidString => exact short (by decide)
  | invalidUtf8 => exact short (by decide)
  | outOfRange => exact short (by decide)
  | numberOutOfRange => exact short (by decide)
  | decodeFailed => exact short (by decide)
  | nestingTooDeep =>
      have front : IsLine 25 (literal "nesting too deep at byte ") := by decide
      have middle : IsLine 25 (literal " (max ") := by decide
      have alone : IsLine 25 (literal "nesting too deep (max ") := by decide
      have back : IsLine 1 (literal ")") := by decide
      simp only [formatError]
      split
      · exact (alone.append (limit.append back)).mono (by decide)
      · exact (front.append (position.append (middle.append (limit.append back)))).mono
          (by decide)
  | typeMismatch =>
      apply short
      split
      · rename_i expected got isExpected isGot
        have front : IsLine 24 (literal "type mismatch: expected ") := by decide
        have middle : IsLine 6 (literal ", got ") := by decide
        exact (front.append ((isLine_expectedTypeName isExpected).append
          (middle.append (isLine_inferredTypeName isGot)))).mono (by decide)
      · decide
  | _ =>
      simp only [formatError]
      decide

end Lines

/-! ## Quotations -/

section Quotations

variable {buf buf' : Bytes} {offset offset' extra extra' : Nat} {byte byte' : UInt8}

/-- A digit of `{:X}` is read back. -/
theorem hexUpper_inj : ∀ n m : Fin 16, hexUpper n = hexUpper m → n = m := by decide

theorem byteHex_unique {left right : Bytes} (same : byteHex byte ++ left = byteHex byte' ++ right) :
    byte = byte' ∧ left = right := by
  obtain ⟨high, rest⟩ := List.cons.inj same
  obtain ⟨low, behind⟩ := List.cons.inj rest
  have bound (b : UInt8) : b.toNat / 16 < 16 := by
    have := b.toNat_lt
    omega
  have left := Fin.mk.inj (hexUpper_inj ⟨_, bound byte⟩ ⟨_, bound byte'⟩ high)
  have right := Fin.mk.inj (hexUpper_inj ⟨byte.toNat % 16, Nat.mod_lt _ (by decide)⟩
    ⟨byte'.toNat % 16, Nat.mod_lt _ (by decide)⟩ low)
  have same : byte.toNat = byte'.toNat := by omega
  exact ⟨UInt8.toNat.inj same, behind⟩

theorem snippetByte_cases (byte : UInt8) :
    snippetByte byte = [byte] ∧ byte ≠ 0x27 ∧ byte ≠ 0x5C ∨
      snippetByte byte = [0x5C, byte] ∧ (byte = 0x27 ∨ byte = 0x5C) ∨
      snippetByte byte = 0x5C :: 0x78 :: byteHex byte := by
  rw [snippetByte]
  split
  · split
    · rename_i quote
      exact .inr (.inl ⟨by rw [quote], .inl quote⟩)
    · split
      · rename_i slash
        exact .inr (.inl ⟨by rw [slash], .inr slash⟩)
      · rename_i quote slash
        exact .inl ⟨rfl, quote, slash⟩
  · exact .inr (.inr rfl)

/-- A snippet is read back. -/
theorem isCode_snippetByte : IsCode snippetByte := by
  intro byte byte' left right same
  rcases snippetByte_cases byte with ⟨plain, quote, slash⟩ | ⟨escape, either⟩ | hex
  · rcases snippetByte_cases byte' with ⟨plain', -, -⟩ | ⟨escape', -⟩ | hex'
    · rw [plain, plain'] at same
      exact List.cons.inj same
    · rw [plain, escape'] at same
      exact absurd (List.cons.inj same).1 slash
    · rw [plain, hex'] at same
      exact absurd (List.cons.inj same).1 slash
  · rcases snippetByte_cases byte' with ⟨plain', -, slash'⟩ | ⟨escape', -⟩ | hex'
    · rw [escape, plain'] at same
      exact absurd (List.cons.inj same).1.symm slash'
    · rw [escape, escape'] at same
      exact List.cons.inj (List.cons.inj same).2
    · rw [escape, hex'] at same
      have clash := (List.cons.inj (List.cons.inj same).2).1
      rcases either with rfl | rfl <;> cases clash
  · rcases snippetByte_cases byte' with ⟨plain', -, slash'⟩ | ⟨escape', either⟩ | hex'
    · rw [hex, plain'] at same
      exact absurd (List.cons.inj same).1.symm slash'
    · rw [hex, escape'] at same
      have clash := (List.cons.inj (List.cons.inj same).2).1
      rcases either with rfl | rfl <;> cases clash
    · rw [hex, hex'] at same
      exact byteHex_unique (List.cons.inj (List.cons.inj same).2).2

/-- A snippet ends in front of the first quotation mark that is not escaped. -/
theorem spares_snippetByte : Spares snippetByte 0x27 := by
  intro byte
  rcases snippetByte_cases byte with ⟨plain, quote, -⟩ | ⟨escape, -⟩ | hex
  · exact ⟨byte, [], plain, quote⟩
  · exact ⟨0x5C, [byte], escape, by decide⟩
  · exact ⟨0x5C, _, hex, by decide⟩

theorem isCode_escapeUnexpectedChar : IsCode escapeUnexpectedChar := by
  have quoted {byte : UInt8} (shown : printable byte = true) :
      escapeUnexpectedChar byte = 0x27 :: (snippetByte byte ++ [0x27]) := by
    rw [escapeUnexpectedChar, snippetByte, if_pos shown, if_pos shown]
    split
    · rfl
    · split <;> rfl
  have coded {byte : UInt8} (hidden : ¬ printable byte = true) :
      escapeUnexpectedChar byte = 0x30 :: 0x78 :: byteHex byte := by
    rw [escapeUnexpectedChar, if_neg hidden]
    rfl
  intro byte byte' left right same
  by_cases shown : printable byte = true
  · by_cases shown' : printable byte' = true
    · rw [quoted shown, quoted shown', List.cons_append, List.cons_append, List.append_assoc,
        List.append_assoc] at same
      obtain ⟨rfl, rest⟩ := isCode_snippetByte byte byte' _ _ (List.cons.inj same).2
      exact ⟨rfl, (List.cons.inj rest).2⟩
    · rw [quoted shown, coded shown'] at same
      cases (List.cons.inj same).1
  · by_cases shown' : printable byte' = true
    · rw [coded shown, quoted shown'] at same
      cases (List.cons.inj same).1
    · rw [coded shown, coded shown'] at same
      exact byteHex_unique (List.cons.inj (List.cons.inj same).2).2

/-- A decimal number is read back where no digit follows. -/
theorem indexText_unique {n m : Nat} {left right : Bytes}
    (stops : ∀ b ∈ left.head?, isDigit b = false) (stops' : ∀ b ∈ right.head?, isDigit b = false)
    (same : indexText n ++ left = indexText m ++ right) : n = m ∧ left = right := by
  obtain ⟨-, digits, value⟩ := indexText_spec n
  obtain ⟨-, digits', value'⟩ := indexText_spec m
  have ends : ∀ b ∈ left.head?, ¬ isDigit b = true := fun b head => by simp [stops b head]
  have ends' : ∀ b ∈ right.head?, ¬ isDigit b = true := fun b head => by simp [stops' b head]
  obtain ⟨numbers, behind⟩ := run_unique digits digits' ends ends' same
  exact ⟨by rw [← value, ← value', numbers], behind⟩

/-- Where the loop stops behind the first byte. -/
theorem snippetEnd_eq (room : Nat) {stop : Nat} (behind : offset < stop) :
    snippetEnd buf offset room stop =
      stop + (((buf.drop stop).takeWhile fun b => !isSnippetBoundary b).take room).length := by
  induction room generalizing stop with
  | zero => rw [snippetEnd, List.take_zero, List.length_nil, Nat.add_zero]
  | succ room ih =>
      rw [snippetEnd]
      cases here : buf[stop]? with
      | none =>
          rw [List.drop_eq_nil_of_le (List.getElem?_eq_none_iff.1 here)]
          rfl
      | some b =>
          obtain ⟨inside, rfl⟩ := List.getElem?_eq_some_iff.1 here
          rw [List.drop_eq_getElem_cons inside, List.takeWhile_cons]
          cases boundary : isSnippetBoundary buf[stop] with
          | true => simp [boundary, behind]
          | false =>
              simp only [boundary, Bool.false_eq_true, and_false, if_false, Bool.not_false, if_true,
                List.take_succ_cons, List.length_cons]
              rw [ih (Nat.lt_succ_of_lt behind), Nat.succ_add]
              rfl

/-- A snippet is the byte at the offset and what follows it up to a boundary, twenty bytes at
most. -/
theorem snippetBytes_eq {rest : Bytes} (here : buf.drop offset = byte :: rest) :
    snippetBytes buf offset =
      byte :: (rest.takeWhile fun b => !isSnippetBoundary b).take 19 := by
  have inside : buf[offset]? = some byte := by
    rw [← List.head?_drop, here]
    rfl
  have next : buf.drop (offset + 1) = rest := by
    rw [← List.tail_drop, here]
    rfl
  have stop : snippetEnd buf offset snippetCap offset =
      offset + 1 + ((rest.takeWhile fun b => !isSnippetBoundary b).take 19).length := by
    rw [snippetCap, snippetEnd, inside]
    simp only [Nat.lt_irrefl, false_and, if_false]
    rw [snippetEnd_eq 19 (Nat.lt_succ_self offset), next]
  have isPrefix : (rest.takeWhile fun b => !isSnippetBoundary b).take 19 <+: rest :=
    (List.take_prefix _ _).trans (List.takeWhile_prefix _)
  rw [snippetBytes, here, stop, Nat.add_assoc, Nat.add_sub_cancel_left, Nat.add_comm 1,
    List.take_succ_cons, ← List.prefix_iff_eq_take.1 isPrefix]

/-- The codes whose messages quote the input. -/
def Quotes (code : QjsonErr) : Prop :=
  code = .parseError ∨ code = .invalidNumber ∨ code = .trailingContent

/-- What is quoted. -/
def quotation (code : QjsonErr) (buf : Bytes) (offset : Nat) : Bytes :=
  if code = .parseError then (buf.drop offset).take 1 else snippetBytes buf offset

/-- A quotation and the position behind it are read back. -/
theorem quoted_unique {before behind xs ys : Bytes} {n m : Nat}
    (same : before ++ (escapeSnippet xs ++ 0x27 :: behind) ++ (literal " at byte " ++ indexText n) =
      before ++ (escapeSnippet ys ++ 0x27 :: behind) ++ (literal " at byte " ++ indexText m)) :
    xs = ys ∧ n = m := by
  simp only [List.append_assoc, List.cons_append] at same
  obtain ⟨rfl, rest⟩ := isCode_snippetByte.framed spares_snippetByte (List.append_cancel_left same)
  have numbers := List.append_cancel_left (List.append_cancel_left rest)
  rw [← List.append_nil (indexText n), ← List.append_nil (indexText m)] at numbers
  have nothing : ∀ b ∈ ([] : Bytes).head?, isDigit b = false := by
    intro b head
    cases head
  exact ⟨rfl, (indexText_unique nothing nothing numbers).1⟩

section Located

variable (inside : offset < buf.length) (fits : buf.length ≤ noOffset)
include inside fits

theorem formatError_parseError : formatError .parseError offset extra buf =
    literal "parse error at byte " ++ (indexText offset ++ (literal ": unexpected " ++
      (escapeUnexpectedChar buf[offset] ++ if buf[offset] = 0x7D ∨ buf[offset] = 0x5D ∨
        buf[offset] = 0x2C then literal ", expected value" else []))) := by
  have located : offset ≠ noOffset := by omega
  simp only [formatError, List.getElem?_eq_getElem inside, if_pos located]

/-- A located message with a snippet. -/
theorem pushOffset_snippet (plain before behind : Bytes) :
    pushOffset (if snippetFromOffset buf offset = [] then plain
      else before ++ (snippetFromOffset buf offset ++ behind)) offset =
      before ++ (escapeSnippet (snippetBytes buf offset) ++ behind) ++
        (literal " at byte " ++ indexText offset) := by
  have located : offset ≠ noOffset := by omega
  have here := List.drop_eq_getElem_cons inside
  have some_ : escapeSnippet (snippetBytes buf offset) ≠ [] := by
    rw [snippetBytes_eq here, escapeSnippet, List.flatMap_cons]
    obtain ⟨first, rest, written, -⟩ := spares_snippetByte buf[offset]
    rw [written]
    exact List.cons_ne_nil _ _
  have snippet : snippetFromOffset buf offset = escapeSnippet (snippetBytes buf offset) :=
    if_neg (Nat.not_le.2 inside)
  rw [snippet, if_neg some_, pushOffset, if_pos located]

end Located

end Quotations

/-- Where the input is quoted, a message tells the code, the offset and the bytes that it
quotes, and depends on nothing else. -/
theorem quotations_unique {code code' : QjsonErr} {offset offset' extra extra' : Nat}
    {buf buf' : Bytes} (quotes : Quotes code) (quotes' : Quotes code')
    (inside : offset < buf.length) (inside' : offset' < buf'.length)
    (fits : buf.length ≤ noOffset) (fits' : buf'.length ≤ noOffset) :
    formatError code offset extra buf = formatError code' offset' extra' buf' ↔
      code = code' ∧ offset = offset' ∧
        quotation code buf offset = quotation code' buf' offset' := by
  have parse := @formatError_parseError buf offset extra inside fits
  have parse' := @formatError_parseError buf' offset' extra' inside' fits'
  have number : formatError .invalidNumber offset extra buf = _ :=
    pushOffset_snippet inside fits (literal "invalid number") (literal "invalid number '")
      (literal "'")
  have number' : formatError .invalidNumber offset' extra' buf' = _ :=
    pushOffset_snippet inside' fits' (literal "invalid number") (literal "invalid number '")
      (literal "'")
  have trailing : formatError .trailingContent offset extra buf = _ :=
    pushOffset_snippet inside fits (literal "trailing content after root value")
      (literal "trailing content '") (literal "' after root value")
  have trailing' : formatError .trailingContent offset' extra' buf' = _ :=
    pushOffset_snippet inside' fits' (literal "trailing content after root value")
      (literal "trailing content '") (literal "' after root value")
  have first {a b : UInt8} {left right : Bytes} (apart : a ≠ b) : ¬ a :: left = b :: right :=
    fun same => apart (List.cons.inj same).1
  rcases quotes with rfl | rfl | rfl
  · rcases quotes' with rfl | rfl | rfl
    · rw [parse, parse', quotation, quotation, if_pos rfl, if_pos rfl,
        List.drop_eq_getElem_cons inside, List.drop_eq_getElem_cons inside']
      constructor
      · intro same
        have middle {rest : Bytes} : ∀ b ∈ (literal ": unexpected " ++ rest).head?,
            isDigit b = false := by
          intro b head
          obtain rfl : (0x3A : UInt8) = b := Option.some.inj head
          rfl
        obtain ⟨rfl, rest⟩ := indexText_unique middle middle (List.append_cancel_left same)
        obtain ⟨byte, -⟩ := isCode_escapeUnexpectedChar _ _ _ _ (List.append_cancel_left rest)
        exact ⟨rfl, rfl, congrArg (fun b => [b]) byte⟩
      · rintro ⟨-, rfl, same⟩
        rw [(List.cons.inj same).1]
    · rw [parse, number']
      exact iff_of_false (first (by decide)) (fun clash => by cases clash.1)
    · rw [parse, trailing']
      exact iff_of_false (first (by decide)) (fun clash => by cases clash.1)
  · rcases quotes' with rfl | rfl | rfl
    · rw [number, parse']
      exact iff_of_false (first (by decide)) (fun clash => by cases clash.1)
    · rw [number, number', quotation, quotation, if_neg (by decide), if_neg (by decide)]
      constructor
      · intro same
        obtain ⟨bytes, rfl⟩ := quoted_unique
          (show _ ++ (_ ++ 0x27 :: []) ++ _ = _ ++ (_ ++ 0x27 :: []) ++ _ from same)
        exact ⟨rfl, rfl, bytes⟩
      · rintro ⟨-, rfl, same⟩
        rw [same]
    · rw [number, trailing']
      exact iff_of_false (first (by decide)) (fun clash => by cases clash.1)
  · rcases quotes' with rfl | rfl | rfl
    · rw [trailing, parse']
      exact iff_of_false (first (by decide)) (fun clash => by cases clash.1)
    · rw [trailing, number']
      exact iff_of_false (first (by decide)) (fun clash => by cases clash.1)
    · rw [trailing, trailing', quotation, quotation, if_neg (by decide), if_neg (by decide)]
      constructor
      · intro same
        obtain ⟨bytes, rfl⟩ := quoted_unique
          (show _ ++ (_ ++ 0x27 :: literal " after root value") ++ _ =
            _ ++ (_ ++ 0x27 :: literal " after root value") ++ _ from same)
        exact ⟨rfl, rfl, bytes⟩
      · rintro ⟨-, rfl, same⟩
        rw [same]

/-- `[01]` and `[01,2]` -/
theorem quotations_unique_number :
    formatError .invalidNumber 1 0 [0x5B, 0x30, 0x31, 0x5D] =
        formatError .invalidNumber 1 0 [0x5B, 0x30, 0x31, 0x2C, 0x32, 0x5D] ↔
      QjsonErr.invalidNumber = .invalidNumber ∧ 1 = 1 ∧
        quotation .invalidNumber [0x5B, 0x30, 0x31, 0x5D] 1 =
          quotation .invalidNumber [0x5B, 0x30, 0x31, 0x2C, 0x32, 0x5D] 1 :=
  quotations_unique (.inr (.inl rfl)) (.inr (.inl rfl)) (by decide) (by decide) (by decide)
    (by decide)

end QJson.Ffi

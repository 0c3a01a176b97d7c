import QJson.Ffi.Offsets
import QJson.Lua.Bound
import QJson.Lua.Messages

/-!
# What the errors of methods tell

All Cursor objects share one box, and still every method call is a call of the library on a
value of a document.  Where the error that a method raises gives a byte, a value starts there,
and the type that a mismatch reports is the type of that value.
-/

namespace QJson.Lua

open Rfc8259 Validate Doc Decode Ffi Bits

/-! ## Method calls as calls of the library -/

/-- The call behind a method, on the first cursor that the caller holds. -/
def Method.access : Method → Access
  | .docGet _ getter path => .get .root getter path
  | .docIsNull _ path => .isNull path
  | .cursorGet _ getter path => .get (.cursor 0) getter path
  | .cursorField _ key => .field 0 key
  | .cursorIndex _ i => .index 0 i

/-- What a method passes to `check_access`. -/
def Method.expected : Method → Option Expected
  | .docGet _ getter _ | .cursorGet _ getter _ => Lua.expected getter
  | .docIsNull _ _ => none
  | .cursorField _ _ => some (.type .obj)
  | .cursorIndex _ _ => some (.type .arr)

/-- The document that the library is called on, and the cursor that it is handed. -/
def Module.target (m : Module) : Method → Option (Nat × Option Cursor)
  | .docGet d _ _ | .docIsNull d _ => some (d, none)
  | .cursorGet slot _ _ | .cursorField slot _ | .cursorIndex slot _ =>
      (m.handed slot).map fun cursor => (cursor.doc, some cursor.cur)

/-- A method looks at the error offset of the document that it calls the library on. -/
def Module.Owns (m : Module) (method : Method) : Prop :=
  ∀ d cur?, m.target method = some (d, cur?) → m.docOf method = some d

/-- A caller of the library who holds at most one cursor. -/
def Cells.machine (cells : Cells) (cur? : Option Cursor) : Machine :=
  ⟨cells.cache, cells.lastErrorOffset, cur?.toList, []⟩

section Calls

variable {F : Type} {host : Host F} {docs : List Document} {m : Module} {d : Nat}
  {doc : Document} {cells : Cells}

/-- The module behind a call of the library. -/
def Module.behind (m : Module) (d : Nat) (doc : Document)
    (result : Located (Output F) × SkipCache) : Module where
  cells := m.cells.set d (Cells.behind doc result)
  boxes :=
    match result.1 with
    | .ok (.cursor cur) => m.boxes.set curBox (some ⟨d, cur⟩)
    | _ => m.boxes
  cursors := m.cursors

theorem Module.call_eq {run : Document → SkipCache → Located (Output F) × SkipCache}
    (docAt : docs[d]? = some doc) (cellsAt : m.cells[d]? = some cells) :
    m.call docs d run =
      (ffiCatch (run doc cells.cache).1, m.behind d doc (run doc cells.cache)) := by
  rw [Module.call, docAt, cellsAt, Module.behind]
  simp only
  cases outcome : (run doc cells.cache).1 with
  | ok output => cases output <;> simp only [ffiCatch, Cells.behind, outcome]
  | error fault => simp only [Cells.behind, outcome]

/-- A method either opens a cursor and returns an object for it, or leaves the box and the
objects as they are. -/
theorem checkAccess_cases (m : Module) (d e : Nat) (doc : Document) (expected : Option Expected)
    (result : Located (Output F) × SkipCache) :
    (∃ cur, result.1 = .ok (.cursor cur) ∧
      (checkAccess e expected (ffiCatch result.1, m.behind d doc result)).2 =
        ⟨m.cells.set d (Cells.behind doc result), m.boxes.set curBox (some ⟨d, cur⟩),
          m.cursors ++ [⟨curBox, e⟩]⟩) ∨
    (checkAccess e expected (ffiCatch result.1, m.behind d doc result)).2 =
      ⟨m.cells.set d (Cells.behind doc result), m.boxes, m.cursors⟩ := by
  rw [Module.behind]
  cases outcome : result.1 with
  | ok output =>
      cases output with
      | cursor cur => exact .inl ⟨cur, rfl, rfl⟩
      | _ => exact .inr rfl
  | error fault =>
      right
      cases caught : ffiCatch (.error fault : Located (Output F)) with
      | ok output => rcases fault with _ | _ <;> cases caught
      | error code => cases code <;> rfl

end Calls

/-! ## Where the cursors are -/

section Sessions

variable {F : Type} {host : Host F} {docs : List Document} {tree : Nat → Tree}
  {start : Nat → Nat} {m : Module}

/-- The box holds the cursor of a value, as soon as there are Cursor objects, and what is
remembered of a document is sound. -/
structure InPlace (docs : List Document) (tree : Nat → Tree) (start : Nat → Nat) (m : Module) :
    Prop where
  length : m.cells.length = docs.length
  caches : ∀ (d : Nat) (doc : Document) (cells : Cells), docs[d]? = some doc →
    m.cells[d]? = some cells → CacheOk doc (rootPlace (tree d) (start d)) cells.cache
  room : 0 < m.boxes.length
  boxed : ∀ cursor, (m.boxes[curBox]?).join = some cursor → ∃ doc, docs[cursor.doc]? = some doc ∧
    ∃ route place, (rootPlace (tree cursor.doc) (start cursor.doc)).locate route = some place ∧
      cursor.cur = place.cursor
  objects : ∀ object ∈ m.cursors, object.cur = curBox ∧
    ∃ cursor, (m.boxes[curBox]?).join = some cursor

theorem InPlace.parsed (docs : List Document) (tree : Nat → Tree) (start : Nat → Nat) :
    InPlace docs tree start (Module.parsed docs) where
  length := by simp [Module.parsed]
  caches d doc cells _ at_ := by
    rw [Module.parsed, List.getElem?_map] at at_
    obtain ⟨-, -, rfl⟩ := Option.map_eq_some_iff.1 at_
    exact CacheOk.new doc _
  room := Nat.one_pos
  boxed cursor none := by cases none
  objects object none := by cases none

/-- What a method call comes down to. -/
structure Reaches (host : Host F) (docs : List Document) (tree : Nat → Tree) (start : Nat → Nat)
    (m : Module) (method : Method) (d e : Nat) (doc : Document) (cells : Cells)
    (cur? : Option Cursor) (result : Located (Output F) × SkipCache) : Prop where
  docAt : docs[d]? = some doc
  cellsAt : m.cells[d]? = some cells
  target : m.target method = some (d, cur?)
  docOf : m.docOf method = some e
  answer : (cells.machine cur?).answer host doc method.access = some result
  shows : ∃ r, Shows doc (tree d) (start d) (cells.machine cur?) r
  step : m.step host docs method =
    some (checkAccess e method.expected (ffiCatch result.1, m.behind d doc result))

theorem InPlace.cells (placed : InPlace docs tree start m) {d : Nat} {doc : Document}
    (docAt : docs[d]? = some doc) : ∃ cells, m.cells[d]? = some cells := by
  have bound := (List.getElem?_eq_some_iff.1 docAt).1
  exact ⟨_, List.getElem?_eq_getElem (by rw [placed.length]; exact bound)⟩

theorem InPlace.shows_none (placed : InPlace docs tree start m) {d : Nat} {doc : Document}
    {cells : Cells} (docAt : docs[d]? = some doc) (cellsAt : m.cells[d]? = some cells) :
    ∃ r, Shows doc (tree d) (start d) (cells.machine none) r :=
  ⟨⟨cells.lastErrorOffset, [], []⟩, placed.caches d doc cells docAt cellsAt, rfl, rfl, rfl,
    fun place none => (by cases none), fun it none => (by cases none)⟩

theorem InPlace.shows_some (placed : InPlace docs tree start m) {d : Nat} {doc : Document}
    {cells : Cells} (docAt : docs[d]? = some doc) (cellsAt : m.cells[d]? = some cells)
    {route : List Nat} {place : Place}
    (at_ : (rootPlace (tree d) (start d)).locate route = some place) :
    ∃ r, Shows doc (tree d) (start d) (cells.machine (some place.cursor)) r := by
  refine ⟨⟨cells.lastErrorOffset, [place], []⟩, placed.caches d doc cells docAt cellsAt, rfl, rfl,
    rfl, fun other member => ?_, fun it none => (by cases none)⟩
  obtain rfl := List.mem_singleton.1 member
  exact ⟨route, at_⟩

/-- A method of a document is a call of the library on it. -/
theorem InPlace.reaches_doc (placed : InPlace docs tree start m) {method : Method} {d : Nat}
    {run : Document → SkipCache → Located (Output F) × SkipCache}
    (target : m.target method = some (d, none)) (docOf : m.docOf method = some d)
    (answer : ∀ (doc : Document) (cells : Cells),
      (cells.machine none).answer host doc method.access = some (run doc cells.cache))
    (step : m.step host docs method =
      (docs[d]?).map fun _ => checkAccess d method.expected (m.call docs d run))
    {result : Reply F × Module} (stepped : m.step host docs method = some result) :
    ∃ d e doc cells cur? result, Reaches host docs tree start m method d e doc cells cur? result := by
  rw [step] at stepped
  obtain ⟨doc, docAt, -⟩ := Option.map_eq_some_iff.1 stepped
  obtain ⟨cells, cellsAt⟩ := placed.cells docAt
  refine ⟨d, d, doc, cells, none, run doc cells.cache, docAt, cellsAt, target, docOf,
    answer doc cells, placed.shows_none docAt cellsAt, ?_⟩
  rw [step, docAt, Option.map_some, Module.call_eq docAt cellsAt]

/-- A method of a Cursor object is a call of the library on the cursor in the box. -/
theorem InPlace.reaches_cursor (placed : InPlace docs tree start m) {method : Method} {slot : Nat}
    {run : Document → SkipCache → Cursor → Located (Output F) × SkipCache}
    (target : m.target method = (m.handed slot).map fun cursor => (cursor.doc, some cursor.cur))
    (docOf : m.docOf method = (m.cursors[slot]?).map CursorObject.doc)
    (answer : ∀ (doc : Document) (cells : Cells) (cur : Cursor),
      (cells.machine (some cur)).answer host doc method.access = some (run doc cells.cache cur))
    (step : m.step host docs method = (m.cursors[slot]?).map fun object =>
      checkAccess object.doc method.expected (m.callBox docs object.cur run))
    {result : Reply F × Module} (stepped : m.step host docs method = some result) :
    ∃ d e doc cells cur? result, Reaches host docs tree start m method d e doc cells cur? result := by
  rw [step] at stepped
  obtain ⟨object, objectAt, -⟩ := Option.map_eq_some_iff.1 stepped
  obtain ⟨box, cursor, boxed⟩ := placed.objects object (List.mem_of_getElem? objectAt)
  obtain ⟨doc, docAt, route, place, at_, same⟩ := placed.boxed cursor boxed
  obtain ⟨cells, cellsAt⟩ := placed.cells docAt
  have handed : m.handed slot = some cursor := by
    rw [Module.handed, objectAt, Option.bind_some, box]
    exact boxed
  refine ⟨cursor.doc, object.doc, doc, cells, some cursor.cur, run doc cells.cache cursor.cur,
    docAt, cellsAt, ?_, ?_, answer doc cells cursor.cur, ?_, ?_⟩
  · rw [target, handed]
    rfl
  · rw [docOf, objectAt]
    rfl
  · rw [same]
    exact placed.shows_some docAt cellsAt at_
  · rw [step, objectAt, Option.map_some, Module.callBox, box, boxed]
    simp only [Module.call_eq docAt cellsAt]

theorem InPlace.reaches (placed : InPlace docs tree start m) {method : Method}
    {result : Reply F × Module} (stepped : m.step host docs method = some result) :
    ∃ d e doc cells cur? result, Reaches host docs tree start m method d e doc cells cur? result := by
  cases method with
  | docGet d getter path =>
      exact placed.reaches_doc rfl rfl (fun _ _ => rfl) rfl stepped
  | docIsNull d path =>
      exact placed.reaches_doc rfl rfl (fun _ _ => rfl) rfl stepped
  | cursorGet slot getter path =>
      exact placed.reaches_cursor rfl rfl (fun _ _ _ => rfl) rfl stepped
  | cursorField slot key =>
      exact placed.reaches_cursor rfl rfl (fun _ _ _ => rfl) rfl stepped
  | cursorIndex slot i =>
      exact placed.reaches_cursor rfl rfl (fun _ _ _ => rfl) rfl stepped

section Standing

variable (stands : ∀ d doc, docs[d]? = some doc → Stands doc (tree d) (start d))
  (validator : IsStringValidator host.validateString)
include stands validator

theorem Reaches.answers {method : Method} {d e : Nat} {doc : Document} {cells : Cells}
    {cur? : Option Cursor} {result : Located (Output F) × SkipCache}
    (runs : Reaches host docs tree start m method d e doc cells cur? result) :
    ∃ r answer, Shows doc (tree d) (start d) (cells.machine cur?) r ∧
      r.answer host.std (tree d) (start d) method.access = some answer ∧
      Answers doc (tree d) (start d) result answer := by
  obtain ⟨r, shows⟩ := runs.shows
  have answers := shows.answer (stands d doc runs.docAt) validator method.access
  rw [runs.answer] at answers
  cases abstract : r.answer host.std (tree d) (start d) method.access with
  | none =>
      rw [abstract] at answers
      exact answers.elim
  | some answer =>
      rw [abstract] at answers
      exact ⟨r, answer, shows, abstract, answers⟩

theorem Reaches.returned {method : Method} {d e : Nat} {doc : Document} {cells : Cells}
    {cur? : Option Cursor} {result : Located (Output F) × SkipCache}
    (runs : Reaches host docs tree start m method d e doc cells cur? result) {cur : Cursor}
    (returned : result.1 = .ok (.cursor cur)) :
    ∃ route place, (rootPlace (tree d) (start d)).locate route = some place ∧
      cur = place.cursor := by
  obtain ⟨r, answer, -, -, answers⟩ := runs.answers stands validator
  have meets := answers.meets
  cases answer with
  | error failure =>
      have caught := meets.1
      rw [returned] at caught
      cases caught
  | ok finding =>
      obtain ⟨found, below⟩ := meets
      have same := Except.ok.inj (found.symm.trans returned)
      cases finding with
      | node place =>
          obtain ⟨route, at_⟩ := below
          exact ⟨route, place, at_, (Output.cursor.inj same).symm⟩
      | plain output =>
          obtain rfl : output = .cursor cur := same
          cases below.1
      | _ => cases same

/-- A method call keeps everything in its place. -/
theorem InPlace.step (placed : InPlace docs tree start m) {method : Method} {reply : Reply F}
    {after : Module} (stepped : m.step host docs method = some (reply, after)) :
    InPlace docs tree start after := by
  obtain ⟨d, e, doc, cells, cur?, result, runs⟩ := placed.reaches stepped
  obtain ⟨r, answer, -, -, answers⟩ := runs.answers stands validator
  have bound := (List.getElem?_eq_some_iff.1 runs.cellsAt).1
  have length : (m.cells.set d (Cells.behind doc result)).length = docs.length := by
    rw [List.length_set, placed.length]
  have caches (d' : Nat) (doc' : Document) (cells' : Cells) (docAt : docs[d']? = some doc')
      (cellsAt : (m.cells.set d (Cells.behind doc result))[d']? = some cells') :
      CacheOk doc' (rootPlace (tree d') (start d')) cells'.cache := by
    by_cases same : d = d'
    · subst same
      obtain rfl := Option.some.inj (runs.docAt.symm.trans docAt)
      obtain rfl := Option.some.inj ((List.getElem?_set_self bound).symm.trans cellsAt)
      exact answers.cache
    · rw [List.getElem?_set_ne same] at cellsAt
      exact placed.caches d' doc' cells' docAt cellsAt
  have same := congrArg Prod.snd (Option.some.inj (runs.step.symm.trans stepped))
  rcases checkAccess_cases m d e doc method.expected result with ⟨cur, opened, behind⟩ | behind
  · obtain rfl := behind.symm.trans same
    have box : ((m.boxes.set curBox (some ⟨d, cur⟩))[curBox]?).join = some ⟨d, cur⟩ :=
      congrArg Option.join (List.getElem?_set_self placed.room)
    refine ⟨length, caches, ?_, fun cursor boxed => ?_, fun object member => ?_⟩
    · rw [List.length_set]
      exact placed.room
    · obtain rfl := Option.some.inj (box.symm.trans boxed)
      exact ⟨doc, runs.docAt, runs.returned stands validator opened⟩
    · refine ⟨?_, _, box⟩
      rcases List.mem_append.1 member with old | new
      · exact (placed.objects object old).1
      · rw [List.mem_singleton.1 new]
  · obtain rfl := behind.symm.trans same
    exact ⟨length, caches, placed.room, placed.boxed, placed.objects⟩

/-- In every session everything is in its place. -/
theorem Session.placed {allowed : List Opened → Method → Prop} {opened : List Opened}
    (session : Session host docs allowed m opened) : InPlace docs tree start m := by
  induction session with
  | start => exact InPlace.parsed docs tree start
  | step _ _ stepped ih => exact ih.step stands validator stepped

end Standing

end Sessions

/-! ## What a mismatch reports -/

/-- A type is among those that are expected. -/
def Expected.Accepts : Expected → QjsonType → Prop
  | .type value, actual => actual = value
  | .container, actual => actual = .arr ∨ actual = .obj

section Nodes

variable {F : Type} {doc : Document} {place : Place} {offset : Nat}

theorem inferredTypeName_of_scalarTypeAt {type : QjsonType}
    (scalar : scalarTypeAt doc offset = .ok type) :
    inferredTypeName doc.buf offset = some (typeText type) := by
  rw [scalarTypeAt] at scalar
  cases byte : doc.buf[offset]? with
  | none =>
      rw [byte] at scalar
      cases scalar
  | some b =>
      rw [byte] at scalar
      simp only at scalar
      rw [inferredTypeName, byte]
      split at scalar
      · rename_i boolean
        cases scalar
        rcases boolean with rfl | rfl <;> rfl
      split at scalar
      · rename_i null
        cases scalar
        subst null
        rfl
      split at scalar
      · rename_i numeric
        cases scalar
        have number : ∀ b : UInt8, b = 0x2D ∨ isDigit b = true →
            b ≠ 0x7B ∧ b ≠ 0x5B ∧ b ≠ 0x22 ∧ ¬ (b = 0x74 ∨ b = 0x66) ∧ b ≠ 0x6E ∧
              (b = 0x2D ∨ 0x30 ≤ b ∧ b ≤ 0x39) := forall_uint8 (by decide +kernel)
        obtain ⟨brace, bracket, quote, boolean, null, digit⟩ := number b numeric
        simp only [if_neg brace, if_neg bracket, if_neg quote, if_neg boolean, if_neg null,
          if_pos digit]
      · cases scalar

theorem inferredTypeName_of_begins (valid : place.node.Valid) (begins : Begins doc place offset) :
    inferredTypeName doc.buf offset = some (typeText (nodeType place.node)) := by
  obtain ⟨-, -, front, tail, text, at_⟩ := begins
  have opened {b : UInt8} {rest : Bytes} (spelled : place.node.render = b :: rest) :
      doc.buf[offset]? = some b := by
    rw [text, spelled]
    exact getElem?_at at_
  cases spelled : place.node with
  | scalar token =>
      rw [spelled] at valid text
      exact inferredTypeName_of_scalarTypeAt (scalarTypeAt_eq valid at_ text)
  | str body =>
      rw [inferredTypeName, opened (by rw [spelled]; rfl)]
      rfl
  | empty kind blank =>
      rw [inferredTypeName, opened (by rw [spelled]; rfl)]
      cases kind <;> rfl
  | node kind entries =>
      rw [inferredTypeName, opened (by rw [spelled]; rfl)]
      cases kind <;> rfl

theorem scalar_of_type {node : Tree} (type : nodeType node = .num ∨ nodeType node = .bool) :
    ∃ token, node = .scalar token := by
  cases node with
  | scalar token => exact ⟨token, rfl⟩
  | str body => rcases type with type | type <;> cases type
  | empty kind blank => rcases type with type | type <;> cases kind <;> cases type
  | node kind entries => rcases type with type | type <;> cases kind <;> cases type

/-- A getter that expects the type it finds fails for a mismatch only where an integer is read
and the number is not one. -/
theorem mismatch_of_readNode {std : StdFloat F} {getter : Getter} {expected : Expected}
    (valid : place.node.Valid)
    (failed : readNode std place getter = .error (.typeMismatch, offset))
    (expects : Lua.expected getter = some expected)
    (accepts : expected.Accepts (nodeType place.node)) :
    (getter = .getI64 ∨ getter = .getU64) ∧
      ∃ token, place.node = .scalar token ∧ hasFraction token = true := by
  have number (num : nodeType place.node = .num) : ∃ token, place.node = .scalar token ∧
      IsNumber token ∧ numberText place = .ok token ∧ scalarText place = .ok token := by
    obtain ⟨token, spelled⟩ := scalar_of_type (.inl num)
    have text : scalarText place = .ok token := by
      rw [scalarText, spelled]
    rw [spelled] at valid
    refine ⟨token, spelled, isNumber_of_type valid (spelled ▸ num), ?_, text⟩
    rw [numberText, if_pos num, text]
  have mismatch {α : Type} {output : α → Output F} {result : Rust QjsonErr α}
      (failed : answerAt place.pos output result = .error (.typeMismatch, offset)) :
      result = fail .typeMismatch := by
    rcases result with (_ | _) | _ <;> cases failed
    rfl
  have fraction {low high : Int} {token : Bytes}
      (failed : toRust (exactInteger low high token) = fail .typeMismatch) :
      hasFraction token = true := by
    rw [exactInteger] at failed
    split at failed
    · assumption
    · rw [within] at failed
      split at failed <;> cases failed
  cases getter with
  | typeof | «open» => cases expects
  | len =>
      cases expects
      rw [readNode] at failed
      have container : place.node.kind?.isSome = true := by
        rcases accepts with arr | obj
        · rw [kind_of_nodeType.2 arr]
          rfl
        · rw [kind_of_nodeType.1 obj]
          rfl
      rw [if_pos container] at failed
      cases failed
  | getStr =>
      cases expects
      cases spelled : place.node with
      | str body =>
          rw [readNode, spelled] at failed
          cases failed
      | scalar token =>
          rw [spelled] at accepts
          simp only [Expected.Accepts, nodeType] at accepts
          repeat' split at accepts
          all_goals cases accepts
      | empty kind blank =>
          rw [spelled] at accepts
          cases kind <;> cases accepts
      | node kind entries =>
          rw [spelled] at accepts
          cases kind <;> cases accepts
  | getI64 =>
      cases expects
      obtain ⟨token, spelled, isNumber, text, -⟩ := number accepts
      have read := mismatch failed
      rw [text, ok_bind, parseI64_number isNumber] at read
      exact ⟨.inl rfl, token, spelled, fraction read⟩
  | getU64 =>
      cases expects
      obtain ⟨token, spelled, isNumber, text, -⟩ := number accepts
      have read := mismatch failed
      rw [text, ok_bind, parseU64_number isNumber] at read
      split at read
      · cases read
      · exact ⟨.inr rfl, token, spelled, fraction read⟩
  | getF64 =>
      cases expects
      obtain ⟨token, spelled, isNumber, -, text⟩ := number accepts
      have read := mismatch failed
      have admitted : admission false (fun b => startsNumber b || b == 0x2E) token = .ok () := by
        simp [admission, (validateNumber_ok_iff token).2 isNumber, toRust]
      rw [text, ok_bind, parseF64, admitted, ok_bind] at read
      repeat' split at read
      all_goals cases read
  | getBool =>
      cases expects
      have read := mismatch failed
      obtain ⟨token, spelled⟩ := scalar_of_type (.inr accepts)
      rw [scalarText, spelled, ok_bind] at read
      rw [spelled] at accepts
      simp only [Expected.Accepts, nodeType] at accepts
      split at accepts
      · rename_i literal
        rcases literal with rfl | rfl <;> cases read
      · split at accepts <;> cases accepts

/-- A step fails for a mismatch only where the value is not of the kind that is expected. -/
theorem mismatch_of_pickNode {seg : PathSeg} (failed : pickNode place seg = .error .typeMismatch) :
    match seg with
    | .key _ => nodeType place.node ≠ .obj
    | .idx _ => nodeType place.node ≠ .arr := by
  have refused : select place.node seg = .error .typeMismatch := by
    rw [pickNode] at failed
    split at failed
    · rename_i code meaning
      rw [meaning, Except.error.inj failed]
    · split at failed <;> cases failed
  cases seg with
  | key name =>
      intro object
      rw [select, if_pos (kind_of_nodeType.1 object)] at refused
      split at refused <;> cases refused
  | idx i =>
      intro array
      rw [select, if_pos (kind_of_nodeType.2 array)] at refused
      split at refused <;> cases refused

/-! ## The text of a mismatch -/

/-- The name that a message has for what is expected. -/
def Expected.text : Expected → Bytes
  | .type value => typeText value
  | .container => literal "array/object"

/-- The text for a mismatch at a byte. -/
def mismatchText (expected : Option Expected) (actual : QjsonType) (offset : Nat) : Bytes :=
  literal "qjson: type mismatch" ++
    ((match expected with
      | some expected =>
          literal ": expected " ++ (expected.text ++ (literal ", got " ++ typeText actual))
      | none => []) ++ (literal " at byte " ++ indexText offset))

theorem expectedTypeName_extra (expected : Expected) :
    expectedTypeName expected.extra = some expected.text := by
  cases expected with
  | container => rfl
  | type value => cases value <;> rfl

/-- What is raised for a mismatch at a value. -/
theorem accessMessage_mismatch (valid : place.node.Valid) (begins : Begins doc place offset)
    (located : offset ≠ noOffset) (expected : Option Expected) :
    accessMessage doc.buf .typeMismatch offset expected =
      mismatchText expected (nodeType place.node) offset := by
  have got := inferredTypeName_of_begins valid begins
  rw [accessMessage, formatErrorText_eq, messageOf, errFromI32_codeNumber]
  simp only [formatError, pushOffset, if_pos located, got, mismatchText]
  cases expected with
  | none =>
      have unknown : expectedTypeName (extraOrNone none) = none := by decide
      simp only [Option.map_none, unknown]
      rfl
  | some expected =>
      simp only [Option.map_some, extraOrNone, Option.getD_some, expectedTypeName_extra]
      simp only [List.append_assoc]
      rfl

end Nodes

/-! ## What is raised -/

/-- The getter of a method that takes a path. -/
def Method.getter? : Method → Option Getter
  | .docGet _ getter _ | .cursorGet _ getter _ => some getter
  | _ => none

/-- An integer is read and the number is not one. -/
def NotWhole (method : Method) (node : Tree) : Prop :=
  (method.getter? = some .getI64 ∨ method.getter? = some .getU64) ∧
    ∃ token, node = .scalar token ∧ hasFraction token = true

/-- The path of a Cursor object breaks off at a value that has no such child. -/
def BreaksOff (method : Method) (node : Tree) : Prop :=
  ∃ slot getter path, method = .cursorGet slot getter path ∧
    follow node path = .error .typeMismatch

section Raised

variable {F : Type} {host : Host F} {docs : List Document} {tree : Nat → Tree}
  {start : Nat → Nat} {m : Module} {method : Method} {d e : Nat} {doc : Document}
  {cells : Cells} {cur? : Option Cursor} {result : Located (Output F) × SkipCache}

/-- A getter fails for a mismatch on the way, or at the value that the path leads to. -/
theorem mismatch_on_path {std : StdFloat F} {rootTree : Tree} {from_ : Nat}
    (rep : Stands doc rootTree from_) {cache : SkipCache}
    (sound : CacheOk doc (rootPlace rootTree from_) cache) {route : List Nat} {owner : Place}
    (at_ : (rootPlace rootTree from_).locate route = some owner) {path : Bytes}
    {getter : Getter} {outer offset : Nat}
    (failed : answerFrom outer (leadNode owner path) (fun place => readNode std place getter) =
      .error (.typeMismatch, offset)) :
    offset = outer ∧ follow owner.node path = .error .typeMismatch ∨
      ∃ route next, (rootPlace rootTree from_).locate route = some next ∧
        readNode std next getter = .error (.typeMismatch, offset) := by
  have leads := (resolve_leadNode rep at_ path sound).1
  cases target : leadNode owner path with
  | error code =>
      rw [target] at failed
      cases failed
      refine .inl ⟨rfl, ?_⟩
      rw [leadNode] at target
      split at target
      · rename_i meaning
        rw [meaning, Except.error.inj target]
      · split at target <;> cases target
  | ok next =>
      rw [target] at leads failed
      obtain ⟨-, route, below⟩ := leads
      exact .inr ⟨route, next, below, failed⟩

/-- A mismatch is reported at the value that the path leads to or, where the path of a Cursor
object breaks off, at the value that it starts from. -/
theorem mismatch_blames {r : Reader} (rep : Stands doc (tree d) (start d))
    (shows : Shows doc (tree d) (start d) (cells.machine cur?) r) {offset : Nat}
    (failed : r.answer host.std (tree d) (start d) method.access =
      some (.error (.typeMismatch, offset))) (located : offset ≠ noOffset) :
    ∃ route place, (rootPlace (tree d) (start d)).locate route = some place ∧
      offset = place.pos ∧
      ∀ expected, method.expected = some expected → expected.Accepts (nodeType place.node) →
        NotWhole method place.node ∨ cur? = some place.cursor ∧ BreaksOff method place.node := by
  have held {place : Place} (here : r.places[0]? = some place) : cur? = some place.cursor ∧
      ∃ route, (rootPlace (tree d) (start d)).locate route = some place := by
    have first := congrArg (fun cursors => cursors[0]?) shows.cursors
    rw [List.getElem?_map, here] at first
    refine ⟨?_, shows.places place (List.mem_of_getElem? here)⟩
    cases cur? with
    | none => cases first
    | some cur => exact first
  have read {route : List Nat} {next : Place} {getter : Getter}
      (at_ : (rootPlace (tree d) (start d)).locate route = some next)
      (failed : readNode host.std next getter = .error (.typeMismatch, offset)) :
      offset = next.pos ∧ ∀ expected, Lua.expected getter = some expected →
        expected.Accepts (nodeType next.node) →
          (getter = .getI64 ∨ getter = .getU64) ∧
            ∃ token, next.node = .scalar token ∧ hasFraction token = true := by
    refine ⟨(offset_of_readNode failed).resolve_left located, fun expected expects accepts => ?_⟩
    exact mismatch_of_readNode (rep.locate at_).1.valid failed expects accepts
  have whole {getter : Getter} {next : Place} (same : method.getter? = some getter)
      (integer : (getter = .getI64 ∨ getter = .getU64) ∧
        ∃ token, next.node = .scalar token ∧ hasFraction token = true) :
      NotWhole method next.node := by
    rw [NotWhole, same, Option.some.injEq, Option.some.injEq]
    exact integer
  have step {seg : PathSeg} {owner : Place} {Found : Place → Answer F}
      (failed : answerFrom owner.pos (pickNode owner seg) Found =
        .error (.typeMismatch, offset)) (finds : ∀ child, ∃ finding, Found child = .ok finding) :
      offset = owner.pos ∧ pickNode owner seg = .error .typeMismatch := by
    cases target : pickNode owner seg with
    | error code =>
        rw [target] at failed
        cases failed
        exact ⟨rfl, rfl⟩
    | ok child =>
        obtain ⟨finding, found⟩ := finds child
        rw [target, answerFrom, found] at failed
        cases failed
  cases method with
  | docGet _ getter path =>
      rw [Method.access, Reader.answer, Option.some.injEq] at failed
      rcases mismatch_on_path rep shows.cache (Place.locate_nil _) failed with
        ⟨cleared, -⟩ | ⟨route, next, at_, failed⟩
      · exact absurd cleared located
      · obtain ⟨here, misses⟩ := read at_ failed
        exact ⟨route, next, at_, here, fun expected expects accepts =>
          .inl (whole rfl (misses expected expects accepts))⟩
  | docIsNull _ path =>
      rw [Method.access, Reader.answer, Option.some.injEq] at failed
      cases target : leadNode (rootPlace (tree d) (start d)) path with
      | error code =>
          rw [target] at failed
          cases failed
          exact absurd rfl located
      | ok next =>
          rw [target] at failed
          cases failed
  | cursorGet slot getter path =>
      rw [Method.access, Reader.answer] at failed
      obtain ⟨owner, here, failed⟩ := Option.map_eq_some_iff.1 failed
      obtain ⟨same, ownerRoute, at_⟩ := held here
      rcases mismatch_on_path rep shows.cache at_ failed with
        ⟨outer, breaks⟩ | ⟨route, next, below, failed⟩
      · exact ⟨ownerRoute, owner, at_, outer, fun _ _ _ =>
          .inr ⟨same, slot, getter, path, rfl, breaks⟩⟩
      · obtain ⟨here, misses⟩ := read below failed
        exact ⟨route, next, below, here, fun expected expects accepts =>
          .inl (whole rfl (misses expected expects accepts))⟩
  | cursorField slot key =>
      rw [Method.access, Reader.answer] at failed
      obtain ⟨owner, here, failed⟩ := Option.map_eq_some_iff.1 failed
      obtain ⟨-, route, at_⟩ := held here
      obtain ⟨outer, refused⟩ := step failed fun child => ⟨_, rfl⟩
      refine ⟨route, owner, at_, outer, fun expected expects accepts => ?_⟩
      cases expects
      exact absurd accepts (mismatch_of_pickNode refused)
  | cursorIndex slot i =>
      rw [Method.access, Reader.answer] at failed
      obtain ⟨owner, here, failed⟩ := Option.map_eq_some_iff.1 failed
      obtain ⟨-, route, at_⟩ := held here
      split at failed
      · cases failed
      · obtain ⟨outer, refused⟩ := step failed fun child => ⟨_, rfl⟩
        refine ⟨route, owner, at_, outer, fun expected expects accepts => ?_⟩
        cases expects
        exact absurd accepts (mismatch_of_pickNode refused)

/-- What is raised behind a call that looks at its own document. -/
theorem Reaches.raised (runs : Reaches host docs tree start m method d e doc cells cur? result)
    (own : m.Owns method) {text : Bytes} (raised : m.raises host docs method = some text) :
    ∃ code, ffiCatch result.1 = .error code ∧
      text = accessMessage doc.buf code (offsetBehind doc result.1) method.expected := by
  obtain rfl := Option.some.inj (runs.docOf.symm.trans (own d cur? runs.target))
  have bound := (List.getElem?_eq_some_iff.1 runs.cellsAt).1
  have offset : (m.behind e doc result).lastErrorOffset e = offsetBehind doc result.1 := by
    rw [Module.lastErrorOffset, Module.behind, List.getElem?_set_self bound]
    rfl
  rw [Module.raises, runs.docOf, runs.step, Option.bind_some, runs.docAt] at raised
  cases caught : ffiCatch result.1 with
  | ok output =>
      rw [caught] at raised
      cases output <;> cases raised
  | error code =>
      rw [caught] at raised
      refine ⟨code, rfl, ?_⟩
      rw [← offset]
      cases code <;> first
        | exact (Option.some.inj raised).symm
        | cases raised

/-- What the text of an error tells.  It is a short line of printable bytes.  Where it gives a
byte, a value starts there.  Where it reports a mismatch at a byte, it names the type of the
value that starts there; this is a type that was expected only if an integer is read and the
number is not one, or if the path of a Cursor object breaks off, when the value is the one that
the path starts from. -/
def Tells (root : Place) (doc : Document) (cur? : Option Cursor) (method : Method)
    (text : Bytes) : Prop :=
  IsLine 152 text ∧ ∃ code offset, text = accessMessage doc.buf code offset method.expected ∧
    (offset = noOffset ∨ ∃ route place, root.locate route = some place ∧
      Begins doc place offset) ∧
    (code = .typeMismatch → text = literal "qjson: type mismatch" ∨
      ∃ route place, root.locate route = some place ∧ Begins doc place offset ∧
        text = mismatchText method.expected (nodeType place.node) offset ∧
        ∀ expected, method.expected = some expected → expected.Accepts (nodeType place.node) →
          NotWhole method place.node ∨ cur? = some place.cursor ∧ BreaksOff method place.node)

theorem extraOrNone_lt (expected : Option Expected) :
    extraOrNone (expected.map Expected.extra) < 2 ^ 64 := by
  cases expected with
  | none => decide
  | some expected =>
      cases expected with
      | container => decide
      | type value => cases value <;> decide

theorem isLine_accessMessage {buf : Bytes} {code : QjsonErr} {offset : Nat}
    (small : offset < 2 ^ 64) (expected : Option Expected) :
    IsLine 152 (accessMessage buf code offset expected) := by
  have front : IsLine 7 (literal "qjson: ") := by decide
  rw [accessMessage, formatErrorText_eq]
  exact front.append (isLine_messageOf small (extraOrNone_lt expected))

/-- A mismatch that is not located. -/
theorem accessMessage_cleared {buf : Bytes} (small : buf.length < noOffset)
    (expected : Option Expected) :
    accessMessage buf .typeMismatch noOffset expected = literal "qjson: type mismatch" := by
  have nothing : inferredTypeName buf noOffset = none := by
    rw [inferredTypeName, List.getElem?_eq_none (Nat.le_of_lt small)]
  rw [accessMessage, formatErrorText_eq, messageOf, errFromI32_codeNumber]
  simp only [formatError, nothing, pushOffset, ne_eq, not_true_eq_false, if_false]
  split
  · rename_i none_
    cases none_
  · rfl

variable (stands : ∀ d doc, docs[d]? = some doc → Stands doc (tree d) (start d))
  (validator : IsStringValidator host.validateString)
include stands validator

theorem Reaches.tells (runs : Reaches host docs tree start m method d e doc cells cur? result)
    (own : m.Owns method) {text : Bytes} (raised : m.raises host docs method = some text) :
    Tells (rootPlace (tree d) (start d)) doc cur? method text := by
  obtain ⟨code, caught, rfl⟩ := runs.raised own raised
  obtain ⟨r, answer, shows, failed, answers⟩ := runs.answers stands validator
  have rep := stands d doc runs.docAt
  have short : doc.buf.length < noOffset := rep.small.trans (by decide)
  cases answer with
  | ok finding =>
      rw [answers.meets.1] at caught
      cases caught
  | error failure =>
      obtain ⟨code', offset⟩ := failure
      obtain ⟨caught', behind⟩ := answers.meets
      obtain rfl := Except.error.inj (caught'.symm.trans caught)
      have located : offset = noOffset ∨ ∃ route place,
          (rootPlace (tree d) (start d)).locate route = some place ∧
            Begins doc place offset := by
        rcases shows.blamed rep failed with cleared | ⟨cur, route, place, -, at_, -, reported⟩
        · exact .inl cleared
        · have here : offset = place.pos := by
            cases method <;> exact reported
          exact .inr ⟨route, place, at_, here ▸ begins_of_locate rep at_⟩
      have small : offset < 2 ^ 64 := by
        rcases located with cleared | ⟨-, place, -, begins⟩
        · rw [cleared]
          decide
        · exact (begins.2.1.trans short).trans (by decide)
      rw [behind]
      refine ⟨isLine_accessMessage small _, code', offset, rfl, located, ?_⟩
      rintro rfl
      by_cases cleared : offset = noOffset
      · subst cleared
        exact .inl (accessMessage_cleared short _)
      · obtain ⟨route, place, at_, here, misses⟩ := mismatch_blames rep shows failed cleared
        have begins : Begins doc place offset := here ▸ begins_of_locate rep at_
        exact .inr ⟨route, place, at_, begins,
          accessMessage_mismatch (rep.locate at_).1.valid begins cleared _, misses⟩

end Raised

/-- All documents were parsed eagerly from texts whose positions fit the index. -/
def ParsedEagerly (strings : StringPath) (docs : List Document) : Prop :=
  ∀ doc ∈ docs, ∃ scanner buf opts, buf.length < 2 ^ 32 - 1 ∧ opts.isEager = true ∧
    parseWithOptions (dispatch scanner strings) buf opts = .ok doc

/-- In every session with documents that were parsed eagerly, in whatever order methods are
called, the error that a method raises tells the truth about the document, where the method
looks at the error offset of the document that it calls the library on. -/
theorem raised_texts_tell (strings : StringPath) {F : Type} (std : StdFloat F)
    (docs : List Document) (parsed : ParsedEagerly strings docs) :
    ∃ (tree : Nat → Tree) (start : Nat → Nat),
      (∀ d doc, docs[d]? = some doc →
        (tree d).Parses doc.buf ∧ Stands doc (tree d) (start d)) ∧
      ∀ m opened, Session ⟨strings.validate, std⟩ docs (fun _ _ => True) m opened →
        ∀ method, m.Owns method → ∀ text,
          m.raises ⟨strings.validate, std⟩ docs method = some text →
          ∃ d cur? doc, docs[d]? = some doc ∧ m.target method = some (d, cur?) ∧
            Tells (rootPlace (tree d) (start d)) doc cur? method text := by
  have standing (d : Nat) : ∃ (tree : Tree) (start : Nat), ∀ doc, docs[d]? = some doc →
      tree.Parses doc.buf ∧ Stands doc tree start := by
    cases here : docs[d]? with
    | none => exact ⟨.str [], 0, fun doc none => (by cases none)⟩
    | some doc =>
        obtain ⟨scanner, buf, opts, small, eager, ok⟩ := parsed doc (List.mem_of_getElem? here)
        obtain ⟨tree, parses⟩ := exists_parses scanner strings small eager ok
        obtain ⟨start, rep⟩ := stands_of_parse scanner strings small ok parses
        refine ⟨tree, start, fun doc' same => ?_⟩
        obtain rfl := Option.some.inj same
        obtain ⟨rfl, -, -⟩ := indexed_of_parse scanner strings small ok
        exact ⟨parses, rep⟩
  choose tree start standing using standing
  refine ⟨tree, start, standing, fun m opened session method own text raised => ?_⟩
  have stands (d : Nat) (doc : Document) (docAt : docs[d]? = some doc) :
      Stands doc (tree d) (start d) := (standing d doc docAt).2
  have placed := session.placed stands strings.isStringValidator
  cases stepped : m.step ⟨strings.validate, std⟩ docs method with
  | none =>
      rw [Module.raises, stepped] at raised
      split at raised
      · rename_i none_
        cases none_
      · cases raised
  | some result =>
      obtain ⟨d, e, doc, cells, cur?, result, runs⟩ := placed.reaches stepped
      exact ⟨d, cur?, doc, runs.docAt, runs.target,
        runs.tells stands strings.isStringValidator own raised⟩

/-- `a:get_str()` behind `a = doc:open("a")` and `b = doc:open("b")`. -/
theorem raised_texts_tell_pair :
    ∃ (tree : Nat → Tree) (start : Nat → Nat), (tree 0).Parses pairText ∧
      Tells (rootPlace (tree 0) (start 0)) pairDoc (some ⟨8, 9⟩) (.cursorGet 0 .getStr [])
        (literal "qjson: type mismatch: expected string, got number at byte 11") := by
  have parsed : ParsedEagerly .scalar [pairDoc] := by
    intro doc member
    obtain rfl := List.mem_singleton.1 member
    exact ⟨.scalar, pairText, Options.default, by decide, by decide, by decide +kernel⟩
  obtain ⟨tree, start, standing, told⟩ := raised_texts_tell .scalar unitFloat [pairDoc] parsed
  have own : pairModule.Owns (.cursorGet 0 .getStr []) := by
    rintro d cur? target
    cases target
    rfl
  obtain ⟨d, cur?, doc, docAt, target, tells⟩ := told pairModule pairOpened
    (session_pair fun _ _ => trivial) (.cursorGet 0 .getStr []) own
    (literal "qjson: type mismatch: expected string, got number at byte 11") (by decide +kernel)
  cases target
  obtain rfl := Option.some.inj docAt
  exact ⟨tree, start, (standing 0 pairDoc rfl).1, tells⟩

end QJson.Lua

import QJson.Ffi.Members

/-!
# The reader of a parse tree

What the accessors are for, stated on parse trees: a caller holds nodes and positions
among the members of objects, and every call is a function of the node it is made on.
There are no marks, no cursors and no skip cache.  Over a document in which the tree
stands, every program of accessor calls has the trace that the reader of the tree has
(`trace_eq_reader`), so documents with one tree cannot be told apart.
-/

namespace QJson.Ffi

open Rfc8259 Validate Doc Decode

/-! ## Calls on a tree -/

/-- What a call on a tree finds. -/
inductive Finding (F : Type) where
  | plain (output : Output F)
  | node (place : Place)
  | member (key : Bytes) (place : Place)
  | iter (owner : Place)
  | next (key : Bytes) (place owner : Place) (k : Nat)

/-- What the out pointers hold of it. -/
def Finding.output {F : Type} : Finding F → Output F
  | .plain output => output
  | .node place => .cursor place.cursor
  | .member key place => .entry key place.cursor
  | .iter owner => .iter (iterPlace owner 0)
  | .next key place owner k => .next key place.cursor (iterPlace owner k)

/-- A finding, or a code with the error offset. -/
abbrev Answer (F : Type) := Except (QjsonErr × Nat) (Finding F)

/-- What the caller sees of an answer. -/
def Answer.reply {F : Type} : Answer F → Except QjsonErr (Output F)
  | .ok finding => .ok finding.output
  | .error (code, _) => .error code

/-- An outcome, reported at an offset. -/
def answerAt {F α : Type} (offset : Nat) (output : α → Output F) : Rust QjsonErr α → Answer F
  | .ok value => .ok (.plain (output value))
  | .error (.err code) => .error (code, offset)
  | .error .panic => .error (.oom, noOffset)

/-- What a getter reads at a node. -/
def readNode {F : Type} (std : StdFloat F) (place : Place) : Getter → Answer F
  | .typeof => .ok (.plain (.type (nodeType place.node)))
  | .len =>
      answerAt place.pos .count (if place.node.kind?.isSome then
        .ok place.node.children.length else fail .typeMismatch)
  | .getStr =>
      match place.node with
      | .str body => .ok (.plain (.text (bodyText body)))
      | _ => .error (.typeMismatch, place.pos)
  | .getI64 =>
      answerAt place.pos .int (numberText place >>= fun bytes => parseI64 bytes false)
  | .getU64 =>
      answerAt place.pos .int (numberText place >>= fun bytes => parseU64 bytes false)
  | .getF64 =>
      answerAt place.pos .float (scalarText place >>= fun bytes => parseF64 std bytes false)
  | .getBool => answerAt place.pos .flag (scalarText place >>= boolOf)
  | .open => .ok (.node place)

/-- The child that a segment selects. -/
def pickNode (place : Place) (seg : PathSeg) : Except QjsonErr Place :=
  match select place.node seg with
  | .error code => .error code
  | .ok i =>
      match place.children[i]? with
      | some child => .ok child.place
      | none => .error .notFound

/-- The node that a path leads to. -/
def leadNode (place : Place) (path : Bytes) : Except QjsonErr Place :=
  match follow place.node path with
  | .error code => .error code
  | .ok route =>
      match place.locate route with
      | some next => .ok next
      | none => .error .notFound

/-- A read behind the resolution of a path, whose failure is reported at an offset. -/
def answerFrom {F : Type} (offset : Nat) (resolved : Except QjsonErr Place)
    (read : Place → Answer F) : Answer F :=
  match resolved with
  | .ok place => read place
  | .error code => .error (code, offset)

/-- What the caller of a tree holds: nodes, positions among the members of objects, and
the offset of the last error. -/
structure Reader where
  lastErrorOffset : Nat
  places : List Place
  iters : List (Place × Nat)

/-- The reader behind `qjson_parse_ex`. -/
def Reader.start : Reader := ⟨noOffset, [], []⟩

section Steps

variable {F : Type} (std : StdFloat F) (tree : Tree) (start : Nat)

/-- What a call finds; `none` for a position that holds nothing. -/
def Reader.answer (r : Reader) : Access → Option (Answer F)
  | .get .root getter path =>
      some (answerFrom noOffset (leadNode (rootPlace tree start) path)
        fun place => readNode std place getter)
  | .get (.cursor slot) getter path =>
      r.places[slot]?.map fun place =>
        answerFrom place.pos (leadNode place path) fun next => readNode std next getter
  | .isNull path =>
      some (answerFrom noOffset (leadNode (rootPlace tree start) path)
        fun place => .ok (.plain (.flag (nodeType place.node == .null))))
  | .field slot key =>
      r.places[slot]?.map fun place =>
        answerFrom place.pos (pickNode place (.key key)) fun child => .ok (.node child)
  | .index slot i =>
      r.places[slot]?.map fun place =>
        if u32Max < i then .error (.invalidArg, noOffset)
        else answerFrom place.pos (pickNode place (.idx i)) fun child => .ok (.node child)
  | .bytes slot =>
      r.places[slot]?.map fun place =>
        .ok (.plain (.range place.pos (place.pos + place.node.render.length)))
  | .entryAt slot i =>
      r.places[slot]?.map fun place =>
        if place.node.kind? = some .obj then
          match place.children[i]? with
          | some child => .ok (.member (keyText child) child.place)
          | none => .error (.notFound, place.pos)
        else .error (.typeMismatch, place.pos)
  | .iterInit slot =>
      r.places[slot]?.map fun place =>
        if place.node.kind? = some .obj then .ok (.iter place)
        -- The mark at a scalar is the one behind it.
        else .error (.typeMismatch, ((tree.marks start ++ [u32Max])[place.ix]?).getD noOffset)
  | .iterNext slot =>
      r.iters[slot]?.map fun it =>
        match it.1.children[it.2]? with
        | some child => .ok (.next (keyText child) child.place it.1 (it.2 + 1))
        | none => .error (.notFound, noOffset)

/-- The reader keeps what a call found. -/
def Reader.keep (r : Reader) (slot : Nat) : Finding F → Reader
  | .plain _ => r
  | .node place => { r with places := r.places ++ [place] }
  | .member _ place => { r with places := r.places ++ [place] }
  | .iter owner => { r with iters := r.iters ++ [(owner, 0)] }
  | .next _ place owner k =>
      { r with places := r.places ++ [place], iters := r.iters.set slot (owner, k) }

/-- A call on a tree. -/
def Reader.step (r : Reader) (access : Access) : Except QjsonErr (Output F) × Reader :=
  match r.answer std tree start access with
  | none => (.error .invalidArg, r)
  | some (.ok finding) =>
      (.ok finding.output, { r with lastErrorOffset := noOffset }.keep access.slot finding)
  | some (.error (code, offset)) => (.error code, { r with lastErrorOffset := offset })

/-- What the caller sees of a program. -/
def Reader.trace (r : Reader) : List Access → List (Except QjsonErr (Output F) × Nat)
  | [] => []
  | access :: program =>
      let reply := r.step std tree start access
      (reply.1, reply.2.lastErrorOffset) :: reply.2.trace program

end Steps

/-! ## Single calls -/

section Calls

variable {F : Type}

/-- The nodes of a finding are nodes of the tree. -/
def Finding.Below (root : Place) : Finding F → Prop
  | .plain output => output.cursor? = none ∧ output.iter? = none
  | .node place | .member _ place => ∃ path, root.locate path = some place
  | .iter owner =>
      (∃ path, root.locate path = some owner) ∧ owner.node.kind? = some .obj
  | .next _ place owner _ =>
      (∃ path, root.locate path = some place) ∧ (∃ path, root.locate path = some owner) ∧
        owner.node.kind? = some .obj

/-- The outcome of an accessor is what the reader answers. -/
def Meets (doc : Document) (root : Place) (result : Located (Output F)) : Answer F → Prop
  | .ok finding => result = .ok finding.output ∧ finding.Below root
  | .error (code, offset) => ffiCatch result = .error code ∧ offsetBehind doc result = offset

variable {doc : Document} {tree : Tree} {start : Nat} {path : List Nat} {place : Place}
  {host : Host F}

theorem Meets.reply {root : Place} {result : Located (Output F)} {answer : Answer F}
    (meets : Meets doc root result answer) : ffiCatch result = Answer.reply answer := by
  cases answer with
  | ok finding =>
      rw [meets.1]
      rfl
  | error failure => exact meets.1

theorem meets_fail {code : QjsonErr} {site : Site} {offset : Nat}
    (at_ : offsetBehind doc (.error (.err (code, site)) : Located (Output F)) = offset) :
    Meets doc (rootPlace tree start) (.error (.err (code, site)) : Located (Output F))
      (.error (code, offset)) :=
  ⟨rfl, at_⟩

theorem meets_reportAt {α : Type} {site : Site} {offset : Nat} (result : Rust QjsonErr α)
    (output : α → Output F) (at_ : ∀ code,
      offsetBehind doc (.error (.err (code, site)) : Located (Output F)) = offset)
    (plain : ∀ value, (output value).cursor? = none ∧ (output value).iter? = none) :
    Meets doc (rootPlace tree start) (reportAt site result >>= fun value => .ok (output value))
      (answerAt offset output result) := by
  rcases result with (code | _) | value
  · exact meets_fail (at_ code)
  · exact ⟨rfl, rfl⟩
  · exact ⟨rfl, plain value⟩

section Place

variable (rep : Stands doc tree start) (found : (rootPlace tree start).locate path = some place)
include rep found

theorem offsetBehind_node (code : QjsonErr) :
    offsetBehind doc (.error (.err (code, .value place.cursor)) : Located (Output F)) =
      place.pos := by
  rw [offsetBehind, cursorValueStartOffset_eq rep found]
  rfl

omit rep found in
theorem offsetBehind_nowhere (code : QjsonErr) :
    offsetBehind doc (.error (.err (code, .nowhere)) : Located (Output F)) = noOffset := rfl

variable (validator : IsStringValidator host.validateString)

include validator in
theorem Getter.read_meets (getter : Getter) :
    Meets doc (rootPlace tree start) (getter.read host doc place.cursor)
      (readNode host.std place getter) := by
  have valid := (rep.locate found).1.valid
  have at_ := @offsetBehind_node F _ _ _ _ _ rep found
  cases getter with
  | typeof =>
      rw [Getter.read, typeOf_eq rep found]
      exact ⟨rfl, rfl, rfl⟩
  | len =>
      rw [Getter.read, cursorLen_eq rep found]
      exact meets_reportAt _ _ at_ fun _ => ⟨rfl, rfl⟩
  | getStr =>
      rw [Getter.read, strAt_eq validator rep found, readNode]
      cases place.node with
      | str body => exact ⟨rfl, rfl, rfl⟩
      | _ => exact meets_fail (at_ _)
  | getI64 =>
      rw [Getter.read, i64At, numberBytes_eq rep found,
        decode_number (fun _ => parseI64_scalar) valid]
      exact meets_reportAt _ _ at_ fun _ => ⟨rfl, rfl⟩
  | getU64 =>
      rw [Getter.read, u64At, numberBytes_eq rep found,
        decode_number (fun _ => parseU64_scalar) valid]
      exact meets_reportAt _ _ at_ fun _ => ⟨rfl, rfl⟩
  | getF64 =>
      rw [Getter.read, f64At, scalarBytes_eq rep found,
        decode_text (fun _ shape => parseF64_scalar shape host.std) valid]
      exact meets_reportAt _ _ at_ fun _ => ⟨rfl, rfl⟩
  | getBool =>
      rw [Getter.read, boolAt, scalarBytes_eq rep found]
      exact meets_reportAt _ _ at_ fun _ => ⟨rfl, rfl⟩
  | «open» => exact ⟨rfl, path, found⟩

theorem step_pickNode (seg : PathSeg) {cache : SkipCache}
    (sound : CacheOk doc (rootPlace tree start) cache) :
    match pickNode place seg with
    | .ok child => (step doc cache place.cursor seg).1 = .ok child.cursor ∧
        ∃ path, (rootPlace tree start).locate path = some child
    | .error code => (step doc cache place.cursor seg).1 = fail code := by
  have stepped := (step_eq rep found seg sound).1
  rw [pickNode]
  cases meaning : select place.node seg with
  | error code =>
      rw [meaning] at stepped
      exact stepped
  | ok i =>
      rw [meaning] at stepped
      obtain ⟨child, at_, result⟩ := stepped
      simp only [at_]
      exact ⟨result, path ++ [i], Place.locate_child found at_⟩

theorem resolve_leadNode (text : Bytes) {cache : SkipCache}
    (sound : CacheOk doc (rootPlace tree start) cache) :
    (match leadNode place text with
      | .ok next => (resolve doc cache place.cursor text).1 = .ok next.cursor ∧
          ∃ path, (rootPlace tree start).locate path = some next
      | .error code => (resolve doc cache place.cursor text).1 = fail code) ∧
      CacheOk doc (rootPlace tree start) (resolve doc cache place.cursor text).2 := by
  obtain ⟨returns, sound'⟩ := resolve_returns rep text found sound
  refine ⟨?_, sound'⟩
  rw [leadNode]
  cases meaning : follow place.node text with
  | error code =>
      rw [meaning] at returns
      exact returns
  | ok route =>
      rw [meaning] at returns
      obtain ⟨cur, result, next, at_, rfl⟩ := returns
      have below := at_
      rw [Place.locate_append, found, Option.bind_some] at below
      simp only [below]
      exact ⟨result, path ++ route, at_⟩

end Place

end Calls

/-! ## Programs -/

section Programs

variable {F : Type} {host : Host F} {doc : Document} {tree : Tree} {start : Nat}

/-- The machine holds the cursors and iterators of what the reader holds, and its skip
cache is sound. -/
structure Shows (doc : Document) (tree : Tree) (start : Nat) (m : Machine) (r : Reader) :
    Prop where
  cache : CacheOk doc (rootPlace tree start) m.cache
  offset : m.lastErrorOffset = r.lastErrorOffset
  cursors : m.cursors = r.places.map Place.cursor
  iters : m.iters = r.iters.map fun it => iterPlace it.1 it.2
  places : ∀ place ∈ r.places, ∃ path, (rootPlace tree start).locate path = some place
  owners : ∀ it ∈ r.iters, (∃ path, (rootPlace tree start).locate path = some it.1) ∧
    it.1.node.kind? = some .obj

theorem shows_start (doc : Document) (tree : Tree) (start : Nat) :
    Shows doc tree start Machine.start Reader.start where
  cache := CacheOk.new doc _
  offset := rfl
  cursors := rfl
  iters := rfl
  places _ none := by cases none
  owners _ none := by cases none

/-- An outcome and the skip cache behind it, next to what the reader answers. -/
structure Answers (doc : Document) (tree : Tree) (start : Nat)
    (result : Located (Output F) × SkipCache) (answer : Answer F) : Prop where
  meets : Meets doc (rootPlace tree start) result.1 answer
  cache : CacheOk doc (rootPlace tree start) result.2

variable {m : Machine} {r : Reader}

/-- What is kept is shown. -/
theorem Shows.settle (shows : Shows doc tree start m r)
    {result : Located (Output F) × SkipCache} {finding : Finding F} (slot : Nat)
    (answers : Answers doc tree start result (.ok finding)) :
    Shows doc tree start (m.settle doc slot result)
      ({ r with lastErrorOffset := noOffset }.keep slot finding) := by
  obtain ⟨outcome, cache⟩ := result
  obtain ⟨⟨ok, within⟩, sound⟩ := answers
  obtain rfl : outcome = .ok finding.output := ok
  have cursors := shows.cursors
  have iters := shows.iters
  have kept {place : Place}
      (at_ : ∃ path, (rootPlace tree start).locate path = some place) :
      ∀ other ∈ r.places ++ [place], ∃ path,
        (rootPlace tree start).locate path = some other := by
    intro other member
    rcases List.mem_append.1 member with old | new
    · exact shows.places other old
    · exact List.mem_singleton.1 new ▸ at_
  cases finding with
  | plain output =>
      obtain ⟨noCursor, noIter⟩ := within
      cases output with
      | cursor _ | entry _ _ | next _ _ _ => cases noCursor
      | iter _ => cases noIter
      | _ => exact ⟨sound, rfl, cursors, iters, shows.places, shows.owners⟩
  | node place =>
      refine ⟨sound, rfl, ?_, iters, kept within, shows.owners⟩
      change m.cursors ++ [place.cursor] = (r.places ++ [place]).map Place.cursor
      rw [cursors, List.map_append]
      rfl
  | member key place =>
      refine ⟨sound, rfl, ?_, iters, kept within, shows.owners⟩
      change m.cursors ++ [place.cursor] = (r.places ++ [place]).map Place.cursor
      rw [cursors, List.map_append]
      rfl
  | iter owner =>
      refine ⟨sound, rfl, cursors, ?_, shows.places, fun it member => ?_⟩
      · change m.iters ++ [iterPlace owner 0] =
          (r.iters ++ [(owner, 0)]).map fun (it : Place × Nat) => iterPlace it.1 it.2
        rw [iters, List.map_append]
        rfl
      · rcases List.mem_append.1 member with old | new
        · exact shows.owners it old
        · exact List.mem_singleton.1 new ▸ within
  | next key place owner k =>
      refine ⟨sound, rfl, ?_, ?_, kept within.1, fun it member => ?_⟩
      · change m.cursors ++ [place.cursor] = (r.places ++ [place]).map Place.cursor
        rw [cursors, List.map_append]
        rfl
      · change m.iters.set slot (iterPlace owner k) =
          (r.iters.set slot (owner, k)).map fun (it : Place × Nat) => iterPlace it.1 it.2
        rw [iters, List.map_set]
      · rcases List.mem_or_eq_of_mem_set member with old | rfl
        · exact shows.owners it old
        · exact within.2

theorem Shows.settle_error (shows : Shows doc tree start m r)
    {result : Located (Output F) × SkipCache} {code : QjsonErr} {offset : Nat} (slot : Nat)
    (answers : Answers doc tree start result (.error (code, offset))) :
    Shows doc tree start (m.settle doc slot result) { r with lastErrorOffset := offset } := by
  obtain ⟨outcome, cache⟩ := result
  obtain ⟨⟨failed, at_⟩, sound⟩ := answers
  cases outcome with
  | ok output => cases failed
  | error fault =>
      exact ⟨sound, at_, shows.cursors, shows.iters, shows.places, shows.owners⟩

theorem answers_onPath (rep : Stands doc tree start) {site : Site} {offset : Nat}
    {place : Place} {path : List Nat}
    (found : (rootPlace tree start).locate path = some place)
    (at_ : ∀ code,
      offsetBehind doc (.error (.err (code, site)) : Located (Output F)) = offset)
    {cache : SkipCache} (sound : CacheOk doc (rootPlace tree start) cache) (text : Bytes)
    {read : Cursor → Located (Output F)} {readAt : Place → Answer F}
    (reads : ∀ next path, (rootPlace tree start).locate path = some next →
      Meets doc (rootPlace tree start) (read next.cursor) (readAt next)) :
    Answers doc tree start
      (reportAt site (resolve doc cache place.cursor text).1 >>= read,
        (resolve doc cache place.cursor text).2)
      (answerFrom offset (leadNode place text) readAt) := by
  obtain ⟨leads, sound'⟩ := resolve_leadNode rep found text sound
  refine ⟨?_, sound'⟩
  cases target : leadNode place text with
  | error code =>
      rw [target] at leads
      rw [show (resolve doc cache place.cursor text).1 = fail code from leads]
      exact meets_fail (at_ code)
  | ok next =>
      rw [target] at leads
      obtain ⟨result, route, below⟩ := leads
      rw [result]
      exact reads next route below

theorem answers_step (rep : Stands doc tree start) {place : Place} {path : List Nat}
    (found : (rootPlace tree start).locate path = some place) {cache : SkipCache}
    (sound : CacheOk doc (rootPlace tree start) cache) (seg : PathSeg) :
    Answers doc tree start
      (reportAt (.value place.cursor) (step doc cache place.cursor seg).1 >>= fun child =>
        (.ok (.cursor child) : Located (Output F)), (step doc cache place.cursor seg).2)
      (answerFrom place.pos (pickNode place seg) fun child => .ok (.node child)) := by
  refine ⟨?_, (step_eq rep found seg sound).2⟩
  have picks := step_pickNode rep found seg sound
  cases target : pickNode place seg with
  | error code =>
      rw [target] at picks
      rw [show (step doc cache place.cursor seg).1 = fail code from picks]
      exact meets_fail (offsetBehind_node rep found code)
  | ok child =>
      rw [target] at picks
      obtain ⟨result, below⟩ := picks
      rw [result]
      exact ⟨rfl, below⟩

theorem answers_entryAt (rep : Stands doc tree start)
    (validator : IsStringValidator host.validateString) {place : Place} {path : List Nat}
    (found : (rootPlace tree start).locate path = some place) (i : Nat) :
    Meets doc (rootPlace tree start) (qjsonCursorObjectEntryAt host doc place.cursor i)
      (if place.node.kind? = some .obj then
        match place.children[i]? with
        | some child => .ok (.member (keyText child) child.place)
        | none => .error (.notFound, place.pos)
      else .error (.typeMismatch, place.pos)) := by
  have at_ := @offsetBehind_node F _ _ _ _ _ rep found
  rw [qjsonCursorObjectEntryAt, objectEntryAt_eq rep found validator, entryNode]
  split
  · cases here : place.children[i]? with
    | none => exact meets_fail (at_ _)
    | some child => exact ⟨rfl, path ++ [i], Place.locate_child found here⟩
  · exact meets_fail (at_ _)

theorem answers_iterInit (rep : Stands doc tree start) {place : Place} {path : List Nat}
    (found : (rootPlace tree start).locate path = some place) :
    Meets doc (rootPlace tree start) (qjsonIterInit doc place.cursor : Located (Output F))
      (if place.node.kind? = some .obj then .ok (.iter place)
      else .error (.typeMismatch,
        ((tree.marks start ++ [u32Max])[place.ix]?).getD noOffset)) := by
  obtain ⟨pos, markAt, init⟩ := iterInit_eq rep found
  rw [qjsonIterInit, init]
  split
  · rename_i object
    exact ⟨rfl, ⟨path, found⟩, object⟩
  · rw [← rep.indices, markAt]
    exact meets_fail rfl

theorem answers_iterNext (rep : Stands doc tree start)
    (validator : IsStringValidator host.validateString) {place : Place} {path : List Nat}
    (found : (rootPlace tree start).locate path = some place)
    (object : place.node.kind? = some .obj) (k : Nat) :
    Meets doc (rootPlace tree start) (qjsonIterNext host doc (iterPlace place k))
      (match place.children[k]? with
      | some child => .ok (.next (keyText child) child.place place (k + 1))
      | none => .error (.notFound, noOffset)) := by
  rw [qjsonIterNext, iterNext_eq rep found validator object, nextNode]
  cases here : place.children[k]? with
  | none => exact meets_fail rfl
  | some child =>
      exact ⟨rfl, ⟨path ++ [k], Place.locate_child found here⟩, ⟨path, found⟩, object⟩

variable (rep : Stands doc tree start) (validator : IsStringValidator host.validateString)
include rep validator

/-- A call meets what the reader answers, and both refuse the same null pointers. -/
theorem Shows.answer (shows : Shows doc tree start m r) (access : Access) :
    match m.answer host doc access, r.answer host.std tree start access with
    | some result, some answer => Answers doc tree start result answer
    | none, none => True
    | _, _ => False := by
  have sound := shows.cache
  have root := rep.root
  have held (slot : Nat) : m.cursors[slot]? = (r.places[slot]?).map Place.cursor := by
    rw [shows.cursors, List.getElem?_map]
  have place {slot : Nat} {place : Place} (here : r.places[slot]? = some place) :
      ∃ path, (rootPlace tree start).locate path = some place :=
    shows.places place (List.mem_of_getElem? here)
  have atRoot := Place.locate_nil (rootPlace tree start)
  cases access with
  | get handle getter path =>
      cases handle with
      | root =>
          rw [Machine.answer, Reader.answer, Getter.onRoot_eq, onRootPath, root]
          exact answers_onPath rep atRoot offsetBehind_nowhere sound path fun next route at_ =>
            Getter.read_meets rep at_ validator getter
      | cursor slot =>
          rw [Machine.answer, Reader.answer, held]
          cases here : r.places[slot]? with
          | none => trivial
          | some owner =>
              obtain ⟨route, at_⟩ := place here
              simp only [Option.map_some, Getter.onCursor_eq, onCursorPath]
              exact answers_onPath rep at_ (offsetBehind_node rep at_) sound path
                fun next route at_ => Getter.read_meets rep at_ validator getter
  | isNull path =>
      rw [Machine.answer, Reader.answer, qjsonIsNull, root]
      refine answers_onPath rep atRoot offsetBehind_nowhere sound path fun next route at_ => ?_
      rw [typeOf_eq rep at_]
      exact ⟨rfl, rfl, rfl⟩
  | field slot key =>
      rw [Machine.answer, Reader.answer, held]
      cases here : r.places[slot]? with
      | none => trivial
      | some owner =>
          obtain ⟨route, at_⟩ := place here
          exact answers_step rep at_ sound (.key key)
  | index slot i =>
      rw [Machine.answer, Reader.answer, held]
      cases here : r.places[slot]? with
      | none => trivial
      | some owner =>
          obtain ⟨route, at_⟩ := place here
          simp only [Option.map_some, qjsonCursorIndex]
          split
          · exact ⟨meets_fail rfl, sound⟩
          · exact answers_step rep at_ sound (.idx i)
  | bytes slot =>
      rw [Machine.answer, Reader.answer, held]
      cases here : r.places[slot]? with
      | none => trivial
      | some owner =>
          obtain ⟨route, at_⟩ := place here
          refine ⟨?_, sound⟩
          change Meets doc _ (qjsonCursorBytes doc owner.cursor : Located (Output F)) _
          rw [qjsonCursorBytes, cursorBytes_eq rep at_]
          exact ⟨rfl, rfl, rfl⟩
  | entryAt slot i =>
      rw [Machine.answer, Reader.answer, held]
      cases here : r.places[slot]? with
      | none => trivial
      | some owner =>
          obtain ⟨route, at_⟩ := place here
          exact ⟨answers_entryAt rep validator at_ i, sound⟩
  | iterInit slot =>
      rw [Machine.answer, Reader.answer, held]
      cases here : r.places[slot]? with
      | none => trivial
      | some owner =>
          obtain ⟨route, at_⟩ := place here
          exact ⟨answers_iterInit rep at_, sound⟩
  | iterNext slot =>
      rw [Machine.answer, Reader.answer, shows.iters, List.getElem?_map]
      cases here : r.iters[slot]? with
      | none => trivial
      | some it =>
          obtain ⟨⟨route, at_⟩, object⟩ := shows.owners it (List.mem_of_getElem? here)
          exact ⟨answers_iterNext rep validator at_ object it.2, sound⟩

/-- A call on the document has the reply of the reader, and what both hold stays in
step. -/
theorem Shows.step (shows : Shows doc tree start m r) (access : Access) :
    (m.step host doc access).1 = (r.step host.std tree start access).1 ∧
      Shows doc tree start (m.step host doc access).2
        (r.step host.std tree start access).2 := by
  have answers := shows.answer rep validator access
  cases concrete : m.answer host doc access with
  | none =>
      rw [concrete] at answers
      cases abstract : r.answer host.std tree start access with
      | some answer => rw [abstract] at answers; exact answers.elim
      | none =>
          rw [Machine.step_none concrete, Reader.step, abstract]
          exact ⟨rfl, shows⟩
  | some result =>
      rw [concrete] at answers
      cases abstract : r.answer host.std tree start access with
      | none => rw [abstract] at answers; exact answers.elim
      | some answer =>
          rw [abstract] at answers
          rw [Machine.step_some concrete, Reader.step, abstract]
          cases answer with
          | ok finding =>
              exact ⟨by rw [answers.meets.1]; rfl, shows.settle access.slot answers⟩
          | error failure =>
              exact ⟨answers.meets.1, shows.settle_error access.slot answers⟩

theorem Shows.trace (shows : Shows doc tree start m r) (program : List Access) :
    m.trace host doc program = r.trace host.std tree start program := by
  induction program generalizing m r with
  | nil => rfl
  | cons access program ih =>
      obtain ⟨reply, after⟩ := shows.step rep validator access
      rw [Machine.trace, Reader.trace, ih after]
      simp only [reply, after.offset]

/-- Every program of accessor calls has the trace of the reader of the tree. -/
theorem trace_eq_reader (program : List Access) :
    Machine.start.trace host doc program =
      Reader.start.trace host.std tree start program :=
  (shows_start doc tree start).trace rep validator program

end Programs

end QJson.Ffi

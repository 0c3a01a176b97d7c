import QJson.Decode.Integers
import QJson.Doc.Lazy
import QJson.Ffi.Reader

/-!
# What the getters reply

In every state that programs lead to, a path from a handle leads to the cursor of a node or
fails, and what a getter replies behind it is a function of that node.
-/

namespace QJson.Ffi

open Rfc8259 Validate Doc Decode

/-! ## Paths from handles -/

/-- The cursor that a handle stands for. -/
def Machine.cursorOf (doc : Document) (m : Machine) : Handle → Option Cursor
  | .root => some (Cursor.root doc)
  | .cursor slot => m.cursors[slot]?

/-- A path leads from a handle to a cursor. -/
def Machine.Leads (doc : Document) (m : Machine) (handle : Handle) (path : Bytes)
    (next : Cursor) : Prop :=
  ∃ cur, m.cursorOf doc handle = some cur ∧ (resolve doc m.cache cur path).1 = .ok next

section Paths

variable {F : Type} {host : Host F} {doc : Document} {m : Machine} {handle : Handle}
  {path : Bytes} {next : Cursor}

/-- A getter reads what it finds at the end of the path. -/
theorem Machine.Leads.reply (leads : m.Leads doc handle path next) (getter : Getter) :
    (m.step host doc (.get handle getter path)).1 = ffiCatch (getter.read host doc next) := by
  obtain ⟨cur, held, resolved⟩ := leads
  have read {site : Site} : (reportAt site (resolve doc m.cache cur path).1 >>= fun next =>
      getter.read host doc next) = getter.read host doc next := by
    rw [resolved]
    rfl
  cases handle with
  | root =>
      obtain rfl := Option.some.inj held
      rw [Machine.step, Machine.answer]
      simp only [Getter.onRoot_eq, onRootPath, read]
  | cursor slot =>
      have held : m.cursors[slot]? = some cur := held
      rw [Machine.step, Machine.answer, held]
      simp only [Option.map_some, Getter.onCursor_eq, onCursorPath, read]

variable {tree : Tree} {start : Nat} (rep : Stands doc tree start)
  (validator : IsStringValidator host.validateString)
include rep validator

/-- In every state that programs lead to, the machine shows what a reader holds. -/
theorem Reached.shows (reached : Reached host doc m) : ∃ r, Shows doc tree start m r := by
  induction reached with
  | start => exact ⟨Reader.start, shows_start doc tree start⟩
  | step access _ ih =>
      obtain ⟨r, shows⟩ := ih
      exact ⟨_, (shows.step rep validator access).2⟩

/-- A path leads to the cursor of a node, where the getters read the node. -/
theorem Machine.Leads.node (reached : Reached host doc m)
    (leads : m.Leads doc handle path next) :
    (∃ route place, (rootPlace tree start).locate route = some place ∧ next = place.cursor) ∧
      ∀ route place, (rootPlace tree start).locate route = some place → next = place.cursor →
        ∀ getter, (m.step host doc (.get handle getter path)).1 =
          Answer.reply (readNode host.std place getter) := by
  constructor
  · obtain ⟨r, shows⟩ := reached.shows rep validator
    obtain ⟨cur, held, resolved⟩ := leads
    obtain ⟨owner, route, at_, rfl⟩ : ∃ owner route,
        (rootPlace tree start).locate route = some owner ∧ cur = owner.cursor := by
      cases handle with
      | root => exact ⟨_, [], Place.locate_nil _, (Option.some.inj held).symm.trans rep.root⟩
      | cursor slot =>
          have held : m.cursors[slot]? = some cur := held
          rw [shows.cursors, List.getElem?_map] at held
          obtain ⟨owner, here, rfl⟩ := Option.map_eq_some_iff.1 held
          obtain ⟨route, at_⟩ := shows.places owner (List.mem_of_getElem? here)
          exact ⟨owner, route, at_, rfl⟩
    have landed := (resolve_leadNode rep at_ path shows.cache).1
    cases target : leadNode owner path with
    | error code =>
        rw [target, resolved] at landed
        cases landed
    | ok place =>
        rw [target, resolved] at landed
        obtain ⟨same, route, at_⟩ := landed
        exact ⟨route, place, at_, Except.ok.inj same⟩
  · rintro route place at_ rfl getter
    rw [leads.reply]
    exact (Getter.read_meets rep at_ validator getter).reply

end Paths

/-- A document that parsing returns, in either mode, represents every parse tree of its
text. -/
theorem stands_of_parse (scanner : ScanPath) (strings : StringPath) {buf : Bytes}
    {opts : Options} (small : buf.length < u32Max) {doc : Document}
    (ok : parseWithOptions (dispatch scanner strings) buf opts = .ok doc)
    {tree : Tree} (parses : tree.Parses buf) : ∃ start, Stands doc tree start := by
  obtain ⟨valid, before, after, beforeBlank, afterBlank, rfl⟩ := parses
  obtain ⟨rfl, -, -⟩ := indexed_of_parse scanner strings small ok
  have scan := scanner.scan_parses valid beforeBlank afterBlank (small.trans (by decide))
  exact ⟨before.length, valid, ⟨before, after, beforeBlank, fun _ => afterBlank, rfl, rfl⟩,
    by rw [scan], small⟩

/-! ## Integers -/

theorem isNumber_of_type {token : Bytes} (scalar : IsScalar token)
    (number : nodeType (.scalar token) = .num) : IsNumber token := by
  cases scalar with
  | number number => exact number
  | _ => exact absurd number (by decide)

theorem i64At_number {doc : Document} {cur : Cursor} {token : Bytes}
    (type : typeOf doc cur = .ok .num) (read : scalarBytes doc cur = .ok token)
    (number : IsNumber token) :
    i64At doc cur = toRust (exactInteger (-2 ^ 63) (2 ^ 63 - 1) token) := by
  rw [i64At, numberBytes, type, ok_bind, if_pos rfl, read, ok_bind]
  exact parseI64_number number doc.eagerValidated

/-- `parse_i64` is exact on every number, and `get_i64` returns its result for the token of
every node of a document that is a number. -/
theorem get_i64_exact {F : Type} (std : StdFloat F) :
    (∀ token, validateNumber token = .ok () → ∀ skipValidation,
      parseI64 token skipValidation = toRust (exactInteger (-2 ^ 63) (2 ^ 63 - 1) token)) ∧
    (∀ doc cur token, typeOf doc cur = .ok .num → scalarBytes doc cur = .ok token →
      validateNumber token = .ok () →
      i64At doc cur = toRust (exactInteger (-2 ^ 63) (2 ^ 63 - 1) token)) ∧
    ∀ (scanner : ScanPath) (strings : StringPath) (buf : Bytes) (opts : Options)
      (doc : Document) (tree : Tree), buf.length < 2 ^ 32 - 1 →
      parseWithOptions (dispatch scanner strings) buf opts = .ok doc → tree.Parses buf →
      ∃ start, ∀ m, Reached ⟨strings.validate, std⟩ doc m → ∀ handle path next,
        m.Leads doc handle path next →
        ∃ route place, (rootPlace tree start).locate route = some place ∧
          next = place.cursor ∧ ∀ token, place.node = .scalar token →
            nodeType (.scalar token) = .num → validateNumber token = .ok () ∧
            (m.step ⟨strings.validate, std⟩ doc (.get handle .getI64 path)).1 =
              (exactInteger (-2 ^ 63) (2 ^ 63 - 1) token).map .int := by
  refine ⟨fun token accepted skipValidation =>
      parseI64_number ((validateNumber_ok_iff token).1 accepted) skipValidation,
    fun doc cur token type read accepted =>
      i64At_number type read ((validateNumber_ok_iff token).1 accepted), ?_⟩
  intro scanner strings buf opts doc tree small ok parses
  obtain ⟨start, rep⟩ := stands_of_parse scanner strings small ok parses
  refine ⟨start, fun m reached handle path next leads => ?_⟩
  obtain ⟨⟨route, place, at_, same⟩, reads⟩ :=
    leads.node rep strings.isStringValidator reached
  refine ⟨route, place, at_, same, fun token spelled type => ?_⟩
  have valid := (rep.locate at_).1.valid
  rw [spelled] at valid
  have number := isNumber_of_type valid type
  refine ⟨(validateNumber_ok_iff token).2 number, ?_⟩
  rw [reads route place at_ same, readNode, numberText, spelled, if_pos type, scalarText,
    spelled, ok_bind, parseI64_number number]
  cases exactInteger (-2 ^ 63) (2 ^ 63 - 1) token <;> rfl

/-- `[7]` and its parse tree. -/
def sevenText : Bytes := [0x5B, 0x37, 0x5D]
@[inherit_doc sevenText] def sevenTree : Tree :=
  .node .arr (.last none [] (.scalar [0x37]) [])

theorem sevenTree_parses : sevenTree.Parses sevenText := by
  have blank : IsBlank [] := by simp
  have number : IsNumber [0x37] := (validateNumber_ok_iff _).1 (by decide)
  exact ⟨⟨trivial, blank, .number number, blank⟩, [], [], blank, blank, rfl⟩

theorem get_i64_exact_seven :
    parseI64 [0x37] true = toRust (exactInteger (-2 ^ 63) (2 ^ 63 - 1) [0x37]) ∧
    i64At ⟨sevenText, [0, 2, u32Max], true⟩ ⟨1, 2⟩ =
      toRust (exactInteger (-2 ^ 63) (2 ^ 63 - 1) [0x37]) ∧
    ∃ start, ∀ m, Reached ⟨StringPath.scalar.validate, unitFloat⟩
        ⟨sevenText, [0, 2, u32Max], true⟩ m → ∀ handle path next,
      m.Leads ⟨sevenText, [0, 2, u32Max], true⟩ handle path next →
      ∃ route place, (rootPlace sevenTree start).locate route = some place ∧
        next = place.cursor ∧ ∀ token, place.node = .scalar token →
          nodeType (.scalar token) = .num → validateNumber token = .ok () ∧
          (m.step ⟨StringPath.scalar.validate, unitFloat⟩ ⟨sevenText, [0, 2, u32Max], true⟩
            (.get handle .getI64 path)).1 =
            (exactInteger (-2 ^ 63) (2 ^ 63 - 1) token).map .int :=
  ⟨(get_i64_exact unitFloat).1 [0x37] (by decide) true,
    (get_i64_exact unitFloat).2.1 _ _ _ (by decide) (by decide) (by decide),
    (get_i64_exact unitFloat).2.2 .scalar .scalar sevenText Options.default
      ⟨sevenText, [0, 2, u32Max], true⟩ sevenTree (by decide) (by decide +kernel)
      sevenTree_parses⟩

/-! ## Types -/

/-- The replies of the getters respect the type of a node. -/
structure RespectsType {F : Type} (reply : Getter → Except QjsonErr (Output F)) (node : Tree) :
    Prop where
  typeof : reply .typeof = .ok (.type (nodeType node))
  bool : ∀ value : Bool, node = .scalar (if value then litTrue else litFalse) →
    reply .getBool = .ok (.flag value)
  notBool : nodeType node ≠ .bool → reply .getBool = .error .typeMismatch
  str : ∀ body, node = .str body → reply .getStr = .ok (.text (bodyText body))
  notStr : nodeType node ≠ .str → reply .getStr = .error .typeMismatch
  notI64 : nodeType node ≠ .num → reply .getI64 = .error .typeMismatch
  notU64 : nodeType node ≠ .num → reply .getU64 = .error .typeMismatch

theorem boolOf_scalar {token : Bytes} (notBool : nodeType (.scalar token) ≠ .bool) :
    boolOf token = fail .typeMismatch := by
  have literal : ¬ (token = litTrue ∨ token = litFalse) := by
    intro literal
    rw [nodeType, if_pos literal] at notBool
    exact notBool rfl
  rw [boolOf, if_neg fun same => literal (.inl same), if_neg fun same => literal (.inr same)]

/-- At a node the getters respect its type, unless the node is a root without a scalar
token: there is no mark in front of it, and `qjson_get_bool` fails before it looks at the
type. -/
theorem readNode_respects_iff {F : Type} (std : StdFloat F) (place : Place) :
    RespectsType (fun getter => Answer.reply (readNode std place getter)) place.node ↔
      (place.ix = 0 → ∃ token, place.node = .scalar token) := by
  have number (type : nodeType place.node ≠ .num) : numberText place = fail .typeMismatch := by
    rw [numberText, if_neg type]
  constructor
  · intro respects first
    by_contra other
    have text : scalarText place = fail .parseError := by
      unfold scalarText
      split
      · rename_i token spelled
        exact absurd ⟨token, spelled⟩ other
      · rw [if_pos first]
    have notBool : nodeType place.node ≠ .bool := by
      cases spelled : place.node with
      | scalar token => exact absurd ⟨token, spelled⟩ other
      | str body => simp [nodeType]
      | empty kind blank => cases kind <;> simp [nodeType]
      | node kind entries => cases kind <;> simp [nodeType]
    have reply := respects.notBool notBool
    rw [readNode, text] at reply
    cases reply
  · intro special
    refine ⟨rfl, fun value spelled => ?_, fun notBool => ?_, fun body spelled => ?_,
      fun notStr => ?_, fun notNum => ?_, fun notNum => ?_⟩
    · rw [readNode, scalarText, spelled]
      cases value <;> rfl
    · have read : (scalarText place >>= boolOf) = fail .typeMismatch := by
        unfold scalarText
        split
        · rename_i token spelled
          rw [spelled] at notBool
          exact boolOf_scalar notBool
        · rename_i other
          by_cases first : place.ix = 0
          · obtain ⟨token, spelled⟩ := special first
            exact absurd spelled (other token)
          · rw [if_neg first]
            rfl
      rw [readNode, read]
      rfl
    · rw [readNode, spelled]
      rfl
    · cases spelled : place.node with
      | str body =>
          rw [spelled] at notStr
          exact absurd rfl notStr
      | _ =>
          rw [readNode, spelled]
          rfl
    · rw [readNode, number notNum]
      rfl
    · rw [readNode, number notNum]
      rfl

/-- On an accepted document the getters respect the type of every node that programs come
to, exactly when the node is not a root that is a string, an array or an object. -/
theorem getters_respect_type_iff (scanner : ScanPath) (strings : StringPath) {F : Type}
    (std : StdFloat F) (buf : Bytes) (opts : Options) (doc : Document)
    (small : buf.length < 2 ^ 32 - 1) (eager : opts.isEager = true)
    (parsed : parseWithOptions (dispatch scanner strings) buf opts = .ok doc) :
    ∃ (tree : Tree) (start : Nat), tree.Parses buf ∧
      ∀ m, Reached ⟨strings.validate, std⟩ doc m → ∀ handle path next,
        m.Leads doc handle path next →
        (∃ route place, (rootPlace tree start).locate route = some place ∧
          next = place.cursor) ∧
        ∀ route place, (rootPlace tree start).locate route = some place →
          next = place.cursor →
          (RespectsType
              (fun getter => (m.step ⟨strings.validate, std⟩ doc (.get handle getter path)).1)
              place.node ↔
            (route = [] → ∃ token, place.node = .scalar token)) := by
  obtain ⟨tree, parses⟩ := exists_parses scanner strings small eager parsed
  obtain ⟨start, rep⟩ := stands_of_parse scanner strings small parsed parses
  refine ⟨tree, start, parses, fun m reached handle path next leads => ?_⟩
  obtain ⟨lands, reads⟩ := leads.node rep strings.isStringValidator reached
  refine ⟨lands, fun route place at_ same => ?_⟩
  have replies := funext (reads route place at_ same)
  rw [replies, ← ix_eq_zero_iff at_]
  exact readNode_respects_iff std place

theorem getters_respect_type_iff_member :
    ∃ (tree : Tree) (start : Nat), tree.Parses memberText ∧
      ∀ m, Reached ⟨StringPath.scalar.validate, unitFloat⟩
          ⟨memberText, [0, 1, 3, 4, 5, 10, 11, u32Max], true⟩ m → ∀ handle path next,
        m.Leads ⟨memberText, [0, 1, 3, 4, 5, 10, 11, u32Max], true⟩ handle path next →
        (∃ route place, (rootPlace tree start).locate route = some place ∧
          next = place.cursor) ∧
        ∀ route place, (rootPlace tree start).locate route = some place →
          next = place.cursor →
          (RespectsType (fun getter => (m.step ⟨StringPath.scalar.validate, unitFloat⟩
              ⟨memberText, [0, 1, 3, 4, 5, 10, 11, u32Max], true⟩
              (.get handle getter path)).1) place.node ↔
            (route = [] → ∃ token, place.node = .scalar token)) :=
  getters_respect_type_iff .scalar .scalar unitFloat memberText Options.default
    ⟨memberText, [0, 1, 3, 4, 5, 10, 11, u32Max], true⟩ (by decide) (by decide)
    (by decide +kernel)

/-- On the root of `{}`, `qjson_get_bool` replies with a parse error. -/
theorem not_getters_respect_type_root :
    ¬ ∀ (scanner : ScanPath) (strings : StringPath) (buf : Bytes) (opts : Options)
      (doc : Document), buf.length < 2 ^ 32 - 1 → opts.isEager = true →
      parseWithOptions (dispatch scanner strings) buf opts = .ok doc →
      ∃ (tree : Tree) (start : Nat), tree.Parses buf ∧
        ∀ m, Reached ⟨strings.validate, unitFloat⟩ doc m → ∀ handle path next,
          m.Leads doc handle path next →
          ∃ route place, (rootPlace tree start).locate route = some place ∧
            next = place.cursor ∧ RespectsType (fun getter =>
              (m.step ⟨strings.validate, unitFloat⟩ doc (.get handle getter path)).1)
              place.node := by
  intro claim
  obtain ⟨tree, start, -, respects⟩ := claim .scalar .scalar [0x7B, 0x7D] Options.default
    ⟨[0x7B, 0x7D], [0, 1, u32Max], true⟩ (by decide) (by decide) (by decide +kernel)
  obtain ⟨route, place, -, -, respected⟩ := respects Machine.start .start .root []
    (Cursor.root ⟨[0x7B, 0x7D], [0, 1, u32Max], true⟩) ⟨_, rfl, by decide +kernel⟩
  have type : (.ok (.type .obj) : Except QjsonErr (Output Unit)) =
      .ok (.type (nodeType place.node)) :=
    Eq.trans (by decide +kernel) respected.typeof
  have object : nodeType place.node = .obj := by
    injection type with output
    injection output with same
    exact same.symm
  have reply := respected.notBool (by rw [object]; decide)
  exact absurd reply (by decide +kernel)

end QJson.Ffi

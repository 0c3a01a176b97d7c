import QJson.Ffi.Reader
import QJson.Doc.Lazy
import QJson.Doc.Bounds
import QJson.Rfc8259.Front

/-!
# Bytes behind the root value

Lazy parsing takes any bytes behind the root value.  The root cursor ends at the last
mark of the whole buffer, though, so a program notices the bytes behind the value
exactly when one of them is a mark.
-/

namespace QJson.Ffi

open Rfc8259 Validate Doc Decode

/-! ## What a caller can look at -/

/-- An output whose cursors and iterators are not looked into. -/
def Output.visible {F : Type} : Output F → Output F
  | .cursor _ => .cursor ⟨0, 0⟩
  | .entry key _ => .entry key ⟨0, 0⟩
  | .iter _ => .iter ⟨0, 0⟩
  | .next key _ _ => .next key ⟨0, 0⟩ ⟨0, 0⟩
  | output => output

/-- The codes and outputs of a program. -/
def replies {F : Type} (trace : List (Except QjsonErr (Output F) × Nat)) :
    List (Except QjsonErr (Output F)) :=
  trace.map fun reply => reply.1.map Output.visible

/-! ## The index of a text and what follows it -/

section Behind

variable {tree : Tree} {before after junk : Bytes}

/-- Every scanner finds the marks of the value first, and none behind them exactly when
the bytes behind the value have none. -/
theorem scan_behind (scanner : ScanPath) (valid : tree.Valid) (beforeBlank : IsBlank before)
    (afterBlank : IsBlank after)
    (small : (before ++ (tree.render ++ (after ++ junk))).length < 2 ^ 32)
    (ok : (scanner.scan (before ++ (tree.render ++ (after ++ junk)))).result = .ok ()) :
    ∃ tail, (scanner.scan (before ++ (tree.render ++ (after ++ junk)))).out =
      tree.marks before.length ++ tail ∧ (tail = [] ↔ IsPlain junk) := by
  have indexed := scanner.isIndex_of_ok small ok
  have leads := tree.leads valid (indexed.leads.blank beforeBlank)
  rw [Nat.zero_add, List.nil_append] at leads
  obtain ⟨gap, i, tail, plain, -, -, out, rest⟩ := leads
  refine ⟨tail, out, ?_⟩
  rw [rest.eq_nil_iff, isPlain_append, isPlain_append]
  exact ⟨fun all => all.2.2, fun junkPlain => ⟨plain, afterBlank.isPlain, junkPlain⟩⟩

end Behind

/-! ## The bytes of the root -/

section Root

variable {doc : Document} {marks : List Nat} {F : Type} {host : Host F}

/-- `qjson_cursor_bytes` on a root that opens with a bracket runs up to the last mark. -/
theorem cursorBytes_root (indexed : Indexed doc marks) {first last : Nat} {kind : Kind}
    (firstAt : marks[0]? = some first) (opener : doc.buf[first]? = some kind.opener)
    (lastAt : marks[marks.length - 1]? = some last) :
    cursorBytes doc (Cursor.root doc) = .ok (first, last + 1) := by
  have some_ : 0 < marks.length := (List.getElem?_eq_some_iff.1 firstAt).1
  have length := indexed.length
  have plain : isRootScalarCursor doc ⟨0, marks.length - 1⟩ ≠ true := by
    intro flag
    simp only [isRootScalarCursor, Bool.and_eq_true, beq_iff_eq] at flag
    rw [flag.2] at length
    simp only [List.length_cons, List.length_nil] at length
    omega
  have mark {i pos : Nat} (at_ : marks[i]? = some pos) : doc.indices[i]? = some pos := by
    rw [indexed.indices, List.getElem?_append_left (List.getElem?_eq_some_iff.1 at_).1, at_]
  have inside : ¬ doc.buf.length ≤ last :=
    Nat.not_le.2 (indexed.inside last (List.mem_of_getElem? lastAt))
  have bracket := (Kind.opener_cases kind).1
  rw [indexed.root some_, cursorBytes, if_neg plain, atIdx_of_getElem? (mark firstAt), ok_bind,
    getOr, opener, okOr_some, ok_bind, if_pos (by tauto), atIdx_of_getElem? (mark lastAt),
    ok_bind, if_neg inside]

theorem replies_rootBytes {range : Nat × Nat}
    (bytes : cursorBytes doc (Cursor.root doc) = .ok range) :
    replies (Machine.start.trace host doc [.get .root .open [], .bytes 0]) =
      [.ok (.cursor ⟨0, 0⟩), .ok (.range range.1 range.2)] := by
  simp [replies, Machine.trace, Machine.step, Machine.answer, Getter.onRoot_eq, onRootPath,
    resolve_empty, reportAt, Getter.read, Machine.settle, Machine.keep, Machine.start,
    qjsonCursorBytes, bytes, ffiCatch, Output.visible, Except.map]

end Root

/-- A lazily parsed text that starts with an array or an object has the trace of its
tree when no mark follows, and a root that ends behind the tree otherwise. -/
theorem behind_cases (scanner : ScanPath) (strings : StringPath) {tree : Tree}
    {before after junk : Bytes} {kind : Kind} {opts : Options} {doc : Document}
    (valid : tree.Valid) (container : tree.kind? = some kind) (beforeBlank : IsBlank before)
    (afterBlank : IsBlank after)
    (small : (before ++ (tree.render ++ (after ++ junk))).length < u32Max)
    (parsed : parseWithOptions (dispatch scanner strings)
      (before ++ (tree.render ++ (after ++ junk))) opts = .ok doc) :
    (IsPlain junk → Stands doc tree before.length) ∧
      (¬ IsPlain junk → ∃ stop, before.length + tree.render.length < stop ∧
        cursorBytes doc (Cursor.root doc) = .ok (before.length, stop)) := by
  obtain ⟨spelled, scanned, indexed⟩ := indexed_of_parse scanner strings small parsed
  obtain ⟨tail, out, noTail⟩ :=
    scan_behind scanner valid beforeBlank afterBlank (small.trans (by decide)) scanned
  rw [out] at spelled indexed
  constructor
  · intro plain
    rw [noTail.2 plain, List.append_nil] at spelled
    rw [spelled]
    refine ⟨valid, ⟨before, after ++ junk, beforeBlank, ?_, rfl, rfl⟩, rfl, small⟩
    rw [container]
    exact fun none => by cases none
  · intro marked
    obtain ⟨inner, signs, marks, signsEq, -⟩ := tree.exists_brackets container before.length
    have reads := tree.reads before (after ++ junk)
    rw [marks, signsEq, reads_cons] at reads
    obtain ⟨last, more, rfl⟩ : ∃ last more, tail = more ++ [last] := by
      rcases List.eq_nil_or_concat tail with none | ⟨more, last, concat⟩
      · exact absurd (noTail.1 none) marked
      · exact ⟨last, more, by rw [concat, List.concat_eq_append]⟩
    have ascends := indexed.ascending
    have inBuf : doc.buf = before ++ (tree.render ++ (after ++ junk)) := by rw [spelled]
    refine ⟨last + 1, ?_, @cursorBytes_root _ _ indexed _ _ kind ?_ ?_ ?_⟩
    · have apart := (List.pairwise_append.1 ascends).2.2
        (before.length + tree.render.length - 1) (by simp [marks]) last (by simp)
      omega
    · rw [marks]
      rfl
    · rw [inBuf]
      exact reads.1
    · rw [← List.append_assoc, List.length_append, List.length_singleton,
        Nat.add_sub_cancel, List.getElem?_concat_length]

/-- Access to a document ignores the bytes behind an array or an object exactly when none of
them is a mark; then not even the error offsets differ. -/
theorem trailing_ignored_iff (scanner : ScanPath) (strings : StringPath) {F : Type}
    (std : StdFloat F) (text junk : Bytes) (opts lazyOpts lazyOpts' : Options)
    (eagerDoc doc doc' : Document) (small : (text ++ junk).length < 2 ^ 32 - 1)
    (eager : opts.isEager = true)
    (accepted : parseWithOptions (dispatch scanner strings) text opts = .ok eagerDoc)
    (container : typeOf eagerDoc (Cursor.root eagerDoc) = .ok .obj ∨
      typeOf eagerDoc (Cursor.root eagerDoc) = .ok .arr)
    (parsed : parseWithOptions (dispatch scanner strings) text lazyOpts = .ok doc)
    (parsed' : parseWithOptions (dispatch scanner strings) (text ++ junk) lazyOpts' =
      .ok doc') :
    ((∀ program : List Access,
        replies (Machine.start.trace ⟨strings.validate, std⟩ doc' program) =
          replies (Machine.start.trace ⟨strings.validate, std⟩ doc program)) ↔
      IsPlain junk) ∧
    (IsPlain junk → ∀ program : List Access,
      Machine.start.trace ⟨strings.validate, std⟩ doc' program =
        Machine.start.trace ⟨strings.validate, std⟩ doc program) := by
  have short : text.length < u32Max := by
    rw [List.length_append] at small
    exact Nat.lt_of_le_of_lt (Nat.le_add_right _ _) small
  obtain ⟨tree, parses⟩ := exists_parses scanner strings short eager accepted
  obtain ⟨start, rep⟩ := represents_of_parse scanner strings short eager accepted parses
  obtain ⟨kind, isContainer⟩ : ∃ kind, tree.kind? = some kind := by
    rw [rep.stands.root, typeOf_eq rep.stands (Place.locate_nil _)] at container
    rcases container with object | array
    · exact ⟨.obj, kind_of_nodeType.1 (Except.ok.inj object)⟩
    · exact ⟨.arr, kind_of_nodeType.2 (Except.ok.inj array)⟩
  obtain ⟨valid, before, after, beforeBlank, afterBlank, rfl⟩ := parses
  have split (tail : Bytes) : before ++ (tree.render ++ after) ++ tail =
      before ++ (tree.render ++ (after ++ tail)) := by simp
  rw [split] at small parsed'
  have stands : Stands doc tree before.length := by
    have whole := @behind_cases scanner strings tree before after [] kind lazyOpts doc valid
      isContainer beforeBlank afterBlank
    rw [List.append_nil] at whole
    exact (whole short parsed).1 isPlain_nil
  obtain ⟨plainStands, markedRoot⟩ := behind_cases scanner strings valid isContainer beforeBlank
    afterBlank small parsed'
  have reads {other : Document} (stands : Stands other tree before.length)
      (program : List Access) : Machine.start.trace ⟨strings.validate, std⟩ other program =
        Reader.start.trace std tree before.length program :=
    trace_eq_reader stands strings.isStringValidator program
  have same (plain : IsPlain junk) (program : List Access) :
      Machine.start.trace ⟨strings.validate, std⟩ doc' program =
        Machine.start.trace ⟨strings.validate, std⟩ doc program := by
    rw [reads (plainStands plain), reads stands]
  refine ⟨⟨fun agree => ?_, fun plain program => by rw [same plain]⟩, same⟩
  by_contra marked
  obtain ⟨stop, beyond, bytes'⟩ := markedRoot marked
  have bytes := cursorBytes_eq stands (Place.locate_nil _)
  rw [← stands.root] at bytes
  have differ := agree [.get .root .open [], .bytes 0]
  rw [replies_rootBytes bytes, replies_rootBytes bytes'] at differ
  simp only [rootPlace, List.cons.injEq, Except.ok.injEq, Output.range.injEq] at differ
  omega

theorem trailing_ignored_iff_word :
    ((∀ program : List Access,
        replies (Machine.start.trace ⟨StringPath.scalar.validate, unitFloat⟩
            ⟨[0x7B, 0x7D, 0x78], [0, 1, u32Max], false⟩ program) =
          replies (Machine.start.trace ⟨StringPath.scalar.validate, unitFloat⟩
            ⟨[0x7B, 0x7D], [0, 1, u32Max], false⟩ program)) ↔ IsPlain [0x78]) ∧
    (IsPlain [0x78] → ∀ program : List Access,
      Machine.start.trace ⟨StringPath.scalar.validate, unitFloat⟩
          ⟨[0x7B, 0x7D, 0x78], [0, 1, u32Max], false⟩ program =
        Machine.start.trace ⟨StringPath.scalar.validate, unitFloat⟩
          ⟨[0x7B, 0x7D], [0, 1, u32Max], false⟩ program) :=
  trailing_ignored_iff .scalar .scalar unitFloat [0x7B, 0x7D] [0x78] Options.default
    ⟨modeLazy, 0⟩ ⟨modeLazy, 0⟩ ⟨[0x7B, 0x7D], [0, 1, u32Max], true⟩
    ⟨[0x7B, 0x7D], [0, 1, u32Max], false⟩ ⟨[0x7B, 0x7D, 0x78], [0, 1, u32Max], false⟩
    (by decide) (by decide) (by decide +kernel) (by decide +kernel) (by decide +kernel)
    (by decide +kernel)

/-- `{}` and `{},`: the bytes of the root. -/
theorem not_trailing_ignored_comma :
    ¬ ∀ (scanner : ScanPath) (strings : StringPath) (text junk : Bytes)
      (opts lazyOpts : Options) (eagerDoc doc doc' : Document),
      (text ++ junk).length < 2 ^ 32 - 1 → opts.isEager = true → lazyOpts.isEager = false →
      parseWithOptions (dispatch scanner strings) text opts = .ok eagerDoc →
      (typeOf eagerDoc (Cursor.root eagerDoc) = .ok .obj ∨
        typeOf eagerDoc (Cursor.root eagerDoc) = .ok .arr) →
      parseWithOptions (dispatch scanner strings) text lazyOpts = .ok doc →
      parseWithOptions (dispatch scanner strings) (text ++ junk) lazyOpts = .ok doc' →
      ∀ program : List Access,
        replies (Machine.start.trace ⟨strings.validate, unitFloat⟩ doc' program) =
          replies (Machine.start.trace ⟨strings.validate, unitFloat⟩ doc program) := by
  intro ignored
  have same := ignored .scalar .scalar [0x7B, 0x7D] [0x2C] Options.default ⟨modeLazy, 0⟩
    ⟨[0x7B, 0x7D], [0, 1, u32Max], true⟩ ⟨[0x7B, 0x7D], [0, 1, u32Max], false⟩
    ⟨[0x7B, 0x7D, 0x2C], [0, 1, 2, u32Max], false⟩ (by decide) (by decide) (by decide)
    (by decide +kernel) (by decide +kernel) (by decide +kernel) (by decide +kernel)
    [.get .root .open [], .bytes 0]
  revert same
  decide +kernel

end QJson.Ffi

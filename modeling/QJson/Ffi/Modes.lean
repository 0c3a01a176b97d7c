import QJson.Doc.Lazy
import QJson.Ffi.Reader

/-!
# Eager and lazy documents of one text

Eager parsing lets the decoders behind the accessors skip their checks.  On a text that
it accepts, the lazy document has the same parse tree and therefore the same trace in
every program: what the decoders skip could not have failed.
-/

namespace QJson.Ffi

open Rfc8259 Validate Doc Decode

/-- A text that is accepted in eager mode is accepted in lazy mode with the same index,
and no program of accessor calls tells the two documents apart. -/
theorem modes_agree (scanner : ScanPath) (strings : StringPath) {F : Type} (std : StdFloat F)
    (buf : Bytes) (opts lazyOpts : Options) (doc : Document)
    (small : buf.length < 2 ^ 32 - 1) (eager : opts.isEager = true)
    (lazy : lazyOpts.isEager = false) (limit : lazyOpts.maxDepth = opts.maxDepth)
    (parsed : parseWithOptions (dispatch scanner strings) buf opts = .ok doc) :
    ∃ lazyDoc, parseWithOptions (dispatch scanner strings) buf lazyOpts = .ok lazyDoc ∧
      lazyDoc.indices = doc.indices ∧ ∀ program : List Access,
        Machine.start.trace ⟨strings.validate, std⟩ lazyDoc program =
          Machine.start.trace ⟨strings.validate, std⟩ doc program := by
  obtain ⟨tree, parses⟩ := exists_parses scanner strings small eager parsed
  obtain ⟨start, rep⟩ := represents_of_parse scanner strings small eager parsed parses
  obtain ⟨-, -, whole⟩ := ok_of_parse eager parsed
  refine ⟨⟨buf, doc.indices, false⟩, lazy_of_eager scanner strings small eager lazy limit parsed,
    rfl, fun program => ?_⟩
  have text := rep.text
  have short := rep.small
  rw [show doc.buf = buf by rw [whole]] at text short
  have lazyRep : Represents ⟨buf, doc.indices, false⟩ tree start :=
    ⟨rep.valid, text, rep.indices, short⟩
  have reads {other : Document} (stands : Stands other tree start) :
      Machine.start.trace ⟨strings.validate, std⟩ other program =
        Reader.start.trace std tree start program :=
    trace_eq_reader stands strings.isStringValidator program
  rw [reads lazyRep.stands, reads rep.stands]

theorem modes_agree_member :
    ∃ lazyDoc, parseWithOptions (dispatch .scalar .scalar) memberText ⟨modeLazy, 0⟩ =
        .ok lazyDoc ∧ lazyDoc.indices = [0, 1, 3, 4, 5, 10, 11, u32Max] ∧
      ∀ program : List Access,
        Machine.start.trace ⟨StringPath.scalar.validate, unitFloat⟩ lazyDoc program =
          Machine.start.trace ⟨StringPath.scalar.validate, unitFloat⟩
            ⟨memberText, [0, 1, 3, 4, 5, 10, 11, u32Max], true⟩ program :=
  modes_agree .scalar .scalar unitFloat memberText Options.default ⟨modeLazy, 0⟩
    ⟨memberText, [0, 1, 3, 4, 5, 10, 11, u32Max], true⟩ (by decide) (by decide) (by decide)
    (by decide) (by decide +kernel)

end QJson.Ffi

import QJson.Ffi.Getters

/-!
# The error offset behind a call

Every call clears the error offset of the document first.  A call that fails then leaves it
cleared, or sets it to the first byte of the value it failed at: the value at the end of
the path, or the one the path starts from.  Only `qjson_iter_init` computes its offset from
the index itself, where the entry of a scalar is the mark behind it.
-/

namespace QJson.Ffi

open Rfc8259 Validate Doc Decode

/-! ## What an offset may point at -/

/-- The cursors that a failed call may be blamed on: the one its path leads to or, where the
path does not resolve, the one it starts from. -/
def Blames (doc : Document) (m : Machine) : Access → Cursor → Prop
  | .get handle _ path, cur =>
      m.Leads doc handle path cur ∨
        m.cursorOf doc handle = some cur ∧ ∀ next, ¬ m.Leads doc handle path next
  | .isNull path, cur =>
      m.Leads doc .root path cur ∨
        m.cursorOf doc .root = some cur ∧ ∀ next, ¬ m.Leads doc .root path next
  | .field slot _, cur | .index slot _, cur | .bytes slot, cur | .entryAt slot _, cur
  | .iterInit slot, cur => m.cursors[slot]? = some cur
  | .iterNext _, _ => False

/-- Where a call that is blamed on a node reports it: `qjson_iter_init` takes the entry of
the index, the others the first byte. -/
def ReportedAt (doc : Document) (place : Place) (access : Access) (offset : Nat) : Prop :=
  match access with
  | .iterInit _ => place.node.kind? ≠ some .obj ∧ doc.indices[place.ix]? = some offset
  | _ => offset = place.pos

/-- The offset is the first byte of a value inside the buffer. -/
def Begins (doc : Document) (place : Place) (offset : Nat) : Prop :=
  offset = place.pos ∧ offset < doc.buf.length ∧
    ∃ front tail, doc.buf = front ++ (place.node.render ++ tail) ∧ offset = front.length

/-- The error offset behind a call tells of this call alone: it is cleared by a call that
succeeds, and cleared or at a value that the call may be blamed on by one that fails. -/
def Fresh {F : Type} (host : Host F) (doc : Document) (root : Place) (m : Machine)
    (access : Access) : Prop :=
  match m.step host doc access with
  | (.ok _, next) => next.lastErrorOffset = noOffset
  | (.error _, next) => next.lastErrorOffset = noOffset ∨
      ∃ cur route place, Blames doc m access cur ∧ root.locate route = some place ∧
        cur = place.cursor ∧ Begins doc place next.lastErrorOffset

/-- The call is not `qjson_iter_init` on a scalar, and a call on a null pointer finds the
offset cleared. -/
def Careful {F : Type} (host : Host F) (doc : Document) (root : Place) (m : Machine)
    (access : Access) : Prop :=
  (m.answer host doc access = none → m.lastErrorOffset = noOffset) ∧
    ∀ slot, access = .iterInit slot → ∀ route place, root.locate route = some place →
      m.cursors[slot]? = some place.cursor → ∀ token, place.node ≠ .scalar token

/-- A property of every call of a program, in the state that the calls before it leave. -/
def Machine.Along {F : Type} (host : Host F) (doc : Document)
    (good : Machine → Access → Prop) (m : Machine) : List Access → Prop
  | [] => True
  | access :: program => good m access ∧ (m.step host doc access).2.Along host doc good program

/-! ## The answers of the reader -/

theorem offset_of_readNode {F : Type} {std : StdFloat F} {place : Place} {getter : Getter}
    {code : QjsonErr} {offset : Nat} (failed : readNode std place getter = .error (code, offset)) :
    offset = noOffset ∨ offset = place.pos := by
  have reported {α : Type} {output : α → Output F} {result : Rust QjsonErr α}
      (failed : answerAt place.pos output result = .error (code, offset)) :
      offset = noOffset ∨ offset = place.pos := by
    rcases result with (_ | _) | _
    · cases failed
      exact .inr rfl
    · cases failed
      exact .inl rfl
    · cases failed
  cases getter with
  | typeof | «open» => cases failed
  | getStr =>
      rw [readNode] at failed
      split at failed
      · cases failed
      · cases failed
        exact .inr rfl
  | _ => exact reported failed

section Steps

variable {F : Type} {host : Host F} {doc : Document} {tree : Tree} {start : Nat}
  (rep : Stands doc tree start)
include rep

theorem begins_of_locate {route : List Nat} {place : Place}
    (at_ : (rootPlace tree start).locate route = some place) :
    Begins doc place place.pos := by
  have sits := (rep.locate at_).1
  obtain ⟨front, tail, text, begins⟩ := sits.text
  have some_ := List.length_pos_iff.2 (place.node.render_ne_nil sits.valid)
  refine ⟨rfl, ?_, front, tail, text, begins⟩
  rw [text, begins]
  simp only [List.length_append]
  omega

/-- The index entry of a scalar is not its first byte. -/
theorem mark_ne_pos {route : List Nat} {place : Place}
    (at_ : (rootPlace tree start).locate route = some place) {token : Bytes}
    (spelled : place.node = .scalar token) :
    ∃ pos, doc.indices[place.ix]? = some pos ∧ pos ≠ noOffset ∧ pos ≠ place.pos := by
  have inside := (begins_of_locate rep at_).2.1
  have short := rep.small
  rw [u32Max] at short
  by_cases root : route = []
  · subst root
    refine ⟨u32Max, (scalar_root_lead rep at_ spelled).1, by decide, ?_⟩
    rw [u32Max]
    omega
  · obtain ⟨-, ⟨empty, -⟩ | ⟨kind, child, sep, p, childAt, rfl⟩⟩ := rep.locate at_
    · exact absurd empty root
    have value : child.entry.value = .scalar token := spelled
    have valid : IsScalar token := by
      have := (rep.locate at_).1.valid
      rwa [spelled] at this
    obtain ⟨more, marks⟩ := childAt.drop_ix
    rw [value] at marks
    have sepAt := getElem?_of_drop marks
    have width : separator p child.entry.name child.entry.before (.scalar token)
        child.entry.after = child.pos + (token ++ child.entry.after).length := by
      rw [separator, ← childAt.pos, Tree.render, List.length_append, Nat.add_assoc]
    have some_ := List.length_pos_iff.2 valid.ne_nil
    have bound : separator p child.entry.name child.entry.before (.scalar token)
        child.entry.after < doc.buf.length := by
      obtain ⟨sepPos, here, byte⟩ := childAt.sep_read
      simp only [Child.sepIx, value, Tree.signs, List.length_nil, Nat.add_zero] at here
      obtain rfl := Option.some.inj (here.symm.trans sepAt)
      exact (List.getElem?_eq_some_iff.1 byte).1
    refine ⟨_, sepAt, ?_, ?_⟩
    · rw [noOffset]
      omega
    · rw [width, List.length_append]
      change _ ≠ child.pos
      omega

/-! ## Single calls -/

/-- A read at the end of a path fails at the node it reads, or on the way there. -/
theorem blamed_on_path {owner : Place} {route : List Nat}
    (at_ : (rootPlace tree start).locate route = some owner) {cache : SkipCache}
    (sound : CacheOk doc (rootPlace tree start) cache) (path : Bytes) {outer : Nat}
    {read : Place → Answer F} (reads : ∀ place code offset,
      read place = .error (code, offset) → offset = noOffset ∨ offset = place.pos)
    {code : QjsonErr} {offset : Nat}
    (failed : answerFrom outer (leadNode owner path) read = .error (code, offset)) :
    (offset = outer ∧ ∀ next, (resolve doc cache owner.cursor path).1 ≠ .ok next) ∨
      offset = noOffset ∨
      ∃ route next, (rootPlace tree start).locate route = some next ∧
        (resolve doc cache owner.cursor path).1 = .ok next.cursor ∧ offset = next.pos := by
  have leads := (resolve_leadNode rep at_ path sound).1
  cases target : leadNode owner path with
  | error fault =>
      rw [target] at leads failed
      cases failed
      refine .inl ⟨rfl, fun next resolved => ?_⟩
      rw [show (resolve doc cache owner.cursor path).1 = fail code from leads] at resolved
      cases resolved
  | ok next =>
      rw [target] at leads failed
      obtain ⟨resolved, route, below⟩ := leads
      rcases reads next code offset failed with cleared | here
      · exact .inr (.inl cleared)
      · exact .inr (.inr ⟨route, next, below, resolved, here⟩)

variable {m : Machine} {r : Reader}

/-- A call that fails leaves the offset cleared, or at a node that it may be blamed on;
`qjson_iter_init` takes it from the index. -/
theorem Shows.blamed (shows : Shows doc tree start m r) {access : Access}
    {code : QjsonErr} {offset : Nat}
    (failed : r.answer host.std tree start access = some (.error (code, offset))) :
    offset = noOffset ∨ ∃ cur route place, Blames doc m access cur ∧
      (rootPlace tree start).locate route = some place ∧ cur = place.cursor ∧
      ReportedAt doc place access offset := by
  have sound := shows.cache
  have atRoot := Place.locate_nil (rootPlace tree start)
  have held {slot : Nat} {place : Place} (here : r.places[slot]? = some place) :
      m.cursors[slot]? = some place.cursor ∧
        ∃ route, (rootPlace tree start).locate route = some place := by
    rw [shows.cursors, List.getElem?_map, here]
    exact ⟨rfl, shows.places place (List.mem_of_getElem? here)⟩
  have rooted {path : Bytes} {next : Cursor}
      (resolved : (resolve doc m.cache (rootPlace tree start).cursor path).1 = .ok next) :
      m.Leads doc .root path next := ⟨_, congrArg some rep.root, resolved⟩
  cases access with
  | get handle getter path =>
      have reads := fun place code offset => @offset_of_readNode F host.std place getter code offset
      cases handle with
      | root =>
          rw [Reader.answer, Option.some.injEq] at failed
          rcases blamed_on_path rep atRoot sound path reads failed with
            ⟨cleared, -⟩ | cleared | ⟨route, next, at_, resolved, here⟩
          · exact .inl cleared
          · exact .inl cleared
          · exact .inr ⟨_, route, next, .inl (rooted resolved), at_, rfl, here⟩
      | cursor slot =>
          rw [Reader.answer] at failed
          obtain ⟨owner, here, failed⟩ := Option.map_eq_some_iff.1 failed
          obtain ⟨kept, ownerRoute, at_⟩ := held here
          rcases blamed_on_path rep at_ sound path reads failed with
            ⟨outer, lost⟩ | cleared | ⟨route, next, below, resolved, here⟩
          · refine .inr ⟨_, ownerRoute, owner, .inr ⟨kept, ?_⟩, at_, rfl, outer⟩
            rintro next ⟨cur, same, resolved⟩
            obtain rfl := Option.some.inj (kept.symm.trans same)
            exact lost next resolved
          · exact .inl cleared
          · exact .inr ⟨_, route, next, .inl ⟨_, kept, resolved⟩, below, rfl, here⟩
  | isNull path =>
      rw [Reader.answer, Option.some.injEq] at failed
      have reads (place : Place) (code : QjsonErr) (offset : Nat)
          (failed : (.ok (.plain (.flag (nodeType place.node == .null))) : Answer F) =
            .error (code, offset)) : offset = noOffset ∨ offset = place.pos := by
        cases failed
      rcases blamed_on_path rep atRoot sound path reads failed with
        ⟨cleared, -⟩ | cleared | ⟨route, next, at_, resolved, here⟩
      · exact .inl cleared
      · exact .inl cleared
      · exact .inr ⟨_, route, next, .inl (rooted resolved), at_, rfl, here⟩
  | field slot key =>
      rw [Reader.answer] at failed
      obtain ⟨owner, here, failed⟩ := Option.map_eq_some_iff.1 failed
      obtain ⟨kept, route, at_⟩ := held here
      refine .inr ⟨_, route, owner, kept, at_, rfl, ?_⟩
      cases target : pickNode owner (.key key) with
      | error fault =>
          rw [target] at failed
          cases failed
          rfl
      | ok child =>
          rw [target] at failed
          cases failed
  | index slot i =>
      rw [Reader.answer] at failed
      obtain ⟨owner, here, failed⟩ := Option.map_eq_some_iff.1 failed
      obtain ⟨kept, route, at_⟩ := held here
      split at failed
      · cases failed
        exact .inl rfl
      · refine .inr ⟨_, route, owner, kept, at_, rfl, ?_⟩
        cases target : pickNode owner (.idx i) with
        | error fault =>
            rw [target] at failed
            cases failed
            rfl
        | ok child =>
            rw [target] at failed
            cases failed
  | bytes slot =>
      rw [Reader.answer] at failed
      obtain ⟨owner, -, failed⟩ := Option.map_eq_some_iff.1 failed
      cases failed
  | entryAt slot i =>
      rw [Reader.answer] at failed
      obtain ⟨owner, here, failed⟩ := Option.map_eq_some_iff.1 failed
      obtain ⟨kept, route, at_⟩ := held here
      refine .inr ⟨_, route, owner, kept, at_, rfl, ?_⟩
      split at failed
      · split at failed
        · cases failed
        · cases failed
          rfl
      · cases failed
        rfl
  | iterInit slot =>
      rw [Reader.answer] at failed
      obtain ⟨owner, here, failed⟩ := Option.map_eq_some_iff.1 failed
      obtain ⟨kept, route, at_⟩ := held here
      refine .inr ⟨_, route, owner, kept, at_, rfl, ?_⟩
      split at failed
      · cases failed
      · rename_i other
        rw [Except.error.injEq, Prod.mk.injEq] at failed
        obtain ⟨pos, markAt, -⟩ := iterInit_eq rep at_
        rw [← rep.indices, markAt] at failed
        exact ⟨other, failed.2 ▸ markAt⟩
  | iterNext slot =>
      rw [Reader.answer] at failed
      obtain ⟨it, -, failed⟩ := Option.map_eq_some_iff.1 failed
      split at failed
      · cases failed
      · cases failed
        exact .inl rfl

/-- `qjson_iter_init` on a scalar fails at the entry of the index. -/
theorem iterInit_scalar {slot : Nat} {route : List Nat} {place : Place}
    (at_ : (rootPlace tree start).locate route = some place)
    (held : m.cursors[slot]? = some place.cursor) {token : Bytes}
    (spelled : place.node = .scalar token) {result : Located (Output F) × SkipCache}
    (answered : m.answer host doc (.iterInit slot) = some result) :
    ffiCatch result.1 = .error .typeMismatch ∧
      doc.indices[place.ix]? = some (offsetBehind doc result.1) := by
  obtain ⟨pos, markAt, init⟩ := iterInit_eq rep at_
  rw [Machine.answer, held, Option.map_some, Option.some.injEq] at answered
  have scalar : place.node.kind? ≠ some .obj := by
    rw [spelled]
    intro object
    cases object
  rw [← answered, qjsonIterInit, init, if_neg scalar]
  exact ⟨rfl, markAt⟩

/-- What a call is reported at is the first byte of the node, unless the call is
`qjson_iter_init` and the node a scalar. -/
theorem reportedAt_pos {route : List Nat} {place : Place}
    (at_ : (rootPlace tree start).locate route = some place) {access : Access} {offset : Nat}
    (reported : ReportedAt doc place access offset)
    (careful : ∀ slot, access = .iterInit slot → ∀ token, place.node ≠ .scalar token) :
    offset = place.pos := by
  cases access with
  | iterInit slot =>
      obtain ⟨b, markAt, -⟩ := mark_of_other rep at_ (careful slot rfl)
      exact Option.some.inj (reported.2.symm.trans markAt)
  | _ => exact reported

omit rep in
/-- A null pointer is not blamed. -/
theorem not_blames_of_null {access : Access} {cur : Cursor}
    (null : m.answer host doc access = none) : ¬ Blames doc m access cur := by
  intro blames
  have absent {α : Type} {slot : Nat} {f : Cursor → α}
      (none_ : m.cursors[slot]?.map f = none) : m.cursors[slot]? ≠ some cur := by
    intro held
    rw [held] at none_
    cases none_
  cases access with
  | get handle getter path =>
      cases handle with
      | root => cases null
      | cursor slot =>
          have empty : m.cursorOf doc (.cursor slot) = none := Option.map_eq_none_iff.1 null
          rcases blames with ⟨owner, held, -⟩ | ⟨held, -⟩
          · rw [empty] at held
            cases held
          · rw [empty] at held
            cases held
  | isNull path => cases null
  | field slot _ | index slot _ | bytes slot | entryAt slot _ | iterInit slot =>
      exact absent null blames
  | iterNext slot => exact blames

variable (validator : IsStringValidator host.validateString)
include validator

/-- A call tells of itself alone, exactly when it is careful. -/
theorem Shows.fresh_iff_careful (shows : Shows doc tree start m r) (access : Access) :
    Fresh host doc (rootPlace tree start) m access ↔
      Careful host doc (rootPlace tree start) m access := by
  have answers := shows.answer rep validator access
  cases concrete : m.answer host doc access with
  | none =>
      rw [Fresh, Machine.step_none concrete, Careful, concrete]
      simp only [forall_const]
      constructor
      · intro fresh
        refine ⟨?_, ?_⟩
        · rcases fresh with cleared | ⟨cur, -, -, blames, -⟩
          · exact cleared
          · exact absurd blames (not_blames_of_null concrete)
        · rintro slot rfl route place at_ held
          exact absurd held (not_blames_of_null concrete)
      · rintro ⟨cleared, -⟩
        exact .inl cleared
  | some result =>
      rw [concrete] at answers
      rw [Fresh, Machine.step_some concrete, Careful, concrete]
      cases abstract : r.answer host.std tree start access with
      | none => rw [abstract] at answers; exact answers.elim
      | some answer =>
          rw [abstract] at answers
          cases answer with
          | ok finding =>
              have succeeds : result.1 = .ok finding.output := answers.meets.1
              rw [succeeds]
              simp only [ffiCatch, Machine.settle_lastErrorOffset, succeeds, offsetBehind,
                true_iff]
              refine ⟨(fun null => by cases null), ?_⟩
              rintro slot rfl route place at_ held token spelled
              have fails := (iterInit_scalar rep at_ held spelled concrete).1
              rw [succeeds] at fails
              cases fails
          | error failure =>
              obtain ⟨code, offset⟩ := failure
              obtain ⟨fails, behind⟩ := answers.meets
              simp only [fails, Machine.settle_lastErrorOffset, behind]
              constructor
              · intro fresh
                refine ⟨(fun null => by cases null), ?_⟩
                rintro slot rfl route place at_ held token spelled
                have entry := (iterInit_scalar rep at_ held spelled concrete).2
                obtain ⟨pos, markAt, set_, elsewhere⟩ := mark_ne_pos rep at_ spelled
                obtain rfl : offset = pos :=
                  behind.symm.trans (Option.some.inj (entry.symm.trans markAt))
                rcases fresh with cleared | ⟨cur, route', other, blames, at', same, begins⟩
                · exact set_ cleared
                · have here : other.cursor = place.cursor :=
                    same.symm.trans (Option.some.inj (Eq.trans blames.symm held))
                  have first := cursorValueStartOffset_eq rep at'
                  rw [here, cursorValueStartOffset_eq rep at_, Option.some.injEq] at first
                  exact elsewhere (begins.1.trans first.symm)
              · rintro ⟨-, careful⟩
                rcases shows.blamed rep abstract with
                  cleared | ⟨cur, route, place, blames, at_, same, reported⟩
                · exact .inl cleared
                · obtain rfl := reportedAt_pos rep at_ reported fun slot init => by
                    subst init
                    exact careful slot rfl route place at_ (same ▸ blames)
                  exact .inr ⟨cur, route, place, blames, at_, same, begins_of_locate rep at_⟩

/-- In a program every call tells of itself alone, exactly when every call is careful. -/
theorem Shows.along_fresh_iff (shows : Shows doc tree start m r) (program : List Access) :
    m.Along host doc (Fresh host doc (rootPlace tree start)) program ↔
      m.Along host doc (Careful host doc (rootPlace tree start)) program := by
  induction program generalizing m r with
  | nil => exact Iff.rfl
  | cons access program ih =>
      exact and_congr (shows.fresh_iff_careful rep validator access)
        (ih (shows.step rep validator access).2)

end Steps

/-- In a program on an accepted document the error offset behind every call tells of that
call alone, exactly when `qjson_iter_init` is not called on a scalar, and no null pointer is
passed behind a call that has left an offset. -/
theorem error_offsets_fresh_iff (scanner : ScanPath) (strings : StringPath) {F : Type}
    (std : StdFloat F) (buf : Bytes) (opts : Options) (doc : Document)
    (small : buf.length < 2 ^ 32 - 1) (eager : opts.isEager = true)
    (parsed : parseWithOptions (dispatch scanner strings) buf opts = .ok doc) :
    ∃ (tree : Tree) (start : Nat), tree.Parses buf ∧ Stands doc tree start ∧
      ∀ program : List Access,
        Machine.start.Along ⟨strings.validate, std⟩ doc
            (Fresh ⟨strings.validate, std⟩ doc (rootPlace tree start)) program ↔
          Machine.start.Along ⟨strings.validate, std⟩ doc
            (Careful ⟨strings.validate, std⟩ doc (rootPlace tree start)) program := by
  obtain ⟨tree, parses⟩ := exists_parses scanner strings small eager parsed
  obtain ⟨start, rep⟩ := stands_of_parse scanner strings small parsed parses
  exact ⟨tree, start, parses, rep, fun program =>
    (shows_start doc tree start).along_fresh_iff rep strings.isStringValidator program⟩

theorem error_offsets_fresh_iff_member :
    ∃ (tree : Tree) (start : Nat), tree.Parses memberText ∧
      Stands ⟨memberText, [0, 1, 3, 4, 5, 10, 11, u32Max], true⟩ tree start ∧
      ∀ program : List Access,
        Machine.start.Along ⟨StringPath.scalar.validate, unitFloat⟩
            ⟨memberText, [0, 1, 3, 4, 5, 10, 11, u32Max], true⟩
            (Fresh ⟨StringPath.scalar.validate, unitFloat⟩
              ⟨memberText, [0, 1, 3, 4, 5, 10, 11, u32Max], true⟩ (rootPlace tree start))
            program ↔
          Machine.start.Along ⟨StringPath.scalar.validate, unitFloat⟩
            ⟨memberText, [0, 1, 3, 4, 5, 10, 11, u32Max], true⟩
            (Careful ⟨StringPath.scalar.validate, unitFloat⟩
              ⟨memberText, [0, 1, 3, 4, 5, 10, 11, u32Max], true⟩ (rootPlace tree start))
            program :=
  error_offsets_fresh_iff .scalar .scalar unitFloat memberText Options.default
    ⟨memberText, [0, 1, 3, 4, 5, 10, 11, u32Max], true⟩ (by decide) (by decide)
    (by decide +kernel)

/-- The machine on `[7]` that holds the root and its element. -/
def sevenMachine : Machine :=
  ⟨⟨[⟨[], []⟩, ⟨[1], [2]⟩], [(0, 1)]⟩, noOffset, [⟨0, 1⟩, ⟨1, 2⟩], []⟩

/-- On the element of `[7]`, `qjson_iter_init` reports the byte behind it. -/
theorem not_error_offsets_fresh_seven :
    ¬ ∀ (scanner : ScanPath) (strings : StringPath) (buf : Bytes) (opts : Options)
      (doc : Document), buf.length < 2 ^ 32 - 1 → opts.isEager = true →
      parseWithOptions (dispatch scanner strings) buf opts = .ok doc →
      ∃ (tree : Tree) (start : Nat), tree.Parses buf ∧ Stands doc tree start ∧
        ∀ program : List Access, Machine.start.Along ⟨strings.validate, unitFloat⟩ doc
          (Fresh ⟨strings.validate, unitFloat⟩ doc (rootPlace tree start)) program := by
  intro claim
  obtain ⟨tree, start, -, rep, along⟩ := claim .scalar .scalar sevenText Options.default
    ⟨sevenText, [0, 2, u32Max], true⟩ (by decide) (by decide) (by decide +kernel)
  obtain ⟨-, -, fresh, -⟩ := along [.get .root .open [], .index 0 0, .iterInit 1]
  have opened : ((Machine.start.step ⟨StringPath.scalar.validate, unitFloat⟩
      ⟨sevenText, [0, 2, u32Max], true⟩ (.get .root .open [])).2.step
        ⟨StringPath.scalar.validate, unitFloat⟩ ⟨sevenText, [0, 2, u32Max], true⟩
          (.index 0 0)).2 = sevenMachine := by decide +kernel
  have failed : sevenMachine.step ⟨StringPath.scalar.validate, unitFloat⟩
      ⟨sevenText, [0, 2, u32Max], true⟩ (.iterInit 1) =
        (.error .typeMismatch, { sevenMachine with lastErrorOffset := 2 }) := by
    decide +kernel
  rw [opened, Fresh, failed] at fresh
  rcases fresh with cleared | ⟨cur, route, place, blames, at_, same, begins⟩
  · exact absurd cleared (by decide)
  · obtain rfl : ⟨1, 2⟩ = cur := Option.some.inj blames
    have first := cursorValueStartOffset_eq rep at_
    rw [← same, show cursorValueStartOffset ⟨sevenText, [0, 2, u32Max], true⟩ ⟨1, 2⟩ = some 1
      from by decide +kernel, Option.some.injEq] at first
    have here : 2 = place.pos := begins.1
    omega

end QJson.Ffi

import QJson.Lua.Cursors

/-!
# What a Cursor object denotes

All Cursor objects hand the content of `cur_box` to the library, that is the cursor of the
last open that succeeded.  A Cursor object therefore denotes the value it was opened on
exactly as long as no later open has led elsewhere.
-/

namespace QJson.Lua

open Rfc8259 Validate Doc Decode Ffi

/-! ## Opening again -/

/-- Where a hop leads. -/
def Hop.go (doc : Document) (cache : SkipCache) (cur : Cursor) :
    Hop → Rust QjsonErr Cursor × SkipCache
  | .path text => resolve doc cache cur text
  | .key name => resolveSingleKey doc cache cur name
  | .idx i =>
      if u32Max < i then (fail .invalidArg, cache) else resolveSingleIdx doc cache cur i

/-- The call of the library behind a hop. -/
def Hop.run {F : Type} (host : Host F) (doc : Document) (cache : SkipCache) (cur : Cursor) :
    Hop → Located (Output F) × SkipCache
  | .path text => Getter.open.onCursor host doc cache cur text
  | .key name => qjsonCursorField doc cache cur name
  | .idx i => qjsonCursorIndex doc cache cur i

section Hops

variable {doc : Document} {marks : List Nat} {cache : SkipCache} {cur : Cursor} {F : Type}
  {host : Host F}

theorem Hop.run_cache (hop : Hop) :
    (hop.run host doc cache cur).2 = (hop.go doc cache cur).2 := by
  cases hop with
  | path text => rfl
  | key name => rfl
  | idx i =>
      rw [run, go, qjsonCursorIndex]
      split <;> rfl

theorem Hop.run_ok_iff (hop : Hop) {output : Output F} :
    (hop.run host doc cache cur).1 = .ok output ↔
      ∃ next, (hop.go doc cache cur).1 = .ok next ∧ output = .cursor next := by
  have found {site : Site} {outcome : Rust QjsonErr Cursor} :
      (reportAt site outcome >>= fun next => (.ok (.cursor next) : Located (Output F))) =
        .ok output ↔ ∃ next, outcome = .ok next ∧ output = .cursor next := by
    rw [bind_eq_ok_iff]
    exact exists_congr fun next =>
      and_congr reportAt_eq_ok_iff (by rw [Except.ok.injEq, eq_comm])
  cases hop with
  | path text => exact found
  | key name => exact found
  | idx i =>
      rw [run, go, qjsonCursorIndex]
      split
      · simp [reportAt, fail, mapErr]
      · exact found

theorem Hop.grows (hop : Hop) : Grows cache (hop.go doc cache cur).2 := by
  cases hop with
  | path text => exact grows_resolve doc text cache cur
  | key name => exact grows_step doc cache cur (.key name)
  | idx i =>
      rw [go]
      split
      · exact Grows.refl cache
      · exact grows_step doc cache cur (.idx i)

theorem Hop.keeps (indexed : Indexed doc marks)
    (kept : CacheKeeps doc (fun _ _ => True) cache) (hop : Hop) :
    CacheKeeps doc (fun _ _ => True) (hop.go doc cache cur).2 := by
  cases hop with
  | path text => exact keeps_resolve indexed text cur kept
  | key name => exact kept.step indexed fun _ _ _ _ _ _ => trivial
  | idx i =>
      rw [go]
      split
      · exact kept
      · exact kept.step indexed fun _ _ _ _ _ _ => trivial

/-- A hop that led somewhere leads there again. -/
theorem Hop.again (indexed : Indexed doc marks)
    (kept : CacheKeeps doc (fun _ _ => True) cache) (hop : Hop) {next : Cursor}
    {later : SkipCache} (ok : (hop.go doc cache cur).1 = .ok next)
    (grown : Grows (hop.go doc cache cur).2 later) :
    hop.go doc later cur = (.ok next, later) := by
  have small : doc.indices.length < 2 ^ 32 := by
    have room := indexed.room
    have length := indexed.length
    omega
  cases hop with
  | path text => exact resolve_again indexed text kept ok grown
  | key name => exact step_again kept small ok grown
  | idx i =>
      rw [go] at ok grown ⊢
      split at ok
      · cases ok
      · rename_i fits
        rw [if_neg fits] at grown
        rw [if_neg fits]
        exact step_again kept small ok grown

end Hops

/-- The hops lead from one cursor to the other and leave the cache as it is. -/
def Leads (doc : Document) (cache : SkipCache) (last : Cursor) : Cursor → List Hop → Prop
  | cur, [] => cur = last
  | cur, hop :: hops =>
      ∃ next, hop.go doc cache cur = (.ok next, cache) ∧ Leads doc cache last next hops

/-- Opening once more leads to the same cursor, now and later. -/
def Settled (doc : Document) (cache : SkipCache) (o : Opened) : Prop :=
  ∀ later, Grows cache later →
    Leads doc later o.cur (Cursor.root doc) (.path o.path :: o.hops)

section Settled

variable {doc : Document} {marks : List Nat} {cache : SkipCache} {o : Opened}

theorem Leads.append {last next cur : Cursor} {hop : Hop} {hops : List Hop}
    (leads : Leads doc cache last cur hops) (go : hop.go doc cache last = (.ok next, cache)) :
    Leads doc cache next cur (hops ++ [hop]) := by
  induction hops generalizing cur with
  | nil => exact ⟨next, (show cur = last from leads) ▸ go, rfl⟩
  | cons first hops ih =>
      obtain ⟨middle, went, rest⟩ := leads
      exact ⟨middle, went, ih rest⟩

theorem Settled.mono (settled : Settled doc cache o) {later : SkipCache}
    (grown : Grows cache later) : Settled doc later o :=
  fun final further => settled final (grown.trans further)

theorem settled_root (indexed : Indexed doc marks)
    (kept : CacheKeeps doc (fun _ _ => True) cache) {path : Bytes} {next : Cursor} (i : Nat)
    (ok : (resolve doc cache (Cursor.root doc) path).1 = .ok next) :
    Settled doc (resolve doc cache (Cursor.root doc) path).2 ⟨i, path, [], next⟩ :=
  fun _ grown => ⟨next, resolve_again indexed path kept ok grown, rfl⟩

theorem Settled.hop (indexed : Indexed doc marks)
    (kept : CacheKeeps doc (fun _ _ => True) cache) (settled : Settled doc cache o) (hop : Hop)
    {next : Cursor} (ok : (hop.go doc cache o.cur).1 = .ok next) :
    Settled doc (hop.go doc cache o.cur).2 { o with hops := o.hops ++ [hop], cur := next } :=
  fun later grown =>
    (settled later (hop.grows.trans grown)).append (hop.again indexed kept ok grown)

end Settled

/-! ## What sessions keep -/

/-- `cur_box` holds the cursor of the last open, every Cursor object refers to it, and all
opens can be repeated. -/
structure Sound (docs : List Document) (m : Module) (opened : List Opened) : Prop where
  length : m.cells.length = docs.length
  keeps : ∀ (d : Nat) (doc : Document) (cells : Cells), docs[d]? = some doc → m.cells[d]? = some cells →
    CacheKeeps doc (fun _ _ => True) cells.cache
  boxes : m.boxes = [opened.getLast?.map fun o => ⟨o.doc, o.cur⟩]
  cursors : m.cursors = opened.map fun o => ⟨curBox, o.doc⟩
  settled : ∀ o ∈ opened, ∃ doc cells, docs[o.doc]? = some doc ∧ m.cells[o.doc]? = some cells ∧
    Settled doc cells.cache o

/-- All documents were parsed from texts whose positions fit the index. -/
def Parsed (strings : StringPath) (docs : List Document) : Prop :=
  ∀ doc ∈ docs, ∃ scanner buf opts, buf.length < 2 ^ 32 - 1 ∧
    parseWithOptions (dispatch scanner strings) buf opts = .ok doc

theorem Parsed.indexed {strings : StringPath} {docs : List Document}
    (parsed : Parsed strings docs) {d : Nat} {doc : Document} (at_ : docs[d]? = some doc) :
    ∃ marks, Indexed doc marks := by
  obtain ⟨scanner, buf, opts, small, ok⟩ := parsed doc (List.mem_of_getElem? at_)
  exact ⟨_, (indexed_of_parse scanner strings small ok).2.2⟩

section Sessions

variable {F : Type} {host : Host F} {docs : List Document} {m : Module}
  {opened : List Opened}

theorem Sound.parsed (docs : List Document) : Sound docs (Module.parsed docs) [] where
  length := by simp [Module.parsed]
  keeps d doc cells _ at_ := by
    rw [Module.parsed, List.getElem?_map] at at_
    obtain ⟨-, -, rfl⟩ := Option.map_eq_some_iff.1 at_
    exact CacheKeeps.new doc _
  boxes := rfl
  cursors := rfl
  settled _ none := by cases none

theorem Sound.cells (sound : Sound docs m opened) {d : Nat} {doc : Document}
    (at_ : docs[d]? = some doc) : ∃ cells, m.cells[d]? = some cells := by
  have bound := (List.getElem?_eq_some_iff.1 at_).1
  exact ⟨_, List.getElem?_eq_getElem (by rw [sound.length]; exact bound)⟩

/-- What a method call comes down to: a call of the library on a document, which lets the
cache grow, and which records what it opens. -/
structure Serves (host : Host F) (docs : List Document) (m : Module) (opened : List Opened)
    (method : Method) (d : Nat) (doc : Document) (cells : Cells) (expected : Option Expected)
    (run : Document → SkipCache → Located (Output F) × SkipCache) : Prop where
  docAt : docs[d]? = some doc
  cellsAt : m.cells[d]? = some cells
  step : m.step host docs method = some (checkAccess d expected (m.call docs d run))
  grows : Grows cells.cache (run doc cells.cache).2
  keeps : CacheKeeps doc (fun _ _ => True) (run doc cells.cache).2
  opens : ∀ cur, (run doc cells.cache).1 = .ok (.cursor cur) →
    ∃ o, method.record opened cur = some o ∧ o.doc = d ∧ o.cur = cur ∧
      Settled doc (run doc cells.cache).2 o

theorem read_cursor {doc : Document} {getter : Getter} {cur next : Cursor}
    (ok : getter.read host doc cur = .ok (.cursor next)) : getter = .open ∧ cur = next := by
  cases getter with
  | «open» => exact ⟨rfl, Output.cursor.inj (Except.ok.inj ok)⟩
  | _ =>
      obtain ⟨value, -, last⟩ := bind_eq_ok_iff.1 ok
      cases last

/-- The Cursor object hands its own cursor to the library. -/
theorem Sound.current (sound : Sound docs m opened) {slot : Nat}
    (current : IsCurrent opened slot) : ∃ o doc cells, opened[slot]? = some o ∧
      docs[o.doc]? = some doc ∧ m.cells[o.doc]? = some cells ∧ Settled doc cells.cache o ∧
      m.cursors[slot]? = some ⟨curBox, o.doc⟩ ∧
      (m.boxes[curBox]?).join = some ⟨o.doc, o.cur⟩ := by
  obtain ⟨o, last, here, isLast, sameDoc, sameCur⟩ := current
  obtain ⟨doc, cells, docAt, cellsAt, settled⟩ := sound.settled o (List.mem_of_getElem? here)
  refine ⟨o, doc, cells, here, docAt, cellsAt, settled, ?_, ?_⟩
  · rw [sound.cursors, List.getElem?_map, here]
    rfl
  · rw [sound.boxes, isLast, ← sameDoc, ← sameCur]
    rfl

theorem Sound.serves {strings : StringPath} (parsed : Parsed strings docs)
    (sound : Sound docs m opened) {method : Method} (inTurn : InTurn opened method)
    {result : Reply F × Module} (stepped : m.step host docs method = some result) :
    ∃ d doc cells expected run, Serves host docs m opened method d doc cells expected run := by
  cases method with
  | docGet d getter path =>
      obtain ⟨doc, docAt, -⟩ := Option.map_eq_some_iff.1 stepped
      obtain ⟨cells, cellsAt⟩ := sound.cells docAt
      obtain ⟨marks, indexed⟩ := parsed.indexed docAt
      have kept := sound.keeps d doc cells docAt cellsAt
      refine ⟨d, doc, cells, expected getter,
        fun document cache => getter.onRoot host document cache path, docAt, cellsAt, ?_, ?_, ?_,
        fun cur ok => ?_⟩
      · rw [Module.step, docAt]
        rfl
      · simp only [Getter.onRoot_eq]
        exact grows_resolve doc path cells.cache _
      · simp only [Getter.onRoot_eq]
        exact keeps_resolve indexed path _ kept
      · simp only [Getter.onRoot_eq] at ok ⊢
        obtain ⟨next, found, read⟩ := bind_eq_ok_iff.1 ok
        obtain ⟨rfl, rfl⟩ := read_cursor read
        exact ⟨_, rfl, rfl, rfl, settled_root indexed kept d (reportAt_eq_ok_iff.1 found)⟩
  | docIsNull d path =>
      obtain ⟨doc, docAt, -⟩ := Option.map_eq_some_iff.1 stepped
      obtain ⟨cells, cellsAt⟩ := sound.cells docAt
      obtain ⟨marks, indexed⟩ := parsed.indexed docAt
      refine ⟨d, doc, cells, none, fun document cache => qjsonIsNull document cache path, docAt,
        cellsAt, ?_, ?_, ?_, fun cur ok => ?_⟩
      · rw [Module.step, docAt]
        rfl
      · exact grows_resolve doc path cells.cache _
      · exact keeps_resolve indexed path _ (sound.keeps d doc cells docAt cellsAt)
      · obtain ⟨next, -, last⟩ := bind_eq_ok_iff.1 ok
        obtain ⟨type, -, last⟩ := bind_eq_ok_iff.1 last
        cases last
  | cursorGet slot getter path =>
      obtain ⟨o, doc, cells, here, docAt, cellsAt, settled, objectAt, boxed⟩ :=
        sound.current (inTurn slot rfl)
      obtain ⟨marks, indexed⟩ := parsed.indexed docAt
      have kept := sound.keeps o.doc doc cells docAt cellsAt
      refine ⟨o.doc, doc, cells, expected getter,
        fun document cache => getter.onCursor host document cache o.cur path, docAt, cellsAt, ?_,
        ?_, ?_, fun cur ok => ?_⟩
      · rw [Module.step, objectAt, Option.map_some, Module.callBox, boxed]
      · simp only [Getter.onCursor_eq]
        exact grows_resolve doc path cells.cache _
      · simp only [Getter.onCursor_eq]
        exact keeps_resolve indexed path _ kept
      · simp only [Getter.onCursor_eq] at ok ⊢
        obtain ⟨next, found, read⟩ := bind_eq_ok_iff.1 ok
        obtain ⟨rfl, rfl⟩ := read_cursor read
        refine ⟨{ o with hops := o.hops ++ [.path path], cur := next }, ?_, rfl, rfl,
          settled.hop indexed kept (.path path) (reportAt_eq_ok_iff.1 found)⟩
        rw [Method.record, here]
        rfl
  | cursorField slot key =>
      obtain ⟨o, doc, cells, here, docAt, cellsAt, settled, objectAt, boxed⟩ :=
        sound.current (inTurn slot rfl)
      obtain ⟨marks, indexed⟩ := parsed.indexed docAt
      have kept := sound.keeps o.doc doc cells docAt cellsAt
      refine ⟨o.doc, doc, cells, some (.type .obj),
        fun document cache => qjsonCursorField document cache o.cur key, docAt, cellsAt, ?_, ?_,
        ?_, fun cur ok => ?_⟩
      · rw [Module.step, objectAt, Option.map_some, Module.callBox, boxed]
      · exact (Hop.key key).grows
      · exact Hop.keeps indexed kept (.key key)
      · obtain ⟨next, found, same⟩ := (@Hop.run_ok_iff doc _ _ F host (.key key) _).1 ok
        obtain rfl := Output.cursor.inj same
        refine ⟨{ o with hops := o.hops ++ [.key key], cur := cur }, ?_, rfl, rfl,
          settled.hop indexed kept (.key key) found⟩
        rw [Method.record, here]
        rfl
  | cursorIndex slot i =>
      obtain ⟨o, doc, cells, here, docAt, cellsAt, settled, objectAt, boxed⟩ :=
        sound.current (inTurn slot rfl)
      obtain ⟨marks, indexed⟩ := parsed.indexed docAt
      have kept := sound.keeps o.doc doc cells docAt cellsAt
      have cache := @Hop.run_cache doc cells.cache o.cur F host (.idx i)
      refine ⟨o.doc, doc, cells, some (.type .arr),
        fun document cache => qjsonCursorIndex document cache o.cur i, docAt, cellsAt, ?_, ?_, ?_,
        fun cur ok => ?_⟩
      · rw [Module.step, objectAt, Option.map_some, Module.callBox, boxed]
      · exact cache ▸ (Hop.idx i).grows
      · exact cache ▸ Hop.keeps indexed kept (.idx i)
      · obtain ⟨next, found, same⟩ := (@Hop.run_ok_iff doc _ _ F host (.idx i) _).1 ok
        obtain rfl := Output.cursor.inj same
        refine ⟨{ o with hops := o.hops ++ [.idx i], cur := cur }, ?_, rfl, rfl,
          cache ▸ settled.hop indexed kept (.idx i) found⟩
        rw [Method.record, here]
        rfl

section Calls

variable {d : Nat} {doc : Document} {cells : Cells} {method : Method}
  {expected : Option Expected} {run : Document → SkipCache → Located (Output F) × SkipCache}

/-- The cells behind a call. -/
def Cells.behind (doc : Document) (result : Located (Output F) × SkipCache) : Cells :=
  ⟨result.2, offsetBehind doc result.1⟩

/-- The reply to an outcome of a call on a document. -/
def replyTo (doc : Document) (expected : Option Expected) (outcome : Located (Output F)) :
    Reply F :=
  match ffiCatch outcome with
  | .ok (.cursor _) => .cursor
  | .ok output => .value output
  | .error .notFound => .nil
  | .error code => .error code (offsetBehind doc outcome) expected

theorem Module.call_cursor (docAt : docs[d]? = some doc) (cellsAt : m.cells[d]? = some cells)
    {cur : Cursor} (ok : (run doc cells.cache).1 = .ok (.cursor cur)) :
    checkAccess d expected (m.call docs d run) = (.cursor,
      ⟨m.cells.set d (Cells.behind doc (run doc cells.cache)),
        m.boxes.set curBox (some ⟨d, cur⟩), m.cursors ++ [⟨curBox, d⟩]⟩) := by
  rw [Module.call, docAt, cellsAt, Cells.behind]
  simp only [ok]
  rfl

theorem Module.call_other (docAt : docs[d]? = some doc) (cellsAt : m.cells[d]? = some cells)
    (other : ∀ cur, (run doc cells.cache).1 ≠ .ok (.cursor cur)) :
    replyTo doc expected (run doc cells.cache).1 ≠ .cursor ∧
      checkAccess d expected (m.call docs d run) =
        (replyTo doc expected (run doc cells.cache).1,
          { m with cells := m.cells.set d (Cells.behind doc (run doc cells.cache)) }) := by
  have bound := (List.getElem?_eq_some_iff.1 cellsAt).1
  have failed (code : QjsonErr) (outcome : Located (Output F))
      (caught : ffiCatch outcome = .error code) :
      replyTo doc expected outcome ≠ .cursor ∧ checkAccess d expected (ffiCatch outcome,
        { m with cells := m.cells.set d ⟨(run doc cells.cache).2, offsetBehind doc outcome⟩ }) =
        (replyTo doc expected outcome,
          { m with
            cells := m.cells.set d ⟨(run doc cells.cache).2, offsetBehind doc outcome⟩ }) := by
    rw [replyTo, caught]
    cases code with
    | notFound => exact ⟨nofun, rfl⟩
    | _ => simp [checkAccess, Module.lastErrorOffset, List.getElem?_set_self bound]
  rw [Module.call, docAt, cellsAt, Cells.behind]
  simp only
  cases outcome : (run doc cells.cache).1 with
  | ok output =>
      cases output with
      | cursor cur => exact absurd outcome (other cur)
      | _ => exact ⟨nofun, rfl⟩
  | error fault =>
      cases fault with
      | panic => exact failed .oom (.error .panic) rfl
      | err error => exact failed error.1 (.error (.err error)) rfl

theorem Module.call_reply (docAt : docs[d]? = some doc) (cellsAt : m.cells[d]? = some cells) :
    (checkAccess d expected (m.call docs d run)).1 =
      replyTo doc expected (run doc cells.cache).1 := by
  by_cases opens : ∃ cur, (run doc cells.cache).1 = .ok (.cursor cur)
  · obtain ⟨cur, ok⟩ := opens
    rw [Module.call_cursor docAt cellsAt ok, ok]
    rfl
  · rw [(Module.call_other docAt cellsAt (not_exists.1 opens)).2]

theorem gained_cursor {after : Module} {cursor : QjsonCursor} {o : Opened}
    (boxed : (after.boxes[curBox]?).join = some cursor)
    (record : method.record opened cursor.cur = some o) :
    gained opened method (.cursor : Reply F) after = [o] := by
  simp [gained, boxed, record]

/-- Sound cells behind a call. -/
theorem Serves.keep_cells (sound : Sound docs m opened)
    (serves : Serves host docs m opened method d doc cells expected run) :
    (m.cells.set d (Cells.behind doc (run doc cells.cache))).length = docs.length ∧
    (∀ (e : Nat) (doc' : Document) (cells' : Cells), docs[e]? = some doc' →
      (m.cells.set d (Cells.behind doc (run doc cells.cache)))[e]? = some cells' →
      CacheKeeps doc' (fun _ _ => True) cells'.cache) ∧
    ∀ o ∈ opened, ∃ doc' cells', docs[o.doc]? = some doc' ∧
      (m.cells.set d (Cells.behind doc (run doc cells.cache)))[o.doc]? = some cells' ∧
      Settled doc' cells'.cache o := by
  have bound := (List.getElem?_eq_some_iff.1 serves.cellsAt).1
  refine ⟨by rw [List.length_set, sound.length], fun e doc' cells' docAt cellsAt => ?_,
    fun o member => ?_⟩
  · rw [List.getElem?_set] at cellsAt
    split at cellsAt
    · rename_i same
      subst same
      obtain rfl := Option.some.inj cellsAt
      obtain rfl := Option.some.inj (serves.docAt.symm.trans docAt)
      exact serves.keeps
    · exact sound.keeps e doc' cells' docAt cellsAt
  · obtain ⟨doc', cells', docAt, cellsAt, settled⟩ := sound.settled o member
    by_cases same : d = o.doc
    · subst same
      obtain rfl := Option.some.inj (serves.docAt.symm.trans docAt)
      obtain rfl := Option.some.inj (serves.cellsAt.symm.trans cellsAt)
      exact ⟨doc, _, docAt, List.getElem?_set_self bound, settled.mono serves.grows⟩
    · exact ⟨doc', cells', docAt, by rw [List.getElem?_set_ne same, cellsAt], settled⟩

/-- Method calls in turn keep the module sound. -/
theorem Serves.sound (sound : Sound docs m opened)
    (serves : Serves host docs m opened method d doc cells expected run)
    {reply : Reply F} {after : Module}
    (stepped : m.step host docs method = some (reply, after)) :
    Sound docs after (opened ++ gained opened method reply after) := by
  have same := Option.some.inj (serves.step.symm.trans stepped)
  obtain ⟨length, keeps, settled⟩ := serves.keep_cells sound
  have bound := (List.getElem?_eq_some_iff.1 serves.cellsAt).1
  by_cases opens : ∃ cur, (run doc cells.cache).1 = .ok (.cursor cur)
  · obtain ⟨cur, ok⟩ := opens
    obtain ⟨o, record, rfl, rfl, again⟩ := serves.opens cur ok
    rw [Module.call_cursor serves.docAt serves.cellsAt ok] at same
    obtain ⟨rfl, rfl⟩ := Prod.mk.inj same
    have boxes : m.boxes.set curBox (some ⟨o.doc, o.cur⟩) = [some ⟨o.doc, o.cur⟩] := by
      rw [sound.boxes]
      rfl
    have new : gained opened method (.cursor : Reply F)
        ⟨m.cells.set o.doc (Cells.behind doc (run doc cells.cache)),
          m.boxes.set curBox (some ⟨o.doc, o.cur⟩), m.cursors ++ [⟨curBox, o.doc⟩]⟩ = [o] := by
      exact gained_cursor (by rw [boxes]; rfl) record
    rw [new]
    refine ⟨length, keeps, ?_, ?_, fun o' member => ?_⟩
    · rw [List.getLast?_concat]
      exact boxes
    · rw [sound.cursors, List.map_append]
      rfl
    · rcases List.mem_append.1 member with old | isNew
      · exact settled o' old
      · obtain rfl := List.mem_singleton.1 isNew
        exact ⟨doc, _, serves.docAt, List.getElem?_set_self bound, again⟩
  · obtain ⟨noCursor, called⟩ := @Module.call_other F docs m d doc cells expected run
      serves.docAt serves.cellsAt (not_exists.1 opens)
    rw [called] at same
    obtain ⟨rfl, rfl⟩ := Prod.mk.inj same
    have none : gained opened method (replyTo doc expected (run doc cells.cache).1)
        { m with cells := m.cells.set d (Cells.behind doc (run doc cells.cache)) } = [] := by
      cases replied : replyTo doc expected (run doc cells.cache).1 with
      | cursor => exact absurd replied noCursor
      | _ => rfl
    rw [none, List.append_nil]
    exact ⟨length, keeps, sound.boxes, sound.cursors, settled⟩

end Calls

/-- Sessions keep the module sound. -/
theorem Session.sound {strings : StringPath} (parsed : Parsed strings docs)
    (session : Session host docs InTurn m opened) : Sound docs m opened := by
  induction session with
  | start => exact Sound.parsed docs
  | step _ inTurn stepped ih =>
      obtain ⟨d, doc, cells, expected, run, serves⟩ := ih.serves parsed inTurn stepped
      exact serves.sound ih stepped

/-! ## Opening everything afresh -/

/-- A Cursor object in a document, with its own cursor in the box, and the cache of the
document. -/
structure Holds (m : Module) (slot d : Nat) (cache : SkipCache) (cur : Cursor) : Prop where
  object : m.cursors[slot]? = some ⟨curBox, d⟩
  boxed : (m.boxes[curBox]?).join = some ⟨d, cur⟩
  cells : ∃ cells, m.cells[d]? = some cells ∧ cells.cache = cache

/-- The third argument of `check_access` behind a hop. -/
def Hop.expected : Hop → Option Expected
  | .path _ => none
  | .key _ => some (.type .obj)
  | .idx _ => some (.type .arr)

theorem Module.step_hop (m : Module) (slot : Nat) (hop : Hop) :
    m.step host docs (hop.method slot) = (m.cursors[slot]?).map fun object =>
      checkAccess object.doc hop.expected
        (m.callBox docs object.cur fun doc cache cur => hop.run host doc cache cur) := by
  cases hop <;> rfl

section Holding

variable {slot d : Nat} {doc : Document} {cache : SkipCache} {cur next : Cursor}
  (docAt : docs[d]? = some doc)

theorem Holds.handed (holds : Holds m slot d cache cur) : m.handed slot = some ⟨d, cur⟩ := by
  rw [Module.handed, holds.object]
  exact holds.boxed

include docAt in
theorem Holds.reply (holds : Holds m slot d cache cur) (expected : Option Expected)
    (run : Document → SkipCache → Cursor → Located (Output F) × SkipCache) :
    ((m.cursors[slot]?).map fun object =>
      checkAccess object.doc expected (m.callBox docs object.cur run)).map Prod.fst =
        some (replyTo doc expected (run doc cache cur).1) := by
  obtain ⟨cells, cellsAt, rfl⟩ := holds.cells
  rw [holds.object, Option.map_some, Option.map_some, Module.callBox, holds.boxed]
  exact congrArg some (Module.call_reply docAt cellsAt)

/-- Behind an open the new object has its cursor in the box. -/
theorem holds_of_opens {method : Method} {cells : Cells} {expected : Option Expected}
    {run : Document → SkipCache → Located (Output F) × SkipCache}
    (docAt : docs[d]? = some doc) (cellsAt : m.cells[d]? = some cells)
    (room : 0 < m.boxes.length)
    (step : m.step host docs method = some (checkAccess d expected (m.call docs d run)))
    (ok : (run doc cells.cache).1 = .ok (.cursor next))
    (same : (run doc cells.cache).2 = cells.cache) :
    ∃ after, m.opens host docs method = some after ∧ 0 < after.boxes.length ∧
      Holds after (after.cursors.length - 1) d cells.cache next := by
  have bound := (List.getElem?_eq_some_iff.1 cellsAt).1
  refine ⟨_, by rw [Module.opens, step, Module.call_cursor docAt cellsAt ok], ?_, ?_, ?_, ?_⟩
  · rw [List.length_set]
    exact room
  · rw [List.length_append, List.length_singleton, Nat.add_sub_cancel,
      List.getElem?_concat_length]
  · exact congrArg Option.join (List.getElem?_set_self room)
  · exact ⟨_, List.getElem?_set_self bound, same⟩

include docAt in
/-- A hop from the last object that leaves the cache alone. -/
theorem Holds.hop (holds : Holds m (m.cursors.length - 1) d cache cur)
    (room : 0 < m.boxes.length) (hop : Hop) (go : hop.go doc cache cur = (.ok next, cache)) :
    ∃ after, m.opens host docs (hop.method (m.cursors.length - 1)) = some after ∧
      0 < after.boxes.length ∧ Holds after (after.cursors.length - 1) d cache next := by
  obtain ⟨cells, cellsAt, rfl⟩ := holds.cells
  refine @holds_of_opens F host docs m d doc next _ cells hop.expected
    (fun doc cache => hop.run host doc cache cur) docAt cellsAt room ?_ ?_ ?_
  · rw [Module.step_hop, holds.object, Option.map_some, Module.callBox, holds.boxed]
  · exact hop.run_ok_iff.2 ⟨next, by rw [go], rfl⟩
  · rw [hop.run_cache, go]

include docAt in
theorem Holds.hops {hops : List Hop} {last : Cursor}
    (holds : Holds m (m.cursors.length - 1) d cache cur) (room : 0 < m.boxes.length)
    (leads : Leads doc cache last cur hops) :
    ∃ fresh, hops.foldlM (fun m hop => m.opens host docs
        (hop.method (m.cursors.length - 1))) m = some fresh ∧
      Holds fresh (fresh.cursors.length - 1) d cache last := by
  induction hops generalizing m cur with
  | nil =>
      obtain rfl : cur = last := leads
      exact ⟨m, rfl, holds⟩
  | cons hop hops ih =>
      obtain ⟨next, go, leads⟩ := leads
      obtain ⟨after, opens, room', holds'⟩ := @Holds.hop F host docs m d doc cache cur next
        docAt holds room hop go
      obtain ⟨fresh, rest, final⟩ := ih holds' room' leads
      exact ⟨fresh, by rw [List.foldlM_cons, opens]; exact rest, final⟩

end Holding

/-- Everything that was opened can be opened afresh, which leads to the same cursor and
leaves the cache alone. -/
theorem Sound.reopen (sound : Sound docs m opened) {o : Opened} {doc : Document}
    {cells : Cells} (docAt : docs[o.doc]? = some doc) (cellsAt : m.cells[o.doc]? = some cells)
    (settled : Settled doc cells.cache o) :
    ∃ fresh, m.reopen host docs o = some fresh ∧
      Holds fresh (fresh.cursors.length - 1) o.doc cells.cache o.cur := by
  obtain ⟨next, go, leads⟩ := settled cells.cache (Grows.refl _)
  have resolved : resolve doc cells.cache (Cursor.root doc) o.path = (.ok next, cells.cache) :=
    go
  have room : 0 < m.boxes.length := by
    rw [sound.boxes]
    exact Nat.one_pos
  obtain ⟨first, opens, room', holds⟩ := @holds_of_opens F host docs m o.doc doc next
    (.docGet o.doc .open o.path) cells none
    (fun doc cache => Getter.open.onRoot host doc cache o.path) docAt cellsAt room
    (by rw [Module.step, docAt]; rfl)
    (by simp only [Getter.onRoot_eq, onRootPath, resolved]; rfl)
    (by simp only [Getter.onRoot_eq, onRootPath, resolved])
  obtain ⟨fresh, rest, final⟩ := @Holds.hops F host docs first o.doc doc cells.cache next docAt
    o.hops o.cur holds room' leads
  exact ⟨fresh, by rw [Module.reopen, opens]; exact rest, final⟩

/-- In every session, a Cursor object denotes the value it was opened on exactly as long
as the last open that succeeded led there. -/
theorem denotes_iff_isCurrent (strings : StringPath) (std : StdFloat F)
    (docs : List Document) (parsed : Parsed strings docs) (m : Module) (opened : List Opened)
    (session : Session ⟨strings.validate, std⟩ docs InTurn m opened) (slot : Nat) (o : Opened)
    (here : opened[slot]? = some o) :
    Denotes ⟨strings.validate, std⟩ docs m slot o ↔ IsCurrent opened slot := by
  have sound := session.sound parsed
  constructor
  · rintro ⟨fresh, reopened, same, -⟩
    obtain ⟨doc, cells, docAt, cellsAt, settled⟩ :=
      sound.settled o (List.mem_of_getElem? here)
    obtain ⟨fresh', reopened', holds⟩ := @Sound.reopen F ⟨strings.validate, std⟩ docs m opened
      sound o doc cells docAt cellsAt settled
    obtain rfl := Option.some.inj (reopened.symm.trans reopened')
    rw [holds.handed, Module.handed, sound.cursors, List.getElem?_map, here, sound.boxes] at same
    cases last : opened.getLast? with
    | none =>
        rw [last] at same
        cases same
    | some other =>
        rw [last] at same
        obtain ⟨sameDoc, sameCur⟩ := QjsonCursor.mk.inj (Option.some.inj same)
        exact ⟨o, other, here, last, sameDoc, sameCur⟩
  · intro current
    obtain ⟨o', doc, cells, here', docAt, cellsAt, settled, object, boxed⟩ :=
      sound.current current
    obtain rfl := Option.some.inj (here.symm.trans here')
    obtain ⟨fresh, reopened, holds⟩ := @Sound.reopen F ⟨strings.validate, std⟩ docs m opened
      sound o doc cells docAt cellsAt settled
    have own : Holds m slot o.doc cells.cache o.cur := ⟨object, boxed, cells, cellsAt, rfl⟩
    refine ⟨fresh, reopened, by rw [own.handed, holds.handed], fun getter path => ?_,
      fun hop => ?_⟩
    · exact (own.reply docAt (expected getter) _).trans
        (holds.reply docAt (expected getter) (fun document cache cur =>
          getter.onCursor ⟨strings.validate, std⟩ document cache cur path)).symm
    · rw [Module.step_hop, Module.step_hop]
      exact (own.reply docAt hop.expected _).trans (holds.reply docAt hop.expected
        (fun doc cache cur => hop.run ⟨strings.validate, std⟩ doc cache cur)).symm

end Sessions

/-- `{"a":1,"b":2}` -/
def pairText : Bytes :=
  [0x7B, 0x22, 0x61, 0x22, 0x3A, 0x31, 0x2C, 0x22, 0x62, 0x22, 0x3A, 0x32, 0x7D]

/-- Its document. -/
def pairDoc : Document :=
  ⟨pairText, [0, 1, 3, 4, 6, 7, 9, 10, 12, u32Max], true⟩

/-- The module behind `a = doc:open("a")` and `b = doc:open("b")`. -/
def pairModule : Module where
  cells := [⟨⟨[⟨[], []⟩, ⟨[1, 5], [5, 9]⟩], [(0, 1)]⟩, noOffset⟩]
  boxes := [some ⟨0, ⟨8, 9⟩⟩]
  cursors := [⟨curBox, 0⟩, ⟨curBox, 0⟩]

/-- What was opened. -/
def pairOpened : List Opened := [⟨0, [0x61], [], ⟨4, 5⟩⟩, ⟨0, [0x62], [], ⟨8, 9⟩⟩]

theorem parsed_pair : Parsed .scalar [pairDoc] := by
  intro doc member
  obtain rfl := List.mem_singleton.1 member
  exact ⟨.scalar, pairText, Options.default, by decide, by decide +kernel⟩

theorem session_pair {allowed : List Opened → Method → Prop}
    (opens : ∀ opened path, allowed opened (.docGet 0 .open path)) :
    Session ⟨StringPath.scalar.validate, unitFloat⟩ [pairDoc] allowed pairModule pairOpened := by
  have first := @Session.step Unit ⟨StringPath.scalar.validate, unitFloat⟩ [pairDoc] allowed _
    ⟨pairModule.cells, [some ⟨0, ⟨4, 5⟩⟩], [⟨curBox, 0⟩]⟩ _ _ .cursor .start
    (opens [] [0x61]) (by decide +kernel)
  exact @Session.step Unit ⟨StringPath.scalar.validate, unitFloat⟩ [pairDoc] allowed _
    pairModule _ _ .cursor first (opens _ [0x62]) (by decide +kernel)

theorem denotes_iff_isCurrent_pair :
    Denotes ⟨StringPath.scalar.validate, unitFloat⟩ [pairDoc] pairModule 1
        ⟨0, [0x62], [], ⟨8, 9⟩⟩ ↔ IsCurrent pairOpened 1 :=
  denotes_iff_isCurrent .scalar unitFloat [pairDoc] parsed_pair pairModule pairOpened
    (session_pair fun _ _ _ slot => nomatch slot) 1 ⟨0, [0x62], [], ⟨8, 9⟩⟩ rfl

/-- `a:get_i64()` returns 2. -/
theorem not_denotes_pair :
    ¬ ∀ (docs : List Document) (m : Module) (opened : List Opened), Parsed .scalar docs →
      Session ⟨StringPath.scalar.validate, unitFloat⟩ docs (fun _ _ => True) m opened →
      ∀ (slot : Nat) (o : Opened), opened[slot]? = some o →
        Denotes ⟨StringPath.scalar.validate, unitFloat⟩ docs m slot o := by
  intro bound
  obtain ⟨fresh, reopened, -, getters, -⟩ := bound [pairDoc] pairModule pairOpened parsed_pair
    (session_pair fun _ _ => trivial) 0 ⟨0, [0x61], [], ⟨4, 5⟩⟩ rfl
  have opened : pairModule.reopen ⟨StringPath.scalar.validate, unitFloat⟩ [pairDoc]
      ⟨0, [0x61], [], ⟨4, 5⟩⟩ = some { pairModule with
        boxes := [some ⟨0, ⟨4, 5⟩⟩]
        cursors := [⟨curBox, 0⟩, ⟨curBox, 0⟩, ⟨curBox, 0⟩] } := by
    decide +kernel
  obtain rfl := Option.some.inj (opened.symm.trans reopened)
  have same := getters .getI64 []
  revert same
  decide +kernel

end QJson.Lua

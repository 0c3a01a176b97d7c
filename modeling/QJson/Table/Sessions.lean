import QJson.Table.Encoding

/-!
# Whole sessions

`qjson.decode` plants one more parse tree; every other step keeps the documents and the
heap well formed.  So every state of a session is well formed.
-/

namespace QJson.Table

open Rfc8259 Validate Doc Decode Ffi Lua

/-! ## One more tree -/

section Planting

variable {forest : Forest} {tree : Tree × Nat}

theorem At.planted {d : Nat} {place : Place} (at_ : At forest d place) :
    At (forest ++ [tree]) d place := by
  obtain ⟨tree', start, path, planted, found⟩ := at_
  refine ⟨tree', start, path, ?_, found⟩
  rw [List.getElem?_append_left (List.getElem?_eq_some_iff.1 planted).1, planted]

variable {F : Type} [DecidableEq F] {env : Env F} {s s' : State F}

theorem TableOk.planted {n r : Nat} {table : LuaTable F} (ok : TableOk forest n r table) :
    TableOk (forest ++ [tree]) n r table := by
  cases table with
  | proxy q =>
      obtain ⟨place, ok⟩ := ok
      exact ⟨place, ok.at_.planted, ok.cursor, ok.kind, ok.span, ok.parent, ok.childCache,
        ok.elems, ok.order⟩
  | plain p => exact ok

omit [DecidableEq F] in
theorem Library.planted (lib : Library forest s) {doc : Document}
    (stands : Stands doc tree.1 tree.2) (docs : s'.docs = s.docs ++ [doc])
    (cells : s'.cells = s.cells ++ [⟨SkipCache.new, noOffset⟩]) :
    Library (forest ++ [tree]) s' := by
  have same {α : Type} {list : List α} {x : α} {d : Nat} {y : α}
      (here : (list ++ [x])[d]? = some y) :
      d < list.length ∧ list[d]? = some y ∨ d = list.length ∧ y = x := by
    rcases Nat.lt_trichotomy d list.length with old | new | beyond
    · rw [List.getElem?_append_left old] at here
      exact .inl ⟨old, here⟩
    · rw [new, List.getElem?_concat_length] at here
      exact .inr ⟨new, (Option.some.inj here).symm⟩
    · rw [List.getElem?_eq_none (by simp; omega)] at here
      cases here
  refine ⟨?_, ?_, fun d doc' tree' start' docAt treeAt => ?_,
    fun d doc' cells' tree' start' docAt cellsAt treeAt => ?_⟩
  · rw [docs, List.length_append, List.length_append, lib.docs]
    rfl
  · rw [cells, List.length_append, List.length_append, lib.cells]
    rfl
  · rw [docs] at docAt
    rcases same docAt with ⟨old, here⟩ | ⟨new, rfl⟩
    · rcases same treeAt with ⟨-, there⟩ | ⟨clash, -⟩
      · exact lib.stands d doc' tree' start' here there
      · have := lib.docs
        omega
    · rcases same treeAt with ⟨clash, -⟩ | ⟨-, rfl⟩
      · have := lib.docs
        omega
      · exact stands
  · rw [docs] at docAt
    rw [cells] at cellsAt
    rcases same docAt with ⟨old, here⟩ | ⟨new, rfl⟩
    · rcases same treeAt with ⟨-, there⟩ | ⟨clash, -⟩
      · rcases same cellsAt with ⟨-, held⟩ | ⟨clash, -⟩
        · exact lib.cache d doc' cells' tree' start' here held there
        · have := lib.docs
          have := lib.cells
          omega
      · have := lib.docs
        omega
    · rcases same cellsAt with ⟨clash, -⟩ | ⟨-, rfl⟩
      · have := lib.docs
        have := lib.cells
        omega
      · exact CacheOk.new _ _

theorem Wf.planted (wf : Wf forest s) {doc : Document} (stands : Stands doc tree.1 tree.2)
    (docs : s'.docs = s.docs ++ [doc])
    (cells : s'.cells = s.cells ++ [⟨SkipCache.new, noOffset⟩]) (tables : s'.tables = s.tables)
    (loops : s'.loops = s.loops) : Wf (forest ++ [tree]) s' := by
  refine ⟨wf.library.planted stands docs cells, fun r table here => ?_, fun loop member => ?_⟩
  · rw [tables] at here ⊢
    exact (wf.tables r table here).planted
  · rw [loops] at member
    have ok := wf.loops loop member
    cases loop with
    | ordered view i =>
        obtain ⟨q, here, object⟩ := ok
        exact ⟨q, (proxy?_congr tables view).trans here, object⟩
    | entries view it seen =>
        obtain ⟨q, place, k, here, object, at_, isObject, iter⟩ := ok
        exact ⟨q, place, k, (proxy?_congr tables view).trans here, object, at_.planted, isObject,
          iter⟩
    | elements view i =>
        rw [LoopOk, tables]
        exact ⟨ok.1, fun q here => ok.2 q ((proxy?_congr tables view).symm.trans here)⟩

end Planting

/-! ## `qjson.decode` -/

section Decode

variable {F : Type} [DecidableEq F] {env : Env F} {forest : Forest} {s : State F}

omit [DecidableEq F] in
theorem replies_openRoot {d start : Nat} {tree : Tree} (planted : forest[d]? = some (tree, start))
    (host : Host F) :
    Replies forest d (rootPlace tree start)
      (fun doc cache => Getter.open.onRoot host doc cache [])
      (.ok (.node (rootPlace tree start))) := by
  intro doc tree' start' path cache here found rep sound
  obtain ⟨rfl, rfl⟩ := Prod.mk.inj (Option.some.inj (planted.symm.trans here))
  have root := rep.root
  have atRoot := Place.locate_nil (rootPlace tree start)
  have answers := @answers_onPath F doc tree start rep .nowhere noOffset _ [] atRoot
    offsetBehind_nowhere cache sound [] (fun cur => Getter.open.read host doc cur)
    (fun next => .ok (.node next)) fun next route at_ => ⟨rfl, route, at_⟩
  simp only [Getter.onRoot_eq, onRootPath, root]
  rwa [leadNode_nil] at answers

theorem wf_fresh {s' : State F} {d : Nat} {place : Place} {kind : Kind} {parent : Option Nat}
    (wf : Wf forest s) (at_ : At forest d place) (isKind : place.node.kind? = some kind)
    (older : ∀ p, parent = some p → p < s.tables.length)
    (adds : Adds [.proxy (fresh kind parent d place)] s s') (library : Library forest s') :
    Wf forest s' := by
  have ok : TableOk forest (s.tables.length + 1) s.tables.length
      (.proxy (fresh (F := F) kind parent d place)) := ⟨place, fresh_ok at_ isKind older⟩
  exact wf.added ok adds library

theorem Decoded.wf {s' : State F} {d : Nat} {place : Place} {parent : Option Nat}
    {v : Option (Value F)} (decoded : Decoded env forest parent d place s v s')
    (wf : Wf forest s) (at_ : At forest d place)
    (older : ∀ p, parent = some p → p < s.tables.length) : Wf forest s' := by
  have returns := decoded.returns
  cases kind : place.node.kind? with
  | none =>
      rw [kind] at returns
      exact wf.quiet returns.1 decoded.library
  | some kind' =>
      rw [kind] at returns
      exact wf_fresh wf at_ kind older returns.2 decoded.library

/-- `qjson.decode` behind `qjson.parse`: the root is decoded like any other node. -/
theorem wp_decodeRoot (library : Library forest s) {tree : Tree} {d start : Nat}
    (planted : forest[d]? = some (tree, start)) :
    Action.Wp (do
      match ← access d none fun document cache =>
          Getter.open.onRoot env.host document cache [] with
      | some (.cursor root) =>
          match ← getter env d none root .typeof with
          | some (.type type) =>
              match ← access d none fun document cache =>
                  (qjsonCursorBytes document root, cache) with
              | some (.range start stop) =>
                  Action.modify fun s => { s with sz := (start, stop) }
                  let proxy (kind : Kind) : LuaTable F :=
                    .proxy ⟨kind, none, false, d, root, start, stop, none, ∅, ∅⟩
                  match type with
                  | .obj => do
                      let r ← newTable (proxy .obj)
                      return some (.table r)
                  | .arr => do
                      let r ← newTable (proxy .arr)
                      return some (.table r)
                  | _ => decodeCursor env none d root
              | _ => Action.raise (.message "qjson: root byte-span failed")
          | _ => Action.raise (.message "qjson: root typeof failed")
      | _ => Action.raise (.message "qjson: open root failed") : Act F (Option (Value F))) s
      (Decoded env forest none d (rootPlace tree start) s)
      (Refused env forest (rootPlace tree start) s) := by
  have at_ : At forest d (rootPlace tree start) :=
    ⟨tree, start, [], planted, Place.locate_nil _⟩
  rw [Action.wp_bind]
  refine library.wp_access at_ (replies_openRoot planted env.host) fun s₁ quiet₁ library₁ => ?_
  change Action.Wp (getter env d none (rootPlace tree start).cursor .typeof >>= _) s₁ _ _
  rw [Action.wp_bind]
  refine wp_getter library₁ at_ .typeof fun s₂ quiet₂ library₂ => ?_
  change Action.Wp (access d none (fun document cache =>
    (qjsonCursorBytes document (rootPlace tree start).cursor, cache)) >>= _) s₂ _ _
  rw [Action.wp_bind]
  refine library₂.wp_access at_ replies_bytes fun s₃ quiet₃ library₃ => ?_
  -- `sz_a` and `sz_b` are set.
  have quiet₄ (sz : Nat × Nat) : Quiet s { s₃ with sz } :=
    ((quiet₁.trans quiet₂).trans quiet₃).trans ⟨rfl, rfl, rfl, rfl, rfl⟩
  have library₄ (sz : Nat × Nat) : Library forest { s₃ with sz } := library₃.congr rfl rfl
  have leaf (sz : Nat × Nat) :
      Action.Wp (decodeCursor env none d (rootPlace tree start).cursor) { s₃ with sz }
        (Decoded env forest none d (rootPlace tree start) s)
        (Refused env forest (rootPlace tree start) s) :=
    (wp_decodeCursor (library₄ sz) at_ none).mono
      (fun _ _ decoded => decoded.earlier (quiet₄ sz))
      fun _ failed => ⟨failed.unreadable, (quiet₄ sz).trans failed.quiet, failed.library⟩
  have container {kind : Kind} (isKind : tree.kind? = some kind) (sz : Nat × Nat) :
      Action.Wp (do
        let r ← newTable (.proxy (fresh kind none d (rootPlace tree start)))
        return some (.table r) : Act F (Option (Value F))) { s₃ with sz }
        (Decoded env forest none d (rootPlace tree start) s)
        (Refused env forest (rootPlace tree start) s) := by
    refine Decoded.earlier (s := s) ?_ (quiet₄ sz)
    refine ⟨library₃.congr rfl rfl, ?_⟩
    rw [show (rootPlace tree start).node.kind? = some kind from isKind]
    exact ⟨rfl, rfl, rfl, rfl, rfl, rfl⟩
  change Action.Wp (Action.modify _ >>= _) s₃ _ _
  rw [Action.wp_bind, Action.wp_modify]
  cases type : nodeType (rootPlace tree start).node with
  | obj => exact container (kind_of_nodeType.1 type) _
  | arr => exact container (kind_of_nodeType.2 type) _
  | _ => exact leaf _

theorem wp_decode (library : Library forest s) {text : Bytes} {document : Document}
    (parsed : parseWithOptionsDetailed (dispatch env.scanner env.strings) text
      Options.default = .ok document)
    {tree : Tree} {start : Nat} (stands : Stands document tree start) :
    Action.Wp (decode env text) s
      (Decoded env (forest ++ [(tree, start)]) none s.docs.length (rootPlace tree start)
        { s with docs := s.docs ++ [document], cells := s.cells ++ [⟨SkipCache.new, noOffset⟩] })
      (Refused env (forest ++ [(tree, start)]) (rootPlace tree start)
        { s with
          docs := s.docs ++ [document], cells := s.cells ++ [⟨SkipCache.new, noOffset⟩] }) := by
  have planted : (forest ++ [(tree, start)])[s.docs.length]? = some (tree, start) := by
    rw [library.docs, List.getElem?_concat_length]
  have library' : Library (forest ++ [(tree, start)]) { s with
      docs := s.docs ++ [document], cells := s.cells ++ [⟨SkipCache.new, noOffset⟩] } :=
    library.planted stands rfl rfl
  rw [decode, Action.wp_bind]
  unfold Action.Wp parse
  rw [parsed]
  exact wp_decodeRoot library' planted

theorem wp_decode_error {text : Bytes} {fault : Fault ParseError}
    (parsed : parseWithOptionsDetailed (dispatch env.scanner env.strings) text
      Options.default = .error fault) :
    Action.Wp (decode env text) s (fun _ _ => False) (· = s) := by
  rw [decode, Action.wp_bind]
  unfold Action.Wp parse
  rw [parsed]
  cases fault <;> rfl

theorem exists_stands {text : Bytes} (short : text.length ≤ luaMaxString) {document : Document}
    (parsed : parseWithOptionsDetailed (dispatch env.scanner env.strings) text
      Options.default = .ok document) :
    ∃ (tree : Tree) (start : Nat), tree.Parses text ∧ Stands document tree start := by
  have ok : parseWithOptions (dispatch env.scanner env.strings) text Options.default =
      .ok document := parseWithOptions_ok_iff.2 parsed
  have small : text.length < u32Max := by
    have : luaMaxString < u32Max := by decide
    omega
  obtain ⟨tree, parses⟩ := exists_parses env.scanner env.strings small (by decide) ok
  obtain ⟨start, rep⟩ := represents_of_parse env.scanner env.strings small (by decide) ok
    parses
  exact ⟨tree, start, parses, rep.stands⟩

omit [DecidableEq F] in
theorem Library.at_planted (library : Library forest s) (tree : Tree) (start : Nat) :
    At (forest ++ [(tree, start)]) s.docs.length (rootPlace tree start) := by
  refine ⟨tree, start, [], ?_, Place.locate_nil _⟩
  rw [library.docs, List.getElem?_concat_length]

theorem keeps_decode (wf : Wf forest s) {text : Bytes} (short : text.length ≤ luaMaxString) :
    ∃ forest', Keeps forest' s (decode env text) := by
  cases parsed : parseWithOptionsDetailed (dispatch env.scanner env.strings) text
      Options.default with
  | error fault =>
      refine ⟨forest, (wp_decode_error parsed).mono (fun _ _ none => none.elim) ?_⟩
      rintro s' rfl
      exact wf
  | ok document =>
      obtain ⟨tree, start, -, stands⟩ := exists_stands short parsed
      have wf' : Wf (forest ++ [(tree, start)]) { s with
          docs := s.docs ++ [document], cells := s.cells ++ [⟨SkipCache.new, noOffset⟩] } :=
        wf.planted stands rfl rfl rfl rfl
      have at_ : At (forest ++ [(tree, start)]) s.docs.length (rootPlace tree start) := by
        refine ⟨tree, start, [], ?_, Place.locate_nil _⟩
        rw [wf.library.docs, List.getElem?_concat_length]
      exact ⟨_, (wp_decode wf.library parsed stands).mono
        (fun _ _ decoded => decoded.wf wf' at_ nofun) fun _ failed =>
          wf'.quiet failed.quiet failed.library⟩

end Decode

/-! ## Every step -/

section Steps

variable {F : Type} [DecidableEq F] {env : Env F} {forest : Forest} {s : State F}

theorem keeps_nextRound (wf : Wf forest s) (loop : Nat) :
    Keeps forest s (nextRound env loop) := by
  rw [Keeps, nextRound, Action.wp_bind, Action.wp_get]
  cases at_ : s.loops[loop]? with
  | none => exact wf
  | some state =>
      have ok := wf.loops state (List.mem_of_getElem? at_)
      cases state with
      | ordered view i =>
          have okLoop : LoopOk forest s (.ordered view (i + 1)) := ok
          have wf' := wf.setLoop loop okLoop
          change Action.Wp (setLoop loop (.ordered view (i + 1)) >>= _) s _ _
          rw [Action.wp_bind, setLoop, Action.wp_modify]
          split
          · exact wf'
          · split
            · exact wf'
            · exact wf'
      | entries view it seen =>
          simp only
          split
          · exact wf
          · rename_i q here
            rw [Action.wp_bind]
            refine Action.Wp.mono (keeps_lazyObjectIter wf here ok) (fun entry s' wf' => ?_)
              fun _ => id
            cases entry <;> exact wf'
      | elements view i =>
          simp only
          rw [Action.wp_bind]
          refine Action.Wp.mono (keeps_lazyArrayIter wf ok) (fun element s' wf' => ?_)
            fun _ => id
          cases element <;> exact wf'

theorem keeps_run (wf : Wf forest s) {op : Op F} (proper : op.Proper s)
    (noDecode : ∀ text, op ≠ .decode text) : Keeps forest s (op.run env) := by
  have then_ {α β : Type} {action : Act F α} {next : α → Act F β}
      (first : Keeps forest s action) (second : ∀ v s', Wf forest s' → Keeps forest s' (next v)) :
      Keeps forest s (action >>= next) := by
    rw [Keeps, Action.wp_bind]
    exact Action.Wp.mono first (fun v s' wf' => second v s' wf') fun _ => id
  have answer {β : Type} (reply : β) (s' : State F) (wf' : Wf forest s') :
      Keeps forest s' (pure reply : Act F β) := wf'
  have settings (settings : Settings) : Wf forest { s with settings } :=
    wf.later (wf.library.congr rfl rfl) (Later.of_tables rfl) rfl wf.tables
  cases op with
  | decode text => exact absurd rfl (noDecode text)
  | newTable emptyArray =>
      have empty : TableOk forest (s.tables.length + 1) s.tables.length
          (.plain (⟨∅, emptyArray, none, none⟩ : Plain F)) := fun k v none => by cases none
      exact wf.added empty ⟨rfl, rfl, rfl, rfl, rfl⟩ (wf.library.congr rfl rfl)
  | index t k => exact then_ (keeps_index wf k) fun _ => answer _
  | newindex t k v =>
      exact then_ (keeps_newindex wf proper.1 proper.2.1) fun _ => answer _
  | pairs t =>
      rw [Op.run, Keeps, Action.wp_bind, Action.wp_get]
      split
      · exact wf
      · rename_i q here
        split
        · rename_i object
          exact then_ (keeps_objectPairs wf here object) fun _ => answer _
        · rename_i array
          exact then_ (keeps_arrayIpairs wf here array) fun _ => answer _
  | ipairs t =>
      rw [Op.run, Keeps, Action.wp_bind, Action.wp_get]
      split
      · exact wf
      · rename_i q here
        split
        · exact wf
        · rename_i array
          exact then_ (keeps_arrayIpairs wf here array) fun _ => answer _
  | next loop => exact keeps_nextRound wf loop
  | len t =>
      rw [Op.run, Keeps, Action.wp_bind, Action.wp_get]
      split
      · exact wf
      · exact wf
      · rename_i q here
        exact then_ (keeps_lazyLen wf (proxy?_eq_some.2 here)) fun _ => answer _
  | materialize room keepOrigin v =>
      have settles : Settles env forest keepOrigin (Table.materialize env room keepOrigin) :=
        settles_materialize room keepOrigin
      have kept : Keeps forest s (Table.materialize env room keepOrigin v) :=
        (settles s v wf proper).mono (fun _ _ settled => settled.kept.wf) fun _ failed => failed.wf
      exact then_ kept fun _ => answer _
  | encode v =>
      have kept : Keeps forest s (Table.encode env v) :=
        Action.Wp.mono (grows_encode wf v) (fun _ _ kept => kept.wf) fun _ kept => kept.wf
      exact then_ kept fun _ => answer _
  | encodeNumberPrecision precision =>
      refine then_ ?_ fun _ => answer _
      rw [Keeps, Table.encodeNumberPrecision]
      split
      · exact wf
      · exact settings _
  | encodeSparseArray convert ratio safe => exact settings _

omit [DecidableEq F] in
theorem library_start : Library [] (State.start F) where
  docs := rfl
  cells := rfl
  stands _ _ _ _ none := by cases none
  cache _ _ _ _ _ none := by cases none

theorem wf_start : Wf [] (State.start F) where
  library := library_start
  tables _ _ none := by cases none
  loops _ none := by cases none

/-- Every state of a session is well formed. -/
theorem Session.wf {allowed : State F → Op F → Prop} (session : Session env allowed s)
    (proper : ∀ s op, allowed s op → op.Proper s) : ∃ forest, Wf forest s := by
  induction session with
  | start =>
      exact ⟨[], wf_start⟩
  | @step s op _ may ih =>
      obtain ⟨forest, wf⟩ := ih
      have proper := proper s op may
      cases op with
      | decode text =>
          obtain ⟨forest', keeps⟩ := @keeps_decode F _ env forest s wf text proper
          have whole : Keeps forest' s ((Op.decode text).run env) := by
            rw [Keeps, Op.run, Action.wp_bind]
            exact keeps
          exact ⟨forest', whole.state⟩
      | _ => exact ⟨forest, (keeps_run wf proper fun text same => by cases same).state⟩

end Steps

end QJson.Table

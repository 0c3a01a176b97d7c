import QJson.Doc.Slots
import QJson.Ffi.Program

/-!
# What holds in every program

The cursors along a path are themselves cursors that a program can hold: each is one
`qjson_cursor_field` or `qjson_cursor_index` away from the one before.  A property of
caches, cursors and iterators that single steps preserve therefore holds in every
machine that a program leads to (`Preserved.reached`).
-/

namespace QJson.Ffi

open Rfc8259 Validate Doc Decode

variable {F : Type} {host : Host F} {doc : Document}

/-- A program holds the cursor, and the skip cache is as given. -/
def Live (host : Host F) (doc : Document) (cache : SkipCache) (cur : Cursor) : Prop :=
  ∃ m, Reached host doc m ∧ m.cache = cache ∧ cur ∈ m.cursors

theorem resolve_empty (doc : Document) (cache : SkipCache) (cur : Cursor) :
    resolve doc cache cur [] = (.ok cur, cache) :=
  resolve_nil cache cur rfl

theorem Live.root {m : Machine} (reached : Reached host doc m) :
    Live host doc m.cache (Cursor.root doc) := by
  refine ⟨_, reached.step (.get .root .open []), ?_, ?_⟩
  · simp [Machine.step, Machine.answer, Getter.onRoot_eq, onRootPath, resolve_empty]
  · simp [Machine.step, Machine.answer, Getter.onRoot_eq, onRootPath, resolve_empty, reportAt,
      Getter.read, Machine.settle, Machine.keep]

theorem Live.held {m : Machine} (reached : Reached host doc m) {cur : Cursor}
    (member : cur ∈ m.cursors) : Live host doc m.cache cur :=
  ⟨m, reached, rfl, member⟩

/-- The child that a step returns can be held. -/
theorem Live.step {cache : SkipCache} {cur next : Cursor} {seg : PathSeg}
    (live : Live host doc cache cur) (narrow : ∀ n, seg = .idx n → n ≤ u32Max)
    (stepped : (step doc cache cur seg).1 = .ok next) :
    Live host doc (step doc cache cur seg).2 next := by
  obtain ⟨m, reached, rfl, member⟩ := live
  obtain ⟨slot, held⟩ := List.getElem?_of_mem member
  cases seg with
  | key name =>
      refine ⟨_, reached.step (.field slot name), ?_, ?_⟩
      · simp [Machine.step, Machine.answer, held, qjsonCursorField, resolveSingleKey]
      · simp [Machine.step, Machine.answer, held, qjsonCursorField, resolveSingleKey, stepped,
          reportAt, Machine.settle, Machine.keep]
  | idx n =>
      have fits : ¬ u32Max < n := Nat.not_lt.2 (narrow n rfl)
      refine ⟨_, reached.step (.index slot n), ?_, ?_⟩
      · simp [Machine.step, Machine.answer, held, qjsonCursorIndex, fits, resolveSingleIdx]
      · simp [Machine.step, Machine.answer, held, qjsonCursorIndex, fits, resolveSingleIdx,
          stepped, reportAt, Machine.settle, Machine.keep]

/-- A cursor outlives the calls made on it. -/
theorem Live.stay {cache : SkipCache} {cur : Cursor} (live : Live host doc cache cur)
    (name : Bytes) : Live host doc (Doc.step doc cache cur (.key name)).2 cur := by
  obtain ⟨m, reached, rfl, member⟩ := live
  obtain ⟨slot, held⟩ := List.getElem?_of_mem member
  have answered : m.answer host doc (.field slot name) =
      some (qjsonCursorField doc m.cache cur name) := by
    rw [Machine.answer, held]
    rfl
  refine ⟨_, reached.step (.field slot name), ?_, ?_⟩
  · rw [Machine.step_some answered, Machine.settle_cache]
    rfl
  · rw [Machine.step_some answered]
    exact Machine.settle_keeps member

/-- What a getter returns holds no cursor but the one it reads. -/
theorem Getter.read_ok {getter : Getter} {cur : Cursor} {output : Output F}
    (ok : getter.read host doc cur = .ok output) :
    (∀ next, output.cursor? = some next → next = cur) ∧ output.iter? = none := by
  cases getter with
  | «open» =>
      obtain rfl := Except.ok.inj ok
      exact ⟨fun next same => (Option.some.inj same).symm, rfl⟩
  | _ =>
      obtain ⟨value, -, rest⟩ := bind_eq_ok_iff.1 ok
      obtain rfl := Except.ok.inj rest
      exact ⟨fun next none => (by cases none), rfl⟩

theorem reportAt_eq_ok_iff {α : Type} {site : Site} {outcome : Rust QjsonErr α} {value : α} :
    reportAt site outcome = .ok value ↔ outcome = .ok value := by
  rcases outcome with (_ | _) | _ <;> simp [reportAt, mapErr]

/-! ## Properties that steps preserve -/

/-- Steps preserve a property of caches, one of cursors and one of iterators. -/
structure Preserved (host : Host F) (doc : Document) (C : SkipCache → Prop)
    (K : Cursor → Prop) (I : Iter → Prop) : Prop where
  new : C SkipCache.new
  root : K (Cursor.root doc)
  step : ∀ cache cur seg, Live host doc cache cur → C cache → K cur →
    C (Doc.step doc cache cur seg).2 ∧
      ∀ next, (Doc.step doc cache cur seg).1 = .ok next → K next
  entry : ∀ cache cur i out, Live host doc cache cur → K cur →
    objectEntryAt host doc cur i = .ok out → K out.2
  init : ∀ cache cur it, Live host doc cache cur → K cur → iterInit doc cur = .ok it → I it
  next : ∀ it out, I it → iterNext host doc it = .ok out → K out.2.1 ∧ I out.2.2

namespace Preserved

variable {C : SkipCache → Prop} {K : Cursor → Prop} {I : Iter → Prop}
  (kept : Preserved host doc C K I)
include kept

theorem resolve (path : Bytes) {cache : SkipCache} {cur : Cursor}
    (live : Live host doc cache cur) (sound : C cache) (good : K cur) :
    C (resolve doc cache cur path).2 ∧ ∀ next, (resolve doc cache cur path).1 = .ok next →
      Live host doc (resolve doc cache cur path).2 next ∧ K next := by
  have walk := @resolve_induction doc
    (fun cache cur => Live host doc cache cur ∧ C cache ∧ K cur) (fun cache _ => C cache)
    (fun _ _ _ start => start.2.1)
    (fun cache cur seg next start narrow stepped =>
      have after := kept.step cache cur seg start.1 start.2.1 start.2.2
      ⟨start.1.step narrow stepped, after.1, after.2 next stepped⟩)
    (fun cache cur seg _ start _ => (kept.step cache cur seg start.1 start.2.1 start.2.2).1)
    path cache cur ⟨live, sound, good⟩
  cases outcome : (Doc.resolve doc cache cur path).1 with
  | ok next =>
      rw [outcome] at walk
      refine ⟨walk.2.1, fun next' same => ?_⟩
      obtain rfl := Except.ok.inj same
      exact ⟨walk.1, walk.2.2⟩
  | error fault =>
      rw [outcome] at walk
      exact ⟨walk, fun _ none => (by cases none)⟩

theorem read {path : Bytes} {getter : Getter} {cache : SkipCache} {cur : Cursor} {site : Site}
    (live : Live host doc cache cur) (sound : C cache) (good : K cur) {output : Output F}
    (ok : (reportAt site (Doc.resolve doc cache cur path).1 >>= fun next =>
      getter.read host doc next) = .ok output) :
    (∀ next, output.cursor? = some next → K next) ∧ ∀ it, output.iter? = some it → I it := by
  obtain ⟨next, resolved, read⟩ := bind_eq_ok_iff.1 ok
  have good' := ((kept.resolve path live sound good).2 next (reportAt_eq_ok_iff.1 resolved)).2
  obtain ⟨cursor, iter⟩ := Getter.read_ok read
  refine ⟨fun next' same => cursor next' same ▸ good', fun it same => ?_⟩
  rw [iter] at same
  cases same

theorem answer {m : Machine} (reached : Reached host doc m) (sound : C m.cache)
    (cursors : ∀ cur ∈ m.cursors, K cur) (iters : ∀ it ∈ m.iters, I it) {access : Access}
    {result : Located (Output F) × SkipCache}
    (answered : m.answer host doc access = some result) :
    C result.2 ∧ ∀ output, result.1 = .ok output →
      (∀ cur, output.cursor? = some cur → K cur) ∧ ∀ it, output.iter? = some it → I it := by
  have root := Live.root reached
  have child {cur next : Cursor} {seg : PathSeg} {site : Site} {output : Output F}
      (held : cur ∈ m.cursors)
      (ok : (reportAt site (Doc.step doc m.cache cur seg).1 >>= fun next =>
        (.ok (.cursor next) : Located (Output F))) = .ok output) :
      (∀ cur, output.cursor? = some cur → K cur) ∧ ∀ it, output.iter? = some it → I it := by
    obtain ⟨next, stepped, last⟩ := bind_eq_ok_iff.1 ok
    obtain rfl := Except.ok.inj last
    have after := kept.step m.cache cur seg (Live.held reached held) sound (cursors cur held)
    refine ⟨fun next' same => ?_, fun it none => (by cases none)⟩
    exact Option.some.inj same ▸ after.2 next (reportAt_eq_ok_iff.1 stepped)
  cases access with
  | get handle getter path =>
      cases handle with
      | root =>
          obtain rfl := Option.some.inj answered
          rw [Getter.onRoot_eq]
          exact ⟨(kept.resolve path root sound kept.root).1, fun output ok =>
            kept.read root sound kept.root ok⟩
      | cursor slot =>
          obtain ⟨cur, held, rfl⟩ := Option.map_eq_some_iff.1 answered
          have member := List.mem_of_getElem? held
          have live := Live.held reached member
          rw [Getter.onCursor_eq]
          exact ⟨(kept.resolve path live sound (cursors cur member)).1, fun output ok =>
            kept.read live sound (cursors cur member) ok⟩
  | isNull path =>
      obtain rfl := Option.some.inj answered
      refine ⟨(kept.resolve path root sound kept.root).1, fun output ok => ?_⟩
      obtain ⟨next, -, read⟩ := bind_eq_ok_iff.1 ok
      obtain ⟨type, -, last⟩ := bind_eq_ok_iff.1 read
      obtain rfl := Except.ok.inj last
      exact ⟨fun _ none => (by cases none), fun _ none => (by cases none)⟩
  | field slot key =>
      obtain ⟨cur, held, rfl⟩ := Option.map_eq_some_iff.1 answered
      have member := List.mem_of_getElem? held
      exact ⟨(kept.step m.cache cur (.key key) (Live.held reached member) sound
        (cursors cur member)).1, fun output ok => @child cur cur (.key key) _ output member ok⟩
  | index slot i =>
      obtain ⟨cur, held, rfl⟩ := Option.map_eq_some_iff.1 answered
      have member := List.mem_of_getElem? held
      unfold qjsonCursorIndex
      split
      · exact ⟨sound, fun output ok => by cases ok⟩
      · exact ⟨(kept.step m.cache cur (.idx i) (Live.held reached member) sound
          (cursors cur member)).1, fun output ok => @child cur cur (.idx i) _ output member ok⟩
  | bytes slot =>
      obtain ⟨cur, held, rfl⟩ := Option.map_eq_some_iff.1 answered
      refine ⟨sound, fun output ok => ?_⟩
      obtain ⟨range, -, last⟩ := bind_eq_ok_iff.1 ok
      obtain rfl := Except.ok.inj last
      exact ⟨fun _ none => (by cases none), fun _ none => (by cases none)⟩
  | entryAt slot i =>
      obtain ⟨cur, held, rfl⟩ := Option.map_eq_some_iff.1 answered
      have member := List.mem_of_getElem? held
      refine ⟨sound, fun output ok => ?_⟩
      obtain ⟨out, entry, last⟩ := bind_eq_ok_iff.1 ok
      obtain rfl := Except.ok.inj last
      have good := kept.entry m.cache cur i out (Live.held reached member)
        (cursors cur member) entry
      exact ⟨fun _ same => Option.some.inj same ▸ good, fun _ none => (by cases none)⟩
  | iterInit slot =>
      obtain ⟨cur, held, rfl⟩ := Option.map_eq_some_iff.1 answered
      have member := List.mem_of_getElem? held
      refine ⟨sound, fun output ok => ?_⟩
      obtain ⟨it, init, last⟩ := bind_eq_ok_iff.1 ok
      obtain rfl := Except.ok.inj last
      have good := kept.init m.cache cur it (Live.held reached member) (cursors cur member) init
      exact ⟨fun _ none => (by cases none), fun _ same => Option.some.inj same ▸ good⟩
  | iterNext slot =>
      obtain ⟨it, held, rfl⟩ := Option.map_eq_some_iff.1 answered
      refine ⟨sound, fun output ok => ?_⟩
      obtain ⟨out, next, last⟩ := bind_eq_ok_iff.1 ok
      obtain rfl := Except.ok.inj last
      have good := kept.next it out (iters it (List.mem_of_getElem? held)) next
      exact ⟨fun _ same => Option.some.inj same ▸ good.1,
        fun _ same => Option.some.inj same ▸ good.2⟩

/-- In every machine that a program leads to, the cache, the held cursors and the held
iterators have their properties. -/
theorem reached {m : Machine} (reached : Reached host doc m) :
    C m.cache ∧ (∀ cur ∈ m.cursors, K cur) ∧ ∀ it ∈ m.iters, I it := by
  induction reached with
  | start => exact ⟨kept.new, fun _ none => (by cases none), fun _ none => (by cases none)⟩
  | @step m access before ih =>
      obtain ⟨sound, cursors, iters⟩ := ih
      cases answered : m.answer host doc access with
      | none =>
          rw [Machine.step_none answered]
          exact ⟨sound, cursors, iters⟩
      | some result =>
          obtain ⟨sound', returns⟩ := kept.answer before sound cursors iters answered
          rw [Machine.step_some answered]
          refine ⟨by rw [Machine.settle_cache]; exact sound', fun cur member => ?_,
            fun it member => ?_⟩
          · rcases Machine.mem_settle_cursors member with old | ⟨output, ok, same⟩
            · exact cursors cur old
            · exact (returns output ok).1 cur same
          · rcases Machine.mem_settle_iters member with old | ⟨output, ok, same⟩
            · exact iters it old
            · exact (returns output ok).2 it same

/-- A live cursor has its property, and the cache with it. -/
theorem live {cache : SkipCache} {cur : Cursor} (live : Live host doc cache cur) :
    C cache ∧ K cur := by
  obtain ⟨m, reached, rfl, member⟩ := live
  obtain ⟨sound, cursors, -⟩ := kept.reached reached
  exact ⟨sound, cursors cur member⟩

end Preserved

end QJson.Ffi

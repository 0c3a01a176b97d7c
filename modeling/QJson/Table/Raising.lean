import QJson.Action.Raises
import QJson.Table.Ordering

/-!
# What the walks raise

Calls of the library raise errors of accesses alone, and so do the walks that decode the
children of a proxy.  A loop over children raises what its body raises.
-/

namespace QJson.Table

open Rfc8259 Validate Doc Decode Ffi Lua

/-- The error of an access. -/
def LuaError.IsAccess : LuaError → Prop
  | .access _ _ _ => True
  | _ => False

section Calls

variable {F : Type} [DecidableEq F] {env : Env F} {kind : LuaError → Prop} {s : State F}

omit [DecidableEq F] in
theorem throws_callLib (d : Nat)
    (run : Document → SkipCache → Located (Output F) × SkipCache) :
    Action.Throws kind (callLib d run) s := by
  intro error s' ran
  unfold callLib at ran
  split at ran <;> cases ran

omit [DecidableEq F] in
theorem throws_access (d : Nat) (expected : Option Expected)
    (run : Document → SkipCache → Located (Output F) × SkipCache) :
    Action.Throws LuaError.IsAccess (access d expected run) s := by
  refine (throws_callLib d run).bind fun reply s' _ => ?_
  rw [check.eq_def]
  split
  · exact Action.throws_pure _
  · exact Action.throws_pure _
  · exact Action.throws_get.bind fun _ _ _ => Action.throws_raise trivial

theorem throws_getter (d : Nat) (expected : Option Expected) (cur : Cursor) (g : Getter) :
    Action.Throws LuaError.IsAccess (getter env d expected cur g) s :=
  throws_access d expected _

theorem throws_decodeCursor (parent : Option Nat) (d : Nat) (cur : Cursor) :
    Action.Throws LuaError.IsAccess (decodeCursor env parent d cur) s := by
  have wrapped (kind : Kind) {s : State F} : Action.Throws LuaError.IsAccess (do
      let r ← newTable (.proxy (← wrapChild kind parent d cur))
      return some (.table r) : Act F (Option (Value F))) s := by
    refine Action.Throws.bind ?_ fun q s' _ => ?_
    · refine (throws_callLib d _).bind fun reply s' _ => ?_
      split
      · exact (Action.throws_modify _).bind fun _ _ _ => Action.throws_get.bind fun _ _ _ =>
          Action.throws_pure _
      · exact Action.throws_get.bind fun _ _ _ => Action.throws_pure _
    · exact Action.Throws.bind (fun _ _ ran => by cases ran) fun r s'' _ => Action.throws_pure _
  refine (throws_getter d none cur .typeof).bind fun reply s' ran => ?_
  split
  · rename_i type
    cases type with
    | str | num | bool =>
        refine (throws_getter d _ cur _).bind fun reply s'' _ => ?_
        split <;> exact Action.throws_pure _
    | null => exact Action.throws_pure _
    | obj => exact wrapped .obj
    | arr => exact wrapped .arr
  · exact Action.throws_pure _

end Calls

/-! ## Exact errors -/

/-- A number cannot be read, and the error says where. -/
def Fails {F : Type} [DecidableEq F] (env : Env F) (place : Place) (error : LuaError) : Prop :=
  ∃ token code, place.node = .scalar token ∧ IsNumber token ∧
    parseF64 env.std token false = fail code ∧
    error = .access code place.pos (some (.type .num))

section Exact

variable {F : Type} [DecidableEq F] {env : Env F} {forest : Forest} {s : State F} {d : Nat}
  {place : Place}

theorem Fails.unique {error error' : LuaError} (fails : Fails env place error)
    (fails' : Fails env place error') : error = error' := by
  obtain ⟨token, code, node, -, failed, rfl⟩ := fails
  obtain ⟨token', code', node', -, failed', rfl⟩ := fails'
  obtain rfl := Tree.scalar.inj (node.symm.trans node')
  obtain rfl := Fault.err.inj (Except.error.inj (failed.symm.trans failed'))
  rfl

theorem Fails.unreadable {error : LuaError} (fails : Fails env place error) :
    Unreadable env place.node := by
  obtain ⟨token, code, node, number, failed, -⟩ := fails
  refine ⟨token, node, number, fun x read => ?_⟩
  rw [failed] at read
  cases read

omit [DecidableEq F] in
theorem Library.throws_access (lib : Library forest s) (at_ : At forest d place)
    {run : Document → SkipCache → Located (Output F) × SkipCache} {answer : Answer F}
    (replies : Replies forest d place run answer) (expected : Option Expected) :
    Action.Throws (fun error => ∃ code offset, answer = .error (code, offset) ∧
      error = .access code offset expected) (access d expected run) s := by
  obtain ⟨doc, cells, tree, start, path, docAt, cellsAt, planted, found, rep, sound⟩ := lib.doc at_
  have meets := (replies doc tree start path cells.cache planted found rep sound).meets
  have call : callLib d run s = (.ok (ffiCatch (run doc cells.cache).1),
      { s with cells := s.cells.set d (Cells.mk (run doc cells.cache).2
        (offsetBehind doc (run doc cells.cache).1)) }) := by
    unfold callLib
    rw [docAt, cellsAt]
  intro error s' ran
  rw [access, Action.bind_of_ok call] at ran
  cases answer with
  | ok finding =>
      rw [meets.1] at ran
      cases ran
  | error failure =>
      obtain ⟨code, offset⟩ := failure
      obtain ⟨same, behind⟩ := meets
      rw [same, behind] at ran
      have inside := (List.getElem?_eq_some_iff.1 cellsAt).1
      refine ⟨code, offset, rfl, ?_⟩
      cases code with
      | notFound => cases ran
      | _ =>
          obtain ⟨raised, -⟩ := Prod.mk.inj ran
          obtain rfl := Except.error.inj raised
          simp [inside]

/-- The error of `decode_cursor` is that of the number that it meets. -/
theorem throws_decodeCursor_exact (lib : Library forest s) (at_ : At forest d place)
    (parent : Option Nat) :
    Action.Throws (Fails env place) (decodeCursor env parent d place.cursor) s := by
  intro error s' ran
  have refused : Action.Wp (decodeCursor env parent d place.cursor) s _ _ :=
    wp_decodeCursor lib at_ parent
  unfold Action.Wp at refused
  rw [ran] at refused
  obtain ⟨token, node, number, -⟩ := refused.unreadable
  have typeof : Action.Wp (getter env d none place.cursor .typeof) s
      (fun reply s' => Library forest s' ∧ reply = some (.type .num)) fun _ => False := by
    refine wp_getter lib at_ .typeof fun s' _ library => ⟨library, ?_⟩
    rw [← nodeType_number number, ← node]
    rfl
  have throws : Action.Throws (Fails env place) (decodeCursor env parent d place.cursor) s := by
    refine typeof.throws.bind_wp typeof fun reply s₁ returned => ?_
    obtain ⟨library, rfl⟩ := returned
    refine Action.Throws.bind ((library.throws_access at_ (replies_getter (host_validator env)
      .getF64) _).mono fun error raised => ?_) fun reply s₂ _ => ?_
    · obtain ⟨code, offset, answer, rfl⟩ := raised
      have text : scalarText place = .ok token := by rw [scalarText, node]
      rw [readNode, text, ok_bind] at answer
      rcases @parseF64_number F env.std token number with ⟨x, read⟩ | failed | failed
      · rw [show env.host.std = env.std from rfl, read] at answer
        cases answer
      · rw [show env.host.std = env.std from rfl, failed] at answer
        obtain ⟨rfl, rfl⟩ := Prod.mk.inj (Except.error.inj answer)
        exact ⟨token, _, node, number, failed, rfl⟩
      · rw [show env.host.std = env.std from rfl, failed] at answer
        obtain ⟨rfl, rfl⟩ := Prod.mk.inj (Except.error.inj answer)
        exact ⟨token, _, node, number, failed, rfl⟩
    · split <;> exact Action.throws_pure _
  exact throws error s' ran

end Exact

/-! ## Loops over children -/

section Loops

variable {F : Type} [DecidableEq F] {env : Env F} {forest : Forest} {place : Place}
  {q : Proxy F} {α : Type} {good : List Child → α → State F → Prop} {kind : LuaError → Prop}

/-- A loop over the entries of an object raises what its body raises. -/
theorem throws_forEntries (at_ : At forest q.doc place) (cursor : q.cur = place.cursor)
    (object : place.node.kind? = some .obj) (inv : LoopInv forest good)
    {body : α → Bytes → Cursor → Act F α}
    (step : ∀ k child acc s, place.children[k]? = some child →
      good (place.children.take k) acc s →
      Action.Throws kind (body acc (keyText child) child.cursor) s ∧
        Action.Wp (body acc (keyText child) child.cursor) s
          (good (place.children.take k ++ [child])) fun _ => True)
    {acc : α} {s : State F} (start : good [] acc s) :
    Action.Throws kind (forEntries env q body acc) s := by
  obtain ⟨doc, cells, tree, begins, path, -, -, -, found, rep, -⟩ :=
    (inv.library _ _ _ start).doc at_
  have rounds (fuel k : Nat) {acc : α} {s : State F}
      (room : (iterPlace place k).idxEnd < (iterPlace place k).idxCurrent + fuel)
      (start : good (place.children.take k) acc s) :
      Action.Throws kind (eachEntry env q.doc body fuel (iterPlace place k) acc) s := by
    induction fuel generalizing k acc s with
    | zero =>
        have := iterPlace_le rep found object k
        omega
    | succ fuel ih =>
        have call : Action.Wp (access q.doc none fun document cache =>
            (qjsonIterNext env.host document (iterPlace place k), cache)) s
            (fun reply s' => good (place.children.take k) acc s' ∧
              reply = (place.children[k]?).map fun child =>
                .next (keyText child) child.cursor (iterPlace place (k + 1)))
            fun _ => False := by
          refine (inv.library _ _ _ start).wp_access at_
            (replies_iterNext (host_validator env) object k) fun s' quiet library => ?_
          have kept := inv.quiet _ _ _ s' start quiet library
          cases here : place.children[k]? with
          | none => exact ⟨kept, rfl⟩
          | some child => exact ⟨kept, rfl⟩
        rw [eachEntry]
        refine call.throws.bind_wp call fun reply s' returned => ?_
        obtain ⟨kept, rfl⟩ := returned
        cases here : place.children[k]? with
        | none => exact Action.throws_pure acc
        | some child =>
            have forward := iterPlace_forward rep found object here
            have stop : (iterPlace place (k + 1)).idxEnd = (iterPlace place k).idxEnd := rfl
            obtain ⟨throws, keeps⟩ := step k child acc s' here kept
            refine throws.bind_wp keeps fun acc' s'' kept' => ?_
            refine ih (k + 1) (by omega) ?_
            rwa [take_succ_of here]
  have init : Action.Wp (newObjectIter q) s
      (fun it s' => it = iterPlace place 0 ∧ good [] acc s') fun _ => False := by
    rw [newObjectIter, Action.wp_bind, cursor]
    refine (inv.library _ _ _ start).wp_access at_ (replies_iterInit object)
      fun s' quiet library => ?_
    exact ⟨rfl, inv.quiet _ _ _ s' start quiet library⟩
  rw [forEntries]
  refine init.throws.bind_wp init fun it s' returned => ?_
  obtain ⟨rfl, kept⟩ := returned
  have inside := iterPlace_le rep found object 0
  exact rounds _ 0 (by omega) kept

omit [DecidableEq F] in
theorem wp_elementAt {s : State F} (library : Library forest s) (at_ : At forest q.doc place)
    (cursor : q.cur = place.cursor) (array : place.node.kind? = some .arr) {k : Nat}
    (small : k ≤ place.children.length) :
    Action.Wp (access q.doc (some (.type .arr)) fun document cache =>
      qjsonCursorIndex document cache q.cur k) s
      (fun reply s' => (Quiet s s' ∧ Library forest s') ∧
        reply = (place.children[k]?).map fun child => .cursor child.cursor) fun _ => False := by
  obtain ⟨doc, cells, tree, begins, path, docAt, -, -, found, rep, -⟩ := library.doc at_
  have few := length_children_lt rep found
  have width := rep.length_indices.2
  have count : place.node.children.length = place.children.length := by
    rw [← place.children_map_entry, List.length_map]
  rw [cursor]
  refine library.wp_access at_ (replies_index k) fun s' quiet library' => ?_
  rw [if_neg (by unfold u32Max; omega), pickNode, select, if_pos array, count]
  cases here : place.children[k]? with
  | none =>
      rw [if_neg (Nat.not_lt.2 (List.getElem?_eq_none_iff.1 here))]
      exact ⟨⟨quiet, library'⟩, rfl⟩
  | some child =>
      rw [if_pos (List.getElem?_eq_some_iff.1 here).1]
      simp only [here]
      exact ⟨⟨quiet, library'⟩, rfl⟩

omit [DecidableEq F] in
/-- A loop over the elements of an array raises what its body raises. -/
theorem throws_forElements (at_ : At forest q.doc place) (cursor : q.cur = place.cursor)
    (array : place.node.kind? = some .arr) (inv : LoopInv forest good)
    {body : α → Nat → Cursor → Act F α}
    (step : ∀ k child acc s, place.children[k]? = some child →
      good (place.children.take k) acc s →
      Action.Throws kind (body acc k child.cursor) s ∧
        Action.Wp (body acc k child.cursor) s (good (place.children.take k ++ [child]))
          fun _ => True)
    {acc : α} {s : State F} (start : good [] acc s) :
    Action.Throws kind (forElements q body acc) s := by
  obtain ⟨doc, cells, tree, begins, path, docAt, -, -, found, rep, -⟩ :=
    (inv.library _ _ _ start).doc at_
  have few := length_children_lt rep found
  have rounds (fuel k : Nat) {acc : α} {s : State F}
      (room : place.children.length < k + fuel) (within : k ≤ place.children.length)
      (start : good (place.children.take k) acc s) :
      Action.Throws kind (eachElement q body fuel k acc) s := by
    induction fuel generalizing k acc s with
    | zero => omega
    | succ fuel ih =>
        have call := wp_elementAt (inv.library _ _ _ start) at_ cursor array within
        rw [eachElement]
        refine call.throws.bind_wp call fun reply s' returned => ?_
        obtain ⟨⟨quiet, library⟩, rfl⟩ := returned
        have kept := inv.quiet _ _ _ s' start quiet library
        cases here : place.children[k]? with
        | none => exact Action.throws_pure acc
        | some child =>
            obtain ⟨throws, keeps⟩ := step k child acc s' here kept
            refine throws.bind_wp keeps fun acc' s'' kept' => ?_
            refine ih (k + 1) (by omega) (List.getElem?_eq_some_iff.1 here).1 ?_
            rwa [take_succ_of here]
  rw [forElements]
  refine Action.throws_get.bind fun s' _ ran => ?_
  cases ran
  refine rounds _ 0 ?_ (Nat.zero_le _) start
  simp only [docAt, Option.map_some, Option.getD_some]
  omega

end Loops

/-! ## Contents -/

section Contents

variable {F : Type} [DecidableEq F] {env : Env F} {forest : Forest} {s : State F} {view : Nat}
  {q : Proxy F}

theorem opened_decodeChild {s' : State F} {place : Place} (opened : Opened forest s s')
    (here : s.proxy? view = some q) (at_ : At forest q.doc place) :
    Action.Wp (decodeCursor env (some view) q.doc place.cursor) s'
      (fun _ s'' => Opened forest s s'') fun _ => True :=
  (wp_decodeChild opened.wf at_ (lt_of_proxy? (opened.opens.proxy? here))).mono
    (fun _ _ decoded => opened.trans decoded.1) fun _ _ => trivial

theorem loopInv_opened {α : Type} :
    LoopInv forest fun (_ : List Child) (_ : α) s' => Opened forest s s' where
  library _ _ _ kept := kept.wf.library
  quiet _ _ _ _ kept quiet library := kept.quiet quiet library

variable (wf : Wf forest s) (here : s.proxy? view = some q)
include wf here

theorem throws_materializeObjectContents (object : q.kind = .obj) :
    Action.Throws LuaError.IsAccess (materializeObjectContents env view q) s := by
  obtain ⟨place, ok⟩ := wf.proxy here
  refine throws_forEntries ok.at_ ok.cursor (ok.kind.trans (congrArg some object))
    loopInv_opened (fun k child out s' at_ kept => ⟨?_, ?_⟩) (Opened.refl wf)
  · exact (throws_decodeCursor _ _ _).bind fun _ _ _ => Action.throws_pure _
  · rw [Action.wp_bind]
    exact opened_decodeChild kept here (ok.child at_)

theorem throws_materializeArrayContents (array : q.kind = .arr) :
    Action.Throws LuaError.IsAccess (materializeArrayContents env view q) s := by
  obtain ⟨place, ok⟩ := wf.proxy here
  refine throws_forElements ok.at_ ok.cursor (ok.kind.trans (congrArg some array))
    loopInv_opened (fun k child out s' at_ kept => ⟨?_, ?_⟩) (Opened.refl wf)
  · exact (throws_decodeCursor _ _ _).bind fun _ _ _ => Action.throws_pure _
  · rw [Action.wp_bind]
    exact opened_decodeChild kept here (ok.child at_)

theorem throws_ensureObjectOrderState (object : q.kind = .obj) :
    Action.Throws LuaError.IsAccess (ensureObjectOrderState env view q) s := by
  obtain ⟨place, ok⟩ := wf.proxy here
  rw [ensureObjectOrderState]
  split
  · exact Action.throws_pure _
  · refine Action.Throws.bind ?_ fun order s' ran =>
      (Action.throws_modify _).bind fun _ _ _ => Action.throws_pure _
    refine throws_forEntries ok.at_ ok.cursor (ok.kind.trans (congrArg some object))
      loopInv_opened (fun k child o s' at_ kept => ⟨?_, ?_⟩) (Opened.refl wf)
    · rw [orderEntry]
      split
      · exact (throws_decodeCursor _ _ _).bind fun _ _ _ => Action.throws_pure _
      · refine Action.Throws.bind ?_ fun cached s'' ran => ?_
        · exact Action.throws_get.bind fun _ _ _ => Action.throws_pure _
        · split
          · exact Action.throws_pure _
          · exact (throws_decodeCursor _ _ _).bind fun _ _ _ => Action.throws_pure _
    · have decodes : Action.Wp (decodeCursor env (some view) q.doc child.cursor) s'
          (fun _ s'' => Opened forest s s'') fun _ => True :=
        opened_decodeChild kept here (ok.child at_)
      rw [orderEntry]
      split
      · rw [Action.wp_bind]
        exact decodes
      · rw [Action.wp_bind, cachedChild, Action.wp_bind, Action.wp_get, Action.wp_pure]
        split
        · exact kept
        · rw [Action.wp_bind]
          exact decodes

end Contents

end QJson.Table

import QJson.Table.Raising
import QJson.Table.Steps

/-!
# Reading fields

Before the first write a field is read from the cache or from the first member that is spelled
like the key; behind it, from the order state, where the last member counts whose decoded key
it is.  Two reads give the same value when they return the same old table, or one new proxy
each of the same container, or the same scalar.
-/

namespace QJson.Table

open Rfc8259 Validate Doc Decode Ffi Lua

section Statements

variable {F : Type} [DecidableEq F] (env : Env F)

/-- The first member whose key is spelled so in the source. -/
def firstSpelled (children : List Child) (key : Bytes) : Option Child :=
  children.find? fun child => child.entry.name.map Name.body == some key

/-- Where a value is found: it is held, or a member is decoded. -/
inductive Source (F : Type) where
  | held (v : Value F)
  | decoded (child : Child)

/-- Where a proxy without order state finds a field. -/
def Proxy.source (q : Proxy F) (children : List Child) (key : Bytes) : Option (Source F) :=
  match q.childCache.lookup key with
  | some v => some (.held v)
  | none => (firstSpelled children key).map .decoded

/-- Where `ensure_object_order_state` finds the value of a key. -/
def Proxy.orderSource (q : Proxy F) (children : List Child) (key : Bytes) : Option (Source F) :=
  match cachedOnce q (children.map keyText) key with
  | some v => some (.held v)
  | none => (lastUnder children key).map .decoded

/-- A value that was found below a view; what was decoded is newer than `n` tables. -/
def Found (s : State F) (view d n : Nat) : Option (Source F) → Option (Value F) → Prop
  | none, v => v = none
  | some (.held w), v => v = some w
  | some (.decoded child), v =>
      Yields env s view d child.place v ∧ ∀ r, v = some (.table r) → n ≤ r

/-- A source in a document, among `n` tables. -/
def SourceOk (forest : Forest) (n d : Nat) : Option (Source F) → Prop
  | none => True
  | some (.held v) => v.Below n
  | some (.decoded child) => At forest d child.place

/-- The error of a member that is decoded. -/
def Missed : Option (Source F) → LuaError → Prop
  | some (.decoded child), error => Fails env child.place error
  | _, _ => False

/-- The same value is found in both places. -/
def Alike : Option (Source F) → Option (Source F) → Prop
  | none, none => True
  | some (.held v), some (.held w) => v = w
  | some (.held v), some (.decoded child) | some (.decoded child), some (.held v) =>
      IsLeaf env child.place.node v
  | some (.decoded left), some (.decoded right) =>
      left.place = right.place ∨
        ∃ v, IsLeaf env left.place.node v ∧ IsLeaf env right.place.node v
  | _, _ => False

/-- The same value in two states that come from one with `n` tables: the same scalar, the same
old table, or an unused proxy each of the same container. -/
def SameValue (n : Nat) (s s' : State F) (v v' : Option (Value F)) : Prop :=
  match v, v' with
  | some (.table r), some (.table r') =>
      (r < n ∧ r' = r) ∨ (n ≤ r ∧ n ≤ r' ∧ ∃ kind parent d place,
        s.proxy? r = some (fresh kind parent d place) ∧
        s'.proxy? r' = some (fresh kind parent d place))
  | _, _ => v = v'

/-- The same value, or the same error. -/
def SameResult (n : Nat) (left right : Except LuaError (Option (Value F)) × State F) : Prop :=
  match left, right with
  | (.ok v, s), (.ok v', s') => SameValue n s s' v v'
  | (.error error, _), (.error error', _) => error = error'
  | _, _ => False

end Statements

section Leaves

variable {F : Type} [DecidableEq F] {env : Env F}

theorem not_literal {token : Bytes} (number : IsNumber token) :
    token ≠ litNull ∧ token ≠ litTrue ∧ token ≠ litFalse := by
  obtain ⟨b, rest, rfl, first⟩ := number.exists_cons
  refine ⟨?_, ?_, ?_⟩ <;>
  · intro same
    obtain ⟨rfl, -⟩ := List.cons.inj same
    revert first
    decide

/-- A scalar or a string has one value. -/
theorem IsLeaf.unique {node : Tree} {v w : Value F} (left : IsLeaf env node v)
    (right : IsLeaf env node w) : v = w := by
  cases node with
  | str body => exact Eq.trans left (Eq.symm right)
  | scalar token =>
      rcases left with ⟨rfl, rfl⟩ | ⟨rfl, rfl⟩ | ⟨rfl, rfl⟩ | ⟨number, x, read, rfl⟩
      all_goals
        rcases right with ⟨same, rfl⟩ | ⟨same, rfl⟩ | ⟨same, rfl⟩ | ⟨number', x', read', rfl⟩
      all_goals first
        | rfl
        | exact absurd same (by decide)
        | exact absurd same (not_literal number).1
        | exact absurd same (not_literal number).2.1
        | exact absurd same (not_literal number).2.2
        | exact absurd rfl (not_literal number').1
        | exact absurd rfl (not_literal number').2.1
        | exact absurd rfl (not_literal number').2.2
        | skip
      rw [read] at read'
      obtain rfl := Except.ok.inj read'
      rfl
  | empty _ _ => exact left.elim
  | node _ _ => exact left.elim

theorem IsLeaf.kind? {node : Tree} {v : Value F} (leaf : IsLeaf env node v) :
    node.kind? = none := by
  cases node with
  | empty _ _ => exact leaf.elim
  | node _ _ => exact leaf.elim
  | _ => rfl

theorem IsLeaf.not_table {node : Tree} {v : Value F} (leaf : IsLeaf env node v) (r : Nat) :
    v ≠ .table r := by
  rintro rfl
  cases node with
  | str body => cases leaf
  | scalar token =>
      rcases leaf with ⟨-, clash⟩ | ⟨-, clash⟩ | ⟨-, clash⟩ | ⟨-, x, -, clash⟩ <;> cases clash
  | empty _ _ => exact leaf.elim
  | node _ _ => exact leaf.elim

/-- A number that is not read has no value. -/
theorem Unreadable.not_isLeaf {node : Tree} {v : Value F} (unreadable : Unreadable env node) :
    ¬ IsLeaf env node v := by
  obtain ⟨token, rfl, number, unread⟩ := unreadable
  rintro (⟨same, -⟩ | ⟨same, -⟩ | ⟨same, -⟩ | ⟨-, x, read, -⟩)
  · exact (not_literal number).1 same
  · exact (not_literal number).2.1 same
  · exact (not_literal number).2.2 same
  · exact unread x read

end Leaves

/-! ## The same value -/

section Same

variable {F : Type} [DecidableEq F] {env : Env F} {forest : Forest} {s s' : State F}
  {view d n : Nat} {a b : Option (Source F)} {v v' : Option (Value F)} {w : Value F}
  {child left right : Child}

omit [DecidableEq F] in
theorem sameValue_of_not_table (noTable : ∀ r, w ≠ .table r) :
    SameValue n s s' (some w) v' ↔ some w = v' := by
  cases w with
  | table r => exact absurd rfl (noTable r)
  | _ => rfl

omit [DecidableEq F] in
theorem sameValue_symm : SameValue n s s' v v' ↔ SameValue n s' s v' v := by
  have one {s s' : State F} {v v' : Option (Value F)} (same : SameValue n s s' v v') :
      SameValue n s' s v' v := by
    unfold SameValue at same ⊢
    split at same
    · rcases same with ⟨old, rfl⟩ | ⟨new, new', kind, parent, d, place, here, here'⟩
      · exact .inl ⟨old, rfl⟩
      · exact .inr ⟨new', new, kind, parent, d, place, here', here⟩
    · rename_i notBoth
      subst same
      split
      · exact absurd rfl (notBoth _ _ rfl)
      · rfl
  exact ⟨one, one⟩

theorem Found.cases (found : Found env s view d n (some (.decoded child)) v) :
    (∃ w, IsLeaf env child.place.node w ∧ v = some w) ∨
      ∃ kind r, child.place.node.kind? = some kind ∧ v = some (.table r) ∧ n ≤ r ∧
        s.proxy? r = some (fresh kind (some view) d child.place) := by
  obtain ⟨yields, new⟩ := found
  unfold Yields at yields
  split at yields
  · rename_i kind isKind
    obtain ⟨r, same, here⟩ := yields
    exact .inr ⟨kind, r, isKind, same, new r same, here⟩
  · obtain ⟨w, same, leaf⟩ := yields
    exact .inl ⟨w, leaf, same⟩

theorem sameValue_held (below : w.Below n)
    (found : Found env s' view d n (some (.decoded child)) v') :
    SameValue n s s' (some w) v' ↔ IsLeaf env child.place.node w := by
  rcases found.cases with ⟨x, leaf, rfl⟩ | ⟨kind, r, isKind, rfl, new, -⟩
  · rw [sameValue_symm, sameValue_of_not_table leaf.not_table]
    constructor
    · intro same
      exact Option.some.inj same ▸ leaf
    · intro leaf'
      rw [leaf.unique leaf']
  · refine ⟨fun same => ?_, fun leaf => ?_⟩
    · cases w with
      | table r' =>
          have old : r' < n := below
          rcases same with ⟨-, rfl⟩ | ⟨new', -⟩
          · omega
          · omega
      | _ => cases same
    · rw [leaf.kind?] at isKind
      cases isKind

/-- Two values that were decoded. -/
theorem sameValue_decoded (atLeft : At forest d left.place) (atRight : At forest d right.place)
    (found : Found env s view d n (some (.decoded left)) v)
    (found' : Found env s' view d n (some (.decoded right)) v') :
    SameValue n s s' v v' ↔ Alike env (some (.decoded left)) (some (.decoded right)) := by
  rcases found.cases with ⟨x, leaf, rfl⟩ | ⟨kind, r, isKind, rfl, new, here⟩
  · rw [sameValue_of_not_table leaf.not_table]
    rcases found'.cases with ⟨y, leaf', rfl⟩ | ⟨kind, r, isKind, rfl, new, -⟩
    · constructor
      · intro same
        exact .inr ⟨x, leaf, Option.some.inj same ▸ leaf'⟩
      · rintro (same | ⟨w, left, right⟩)
        · rw [same] at leaf
          rw [leaf.unique leaf']
        · rw [leaf.unique left, leaf'.unique right]
    · constructor
      · intro same
        exact absurd (Option.some.inj same) (leaf.not_table r)
      · rintro (same | ⟨w, -, right⟩)
        · rw [← same, leaf.kind?] at isKind
          cases isKind
        · rw [right.kind?] at isKind
          cases isKind
  · rcases found'.cases with ⟨y, leaf', rfl⟩ | ⟨kind', r', isKind', rfl, new', here'⟩
    · rw [sameValue_symm, sameValue_of_not_table leaf'.not_table]
      constructor
      · intro same
        exact absurd (Option.some.inj same) (leaf'.not_table r)
      · rintro (same | ⟨w, left, -⟩)
        · rw [same, leaf'.kind?] at isKind
          cases isKind
        · rw [left.kind?] at isKind
          cases isKind
    · constructor
      · rintro (⟨old, -⟩ | ⟨-, -, kind, parent, d', place, at_, at_'⟩)
        · omega
        · have both := (here.symm.trans at_).trans (at_'.symm.trans here')
          have cursors := congrArg Proxy.cur (Option.some.inj both)
          exact .inl (atLeft.unique atRight cursors)
      · rintro (same | ⟨w, left, -⟩)
        · rw [← same] at here' isKind'
          obtain rfl := Option.some.inj (isKind.symm.trans isKind')
          exact .inr ⟨new, new', _, _, _, _, here, here'⟩
        · rw [left.kind?] at isKind
          cases isKind

theorem sameValue_iff (ok : SourceOk forest n d a) (ok' : SourceOk forest n d b)
    (found : Found env s view d n a v) (found' : Found env s' view d n b v') :
    SameValue n s s' v v' ↔ Alike env a b := by
  match a, b with
  | none, none =>
      obtain rfl := found
      obtain rfl := found'
      exact iff_of_true rfl trivial
  | none, some (.held w) =>
      obtain rfl := found
      obtain rfl := found'
      exact iff_of_false nofun id
  | none, some (.decoded child) =>
      obtain rfl := found
      obtain ⟨w, rfl⟩ := found'.1.isSome
      exact iff_of_false nofun id
  | some (.held w), none =>
      obtain rfl := found
      obtain rfl := found'
      refine iff_of_false (fun same => ?_) id
      rw [sameValue_symm] at same
      cases same
  | some (.decoded child), none =>
      obtain rfl := found'
      obtain ⟨w, rfl⟩ := found.1.isSome
      refine iff_of_false (fun same => ?_) id
      rw [sameValue_symm] at same
      cases same
  | some (.held w), some (.held w') =>
      obtain rfl := found
      obtain rfl := found'
      have old : w.Below n := ok
      change _ ↔ w = w'
      cases w with
      | table r =>
          have old : r < n := old
          cases w' with
          | table r' =>
              constructor
              · rintro (⟨-, rfl⟩ | ⟨new, -⟩)
                · rfl
                · omega
              · rintro ⟨rfl⟩
                exact .inl ⟨old, rfl⟩
          | _ => exact iff_of_false nofun nofun
      | _ => exact Option.some_inj
  | some (.held w), some (.decoded child) =>
      obtain rfl := found
      exact sameValue_held ok found'
  | some (.decoded child), some (.held w) =>
      obtain rfl := found'
      rw [sameValue_symm]
      exact sameValue_held ok' found
  | some (.decoded left), some (.decoded right) =>
      exact sameValue_decoded ok ok' found found'

end Same

/-! ## Sources -/

section Sources

variable {F : Type} {forest : Forest} {t n : Nat} {q : Proxy F} {place : Place}

theorem mem_of_firstSpelled {children : List Child} {key : Bytes} {child : Child}
    (found : firstSpelled children key = some child) : child ∈ children :=
  List.mem_of_find?_eq_some found

/-- A value that is taken for the order state is in the cache. -/
theorem lookup_of_cachedOnce {keys : List Bytes} {key : Bytes} {v : Value F}
    (cached : cachedOnce q keys key = some v) : q.childCache.lookup key = some v := by
  rw [cachedOnce] at cached
  split at cached
  · exact cached
  · cases cached

theorem source_ok (ok : ProxyOk forest n t q place) (key : Bytes) :
    SourceOk forest n q.doc (q.source place.children key) := by
  rw [Proxy.source]
  cases cached : q.childCache.lookup key with
  | some v => exact ok.childCache key v cached
  | none =>
      cases first : firstSpelled place.children key with
      | none => exact trivial
      | some child =>
          obtain ⟨i, at_⟩ := List.getElem?_of_mem (mem_of_firstSpelled first)
          exact ok.child at_

theorem orderSource_ok (ok : ProxyOk forest n t q place) (key : Bytes) :
    SourceOk forest n q.doc (q.orderSource place.children key) := by
  rw [Proxy.orderSource]
  cases cached : cachedOnce q (place.children.map keyText) key with
  | some v => exact ok.childCache key v (lookup_of_cachedOnce cached)
  | none =>
      cases last : lastUnder place.children key with
      | none => exact trivial
      | some child =>
          obtain ⟨i, at_⟩ := List.getElem?_of_mem (mem_of_lastUnder last).1
          exact ok.child at_

end Sources

/-! ## Reads -/

section Reads

variable {F : Type} [DecidableEq F] {env : Env F} {forest : Forest} {s : State F} {t n m : Nat}
  {q : Proxy F} {place : Place} {key : Bytes}

theorem outcome_decodeChild {view d : Nat} (wf : Wf forest s) (at_ : At forest d place)
    (inside : view < s.tables.length) :
    Action.Outcome (decodeCursor env (some view) d place.cursor) s
      (fun v s' => Opened forest s s' ∧ Yields env s' view d place v ∧
        ∀ r, v = some (.table r) → s.tables.length ≤ r)
      (Fails env place) := by
  have new : Action.Wp (decodeCursor env (some view) d place.cursor) s
      (fun v _ => ∀ r, v = some (.table r) → s.tables.length ≤ r) fun _ => True := by
    refine (wp_decodeCursor wf.library at_ (some view)).mono (fun v s' decoded r same => ?_)
      fun _ _ => trivial
    subst same
    have returns := decoded.returns
    split at returns
    · obtain ⟨same, -⟩ := returns
      exact Nat.le_of_eq (Value.table.inj (Option.some.inj same)).symm
    · obtain ⟨-, w, same, leaf⟩ := returns
      exact absurd (Option.some.inj same).symm (leaf.not_table r)
  refine (((wp_decodeChild wf at_ inside).and new).mono ?_ fun _ => id).outcome
    (throws_decodeCursor_exact wf.library at_ _)
  rintro v s' ⟨⟨opened, yields⟩, new⟩
  exact ⟨opened, yields, new⟩

/-- The member that a key leads to. -/
theorem pickNode_key (object : place.node.kind? = some .obj) (key : Bytes) :
    pickNode place (.key key) = match firstSpelled place.children key with
      | some child => .ok child.place
      | none => .error .notFound := by
  have names : (place.node.children.findIdx? fun entry => entry.name.map Name.body == some key) =
      place.children.findIdx? fun child => child.entry.name.map Name.body == some key := by
    rw [← place.children_map_entry, List.findIdx?_map]
    rfl
  rw [pickNode, select, if_pos object, names, firstSpelled]
  cases found : place.children.find? fun child => child.entry.name.map Name.body == some key with
  | none =>
      rw [List.find?_eq_none] at found
      rw [List.findIdx?_eq_none_iff.2 fun child member => by simpa using found child member]
  | some child =>
      obtain ⟨same, i, inside, rfl, before⟩ := List.find?_eq_some_iff_getElem.1 found
      rw [List.findIdx?_eq_some_iff_getElem.2 ⟨inside, same, fun j less => by
        simpa using before j less⟩]
      simp only [List.getElem?_eq_getElem inside]

theorem outcome_readObjectField (wf : Wf forest s) (here : s.proxy? t = some q)
    (ok : ProxyOk forest s.tables.length t q place) (object : q.kind = .obj)
    (unordered : q.order = none) (key : Bytes) :
    Action.Outcome (readObjectField env t q key) s
      (fun v s' => Found env s' t q.doc s.tables.length (q.source place.children key) v)
      (Missed env (q.source place.children key)) := by
  have isObject := ok.kind.trans (congrArg some object)
  rw [readObjectField, unordered, Proxy.source]
  cases cached : q.childCache.lookup key with
  | some v => exact rfl
  | none =>
      have replies := @replies_field F forest q.doc place key
      rw [pickNode_key isObject] at replies
      rw [ok.cursor]
      cases first : firstSpelled place.children key with
      | none =>
          rw [first] at replies
          have call : Action.Wp (access q.doc (some (.type .obj)) fun document cache =>
              qjsonCursorField document cache place.cursor key) s
              (fun reply _ => reply = none) fun _ => False :=
            wf.library.wp_access ok.at_ replies fun _ _ _ => rfl
          refine Action.Outcome.bind (call.outcome call.throws) ?_
          rintro _ s' rfl
          exact rfl
      | some child =>
          rw [first] at replies
          obtain ⟨i, at_⟩ := List.getElem?_of_mem (mem_of_firstSpelled first)
          have call : Action.Wp (access q.doc (some (.type .obj)) fun document cache =>
              qjsonCursorField document cache place.cursor key) s
              (fun reply s' => reply = some (.cursor child.cursor) ∧ Quiet s s' ∧ Wf forest s')
              fun _ => False :=
            wf.library.wp_access ok.at_ replies fun s' quiet library =>
              ⟨rfl, quiet, wf.quiet quiet library⟩
          refine Action.Outcome.bind (call.outcome call.throws) ?_
          rintro _ s₁ ⟨rfl, quiet, wf₁⟩
          have inside : t < s₁.tables.length := by
            rw [quiet.tables]
            exact lt_of_proxy? here
          refine (outcome_decodeChild wf₁ (ok.child at_) inside).bind ?_
          rintro v s₂ ⟨opened, yields, new⟩
          rw [quiet.tables] at new
          split
          · exact ⟨yields.update opened.wf _, new⟩
          · exact ⟨yields, new⟩

theorem index_field (here : s.proxy? t = some q) (object : q.kind = .obj)
    (other : key ∉ rawFields) :
    index env t (some (.str key)) s = readObjectField env t q key s := by
  have missing : (toKey env (some (.str key))).bind (rawget env t q) = none := by
    simp only [rawFields, List.map_cons, List.map_nil, List.mem_cons, List.not_mem_nil, or_false,
      not_or] at other
    simp only [toKey, Option.bind_some, rawget, other, if_false]
  rw [index, Action.get_bind, proxy?_eq_some.1 here]
  simp only [missing, object]

end Reads

end QJson.Table

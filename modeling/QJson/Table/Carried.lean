import QJson.Table.Spelling

/-!
# Spellings that outlive a change of the heap

A change that keeps the plain tables, and the proxies up to what they have cached, keeps every
spelling: where a child was decoded meanwhile for a node of the source, the child is spelled
as the node was.
-/

namespace QJson.Table

open Relation Rfc8259 Validate Doc Decode Ffi Lua

section Lists

variable {α β : Type} {R : β → β → Prop} {f g : α → Option β}

/-- What is kept of a list is related when it is related element by element. -/
theorem forall₂_filterMap {list : List α} (each : ∀ x ∈ list, Option.Rel R (f x) (g x)) :
    List.Forall₂ R (list.filterMap f) (list.filterMap g) := by
  induction list with
  | nil => exact .nil
  | cons x list ih =>
      have rest := ih fun y member => each y (List.mem_cons_of_mem x member)
      have head := each x List.mem_cons_self
      cases left : f x with
      | none =>
          cases right : g x with
          | none => rwa [List.filterMap_cons_none left, List.filterMap_cons_none right]
          | some y =>
              rw [left, right] at head
              cases head
      | some y =>
          cases right : g x with
          | none =>
              rw [left, right] at head
              cases head
          | some z =>
              rw [left, right] at head
              rw [List.filterMap_cons_some left, List.filterMap_cons_some right]
              cases head with
              | some related => exact .cons related rest

end Lists

section Statements

variable {F : Type} [DecidableEq F] (env : Env F) (forest : Forest) (s : State F)
  (forest' : Forest) (s' : State F)

/-- A part behind a change: the same one, or the child that was decoded for a node. -/
inductive Becomes : Part F → Part F → Prop where
  | same (part : Part F) : Becomes part part
  | opened {view d : Nat} {place : Place} {v : Option (Value F)} :
      At forest' d place → Yields env s' view d place v →
      Becomes (.node place.node) (.value v)

/-- A part with its key, behind a change. -/
def Replaces (part part' : Option Bytes × Part F) : Prop :=
  part'.1 = part.1 ∧ Becomes env forest' s' part.2 part'.2

/-- Every part has an equal or a decoded one in its place. -/
def ReplacesAll (parts parts' : List (Option Bytes × Part F)) : Prop :=
  List.Forall₂ (Replaces env forest' s') parts parts'

/-- What is copied is copied behind a change, and what is laid out is laid out. -/
structure Carrying : Prop where
  settings : s'.settings = s.settings
  sourced : ∀ r tree, Sourced env forest s r tree → Sourced env forest' s' r tree
  laid : ∀ r kind parts, Laid env forest s r kind parts →
    ∃ parts', Laid env forest' s' r kind parts' ∧ ReplacesAll env forest' s' parts parts'

/-- A change that keeps the plain tables, and the proxies up to what they have cached. -/
structure Frames : Prop where
  settings : s'.settings = s.settings
  origins : s'.origins = s.origins
  at_ : ∀ d place, At forest d place → At forest' d place
  plain : ∀ (r : Nat) (p : Plain F), s.plain? r = some p → s'.plain? r = some p
  proxy : ∀ (r : Nat) (q : Proxy F), s.proxy? r = some q → ∃ q', s'.proxy? r = some q' ∧
    q'.dirty = q.dirty ∧ q'.kind = q.kind ∧ q'.doc = q.doc ∧ q'.cur = q.cur ∧
      ∀ o, q.order = some o → q'.order = some o

end Statements

section Carrying

variable {F : Type} [DecidableEq F] {env : Env F} {forest forest' : Forest} {s s' : State F}
  {part part' : Part F} {tree : Tree} {v : Option (Value F)}

theorem ReplacesAll.refl (parts : List (Option Bytes × Part F)) :
    ReplacesAll env forest' s' parts parts := by
  rw [ReplacesAll, List.forall₂_same]
  intro part _
  exact ⟨rfl, .same _⟩

theorem replaces_refl (option : Option (Option Bytes × Part F)) :
    Option.Rel (Replaces env forest' s') option option := by
  cases option with
  | none => exact .none
  | some part => exact .some ⟨rfl, .same _⟩

theorem ReplacesAll.names {parts parts' : List (Option Bytes × Part F)}
    (replaces : ReplacesAll env forest' s' parts parts') :
    parts.map (fun part => nameOf part.1) = parts'.map fun part => nameOf part.1 := by
  induction replaces with
  | nil => rfl
  | cons head _ ih => rw [List.map_cons, List.map_cons, ih, head.1]

theorem leafTree_congr (settings : s'.settings = s.settings) (v : Option (Value F)) :
    leafTree env s' v = leafTree env s v := by
  unfold leafTree
  rw [settings]

/-- A part is spelled behind the change as in front of it. -/
theorem Carrying.spells (carrying : Carrying env forest s forest' s')
    (spells : Spells env forest s part tree) (becomes : Becomes env forest' s' part part') :
    Spells env forest' s' part' tree := by
  induction spells generalizing part' with
  | leaf isLeaf =>
      cases becomes
      exact .leaf ((leafTree_congr carrying.settings _).trans isLeaf)
  | copied copied =>
      cases becomes
      exact .copied (carrying.sourced _ _ copied)
  | table laid names _ ih =>
      cases becomes
      obtain ⟨parts', laid', replaces⟩ := carrying.laid _ _ _ laid
      apply Spells.table laid' (names.trans replaces.names)
      · intro i part' pair left right
        obtain ⟨inside, rfl⟩ := List.getElem?_eq_some_iff.1 left
        have inside' := replaces.length_eq.symm ▸ inside
        exact ih i _ pair (List.getElem?_eq_getElem inside') right
          ((List.forall₂_iff_get.1 replaces).2 i inside' inside).2
  | container valid isKind =>
      cases becomes with
      | same => exact .container valid isKind
      | opened at_ yields =>
          obtain ⟨kind, isKind⟩ := Option.isSome_iff_exists.1 isKind
          rw [Yields, isKind] at yields
          obtain ⟨r, rfl, here⟩ := yields
          exact .copied (.clean here rfl at_ rfl valid)
  | reread valid isLeaf spelled =>
      have spelled' := (leafTree_congr carrying.settings _).trans spelled
      cases becomes with
      | same => exact .reread valid isLeaf spelled'
      | opened _ yields =>
          rw [Yields, isLeaf.kind?] at yields
          obtain ⟨w, rfl, isLeaf'⟩ := yields
          obtain rfl := isLeaf.unique isLeaf'
          exact .leaf spelled'
  | raw valid render =>
      cases becomes
      exact .raw valid render

end Carrying

/-! ## Frames -/

section Frames

variable {F : Type} [DecidableEq F] {env : Env F} {forest forest' : Forest} {s s' : State F}
  {record : Record F} {v : Value F} (frames : Frames forest s forest' s')
include frames

theorem Frames.elementCount (p : Plain F) : s'.elementCount env p = s.elementCount env p := by
  rw [State.elementCount, State.elementCount, frames.settings, frames.origins]

omit [DecidableEq F] in
theorem Frames.sourceOf (p : Plain F) : sourceOf s' p = sourceOf s p := by
  rw [Table.sourceOf, Table.sourceOf, frames.origins]

/-- A table that matched its record still does. -/
theorem Frames.matches (matches_ : Matches env s record v) : Matches env s' record v := by
  induction matches_ with
  | string value raw => exact .string value raw
  | object plain isOrigin record object complete single keys known _ ih =>
      exact .object (frames.plain _ _ plain) isOrigin (frames.origins ▸ record) object complete
        single keys known ih
  | array plain isOrigin record array complete length only both _ ih =>
      exact .array (frames.plain _ _ plain) isOrigin (frames.origins ▸ record) array complete
        length only both ih

omit [DecidableEq F] in
theorem Frames.plain_old {r : Nat} {p : Plain F} (old : r < s.tables.length)
    (here : s'.plain? r = some p) : s.plain? r = some p := by
  cases table : s.tables[r]? with
  | none => exact absurd (List.getElem?_eq_none_iff.1 table) (Nat.not_le.2 old)
  | some t =>
      cases t with
      | plain p' =>
          have before := plain?_eq_some.2 table
          obtain rfl := Option.some.inj ((frames.plain r p' before).symm.trans here)
          exact before
      | proxy q =>
          obtain ⟨q', here', -⟩ := frames.proxy r q (proxy?_eq_some.2 table)
          exact (proxy_ne_plain here' here).elim

/-- A table that did not match its record still does not. -/
theorem Frames.matches_old (wf : Wf forest s) (matches_ : Matches env s' record v)
    (below : v.Below s.tables.length) : Matches env s record v := by
  induction matches_ with
  | string value raw => exact .string value raw
  | object plain isOrigin record object complete single keys known _ ih =>
      have before := frames.plain_old below plain
      refine .object before isOrigin (frames.origins ▸ record) object complete single keys known ?_
      intro k v record here isRecord
      exact ih k v record here isRecord (wf.plain before k v here).2
  | array plain isOrigin record array complete length only both _ ih =>
      have before := frames.plain_old below plain
      refine .array before isOrigin (frames.origins ▸ record) array complete length only both ?_
      intro i inside v record here isRecord
      exact ih i inside v record here isRecord (wf.plain before _ v here).2

theorem Frames.sourced {r : Nat} {tree : Tree} (copied : Sourced env forest s r tree) :
    Sourced env forest' s' r tree := by
  cases copied with
  | clean here clean at_ cursor valid =>
      obtain ⟨q', here', dirty, -, doc, cur, -⟩ := frames.proxy _ _ here
      exact .clean here' (dirty.trans clean) (doc ▸ frames.at_ _ _ at_) (cur.trans cursor) valid
  | matched matches_ record valid render =>
      exact .matched (frames.matches matches_) (frames.origins ▸ record) valid render

/-- What is left to show of a frame: the children of written proxies. -/
theorem Frames.carrying (wf : Wf forest s)
    (members : ∀ (r : Nat) (q : Proxy F) (place : Place), s.proxy? r = some q →
      q.dirty = true → q.kind = .obj → q.order = none → At forest q.doc place →
      q.cur = place.cursor → ∃ parts', Laid env forest' s' r .obj parts' ∧
        ReplacesAll env forest' s' ((firstKeys (place.children.map keyText)).filterMap
          (memberPart q place.children)) parts')
    (elements : ∀ (r : Nat) (q q' : Proxy F) (place : Place), s.proxy? r = some q →
      s'.proxy? r = some q' → q.dirty = true → q.kind = .arr → At forest q.doc place →
      q.cur = place.cursor → ∀ i, Option.Rel (Replaces env forest' s')
        (elementPart q place.children i) (elementPart q' place.children i)) :
    Carrying env forest s forest' s' where
  settings := frames.settings
  sourced _ _ := frames.sourced
  laid r kind parts laid := by
    have unmatched {p : Plain F} (plain : s.plain? r = some p)
        (apart : ∀ o, ¬ Matches env s (.table o) (.table r)) (o : Nat) :
        ¬ Matches env s' (.table o) (.table r) := by
      intro matches_
      have inside := (List.getElem?_eq_some_iff.1 (plain?_eq_some.1 plain)).1
      exact apart o (frames.matches_old wf matches_ inside)
    cases laid with
    | ordered here dirty object isOrder =>
        obtain ⟨q', here', dirty', kind', -, -, order⟩ := frames.proxy _ _ here
        exact ⟨_, .ordered here' (dirty'.trans dirty) (kind'.trans object) (order _ isOrder),
          .refl _⟩
    | members here dirty object unordered at_ cursor =>
        exact members r _ _ here dirty object unordered at_ cursor
    | elements here dirty array at_ cursor =>
        obtain ⟨q', here', dirty', kind', doc, cur, -⟩ := frames.proxy _ _ here
        refine ⟨_, .elements here' (dirty'.trans dirty) (kind'.trans array)
          (doc ▸ frames.at_ _ _ at_) (cur.trans cursor), ?_⟩
        apply forall₂_filterMap
        intro i _
        exact elements r _ q' _ here here' dirty array at_ cursor i
    | array plain apart count =>
        exact ⟨_, .array (frames.plain _ _ plain) (unmatched plain apart)
          ((frames.elementCount _).trans count), .refl _⟩
    | object plain apart all =>
        refine ⟨_, .object (frames.plain _ _ plain) (unmatched plain apart)
          ((frames.elementCount _).trans all), ?_⟩
        rw [frames.sourceOf]
        exact .refl _

end Frames

/-! ## Changes -/

section Changes

variable {F : Type} [DecidableEq F] {env : Env F} {forest : Forest} {s s' : State F} {t : Nat}

/-- Materialization and encoding: children are opened, and order states are built. -/
theorem Grown.carrying (grown : Grown env forest s s') (wf : Wf forest s)
    (settings : s'.settings = s.settings) (origins : s'.origins = s.origins) :
    Carrying env forest s forest s' := by
  have frames : Frames forest s forest s' :=
    { settings := settings
      origins := origins
      at_ := fun _ _ => id
      plain := grown.plain
      proxy := by
        intro r q here
        rcases grown.proxy r q here with same | ⟨-, unordered, -, o, place, -, -, -, -, same⟩
        · exact ⟨q, same, rfl, rfl, rfl, rfl, fun _ => id⟩
        · refine ⟨_, same, rfl, rfl, rfl, rfl, fun _ clash => ?_⟩
          rw [unordered] at clash
          cases clash }
  apply frames.carrying wf
  · intro r q place here dirty object unordered at_ cursor
    rcases grown.proxy r q here with same | ⟨-, -, -, o, place', at_', cursor', -, isOrder, same⟩
    · exact ⟨_, .members same dirty object unordered at_ cursor, .refl _⟩
    · obtain rfl := at_.unique at_' (cursor.symm.trans cursor')
      refine ⟨_, .ordered same dirty object rfl, ?_⟩
      rw [← isOrder.keys]
      apply forall₂_filterMap
      intro k member
      have value := isOrder.values k member
      rw [memberPart]
      cases cached : cachedOnce q (place.children.map keyText) k with
      | some c =>
          rw [cached] at value
          rw [value]
          exact .some ⟨rfl, .same _⟩
      | none =>
          rw [cached] at value
          obtain ⟨child, last, yields⟩ := value
          obtain ⟨w, isValue⟩ := yields.isSome
          obtain ⟨i, inside⟩ := List.getElem?_of_mem (mem_of_lastUnder last).1
          rw [isValue] at yields
          rw [last, isValue]
          exact .some ⟨rfl, .opened (at_.child inside) yields⟩
  · intro r q q' place here here' _ array _ _ i
    have same := grown.same here (.inl array)
    obtain rfl := Option.some.inj (same.symm.trans here')
    exact replaces_refl _

/-- A change of one proxy that leaves its source, its dirty flag and its order state alone. -/
theorem carrying_updateProxy {change : Proxy F → Proxy F} (wf : Wf forest s)
    (kept : ∀ q, (change q).dirty = q.dirty ∧ (change q).kind = q.kind ∧
      (change q).doc = q.doc ∧ (change q).cur = q.cur ∧ (change q).order = q.order)
    (members : ∀ q place, s.proxy? t = some q → q.dirty = true → q.kind = .obj →
      q.order = none → At forest q.doc place → q.cur = place.cursor →
      ∀ k, Option.Rel (Replaces env forest (s.updateProxy t change))
        (memberPart q place.children k) (memberPart (change q) place.children k))
    (elements : ∀ q place, s.proxy? t = some q → q.dirty = true → q.kind = .arr →
      At forest q.doc place → q.cur = place.cursor →
      ∀ i, Option.Rel (Replaces env forest (s.updateProxy t change))
        (elementPart q place.children i) (elementPart (change q) place.children i)) :
    Carrying env forest s forest (s.updateProxy t change) := by
  have proxy (r : Nat) (q : Proxy F) (here : s.proxy? r = some q) :
      (s.updateProxy t change).proxy? r = some (if t = r then change q else q) := by
    apply proxy?_eq_some.2
    rw [getElem?_updateProxy]
    by_cases itself : t = r
    · rw [if_pos itself]
      exact .inl ⟨q, itself, proxy?_eq_some.1 here, rfl⟩
    · rw [if_neg itself]
      exact .inr ⟨proxy?_eq_some.1 here, fun same => absurd same itself⟩
  have frames : Frames forest s forest (s.updateProxy t change) :=
    { settings := rfl
      origins := rfl
      at_ := fun _ _ => id
      plain := by
        intro r p here
        apply plain?_eq_some.2
        rw [getElem?_updateProxy]
        exact .inr ⟨plain?_eq_some.1 here, fun _ => ⟨p, rfl⟩⟩
      proxy := by
        intro r q here
        refine ⟨_, proxy r q here, ?_⟩
        split
        · obtain ⟨dirty, kind, doc, cur, order⟩ := kept q
          exact ⟨dirty, kind, doc, cur, fun o isOrder => order.trans isOrder⟩
        · exact ⟨rfl, rfl, rfl, rfl, fun _ => id⟩ }
  apply frames.carrying wf
  · intro r q place here dirty object unordered at_ cursor
    have here' := proxy r q here
    by_cases itself : t = r
    · subst itself
      rw [if_pos rfl] at here'
      obtain ⟨dirty', kind', doc', cur', order'⟩ := kept q
      refine ⟨_, .members here' (dirty'.trans dirty) (kind'.trans object)
        (order'.trans unordered) (doc' ▸ at_) (cur'.trans cursor), ?_⟩
      apply forall₂_filterMap
      intro k _
      exact members q place here dirty object unordered at_ cursor k
    · rw [if_neg itself] at here'
      exact ⟨_, .members here' dirty object unordered at_ cursor, .refl _⟩
  · intro r q q' place here here' dirty array at_ cursor i
    obtain rfl := Option.some.inj ((proxy r q here).symm.trans here')
    by_cases itself : t = r
    · subst itself
      rw [if_pos rfl]
      exact elements q place here dirty array at_ cursor i
    · rw [if_neg itself]
      exact replaces_refl _

end Changes

end QJson.Table

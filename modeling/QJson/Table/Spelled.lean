import QJson.Table.Circular
import QJson.Table.Matched

/-!
# The encoder writes what is spelled

`qjson.encode` opens children, builds order states and asks the matcher on its way; the text
that it returns is that of the tree by which the value is spelled on the heap in front of the
call.  The tree is deeper than what it copies by at most the depth that is left.
-/

namespace QJson.Table

open Rfc8259 Validate Doc Decode Ffi Lua

section Statements

variable {F : Type} [DecidableEq F] (env : Env F) (forest : Forest) (base s : State F)

/-- A value that the encoder goes into: it was there, or it is a node that was just decoded. -/
inductive Serves : Option (Value F) → Part F → Prop where
  | value {v : Option (Value F)} : Held base.tables.length v → Serves v (.value v)
  | node {view d : Nat} {place : Place} {v : Option (Value F)} :
      At forest d place → Yields env s view d place v → Serves v (.node place.node)

/-- The tree of a part.  It is deeper than what it copies by at most the bound. -/
structure SpelledIn (bound : Nat) (part : Part F) (tree : Tree) : Prop where
  spells : Spells env forest base part tree
  depth : ∀ d, CopiesWithin env forest base d part → tree.depth ≤ bound + d

/-- An encoding that returns the text of a part. -/
def Prints (bound : Nat) (part : Part F) (encoding : Act F Bytes) : Prop :=
  Action.Wp encoding s
    (fun text s' => Steady env forest s s' ∧
      ∃ tree, SpelledIn env forest base bound part tree ∧ tree.render = text)
    (Steady env forest s)

/-- A function that encodes children. -/
def PrintsAll (bound : Nat) (recur : Option (Value F) → Act F Bytes) : Prop :=
  ∀ s v part, Steady env forest base s → Serves env forest base s v part →
    Prints env forest base s bound part (recur v)

/-- A function that encodes children where some depth is left. -/
def PrintsBelow (room : Nat) (recur : Option (Value F) → Act F Bytes) : Prop :=
  ∀ n, room = n + 1 → PrintsAll env forest base n recur

/-- A part and what is written of it. -/
structure Couple (bound : Nat) (part : Option Bytes × Part F) (pair : Option Name × Tree) :
    Prop where
  name : pair.1 = nameOf part.1
  spelled : SpelledIn env forest base bound part.2 pair.2

/-- What one round of a loop adds: a part, or nothing. -/
def Appends (bound : Nat) (part : Option (Option Bytes × Part F)) (texts texts' : List Bytes) :
    Prop :=
  match part with
  | none => texts' = texts
  | some part =>
      ∃ pair, Couple env forest base bound part pair ∧ texts' = texts ++ [entryText pair]

/-- The texts of some parts. -/
def Lists (bound : Nat) (parts : List (Option Bytes × Part F)) (texts texts' : List Bytes) :
    Prop :=
  ∃ pairs, List.Forall₂ (Couple env forest base bound) parts pairs ∧
    texts' = texts ++ pairs.map entryText

end Statements

section Rules

variable {F : Type} [DecidableEq F] {env : Env F} {forest : Forest} {base s : State F}
  {t room bound n : Nat} {p : Plain F} {v : Option (Value F)} {part : Part F}
  {recur : Option (Value F) → Act F Bytes}

theorem prints_guarded {walk : Act F Bytes} (wf : Wf forest s)
    (prints : ∀ n, room = n + 1 → Prints env forest base s (n + 1) part walk) :
    Prints env forest base s room part (guarded room walk) := by
  cases room with
  | zero => exact Steady.refl wf
  | succ n => exact prints n rfl

theorem prints_pure (wf : Wf forest s) {tree : Tree}
    (spelled : SpelledIn env forest base bound part tree) {text : Bytes}
    (render : tree.render = text) : Prints env forest base s bound part (pure text) :=
  ⟨.refl wf, tree, spelled, render⟩

/-- A copy is as deep as it is. -/
theorem spelledIn_of_copies {tree : Tree} (spells : Spells env forest base part tree)
    (copies : Copies env forest base part tree) (bound : Nat) :
    SpelledIn env forest base bound part tree :=
  ⟨spells, fun _ within => (within part tree .refl copies).trans (Nat.le_add_left _ _)⟩

theorem spelledIn_of_flat {tree : Tree} (spells : Spells env forest base part tree)
    (flat : tree.depth = 0) (bound : Nat) : SpelledIn env forest base bound part tree :=
  ⟨spells, fun _ _ => flat ▸ Nat.zero_le _⟩

theorem entryText_member {pair : Option Name × Tree} {key : Bytes}
    (name : pair.1 = nameOf (some key)) : entryText pair = member key pair.2.render := by
  rw [entryText, name]
  simp [nameOf, nameText, Name.render, member, encodeString]

theorem entryText_element {pair : Option Name × Tree} (name : pair.1 = nameOf none) :
    entryText pair = pair.2.render := by
  rw [entryText, name]
  rfl

theorem Prints.member {encoding : Act F Bytes}
    (prints : Prints env forest base s bound part encoding) (key : Bytes) (texts : List Bytes) :
    Action.Wp (encoding >>= fun text => pure (texts ++ [Table.member key text])) s
      (fun texts' s' => Steady env forest s s' ∧
        Appends env forest base bound (some (some key, part)) texts texts')
      (Steady env forest s) := by
  rw [Action.wp_bind]
  refine Action.Wp.mono prints ?_ fun _ => id
  rintro _ s' ⟨kept, tree, spelled, rfl⟩
  exact ⟨kept, (nameOf (some key), tree), ⟨rfl, spelled⟩, by rw [entryText_member rfl]⟩

theorem Prints.element {encoding : Act F Bytes}
    (prints : Prints env forest base s bound part encoding) (texts : List Bytes) :
    Action.Wp (encoding >>= fun text => pure (texts ++ [text])) s
      (fun texts' s' => Steady env forest s s' ∧
        Appends env forest base bound (some (none, part)) texts texts')
      (Steady env forest s) := by
  rw [Action.wp_bind]
  refine Action.Wp.mono prints ?_ fun _ => id
  rintro _ s' ⟨kept, tree, spelled, rfl⟩
  exact ⟨kept, (nameOf none, tree), ⟨rfl, spelled⟩, by rw [entryText_element rfl]⟩

theorem wp_parts {α : Type} {list : List α} (base : State F) (bound : Nat)
    (partOf : α → Option (Option Bytes × Part F)) {body : List Bytes → α → Act F (List Bytes)}
    (wf : Wf forest s)
    (step : ∀ x ∈ list, ∀ texts s', Steady env forest s s' →
      Action.Wp (body texts x) s'
        (fun texts' s'' => Steady env forest s' s'' ∧
          Appends env forest base bound (partOf x) texts texts')
        (Steady env forest s'))
    (texts : List Bytes) :
    Action.Wp (list.foldlM body texts) s
      (fun texts' s' => Steady env forest s s' ∧
        Lists env forest base bound (list.filterMap partOf) texts texts')
      (Steady env forest s) := by
  refine Action.wp_foldlM (fun done texts' s' => Steady env forest s s' ∧
    Lists env forest base bound (done.filterMap partOf) texts texts') ?_
      ⟨.refl wf, [], .nil, (List.append_nil _).symm⟩
  rintro done x _ s' member ⟨kept, pairs, couples, rfl⟩
  refine (step x member _ s' kept).mono ?_ fun _ => kept.trans
  rintro texts' s'' ⟨kept', appends⟩
  refine ⟨kept.trans kept', ?_⟩
  rw [List.filterMap_append]
  cases isPart : partOf x with
  | none =>
      rw [isPart] at appends
      obtain rfl := appends
      rw [List.filterMap_cons_none isPart, List.filterMap_nil, List.append_nil]
      exact ⟨pairs, couples, rfl⟩
  | some part =>
      rw [isPart] at appends
      obtain ⟨pair, couple, rfl⟩ := appends
      rw [List.filterMap_cons_some isPart, List.filterMap_nil]
      refine ⟨pairs ++ [pair], List.rel_append couples (.cons couple .nil), ?_⟩
      rw [List.map_append, List.append_assoc]
      rfl

theorem spelledIn_of_lists {kind : Kind} {parts : List (Option Bytes × Part F)}
    {texts : List Bytes} (laid : Laid env forest base t kind parts)
    (lists : Lists env forest base bound parts [] texts) :
    ∃ tree, SpelledIn env forest base (bound + 1) (.value (some (.table t))) tree ∧
      tree.render = bracketed kind texts := by
  obtain ⟨pairs, couples, rfl⟩ := lists
  have couple (i : Nat) (part : Option Bytes × Part F) (pair : Option Name × Tree)
      (left : parts[i]? = some part) (right : pairs[i]? = some pair) :
      Couple env forest base bound part pair := by
    obtain ⟨inside, rfl⟩ := List.getElem?_eq_some_iff.1 left
    obtain ⟨inside', rfl⟩ := List.getElem?_eq_some_iff.1 right
    exact (List.forall₂_iff_get.1 couples).2 i inside inside'
  have length := couples.length_eq
  refine ⟨Tree.ofList kind pairs, ⟨.table laid ?_ fun i part pair left right =>
    (couple i part pair left right).spelled.spells, fun d within => ?_⟩, ?_⟩
  · clear laid couple length
    induction couples with
    | nil => rfl
    | cons couple _ ih => rw [List.map_cons, List.map_cons, ih, couple.name]
  · -- The deepest entry comes from a part of the table.
    rcases Tree.le_depth_ofList.1 (Nat.le_refl (Tree.ofList kind pairs).depth) with
      flat | ⟨pair, member, deep⟩
    · omega
    · obtain ⟨i, right⟩ := List.getElem?_of_mem member
      have inside := (List.getElem?_eq_some_iff.1 right).1
      have left := List.getElem?_eq_getElem (length.symm ▸ inside : i < parts.length)
      have below := (couple i _ pair left right).spelled.depth d fun inner tree path =>
        within inner tree (.head ⟨t, kind, parts, _, rfl, laid, List.mem_of_getElem? left⟩ path)
      omega
  · rw [Tree.render_ofList, List.nil_append, bracketed]

/-! ## Plain tables -/

section Plain

variable (wf : Wf forest base) (steady : Steady env forest base s)
  (plain : base.plain? t = some p)
include wf steady plain

section Entries

variable (prints : PrintsAll env forest base bound recur)
include prints

theorem prints_entry (k : Key F) :
    Prints env forest base s bound (.value (p.entries.lookup k)) (recur (p.entries.lookup k)) :=
  prints s _ _ steady (.value fun v here => (wf.plain plain k v here).2)

theorem wp_encodeMembers {entries : List (Key F × Value F)}
    (inside : ∀ e ∈ entries, p.entries.lookup e.1 = some e.2) (texts : List Bytes) :
    Action.Wp (encodeMembers env recur entries texts) s
      (fun texts' s' => Steady env forest s s' ∧
        Lists env forest base bound (entries.filterMap (entryPart env)) texts texts')
      (Steady env forest s) := by
  refine wp_parts base bound (entryPart env) steady.kept.wf (fun e member texts s' kept => ?_) texts
  have entry := prints_entry wf (steady.trans kept) plain prints e.1
  rw [inside e member] at entry
  rw [entryPart, Action.wp_bind]
  cases keyed : keyString env e.1 with
  | error error => exact Steady.refl kept.kept.wf
  | ok key => exact entry.member key texts

theorem prints_encodeOriginChild {k : Key F} {v : Value F} (here : p.entries.lookup k = some v)
    {record : Option (Record F)}
    (slices : ∀ value raw, record = some (.string value raw) → IsValueText raw) :
    Prints env forest base s bound (childPart v record) (encodeOriginChild recur v record) := by
  have entry := prints_entry wf steady plain prints k
  rw [here] at entry
  match record with
  | none | some (.table _) => exact entry
  | some (.string value raw) =>
      rw [encodeOriginChild, childPart]
      split
      · obtain ⟨tree, valid, -, render⟩ := slices value raw rfl
        exact prints_pure steady.kept.wf
          (spelledIn_of_copies (.raw valid render) (.raw valid render) _) render
      · exact entry

end Entries

section Unmatched

variable (below : PrintsBelow env forest base room recur)
  (unmatched : ∀ o, ¬ Matches env base (.table o) (.table t))
include below unmatched

theorem prints_encodeArray {n : Nat} (count : base.elementCount env p = some n) :
    Prints env forest base s room (.value (some (.table t))) (encodeArray room recur p n) := by
  refine prints_guarded steady.kept.wf fun left isRoom => ?_
  rw [Prints, Action.wp_bind]
  refine (wp_parts base left (fun i => some (none, .value (p.entries.lookup (.idx (i + 1)))))
    steady.kept.wf (fun i _ texts s' kept => Prints.element (prints_entry wf (steady.trans kept)
      plain (below left isRoom) _) texts) []).mono ?_ fun _ => id
  rintro texts s' ⟨kept, lists⟩
  split
  · exact kept
  · rename_i reached
    rw [Nat.min_eq_left (Nat.lt_of_not_le reached).le] at lists
    exact ⟨kept, spelledIn_of_lists (.array plain unmatched count) lists⟩

theorem prints_encodeObject (all : base.elementCount env p = none)
    (unsourced : (sourceOf base p).1 = []) :
    Prints env forest base s room (.value (some (.table t)))
      (encodeObject env room recur p) := by
  refine prints_guarded steady.kept.wf fun left isRoom => ?_
  rw [Prints, Action.wp_bind]
  refine (wp_encodeMembers wf steady plain (below left isRoom) (fun e => mem_order.1) []).mono
    ?_ fun _ => id
  rintro texts s' ⟨kept, lists⟩
  refine ⟨kept, spelledIn_of_lists (.object plain unmatched all) ?_⟩
  rw [unsourced, filter_isOther_nil]
  exact lists

theorem prints_classified
    (count : base.elementCount env p =
      (classifyPlainTable env base.settings p).toOption.join)
    (unsourced : (sourceOf base p).1 = []) :
    Prints env forest base s room (.value (some (.table t))) (do
      match ← lift (classifyPlainTable env s.settings p) with
      | some max => encodeArray room recur p max
      | none => encodeObject env room recur p) := by
  rw [steady.settings]
  rcases classify_cases env base.settings p with ⟨max, class_, -⟩ | class_ | class_
  · rw [class_] at count ⊢
    exact prints_encodeArray wf steady plain below unmatched count
  · rw [class_] at count ⊢
    exact prints_encodeObject wf steady plain below unmatched count unsourced
  · rw [class_]
    exact Steady.refl steady.kept.wf

end Unmatched

section Origins

variable {active : List Nat} {o : Nat} {origin : Origin F} (recorded : Recorded env base)
  (isOrigin : p.origin = some o) (record : base.origins[o]? = some origin)

omit wf plain in
include recorded record in
/-- What `encode_object_with_origin` and its sibling for arrays return when a table matches. -/
theorem prints_matched (bound : Nat) (matches_ : Matches env base (.table o) (.table t)) :
    Prints env forest base s bound (.value (some (.table t)))
      (pure (originTableSlice origin)) := by
  obtain ⟨tree, valid, -, render⟩ := (recorded.2 origin (List.mem_of_getElem? record)).slice
  have copied : Sourced env forest base t tree := .matched matches_ record valid render
  exact prints_pure steady.kept.wf (spelledIn_of_copies (.copied copied) (.table copied) _) render

omit wf steady in
include isOrigin in
/-- Another record does not match. -/
theorem unmatched_of (not : ¬ Matches env base (.table o) (.table t)) (o' : Nat) :
    ¬ Matches env base (.table o') (.table t) := by
  intro matches_
  obtain ⟨p', plain', isOrigin'⟩ := matches_.plain
  obtain rfl := Option.some.inj (plain.symm.trans plain')
  obtain rfl := Option.some.inj (isOrigin.symm.trans isOrigin')
  exact not matches_

variable (below : PrintsBelow env forest base room recur)
include recorded isOrigin record below

theorem prints_encodeObjectWithOrigin (object : origin.kind = .obj) :
    Prints env forest base s room (.value (some (.table t)))
      (encodeObjectWithOrigin env room active recur p origin) := by
  have sourced : sourceOf base p = (origin.keys, origin.records) := by
    rw [sourceOf, isOrigin, Option.bind_some, record]
    simp only [object, if_true]
  have all : base.elementCount env p = none := by
    rw [State.elementCount, isOrigin, Option.bind_some, record]
    simp only [object]
  refine prints_guarded steady.kept.wf fun left isRoom => ?_
  rw [Prints, Action.wp_bind]
  refine (decides_fullyMatches wf steady plain isOrigin record room active).mono ?_ ?_
  · rintro b s' ⟨rfl, matched⟩
    cases b with
    | true =>
        exact prints_matched steady recorded record _ (matched.1 rfl)
    | false =>
        have unmatched := unmatched_of plain isOrigin
          fun matches_ => absurd (matched.2 matches_) (by simp)
        simp only [Bool.false_eq_true, if_false]
        rw [Action.wp_bind]
        refine (wp_parts base left (sourcePart p origin.records) steady.kept.wf
          (fun key _ texts s₁ kept => ?_) []).mono ?_ fun _ => id
        · rw [sourcePart]
          cases here : p.entries.lookup (.str key) with
          | none => exact ⟨.refl kept.kept.wf, rfl⟩
          | some v =>
              refine Prints.member (prints_encodeOriginChild wf (steady.trans kept) plain
                (below left isRoom) here fun value raw same => ?_) key texts
              exact (recorded.2 origin (List.mem_of_getElem? record)).raw _ value raw same
        · rintro texts s₁ ⟨kept, pairs, couples, rfl⟩
          rw [Action.wp_bind]
          refine (wp_encodeMembers wf (steady.trans kept) plain (below left isRoom) (fun e member =>
            mem_order.1 (List.mem_of_mem_filter member)) _).mono ?_ fun _ => kept.trans
          rintro texts s₂ ⟨kept', pairs', couples', rfl⟩
          refine ⟨kept.trans kept', spelledIn_of_lists (.object plain unmatched all) ?_⟩
          rw [sourced]
          refine ⟨pairs ++ pairs', List.rel_append couples couples', ?_⟩
          rw [List.map_append, List.append_assoc]
  · rintro s' rfl
    exact Steady.refl steady.kept.wf

theorem prints_encodeArrayWithOrigin (array : origin.kind = .arr) :
    Prints env forest base s room (.value (some (.table t)))
      (encodeArrayWithOrigin env room active recur p origin) := by
  have unsourced : (sourceOf base p).1 = [] := by
    rw [sourceOf, isOrigin, Option.bind_some, record]
    simp only [array, reduceCtorEq, if_false]
  have count : base.elementCount env p =
      (classifyPlainTable env base.settings p).toOption.join := by
    rw [State.elementCount, isOrigin, Option.bind_some, record]
    simp only [array]
  refine prints_guarded steady.kept.wf fun left isRoom => ?_
  subst isRoom
  rw [Prints, Action.wp_bind]
  refine (decides_fullyMatches wf steady plain isOrigin record _ active).mono ?_ ?_
  · rintro b s' ⟨rfl, matched⟩
    cases b with
    | true =>
        exact prints_matched steady recorded record _ (matched.1 rfl)
    | false =>
        have unmatched := unmatched_of plain isOrigin
          fun matches_ => absurd (matched.2 matches_) (by simp)
        exact prints_classified wf steady plain below unmatched count unsourced
  · rintro s' rfl
    exact Steady.refl steady.kept.wf

end Origins

theorem prints_encodePlainTable (recorded : Recorded env base)
    (below : PrintsBelow env forest base room recur) (active : List Nat) :
    Prints env forest base s room (.value (some (.table t)))
      (encodePlainTable env room active recur p) := by
  rw [Prints, encodePlainTable, Action.wp_bind, Action.wp_get, steady.origins]
  cases isOrigin : p.origin.bind fun o => base.origins[o]? with
  | some origin =>
      obtain ⟨o, here, record⟩ := Option.bind_eq_some_iff.1 isOrigin
      cases kind : origin.kind with
      | obj =>
          simp only [kind]
          exact prints_encodeObjectWithOrigin wf steady plain recorded here record below kind
      | arr =>
          simp only [kind]
          exact prints_encodeArrayWithOrigin wf steady plain recorded here record below kind
  | none =>
      have unmatched (o : Nat) : ¬ Matches env base (.table o) (.table t) := by
        intro matches_
        cases matches_ with
        | object plain' here record =>
            obtain rfl := Option.some.inj (plain.symm.trans plain')
            rw [here, Option.bind_some, record] at isOrigin
            cases isOrigin
        | array plain' here record =>
            obtain rfl := Option.some.inj (plain.symm.trans plain')
            rw [here, Option.bind_some, record] at isOrigin
            cases isOrigin
      have unsourced : (sourceOf base p).1 = [] := by
        rw [sourceOf, isOrigin]
      by_cases emptyArray : p.emptyArray
      · simp only [emptyArray, if_true]
        refine prints_encodeArray wf steady plain below unmatched ?_
        simp only [State.elementCount, isOrigin, emptyArray, if_true]
      · have notEmpty : p.emptyArray = false := by simpa using emptyArray
        simp only [emptyArray]
        cases hint : p.hint with
        | some kind =>
            cases kind with
            | obj =>
                refine prints_encodeObject wf steady plain below unmatched ?_ unsourced
                simp only [State.elementCount, isOrigin, notEmpty, hint, Bool.false_eq_true,
                  if_false]
            | arr =>
                refine prints_encodeArray wf steady plain below unmatched ?_
                simp only [State.elementCount, isOrigin, notEmpty, hint, Bool.false_eq_true,
                  if_false]
        | none =>
            refine prints_classified wf steady plain below unmatched ?_ unsourced
            simp only [State.elementCount, isOrigin, notEmpty, hint, Bool.false_eq_true, if_false]

end Plain

/-! ## Proxies -/

section Proxies

variable {q q₀ : Proxy F} {place : Place}

/-- A clean proxy is copied. -/
theorem prints_clean (ok : ProxyOk forest s.tables.length t q place) (wf : Wf forest s)
    (recorded : Recorded env s) (clean : q.dirty = false)
    (spelled : SpelledIn env forest base bound part place.node) :
    Prints env forest base s bound part (encodeProxy env room recur t q) := by
  obtain ⟨-, -, slice⟩ := recorded.slice wf.library ok.at_
  rw [encodeProxy, if_pos (by simp [clean])]
  refine prints_pure wf spelled ?_
  rw [ok.span.1, ok.span.2]
  exact slice.symm

theorem wp_ensureOrdered (wf : Wf forest s) (here : s.proxy? t = some q)
    (object : q.kind = .obj) (dirty : q.dirty = true) :
    Action.Wp (ensureObjectOrderState env t q) s
      (fun order s' => Steady env forest s s' ∧
        s'.proxy? t = some { q with order := some order })
      (Steady env forest s) := by
  obtain ⟨place, ok⟩ := wf.proxy here
  cases ordered : q.order with
  | some order =>
      rw [ensureObjectOrderState, ordered]
      exact ⟨.refl wf, by rw [here, ← ordered]⟩
  | none =>
      refine (wp_ensureObjectOrderState wf here ok object ordered).mono ?_
        fun _ failed => failed.1.steady
      rintro order _ ⟨s₁, opened, isOrder, rfl⟩
      have here₁ := opened.opens.proxy? here
      refine ⟨opened.steady.trans ⟨kept_ordered opened.wf here₁
        (ok.mono opened.opens.later.length_le) object ordered dirty isOrder, rfl, rfl⟩, ?_⟩
      exact proxy?_eq_some.2 ((getElem?_updateProxy _).2 (.inl ⟨q, rfl,
        proxy?_eq_some.1 here₁, rfl⟩))

theorem wp_lazyMembers (prints : PrintsAll env forest base bound recur)
    (steady : Steady env forest base s) {order : Order F}
    (partOf : Bytes → Option (Option Bytes × Part F))
    (serves : ∀ k ∈ order.keys, match order.values.lookup k with
      | none => partOf k = none
      | some v => ∃ part, partOf k = some (some k, part) ∧
          ∀ s', Steady env forest s s' → Serves env forest base s' (some v) part) :
    Action.Wp (order.keys.foldlM (fun parts k =>
        match order.values.lookup k with
        | none => pure parts
        | some v => do
            let text ← recur (some v)
            return parts ++ [member k text]) []) s
      (fun texts s' => Steady env forest s s' ∧
        Lists env forest base bound (order.keys.filterMap partOf) [] texts)
      (Steady env forest s) := by
  refine wp_parts base bound partOf steady.kept.wf (fun k member texts s' kept => ?_) []
  have served := serves k member
  cases entry : order.values.lookup k with
  | none =>
      rw [entry] at served
      rw [show partOf k = none from served]
      exact ⟨.refl kept.kept.wf, rfl⟩
  | some v =>
      rw [entry] at served
      obtain ⟨part, isPart, served⟩ := served
      rw [isPart]
      exact Prints.member (prints s' (some v) part (steady.trans kept) (served s' kept)) k texts

variable (below : PrintsBelow env forest base room recur) (wf : Wf forest base)
  (here₀ : base.proxy? t = some q₀) (steady : Steady env forest base s)
  (here : s.proxy? t = some q) (dirty : q.dirty = true)
include below wf here₀ steady here dirty

theorem prints_encodeLazyObjectWalking (object : q.kind = .obj) :
    Prints env forest base s room (.value (some (.table t)))
      (encodeLazyObjectWalking env room recur t q) := by
  refine prints_guarded steady.kept.wf fun left isRoom => ?_
  rw [Prints, Action.wp_bind]
  refine (wp_ensureOrdered steady.kept.wf here object dirty).mono ?_ fun _ => id
  rintro order s₁ ⟨kept, here₁⟩
  have steady₁ := steady.trans kept
  obtain ⟨place₀, ok₀⟩ := wf.proxy here₀
  rw [Action.wp_bind]
  rcases steady₁.kept.grown.proxy t q₀ here₀ with
    same | ⟨object₀, unordered, dirty₀, o, place, at_, cursor, -, isOrder, same⟩
  · -- The order state was there.
    obtain rfl := Option.some.inj (here₁.symm.trans same)
    refine (wp_lazyMembers (below left isRoom) steady₁
      (fun k => (order.values.lookup k).map fun v => (some k, .value (some v)))
      fun k _ => ?_).mono ?_ fun _ => kept.trans
    · cases entry : order.values.lookup k with
      | none => rfl
      | some v => exact ⟨_, rfl, fun s' _ => .value (held_some (ok₀.order order rfl k v entry))⟩
    · rintro texts s₂ ⟨kept₂, lists⟩
      exact ⟨kept.trans kept₂, spelledIn_of_lists (.ordered here₀ dirty object rfl) lists⟩
  · -- It was built from the source.
    obtain rfl : order = o := by
      have both := congrArg Proxy.order (Option.some.inj (here₁.symm.trans same))
      exact Option.some.inj both
    refine (wp_lazyMembers (below left isRoom) steady₁ (memberPart q₀ place.children)
      fun k member => ?_).mono ?_ fun _ => kept.trans
    · have value := isOrder.values k member
      rw [memberPart]
      cases cached : cachedOnce q₀ (place.children.map keyText) k with
      | some c =>
          rw [cached] at value
          rw [value]
          refine ⟨_, rfl, fun s' _ => .value (held_some ?_)⟩
          rw [cachedOnce] at cached
          split at cached
          · exact ok₀.childCache k c cached
          · cases cached
      | none =>
          rw [cached] at value
          obtain ⟨child, last, yields⟩ := value
          obtain ⟨w, isValue⟩ := yields.isSome
          rw [isValue, last]
          rw [isValue] at yields
          obtain ⟨i, here⟩ := List.getElem?_of_mem (mem_of_lastUnder last).1
          exact ⟨_, rfl, fun s' kept' => .node (at_.child here) (yields.grown kept'.kept.grown)⟩
    · rintro texts s₂ ⟨kept₂, lists⟩
      rw [isOrder.keys] at lists
      exact ⟨kept.trans kept₂, spelledIn_of_lists
        (.members here₀ dirty₀ object₀ unordered at_ cursor) lists⟩

theorem prints_encodeLazyArrayWalking (array : q.kind = .arr) :
    Prints env forest base s room (.value (some (.table t)))
      (encodeLazyArrayWalking env room recur t q) := by
  obtain ⟨place, ok⟩ := steady.kept.wf.proxy here
  have isArray := ok.kind.trans (congrArg some array)
  obtain rfl : q = q₀ := by
    obtain ⟨q₁, before, either⟩ := steady.kept.grown.proxy_old (lt_of_proxy? here₀) here
    obtain rfl := Option.some.inj (here₀.symm.trans before)
    rcases either with same | ⟨object, -, -, o, -, -, -, -, -, same⟩
    · exact same
    · rw [same] at array
      cases object.symm.trans array
  have count : place.node.children.length = place.children.length := by
    rw [← place.children_map_entry, List.length_map]
  refine prints_guarded steady.kept.wf fun left isRoom => ?_
  rw [Prints, Action.wp_bind, ok.cursor]
  refine wp_getter steady.kept.wf.library ok.at_ .len fun s₁ quiet library => ?_
  have kept : Steady env forest s s₁ := quiet.steady steady.kept.wf library
  have steady₁ := steady.trans kept
  rw [readNode, if_pos (by rw [isArray]; rfl), ← ok.cursor]
  change Action.Wp (List.foldlM _ [] (List.range place.node.children.length) >>=
    fun parts => pure (bracketed .arr parts)) s₁ _ _
  rw [count, Action.wp_bind]
  refine (wp_parts base left (elementPart q place.children) steady₁.kept.wf
    (fun i member texts s₂ kept₂ => ?_) []).mono ?_ fun _ => kept.trans
  · have less := List.mem_range.1 member
    have child := List.getElem?_eq_getElem less
    have here₂ := (kept.trans kept₂).kept.grown.same here (.inl array)
    rw [Action.wp_bind]
    refine (wp_elementAt kept₂.kept.wf.library ok.at_ ok.cursor isArray less.le).mono ?_
      fun _ => False.elim
    rintro reply s₃ ⟨⟨quiet₃, library₃⟩, rfl⟩
    have kept₃ : Steady env forest s₂ s₃ := quiet₃.steady kept₂.kept.wf library₃
    have here₃ := kept₃.kept.grown.same here₂ (.inl array)
    rw [child, elementPart, child]
    -- One element, once it is there.
    have rest {v : Option (Value F)} {part : Part F} {s₄ : State F}
        (kept₄ : Steady env forest s₂ s₄) (serves : Serves env forest base s₄ v part) :
        Action.Wp (recur v >>= fun text => pure (texts ++ [text])) s₄
          (fun texts' s' => Steady env forest s₂ s' ∧
            Appends env forest base left (some (none, part)) texts texts')
          (Steady env forest s₂) :=
      ((below left isRoom s₄ v part (steady₁.trans (kept₂.trans kept₄)) serves).element texts).mono
        (fun _ _ done => ⟨kept₄.trans done.1, done.2⟩) fun _ => kept₄.trans
    change Action.Wp (rawElem t (i + 1) >>= _) s₃ _ _
    rw [Action.wp_bind, rawElem, Action.wp_bind, Action.wp_get, Action.wp_pure, here₃,
      Option.bind_some]
    cases entry : q.elems.lookup (i + 1) with
    | some cached =>
        obtain ⟨place₀, ok₀⟩ := wf.proxy here₀
        exact rest kept₃ (.value (held_some (ok₀.elems _ cached entry).1))
    | none =>
        have at_ := ok.child child
        rw [Action.wp_bind]
        refine (wp_decodeChild kept₃.kept.wf at_ (lt_of_proxy? here₃)).mono ?_ ?_
        · rintro v s₄ ⟨opened, yields⟩
          exact rest (kept₃.trans opened.steady) (.node at_ yields)
        · exact fun s₄ failed => kept₃.trans failed.1.steady
  · rintro texts s₂ ⟨kept₂, lists⟩
    exact ⟨kept.trans kept₂,
      spelledIn_of_lists (.elements here₀ dirty array ok.at_ ok.cursor) lists⟩

theorem prints_written :
    Prints env forest base s room (.value (some (.table t))) (encodeProxy env room recur t q) := by
  rw [encodeProxy, if_neg (by simp [dirty])]
  cases kind : q.kind with
  | obj => exact prints_encodeLazyObjectWalking below wf here₀ steady here dirty kind
  | arr => exact prints_encodeLazyArrayWalking below wf here₀ steady here dirty kind

end Proxies

/-! ## Values -/

theorem prints_leaf {children : List Nat → Option (Value F) → Act F Bytes}
    (steady : Steady env forest base s) (noTable : ∀ r, v ≠ some (.table r)) (active : List Nat)
    (spells : ∀ tree, leafTree env base v = some tree → Spells env forest base part tree) :
    Prints env forest base s bound part (encodeValue env room children active v) := by
  have leaf {tree : Tree} (isLeaf : leafTree env base v = some tree) :
      SpelledIn env forest base bound part tree :=
    spelledIn_of_flat (spells tree isLeaf) (leafTree_depth isLeaf) bound
  have wf := steady.kept.wf
  match v with
  | none | some .null => exact prints_pure wf (leaf rfl) rfl
  | some (.str x) => exact prints_pure wf (leaf rfl) rfl
  | some (.bool b) => exact prints_pure wf (leaf rfl) rfl
  | some (.int64 n) => exact prints_pure wf (leaf rfl) rfl
  | some (.num x) =>
      rw [Prints, encodeValue, encodeNumber, Action.wp_bind, Action.wp_get, steady.settings]
      by_cases finite : env.numbers.isFinite x = true
      · have spelled := leaf (if_pos finite)
        rw [if_neg (not_not.2 finite)]
        split
        · rename_i integer
          rw [if_pos integer] at spelled
          exact prints_pure wf spelled rfl
        · rename_i fraction
          rw [if_neg fraction] at spelled
          exact prints_pure wf spelled rfl
      · rw [if_pos finite]
        exact Steady.refl wf
  | some (.table r) => exact absurd rfl (noTable r)
  | some (.foreign value) => exact Steady.refl wf

theorem prints_encodeValue {children : List Nat → Option (Value F) → Act F Bytes}
    (all : ∀ active, PrintsBelow env forest base room (children active)) (wf : Wf forest base)
    (recorded : Recorded env base) (active : List Nat) :
    PrintsAll env forest base room (encodeValue env room children active) := by
  intro s v part steady serves
  have recorded' : Recorded env s := recorded.congr steady.kept.grown.docs steady.origins
  cases serves with
  | value held =>
      by_cases table : ∃ r, v = some (.table r)
      · obtain ⟨r, rfl⟩ := table
        have below : r < base.tables.length := held _ rfl
        rw [encodeValue]
        split
        · exact Steady.refl steady.kept.wf
        · rw [Prints, Action.wp_bind, Action.wp_get]
          split
          · rename_i q at_
            have here := proxy?_eq_some.2 at_
            obtain ⟨q₀, here₀, either⟩ := steady.kept.grown.proxy_old below here
            by_cases dirty : q.dirty = true
            · exact prints_written (all _) wf here₀ steady here dirty
            · have clean : q.dirty = false := by simpa using dirty
              obtain rfl : q = q₀ := by
                rcases either with same | ⟨-, -, dirty₀, o, -, -, -, -, -, same⟩
                · exact same
                · rw [same, dirty₀] at clean
                  cases clean
              obtain ⟨place, ok⟩ := steady.kept.wf.proxy here
              have copied : Sourced env forest base r place.node :=
                .clean here₀ clean ok.at_ ok.cursor
                  (recorded'.slice steady.kept.wf.library ok.at_).1
              exact prints_clean ok steady.kept.wf recorded' clean
                (spelledIn_of_copies (.copied copied) (.table copied) _)
          · rename_i p at_
            have plain := steady.kept.grown.plain_old below (plain?_eq_some.2 at_)
            exact prints_encodePlainTable wf steady plain recorded (all _) _
          · exact Steady.refl steady.kept.wf
      · exact prints_leaf steady (fun r same => table ⟨r, same⟩) active fun tree => .leaf
  | node at_ yields =>
      obtain ⟨valid, -, -⟩ := recorded'.slice steady.kept.wf.library at_
      unfold Yields at yields
      split at yields
      · rename_i kind isKind
        obtain ⟨r, rfl, here⟩ := yields
        rw [encodeValue]
        split
        · exact Steady.refl steady.kept.wf
        · rw [Prints, Action.wp_bind, Action.wp_get, proxy?_eq_some.1 here]
          obtain ⟨place', ok⟩ := steady.kept.wf.proxy here
          obtain rfl := ok.at_.unique at_ (ok.cursor.symm.trans rfl)
          exact prints_clean ok steady.kept.wf recorded' rfl
            (spelledIn_of_copies (.container valid (by rw [isKind]; rfl)) .node _)
      · obtain ⟨w, rfl, leaf⟩ := yields
        refine prints_leaf steady (fun r same => leaf.not_table r (Option.some.inj same)) active
          fun tree => .reread valid leaf

theorem prints_encodeAt (wf : Wf forest base) (recorded : Recorded env base) (room : Nat)
    (active : List Nat) : PrintsAll env forest base room (encodeAt env room active) := by
  induction room generalizing active with
  | zero =>
      apply prints_encodeValue _ wf recorded active
      intro _ left isRoom
      cases isRoom
  | succ room ih =>
      apply prints_encodeValue _ wf recorded active
      intro active left isRoom
      obtain rfl := Nat.succ.inj isRoom
      exact ih active

theorem prints_encode (wf : Wf forest base) (recorded : Recorded env base)
    (steady : Steady env forest base s) (held : Held base.tables.length v) :
    Prints env forest base s encodeMaxDepth (.value v) (encode env v) := by
  rw [Prints, encode, Action.wp_bind]
  refine Action.Wp.mono (prints_encodeAt wf recorded encodeMaxDepth [] s v (.value v) steady
    (.value held)) ?_ fun _ => id
  rintro text s' done
  split
  · exact done.1
  · exact done

end Rules

end QJson.Table

import QJson.Table.Cycles
import QJson.Table.Grounded

/-!
# Cycles are reported exactly

Where encoding returns a text, every walk from the value ends; where it raises the error of a
cycle, a table on the way comes again.  The tables that are under way are those on the path
from the root, at every call of the encoder and of the matcher.
-/

namespace QJson.Table

open Rfc8259 Validate Doc Decode Ffi Lua Relation

section Statements

variable {F : Type} [DecidableEq F] (env : Env F) (forest : Forest) (base s : State F)
  (root : Value F)

/-- An encoding that came to an end: every walk from the value ends, or the error is fair. -/
def Traces (v : Option (Value F)) (encoding : Act F Bytes) : Prop :=
  Action.Outcome encoding s (fun _ s' => Steady env forest s s' ∧ Clear env base v)
    (Fair env base root)

/-- A function that encodes what stands below a table. -/
def TracesBelow (t : Nat) (recur : Option (Value F) → Act F Bytes) : Prop :=
  ∀ s v, Steady env forest base s →
    (∀ w, v = some w → Walks env base (.table t) w ∨ Calm s w) →
    Traces env forest base s root v (recur v)

/-- How encoding may come to an end: with a text where no table on the way is below itself, or
with an error, that of a cycle where there is one, and of Lua itself only that of a string that
does not fit. -/
structure Concludes (result : Except LuaError Bytes) : Prop where
  acyclic : ∀ text, result = .ok text → ¬ Cyclic env s root
  cyclic : result = .error cycleError → Cyclic env s root
  runtime : ∀ text, result = .error (.runtime text) → text = "not enough memory"

/-- A function that encodes values, whatever is under way. -/
def TracesAll (recur : List Nat → Option (Value F) → Act F Bytes) : Prop :=
  ∀ active s v, Steady env forest base s → (∀ a ∈ active, Enters base a) →
    (∀ w, v = some w → OnWay env base root active w ∨ Calm s w) →
    Traces env forest base s root v (recur active v)

end Statements

section Rules

variable {F : Type} [DecidableEq F] {env : Env F} {forest : Forest} {base s : State F}
  {root : Value F} {t room n : Nat} {p : Plain F} {v : Option (Value F)}
  {recur : Option (Value F) → Act F Bytes}

theorem traces_guarded {walk : Act F Bytes} (traces : Traces env forest base s root v walk) :
    Traces env forest base s root v (guarded room walk) := by
  rw [guarded]
  split
  · exact fair_depthError
  · exact traces

theorem traces_pure (steady : Steady env forest base s) (calm : ∀ w, v = some w → Calm s w)
    (text : Bytes) : Traces env forest base s root v (pure text) := by
  refine ⟨.refl steady.kept.wf, ?_⟩
  cases v with
  | none => exact clear_none
  | some w => exact clear_of_calm steady (calm w rfl)

theorem outcome_children {α : Type} (child : α → Option (Value F)) {list : List α}
    {body : List Bytes → α → Act F (List Bytes)} (steady : Steady env forest base s)
    (step : ∀ x ∈ list, ∀ parts s', Steady env forest s s' →
      Action.Outcome (body parts x) s'
        (fun _ s'' => Steady env forest s' s'' ∧ Clear env base (child x)) (Fair env base root))
    (parts : List Bytes) :
    Action.Outcome (list.foldlM body parts) s
      (fun _ s' => Steady env forest s s' ∧ ∀ x ∈ list, Clear env base (child x))
      (Fair env base root) := by
  refine Action.outcome_foldlM (fun done s' => Steady env forest s s' ∧
    ∀ x ∈ done, Clear env base (child x)) ?_ ⟨.refl steady.kept.wf, fun x none => nomatch none⟩
  rintro done x parts s' member ⟨kept, clear⟩
  refine (step x member parts s' kept).mono ?_ fun _ => id
  rintro _ s'' ⟨kept', last⟩
  refine ⟨kept.trans kept', fun y inside => ?_⟩
  rcases List.mem_append.1 inside with old | new
  · exact clear y old
  · obtain rfl := List.mem_singleton.1 new
    exact last

theorem Traces.bind {β : Type} {encoding : Act F Bytes}
    (traces : Traces env forest base s root v encoding) (text : Bytes → β) :
    Action.Outcome (encoding >>= fun bytes => pure (text bytes)) s
      (fun _ s' => Steady env forest s s' ∧ Clear env base v) (Fair env base root) :=
  Action.Outcome.bind traces fun _ _ done => done

/-! ## Plain tables -/

/-- A table whose entries are all written and were all encoded. -/
theorem clear_of_entries (plain : base.plain? t = some p)
    (all : base.elementCount env p = none)
    (clear : ∀ k v, p.entries.lookup k = some v → Clear env base (some v)) :
    Clear env base (some (.table t)) := by
  refine clear_plain plain (fun v written => ?_) fun _ n count => ?_
  · rw [Written, all] at written
    obtain ⟨k, here⟩ := written
    exact clear k v here
  · cases all.symm.trans count

section Plain

variable (below : TracesBelow env forest base root t recur) (plain : base.plain? t = some p)
  (steady : Steady env forest base s)
include below plain steady

theorem traces_encodeArray (path : ReflTransGen (Walks env base) root (.table t))
    (count : base.elementCount env p = some n) :
    Traces env forest base s root (some (.table t)) (encodeArray room recur p n) := by
  refine traces_guarded (Action.Outcome.bind
    (outcome_children (fun i => p.entries.lookup (.idx (i + 1))) steady
      (fun i member parts s' kept => ?_) []) ?_)
  · refine (below s' _ (steady.trans kept) fun w here => .inl ?_).bind _
    refine .entry plain ?_
    rw [Written, count]
    exact ⟨i, Nat.lt_of_lt_of_le (List.mem_range.1 member) (Nat.min_le_left _ _), here⟩
  · rintro parts s' ⟨kept, clear⟩
    split
    · rename_i far
      refine ⟨fun same => (by cases same), fun text same =>
        .inr ⟨(LuaError.runtime.inj same).symm, ?_⟩⟩
      exact ⟨t, p, n, path, plain, count, far⟩
    · rename_i reached
      have reached := Nat.lt_of_not_le reached
      rw [Nat.min_eq_left reached.le] at clear
      refine ⟨kept, clear_plain plain (fun v written => ?_) fun _ m count' => ?_⟩
      · rw [Written, count] at written
        obtain ⟨i, less, here⟩ := written
        exact here ▸ clear i (List.mem_range.2 less)
      · obtain rfl := Option.some.inj (count.symm.trans count')
        exact reached

/-- The members of a table in the order of `next`. -/
theorem outcome_encodeMembers (all : base.elementCount env p = none)
    {entries : List (Key F × Value F)} (inside : ∀ e ∈ entries, p.entries.lookup e.1 = some e.2)
    (parts : List Bytes) :
    Action.Outcome (encodeMembers env recur entries parts) s
      (fun _ s' => Steady env forest s s' ∧ ∀ e ∈ entries, Clear env base (some e.2))
      (Fair env base root) := by
  refine outcome_children (fun e : Key F × Value F => some e.2) steady
    (fun e member parts s' kept => ?_) parts
  have encoded := below s' (some e.2) (steady.trans kept) fun w same => .inl (by
    obtain rfl := Option.some.inj same
    exact .entry plain (by rw [Written, all]; exact ⟨e.1, inside e member⟩))
  obtain ⟨key, v⟩ := e
  cases key with
  | val k => exact fair_message (ne_cycle_of_char 14 (by decide) (by decide))
  | _ => exact encoded.bind _

theorem traces_encodeObject (all : base.elementCount env p = none) :
    Traces env forest base s root (some (.table t)) (encodeObject env room recur p) := by
  refine traces_guarded ((outcome_encodeMembers below plain steady all
    (fun e => mem_order.1) []).bind ?_)
  rintro parts s' ⟨kept, clear⟩
  exact ⟨kept, clear_of_entries plain all fun k v here => clear (k, v) (mem_order.2 here)⟩

omit plain in
theorem traces_encodeOriginChild {v : Value F} (walks : Walks env base (.table t) v)
    (record : Option (Record F)) :
    Traces env forest base s root (some v) (encodeOriginChild recur v record) := by
  have encoded := below s (some v) steady fun w same => .inl (by
    obtain rfl := Option.some.inj same
    exact walks)
  rw [encodeOriginChild.eq_def]
  split
  · split
    · rename_i same
      obtain rfl := same
      refine traces_pure steady (fun w same => ?_) _
      obtain rfl := Option.some.inj same
      exact calm_of_not_table fun r table => by cases table
    · exact encoded
  · exact encoded

/-- What is written of a table that is classified. -/
theorem traces_classified (path : ReflTransGen (Walks env base) root (.table t))
    (written : base.elementCount env p =
      (classifyPlainTable env base.settings p).toOption.join) :
    Traces env forest base s root (some (.table t)) (do
      match ← lift (classifyPlainTable env s.settings p) with
      | some max => encodeArray room recur p max
      | none => encodeObject env room recur p) := by
  rw [steady.settings]
  rcases classify_cases env base.settings p with ⟨max, class_, -⟩ | class_ | class_
  · rw [class_] at written ⊢
    exact traces_encodeArray below plain steady path written
  · rw [class_] at written ⊢
    exact traces_encodeObject below plain steady written
  · rw [class_]
    exact fair_message (by decide)

variable {active : List Nat} {origin : Origin F} (wf : Wf forest base)
  (next : ∀ w, Walks env base (.table t) w → OnWay env base root active w)
  (isOrigin : (p.origin.bind fun o => base.origins[o]?) = some origin)
include wf next isOrigin

omit below in
/-- What `encode_object_with_origin` and its sibling for arrays ask first. -/
theorem asks_fullyMatches :
    Asks env base s root (some (.table t)) (fullyMatches env room active p origin) :=
  asks_originFullyMatches plain isOrigin fun record v walks =>
    asks_originRecordMatches wf steady _ _ record v fun w same => next w (walks w same)

theorem traces_encodeObjectWithOrigin (object : origin.kind = .obj) :
    Traces env forest base s root (some (.table t))
      (encodeObjectWithOrigin env room active recur p origin) := by
  have all : base.elementCount env p = none := by
    rw [State.elementCount, isOrigin]
    simp only [object]
  refine traces_guarded (Action.Outcome.bind
    (asks_fullyMatches plain steady wf next isOrigin) ?_)
  rintro b s' ⟨rfl, matched⟩
  cases b with
  | true => exact ⟨.refl steady.kept.wf, (matched rfl).2⟩
  | false =>
      simp only [Bool.false_eq_true, if_false]
      refine Action.Outcome.bind (outcome_children
        (fun key => p.entries.lookup (.str key)) steady
        (fun key _ parts s₁ kept => ?_) []) ?_
      · cases here : p.entries.lookup (.str key) with
        | none => exact ⟨.refl kept.kept.wf, clear_none⟩
        | some v =>
            refine (traces_encodeOriginChild below (steady.trans kept) (.entry plain ?_) _).bind _
            rw [Written, all]
            exact ⟨_, here⟩
      · rintro parts s₁ ⟨kept, first⟩
        refine (outcome_encodeMembers below plain (steady.trans kept) all (fun e member =>
          mem_order.1 (List.mem_of_mem_filter member)) parts).bind ?_
        rintro parts s₂ ⟨kept', later⟩
        refine ⟨kept.trans kept', clear_of_entries plain all fun k v here => ?_⟩
        by_cases source : ∃ key ∈ origin.keys, k = .str key
        · obtain ⟨key, member, rfl⟩ := source
          exact here ▸ first key member
        · refine later (k, v) (List.mem_filter.2 ⟨mem_order.2 here, ?_⟩)
          cases k with
          | str key => simpa using fun member => source ⟨key, member, rfl⟩
          | _ => rfl

theorem traces_encodeArrayWithOrigin
    (path : ReflTransGen (Walks env base) root (.table t)) (array : origin.kind = .arr) :
    Traces env forest base s root (some (.table t))
      (encodeArrayWithOrigin env room active recur p origin) := by
  refine traces_guarded (Action.Outcome.bind
    (asks_fullyMatches plain steady wf next isOrigin) ?_)
  rintro b s' ⟨rfl, matched⟩
  cases b with
  | true => exact ⟨.refl steady.kept.wf, (matched rfl).2⟩
  | false =>
      refine Action.outcome_get (traces_classified below plain steady path ?_)
      rw [State.elementCount, isOrigin]
      simp only [array]

omit isOrigin in
theorem traces_encodePlainTable (path : ReflTransGen (Walks env base) root (.table t)) :
    Traces env forest base s root (some (.table t))
      (encodePlainTable env room active recur p) := by
  refine Action.outcome_get ?_
  rw [steady.origins]
  cases isOrigin : p.origin.bind fun o => base.origins[o]? with
  | some origin =>
      cases kind : origin.kind with
      | obj =>
          simp only [kind]
          exact traces_encodeObjectWithOrigin below plain steady wf next isOrigin kind
      | arr =>
          simp only [kind]
          exact traces_encodeArrayWithOrigin below plain steady wf next isOrigin path kind
  | none =>
      by_cases emptyArray : p.emptyArray
      · simp only [emptyArray, if_true]
        refine traces_encodeArray below plain steady path ?_
        simp only [State.elementCount, isOrigin, emptyArray, if_true]
      · have notEmpty : p.emptyArray = false := by simpa using emptyArray
        simp only [emptyArray]
        cases hint : p.hint with
        | some kind =>
            cases kind with
            | obj =>
                refine traces_encodeObject below plain steady ?_
                simp only [State.elementCount, isOrigin, notEmpty, hint, Bool.false_eq_true,
                  if_false]
            | arr =>
                refine traces_encodeArray below plain steady path ?_
                simp only [State.elementCount, isOrigin, notEmpty, hint, Bool.false_eq_true,
                  if_false]
        | none =>
            refine traces_classified below plain steady path ?_
            simp only [State.elementCount, isOrigin, notEmpty, hint, Bool.false_eq_true, if_false]

end Plain

/-! ## Proxies -/

section Proxies

variable {q q₀ : Proxy F}

/-- `ensure_object_order_state` on a dirty object. -/
theorem outcome_ensureObjectOrderState (wf : Wf forest s) (here : s.proxy? t = some q)
    (object : q.kind = .obj) (dirty : q.dirty = true) :
    Action.Outcome (ensureObjectOrderState env t q) s
      (fun order s' => Steady env forest s s' ∧
        s'.proxy? t = some { q with order := some order }) (Fair env base root) := by
  obtain ⟨place, ok⟩ := wf.proxy here
  have throws : Action.Throws (Fair env base root) (ensureObjectOrderState env t q) s :=
    (throws_ensureObjectOrderState wf here object).mono fun _ => fair_access
  cases ordered : q.order with
  | some order =>
      rw [ensureObjectOrderState, ordered]
      exact ⟨.refl wf, by rw [here, ← ordered]⟩
  | none =>
      refine ((wp_ensureObjectOrderState wf here ok object ordered).mono ?_
        fun _ => And.left).outcome throws
      rintro order _ ⟨s₁, opened, isOrder, rfl⟩
      have here₁ := opened.opens.proxy? here
      refine ⟨opened.steady.trans ⟨kept_ordered opened.wf here₁
        (ok.mono opened.opens.later.length_le) object ordered dirty isOrder, rfl, rfl⟩, ?_⟩
      exact proxy?_eq_some.2 ((getElem?_updateProxy _).2 (.inl ⟨q, rfl,
        proxy?_eq_some.1 here₁, rfl⟩))

variable (below : TracesBelow env forest base root t recur) (wf : Wf forest base)
  (here₀ : base.proxy? t = some q₀) (steady : Steady env forest base s)
  (here : s.proxy? t = some q) (dirty : q.dirty = true)
include below wf here₀ steady here dirty

theorem traces_encodeLazyObjectWalking (object : q.kind = .obj) :
    Traces env forest base s root (some (.table t))
      (encodeLazyObjectWalking env room recur t q) := by
  refine traces_guarded (Action.Outcome.bind
    (outcome_ensureObjectOrderState steady.kept.wf here object dirty) ?_)
  rintro order s₁ ⟨kept, here₁⟩
  have steady₁ := steady.trans kept
  have shown (v : Value F) : Shown env s₁ false { q with order := some order } v ↔
      ∃ k ∈ order.keys, order.values.lookup k = some v := by
    simp [Shown, object]
  have grown (v : Value F) := steady₁.kept.grown.shown wf here₀ here₁ false v
  have dirty₀ : q₀.dirty = true := ((grown (.table t)).1).symm.trans dirty
  refine Action.Outcome.bind (outcome_children (fun k => order.values.lookup k) steady₁
    (fun k member parts s₂ kept₂ => ?_) []) ?_
  · cases entry : order.values.lookup k with
    | none => exact ⟨.refl kept₂.kept.wf, clear_none⟩
    | some v =>
        refine (below s₂ (some v) (steady₁.trans kept₂) fun w same => ?_).bind _
        obtain rfl := Option.some.inj same
        rcases (grown v).2.2 ((shown v).2 ⟨k, member, entry⟩) with childless | before
        · exact .inr (kept₂.calm childless.calm)
        · exact .inl (.child here₀ dirty₀ before)
  · rintro parts s₂ ⟨kept₂, clear⟩
    refine ⟨kept.trans kept₂, clear_proxy here₀ fun v before => ?_⟩
    obtain ⟨k, member, entry⟩ := (shown v).1 ((grown v).2.1 before)
    exact entry ▸ clear k member

omit wf in
theorem traces_encodeLazyArrayWalking (array : q.kind = .arr) :
    Traces env forest base s root (some (.table t))
      (encodeLazyArrayWalking env room recur t q) := by
  obtain ⟨place, ok⟩ := steady.kept.wf.proxy here
  have isArray := ok.kind.trans (congrArg some array)
  obtain rfl : q = q₀ := by
    obtain ⟨q₁, before, either⟩ := steady.kept.grown.proxy_old (lt_of_proxy? here₀) here
    obtain rfl := Option.some.inj (here₀.symm.trans before)
    rcases either with same | ⟨object, -, -, o, -, -, -, -, -, same⟩
    · exact same
    · rw [same] at array
      exact absurd (object.symm.trans array) nofun
  have length : Action.Wp (getter env q.doc (some .container) q.cur .len) s
      (fun reply s' => (Quiet s s' ∧ Library forest s') ∧
        reply = some (.count place.node.children.length)) fun _ => False := by
    rw [ok.cursor]
    refine wp_getter steady.kept.wf.library ok.at_ .len fun s' quiet library => ?_
    rw [readNode, if_pos (by rw [isArray]; rfl)]
    exact ⟨⟨quiet, library⟩, rfl⟩
  have count : place.node.children.length = place.children.length := by
    rw [← place.children_map_entry, List.length_map]
  refine traces_guarded (Action.Outcome.bind (length.outcome length.throws) ?_)
  rintro reply s₁ ⟨⟨quiet, library⟩, rfl⟩
  have kept : Steady env forest s s₁ := quiet.steady steady.kept.wf library
  have steady₁ := steady.trans kept
  change Action.Outcome (List.foldlM _ [] (List.range place.node.children.length) >>=
    fun parts => pure (bracketed .arr parts)) s₁ _ _
  refine Action.Outcome.bind (outcome_children (fun i => q.elems.lookup (i + 1)) steady₁
    (fun i member parts s₂ kept₂ => ?_) []) ?_
  · have less : i < place.children.length := count ▸ List.mem_range.1 member
    have here₂ := (kept.trans kept₂).kept.grown.same here (.inl array)
    have element := wp_elementAt kept₂.kept.wf.library ok.at_ ok.cursor isArray less.le
    refine Action.Outcome.bind (element.outcome element.throws) ?_
    rintro reply s₃ ⟨⟨quiet₃, library₃⟩, rfl⟩
    have kept₃ : Steady env forest s₂ s₃ := quiet₃.steady kept₂.kept.wf library₃
    have here₃ := kept₃.kept.grown.same here₂ (.inl array)
    rw [List.getElem?_eq_getElem less]
    have read : Action.Outcome (rawElem t (i + 1)) s₃
        (fun cached s' => cached = q.elems.lookup (i + 1) ∧ s' = s₃) (Fair env base root) :=
      ⟨by rw [here₃, Option.bind_some], rfl⟩
    have rest (v : Option (Value F)) {s₄ : State F} (kept₄ : Steady env forest s₂ s₄)
        (child : ∀ w, v = some w → Walks env base (.table t) w ∨ Calm s₄ w)
        (clear : Clear env base v → Clear env base (q.elems.lookup (i + 1))) :
        Action.Outcome (recur v >>= fun text => pure (parts ++ [text])) s₄
          (fun _ s' => Steady env forest s₂ s' ∧ Clear env base (q.elems.lookup (i + 1)))
          (Fair env base root) :=
      ((below s₄ v (steady₁.trans (kept₂.trans kept₄)) child).bind _).mono
        (fun _ _ done => ⟨kept₄.trans done.1, clear done.2⟩) fun _ => id
    refine read.bind ?_
    rintro _ s₃ ⟨rfl, rfl⟩
    cases entry : q.elems.lookup (i + 1) with
    | some cached =>
        rw [entry] at rest
        refine rest (some cached) kept₃ (fun w same => .inl (.child here₀ dirty ?_)) id
        obtain rfl := Option.some.inj same
        simpa [Shown, array] using ⟨_, entry⟩
    | none =>
        rw [entry] at rest
        have at_ := ok.child (List.getElem?_eq_getElem less)
        have throws : Action.Throws (Fair env base root)
            (decodeCursor env (some t) q.doc place.children[i].cursor) s₃ :=
          (throws_decodeCursor _ _ _).mono fun _ => fair_access
        refine Action.Outcome.bind
          ((wp_decodeChild kept₃.kept.wf at_ (lt_of_proxy? here₃)).outcome throws) ?_
        rintro v s₄ ⟨opened, yields⟩
        refine rest v (kept₃.trans opened.steady) (fun w same => ?_) fun _ => clear_none
        subst same
        exact .inr yields.childless.calm
  · rintro parts s₂ ⟨kept₂, clear⟩
    refine ⟨kept.trans kept₂, clear_proxy here₀ fun v shown => ?_⟩
    obtain ⟨i, entry⟩ : ∃ i, q.elems.lookup i = some v := by simpa [Shown, array] using shown
    obtain ⟨-, low, high⟩ := ok.elems i v entry
    obtain ⟨j, rfl⟩ := Nat.exists_eq_add_of_le' low
    exact entry ▸ clear j (List.mem_range.2 (count ▸ high))

omit below here₀ dirty in
theorem traces_encodeProxy (walk : q.dirty = true →
      ∃ q₀, base.proxy? t = some q₀ ∧ TracesBelow env forest base root t recur) :
    Traces env forest base s root (some (.table t)) (encodeProxy env room recur t q) := by
  rw [encodeProxy]
  split
  · rename_i clean
    refine Action.outcome_get (traces_pure steady (fun w same => ?_) _)
    obtain rfl := Option.some.inj same
    rintro r ⟨rfl⟩
    exact ⟨q, here, by simpa using clean⟩
  · rename_i dirty
    have dirty : q.dirty = true := by simpa using dirty
    obtain ⟨q₀, here₀, below⟩ := walk dirty
    cases kind : q.kind with
    | obj => exact traces_encodeLazyObjectWalking below wf here₀ steady here dirty kind
    | arr => exact traces_encodeLazyArrayWalking below here₀ steady here dirty kind

end Proxies

/-! ## Values -/

/-- `encode` on a value, with a function for its children. -/
theorem traces_encodeValue {children : List Nat → Option (Value F) → Act F Bytes}
    (all : TracesAll env forest base root children) (wf : Wf forest base) :
    TracesAll env forest base root (encodeValue env room children) := by
  intro active s v steady entered comes
  have leaf {w : Value F} (same : v = some w) (noTable : ∀ r, w ≠ .table r) (text : Bytes) :
      Traces env forest base s root v (pure text) := by
    subst same
    refine traces_pure steady (fun x same => ?_) text
    obtain rfl := Option.some.inj same
    exact calm_of_not_table noTable
  cases v with
  | none => exact traces_pure steady (fun w same => by cases same) litNull
  | some w =>
      cases w with
      | table r =>
          rw [encodeValue]
          split
          · rename_i again
            rcases comes _ rfl with way | calm
            · exact ⟨fun _ => way.cyclic again, nofun⟩
            · exact ((steady.enters (entered r again)).not_calm calm).elim
          · -- What stands below a table that encoding came to.
            have below (way : OnWay env base root active (.table r)) (enters : Enters base r) :
                TracesBelow env forest base root r (children (r :: active)) := by
              intro s' v steady' comes'
              refine all (r :: active) s' v steady' (fun a member => ?_) fun w same => ?_
              · rcases List.mem_cons.1 member with rfl | older
                · exact enters
                · exact entered a older
              · exact (comes' w same).imp_left (way.next wf)
            refine Action.outcome_get ?_
            rcases comes _ rfl with way | calm
            · cases here : s.tables[r]? with
              | none =>
                  have inside : r < s.tables.length :=
                    Nat.lt_of_lt_of_le way.below steady.kept.grown.length_le
                  exact absurd (List.getElem?_eq_none_iff.1 here) (Nat.not_le.2 inside)
              | some table =>
                  cases table with
                  | proxy q =>
                      refine traces_encodeProxy wf steady (proxy?_eq_some.2 here) fun dirty => ?_
                      obtain ⟨q₀, before, either⟩ :=
                        steady.kept.grown.proxy_old way.below (proxy?_eq_some.2 here)
                      have dirty₀ : q₀.dirty = true := by
                        rcases either with rfl | ⟨-, -, dirty₀, -⟩
                        · exact dirty
                        · exact dirty₀
                      exact ⟨q₀, before, below way (.inr ⟨q₀, before, dirty₀⟩)⟩
                  | plain p =>
                      have plain := steady.kept.grown.plain_old way.below (plain?_eq_some.2 here)
                      exact traces_encodePlainTable (below way (.inl ⟨p, plain⟩)) plain steady wf
                        (fun w => way.next wf) way.path
            · obtain ⟨q, here, clean⟩ := calm r rfl
              rw [proxy?_eq_some.1 here]
              exact traces_encodeProxy wf steady here fun dirty => by
                rw [clean] at dirty
                cases dirty
      | num x =>
          refine Action.outcome_get ?_
          split
          · exact fair_message (by decide)
          · split
            · exact leaf rfl nofun _
            · exact leaf rfl nofun _
      | foreign value => exact fair_message (ne_cycle_of_char 14 (by decide) (by decide))
      | null => exact leaf rfl nofun _
      | str text => exact leaf rfl nofun _
      | bool b => exact leaf rfl nofun _
      | int64 n => exact leaf rfl nofun _

theorem traces_encodeAt (wf : Wf forest base) (room : Nat) :
    TracesAll env forest base root (encodeAt env room) := by
  induction room with
  | zero => exact traces_encodeValue (fun _ _ _ _ _ _ => fair_depthError) wf
  | succ room ih => exact traces_encodeValue ih wf

end Rules

section Endings

variable {F : Type} [DecidableEq F] {env : Env F} {forest : Forest} {s : State F}

theorem outcome_encode (env : Env F) (wf : Wf forest s) {v : Value F}
    (held : v.Below s.tables.length) :
    Action.Outcome (encode env (some v)) s
      (fun _ _ => ¬ Cyclic env s v ∧ (s.Storable → ¬ Endless env s v)) (Fair env s v) := by
  have traces : Traces env forest s s v (some v) (encodeAt env encodeMaxDepth [] (some v)) := by
    refine traces_encodeAt wf _ [] s (some v) (.refl wf) (fun a none => nomatch none) ?_
    intro w same
    obtain rfl := Option.some.inj same
    exact .inl ⟨held, .refl, fun a none => nomatch none⟩
  refine Action.Outcome.bind traces ?_
  rintro text s' ⟨-, clear⟩
  obtain ⟨acc, reached⟩ := clear v rfl
  split
  · exact ⟨nofun, fun text same => .inl (LuaError.runtime.inj same).symm⟩
  · refine ⟨?_, reached⟩
    rintro ⟨w, path, cycle⟩
    exact acyclic_of_acc acc path cycle

/-- A loop over indices that are all absent, up to one that it does not reach. -/
theorem outcome_encodeArray_blank {room n : Nat} {recur : Option (Value F) → Act F Bytes}
    {p : Plain F} (isRoom : room ≠ 0) (nil : ∀ s, recur none s = (.ok litNull, s))
    (blank : ∀ i < loopEnd, p.entries.lookup (.idx (i + 1)) = none) (far : loopEnd ≤ n) :
    Action.Outcome (encodeArray room recur p n) s (fun _ _ => False)
      (· = .runtime "endless loop") := by
  rw [encodeArray, guarded, if_neg isRoom]
  refine Action.Outcome.bind (Action.outcome_foldlM (fun _ _ => True)
    (fun _ i parts s member _ => ?_) trivial) fun parts s' _ => ?_
  · rw [blank i (Nat.lt_of_lt_of_le (List.mem_range.1 member) (Nat.min_le_right _ _))]
    have text : Action.Outcome (recur none) s (fun _ _ => True) (· = .runtime "endless loop") := by
      rw [Action.Outcome, nil]
      trivial
    exact text.bind fun _ _ _ => trivial
  · rw [if_pos far]
    exact rfl

/-- Encoding a plain table without labels does not come to an end when its last index is out
of reach and the indices on the way are absent. -/
theorem encode_endless_of_blank {r n : Nat} {p : Plain F} (plain : s.plain? r = some p)
    (noOrigin : p.origin = none) (notEmpty : p.emptyArray = false) (noHint : p.hint = none)
    (class_ : classifyPlainTable env s.settings p = .ok (some n)) (far : loopEnd ≤ n)
    (blank : ∀ i < loopEnd, p.entries.lookup (.idx (i + 1)) = none) :
    (encode env (some (.table r)) s).1 = .error (.runtime "endless loop") := by
  have loop (room : Nat) : Action.Outcome (encodeAt env (room + 1) [] (some (.table r))) s
      (fun _ _ => False) (· = .runtime "endless loop") := by
    rw [encodeAt, encodeValue, if_neg List.not_mem_nil]
    refine Action.outcome_get ?_
    rw [plain?_eq_some.1 plain]
    refine Action.outcome_get ?_
    rw [noOrigin, notEmpty, noHint, class_]
    refine outcome_encodeArray_blank (Nat.succ_ne_zero room) (fun _ => ?_) blank far
    cases room <;> rfl
  have whole : Action.Outcome (encode env (some (.table r))) s (fun _ _ => False)
      (· = .runtime "endless loop") := Action.Outcome.bind (loop 999) fun _ _ => False.elim
  unfold Action.Outcome at whole
  rcases ran : encode env (some (.table r)) s with ⟨result, s'⟩
  rw [ran] at whole
  cases result with
  | ok _ => exact whole.elim
  | error _ => exact congrArg Except.error whole

end Endings

/-! ## Arrays with an end -/

section Reached

variable {F : Type} [DecidableEq F] {env : Env F} {s : State F} {root : Value F}

/-- The sparse check keeps the last index of an array within reach. -/
theorem lt_loopEnd_of_sparse {settings : Settings} {p : Plain F} {n : Nat}
    (ratio : 0 < settings.sparseRatio) (safe : settings.sparseSafe < loopEnd)
    (few : p.entries.entries.length * settings.sparseRatio < loopEnd)
    (class_ : classifyPlainTable env settings p = .ok (some n)) : n < loopEnd := by
  rw [classifyPlainTable] at class_
  split at class_
  · cases class_
  · split at class_
    · split at class_ <;> cases class_
    · rename_i dense
      obtain rfl := Option.some.inj (Except.ok.inj class_)
      have count : ((env.order p.entries).map Prod.fst).length = p.entries.entries.length := by
        rw [List.length_map, (env.order_perm p.entries).length_eq, List.length_map]
      rw [count] at dense
      refine Nat.lt_of_not_le fun far => dense ⟨ratio, ?_, ?_⟩
      · exact Nat.lt_of_lt_of_le safe far
      · exact Nat.lt_of_lt_of_le few far

/-- With the sparse check on, as it is at the start, no heap of ordinary tables has an endless
array. -/
theorem not_endless_of_sparse (ratio : 0 < s.settings.sparseRatio)
    (safe : s.settings.sparseSafe < loopEnd)
    (few : ∀ r p, s.plain? r = some p →
      p.entries.entries.length * s.settings.sparseRatio < loopEnd ∧
        env.length p.entries < loopEnd) : ¬ Endless env s root := by
  rintro ⟨r, p, n, -, plain, count, far⟩
  obtain ⟨entries, length⟩ := few r p plain
  have classified (same : (classifyPlainTable env s.settings p).toOption.join = some n) :
      n < loopEnd := by
    cases class_ : classifyPlainTable env s.settings p with
    | error _ =>
        rw [class_] at same
        cases same
    | ok border =>
        rw [class_] at same
        obtain rfl : border = some n := same
        exact lt_loopEnd_of_sparse ratio safe entries class_
  refine absurd far (Nat.not_le.2 ?_)
  rw [State.elementCount] at count
  split at count
  · split at count
    · cases count
    · exact classified count
  · split at count
    · exact Option.some.inj count ▸ length
    · split at count
      · cases count
      · exact Option.some.inj count ▸ length
      · exact classified count

/-- Whether every plain table of a heap that is written as an array is so up to an index that
is reached. -/
def State.reached (env : Env F) (s : State F) : Bool :=
  s.tables.all fun t => match t with
    | .plain p => (s.elementCount env p).all (· < loopEnd)
    | .proxy _ => true

theorem not_endless_of_reached (reached : s.reached env = true) : ¬ Endless env s root := by
  rintro ⟨r, p, n, -, plain, count, far⟩
  have here := List.all_eq_true.1 reached _ (List.mem_of_getElem? (plain?_eq_some.1 plain))
  have near : n < loopEnd := by simpa [count] using here
  exact absurd far (Nat.not_le.2 near)

end Reached

/-! ## Encoding ends -/

theorem loopEnd_lt_hugeIndex : loopEnd < hugeIndex := by decide +kernel

/-- `qjson.encode_sparse_array(false, 0); t = {}; t[math.huge] = true` -/
def boundlessState : State Nat :=
  let settings := ((Op.encodeSparseArray (some false) (some 0) none).run natEnv (State.start Nat)).2
  let fresh := ((Op.newTable false).run natEnv settings).2
  ((Op.newindex 0 (some (.num hugeIndex)) (some (.bool true))).run natEnv fresh).2

/-- What the table holds, how it is classified, and its labels. -/
theorem boundlessState_facts : boundlessState.tables.length = 1 ∧
    (boundlessState.plain? 0).map (fun p => natEnv.order p.entries) =
      some [(.idx hugeIndex, .bool true)] ∧
    (boundlessState.plain? 0).map
        (fun p => (classifyPlainTable natEnv boundlessState.settings p).toOption) =
      some (some (some hugeIndex)) ∧
    (boundlessState.plain? 0).map (fun p => (p.origin, p.emptyArray, p.hint)) =
      some (none, false, none) := by
  decide +kernel

theorem boundlessState_session : Session natEnv (fun s op => op.Proper s) boundlessState :=
  .step (.step (.step .start trivial) trivial) ⟨held_some trivial, held_some trivial, fun _ => by
    rintro ⟨name, -, same⟩
    cases same⟩

theorem boundlessState_held : (Value.table 0 : Value Nat).Below boundlessState.tables.length :=
  boundlessState_facts.1 ▸ Nat.one_pos

/-- The table of `boundlessState` is an array up to `math.huge` without other indices. -/
theorem boundlessState_table : ∃ p, boundlessState.plain? 0 = some p ∧ p.origin = none ∧
    p.emptyArray = false ∧ p.hint = none ∧
    classifyPlainTable natEnv boundlessState.settings p = .ok (some hugeIndex) ∧
    p.entries.entries.length = 1 ∧
    ∀ i < loopEnd, p.entries.lookup (.idx (i + 1)) = none := by
  obtain ⟨-, order, class_, labels⟩ := boundlessState_facts
  obtain ⟨p, plain, order⟩ := Option.map_eq_some_iff.1 order
  rw [plain] at class_ labels
  have class_ : (classifyPlainTable natEnv boundlessState.settings p).toOption =
    some (some hugeIndex) := Option.some.inj class_
  obtain ⟨noOrigin, notEmpty, noHint⟩ : p.origin = none ∧ p.emptyArray = false ∧ p.hint = none := by
    simpa using labels
  refine ⟨p, plain, noOrigin, notEmpty, noHint, ?_, ?_, fun i near => ?_⟩
  · cases result : classifyPlainTable natEnv boundlessState.settings p with
    | ok border =>
        rw [result] at class_
        exact congrArg Except.ok (Option.some.inj class_)
    | error error =>
        rw [result] at class_
        cases class_
  · have same := (natEnv.order_perm p.entries).length_eq
    rw [order, List.length_map] at same
    exact same.symm
  · cases entry : p.entries.lookup (.idx (i + 1)) with
    | none => rfl
    | some v =>
        have member : (.idx (i + 1), v) ∈ natEnv.order p.entries := mem_order.2 entry
        rw [order] at member
        have index := Key.idx.inj (Prod.mk.inj (List.mem_singleton.1 member)).1
        have far := loopEnd_lt_hugeIndex
        omega

/-- `a = {}; b = {}` -/
def freshState : State Nat :=
  ((Op.newTable false).run natEnv ((Op.newTable false).run natEnv (State.start Nat)).2).2

/-- `b[1] = a` -/
def singleState : State Nat :=
  ((Op.newindex 1 (some (.num 1)) (some (.table 0))).run natEnv freshState).2

/-- `b[2] = a` -/
def pairState : State Nat :=
  ((Op.newindex 1 (some (.num 2)) (some (.table 0))).run natEnv singleState).2

/-- `a.x = b` -/
def knotState : State Nat :=
  ((Op.newindex 0 (some (.str [0x78])) (some (.table 1))).run natEnv pairState).2

/-- What `b` is written as, before and behind the last assignment. -/
theorem knotState_facts :
    (0 < freshState.tables.length ∧ 0 < singleState.tables.length ∧
      1 < pairState.tables.length ∧ 1 < knotState.tables.length) ∧
    (pairState.reached natEnv = true ∧ knotState.reached natEnv = true) ∧
    (encode natEnv (some (.table 1)) pairState).1 =
      .ok [0x5B, 0x7B, 0x7D, 0x2C, 0x7B, 0x7D, 0x5D] ∧
    (encode natEnv (some (.table 1)) knotState).1 = .error cycleError ∧
    pairState.proxy? 0 = none := by
  decide +kernel

theorem pairState_session : Session natEnv (fun s op => op.Proper s) pairState := by
  obtain ⟨⟨fresh, single, -⟩, -⟩ := knotState_facts
  have number {t x : Nat} {s : State Nat} :
      (s.proxy? t).isSome → ¬ IsRawField (some (.num x : Value Nat)) := by
    rintro - ⟨name, -, same⟩
    cases same
  refine .step (.step (.step (.step .start trivial) trivial) ?_) ?_
  · exact ⟨held_some trivial, held_some fresh, number⟩
  · exact ⟨held_some trivial, held_some single, number⟩

theorem knotState_session : Session natEnv (fun s op => op.Proper s) knotState := by
  obtain ⟨⟨-, -, pair, -⟩, -, -, -, plain⟩ := knotState_facts
  refine .step pairState_session ⟨held_some trivial, held_some pair, fun proxy => ?_⟩
  rw [plain] at proxy
  cases proxy

theorem boundlessState_endless : Endless natEnv boundlessState (.table 0) := by
  obtain ⟨p, plain, noOrigin, notEmpty, noHint, class_, -⟩ := boundlessState_table
  refine ⟨0, p, hugeIndex, .refl, plain, ?_, loopEnd_lt_hugeIndex.le⟩
  rw [State.elementCount, noOrigin, notEmpty, noHint, class_]
  rfl

theorem boundlessState_storable : boundlessState.Storable := by
  obtain ⟨p, plain, -, -, -, -, few, -⟩ := boundlessState_table
  intro r p' plain'
  have inside := (List.getElem?_eq_some_iff.1 (plain?_eq_some.1 plain')).1
  obtain rfl : r = 0 := by
    rw [boundlessState_facts.1] at inside
    exact Nat.lt_one_iff.1 inside
  obtain rfl := Option.some.inj (plain.symm.trans plain')
  rw [few]
  decide

end QJson.Table

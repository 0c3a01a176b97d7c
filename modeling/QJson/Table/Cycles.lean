import QJson.Action.Reach
import QJson.Table.Encoding
import QJson.Table.Raising

/-!
# Cycles and encoding

Encoding goes into the entries of plain tables and into the children of dirty proxies; a
clean proxy is a slice of its source.  The encoder and the matcher of provenance share the
tables on the way from the root, and they raise the error of a cycle exactly where one of
these comes again.  Only an array whose last index is out of reach keeps encoding from an end.
-/

namespace QJson.Table

open Rfc8259 Validate Doc Decode Ffi Lua Relation

section Statements

variable {F : Type} [DecidableEq F] (env : Env F) (s : State F)

/-- How many elements are written of a plain table, if it is written as an array. -/
def State.elementCount (p : Plain F) : Option Nat :=
  let classified := (classifyPlainTable env s.settings p).toOption.join
  match p.origin.bind fun o => s.origins[o]? with
  | some origin =>
      match origin.kind with
      | .obj => none
      | .arr => classified
  | none =>
      if p.emptyArray then some (env.length p.entries)
      else
        match p.hint with
        | some .obj => none
        | some .arr => some (env.length p.entries)
        | none => classified

/-- The values that are written of a plain table. -/
def Written (p : Plain F) (v : Value F) : Prop :=
  match s.elementCount env p with
  | some n => ∃ i < n, p.entries.lookup (.idx (i + 1)) = some v
  | none => ∃ k, p.entries.lookup k = some v

/-- Encoding goes from a table into a value. -/
inductive Walks : Value F → Value F → Prop where
  | entry {r : Nat} {p : Plain F} {v : Value F} :
      s.plain? r = some p → Written env s p v → Walks (.table r) v
  | child {r : Nat} {q : Proxy F} {v : Value F} :
      s.proxy? r = some q → q.dirty = true → Shown env s false q v → Walks (.table r) v

/-- A table that encoding comes by is below itself. -/
def Cyclic (root : Value F) : Prop :=
  ∃ v, ReflTransGen (Walks env s) root v ∧ TransGen (Walks env s) v v

/-- A plain table that encoding comes by is written as an array up to an index that the loop
of `encode_array` does not reach. -/
def Endless (root : Value F) : Prop :=
  ∃ r p n, ReflTransGen (Walks env s) root (.table r) ∧ s.plain? r = some p ∧
    s.elementCount env p = some n ∧ loopEnd ≤ n

/-- No plain table has `loopEnd` entries, which no memory holds. -/
def State.Storable : Prop := ∀ r p, s.plain? r = some p → p.entries.entries.length < loopEnd

/-- A table that encoding may go into: a plain one or a dirty proxy. -/
def Enters (r : Nat) : Prop :=
  (∃ p, s.plain? r = some p) ∨ ∃ q, s.proxy? r = some q ∧ q.dirty = true

/-- A leaf or a clean proxy. -/
def Calm (v : Value F) : Prop := ∀ r, v = .table r → ∃ q, s.proxy? r = some q ∧ q.dirty = false

/-- Every walk from a value ends, and there is an end to what is written on the way. -/
def Clear (v : Option (Value F)) : Prop :=
  ∀ w, v = some w → Acc (fun b a => Walks env s a b) w ∧ (s.Storable → ¬ Endless env s w)

/-- The errors that encoding raises: that of a cycle where there is one, and of Lua itself
only that of a string that does not fit; the loop of an endless array ends with nothing. -/
def Fair (root : Value F) (error : LuaError) : Prop :=
  (error = cycleError → Cyclic env s root) ∧
    ∀ text, error = .runtime text →
      text = "not enough memory" ∨ text = "endless loop" ∧ Endless env s root

/-- The tables that are under way, and a value that encoding comes to through them. -/
structure OnWay (root : Value F) (active : List Nat) (v : Value F) : Prop where
  below : v.Below s.tables.length
  path : ReflTransGen (Walks env s) root v
  active : ∀ a ∈ active, TransGen (Walks env s) (.table a) v

end Statements

/-! ## The heap -/

section Heaps

variable {F : Type} [DecidableEq F] {env : Env F} {forest : Forest} {base s s' s'' : State F}
  {root v w : Value F} {active : List Nat} {r t : Nat} {q : Proxy F}

/-- What encoding does to the heap. -/
structure Steady (env : Env F) (forest : Forest) (s s' : State F) : Prop where
  kept : Kept env forest s s'
  origins : s'.origins = s.origins
  settings : s'.settings = s.settings

theorem Steady.refl (wf : Wf forest s) : Steady env forest s s := ⟨.refl wf, rfl, rfl⟩

theorem Steady.trans (first : Steady env forest s s') (second : Steady env forest s' s'') :
    Steady env forest s s'' :=
  ⟨first.kept.trans second.kept, second.origins.trans first.origins,
    second.settings.trans first.settings⟩

theorem Quiet.steady (quiet : Quiet s s') (wf : Wf forest s) (library : Library forest s') :
    Steady env forest s s' :=
  ⟨quiet.kept wf library, quiet.origins, quiet.settings⟩

theorem Opened.steady (opened : Opened forest s s') : Steady env forest s s' := by
  refine ⟨opened.kept, opened.opens.origins, ?_⟩
  obtain ⟨added, -, adds⟩ := opened.opens
  exact adds.settings

omit [DecidableEq F] in
theorem Enters.not_calm (enters : Enters s r) (calm : Calm s (.table r : Value F)) : False := by
  obtain ⟨q, here, clean⟩ := calm r rfl
  rcases enters with ⟨p, plain⟩ | ⟨q', here', dirty⟩
  · have clash := (plain?_eq_some.1 plain).symm.trans (proxy?_eq_some.1 here)
    cases clash
  · obtain rfl := Option.some.inj (here.symm.trans here')
    rw [clean] at dirty
    cases dirty

theorem Steady.enters (steady : Steady env forest s s') (enters : Enters s r) : Enters s' r := by
  rcases enters with ⟨p, plain⟩ | ⟨q, here, dirty⟩
  · exact .inl ⟨p, steady.kept.grown.plain r p plain⟩
  · rcases steady.kept.grown.proxy r q here with same | ⟨-, -, -, o, -, -, -, -, -, same⟩
    · exact .inr ⟨q, same, dirty⟩
    · exact .inr ⟨_, same, dirty⟩

theorem Steady.calm (steady : Steady env forest s s') (calm : Calm s v) : Calm s' v := by
  rintro r rfl
  obtain ⟨q, here, clean⟩ := calm r rfl
  exact ⟨q, steady.kept.grown.same here (.inr (.inr clean)), clean⟩

theorem Walks.enters (walks : Walks env s (.table r) v) : Enters s r := by
  cases walks with
  | entry plain _ => exact .inl ⟨_, plain⟩
  | child here dirty _ => exact .inr ⟨_, here, dirty⟩

/-- What encoding does not go into has no walks. -/
theorem clear_of_calm (steady : Steady env forest base s) (calm : Calm s v) :
    Clear env base (some v) := by
  intro w same
  obtain rfl := Option.some.inj same
  have still (child : Value F) : ¬ Walks env base v child := by
    intro walks
    cases v with
    | table r => exact (steady.enters walks.enters).not_calm calm
    | _ => cases walks
  refine ⟨.intro _ fun child walks => absurd walks (still child), ?_⟩
  rintro - ⟨r, p, n, path, plain, -⟩
  rcases path.cases_head with rfl | ⟨child, walks, -⟩
  · exact (steady.enters (.inl ⟨p, plain⟩)).not_calm calm
  · exact still child walks

omit [DecidableEq F] in
theorem calm_of_not_table (noTable : ∀ r, v ≠ .table r) : Calm s v :=
  fun r same => absurd same (noTable r)

omit [DecidableEq F] in
theorem Childless.calm (childless : Childless s v) : Calm s v := by
  rintro r rfl
  obtain ⟨kind, parent, doc, place, here⟩ := childless
  exact ⟨_, here, rfl⟩

/-- A table is clear when the values that encoding goes into are, and it is no endless array
itself. -/
theorem clear_table (children : ∀ v, Walks env s (.table t) v → Clear env s (some v))
    (reached : s.Storable → ∀ p n, s.plain? t = some p → s.elementCount env p = some n →
      n < loopEnd) : Clear env s (some (.table t)) := by
  intro w same
  obtain rfl := Option.some.inj same
  refine ⟨.intro _ fun child walks => (children child walks child rfl).1, ?_⟩
  rintro storable ⟨r, p, n, path, plain, count, far⟩
  rcases path.cases_head with same | ⟨child, walks, rest⟩
  · obtain rfl := Value.table.inj same
    exact absurd far (Nat.not_le.2 (reached storable p n plain count))
  · exact (children child walks child rfl).2 storable ⟨r, p, n, rest, plain, count, far⟩

theorem clear_plain {p : Plain F} (plain : s.plain? t = some p)
    (children : ∀ v, Written env s p v → Clear env s (some v))
    (reached : s.Storable → ∀ n, s.elementCount env p = some n → n < loopEnd) :
    Clear env s (some (.table t)) := by
  refine clear_table (fun v walks => ?_) fun storable p' n plain' => ?_
  · cases walks with
    | entry plain' written =>
        obtain rfl := Option.some.inj (plain.symm.trans plain')
        exact children v written
    | child proxy _ _ =>
        have clash := (plain?_eq_some.1 plain).symm.trans (proxy?_eq_some.1 proxy)
        cases clash
  · obtain rfl := Option.some.inj (plain.symm.trans plain')
    exact reached storable n

theorem clear_proxy (here : s.proxy? t = some q)
    (children : ∀ v, Shown env s false q v → Clear env s (some v)) :
    Clear env s (some (.table t)) := by
  have noPlain (p : Plain F) : s.plain? t ≠ some p := by
    intro plain
    have clash := (plain?_eq_some.1 plain).symm.trans (proxy?_eq_some.1 here)
    cases clash
  refine clear_table (fun v walks => ?_) fun _ p _ plain => absurd plain (noPlain p)
  cases walks with
  | entry plain _ => exact absurd plain (noPlain _)
  | child proxy _ shown =>
      obtain rfl := Option.some.inj (here.symm.trans proxy)
      exact children v shown

theorem clear_none : Clear env s (none : Option (Value F)) := fun _ none => nomatch none

theorem Walks.below (wf : Wf forest s) (walks : Walks env s v w) :
    w.Below s.tables.length := by
  cases walks with
  | entry plain written =>
      rw [Written] at written
      split at written
      · obtain ⟨i, -, entry⟩ := written
        exact (wf.plain plain _ _ entry).2
      · obtain ⟨k, entry⟩ := written
        exact (wf.plain plain _ _ entry).2
  | child here _ shown => exact shown.below wf here

theorem OnWay.next (wf : Wf forest s) (way : OnWay env s root active (.table t))
    (walks : Walks env s (.table t) v) : OnWay env s root (t :: active) v := by
  refine ⟨walks.below wf, way.path.tail walks, fun a member => ?_⟩
  rcases List.mem_cons.1 member with rfl | older
  · exact .single walks
  · exact (way.active a older).tail walks

/-- A table that comes again. -/
theorem OnWay.cyclic (way : OnWay env s root active (.table r)) (again : r ∈ active) :
    Cyclic env s root :=
  ⟨_, way.path, way.active r again⟩

/-! ## Errors -/

theorem fair_depthError : Fair env s root depthError :=
  ⟨by simp [depthError, cycleError], fun text same => by cases same⟩

theorem fair_access {error : LuaError} (access : error.IsAccess) : Fair env s root error := by
  refine ⟨?_, ?_⟩
  · rintro rfl
    exact access.elim
  · rintro text rfl
    exact access.elim

theorem fair_message {text : String} (other : text ≠ "qjson.encode: circular reference") :
    Fair env s root (.message text) :=
  ⟨fun same => absurd (LuaError.message.inj same) other, fun text same => by cases same⟩

/-- A message that differs from that of a cycle in one character. -/
theorem ne_cycle_of_char {front back : String} (i : Nat) (inside : i < front.toList.length)
    (other : front.toList[i]? ≠ "qjson.encode: circular reference".toList[i]?) :
    front ++ back ≠ "qjson.encode: circular reference" := by
  intro same
  rw [← same, String.toList_append, List.getElem?_append_left inside] at other
  exact other rfl

end Heaps

/-! ## Plain tables -/

section Tables

variable {F : Type} [DecidableEq F] {env : Env F} {p : Plain F} {settings : Settings}

/-- The entries of a table, in the order of `next`. -/
theorem mem_order {k : Key F} {v : Value F} :
    (k, v) ∈ env.order p.entries ↔ p.entries.lookup k = some v := by
  rw [(env.order_perm p.entries).mem_iff]
  constructor
  · intro member
    obtain ⟨e, inside, same⟩ := List.mem_map.1 member
    obtain ⟨rfl, rfl⟩ := Prod.mk.inj same
    exact AList.mem_lookup_iff.2 inside
  · intro here
    exact List.mem_map.2 ⟨⟨k, v⟩, AList.mem_lookup_iff.1 here, rfl⟩

theorem mem_keys (env : Env F) {k : Key F} :
    k ∈ (env.order p.entries).map Prod.fst ↔ ∃ v, p.entries.lookup k = some v := by
  rw [List.mem_map]
  constructor
  · rintro ⟨⟨k, v⟩, member, rfl⟩
    exact ⟨v, mem_order.1 member⟩
  · rintro ⟨v, here⟩
    exact ⟨(k, v), mem_order.2 here, rfl⟩

theorem foldl_max_le_iff {list : List Nat} {start bound : Nat} :
    list.foldl Nat.max start ≤ bound ↔ start ≤ bound ∧ ∀ n ∈ list, n ≤ bound := by
  induction list generalizing start with
  | nil => simp
  | cons n rest ih =>
      rw [List.foldl_cons, ih, List.forall_mem_cons, ← and_assoc]
      exact and_congr_left fun _ => Nat.max_le

/-- What `classify_plain_table` finds out about the indices. -/
theorem classify_cases (env : Env F) (settings : Settings) (p : Plain F) :
    (∃ max, classifyPlainTable env settings p = .ok (some max) ∧
      ∀ i v, p.entries.lookup (.idx i) = some v → i ≤ max) ∨
    classifyPlainTable env settings p = .ok none ∨
    classifyPlainTable env settings p =
      .error (.message "Cannot serialise table: excessively sparse array") := by
  rw [classifyPlainTable]
  split
  · exact .inr (.inl rfl)
  · split
    · split
      · exact .inr (.inl rfl)
      · exact .inr (.inr rfl)
    · refine .inl ⟨_, rfl, fun i v here => ?_⟩
      refine (foldl_max_le_iff.1 (Nat.le_refl _)).2 i (List.mem_filterMap.2 ⟨.idx i, ?_, rfl⟩)
      exact (mem_keys env).2 ⟨v, here⟩

/-- A table whose keys are the indices up to a length is written as an array without gaps,
unless it is empty. -/
theorem classify_of_filled (env : Env F) (settings : Settings) {n : Nat}
    (filled : ∀ i < n, ∃ v, p.entries.lookup (.idx (i + 1)) = some v)
    (only : ∀ k v, p.entries.lookup k = some v → ∃ i ≤ n, k = .idx i) :
    (∃ max, classifyPlainTable env settings p = .ok (some max) ∧ max ≤ n ∧
      n ≤ p.entries.entries.length) ∨
    classifyPlainTable env settings p = .ok none ∧ ∀ k, p.entries.lookup k = none := by
  have keys (k : Key F) (member : k ∈ (env.order p.entries).map Prod.fst) :
      ∃ i ≤ n, k = .idx i := by
    obtain ⟨v, here⟩ := (mem_keys env).1 member
    exact only k v here
  have count : n ≤ ((env.order p.entries).map Prod.fst).length := by
    have nodup : ((List.range n).map fun i => (.idx (i + 1) : Key F)).Nodup :=
      List.nodup_range.map fun i j same => by simpa using same
    have inside : (List.range n).map (fun i => (.idx (i + 1) : Key F)) ⊆
        (env.order p.entries).map Prod.fst := by
      intro k member
      obtain ⟨i, less, rfl⟩ := List.mem_map.1 member
      exact (mem_keys env).2 (filled i (List.mem_range.1 less))
    simpa using (List.subperm_of_subset nodup inside).length_le
  have most {index : Key F → Option Nat} (isIndex : ∀ j, index (.idx j) = some j) :
      (((env.order p.entries).map Prod.fst).filterMap index).foldl Nat.max 0 ≤ n := by
    refine foldl_max_le_iff.2 ⟨Nat.zero_le _, fun i member => ?_⟩
    obtain ⟨k, inside, same⟩ := List.mem_filterMap.1 member
    obtain ⟨j, small, rfl⟩ := keys k inside
    obtain rfl := Option.some.inj ((isIndex j).symm.trans same)
    exact small
  rw [classifyPlainTable]
  split
  · rename_i other
    refine .inr ⟨rfl, fun k => ?_⟩
    have empty : (env.order p.entries).map Prod.fst = [] := by
      rcases other with empty | clash
      · exact empty
      · refine absurd ?_ clash
        rw [List.length_filterMap_eq_countP, List.countP_eq_length]
        intro k member
        obtain ⟨i, -, rfl⟩ := keys k member
        rfl
    cases here : p.entries.lookup k with
    | none => rfl
    | some v =>
        have member := (mem_keys env).2 ⟨v, here⟩
        rw [empty] at member
        cases member
  · split
    · rename_i sparse
      obtain ⟨ratio, -, excess⟩ := sparse
      refine absurd excess (Nat.not_lt.2 ?_)
      calc _ ≤ n := most fun _ => rfl
        _ ≤ ((env.order p.entries).map Prod.fst).length := count
        _ ≤ ((env.order p.entries).map Prod.fst).length * settings.sparseRatio :=
          Nat.le_mul_of_pos_right _ ratio
    · refine .inl ⟨_, rfl, most fun _ => rfl, count.trans_eq ?_⟩
      rw [List.length_map, (env.order_perm p.entries).length_eq, List.length_map]

end Tables

/-! ## Matching -/

section Matches

variable {F : Type} [DecidableEq F] {env : Env F} {forest : Forest} {base s : State F}
  {root : Value F} {t : Nat} {p : Plain F} {origin : Origin F}
  {recur : Option (Record F) → Option (Value F) → Act F Bool}

/-- A question that is answered without a change; what is approved of is there, and every
walk from it ends. -/
def Asks (env : Env F) (base s : State F) (root : Value F) (v : Option (Value F))
    (question : Act F Bool) : Prop :=
  Action.Outcome question s
    (fun b s' => s' = s ∧ (b = true → v.isSome ∧ Clear env base v)) (Fair env base root)

theorem asks_false {v : Option (Value F)} : Asks env base s root v (pure false) :=
  ⟨rfl, nofun⟩

/-- `origin_object_fully_matches` and `origin_array_fully_matches` approve of a table whose
entries are approved of. -/
theorem asks_originFullyMatches (plain : base.plain? t = some p)
    (isOrigin : (p.origin.bind fun o => base.origins[o]?) = some origin)
    (step : ∀ record v, (∀ w, v = some w → Walks env base (.table t) w) →
      Asks env base s root v (recur record v)) :
    Asks env base s root (some (.table t)) (originFullyMatches env recur p origin) := by
  rw [originFullyMatches.eq_def]
  cases kind : origin.kind with
  | obj =>
      have written : base.elementCount env p = none := by
        rw [State.elementCount, isOrigin]
        simp only [kind]
      simp only [originObjectFullyMatches]
      split
      · exact asks_false
      · refine (Action.outcome_allM (fun e => Clear env base (some e.2)) fun e member => ?_).bind ?_
        · refine (step _ (some e.2) fun w same => ?_).mono
            (fun b s' asked => ⟨asked.1, fun yes => (asked.2 yes).2⟩) fun _ => id
          obtain rfl := Option.some.inj same
          exact .entry plain (by rw [Written, written]; exact ⟨e.1, mem_order.1 member⟩)
        · rintro b s' ⟨rfl, all⟩
          refine ⟨rfl, fun yes => ⟨rfl, clear_plain plain (fun v entry => ?_) fun _ n count => ?_⟩⟩
          · obtain ⟨same, -⟩ := Bool.and_eq_true_iff.1 yes
            rw [Written, written] at entry
            obtain ⟨k, here⟩ := entry
            exact all same (k, v) (mem_order.2 here)
          · cases written.symm.trans count
  | arr =>
      have written : base.elementCount env p =
          (classifyPlainTable env base.settings p).toOption.join := by
        rw [State.elementCount, isOrigin]
        simp only [kind]
      simp only [originArrayFullyMatches]
      split
      · exact asks_false
      · refine (Action.outcome_allM (fun i => (p.entries.lookup (.idx (i + 1))).isSome ∧
          Clear env base (p.entries.lookup (.idx (i + 1)))) fun i _ => ?_).bind ?_
        · refine step _ _ fun w here => .entry plain ?_
          rw [Written, written]
          rcases classify_cases env base.settings p with ⟨max, class_, bound⟩ | class_ | class_
          · rw [class_]
            exact ⟨i, bound _ _ here, here⟩
          · rw [class_]
            exact ⟨_, here⟩
          · rw [class_]
            exact ⟨_, here⟩
        · rintro b s' ⟨rfl, all⟩
          refine ⟨rfl, fun yes => ⟨rfl, ?_⟩⟩
          obtain ⟨same, only⟩ := Bool.and_eq_true_iff.1 yes
          have all := all same
          have indices : ∀ k w, p.entries.lookup k = some w → ∃ i ≤ origin.len, k = .idx i := by
            intro k w here
            have small := List.all_eq_true.1 only (k, w) (mem_order.2 here)
            cases k with
            | idx i => exact ⟨i, of_decide_eq_true small, rfl⟩
            | _ => cases small
          have filled : ∀ i < origin.len, ∃ w, p.entries.lookup (.idx (i + 1)) = some w :=
            fun i less => Option.isSome_iff_exists.1 (all i (List.mem_range.2 less)).1
          refine clear_plain plain (fun v entry => ?_) fun storable n count => ?_
          · rw [Written, written] at entry
            rcases classify_of_filled env base.settings filled indices with
              ⟨max, class_, -, -⟩ | ⟨-, empty⟩
            · rw [class_] at entry
              obtain ⟨i, -, here⟩ := entry
              obtain ⟨j, small, index⟩ := indices _ _ here
              have less : i < origin.len := by
                have := Key.idx.inj index
                omega
              exact here ▸ (all i (List.mem_range.2 less)).2
            · split at entry
              · obtain ⟨i, -, here⟩ := entry
                rw [empty] at here
                cases here
              · obtain ⟨k, here⟩ := entry
                rw [empty] at here
                cases here
          · rw [written] at count
            rcases classify_of_filled env base.settings filled indices with
              ⟨max, class_, most, few⟩ | ⟨class_, -⟩
            · rw [class_] at count
              obtain rfl : max = n := Option.some.inj count
              exact Nat.lt_of_le_of_lt (most.trans few) (storable t p plain)
            · rw [class_] at count
              cases count

/-- The question on a table that encoding comes to. -/
theorem asks_tableMatches (steady : Steady env forest base s) {active : List Nat} {r o : Nat}
    {inner : Plain F → Origin F → Act F Bool} (way : OnWay env base root active (.table r))
    (asks : ∀ p origin, base.plain? r = some p →
      (p.origin.bind fun o => base.origins[o]?) = some origin →
      Asks env base s root (some (.table r)) (inner p origin)) :
    Asks env base s root (some (.table r)) (tableMatches inner active r o) := by
  refine Action.outcome_get ?_
  split
  · rename_i again
    exact ⟨fun _ => way.cyclic again, fun text same => by cases same⟩
  · cases plain : s.plain? r with
    | none => exact asks_false
    | some p =>
        simp only
        split
        · rename_i o' origin isOrigin record
          split
          · exact asks_false
          · rename_i same
            obtain rfl := not_not.1 same
            refine asks p origin (steady.kept.grown.plain_old way.below plain) ?_
            rw [isOrigin, Option.bind_some, ← steady.origins, record]
        · exact asks_false

theorem asks_originRecordMatches (wf : Wf forest base) (steady : Steady env forest base s)
    (room : Nat) (active : List Nat) (record : Option (Record F)) (v : Option (Value F))
    (way : ∀ w, v = some w → OnWay env base root active w) :
    Asks env base s root v (originRecordMatches env room active record v) := by
  induction room generalizing active record v with
  | zero =>
      rw [originRecordMatches.eq_def]
      split
      · exact asks_false
      · exact Action.outcome_pure ⟨rfl, fun yes => by
          obtain rfl := of_decide_eq_true yes
          exact ⟨rfl, clear_of_calm steady (calm_of_not_table fun r table => by cases table)⟩⟩
      · split
        · exact asks_tableMatches steady (way _ rfl) fun _ _ _ _ => fair_depthError
        · exact asks_false
  | succ room ih =>
      rw [originRecordMatches.eq_def]
      split
      · exact asks_false
      · exact Action.outcome_pure ⟨rfl, fun yes => by
          obtain rfl := of_decide_eq_true yes
          exact ⟨rfl, clear_of_calm steady (calm_of_not_table fun r table => by cases table)⟩⟩
      · split
        · have here := way _ rfl
          refine asks_tableMatches steady here fun p origin plain isOrigin => ?_
          exact asks_originFullyMatches plain isOrigin fun record v walks =>
            ih _ record v fun w same => here.next wf (walks w same)
        · exact asks_false

end Matches

end QJson.Table

import QJson.Lua.OrderedMap
import QJson.Table.Mirrored
import QJson.Table.Resting
import QJson.Table.Siblings
import QJson.Table.Verbatim

/-!
# A written object is an ordered map

The order state of an object that is written is an ordered map from the decoded keys to the
members of the source and to what was assigned.  Loops, the length, materialization and
encoding show that map.
-/

namespace QJson.Table

open Rfc8259 Validate Doc Decode Ffi Lua

/-! ## The ordered map -/

/-- What an entry holds: a member of the source, or what was assigned. -/
inductive Cell (F : Type) where
  | member (child : Child)
  | assigned (v : Value F)

/-- A step of a program on an object: a read, or an assignment, where `nil` deletes. -/
inductive Command (F : Type) where
  | read (key : Bytes)
  | assign (key : Bytes) (v : Option (Value F))

/-- A value without parts. -/
def Value.IsScalar {F : Type} : Value F → Prop
  | .table _ | .foreign _ => False
  | _ => True

section Statements

variable {F : Type}

/-- The members of an object: a key that is repeated has its first place and its last value. -/
def members (children : List Child) : Map Bytes (Cell F) :=
  OrderedMap.collapse (children.map fun child => (keyText child, .member child))

/-- What a step does to the ordered map. -/
def Command.apply (m : Map Bytes (Cell F)) : Command F → Map Bytes (Cell F)
  | .read _ => m
  | .assign key none => m.erase key
  | .assign key (some v) => OrderedMap.assign m key (.assigned v)

/-- What a step does to the object `t`. -/
def Command.op (t : Nat) : Command F → Op F
  | .read key => .index t (some (.str key))
  | .assign key v => .newindex t (some (.str key)) v

/-- Scalars are assigned, and not to the raw fields of the object. -/
def Command.Allowed : Command F → Prop
  | .read _ => True
  | .assign key v => key ∉ rawFields ∧ ∀ w, v = some w → w.IsScalar

variable [DecidableEq F] (env : Env F)

/-- Reads keep in the cache what is decoded to a table. -/
def IsCached (node : Tree) : Prop :=
  node.kind?.isSome ∨ node = .scalar litNull ∧ env.hasCjson = false

/-- A read of the key does not put into the cache what belongs to another member: where the
key is the decoded key of one member, that member is the one that is spelled so. -/
def Sound (children : List Child) (key : Bytes) : Prop :=
  ∀ first, firstSpelled children key = some first → IsCached env first.place.node →
    (children.map keyText).count key = 1 → lastUnder children key = some first

/-- The reads in front of the first assignment are sound. -/
def Careful (children : List Child) : List (Command F) → Prop
  | [] => True
  | .read key :: rest => Sound env children key ∧ Careful children rest
  | .assign _ _ :: _ => True

/-- A program runs; errors are caught. -/
def runCommands (t : Nat) (program : List (Command F)) (s : State F) : State F :=
  program.foldl (fun s c => ((c.op t).run env s).2) s

/-- What an entry of the map is in a state. -/
def Holds (s : State F) (t d : Nat) : Option (Cell F) → Option (Value F) → Prop
  | none, v => v = none
  | some (.assigned w), v => v = some w
  | some (.member child), v => Yields env s t d child.place v

/-- What the materialization of an entry is. -/
def Copied (s : State F) : Option (Cell F) → Option (Value F) → Prop
  | none, v => v = none
  | some (.assigned w), v => v = some w
  | some (.member child), v => ∃ x, v = some x ∧ Renders env s child.place x

/-- What `encode` writes for a scalar. -/
def scalarText (settings : Settings) : Value F → Except LuaError Bytes
  | .null => .ok litNull
  | .str text => .ok (encodeString text)
  | .num x =>
      if ¬ env.numbers.isFinite x then
        .error (.message "qjson.encode: cannot encode non-finite number")
      else if env.numbers.isInteger x then .ok (env.numbers.formatD x)
      else .ok (env.numbers.formatG settings.precision x)
  | .bool b => .ok (if b then litTrue else litFalse)
  | .int64 n => .ok (env.numbers.int64Text n)
  | .table _ | .foreign _ => .ok []

/-- What `encode` writes for an entry: a container of the source as it stands there, and
scalars anew. -/
def Spelled (settings : Settings) : Option (Cell F) → Except LuaError Bytes → Prop
  | none, _ => False
  | some (.assigned v), text => text = scalarText env settings v
  | some (.member child), text =>
      match child.place.node.kind? with
      | some _ => text = .ok child.place.node.render
      | none => ∃ v, IsLeaf env child.place.node v ∧ text = scalarText env settings v

/-- The texts of members, up to the first error. -/
def memberTexts : List Bytes → List (Except LuaError Bytes) → Except LuaError (List Bytes)
  | key :: keys, text :: texts => do
      let text ← text
      let rest ← memberTexts keys texts
      return member key text :: rest
  | _, _ => .ok []

/-- The text of an object with the given members. -/
def objectText (keys : List Bytes) (texts : List (Except LuaError Bytes)) :
    Except LuaError Bytes := do
  let parts ← memberTexts keys texts
  if luaMaxString < (bracketed .obj parts).length then throw (.runtime "not enough memory")
  else return bracketed .obj parts

/-- The entries that a loop yields in at most `n` rounds. -/
def collectEntries (loop : Nat) : Nat → Act F (List (Bytes × Option (Value F)))
  | 0 => return []
  | n + 1 => do
      match ← nextRound env loop with
      | .field key v => do
          let rest ← collectEntries loop n
          return (key, v) :: rest
      | _ => return []

/-- The entries that a loop over `qjson.pairs(t)` yields in at most `n` rounds. -/
def pairsEntries (t n : Nat) : Act F (List (Bytes × Option (Value F))) := do
  match ← (Op.pairs t).run env with
  | .loop loop => collectEntries env loop n
  | _ => return []

/-- An object shows an ordered map: in loops that run to their end, in its length, in its
materialization unless that meets a number that cannot be read, and in its text. -/
structure ShowsMap (s : State F) (t d room : Nat) (m : Map Bytes (Cell F)) : Prop where
  pairs : ∀ n, m.keys.length < n → Action.Wp (pairsEntries env t n) s
    (fun entries s' => entries.map Prod.fst = m.keys ∧
      ∀ e ∈ entries, Holds env s' t d (m.lookup e.1) e.2) fun _ => False
  len : Action.Wp ((Op.len t).run env) s (fun reply _ => reply = .count m.keys.length)
    fun _ => False
  table : Action.Wp (materialize env room false (some (.table t))) s
    (fun v s' => ∃ r p, v = some (.table r) ∧ s'.plain? r = some p ∧ p.emptyArray = false ∧
      (∀ key, Copied env s' (m.lookup key) (p.entries.lookup (.str key))) ∧
      ∀ k, (∀ key, k ≠ .str key) → p.entries.lookup k = none)
    fun _ => ∃ key child, m.lookup key = some (.member child) ∧ ¬ Readable env child.place.node
  text : ∃ texts, List.Forall₂ (fun key text => Spelled env s.settings (m.lookup key) text)
    m.keys texts ∧ (encode env (some (.table t)) s).1 = objectText m.keys texts

end Statements

/-! ## The members of the source -/

section Members

variable {F : Type} {children : List Child} {child : Child} {key : Bytes}

theorem members_concat : (members (children ++ [child]) : Map Bytes (Cell F)) =
    OrderedMap.assign (members children) (keyText child) (.member child) := by
  rw [members, List.map_append, List.map_singleton, OrderedMap.collapse_concat]
  rfl

theorem keys_members (children : List Child) :
    (members children : Map Bytes (Cell F)).keys = firstKeys (children.map keyText) := by
  induction children using List.reverseRecOn with
  | nil => rfl
  | append_singleton children child ih =>
      rw [members_concat, OrderedMap.keys_assign, ih, List.map_append, List.map_singleton,
        firstKeys_concat]
      by_cases seen : keyText child ∈ firstKeys (children.map keyText)
      · rw [if_pos seen, if_pos seen]
      · rw [if_neg seen, if_neg seen]

theorem lookup_members (children : List Child) (key : Bytes) :
    (members children : Map Bytes (Cell F)).lookup key =
      (lastUnder children key).map .member := by
  induction children using List.reverseRecOn with
  | nil => rfl
  | append_singleton children child ih =>
      rw [members_concat, OrderedMap.lookup_assign, lastUnder_concat, ih]
      by_cases same : keyText child = key
      · rw [if_pos same, if_pos same.symm]
        rfl
      · rw [if_neg same, if_neg (Ne.symm same)]

end Members

/-! ## In front of the first assignment -/

section Unwritten

variable {F : Type} [DecidableEq F] {env : Env F} {forest : Forest} {s s' : State F} {t d : Nat}
  {place : Place} {key : Bytes} {v : Option (Value F)}

/-- An object that was only read.  What is in its cache under the decoded key of one member
belongs to that member. -/
structure Unwritten (env : Env F) (forest : Forest) (t d : Nat) (place : Place)
    (cache : Map Bytes (Value F)) (s : State F) : Prop extends
    Resting forest t d place cache s where
  sound : ∀ key v, cache.lookup key = some v → ∃ first, Yields env s t d first.place (some v) ∧
    ((place.children.map keyText).count key = 1 → lastUnder place.children key = some first)

theorem IsLeaf.isNull {node : Tree} {w : Value F} (leaf : IsLeaf env node w)
    (table : isTable env (some w) = true) : node = .scalar litNull ∧ env.hasCjson = false := by
  cases node with
  | scalar token =>
      rw [IsLeaf] at leaf
      rcases leaf with ⟨rfl, rfl⟩ | ⟨-, rfl⟩ | ⟨-, rfl⟩ | ⟨-, x, -, rfl⟩
      · exact ⟨rfl, by simpa [isTable] using table⟩
      all_goals cases table
  | str body =>
      obtain rfl := leaf
      cases table
  | _ => exact leaf.elim

/-- What is decoded to a table is cached. -/
theorem Yields.isCached (yields : Yields env s t d place v) (table : isTable env v = true) :
    IsCached env place.node := by
  unfold Yields at yields
  cases isKind : place.node.kind? with
  | some kind =>
      refine .inl ?_
      rw [isKind]
      rfl
  | none =>
      rw [isKind] at yields
      obtain ⟨w, rfl, leaf⟩ := yields
      exact .inr (leaf.isNull table)

/-- What a read decodes is spelled like the key, and not in the cache. -/
theorem decoded_of_rootSource {cache : Map Bytes (Value F)} {first : Child}
    (source : rootSource env t d place cache key = some (.decoded first)) :
    firstSpelled place.children key = some first ∧ cache.lookup key = none := by
  have contents : (rootView d place cache).childCache = cache := rfl
  rw [rootSource] at source
  split at source
  · cases source
  · rw [Proxy.source, contents] at source
    cases cached : cache.lookup key with
    | some w =>
        rw [cached] at source
        cases source
    | none =>
        rw [cached] at source
        obtain ⟨child, spelled, same⟩ := Option.map_eq_some_iff.1 source
        obtain rfl := Source.decoded.inj same
        exact ⟨spelled, rfl⟩

theorem Unwritten.read {cache : Map Bytes (Value F)} (at_ : At forest d place)
    (object : place.node.kind? = some .obj)
    (unwritten : Unwritten env forest t d place cache s) (sound : Sound env place.children key) :
    Action.Wp (index env t (some (.str key))) s
      (fun _ s' => ∃ cache', Unwritten env forest t d place cache' s')
      fun _ => ¬ Legible env place := by
  apply (wp_index_root at_ object unwritten.toResting key).mono
  · rintro v s' ⟨cache', resting, carries, others, found, now⟩
    refine ⟨cache', resting, fun other w cached => ?_⟩
    -- What was in the cache before.
    have old (before : cache.lookup other = some w) : ∃ first,
        Yields env s' t d first.place (some w) ∧
          ((place.children.map keyText).count other = 1 →
            lastUnder place.children other = some first) := by
      obtain ⟨first, yields, is⟩ := unwritten.sound other w before
      exact ⟨first, carries.yields _ _ yields, is⟩
    by_cases same : other = key
    · subst same
      rw [now] at cached
      cases source : rootSource env t d place cache other with
      | none =>
          rw [source] at cached
          exact old cached
      | some from_ =>
          rw [source] at cached found
          cases from_ with
          | held x => exact old cached
          | decoded first =>
              rw [cachedBehind] at cached
              split at cached
              · rename_i table
                subst cached
                refine ⟨first, found.1, fun once => ?_⟩
                exact sound first (decoded_of_rootSource source).1 (found.1.isCached table) once
              · cases cached
    · rw [others other same] at cached
      exact old cached
  · exact fun _ => id

end Unwritten

/-! ## Behind the first assignment -/

section Mapped

variable {F : Type} [DecidableEq F] {env : Env F} {forest : Forest} {s s' : State F} {t d : Nat}
  {place : Place} {key : Bytes} {v : Option (Value F)} {cell : Option (Cell F)}
  {m : Map Bytes (Cell F)} {o : Order F}

/-- An object whose order state is an ordered map. -/
structure Mapped (env : Env F) (forest : Forest) (t d : Nat) (place : Place)
    (m : Map Bytes (Cell F)) (s : State F) : Prop where
  wf : Wf forest s
  here : ∃ cache o,
    s.proxy? t = some { rootView d place cache with dirty := true, order := some o } ∧
    o.keys = m.keys ∧ ∀ key, Holds env s t d (m.lookup key) (o.values.lookup key)
  inside : ∀ key child, m.lookup key = some (.member child) → child ∈ place.children
  scalars : ∀ key w, m.lookup key = some (.assigned w) → w.IsScalar

theorem Holds.none_iff (holds : Holds env s t d cell v) : cell = none ↔ v = none := by
  match cell with
  | none => exact iff_of_true rfl holds
  | some (.assigned w) =>
      obtain rfl := holds
      exact iff_of_false (fun clash => by cases clash) fun clash => by cases clash
  | some (.member child) =>
      obtain ⟨w, rfl⟩ := Yields.isSome holds
      exact iff_of_false (fun clash => by cases clash) fun clash => by cases clash

theorem Holds.carried (holds : Holds env s t d cell v) (carries : Carries env t d s s') :
    Holds env s' t d cell v := by
  match cell with
  | none | some (.assigned _) => exact holds
  | some (.member child) => exact carries.yields _ _ holds

theorem Holds.held (holds : Holds env s t d cell v)
    (scalar : ∀ w, cell = some (.assigned w) → w.IsScalar) : Held s.tables.length v := by
  match cell with
  | none =>
      obtain rfl := holds
      exact held_none
  | some (.assigned w) =>
      obtain rfl := holds
      have scalar := scalar w rfl
      refine held_some ?_
      cases w with
      | table r => exact scalar.elim
      | _ => trivial
  | some (.member child) => exact Yields.held holds

omit [DecidableEq F] in
/-- An assignment changes the entry of one key. -/
theorem lookup_apply (m : Map Bytes (Cell F)) (key : Bytes) (v : Option (Value F)) (other : Bytes) :
    ((Command.assign key v).apply m).lookup other =
      if other = key then v.map .assigned else m.lookup other := by
  cases v with
  | none =>
      rw [Command.apply]
      split
      · rename_i same
        rw [same, AList.lookup_erase]
        rfl
      · rename_i apart
        exact AList.lookup_erase_ne apart
  | some w => exact OrderedMap.lookup_assign m key (.assigned w) other

omit [DecidableEq F] in
theorem keys_assign (keys : o.keys = m.keys)
    (domain : ∀ key, m.lookup key = none ↔ o.values.lookup key = none) :
    (o.assign key v).keys = ((Command.assign key v).apply m).keys := by
  cases v with
  | none =>
      change o.keys.erase key = (m.erase key).keys
      rw [AList.keys_erase, keys]
      congr 1
      exact lawful_beq_subsingleton _ _
  | some w =>
      rw [Order.assign.eq_def, Command.apply, OrderedMap.keys_assign]
      cases old : o.values.lookup key with
      | none =>
          have new : key ∉ m.keys := AList.lookup_eq_none.1 ((domain key).2 old)
          rw [if_neg new, ← keys]
      | some x =>
          have inside : key ∈ m.keys := by
            by_contra new
            rw [(domain key).1 (AList.lookup_eq_none.2 new)] at old
            cases old
          rw [if_pos inside, ← keys]

omit [DecidableEq F] in
/-- A root that is written is marked dirty, and nothing else is. -/
theorem markDirty_root {q : Proxy F} (here : s.proxy? t = some q) (root : q.parent = none) :
    s.markDirty s.tables.length t = s.updateProxy t fun q => { q with dirty := true } := by
  obtain ⟨n, length⟩ := Nat.exists_eq_succ_of_ne_zero
    (Nat.ne_of_gt (Nat.lt_of_le_of_lt (Nat.zero_le t) (lt_of_proxy? here)))
  rw [length, State.markDirty, here]
  simp only [root]

theorem written_assign (wf : Wf forest s) (cache : Map Bytes (Value F)) (dirty : Bool)
    (here : s.proxy? t = some { rootView d place cache with dirty := dirty, order := some o })
    (keys : o.keys = m.keys)
    (holds : ∀ key, Holds env s t d (m.lookup key) (o.values.lookup key))
    (inside : ∀ key child, m.lookup key = some (.member child) → child ∈ place.children)
    (scalars : ∀ key w, m.lookup key = some (.assigned w) → w.IsScalar)
    (allowed : ∀ w, v = some w → w.IsScalar) :
    Mapped env forest t d place ((Command.assign key v).apply m) (s.written t o key v) := by
  have marks := markDirty_root here rfl
  have wf' := wf.dirty t
  have here' : (s.updateProxy t fun q => { q with dirty := true }).proxy? t =
      some { rootView d place cache with dirty := true, order := some o } :=
    proxy?_eq_some.2 ((getElem?_updateProxy _).2 (.inl ⟨_, rfl, proxy?_eq_some.1 here, rfl⟩))
  have carries : Carries env t d s (s.written t o key v) := by
    rw [State.written, marks]
    exact (carries_update env d wf _).trans (carries_update env d wf' _)
  refine ⟨?_, ⟨cache, o.assign key v, ?_, ?_, fun other => ?_⟩, fun other child => ?_,
    fun other w => ?_⟩
  · rw [State.written, marks]
    refine wf_ordered wf' fun other w => ?_
    rw [length_updateProxy]
    have old : ∀ k w, o.values.lookup k = some w → w.Below s.tables.length := fun k w same =>
      (holds k).held (scalars k) w same
    have new : Held s.tables.length v := fun w same => by
      have scalar := allowed w same
      cases w with
      | table r => exact scalar.elim
      | _ => trivial
    exact assign_held old new other w
  · rw [State.written, marks]
    exact proxy?_eq_some.2 ((getElem?_updateProxy _).2
      (.inl ⟨_, rfl, proxy?_eq_some.1 here', rfl⟩))
  · exact keys_assign keys fun k => (holds k).none_iff
  · rw [lookup_apply, assign_values, lookup_put]
    split
    · cases v <;> exact rfl
    · exact (holds other).carried carries
  · rw [lookup_apply]
    split
    · cases v <;> intro clash <;> cases clash
    · exact inside other child
  · rw [lookup_apply]
    split
    · cases v with
      | none =>
          intro clash
          cases clash
      | some x =>
          intro same
          obtain rfl := Cell.assigned.inj (Option.some.inj same)
          exact allowed x rfl
    · exact scalars other w

/-- The order state that the first assignment builds is the map of the members. -/
theorem Unwritten.holds {cache : Map Bytes (Value F)}
    (unwritten : Unwritten env forest t d place cache s)
    (order : OrderOf env s t (rootView d place cache) place.children o) (key : Bytes) :
    Holds env s t d ((members place.children).lookup key) (o.values.lookup key) := by
  have contents : (rootView d place cache).childCache = cache := rfl
  rw [lookup_members]
  by_cases member : key ∈ o.keys
  · have value := order.values key member
    rw [order.keys, mem_firstKeys] at member
    obtain ⟨last, isLast⟩ := exists_lastUnder member
    rw [isLast]
    cases cached : cachedOnce (rootView d place cache) (place.children.map keyText) key with
    | some w =>
        rw [cached] at value
        rw [cachedOnce, contents] at cached
        split at cached
        · rename_i once
          obtain ⟨first, yields, is⟩ := unwritten.sound key w cached
          obtain rfl := Option.some.inj (isLast.symm.trans (is once))
          rw [value]
          exact yields
        · cases cached
    | none =>
        rw [cached] at value
        obtain ⟨child, isChild, yields⟩ := value
        obtain rfl := Option.some.inj (isLast.symm.trans isChild)
        exact yields
  · rw [order.absent key member]
    rw [order.keys, mem_firstKeys] at member
    cases last : lastUnder place.children key with
    | none => rfl
    | some child =>
        obtain ⟨inside, rfl⟩ := mem_of_lastUnder last
        exact absurd (List.mem_map_of_mem inside) member

theorem Unwritten.assign (key : Bytes) {cache : Map Bytes (Value F)} (at_ : At forest d place)
    (object : place.node.kind? = some .obj)
    (unwritten : Unwritten env forest t d place cache s)
    (allowed : ∀ w, v = some w → w.IsScalar) :
    Action.Wp (newindex env t (some (.str key)) v) s
      (fun _ s' => Mapped env forest t d place
        ((Command.assign key v).apply (members place.children)) s')
      fun _ => ¬ Legible env place := by
  obtain ⟨place', ok⟩ := unwritten.wf.proxy unwritten.here
  obtain rfl : place' = place := ok.at_.unique at_ (ok.cursor.symm.trans rfl)
  have ensures := (show Action.Wp (ensureObjectOrderState env t (rootView d place' cache)) s _ _
    from wp_ensureObjectOrderState unwritten.wf unwritten.here ok rfl rfl)
  unfold Action.Wp
  rw [newindex_field unwritten.here rfl]
  change Action.Wp (ensureObjectOrderState env t (rootView d place' cache) >>= _) s _ _
  rw [Action.wp_bind]
  apply ensures.mono
  · rintro o _ ⟨s₁, opened, order, rfl⟩
    have resting := unwritten.toResting.opened opened
    have still : Unwritten env forest t d place' cache s₁ := by
      refine ⟨resting, fun key w cached => ?_⟩
      obtain ⟨first, yields, is⟩ := unwritten.sound key w cached
      exact ⟨first, yields.opens opened.opens, is⟩
    have holds := still.holds order
    have le := opened.opens.later.length_le
    have held := order.held fun k w cached => (ok.childCache k w cached).mono le
    apply written_assign (wf_ordered opened.wf held) cache false
    · exact proxy?_eq_some.2 ((getElem?_updateProxy _).2
        (.inl ⟨_, rfl, proxy?_eq_some.1 resting.here, rfl⟩))
    · rw [order.keys, keys_members]
    · exact fun key => (holds key).carried (carries_update env d opened.wf _)
    · intro key child member
      rw [lookup_members] at member
      obtain ⟨last, isLast, same⟩ := Option.map_eq_some_iff.1 member
      obtain rfl := Cell.member.inj same
      exact (mem_of_lastUnder isLast).1
    · intro key w clash
      rw [lookup_members] at clash
      obtain ⟨last, -, clash⟩ := Option.map_eq_some_iff.1 clash
      cases clash
    · exact allowed
  · rintro s' ⟨-, child, member, unreadable⟩ legible
    exact legible child member unreadable

theorem Mapped.assign (written : Mapped env forest t d place m s) (key : Bytes)
    (allowed : ∀ w, v = some w → w.IsScalar) :
    Action.Wp (newindex env t (some (.str key)) v) s
      (fun _ s' => Mapped env forest t d place ((Command.assign key v).apply m) s')
      fun _ => False := by
  obtain ⟨cache, o, here, keys, holds⟩ := written.here
  unfold Action.Wp
  rw [newindex_field here rfl, Action.bind_of_ok (ensureObjectOrderState_of_order rfl)]
  exact written_assign written.wf cache true here keys holds written.inside written.scalars allowed

theorem Mapped.read (written : Mapped env forest t d place m s) (key : Bytes) :
    ∃ v, index env t (some (.str key)) s = (.ok v, s) := by
  obtain ⟨cache, o, here, -, -⟩ := written.here
  rw [index, Action.get_bind, proxy?_eq_some.1 here]
  simp only [toKey, Option.bind_some]
  generalize rawget env t _ (.str key) = raw
  cases raw with
  | some w => exact ⟨some w, rfl⟩
  | none => exact ⟨o.values.lookup key, rfl⟩

end Mapped

/-! ## Programs -/

section Programs

variable {F : Type} [DecidableEq F] {env : Env F} {forest : Forest} {s : State F} {t d : Nat}
  {place : Place} {m : Map Bytes (Cell F)} {program : List (Command F)}

omit [DecidableEq F] in
theorem state_map {α β : Type} (action : Act F α) (f : α → β) (s : State F) :
    ((action >>= fun v => pure (f v)) s).2 = (action s).2 := by
  rw [Action.bind_apply]
  rcases action s with ⟨result, s'⟩
  cases result <;> rfl

theorem runCommands_cons (c : Command F) (rest : List (Command F)) :
    runCommands env t (c :: rest) s = runCommands env t rest (((c.op t).run env s).2) := rfl

theorem run_read (key : Bytes) :
    (((Command.read key).op t).run env s).2 = (index env t (some (.str key)) s).2 :=
  state_map _ Reply.value s

theorem run_assign (key : Bytes) (v : Option (Value F)) :
    (((Command.assign key v).op t).run env s).2 = (newindex env t (some (.str key)) v s).2 :=
  state_map _ (fun _ => Reply.nothing) s

/-- Every step behind the first assignment goes along with the ordered map. -/
theorem Mapped.run (written : Mapped env forest t d place m s)
    (allowed : ∀ c ∈ program, c.Allowed) :
    Mapped env forest t d place (program.foldl Command.apply m) (runCommands env t program s) := by
  induction program generalizing m s with
  | nil => exact written
  | cons c rest ih =>
      have allowed' : ∀ c ∈ rest, c.Allowed := fun c member =>
        allowed c (List.mem_cons_of_mem _ member)
      rw [runCommands_cons, List.foldl_cons]
      refine ih ?_ allowed'
      cases c with
      | read key =>
          obtain ⟨v, ran⟩ := written.read key
          rw [run_read, ran]
          exact written
      | assign key v =>
          obtain ⟨-, scalar⟩ := allowed _ List.mem_cons_self
          obtain ⟨_, s', ran, written'⟩ := (written.assign key scalar).exists_ok
          rw [run_assign, ran]
          exact written'

/-- Behind a program with an assignment, the object is an ordered map. -/
theorem Unwritten.run {cache : Map Bytes (Value F)} (at_ : At forest d place)
    (object : place.node.kind? = some .obj) (legible : Legible env place)
    (unwritten : Unwritten env forest t d place cache s)
    (allowed : ∀ c ∈ program, c.Allowed) (careful : Careful env place.children program)
    (assigns : ∃ key v, .assign key v ∈ program) :
    Mapped env forest t d place (program.foldl Command.apply (members place.children))
      (runCommands env t program s) := by
  induction program generalizing cache s with
  | nil =>
      obtain ⟨key, v, none_⟩ := assigns
      cases none_
  | cons c rest ih =>
      have allowed' : ∀ c ∈ rest, c.Allowed := fun c member =>
        allowed c (List.mem_cons_of_mem _ member)
      rw [runCommands_cons, List.foldl_cons]
      cases c with
      | read key =>
          obtain ⟨sound, careful'⟩ := careful
          obtain ⟨v, s', ran, cache', unwritten'⟩ := returns_of_legible legible
            (unwritten.read at_ object sound)
          rw [run_read, ran]
          refine ih unwritten' allowed' careful' ?_
          obtain ⟨other, w, member⟩ := assigns
          rcases List.mem_cons.1 member with clash | inside
          · cases clash
          · exact ⟨other, w, inside⟩
      | assign key v =>
          obtain ⟨-, scalar⟩ := allowed _ List.mem_cons_self
          obtain ⟨_, s', ran, written⟩ := returns_of_legible legible
            (unwritten.assign key at_ object scalar)
          rw [run_assign, ran]
          exact written.run allowed'

end Programs

/-! ## What the object shows -/

section Shows

variable {F : Type} [DecidableEq F] {env : Env F} {forest : Forest} {s s' : State F} {t d : Nat}
  {place : Place} {m : Map Bytes (Cell F)} {o : Order F}

theorem Holds.congr {cell : Option (Cell F)} {v : Option (Value F)}
    (holds : Holds env s t d cell v) (tables : s'.tables = s.tables) :
    Holds env s' t d cell v := by
  match cell with
  | none | some (.assigned _) => exact holds
  | some (.member child) =>
      have yields : Yields env s t d child.place v := holds
      change Yields env s' t d child.place v
      unfold Yields at yields ⊢
      split at yields
      · obtain ⟨r, same, here⟩ := yields
        exact ⟨r, same, (proxy?_congr tables r).trans here⟩
      · exact yields

theorem collectEntries_ordered {loop : Nat} (n i : Nat) (s : State F)
    (here : (s.proxy? t).bind (fun q => q.order) = some o)
    (begun : s.loops[loop]? = some (.ordered t i)) (room : o.keys.length < i + n) :
    ∃ s', collectEntries env loop n s =
      (.ok ((o.keys.drop i).map fun key => (key, o.values.lookup key)), s') ∧
      s'.tables = s.tables := by
  induction n generalizing i s with
  | zero =>
      have behind : o.keys.drop i = [] := List.drop_eq_nil_of_le (Nat.le_of_lt room)
      refine ⟨s, ?_, rfl⟩
      rw [behind]
      rfl
  | succ n ih =>
      have moved :
          ({ s with loops := s.loops.set loop (.ordered t (i + 1)) } : State F).loops[loop]? =
            some (.ordered t (i + 1)) :=
        List.getElem?_set_self (List.getElem?_eq_some_iff.1 begun).1
      cases key? : o.keys[i]? with
      | none =>
          have round : nextRound env loop s =
              (.ok .nothing, { s with loops := s.loops.set loop (.ordered t (i + 1)) }) := by
            rw [nextRound, Action.get_bind, begun]
            simp only [here, key?]
            rfl
          have behind : o.keys.drop i = [] :=
            List.drop_eq_nil_of_le (List.getElem?_eq_none_iff.1 key?)
          refine ⟨{ s with loops := s.loops.set loop (.ordered t (i + 1)) }, ?_, rfl⟩
          rw [collectEntries, Action.bind_of_ok round, behind]
          rfl
      | some key =>
          have round : nextRound env loop s = (.ok (.field key (o.values.lookup key)),
              { s with loops := s.loops.set loop (.ordered t (i + 1)) }) := by
            rw [nextRound, Action.get_bind, begun]
            simp only [here, key?]
            rfl
          obtain ⟨s', ran, tables⟩ := ih (i + 1)
            { s with loops := s.loops.set loop (.ordered t (i + 1)) } here moved (by omega)
          refine ⟨s', ?_, tables⟩
          obtain ⟨inside, rfl⟩ := List.getElem?_eq_some_iff.1 key?
          rw [collectEntries, Action.bind_of_ok round, List.drop_eq_getElem_cons inside]
          simp only []
          rw [Action.bind_of_ok ran]
          rfl

theorem Mapped.pairs (written : Mapped env forest t d place m s) {n : Nat}
    (room : m.keys.length < n) :
    Action.Wp (pairsEntries env t n) s (fun entries s' => entries.map Prod.fst = m.keys ∧
      ∀ e ∈ entries, Holds env s' t d (m.lookup e.1) e.2) fun _ => False := by
  obtain ⟨cache, o, here, keys, holds⟩ := written.here
  have starts : (Op.pairs t).run env s =
      (.ok (.loop s.loops.length), { s with loops := s.loops ++ [.ordered t 0] }) := by
    rw [Op.run, Action.get_bind, here]
    rfl
  have order : ((({ s with loops := s.loops ++ [.ordered t 0] } : State F).proxy? t).bind
      fun q => q.order) = some o := by
    have view : ({ s with loops := s.loops ++ [.ordered t 0] } : State F).proxy? t = _ := here
    rw [view]
    rfl
  obtain ⟨s', ran, tables⟩ := @collectEntries_ordered F _ env t o s.loops.length n 0 _ order
    List.getElem?_concat_length (by rw [keys]; omega)
  unfold Action.Wp
  rw [pairsEntries, Action.bind_of_ok starts]
  simp only []
  rw [ran, List.drop_zero]
  refine ⟨?_, fun e member => ?_⟩
  · rw [List.map_map, ← keys]
    exact List.map_id _
  · obtain ⟨key, -, rfl⟩ := List.mem_map.1 member
    exact (holds key).congr tables

theorem Mapped.len (written : Mapped env forest t d place m s) :
    Action.Wp ((Op.len t).run env) s (fun reply _ => reply = .count m.keys.length)
      fun _ => False := by
  obtain ⟨cache, o, here, keys, -⟩ := written.here
  rw [Op.run, Action.wp_bind, Action.wp_get, proxy?_eq_some.1 here, ← keys]
  exact rfl

/-- A table under construction holds what was copied under the keys that were worked off. -/
structure Copying (env : Env F) (m : Map Bytes (Cell F)) (s : State F) (done : List Bytes)
    (out : Map (Key F) (Value F)) : Prop where
  keys : ∀ key, (if key ∈ done then Copied env s (m.lookup key) (out.lookup (.str key))
    else out.lookup (.str key) = none)
  others : ∀ k, (∀ key, k ≠ .str key) → out.lookup k = none

theorem Copied.grown {cell : Option (Cell F)} {v : Option (Value F)}
    (copied : Copied env s cell v) (grown : Grown env forest s s') : Copied env s' cell v := by
  match cell with
  | none | some (.assigned _) => exact copied
  | some (.member child) =>
      obtain ⟨x, rfl, renders⟩ := copied
      exact ⟨x, rfl, renders.grown grown⟩

theorem wp_materialize_cell {room : Nat} (wf : Wf forest s) (at_ : At forest d place)
    {cell : Cell F} {v : Value F} (holds : Holds env s t d (some cell) (some v))
    (inside : ∀ child, cell = .member child → child ∈ place.children)
    (scalar : ∀ w, cell = .assigned w → w.IsScalar)
    (enough : place.node.depth ≤ room) (positive : 0 < room) :
    Action.Wp (materializePlain env room (some v)) s
      (fun w s' => Kept env forest s s' ∧ Copied env s' (some cell) w)
      fun _ => ∃ child, cell = .member child ∧ ¬ Readable env child.place.node := by
  cases cell with
  | assigned w =>
      obtain rfl := Option.some.inj holds
      have scalar := scalar v rfl
      obtain ⟨n, rfl⟩ := Nat.exists_eq_succ_of_ne_zero (Nat.ne_of_gt positive)
      rw [materializePlain, Action.wp_bind, Action.wp_get]
      cases v with
      | table r => exact scalar.elim
      | _ => exact ⟨Kept.refl wf, rfl⟩
  | member child =>
      have member := inside child rfl
      obtain ⟨i, here⟩ := List.getElem?_of_mem member
      have less := depth_lt_of_child member
      apply (wp_renders (reflects_materialize room s (some v) t d child.place wf
        (at_.child here) holds)).mono
      · rintro w s' ⟨kept, -, x, rfl, renders⟩
        exact ⟨kept, x, rfl, renders⟩
      · rintro s' (small | unreadable)
        · omega
        · exact ⟨child, rfl, unreadable⟩

theorem depth_pos {node : Tree} {kind : Kind} (container : node.kind? = some kind) :
    0 < node.depth := by
  cases node with
  | empty _ _ => exact Nat.zero_lt_one
  | node _ entries => exact Nat.succ_pos _
  | _ => cases container

theorem Copying.put {done : List Bytes} {out : Map (Key F) (Value F)} {key : Bytes}
    {w : Option (Value F)} (copying : Copying env m s done out)
    (copied : Copied env s (m.lookup key) w) :
    Copying env m s (done ++ [key]) (put out (.str key) w) where
  keys other := by
    have member : other ∈ done ++ [key] ↔ other = key ∨ other ∈ done := by
      rw [List.mem_append, List.mem_singleton, or_comm]
    rw [lookup_put]
    by_cases same : other = key
    · subst same
      rw [if_pos (member.2 (.inl rfl)), if_pos rfl]
      exact copied
    · have apart : (.str other : Key F) ≠ .str key := fun clash => same (Key.str.inj clash)
      rw [if_neg apart]
      have old := copying.keys other
      split at old
      · rename_i inside
        rw [if_pos (member.2 (.inr inside))]
        exact old
      · rename_i outside
        rw [if_neg fun now => (member.1 now).elim same outside]
        exact old
  others k other := by
    rw [lookup_put, if_neg (other key)]
    exact copying.others k other

theorem Mapped.copying (written : Mapped env forest t d place m s) {room : Nat}
    (at_ : At forest d place) (object : place.node.kind? = some .obj)
    (enough : place.node.depth ≤ room) (keys : o.keys = m.keys)
    (holds : ∀ key, Holds env s t d (m.lookup key) (o.values.lookup key)) :
    Action.Wp (materializeOrdered (materializePlain env room) o) s
      (fun out s' => Kept env forest s s' ∧ Copying env m s' m.keys out)
      fun _ => ∃ key child, m.lookup key = some (.member child) ∧
        ¬ Readable env child.place.node := by
  have positive : 0 < room := Nat.lt_of_lt_of_le (depth_pos object) enough
  rw [materializeOrdered, keys]
  refine Action.wp_foldlM (fun done out s' => Kept env forest s s' ∧ Copying env m s' done out)
    ?_ ⟨Kept.refl written.wf, fun key => ?_, fun k _ => rfl⟩
  · rintro done key out s' inside ⟨kept, copying⟩
    obtain ⟨cell, isCell⟩ := Option.isSome_iff_exists.1 (AList.lookup_isSome.2 inside)
    have holds := holds key
    rw [isCell] at holds
    cases value : o.values.lookup key with
    | none =>
        rw [value] at holds
        cases holds.none_iff.2 rfl
    | some v =>
        rw [value] at holds
        have later : Holds env s' t d (some cell) (some v) := by
          cases cell with
          | assigned w => exact holds
          | member child => exact Yields.grown holds kept.grown
        have materialized : Action.Wp (materializePlain env room (some v)) s'
            (fun w s'' => Kept env forest s' s'' ∧ Copied env s'' (some cell) w)
            fun _ => ∃ child, cell = .member child ∧ ¬ Readable env child.place.node :=
          wp_materialize_cell kept.wf at_ later
            (fun child same => written.inside key child (by rw [isCell, same]))
            (fun w same => written.scalars key w (by rw [isCell, same])) enough positive
        change Action.Wp (materializePlain env room (some v) >>= _) s' _ _
        rw [Action.wp_bind]
        apply materialized.mono
        · rintro w s'' ⟨kept', copied⟩
          have copying' : Copying env m s'' done out := by
            refine ⟨fun other => ?_, copying.others⟩
            have old := copying.keys other
            split at old
            · rename_i inside
              rw [if_pos inside]
              exact old.grown kept'.grown
            · rename_i outside
              rw [if_neg outside]
              exact old
          refine ⟨kept.trans kept', copying'.put ?_⟩
          rw [isCell]
          exact copied
        · rintro s'' ⟨child, rfl, unreadable⟩
          exact ⟨key, child, isCell, unreadable⟩
  · rw [if_neg List.not_mem_nil]
    rfl

theorem Mapped.table (written : Mapped env forest t d place m s) {room : Nat}
    (at_ : At forest d place) (object : place.node.kind? = some .obj)
    (enough : place.node.depth < room) :
    Action.Wp (materialize env room false (some (.table t))) s
      (fun v s' => ∃ r p, v = some (.table r) ∧ s'.plain? r = some p ∧ p.emptyArray = false ∧
        (∀ key, Copied env s' (m.lookup key) (p.entries.lookup (.str key))) ∧
        ∀ k, (∀ key, k ≠ .str key) → p.entries.lookup k = none)
      fun _ => ∃ key child, m.lookup key = some (.member child) ∧
        ¬ Readable env child.place.node := by
  obtain ⟨cache, o, here, keys, holds⟩ := written.here
  obtain ⟨n, rfl⟩ := Nat.exists_eq_succ_of_ne_zero (Nat.ne_of_gt (Nat.zero_lt_of_lt enough))
  change Action.Wp (materializePlain env (n + 1) (some (.table t))) s _ _
  rw [materializePlain, Action.wp_bind, Action.wp_get]
  simp only [here]
  rw [Action.wp_bind, materializePlainProxy]
  change Action.Wp (ensureObjectOrderState env t _ >>= _) s _ _
  rw [Action.wp_bind]
  unfold Action.Wp
  rw [ensureObjectOrderState_of_order rfl]
  change Action.Wp (materializeOrdered (materializePlain env n) o >>= newPlain env .obj) s _ _
  rw [Action.wp_bind]
  apply (written.copying at_ object (Nat.le_of_lt_succ enough) keys holds).mono
  · rintro out s' ⟨-, copying⟩
    have adds : Adds [.plain ⟨out, false, none, none⟩] s' { s' with
        tables := s'.tables ++ [.plain ⟨out, false, none, none⟩] } := ⟨rfl, rfl, rfl, rfl, rfl⟩
    have grown : Grown env forest s' _ := grown_added adds
    rw [newPlain, Action.wp_bind]
    refine ⟨s'.tables.length, ⟨out, false, none, none⟩, rfl, ?_, rfl, fun key => ?_,
      copying.others⟩
    · rw [plain?_eq_some, getElem?_added rfl, if_pos rfl]
      have noArray : decide (Kind.obj = Kind.arr ∧ env.length out = 0) = false :=
        decide_eq_false fun both => by cases both.1
      rw [noArray]
    · have old := copying.keys key
      split at old
      · exact old.grown grown
      · rename_i outside
        rw [AList.lookup_eq_none.2 outside, old]
        exact rfl
  · exact fun _ => id

theorem encodeAt_scalar {w : Value F} (scalar : w.IsScalar) (room : Nat) (active : List Nat)
    (s : State F) : encodeAt env room active (some w) s = (scalarText env s.settings w, s) := by
  have value {room : Nat} {children : List Nat → Option (Value F) → Act F Bytes} :
      encodeValue env room children active (some w) s = (scalarText env s.settings w, s) := by
    cases w with
    | table r => exact scalar.elim
    | foreign x => exact scalar.elim
    | num x =>
        rw [encodeValue, encodeNumber, Action.get_bind, scalarText]
        split
        · rfl
        · split <;> rfl
    | _ => rfl
  cases room with
  | zero => exact value
  | succ room => exact value

theorem IsLeaf.isScalar {node : Tree} {w : Value F} (leaf : IsLeaf env node w) : w.IsScalar := by
  cases w with
  | table r => exact absurd rfl (leaf.not_table r)
  | foreign x =>
      cases node with
      | scalar token =>
          rw [IsLeaf] at leaf
          rcases leaf with ⟨-, clash⟩ | ⟨-, clash⟩ | ⟨-, clash⟩ | ⟨-, x, -, clash⟩ <;> cases clash
      | str body => cases leaf
      | _ => exact leaf.elim
  | _ => trivial

theorem exists_spelled (wf : Wf forest s) (at_ : At forest d place) {cell : Cell F} {v : Value F}
    (holds : Holds env s t d (some cell) (some v))
    (inside : ∀ child, cell = .member child → child ∈ place.children)
    (scalar : ∀ w, cell = .assigned w → w.IsScalar) :
    ∃ text, Spelled env s.settings (some cell) text ∧
      ∀ room, encodeAt env room [t] (some v) s = (text, s) := by
  cases cell with
  | assigned w =>
      obtain rfl := Option.some.inj holds
      exact ⟨_, rfl, fun room => encodeAt_scalar (scalar v rfl) room _ s⟩
  | member child =>
      obtain ⟨i, here⟩ := List.getElem?_of_mem (inside child rfl)
      have yields : Yields env s t d child.place (some v) := holds
      unfold Yields at yields
      cases isKind : child.place.node.kind? with
      | none =>
          rw [isKind] at yields
          obtain ⟨w, same, leaf⟩ := yields
          obtain rfl := Option.some.inj same
          refine ⟨scalarText env s.settings v, ?_, fun room =>
            encodeAt_scalar leaf.isScalar room _ s⟩
          rw [Spelled, isKind]
          exact ⟨v, leaf, rfl⟩
      | some kind =>
          rw [isKind] at yields
          obtain ⟨r, same, proxy⟩ := yields
          obtain rfl := Option.some.inj same
          obtain ⟨doc, -, tree, start, path, docAt, -, -, found, rep, -⟩ :=
            wf.library.doc (at_.child here)
          obtain ⟨place', ok⟩ := wf.proxy proxy
          have newer : t < r := ok.parent t rfl
          have apart : r ∉ [t] := fun clash =>
            Nat.ne_of_gt newer (List.mem_singleton.1 clash)
          have token : sub doc.buf child.place.pos
              (child.place.pos + child.place.node.render.length) = child.place.node.render := by
            rw [sub, Nat.add_sub_cancel_left]
            exact token_of_locate rep found
          refine ⟨.ok child.place.node.render, ?_, fun room => ?_⟩
          · rw [Spelled, isKind]
          · rw [encodeAt_clean apart proxy rfl docAt]
            exact congrArg (fun text => (Except.ok text, s)) token

/-- An entry of the order state is written as a text. -/
def Writes (env : Env F) (s : State F) (o : Order F) (m : Map Bytes (Cell F))
    (recur : Option (Value F) → Act F Bytes) (key : Bytes) (text : Except LuaError Bytes) : Prop :=
  ∃ v, o.values.lookup key = some v ∧ Spelled env s.settings (m.lookup key) text ∧
    recur (some v) s = (text, s)

theorem walkMembers {recur : Option (Value F) → Act F Bytes} {keys : List Bytes}
    {texts : List (Except LuaError Bytes)}
    (all : List.Forall₂ (Writes env s o m recur) keys texts)
    {body : List Bytes → Bytes → Act F (List Bytes)}
    (writes : ∀ parts key v, o.values.lookup key = some v →
      body parts key = recur (some v) >>= fun text => pure (parts ++ [member key text]))
    (parts : List Bytes) :
    (keys.foldlM body parts : Act F (List Bytes)) s =
      ((memberTexts keys texts).map (parts ++ ·), s) := by
  induction all generalizing parts with
  | nil => exact congrArg (fun all => (Except.ok all, s)) (List.append_nil parts).symm
  | @cons key text keys texts here later ih =>
      obtain ⟨v, value, -, ran⟩ := here
      rw [List.foldlM_cons]
      cases text with
      | error error =>
          have step : body parts key s = (.error error, s) := by
            rw [writes parts key v value, Action.bind_of_error ran]
          rw [Action.bind_of_error step]
          rfl
      | ok text =>
          have step : body parts key s = (.ok (parts ++ [member key text]), s) := by
            rw [writes parts key v value, Action.bind_of_ok ran]
            rfl
          rw [Action.bind_of_ok step, ih]
          refine Prod.ext ?_ rfl
          change (memberTexts keys texts).map _ = Except.map _ (do
            let rest ← memberTexts keys texts
            return member key text :: rest)
          cases memberTexts keys texts with
          | error error => rfl
          | ok rest => exact congrArg Except.ok (List.append_assoc parts [member key text] rest)

theorem Mapped.writes (written : Mapped env forest t d place m s) (at_ : At forest d place)
    (holds : ∀ key, Holds env s t d (m.lookup key) (o.values.lookup key)) (room : Nat)
    {keys : List Bytes} (inside : ∀ key ∈ keys, key ∈ m.keys) :
    ∃ texts, List.Forall₂ (Writes env s o m (encodeAt env room [t])) keys texts := by
  induction keys with
  | nil => exact ⟨[], .nil⟩
  | cons key keys ih =>
      obtain ⟨texts, all⟩ := ih fun key member => inside key (List.mem_cons_of_mem _ member)
      obtain ⟨cell, isCell⟩ :=
        Option.isSome_iff_exists.1 (AList.lookup_isSome.2 (inside key List.mem_cons_self))
      have holds := holds key
      rw [isCell] at holds
      cases value : o.values.lookup key with
      | none =>
          rw [value] at holds
          cases holds.none_iff.2 rfl
      | some v =>
          rw [value] at holds
          obtain ⟨text, spelled, ran⟩ := exists_spelled written.wf at_ holds
            (fun child same => written.inside key child (by rw [isCell, same]))
            (fun w same => written.scalars key w (by rw [isCell, same]))
          refine ⟨text :: texts, .cons ⟨v, value, ?_, ran room⟩ all⟩
          rw [isCell]
          exact spelled

theorem Mapped.text (written : Mapped env forest t d place m s) (at_ : At forest d place) :
    ∃ texts, List.Forall₂ (fun key text => Spelled env s.settings (m.lookup key) text)
      m.keys texts ∧ (encode env (some (.table t)) s).1 = objectText m.keys texts := by
  obtain ⟨cache, o, here, keys, holds⟩ := written.here
  obtain ⟨texts, all⟩ := written.writes at_ holds 999 fun _ => id
  refine ⟨texts, all.imp fun key text writes => ?_, ?_⟩
  · obtain ⟨v, -, spelled, -⟩ := writes
    exact spelled
  · have walked : encodeLazyObjectWalking env 1000 (encodeAt env 999 [t]) t
        { rootView d place cache with dirty := true, order := some o } s =
          ((memberTexts m.keys texts).map (bracketed .obj), s) := by
      rw [encodeLazyObjectWalking, guarded, if_neg (by decide),
        Action.bind_of_ok (ensureObjectOrderState_of_order rfl), Action.bind_apply, keys,
        walkMembers all]
      · cases memberTexts m.keys texts <;> rfl
      · intro parts key v value
        simp only [value]
    have whole : encodeAt env encodeMaxDepth [] (some (.table t)) s =
        ((memberTexts m.keys texts).map (bracketed .obj), s) := by
      change encodeValue env 1000 (encodeAt env 999) [] (some (.table t)) s = _
      rw [encodeValue, if_neg List.not_mem_nil, Action.get_bind, proxy?_eq_some.1 here]
      exact walked
    rw [encode, Action.bind_apply, whole, objectText]
    cases memberTexts m.keys texts with
    | error error => rfl
    | ok parts =>
        change ((if luaMaxString < (bracketed .obj parts).length then
            Action.raise (.runtime "not enough memory")
          else pure (bracketed .obj parts) : Act F Bytes) s).1 =
            if luaMaxString < (bracketed .obj parts).length then
              throw (.runtime "not enough memory")
            else pure (bracketed .obj parts)
        split <;> rfl

end Shows

/-! ## Whole runs -/

/-- On an accepted object whose own numbers can be read, behind a program of reads and
assignments with at least one assignment, in which no read in front of the first assignment
puts into the cache what belongs to another member, the object shows the ordered map that the
program makes of its members. -/
theorem written_object_shows_map {F : Type} [DecidableEq F] (env : Env F) {s : State F}
    (session : Session env (fun s op => op.Proper s) s) {text : Bytes}
    (short : text.length ≤ luaMaxString) {document : Document}
    (parsed : parseWithOptions (dispatch env.scanner env.strings) text Options.default =
      .ok document) {tree : Tree} (parses : tree.Parses text) (object : tree.kind? = some .obj)
    (legible : ∀ entry ∈ tree.children, ¬ Unreadable env entry.value) {room : Nat}
    (enough : tree.depth < room) :
    ∃ start s', Stands document tree start ∧
      decode env text s = (.ok (some (.table s.tables.length)), s') ∧
      ∀ program : List (Command F), (∀ c ∈ program, c.Allowed) →
        Careful env (rootPlace tree start).children program →
        (∃ key v, .assign key v ∈ program) →
        ShowsMap env (runCommands env s.tables.length program s') s.tables.length s.docs.length
          room (program.foldl Command.apply (members (rootPlace tree start).children)) := by
  obtain ⟨forest, wf⟩ := session.wf fun _ _ proper => proper
  have small : text.length < u32Max := Nat.lt_of_le_of_lt short (by decide)
  obtain ⟨start, stands⟩ := stands_of_parse env.scanner env.strings small parsed parses
  obtain ⟨s', ran, rooted⟩ := decode_container wf parsed stands object
  refine ⟨start, s', stands, ran, fun program allowed careful assigns => ?_⟩
  have isObject : (rootPlace tree start).node.kind? = some .obj := object
  have unwritten : Unwritten env _ s.tables.length s.docs.length (rootPlace tree start) ∅ s' :=
    ⟨⟨rooted.wf, rooted.here⟩, fun key v none_ => by cases none_⟩
  have written := unwritten.run rooted.at_ isObject (legible_iff.2 legible) allowed careful assigns
  exact ⟨fun n => written.pairs, written.len,
    written.table rooted.at_ isObject enough, written.text rooted.at_⟩

/-- `{"b":[true],"a":1,"c":{"d":2},"a":3}` and its parse tree. -/
def shuffledText : Bytes :=
  [0x7B, 0x22, 0x62, 0x22, 0x3A, 0x5B, 0x74, 0x72, 0x75, 0x65, 0x5D, 0x2C, 0x22, 0x61, 0x22,
    0x3A, 0x31, 0x2C, 0x22, 0x63, 0x22, 0x3A, 0x7B, 0x22, 0x64, 0x22, 0x3A, 0x32, 0x7D, 0x2C,
    0x22, 0x61, 0x22, 0x3A, 0x33, 0x7D]
@[inherit_doc shuffledText] def shuffledTree : Tree :=
  .node .obj (.more (some ⟨[], [0x62], []⟩) [] (.node .arr (.last none [] (.scalar litTrue) [])) []
    (.more (some ⟨[], [0x61], []⟩) [] (.scalar [0x31]) []
      (.more (some ⟨[], [0x63], []⟩) []
        (.node .obj (.last (some ⟨[], [0x64], []⟩) [] (.scalar [0x32]) [])) []
        (.last (some ⟨[], [0x61], []⟩) [] (.scalar [0x33]) []))))

/-- `t.c` is read, `t.b` deleted, `t.a` overwritten and read, and `t.b` assigned again. -/
def shuffledProgram : List (Command Nat) :=
  [.read [0x63], .assign [0x62] none, .assign [0x61] (some (.num 5)), .read [0x61],
    .assign [0x62] (some (.bool true))]

theorem shuffledTree_parses : shuffledTree.Parses shuffledText := by
  have blank : IsBlank [] := by simp
  have a : IsBody [0x61] :=
    @IsBody.cons [0x61] _ (.plain (by decide) (by decide) (by decide)) (by decide) .nil
  have b : IsBody [0x62] :=
    @IsBody.cons [0x62] _ (.plain (by decide) (by decide) (by decide)) (by decide) .nil
  have c : IsBody [0x63] :=
    @IsBody.cons [0x63] _ (.plain (by decide) (by decide) (by decide)) (by decide) .nil
  have d : IsBody [0x64] :=
    @IsBody.cons [0x64] _ (.plain (by decide) (by decide) (by decide)) (by decide) .nil
  have digit (b : UInt8) (number : validateNumber [b] = .ok ()) : IsScalar [b] :=
    .number ((validateNumber_ok_iff _).1 number)
  exact ⟨⟨⟨blank, b, blank⟩, blank, ⟨trivial, blank, .true, blank⟩, blank,
    ⟨blank, a, blank⟩, blank, digit 0x31 (by decide), blank,
    ⟨blank, c, blank⟩, blank, ⟨⟨blank, d, blank⟩, blank, digit 0x32 (by decide), blank⟩, blank,
    ⟨blank, a, blank⟩, blank, digit 0x33 (by decide), blank⟩, [], [], blank, blank, rfl⟩

theorem shuffledTree_legible :
    ∀ entry ∈ shuffledTree.children, ¬ Unreadable natEnv entry.value := by
  have digit (b : UInt8) (x : Nat) (read : parseF64 natEnv.std [b] false = .ok x) :
      ¬ Unreadable natEnv (.scalar [b]) := by
    rintro ⟨token, same, -, refused⟩
    obtain rfl := Tree.scalar.inj same
    exact refused x read
  have container (kind : Kind) (entries : Entries) :
      ¬ Unreadable natEnv (.node kind entries) := by
    rintro ⟨token, clash, -⟩
    cases clash
  intro entry member
  change entry ∈ [_, _, _, _] at member
  simp only [List.mem_cons, List.not_mem_nil, or_false] at member
  rcases member with rfl | rfl | rfl | rfl
  · exact container _ _
  · exact digit 0x31 1 (by decide +kernel)
  · exact container _ _
  · exact digit 0x33 3 (by decide +kernel)

theorem shuffledText_facts :
    parseWithOptions (dispatch natEnv.scanner natEnv.strings) shuffledText Options.default =
      .ok ⟨shuffledText, [0, 1, 3, 4, 5, 10, 11, 12, 14, 15, 17, 18, 20, 21, 22, 23, 25, 26, 28,
        29, 30, 32, 33, 35, u32Max], true⟩ ∧
    ∀ key ∈ [[0x61], [0x62], [0x63]], key ∉ rawFields := by
  decide +kernel

/-- What the program makes of the members: `a` has its first place and `b` the last one. -/
theorem shuffled_map (start : Nat) :
    (shuffledProgram.foldl Command.apply (members (rootPlace shuffledTree start).children)).keys =
      [[0x61], [0x63], [0x62]] := by
  rfl

theorem shuffled_careful (start : Nat) :
    Careful natEnv (rootPlace shuffledTree start).children shuffledProgram := by
  refine ⟨fun first spelled _ _ => ?_, trivial⟩
  rw [← spelled]
  rfl


theorem shuffled_allowed : ∀ c ∈ shuffledProgram, c.Allowed := by
  obtain ⟨-, other⟩ := shuffledText_facts
  have scalar (v : Value Nat) (isScalar : v.IsScalar) : ∀ w, some v = some w → w.IsScalar := by
    intro w same
    obtain rfl := Option.some.inj same
    exact isScalar
  intro c member
  simp only [shuffledProgram, List.mem_cons, List.not_mem_nil, or_false] at member
  rcases member with rfl | rfl | rfl | rfl | rfl
  · trivial
  · exact ⟨other _ (by simp), fun w none_ => by cases none_⟩
  · exact ⟨other _ (by simp), scalar _ trivial⟩
  · trivial
  · exact ⟨other _ (by simp), scalar _ trivial⟩

/-- The object shows `a`, `c` and `b`. -/
theorem written_object_shows_map_shuffled :
    ∃ start s', Stands ⟨shuffledText, [0, 1, 3, 4, 5, 10, 11, 12, 14, 15, 17, 18, 20, 21, 22, 23,
        25, 26, 28, 29, 30, 32, 33, 35, u32Max], true⟩ shuffledTree start ∧
      decode natEnv shuffledText (State.start Nat) = (.ok (some (.table 0)), s') ∧
      ∃ m : Map Bytes (Cell Nat), m.keys = [[0x61], [0x63], [0x62]] ∧
        ShowsMap natEnv (runCommands natEnv 0 shuffledProgram s') 0 0 3 m := by
  obtain ⟨parsed, -⟩ := shuffledText_facts
  obtain ⟨start, s', stands, ran, shows⟩ := written_object_shows_map natEnv .start (by decide)
    parsed shuffledTree_parses rfl shuffledTree_legible (by decide : shuffledTree.depth < 3)
  exact ⟨start, s', stands, ran, _, shuffled_map start, shows shuffledProgram shuffled_allowed
    (shuffled_careful start) ⟨[0x62], none, by simp [shuffledProgram]⟩⟩

/-- `{"\/":{},"\\/":5}` and its parse tree. -/
def slashText : Bytes :=
  [0x7B, 0x22, 0x5C, 0x2F, 0x22, 0x3A, 0x7B, 0x7D, 0x2C, 0x22, 0x5C, 0x5C, 0x2F, 0x22, 0x3A,
    0x35, 0x7D]
@[inherit_doc slashText] def slashTree : Tree :=
  .node .obj (.more (some ⟨[], [0x5C, 0x2F], []⟩) [] (.empty .obj []) []
    (.last (some ⟨[], [0x5C, 0x5C, 0x2F], []⟩) [] (.scalar [0x35]) []))

/-- `t["\\/"]` is read, then `t.z = 1`. -/
def slashProgram : List (Command Nat) := [.read [0x5C, 0x2F], .assign [0x7A] (some (.num 1))]

theorem slashTree_parses : slashTree.Parses slashText := by
  have blank : IsBlank [] := by simp
  have slash : IsBody [0x5C, 0x2F] :=
    @IsBody.cons [0x5C, 0x2F] _ (.escape (by decide)) (by decide) .nil
  have both : IsBody [0x5C, 0x5C, 0x2F] :=
    @IsBody.cons [0x5C, 0x5C] _ (.escape (by decide)) (by decide)
      (@IsBody.cons [0x2F] _ (.plain (by decide) (by decide) (by decide)) (by decide) .nil)
  have five : IsNumber [0x35] := (validateNumber_ok_iff _).1 (by decide)
  exact ⟨⟨⟨blank, slash, blank⟩, blank, blank, blank, ⟨blank, both, blank⟩, blank,
    .number five, blank⟩, [], [], blank, blank, rfl⟩

/-- The text is accepted, and a loop behind the program yields a table for the number. -/
theorem slashText_facts :
    parseWithOptions (dispatch natEnv.scanner natEnv.strings) slashText Options.default =
      .ok ⟨slashText, [0, 1, 4, 5, 6, 7, 8, 9, 13, 14, 16, u32Max], true⟩ ∧
    [0x7A] ∉ rawFields ∧ bodyText [0x5C, 0x2F] = [0x2F] ∧
    bodyText [0x5C, 0x5C, 0x2F] = [0x5C, 0x2F] ∧
    (pairsEntries natEnv 0 4 (runCommands natEnv 0 slashProgram
      (decode natEnv slashText (State.start Nat)).2)).1 =
      .ok [([0x2F], some (.table 2)), ([0x5C, 0x2F], some (.table 1)),
        ([0x7A], some (.num 1))] := by
  decide +kernel

/-- The map that the program should show has the second member under the key it read. -/
theorem slash_map (start : Nat) :
    (slashProgram.foldl Command.apply (members (rootPlace slashTree start).children)).keys =
      [[0x2F], [0x5C, 0x2F], [0x7A]] ∧
    ∃ child, (slashProgram.foldl Command.apply
      (members (rootPlace slashTree start).children)).lookup [0x5C, 0x2F] =
        some (.member child) ∧ child.place.node = .scalar [0x35] := by
  obtain ⟨-, -, decodedFirst, decoded, -⟩ := slashText_facts
  have children : ∃ first second : Child,
      (rootPlace slashTree start).children = [first] ++ [second] ∧
        first.entry = ⟨some ⟨[], [0x5C, 0x2F], []⟩, [], .empty .obj [], []⟩ ∧
        second.entry = ⟨some ⟨[], [0x5C, 0x5C, 0x2F], []⟩, [], .scalar [0x35], []⟩ :=
    ⟨_, _, rfl, rfl, rfl⟩
  obtain ⟨first, second, children, entryFirst, entry⟩ := children
  have keyFirst : keyText first = [0x2F] := by
    rw [keyText, entryFirst]
    exact decodedFirst
  have key : keyText second = [0x5C, 0x2F] := by
    rw [keyText, entry]
    exact decoded
  have map : slashProgram.foldl Command.apply (members (rootPlace slashTree start).children) =
      (Command.assign [0x7A] (some (.num 1))).apply ((members ([first] ++ [second]))) := by
    rw [children]
    rfl
  rw [map]
  refine ⟨?_, second, ?_, ?_⟩
  · rw [Command.apply, OrderedMap.keys_assign, keys_members, List.map_append, List.map_singleton,
      List.map_singleton, keyFirst, key]
    decide
  · rw [lookup_apply, if_neg (by decide), lookup_members, lastUnder_concat, if_pos key]
    rfl
  · rw [Child.place, entry]

/-- Behind the program, a loop yields the first member under the key of the second. -/
theorem not_forall_showsMap :
    ¬ ∀ (s : State Nat) (text : Bytes) (document : Document) (tree : Tree) (room start : Nat)
        (s' : State Nat), Session natEnv (fun s op => op.Proper s) s →
      text.length ≤ luaMaxString →
      parseWithOptions (dispatch natEnv.scanner natEnv.strings) text Options.default =
        .ok document →
      tree.Parses text → tree.kind? = some .obj → tree.depth < room →
      Stands document tree start →
      decode natEnv text s = (.ok (some (.table s.tables.length)), s') →
      ∀ program : List (Command Nat), (∀ c ∈ program, c.Allowed) →
        (∃ key v, .assign key v ∈ program) →
        ShowsMap natEnv (runCommands natEnv s.tables.length program s') s.tables.length
          s.docs.length room
          (program.foldl Command.apply (members (rootPlace tree start).children)) := by
  intro claim
  obtain ⟨parsed, other, -, -, loops⟩ := slashText_facts
  obtain ⟨start, stands⟩ := stands_of_parse natEnv.scanner natEnv.strings (by decide) parsed
    slashTree_parses
  have decodes : ∃ s', decode natEnv slashText (State.start Nat) =
      (.ok (some (.table 0)), s') ∧ _ := decode_container wf_start parsed stands rfl
  obtain ⟨s', ran, -⟩ := decodes
  have allowed : ∀ c ∈ slashProgram, c.Allowed := by
    intro c member
    rcases List.mem_cons.1 member with rfl | member
    · exact trivial
    · obtain rfl := List.mem_singleton.1 member
      refine ⟨other, fun w same => ?_⟩
      obtain rfl := Option.some.inj same
      exact trivial
  have shows := claim (State.start Nat) slashText _ slashTree 3 start s' .start (by decide) parsed
    slashTree_parses rfl (by decide) stands ran slashProgram allowed
    ⟨_, _, List.mem_cons_of_mem _ (List.mem_singleton_self _)⟩
  obtain ⟨keys, child, isMember, node⟩ := slash_map start
  have loop := shows.pairs 4 (by rw [keys]; decide)
  rw [ran] at loops
  rcases looped : pairsEntries natEnv 0 4 (runCommands natEnv 0 slashProgram s') with ⟨result, u⟩
  rw [looped] at loops
  obtain rfl : result = .ok _ := loops
  obtain ⟨-, holds⟩ := loop.returned looped
  have wrong := holds ([0x5C, 0x2F], some (.table 1))
    (List.mem_cons_of_mem _ (List.mem_cons_self ..))
  rw [isMember] at wrong
  change Yields natEnv u 0 0 child.place (some (.table 1)) at wrong
  unfold Yields at wrong
  rw [node] at wrong
  obtain ⟨w, same, leaf⟩ := wrong
  obtain rfl := Option.some.inj same
  exact leaf.not_table 1 rfl

end QJson.Table

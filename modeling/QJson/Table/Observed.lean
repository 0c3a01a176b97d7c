import QJson.Table.Cycles
import QJson.Table.Shifted

/-!
# Observing two heaps

Reads, lengths and encoded texts of values that both heaps have are the same, up to the
references to tables that are created on the way; an error in the one is the same error in
the other.
-/

namespace QJson.Table

open Rfc8259 Validate Doc Decode Ffi Lua

/-! ## Reads -/

section Reads

variable {F : Type} [DecidableEq F] {env : Env F} {n d m doc t : Nat} {forest : Forest}
  {place : Place} {q q' : Proxy F}

/-- Nothing, or the cursor of a node. -/
def LeadsTo (forest : Forest) (doc : Nat) (reply : Option (Output F)) : Prop :=
  ∀ output, reply = some output → ∃ below, At forest doc below ∧ output = .cursor below.cursor

omit [DecidableEq F] in
theorem leadsTo_pickNode (at_ : At forest doc place) {seg : PathSeg} {offset : Nat}
    {expected : Option Expected} {reply : Option (Output F)}
    (outcome : answered expected (answerFrom offset (pickNode place seg) fun child =>
      .ok (.node child)) = .ok reply) : LeadsTo forest doc reply := by
  rintro output rfl
  rw [pickNode] at outcome
  cases chosen : select place.node seg with
  | error code =>
      rw [chosen] at outcome
      cases code <;> cases outcome
  | ok i =>
      rw [chosen] at outcome
      cases here : place.children[i]? with
      | none =>
          simp only [here] at outcome
          cases outcome
      | some child =>
          simp only [here] at outcome
          obtain rfl := Option.some.inj (Except.ok.inj outcome)
          exact ⟨child.place, at_.child here, rfl⟩

theorem related_field (at_ : At forest doc place) (expected : Option Expected) (key : Bytes) :
    Action.Related (Shifted (F := F) n d m forest)
      (fun reply reply' => reply' = reply ∧ LeadsTo forest doc reply)
      (access doc expected fun document cache => qjsonCursorField document cache place.cursor key)
      (access doc expected fun document cache =>
        qjsonCursorField document cache place.cursor key) := by
  apply (related_access at_ (replies_field key) expected).mono
  rintro reply _ ⟨rfl, outcome⟩
  exact ⟨rfl, leadsTo_pickNode at_ outcome⟩

omit [DecidableEq F] in
theorem leadsTo_index (at_ : At forest doc place) {i : Nat} {expected : Option Expected}
    {reply : Option (Output F)}
    (outcome : answered expected (if u32Max < i then .error (.invalidArg, noOffset)
      else answerFrom place.pos (pickNode place (.idx i)) fun child => .ok (.node child)) =
        .ok reply) : LeadsTo forest doc reply := by
  split at outcome
  · rintro output rfl
    cases outcome
  · exact leadsTo_pickNode at_ outcome

theorem related_element (at_ : At forest doc place) (expected : Option Expected) (i : Nat) :
    Action.Related (Shifted (F := F) n d m forest)
      (fun reply reply' => reply' = reply ∧ LeadsTo forest doc reply)
      (access doc expected fun document cache => qjsonCursorIndex document cache place.cursor i)
      (access doc expected fun document cache =>
        qjsonCursorIndex document cache place.cursor i) := by
  apply (related_access at_ (replies_index i) expected).mono
  rintro reply _ ⟨rfl, outcome⟩
  exact ⟨rfl, leadsTo_index at_ outcome⟩

theorem isTable_shift (v : Option (Value F)) :
    isTable env (v.map (Value.shift n d)) = isTable env v := by
  cases v with
  | none => rfl
  | some w => cases w <;> rfl

variable (at_ : At forest q.doc place) (cursor : q.cur = place.cursor)
  (same : ProxyShift n d q q')
include at_ cursor same

theorem related_readObjectField (key : Bytes) :
    Action.Related (Shifted n d m forest) (fun v v' => v' = v.map (Value.shift n d))
      (readObjectField env t q key) (readObjectField env (shift n d t) q' key) := by
  have order := same.order
  rw [readObjectField, readObjectField, same.doc, same.cur, cursor, same.childCache key]
  generalize q.order = o at order
  generalize q'.order = o' at order
  cases order with
  | some agree => exact Action.related_pure (agree.values key)
  | none =>
      cases q.childCache.lookup key with
      | some child => exact Action.related_pure rfl
      | none =>
          apply (related_field at_ _ key).bind
          rintro _ reply ⟨rfl, reached⟩
          cases reply with
          | none => exact Action.related_pure rfl
          | some output =>
              obtain ⟨below, there, rfl⟩ := reached output rfl
              apply (related_decodeCursor there t).bind
              rintro v _ rfl
              dsimp only
              rw [isTable_shift]
              split
              · apply (related_setCachedChild t key v).bind
                intro _ _ _
                exact Action.related_pure rfl
              · exact Action.related_pure rfl

theorem related_readArrayIndex (x : F) :
    Action.Related (Shifted n d m forest) (fun v v' => v' = v.map (Value.shift n d))
      (readArrayIndex env t q x) (readArrayIndex env (shift n d t) q' x) := by
  rw [readArrayIndex, readArrayIndex, same.doc, same.cur, cursor]
  split
  · exact Action.related_pure rfl
  · apply (related_element at_ _ _).bind
    rintro _ reply ⟨rfl, reached⟩
    cases reply with
    | none => exact Action.related_pure rfl
    | some output =>
        obtain ⟨below, there, rfl⟩ := reached output rfl
        apply (related_decodeCursor there t).bind
        rintro v _ rfl
        dsimp only
        rw [isTable_shift]
        split
        · apply (related_setElem t _ v).bind
          intro _ _ _
          exact Action.related_pure rfl
        · exact Action.related_pure rfl

omit at_ cursor in
theorem rawget_shift (key : Key F) :
    rawget env t q' key = (rawget env t q key).map (Value.shift n d) := by
  cases key with
  | str name =>
      simp only [rawget, same.parent, same.dirty, same.doc, same.bs, same.be]
      split
      · cases q.parent <;> rfl
      · repeat' split
        all_goals rfl
  | idx i => exact same.elems i
  | _ => rfl

end Reads

section Index

variable {F : Type} [DecidableEq F] {env : Env F} {n d m t : Nat} {forest : Forest}

theorem related_index (old : t < n) (k : Option (Value F)) :
    Action.Related (Shifted n d m forest) (fun v v' => v' = v.map (Value.shift n d))
      (index env t k) (index env t k) := by
  rw [index]
  apply Action.related_get
  intro s s' twins
  have tables := twins.tables t
  rw [shift_of_lt old] at tables
  generalize s.tables[t]? = table at tables
  generalize s'.tables[t]? = table' at tables
  cases tables with
  | none => exact Action.related_raise _
  | plain stays =>
      apply Action.related_pure
      cases toKey env k with
      | none => rfl
      | some key =>
          rename_i p
          change p.entries.lookup key = (p.entries.lookup key).map (Value.shift n d)
          cases here : p.entries.lookup key with
          | none => rfl
          | some v => exact congrArg some (stays key v here).symm
  | @proxy q q' place same at_ cursor kind =>
      have raw : (toKey env k).bind (rawget env t q') =
          ((toKey env k).bind (rawget env t q)).map (Value.shift n d) := by
        cases toKey env k with
        | none => rfl
        | some key => exact rawget_shift same key
      simp only [raw, same.kind]
      cases (toKey env k).bind (rawget env t q) with
      | some v => exact Action.related_pure rfl
      | none =>
          simp only [Option.map_none]
          split
          · rename_i key _
            have read : Action.Related (Shifted n d m forest) _ (readObjectField env t q key) _ :=
              related_readObjectField at_ cursor same key
            rwa [shift_of_lt old] at read
          · rename_i x _
            have read : Action.Related (Shifted n d m forest) _ (readArrayIndex env t q x) _ :=
              related_readArrayIndex at_ cursor same x
            rwa [shift_of_lt old] at read
          · exact Action.related_pure rfl

theorem related_count {doc : Nat} {place : Place} (at_ : At forest doc place) :
    Action.Related (Shifted n d m forest) Eq (do
      match ← getter env doc (some .container) place.cursor .len with
      | some (.count n) => return n
      | _ => return 0) (do
      match ← getter env doc (some .container) place.cursor .len with
      | some (.count n) => return n
      | _ => return 0) := by
  apply (related_getter at_ _ _).bind
  rintro _ reply ⟨rfl, -⟩
  split <;> exact Action.related_pure rfl

theorem related_lazyLen {q q' : Proxy F} {place : Place} (at_ : At forest q.doc place)
    (cursor : q.cur = place.cursor) (same : ProxyShift n d q q') :
    Action.Related (Shifted n d m forest) Eq (lazyLen env q) (lazyLen env q') := by
  have order := same.order
  rw [lazyLen, lazyLen, same.kind, same.doc, same.cur, cursor]
  generalize q.order = o at order
  generalize q'.order = o' at order
  cases order with
  | none => cases q.kind <;> exact related_count at_
  | some agree =>
      cases q.kind with
      | obj => exact Action.related_pure (congrArg List.length agree.keys).symm
      | arr => exact related_count at_

end Index

/-! ## Matching -/

section Matches

variable {F : Type} [DecidableEq F] {env : Env F} {n d m : Nat} {forest : Forest} {p : Plain F}

theorem related_originFullyMatches
    {recur recur' : Option (Record F) → Option (Value F) → Act F Bool}
    (stays : ∀ k v, p.entries.lookup k = some v → v.shift n d = v)
    (step : ∀ record v, v.map (Value.shift n d) = v →
      Action.Related (Shifted n d m forest) Eq (recur record v) (recur' record v))
    (origin : Origin F) :
    Action.Related (Shifted n d m forest) Eq (originFullyMatches env recur p origin)
      (originFullyMatches env recur' p origin) := by
  have entry (k : Key F) : (p.entries.lookup k).map (Value.shift n d) = p.entries.lookup k := by
    cases here : p.entries.lookup k with
    | none => rfl
    | some v => exact congrArg some (stays k v here)
  rw [originFullyMatches, originFullyMatches]
  split
  · rw [originObjectFullyMatches, originObjectFullyMatches]
    split
    · exact Action.related_pure rfl
    · apply (Action.related_allM fun e member => ?_).bind
      · rintro _ same rfl
        exact Action.related_pure rfl
      · apply step
        have here : p.entries.lookup e.1 = some e.2 := mem_order.1 member
        exact here ▸ entry e.1
  · rw [originArrayFullyMatches, originArrayFullyMatches]
    split
    · exact Action.related_pure rfl
    · apply (Action.related_allM fun i _ => step _ _ (entry _)).bind
      rintro _ same rfl
      exact Action.related_pure rfl

theorem related_tableMatches {inner inner' : Plain F → Origin F → Act F Bool}
    (step : ∀ p origin, (∀ k v, p.entries.lookup k = some v → v.shift n d = v) →
      Action.Related (Shifted n d m forest) Eq (inner p origin) (inner' p origin))
    (active : List Nat) {r : Nat} (old : shift n d r = r) (o : Nat) :
    Action.Related (Shifted n d m forest) Eq (tableMatches inner active r o)
      (tableMatches inner' (active.map (shift n d)) r o) := by
  rw [tableMatches, tableMatches]
  have member : r ∈ active.map (shift n d) ↔ r ∈ active := by
    have both : shift n d r ∈ active.map (shift n d) ↔ r ∈ active := mem_map_shift
    rwa [old] at both
  apply Action.related_get
  intro s s' twins
  simp only [member]
  split
  · exact Action.related_raise _
  · have tables := twins.tables r
    rw [old] at tables
    rw [State.plain?, State.plain?, twins.origins]
    generalize s.tables[r]? = table at tables
    generalize s'.tables[r]? = table' at tables
    cases tables with
    | none => exact Action.related_pure rfl
    | proxy _ _ _ _ => exact Action.related_pure rfl
    | plain stays =>
        dsimp only
        split
        · split
          · exact Action.related_pure rfl
          · exact step _ _ stays
        · exact Action.related_pure rfl

omit [DecidableEq F] in
theorem shift_of_table {r : Nat}
    (stays : (some (.table r) : Option (Value F)).map (Value.shift n d) = some (.table r)) :
    shift n d r = r :=
  Value.table.inj (Option.some.inj stays)

theorem related_originRecordMatches (room : Nat) (active : List Nat)
    (record : Option (Record F)) (v : Option (Value F)) (stays : v.map (Value.shift n d) = v) :
    Action.Related (Shifted n d m forest) Eq (originRecordMatches env room active record v)
      (originRecordMatches env room (active.map (shift n d)) record v) := by
  induction room generalizing active record v with
  | zero =>
      rw [originRecordMatches.eq_def, originRecordMatches.eq_def]
      split
      · exact Action.related_pure rfl
      · exact Action.related_pure rfl
      · split
        · exact related_tableMatches (fun _ _ _ => Action.related_raise depthError) _
            (shift_of_table stays) _
        · exact Action.related_pure rfl
  | succ room ih =>
      rw [originRecordMatches.eq_def, originRecordMatches.eq_def]
      split
      · exact Action.related_pure rfl
      · exact Action.related_pure rfl
      · split
        · rename_i active _ _ _ _ o _ r
          apply related_tableMatches (fun p origin stays' => ?_) active (shift_of_table stays) o
          apply related_originFullyMatches stays' (fun record v stays'' => ?_) origin
          have step := ih (r :: active) record v stays''
          rwa [List.map_cons, shift_of_table stays] at step
        · exact Action.related_pure rfl

/-- The question of `encode_object_with_origin` and of its sibling for arrays. -/
theorem related_fullyMatches (room : Nat) (active : List Nat)
    (stays : ∀ k v, p.entries.lookup k = some v → v.shift n d = v) (origin : Origin F) :
    Action.Related (Shifted n d m forest) Eq (fullyMatches env room active p origin)
      (fullyMatches env room (active.map (shift n d)) p origin) :=
  related_originFullyMatches stays (fun record v stays' =>
    related_originRecordMatches (room - 1) active record v stays') origin

end Matches

/-! ## Encoding -/

section Encoding

variable {F : Type} [DecidableEq F] {env : Env F} {n d m t room : Nat} {forest : Forest}
  {recur recur' : Option (Value F) → Act F Bytes} {p : Plain F}

theorem related_guarded {walk walk' : Act F Bytes}
    (walks : Action.Related (Shifted n d m forest) Eq walk walk') :
    Action.Related (Shifted n d m forest) Eq (guarded room walk) (guarded room walk') := by
  rw [guarded, guarded]
  split
  · exact Action.related_raise _
  · exact walks

theorem related_lift {α : Type} (outcome : Except LuaError α) :
    Action.Related (Shifted (F := F) n d m forest) Eq (lift outcome) (lift outcome) := by
  cases outcome with
  | ok v => exact Action.related_pure rfl
  | error error => exact Action.related_raise error

theorem related_encodeNumber (x : F) :
    Action.Related (Shifted n d m forest) Eq (encodeNumber env x) (encodeNumber env x) := by
  rw [encodeNumber]
  apply Action.related_get
  intro s s' twins
  rw [twins.settings]
  split
  · exact Action.related_raise _
  · split <;> exact Action.related_pure rfl

section Plain

variable (step : ∀ v, Action.Related (Shifted n d m forest) Eq (recur v)
    (recur' (v.map (Value.shift n d))))
  (stays : ∀ k v, p.entries.lookup k = some v → v.shift n d = v)
include step

theorem related_stays {v : Option (Value F)} (old : v.map (Value.shift n d) = v) :
    Action.Related (Shifted n d m forest) Eq (recur v) (recur' v) := by
  have same := step v
  rwa [old] at same

include stays

theorem related_entry (k : Key F) :
    Action.Related (Shifted n d m forest) Eq (recur (p.entries.lookup k))
      (recur' (p.entries.lookup k)) := by
  apply related_stays step
  cases here : p.entries.lookup k with
  | none => rfl
  | some v => exact congrArg some (stays k v here)

theorem related_encodeArray (count : Nat) :
    Action.Related (Shifted n d m forest) Eq (encodeArray room recur p count)
      (encodeArray room recur' p count) := by
  apply related_guarded
  apply (Action.related_foldlM ?_ rfl).bind
  · rintro parts _ rfl
    split
    · exact Action.related_raise _
    · exact Action.related_pure rfl
  · rintro i - parts _ rfl
    apply (related_entry step stays _).bind
    rintro text _ rfl
    exact Action.related_pure rfl

theorem related_encodeMembers {entries : List (Key F × Value F)}
    (inside : ∀ e ∈ entries, e ∈ env.order p.entries) (parts : List Bytes) :
    Action.Related (Shifted n d m forest) Eq (encodeMembers env recur entries parts)
      (encodeMembers env recur' entries parts) := by
  apply Action.related_foldlM ?_ rfl
  rintro e member parts _ rfl
  have here : p.entries.lookup e.1 = some e.2 := mem_order.1 (inside e member)
  have same := related_entry step stays e.1
  rw [here] at same
  apply (related_lift _).bind
  rintro key _ rfl
  apply same.bind
  rintro text _ rfl
  exact Action.related_pure rfl

theorem related_encodeObject :
    Action.Related (Shifted n d m forest) Eq (encodeObject env room recur p)
      (encodeObject env room recur' p) := by
  apply related_guarded
  apply (related_encodeMembers step stays (fun _ => id) []).bind
  rintro parts _ rfl
  exact Action.related_pure rfl

theorem related_encodeOriginChild {k : Key F} {v : Value F}
    (here : p.entries.lookup k = some v) (record : Option (Record F)) :
    Action.Related (Shifted n d m forest) Eq (encodeOriginChild recur v record)
      (encodeOriginChild recur' v record) := by
  have same := related_entry step stays k
  rw [here] at same
  rw [encodeOriginChild.eq_def, encodeOriginChild.eq_def]
  split
  · split
    · exact Action.related_pure rfl
    · exact same
  · exact same

theorem related_classified (settings : Settings) :
    Action.Related (Shifted n d m forest) Eq (do
      match ← lift (classifyPlainTable env settings p) with
      | some max => encodeArray room recur p max
      | none => encodeObject env room recur p) (do
      match ← lift (classifyPlainTable env settings p) with
      | some max => encodeArray room recur' p max
      | none => encodeObject env room recur' p) := by
  apply (related_lift _).bind
  rintro class_ _ rfl
  cases class_ with
  | none => exact related_encodeObject step stays
  | some max => exact related_encodeArray step stays max

theorem related_encodeObjectWithOrigin (active : List Nat) (origin : Origin F) :
    Action.Related (Shifted n d m forest) Eq (encodeObjectWithOrigin env room active recur p origin)
      (encodeObjectWithOrigin env room (active.map (shift n d)) recur' p origin) := by
  apply related_guarded
  apply (related_fullyMatches room active stays origin).bind
  rintro same _ rfl
  split
  · exact Action.related_pure rfl
  · have members : Action.Related (Shifted n d m forest) Eq (encodeSourceMembers recur p origin)
        (encodeSourceMembers recur' p origin) := by
      apply Action.related_foldlM ?_ rfl
      rintro key - parts _ rfl
      cases here : p.entries.lookup (.str key) with
      | none => exact Action.related_pure rfl
      | some v =>
          apply (related_encodeOriginChild step stays here _).bind
          rintro text _ rfl
          exact Action.related_pure rfl
    apply members.bind
    rintro parts _ rfl
    apply (related_encodeMembers step stays (fun e member => List.mem_of_mem_filter member)
      parts).bind
    rintro parts _ rfl
    exact Action.related_pure rfl

theorem related_encodeArrayWithOrigin (active : List Nat) (origin : Origin F) :
    Action.Related (Shifted n d m forest) Eq (encodeArrayWithOrigin env room active recur p origin)
      (encodeArrayWithOrigin env room (active.map (shift n d)) recur' p origin) := by
  apply related_guarded
  apply (related_fullyMatches room active stays origin).bind
  rintro same _ rfl
  split
  · exact Action.related_pure rfl
  · apply Action.related_get
    intro s s' twins
    rw [twins.settings]
    exact related_classified step stays s.settings

theorem related_encodePlainTable (active : List Nat) :
    Action.Related (Shifted n d m forest) Eq (encodePlainTable env room active recur p)
      (encodePlainTable env room (active.map (shift n d)) recur' p) := by
  apply Action.related_get
  intro s s' twins
  rw [twins.origins, twins.settings]
  split
  · split
    · exact related_encodeObjectWithOrigin step stays active _
    · exact related_encodeArrayWithOrigin step stays active _
  · split
    · exact related_encodeArray step stays _
    · split
      · exact related_encodeObject step stays
      · exact related_encodeArray step stays _
      · exact related_classified step stays s.settings

end Plain

/-! ### Proxies -/

section Proxies

variable {place : Place} {q q' : Proxy F}

theorem related_orderEntry {doc : Nat} (at_ : At forest doc place) (key : Bytes)
    {acc acc' : Order F} (agree : OrderShift n d acc acc') :
    Action.Related (Shifted n d m forest) (OrderShift n d)
      (orderEntry env t doc acc key place.cursor)
      (orderEntry env (shift n d t) doc acc' key place.cursor) := by
  have put_ (keys : List Bytes) (v : Option (Value F)) :
      OrderShift n d ⟨keys, put acc.values key v⟩
        ⟨keys, put acc'.values key (v.map (Value.shift n d))⟩ :=
    ⟨rfl, lookup_put_shift agree.values key v⟩
  rw [orderEntry, orderEntry, agree.keys]
  split
  · apply (related_decodeCursor at_ t).bind
    rintro v _ rfl
    exact Action.related_pure (put_ acc.keys v)
  · apply (related_cachedChild t key).bind
    rintro cached _ rfl
    cases cached with
    | some child => exact Action.related_pure (put_ _ (some child))
    | none =>
        apply (related_decodeCursor at_ t).bind
        rintro v _ rfl
        exact Action.related_pure (put_ _ v)

theorem related_setOrder {o o' : Order F} (agree : OrderShift n d o o') :
    Action.Related (Shifted n d m forest) Eq
      (Action.modify fun s => s.updateProxy t fun q => { q with order := some o })
      (Action.modify fun s => s.updateProxy (shift n d t) fun q => { q with order := some o' } :
        Act F Unit) := by
  apply Action.related_modify
  intro s s' twins
  apply twins.updateProxy
  · intro q q' same
    exact ⟨same.kind, same.dirty, same.doc, same.cur, same.bs, same.be, same.parent,
      .some agree, same.childCache, same.elems⟩
  · intro q
    exact ⟨rfl, rfl, rfl, rfl, rfl, rfl⟩

variable (at_ : At forest q.doc place) (cursor : q.cur = place.cursor)
  (same : ProxyShift n d q q')
include at_ cursor same

theorem related_ensureObjectOrderState (object : place.node.kind? = some .obj) :
    Action.Related (Shifted n d m forest) (OrderShift n d) (ensureObjectOrderState env t q)
      (ensureObjectOrderState env (shift n d t) q') := by
  have order := same.order
  rw [ensureObjectOrderState, ensureObjectOrderState, same.doc]
  cases ordered : q.order with
  | some o =>
      rw [ordered] at order
      cases ordered' : q'.order with
      | none =>
          rw [ordered'] at order
          cases order
      | some o' =>
          rw [ordered'] at order
          cases order with
          | some agree => exact Action.related_pure agree
  | none =>
      rw [ordered] at order
      cases ordered' : q'.order with
      | some o' =>
          rw [ordered'] at order
          cases order
      | none =>
          have empty : OrderShift n d (⟨[], ∅⟩ : Order F) ⟨[], ∅⟩ := ⟨rfl, fun _ => rfl⟩
          apply (related_forEntries at_ cursor object same ?_ empty).bind
          · intro o o' agree
            apply (related_setOrder agree).bind
            intro _ _ _
            exact Action.related_pure agree
          · intro child member acc acc' agree
            obtain ⟨i, here⟩ := List.getElem?_of_mem member
            exact related_orderEntry (at_.child here) _ agree

variable (step : ∀ v, Action.Related (Shifted n d m forest) Eq (recur v)
    (recur' (v.map (Value.shift n d))))
include step

theorem related_encodeLazyObjectWalking (object : place.node.kind? = some .obj) :
    Action.Related (Shifted n d m forest) Eq (encodeLazyObjectWalking env room recur t q)
      (encodeLazyObjectWalking env room recur' (shift n d t) q') := by
  apply related_guarded
  apply (related_ensureObjectOrderState at_ cursor same object).bind
  intro o o' agree
  rw [agree.keys]
  apply (Action.related_foldlM ?_ rfl).bind
  · rintro parts _ rfl
    exact Action.related_pure rfl
  · rintro k - parts _ rfl
    rw [agree.values k]
    cases o.values.lookup k with
    | none => exact Action.related_pure rfl
    | some v =>
        apply (step (some v)).bind
        rintro text _ rfl
        exact Action.related_pure rfl

omit cursor same in
theorem related_walkElement (parts : List Bytes) (i : Nat) :
    Action.Related (Shifted n d m forest) Eq (do
      match ← access q.doc (some (.type .arr)) fun document cache =>
          qjsonCursorIndex document cache place.cursor i with
      | some (.cursor child) =>
          let v ← match ← rawElem t (i + 1) with
            | some cached => pure (some cached)
            | none => decodeCursor env (some t) q.doc child
          let text ← recur v
          return parts ++ [text]
      | _ => Action.raise (.runtime "no element")) (do
      match ← access q.doc (some (.type .arr)) fun document cache =>
          qjsonCursorIndex document cache place.cursor i with
      | some (.cursor child) =>
          let v ← match ← rawElem (shift n d t) (i + 1) with
            | some cached => pure (some cached)
            | none => decodeCursor env (some (shift n d t)) q.doc child
          let text ← recur' v
          return parts ++ [text]
      | _ => Action.raise (.runtime "no element")) := by
  have texts (v : Option (Value F)) : Action.Related (Shifted n d m forest) Eq
      (recur v >>= fun text => pure (parts ++ [text]))
      (recur' (v.map (Value.shift n d)) >>= fun text => pure (parts ++ [text])) := by
    apply (step v).bind
    rintro text _ rfl
    exact Action.related_pure rfl
  apply (related_element at_ _ i).bind
  rintro _ reply ⟨rfl, reached⟩
  cases reply with
  | none => exact Action.related_raise _
  | some output =>
      obtain ⟨below, there, rfl⟩ := reached output rfl
      apply (related_rawElem t (i + 1)).bind
      rintro cached _ rfl
      cases cached with
      | some v =>
          have found : Action.Related (Shifted n d m forest)
              (fun v v' => v' = v.map (Value.shift n d)) (pure (some v) : Act F (Option (Value F)))
              (pure ((some v).map (Value.shift n d))) := Action.related_pure rfl
          apply found.bind
          rintro v _ rfl
          exact texts v
      | none =>
          apply (related_decodeCursor there t).bind
          rintro v _ rfl
          exact texts v

theorem related_encodeLazyArrayWalking :
    Action.Related (Shifted n d m forest) Eq (encodeLazyArrayWalking env room recur t q)
      (encodeLazyArrayWalking env room recur' (shift n d t) q') := by
  apply related_guarded
  rw [same.doc, same.cur, cursor]
  apply (related_getter at_ _ _).bind
  rintro _ reply ⟨rfl, -⟩
  have whole (parts parts' : List Bytes) (agree : parts = parts') :
      Action.Related (Shifted n d m forest) Eq (pure (bracketed .arr parts) : Act F Bytes)
        (pure (bracketed .arr parts')) :=
    Action.related_pure (congrArg (bracketed .arr) agree)
  dsimp only
  split
  · apply (Action.related_pure rfl).bind
    rintro count _ rfl
    apply (Action.related_foldlM ?_ rfl).bind whole
    rintro i - parts _ rfl
    exact related_walkElement at_ step parts i
  · refine (Action.related_raise _ : Action.Related _ Eq _ _).bind ?_
    rintro count _ rfl
    apply (Action.related_foldlM ?_ rfl).bind whole
    rintro i - parts _ rfl
    exact related_walkElement at_ step parts i

theorem related_encodeProxy (kind : place.node.kind? = some q.kind) :
    Action.Related (Shifted n d m forest) Eq (encodeProxy env room recur t q)
      (encodeProxy env room recur' (shift n d t) q') := by
  rw [encodeProxy, encodeProxy, same.dirty, same.kind, same.doc, same.bs, same.be]
  split
  · have held : Action.Related (Shifted (F := F) n d m forest) Eq (hold q.doc) (hold q.doc) := by
      rw [hold]
      apply Action.related_get
      intro s s' twins
      rw [twins.docs]
      exact Action.related_pure rfl
    apply held.bind
    rintro source _ rfl
    exact Action.related_pure rfl
  · cases isKind : q.kind with
    | obj => exact related_encodeLazyObjectWalking at_ cursor same step (isKind ▸ kind)
    | arr => exact related_encodeLazyArrayWalking at_ cursor same step

end Proxies

theorem related_encodeValue {children children' : List Nat → Option (Value F) → Act F Bytes}
    (step : ∀ active v, Action.Related (Shifted n d m forest) Eq (children active v)
      (children' (active.map (shift n d)) (v.map (Value.shift n d))))
    (active : List Nat) (v : Option (Value F)) :
    Action.Related (Shifted n d m forest) Eq (encodeValue env room children active v)
      (encodeValue env room children' (active.map (shift n d)) (v.map (Value.shift n d))) := by
  cases v with
  | none => exact Action.related_pure rfl
  | some w =>
      cases w with
      | num x => exact related_encodeNumber x
      | foreign value => exact Action.related_raise _
      | table r =>
          simp only [Option.map_some, Value.shift, encodeValue, mem_map_shift]
          split
          · exact Action.related_raise _
          · have below := step (r :: active)
            apply Action.related_get
            intro s s' twins
            have tables := twins.tables r
            generalize s.tables[r]? = table at tables
            generalize s'.tables[shift n d r]? = table' at tables
            cases tables with
            | none => exact Action.related_raise _
            | plain stays => exact related_encodePlainTable below stays (r :: active)
            | proxy same at_ cursor kind => exact related_encodeProxy at_ cursor same below kind
      | _ => exact Action.related_pure rfl

theorem related_encodeAt (active : List Nat) (v : Option (Value F)) :
    Action.Related (Shifted n d m forest) Eq (encodeAt env room active v)
      (encodeAt env room (active.map (shift n d)) (v.map (Value.shift n d))) := by
  induction room generalizing active v with
  | zero => exact related_encodeValue (fun _ _ => Action.related_raise _) active v
  | succ room ih => exact related_encodeValue ih active v

theorem related_encode (v : Option (Value F)) :
    Action.Related (Shifted n d m forest) Eq (encode env v)
      (encode env (v.map (Value.shift n d))) := by
  apply (related_encodeAt [] v).bind
  rintro text _ rfl
  split
  · exact Action.related_raise _
  · exact Action.related_pure rfl

end Encoding

/-! ## Loops -/

section Loops

variable {F : Type} [DecidableEq F] {env : Env F} {n d m t loop : Nat} {forest : Forest}
  {s s' : State F} {q q' : Proxy F} {place : Place}

theorem sameEnd_objectPairs (twins : Shifted n d m forest s s') (old : t < n)
    (here : s.proxy? t = some q) (same : ProxyShift n d q q') (at_ : At forest q.doc place)
    (cursor : q.cur = place.cursor) (object : place.node.kind? = some .obj)
    (kind : q.kind = .obj) :
    Action.SameEnd (Shifted n d m forest) Eq (objectPairs t q s) (objectPairs t q' s') := by
  obtain ⟨u, u', quiet, twins', left, right⟩ :=
    twins.access at_ (replies_iterInit object) (some (.type .obj))
  have starts : newObjectIter q s = (.ok (iterPlace place 0), u) := by
    rw [newObjectIter, cursor, Action.bind_apply, left]
    rfl
  have starts' : newObjectIter q' s' = (.ok (iterPlace place 0), u') := by
    rw [newObjectIter, same.doc, same.cur, cursor, Action.bind_apply, right]
    rfl
  have order := same.order
  rw [objectPairs, objectPairs]
  generalize q.order = o at order
  generalize q'.order = o' at order
  cases order with
  | some agree => exact twins.newLoop (.ordered t 0) old ⟨q, here, kind⟩
  | none =>
      simp only
      rw [Action.bind_of_ok starts, Action.bind_of_ok starts']
      apply twins'.newLoop (.entries t (iterPlace place 0) []) old
      exact ⟨q, place, 0, (proxy?_congr quiet.tables t).trans here, kind, at_, object, rfl⟩

/-- An entry or an element, where `d` tables are put in behind the first `n`. -/
def shiftSecond {α : Type} (n d : Nat) (entry : α × Option (Value F)) : α × Option (Value F) :=
  (entry.1, entry.2.map (Value.shift n d))

theorem sameEnd_lazyObjectIter (twins : Shifted n d m forest s s') (old : t < n)
    (here : s.proxy? t = some q) (same : ProxyShift n d q q') {it : Iter} {seen : List Bytes}
    (ok : LoopOk forest s (.entries t it seen)) :
    Action.SameEnd (Shifted n d m forest) (fun entry entry' => entry' = entry.map (shiftSecond n d))
      (lazyObjectIter env loop t q it seen s) (lazyObjectIter env loop t q' it seen s') := by
  obtain ⟨_, place, k, here', kind, at_, object, rfl⟩ := ok
  obtain rfl := Option.some.inj (here.symm.trans here')
  obtain ⟨u, u', quiet, twins', left, right⟩ :=
    twins.access at_ (replies_iterNext (host_validator env) object k) none
  rw [lazyObjectIter, lazyObjectIter, same.doc, Action.bind_apply, Action.bind_apply, left, right]
  cases child? : place.children[k]? with
  | none => exact ⟨rfl, twins'⟩
  | some child =>
      have decoded : Action.Related (Shifted n d m forest) _
          (decodeCursor env (some t) q.doc child.place.cursor) _ :=
        related_decodeCursor (at_.child child?) t
      have caches (v : Option (Value F)) : Action.Related (Shifted n d m forest) _
          (setCachedChild t (keyText child) v) _ := related_setCachedChild t (keyText child) v
      have cached : Action.Related (Shifted (F := F) n d m forest) _
          (cachedChild t (keyText child)) _ := related_cachedChild t (keyText child)
      simp only [shift_of_lt old] at decoded caches cached
      let next := Loop.entries t (iterPlace place (k + 1)) (keyText child :: seen)
      have begun : LoopOk forest u next :=
        ⟨q, place, k + 1, (proxy?_congr quiet.tables t).trans here, kind, at_, object, rfl⟩
      apply (twins'.setLoop loop next old begun).bind
      intro _ _ _
      split
      · apply (caches none).bind
        intro _ _ _
        apply decoded.bind
        rintro v _ rfl
        exact Action.related_pure rfl
      · apply cached.bind
        rintro v _ rfl
        cases v with
        | some v => exact Action.related_pure rfl
        | none =>
            apply decoded.bind
            rintro v _ rfl
            dsimp only
            rw [isTable_shift]
            split
            · apply (caches v).bind
              intro _ _ _
              exact Action.related_pure rfl
            · exact Action.related_pure rfl

theorem sameEnd_lazyArrayIter (twins : Shifted n d m forest s s') (old : t < n) {i : Nat}
    (ok : LoopOk forest s (.elements t i)) :
    Action.SameEnd (Shifted n d m forest) (fun entry entry' => entry' = entry.map (shiftSecond n d))
      (lazyArrayIter env loop t i s) (lazyArrayIter env loop t i s') := by
  rw [lazyArrayIter, Action.get_bind, Action.get_bind]
  cases here : s.proxy? t with
  | none =>
      have there := twins.no_view here
      rw [shift_of_lt old] at there
      rw [there]
      exact ⟨rfl, twins⟩
  | some q =>
      obtain ⟨q', place, there, same, at_, cursor, -⟩ := twins.view here
      rw [shift_of_lt old] at there
      obtain ⟨u, u', quiet, twins', left, right⟩ :=
        twins.access at_ (replies_index i) (some (.type .arr))
      rw [there]
      simp only [same.doc, same.cur, cursor]
      rw [Action.bind_apply, Action.bind_apply, left, right]
      generalize outcome : answered _ _ = reply
      cases reply with
      | error error => exact ⟨rfl, twins'⟩
      | ok reply =>
          have reached : LeadsTo forest q.doc reply := leadsTo_index (i := i) at_ outcome
          cases reply with
          | none => exact ⟨rfl, twins'⟩
          | some output =>
              obtain ⟨below, there, rfl⟩ := reached output rfl
              have decoded : Action.Related (Shifted n d m forest) _
                  (decodeCursor env (some t) q.doc below.cursor) _ :=
                related_decodeCursor there t
              rw [shift_of_lt old] at decoded
              have begun : LoopOk forest u (.elements t (i + 1)) :=
                ok.later (Later.of_tables quiet.tables)
              apply (twins'.setLoop loop (.elements t (i + 1)) old begun).bind
              intro _ _ _
              apply decoded.bind
              rintro v _ rfl
              exact Action.related_pure rfl

end Loops

/-! ## Observations -/

/-- Reads, lengths and encoded texts of what is among `n` tables, and loops over them that
begin behind the first `m` loops. -/
def Op.Observes {F : Type} (n m : Nat) : Op F → Prop
  | .index t _ | .len t | .pairs t | .ipairs t => t < n
  | .next loop => m ≤ loop
  | .encode v => Held n v
  | _ => False

/-- A reply, where `d` tables are put in behind the first `n`. -/
def Reply.shift {F : Type} (n d : Nat) : Reply F → Reply F
  | .value v => .value (v.map (Value.shift n d))
  | .field key v => .field key (v.map (Value.shift n d))
  | .element i v => .element i (v.map (Value.shift n d))
  | reply => reply

/-- What steps reply, one after the other; errors are caught. -/
def observe {F : Type} [DecidableEq F] (env : Env F) :
    List (Op F) → State F → List (Except LuaError (Reply F))
  | [], _ => []
  | op :: rest, s => (op.run env s).1 :: observe env rest (op.run env s).2

section Observations

variable {F : Type} [DecidableEq F] {env : Env F} {n d m : Nat} {forest : Forest} {s s' : State F}

theorem related_nextRound {loop : Nat} (begun : m ≤ loop) :
    Action.Related (Shifted n d m forest) (fun reply reply' => reply' = reply.shift n d)
      (nextRound env loop) (nextRound env loop) := by
  intro s s' twins
  rw [nextRound, Action.get_bind, Action.get_bind, twins.loops]
  cases here : s.loops[loop]? with
  | none => exact ⟨rfl, twins⟩
  | some state =>
      obtain ⟨old, ok⟩ := twins.begun loop state begun here
      cases state with
      | ordered view i =>
          have proxies := twins.proxy? view
          rw [shift_of_lt old] at proxies
          apply (twins.setLoop loop (.ordered view (i + 1)) old ok).bind
          intro _ _ _
          generalize s.proxy? view = q at proxies
          generalize s'.proxy? view = q' at proxies
          cases proxies with
          | none => exact Action.related_pure rfl
          | @some q q' same =>
              have order := same.order
              simp only [Option.bind_some]
              generalize q.order = o at order
              generalize q'.order = o' at order
              cases order with
              | none => exact Action.related_pure rfl
              | some agree =>
                  simp only [agree.keys]
                  split
                  · exact Action.related_pure rfl
                  · exact Action.related_pure (congrArg _ (agree.values _))
      | entries view it seen =>
          cases at_ : s.proxy? view with
          | none =>
              have there := twins.no_view at_
              rw [shift_of_lt old] at there
              simp only [there, at_]
              exact ⟨rfl, twins⟩
          | some q =>
              obtain ⟨q', -, there, same, -⟩ := twins.view at_
              rw [shift_of_lt old] at there
              simp only [there, at_]
              apply (sameEnd_lazyObjectIter twins old at_ same ok).bind
              rintro entry _ rfl
              cases entry <;> exact Action.related_pure rfl
      | elements view i =>
          apply (sameEnd_lazyArrayIter twins old ok).bind
          rintro entry _ rfl
          cases entry <;> exact Action.related_pure rfl

theorem sameEnd_arrayIpairs (twins : Shifted n d m forest s s') {t : Nat} (old : t < n)
    {q : Proxy F} (here : s.proxy? t = some q) (array : q.kind = .arr) :
    Action.SameEnd (Shifted n d m forest) Eq (arrayIpairs t s) (arrayIpairs t s') := by
  apply twins.newLoop (.elements t 0) old
  refine ⟨lt_of_proxy? here, fun other same => ?_⟩
  obtain rfl := Option.some.inj (here.symm.trans same)
  exact array

theorem related_run {op : Op F} (observes : op.Observes n m) :
    Action.Related (Shifted n d m forest) (fun reply reply' => reply' = reply.shift n d)
      (op.run env) (op.run env) := by
  cases op with
  | index t k =>
      apply (related_index observes k).bind
      rintro v _ rfl
      exact Action.related_pure rfl
  | len t =>
      apply Action.related_get
      intro s s' twins
      have tables := twins.tables t
      rw [shift_of_lt observes] at tables
      generalize s.tables[t]? = table at tables
      generalize s'.tables[t]? = table' at tables
      cases tables with
      | none => exact Action.related_raise _
      | plain _ => exact Action.related_pure rfl
      | proxy same at_ cursor kind =>
          apply (related_lazyLen at_ cursor same).bind
          rintro count _ rfl
          exact Action.related_pure rfl
  | pairs t =>
      intro s s' twins
      rw [Op.run, Action.get_bind, Action.get_bind]
      cases here : s.proxy? t with
      | none =>
          have there := twins.no_view here
          rw [shift_of_lt observes] at there
          rw [there]
          exact ⟨rfl, twins⟩
      | some q =>
          obtain ⟨q', place, there, same, at_, cursor, kind⟩ := twins.view here
          rw [shift_of_lt observes] at there
          simp only [there, same.kind]
          cases isKind : q.kind with
          | obj =>
              rw [isKind] at kind
              apply (sameEnd_objectPairs twins observes here same at_ cursor kind isKind).bind
              rintro loop _ rfl
              exact Action.related_pure rfl
          | arr =>
              apply (sameEnd_arrayIpairs twins observes here isKind).bind
              rintro loop _ rfl
              exact Action.related_pure rfl
  | ipairs t =>
      intro s s' twins
      rw [Op.run, Action.get_bind, Action.get_bind]
      cases here : s.proxy? t with
      | none =>
          have there := twins.no_view here
          rw [shift_of_lt observes] at there
          rw [there]
          exact ⟨rfl, twins⟩
      | some q =>
          obtain ⟨q', place, there, same, -⟩ := twins.view here
          rw [shift_of_lt observes] at there
          simp only [there, same.kind]
          cases isKind : q.kind with
          | obj => exact ⟨rfl, twins⟩
          | arr =>
              apply (sameEnd_arrayIpairs twins observes here isKind).bind
              rintro loop _ rfl
              exact Action.related_pure rfl
  | next loop => exact related_nextRound observes
  | encode v =>
      have texts : Action.Related (Shifted n d m forest) Eq (Table.encode env v) _ :=
        related_encode v
      rw [Held.shift observes] at texts
      apply texts.bind
      rintro text _ rfl
      exact Action.related_pure rfl
  | _ => exact observes.elim

/-- Observations do not tell the two heaps apart. -/
theorem observe_shifted (twins : Shifted n d m forest s s') {ops : List (Op F)}
    (observes : ∀ op ∈ ops, op.Observes n m) :
    observe env ops s' = (observe env ops s).map (Except.map (Reply.shift n d)) := by
  induction ops generalizing s s' with
  | nil => rfl
  | cons op rest ih =>
      have first : Action.Related (Shifted n d m forest) _ (op.run env) (op.run env) :=
        related_run (observes op List.mem_cons_self)
      obtain ⟨reply, twins'⟩ := first.result twins
      rw [observe, observe, List.map_cons, reply]
      exact congrArg _ (ih twins' fun other member =>
        observes other (List.mem_cons_of_mem op member))

end Observations

end QJson.Table

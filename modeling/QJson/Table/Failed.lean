import QJson.Table.Marked
import QJson.Table.Naturals
import QJson.Table.Observed

/-!
# Failed assignments

What an assignment leaves behind that raised on the way through the members of an object, or
of an array that was dirty before: unused proxies that nothing refers to.  No observation
tells the heap from the one in front of the assignment.
-/

namespace QJson.Table

open Rfc8259 Validate Doc Decode Ffi Lua

/-! ## A heap with unused proxies -/

section Unused

variable {F : Type} [DecidableEq F] {forest : Forest} {s s' : State F}

omit [DecidableEq F] in
/-- A proxy that refers to old tables only is its own counterpart. -/
theorem proxyShift_self {n d r : Nat} {q : Proxy F} {place : Place}
    (ok : ProxyOk forest n r q place) (inside : r < n) : ProxyShift n d q q where
  kind := rfl
  dirty := rfl
  doc := rfl
  cur := rfl
  bs := rfl
  be := rfl
  parent := by
    cases isParent : q.parent with
    | none => rfl
    | some p =>
        have older := ok.parent p isParent
        exact congrArg some (shift_of_lt (by omega)).symm
  order := by
    cases ordered : q.order with
    | none => exact .none
    | some o =>
        refine .some ⟨rfl, fun k => ?_⟩
        exact (Held.shift fun v here => ok.order o ordered k v here).symm
  childCache k := (Held.shift fun v here => ok.childCache k v here).symm
  elems i := (Held.shift fun v here => (ok.elems i v here).1).symm

theorem tableShift_self (wf : Wf forest s) (d r : Nat) :
    TableShift s.tables.length d forest s.tables[r]? s.tables[r]? := by
  cases here : s.tables[r]? with
  | none => exact .none
  | some table =>
      have ok := wf.tables r table here
      cases table with
      | plain p => exact .plain fun k v entry => (ok k v entry).2.shift
      | proxy q =>
          obtain ⟨place, ok⟩ := ok
          have inside := (List.getElem?_eq_some_iff.1 here).1
          exact .proxy (proxyShift_self ok inside) ok.at_ ok.cursor ok.kind

/-- A heap to which unused proxies were added. -/
theorem shifted_of_opened (wf : Wf forest s) (opened : Opened forest s s') :
    ∃ d, Shifted s.tables.length d s.loops.length forest s s' := by
  obtain ⟨added, -, adds⟩ := opened.opens
  have length : s'.tables.length = s.tables.length + added.length := by
    rw [adds.tables]
    exact List.length_append
  have tables (r : Nat) : TableShift s.tables.length added.length forest s.tables[r]?
      s'.tables[shift s.tables.length added.length r]? := by
    by_cases inside : r < s.tables.length
    · rw [shift_of_lt inside, adds.tables]
      change TableShift _ _ _ _ (s.tables ++ added)[r]?
      rw [List.getElem?_append_left inside]
      exact tableShift_self wf added.length r
    · have outside := Nat.le_of_not_lt inside
      rw [shift_of_le outside, List.getElem?_eq_none outside, List.getElem?_eq_none]
      · exact .none
      · omega
  refine ⟨added.length, wf.library, opened.wf.library, adds.docs, adds.origins, adds.loops, ?_,
    adds.settings, Nat.le_refl _, length, tables⟩
  intro i loop begun here
  have inside := (List.getElem?_eq_some_iff.1 here).1
  omega

end Unused

/-! ## Failed assignments -/

section Failed

variable {F : Type} [DecidableEq F] {env : Env F} {forest : Forest} {s : State F} {t : Nat}
  {q : Proxy F} {place : Place} {k v : Option (Value F)}

/-- What cannot be read is not among what the walks of the wrapper return. -/
theorem Unreadable.not_yields {d view : Nat} {w : Option (Value F)}
    (unreadable : Unreadable env place.node) : ¬ Yields env s view d place w := by
  intro yields
  have noKind : place.node.kind? = none := by
    obtain ⟨token, node, -⟩ := unreadable
    rw [node]
    rfl
  rw [Yields, noKind] at yields
  obtain ⟨x, -, leaf⟩ := yields
  exact unreadable.not_isLeaf leaf

/-- What the first list has is related to something in the second. -/
theorem forall₂_left {α β : Type} {rel : α → β → Prop} {left : List α} {right : List β}
    (related : List.Forall₂ rel left right) {a : α} (member : a ∈ left) : ∃ b, rel a b := by
  obtain ⟨b, -, here⟩ := forall₂_right related.flip member
  exact ⟨b, here⟩

/-- An assignment to an object that fails opens members. -/
theorem opened_of_failed_object (wf : Wf forest s) (here : s.proxy? t = some q)
    (ok : ProxyOk forest s.tables.length t q place) (object : q.kind = .obj) :
    Action.Wp (newindex env t k v) s (fun _ _ => True) (Opened forest s) := by
  rw [newindex, Action.wp_bind, Action.wp_get, proxy?_eq_some.1 here]
  simp only [object]
  rw [objectNewindex.eq_def]
  split
  · rw [Action.wp_bind]
    cases ordered : q.order with
    | some order =>
        rw [Action.Wp, ensureObjectOrderState_of_order ordered]
        trivial
    | none =>
        have opens : Action.Wp (ensureObjectOrderState env t q) s _ _ :=
          wp_orderState wf here ok object ordered
        apply opens.mono
        · intro order s' _
          trivial
        · intro s' opened
          exact opened
  · exact Opened.refl wf

/-- An assignment to a dirty array that fails to read an element opens elements. -/
theorem opened_of_failed_array (wf : Wf forest s) (marked : MarkedUp s)
    (here : s.proxy? t = some q) (ok : ProxyOk forest s.tables.length t q place)
    (array : q.kind = .arr) (dirty : q.dirty = true) {child : Child}
    (member : child ∈ place.children) (unreadable : Unreadable env child.place.node) :
    Action.Wp (newindex env t k v) s (fun _ _ => True) (Opened forest s) := by
  have walk : Action.Wp (arrayNewindex env t q k v) s (fun _ _ => True) (Opened forest s) := by
    rw [arrayNewindex, Action.wp_bind, Action.wp_modify, marked.markDirty_eq wf here dirty,
      Action.wp_bind]
    apply (wp_materializeArrayContents wf here ok array).mono
    · rintro contents s' ⟨-, yields⟩
      obtain ⟨w, yields⟩ := forall₂_left yields member
      exact absurd yields unreadable.not_yields
    · rintro s' ⟨opened, -⟩
      exact opened
  rw [newindex, Action.wp_bind, Action.wp_get, proxy?_eq_some.1 here]
  simp only [array]
  split
  · split
    · trivial
    · exact walk
  · exact walk
  · rename_i clash
    cases clash

end Failed

/-! ## Whole sessions -/

/-- In every state of a session, behind an assignment that raised, observations of what was
there reply what they would have replied without it: if the assignment was to an object, or
to an array that was dirty before and has an element that cannot be read. -/
theorem failed_newindex_unobserved {F : Type} [DecidableEq F] (env : Env F) {s : State F}
    (session : Session env (fun s op => op.Proper s) s) :
    ∃ forest, Wf forest s ∧ ∀ (t : Nat) (q : Proxy F) (place : Place), s.proxy? t = some q →
      ProxyOk forest s.tables.length t q place →
      ∀ (k v : Option (Value F)) (error : LuaError), (Op.newindex t k v).Proper s →
        (newindex env t k v s).1 = .error error →
        (q.kind = .obj ∨
          q.dirty = true ∧ ∃ child ∈ place.children, Unreadable env child.place.node) →
        ∃ d, ∀ ops : List (Op F), (∀ op ∈ ops, op.Observes s.tables.length s.loops.length) →
          observe env ops (newindex env t k v s).2 =
            (observe env ops s).map (Except.map (Reply.shift s.tables.length d)) := by
  obtain ⟨forest, wf⟩ := session.wf fun _ _ proper => proper
  have marked := session.markedUp fun _ _ proper => proper
  refine ⟨forest, wf, ?_⟩
  intro t q place here ok k v error _ raised safe
  have opens : Action.Wp (newindex env t k v) s (fun _ _ => True) (Opened forest s) := by
    cases kind : q.kind with
    | obj => exact opened_of_failed_object wf here ok kind
    | arr =>
        rcases safe with object | ⟨dirty, child, member, unreadable⟩
        · rw [kind] at object
          cases object
        · exact opened_of_failed_array wf marked here ok kind dirty member unreadable
  have opened : Opened forest s (newindex env t k v s).2 := by
    unfold Action.Wp at opens
    rcases ran : newindex env t k v s with ⟨result, s'⟩
    rw [ran] at opens raised
    cases result with
    | ok _ => cases raised
    | error _ => exact opens
  obtain ⟨d, twins⟩ := shifted_of_opened wf opened
  refine ⟨d, fun ops observes => ?_⟩
  exact observe_shifted twins observes

/-- Reading digits and a decimal exponent, with the range of a double. -/
def scaledFloat : StdFloat Nat where
  fromUtf8 _ := true
  parse text :=
    let digits := decimalValue (text.takeWhile isDigit)
    match text.dropWhile isDigit with
    | [] => some digits
    | 0x65 :: exponent =>
        if exponent.all isDigit then some (digits * 10 ^ decimalValue exponent) else none
    | _ => none
  isFinite n := n < 2 ^ 1024

/-- A Lua with `cjson`, with numbers that are out of range. -/
def scaledEnv : Env Nat := { natEnv with std := scaledFloat }

/-- `{"a":[1e999]}` -/
def hugeText : Bytes :=
  [0x7B, 0x22, 0x61, 0x22, 0x3A, 0x5B, 0x31, 0x65, 0x39, 0x39, 0x39, 0x5D, 0x7D]

/-- `t = decode(text)`, then `a = t.a`. -/
def hugeState : State Nat :=
  ((Op.index 0 (some (.str [0x61]))).run scaledEnv
    ((Op.decode hugeText).run scaledEnv (State.start Nat)).2).2

theorem hugeState_session : Session scaledEnv (fun s op => op.Proper s) hugeState :=
  .step (.step .start (by decide : hugeText.length ≤ luaMaxString)) trivial

/-- `t[1] = 5` and `a[1] = 5` raise, and behind the latter `t` is no longer encoded. -/
theorem hugeState_facts : hugeState.tables.length = 2 ∧
    (hugeState.proxy? 0).map Proxy.kind = some .obj ∧ (hugeState.proxy? 1).isSome = true ∧
    (newindex scaledEnv 0 (some (.num 1)) (some (.num 5)) hugeState).1 =
      .error (.message "qjson: object key must be a string, got number") ∧
    (newindex scaledEnv 1 (some (.num 1)) (some (.num 5)) hugeState).1 =
      .error (.access .numberOutOfRange 6 (some (.type .num))) ∧
    ((Op.encode (some (.table 0))).run scaledEnv hugeState).1.toOption.isSome = true ∧
    ((Op.encode (some (.table 0))).run scaledEnv
      (newindex scaledEnv 1 (some (.num 1)) (some (.num 5)) hugeState).2).1.toOption.isSome =
      false := by
  decide +kernel

theorem proper_num {s : State Nat} (t : Nat) :
    (Op.newindex t (some (.num 1)) (some (.num 5))).Proper s := by
  refine ⟨held_some trivial, held_some trivial, ?_⟩
  rintro - ⟨name, -, clash⟩
  cases Option.some.inj clash

/-- The write of a key that is no string. -/
theorem failed_newindex_unobserved_number :
    ∃ d, ∀ ops : List (Op Nat),
      (∀ op ∈ ops, op.Observes hugeState.tables.length hugeState.loops.length) →
      observe scaledEnv ops
          (newindex scaledEnv 0 (some (.num 1)) (some (.num 5)) hugeState).2 =
        (observe scaledEnv ops hugeState).map
          (Except.map (Reply.shift hugeState.tables.length d)) := by
  obtain ⟨-, object, -, raised, -⟩ := hugeState_facts
  obtain ⟨q, here, kind⟩ := Option.map_eq_some_iff.1 object
  obtain ⟨forest, wf, unobserved⟩ := failed_newindex_unobserved scaledEnv hugeState_session
  obtain ⟨place, ok⟩ := wf.proxy here
  exact unobserved 0 q place here ok _ _ _ (proper_num 0) raised (.inl kind)

/-- Behind `a[1] = 5`, `t` is walked, and the element is not read. -/
theorem not_forall_unobserved :
    ¬ ∀ (s : State Nat) (t : Nat) (k v : Option (Value Nat)) (error : LuaError),
      Session scaledEnv (fun s op => op.Proper s) s → (s.proxy? t).isSome →
      (Op.newindex t k v).Proper s → (newindex scaledEnv t k v s).1 = .error error →
      ∃ d, ∀ ops : List (Op Nat),
        (∀ op ∈ ops, op.Observes s.tables.length s.loops.length) →
        observe scaledEnv ops (newindex scaledEnv t k v s).2 =
          (observe scaledEnv ops s).map (Except.map (Reply.shift s.tables.length d)) := by
  intro claim
  obtain ⟨length, -, proxy, -, raised, before, behind⟩ := hugeState_facts
  obtain ⟨d, unobserved⟩ := claim hugeState 1 _ _ _ hugeState_session proxy (proper_num 1) raised
  have same := unobserved [.encode (some (.table 0))] (by
    intro op member
    obtain rfl := List.mem_singleton.1 member
    rw [length]
    exact held_some Nat.zero_lt_two)
  obtain ⟨reply, -⟩ := List.cons.inj same
  rw [reply] at behind
  generalize ((Op.encode (some (.table 0))).run scaledEnv hugeState).1 = outcome at before behind
  cases outcome with
  | ok _ => cases behind
  | error _ => cases before

end QJson.Table

import QJson.Ffi.Spans
import QJson.Table.Mirrored

/-!
# The fields of a decoded text

A field of a proxy that was just decoded is a raw field of the proxy, or the first member that
is spelled like the key.  Materialization puts the last member there whose decoded key it is.
-/

namespace QJson.Table

open Rfc8259 Validate Doc Decode Ffi Lua

section Statements

variable {F : Type} [DecidableEq F] (env : Env F)

/-- A node of a document. -/
def Standing (s : State F) (d : Nat) (place : Place) : Prop :=
  ∃ doc tree start path, s.docs[d]? = some doc ∧ Stands doc tree start ∧
    (rootPlace tree start).locate path = some place

/-- A value that was read is what materialization returned: the same scalar, or an unused proxy
of a container that the other one renders. -/
def Shows (s : State F) (v w : Option (Value F)) : Prop :=
  match v with
  | some (.table r) => ∃ kind parent d place x, s.proxy? r = some (fresh kind parent d place) ∧
      Standing s d place ∧ w = some x ∧ Renders env s place x
  | _ => w = v

/-- Two nodes with the same content: something renders both. -/
def SameContent (left right : Place) : Prop :=
  ∃ (s : State F) (v : Value F), Renders env s left v ∧ Renders env s right v

/-- Where a proxy that was just decoded finds a field. -/
def freshSource (t : Nat) (q : Proxy F) (children : List Child) (key : Bytes) :
    Option (Source F) :=
  match rawget env t q (.str key) with
  | some v => some (.held v)
  | none => (firstSpelled children key).map .decoded

/-- What is found has the content of a member. -/
def Accords : Option (Source F) → Option Child → Prop
  | source, none => source = none
  | none, some _ => False
  | some (.held v), some child => IsLeaf env child.place.node v
  | some (.decoded first), some child => SameContent env first.place child.place

end Statements

/-! ## Renderings -/

section Renderings

variable {F : Type} [DecidableEq F] {env : Env F} {s s' : State F} {left right place : Place}
  {v w : Value F}

theorem Renders.leaf_iff (leaf : IsLeaf env place.node v) :
    Renders env s place w ↔ w = v := by
  constructor
  · intro renders
    cases renders with
    | leaf other => exact other.unique leaf
    | table isKind _ _ _ _ =>
        rw [leaf.kind?] at isKind
        cases isKind
  · rintro rfl
    exact .leaf leaf

theorem Renders.isLeaf (renders : Renders env s place v) (noTable : ∀ r, v ≠ .table r) :
    IsLeaf env place.node v := by
  cases renders with
  | leaf leaf => exact leaf
  | table _ _ _ _ _ => exact absurd rfl (noTable _)

/-- What has the content of one node renders all nodes with that content. -/
theorem Renders.transfer (renders : Renders env s left v) (same : Renders env s right v)
    (other : Renders env s' right w) : Renders env s' left w := by
  induction renders generalizing right w with
  | leaf leaf =>
      have leaf' := same.isLeaf leaf.not_table
      obtain rfl := (Renders.leaf_iff leaf').1 other
      exact .leaf leaf
  | @table place r p kind isKind plain empty domain below ih =>
      cases same with
      | leaf leaf => exact absurd rfl (leaf.not_table r)
      | @table _ _ p' kind' isKind' plain' empty' domain' below' =>
          obtain rfl := Option.some.inj (plain.symm.trans plain')
          cases other with
          | leaf leaf =>
              rw [leaf.kind?] at isKind'
              cases isKind'
          | @table _ _ p'' kind'' isKind'' plain'' empty'' domain'' below'' =>
              obtain rfl := Option.some.inj (isKind'.symm.trans isKind'')
              have domains (k : Key F) : p''.entries.lookup k = none ↔ p.entries.lookup k = none :=
                (domain'' k).trans (domain' k).symm
              apply Renders.table isKind plain''
              · exact empty''.trans (empty'.symm.trans empty)
              · exact fun k => (domains k).trans (domain k)
              · intro k child x here entry
                cases old : p.entries.lookup k with
                | none =>
                    rw [(domains k).2 old] at entry
                    cases entry
                | some y =>
                    cases there : under kind' right.children k with
                    | none =>
                        rw [(domain' k).2 there] at old
                        cases old
                    | some child' =>
                        apply ih k child y here old
                        · exact below' k child' y there old
                        · exact below'' k child' x there entry

end Renderings

/-! ## What is read and what is materialized -/

section Shown

variable {F : Type} [DecidableEq F] {env : Env F} {forest : Forest} {s : State F} {t d n : Nat}
  {source : Option (Source F)} {v w : Option (Value F)} {children : List Child} {key : Bytes}

theorem At.standing {place : Place} (at_ : At forest d place) (wf : Wf forest s) :
    Standing s d place := by
  obtain ⟨doc, -, tree, start, path, docAt, -, -, found, stands, -⟩ := wf.library.doc at_
  exact ⟨doc, tree, start, path, docAt, stands, found⟩

theorem Standing.at_ {place place' : Place} (standing : Standing s d place) (wf : Wf forest s)
    (at_ : At forest d place') : At forest d place := by
  obtain ⟨doc, tree, start, path, docAt, stands, found⟩ := standing
  obtain ⟨doc', -, tree', start', path', docAt', -, planted, -, stands', -⟩ :=
    wf.library.doc at_
  obtain rfl := Option.some.inj (docAt.symm.trans docAt')
  obtain ⟨rfl, rfl⟩ := Stands.unique stands stands'
  exact ⟨tree, start, path, planted, found⟩

theorem shows_of_not_table {x : Value F} (noTable : ∀ r, x ≠ .table r) :
    Shows env s (some x) w ↔ w = some x := by
  cases x with
  | table r => exact absurd rfl (noTable r)
  | _ => rfl

/-- What is read is what is materialized exactly when the sources have the same content. -/
theorem shows_iff (wf : Wf forest s)
    (stands : ∀ first, source = some (.decoded first) → At forest d first.place)
    (noTable : ∀ x, source = some (.held x) → ∀ r, x ≠ .table r)
    (found : Found env s t d n source v) {last : Option Child}
    (rendered : match last with
      | none => w = none
      | some child => ∃ x, w = some x ∧ Renders env s child.place x) :
    Shows env s v w ↔ Accords env source last := by
  match source with
  | none =>
      obtain rfl := found
      cases last with
      | none => exact iff_of_true rendered rfl
      | some child =>
          obtain ⟨x, rfl, -⟩ := rendered
          exact iff_of_false (fun clash => by cases clash) id
  | some (.held y) =>
      obtain rfl := found
      rw [shows_of_not_table (noTable y rfl)]
      cases last with
      | none =>
          obtain rfl := rendered
          exact iff_of_false (fun clash => by cases clash) fun clash => by cases clash
      | some child =>
          obtain ⟨x, rfl, renders⟩ := rendered
          constructor
          · intro same
            obtain rfl := Option.some.inj same
            exact renders.isLeaf (noTable x rfl)
          · intro leaf
            exact congrArg some ((Renders.leaf_iff leaf).1 renders)
  | some (.decoded first) =>
      rcases found.cases with ⟨y, leaf, rfl⟩ | ⟨kind, r, isKind, rfl, -, here⟩
      · rw [shows_of_not_table leaf.not_table]
        cases last with
        | none =>
            obtain rfl := rendered
            exact iff_of_false (fun clash => by cases clash) fun clash => by cases clash
        | some child =>
            obtain ⟨x, rfl, renders⟩ := rendered
            constructor
            · intro same
              obtain rfl := Option.some.inj same
              exact ⟨s, x, .leaf leaf, renders⟩
            · rintro ⟨s', z, left, right⟩
              obtain rfl := (Renders.leaf_iff leaf).1 left
              have leaf' := right.isLeaf leaf.not_table
              exact congrArg some ((Renders.leaf_iff leaf').1 renders)
      · cases last with
        | none =>
            obtain rfl := rendered
            refine iff_of_false ?_ fun clash => by cases clash
            rintro ⟨_, _, _, _, x, -, -, clash, -⟩
            cases clash
        | some child =>
            obtain ⟨x, rfl, renders⟩ := rendered
            have atFirst := stands first rfl
            constructor
            · rintro ⟨kind', parent, d', place, y, here', standing, same, shown⟩
              obtain rfl := Option.some.inj same
              have fields := Option.some.inj (here.symm.trans here')
              obtain rfl : d = d' := congrArg Proxy.doc fields
              obtain rfl := atFirst.unique (standing.at_ wf atFirst) (congrArg Proxy.cur fields)
              exact ⟨s, x, shown, renders⟩
            · rintro ⟨s', y, left, right⟩
              exact ⟨kind, some t, d, first.place, x, here, atFirst.standing wf, rfl,
                left.transfer right renders⟩

end Shown

/-! ## Decoding a text -/

section Decoding

variable {F : Type} [DecidableEq F] {env : Env F} {forest : Forest} {s : State F} {text : Bytes}
  {document : Document} {tree : Tree} {start : Nat} {kind : Kind}

/-- The root of a text that was decoded. -/
structure Rooted (forest : Forest) (s : State F) (document : Document) (tree : Tree) (start : Nat)
    (kind : Kind) (s' : State F) : Prop where
  wf : Wf (forest ++ [(tree, start)]) s'
  at_ : At (forest ++ [(tree, start)]) s.docs.length (rootPlace tree start)
  here : s'.proxy? s.tables.length =
    some (fresh kind none s.docs.length (rootPlace tree start))
  old : ∀ r, r < s.tables.length → s'.proxy? r = s.proxy? r
  loops : s'.loops = s.loops

theorem decode_container (wf : Wf forest s)
    (parsed : parseWithOptions (dispatch env.scanner env.strings) text Options.default =
      .ok document) (stands : Stands document tree start) (isKind : tree.kind? = some kind) :
    ∃ s', decode env text s = (.ok (some (.table s.tables.length)), s') ∧
      Rooted forest s document tree start kind s' := by
  have root : (rootPlace tree start).node.kind? = some kind := isKind
  have readable : ¬ Unreadable env (rootPlace tree start).node := by
    rintro ⟨token, scalar, -⟩
    rw [scalar] at root
    cases root
  have decodes := (show Action.Wp (decode env text) s _ _ from
    wp_decode wf.library (parseWithOptions_ok_iff.1 parsed) stands).mono (fun _ _ => id)
      fun _ refused => readable refused.unreadable
  obtain ⟨v, s', ran, decoded⟩ := decodes.exists_ok
  have wf' : Wf (forest ++ [(tree, start)]) { s with
      docs := s.docs ++ [document], cells := s.cells ++ [⟨SkipCache.new, noOffset⟩] } :=
    wf.planted stands rfl rfl rfl rfl
  have at_ : At (forest ++ [(tree, start)]) s.docs.length (rootPlace tree start) := by
    refine ⟨tree, start, [], ?_, Place.locate_nil _⟩
    rw [wf.library.docs, List.getElem?_concat_length]
  have returns := decoded.returns
  rw [root] at returns
  obtain ⟨rfl, adds⟩ := returns
  refine ⟨s', ran, decoded.wf wf' at_ (fun p none => by cases none), at_, ?_, ?_, adds.loops⟩
  · rw [proxy?_eq_some, getElem?_added adds.tables, if_pos rfl]
  · intro r inside
    rw [State.proxy?, getElem?_added adds.tables, if_neg (Nat.ne_of_lt inside), State.proxy?]

end Decoding

/-! ## Reading a field of the root -/

section Reading

variable {F : Type} [DecidableEq F] {env : Env F} {forest : Forest} {s : State F} {t d : Nat}
  {place : Place}

theorem outcome_index_root (wf : Wf forest s)
    (here : s.proxy? t = some (fresh .obj none d place)) (at_ : At forest d place)
    (object : place.node.kind? = some .obj) (key : Bytes) :
    Action.Outcome (index env t (some (.str key))) s
      (fun v s' => Found env s' t d s.tables.length
        (freshSource env t (fresh .obj none d place) place.children key) v)
      (Missed env (freshSource env t (fresh .obj none d place) place.children key)) := by
  have ok : ProxyOk forest s.tables.length t (fresh (F := F) .obj none d place) place :=
    fresh_ok at_ object fun p none => by cases none
  have read : Action.Outcome (readObjectField env t (fresh .obj none d place) key) s _ _ :=
    outcome_readObjectField wf here ok rfl rfl key
  have source : (fresh (F := F) .obj none d place).source place.children key =
      (firstSpelled place.children key).map .decoded := rfl
  rw [source] at read
  rw [index, freshSource]
  refine Action.outcome_get ?_
  rw [proxy?_eq_some.1 here]
  simp only [toKey, Option.bind_some]
  cases rawget env t (fresh .obj none d place) (.str key) with
  | some v => exact rfl
  | none => exact read

theorem decoded_of_freshSource {q : Proxy F} {children : List Child} {key : Bytes} {first : Child}
    (source : freshSource env t q children key = some (.decoded first)) :
    firstSpelled children key = some first := by
  rw [freshSource] at source
  split at source
  · cases source
  · obtain ⟨child, spelled, same⟩ := Option.map_eq_some_iff.1 source
    obtain rfl := Source.decoded.inj same
    exact spelled

theorem unreadable_of_missed {q : Proxy F} {children : List Child} {key : Bytes}
    {error : LuaError} (missed : Missed env (freshSource env t q children key) error) :
    ∃ child ∈ children, Unreadable env child.place.node := by
  cases source : freshSource env t q children key with
  | none =>
      rw [source] at missed
      exact missed.elim
  | some found =>
      cases found with
      | held v =>
          rw [source] at missed
          exact missed.elim
      | decoded child =>
          rw [source] at missed
          refine ⟨child, mem_of_firstSpelled (decoded_of_freshSource source), ?_⟩
          exact Fails.unreadable missed

theorem not_table_of_freshSource {children : List Child} {key : Bytes} {v : Value F}
    (source : freshSource env t (fresh .obj none d place) children key = some (.held v)) (r : Nat) :
    v ≠ .table r := by
  rintro rfl
  rw [freshSource] at source
  split at source
  · rename_i raw
    obtain rfl := Source.held.inj (Option.some.inj source)
    simp only [rawget] at raw
    repeat' split at raw
    all_goals cases raw
  · obtain ⟨_, -, clash⟩ := Option.map_eq_some_iff.1 source
    cases clash

end Reading

/-! ## Both ways -/

section Both

variable {F : Type} [DecidableEq F] (env : Env F)

/-- `v[key]` -/
def indexValue (v : Option (Value F)) (key : Bytes) : Act F (Option (Value F)) :=
  match v with
  | some (.table t) => index env t (some (.str key))
  | _ => Action.raise (.runtime "attempt to index a nil value")

/-- `qjson.decode(text)[key]` and `qjson.materialize(qjson.decode(text))[key]` -/
def readBoth (text key : Bytes) (room : Nat) : Act F (Option (Value F) × Option (Value F)) := do
  let t ← decode env text
  let v ← indexValue env t key
  let u ← decode env text
  let m ← materialize env room false u
  let w ← indexValue env m key
  return (v, w)

/-- Both ways return, and what is read is what is materialized. -/
def ReadsAgree (s : State F) (text key : Bytes) (room : Nat) : Prop :=
  Action.Wp (readBoth env text key room) s (fun both s' => Shows env s' both.1 both.2) fun _ => False

variable {env} {forest : Forest} {s s' : State F} {t d n : Nat} {source : Option (Source F)}
  {v : Option (Value F)} {text key : Bytes} {document : Document} {tree : Tree} {start room : Nat}

theorem Found.mono (found : Found env s t d n source v)
    (later : ∀ place v, Yields env s t d place v → Yields env s' t d place v) :
    Found env s' t d n source v := by
  match source with
  | none | some (.held _) => exact found
  | some (.decoded _) => exact ⟨later _ _ found.1, found.2⟩

theorem Yields.rooted {forest : Forest} {view : Nat} {place : Place} {kind : Kind}
    (yields : Yields env s view d place v) (rooted : Rooted forest s document tree start kind s') :
    Yields env s' view d place v := by
  unfold Yields at yields ⊢
  split at yields
  · obtain ⟨r, same, here⟩ := yields
    exact ⟨r, same, (rooted.old r (lt_of_proxy? here)).trans here⟩
  · exact yields

/-- Both ways agree exactly when every number can be read and the sources have the same
content. -/
theorem readsAgree_iff (wf : Wf forest s)
    (parsed : parseWithOptions (dispatch env.scanner env.strings) text Options.default =
      .ok document) (stands : Stands document tree start) (object : tree.kind? = some .obj)
    (enough : tree.depth < room) :
    ReadsAgree env s text key room ↔ Readable env tree ∧
      Accords env (freshSource env s.tables.length
        (fresh .obj none s.docs.length (rootPlace tree start)) (rootPlace tree start).children key)
        (lastUnder (rootPlace tree start).children key) := by
  obtain ⟨s₁, ran₁, rooted⟩ := decode_container wf parsed stands object
  have isObject : (rootPlace tree start).node.kind? = some .obj := object
  have atChild {child : Child} (first : firstSpelled (rootPlace tree start).children key =
      some child) : At (forest ++ [(tree, start)]) s.docs.length child.place := by
    obtain ⟨i, here⟩ := List.getElem?_of_mem (mem_of_firstSpelled first)
    exact rooted.at_.child here
  rw [ReadsAgree, readBoth, Action.Wp, Action.bind_of_ok ran₁]
  have reads : Action.Outcome (indexValue env (some (.table s.tables.length)) key) s₁ _ _ :=
    outcome_index_root rooted.wf rooted.here rooted.at_ isObject key
  rcases reads.cases with ⟨v, s₂, ran₂, found⟩ | ⟨error, s₂, ran₂, missed⟩
  · have kept : Keeps (forest ++ [(tree, start)]) s₁
        (indexValue env (some (.table s.tables.length)) key) := keeps_index rooted.wf _
    have wf₂ := kept.returned ran₂
    obtain ⟨s₃, ran₃, rooted'⟩ := decode_container wf₂ parsed stands object
    have renders : Action.Wp (materialize env room false (some (.table s₂.tables.length))) s₃ _ _ :=
      wp_renders (wp_materialize_fresh rooted'.wf rooted'.here rooted'.at_ isObject)
    rw [Action.bind_of_ok ran₂, Action.bind_of_ok ran₃]
    rcases ran₄ : materialize env room false (some (.table s₂.tables.length)) s₃ with ⟨result, s₄⟩
    cases result with
    | error error =>
        rw [Action.bind_of_error ran₄]
        unfold Action.Wp at renders
        rw [ran₄] at renders
        refine iff_of_false id ?_
        rintro ⟨readable, -⟩
        rcases renders with small | unreadable
        · exact absurd enough (Nat.not_lt.2 small)
        · exact unreadable readable
    | ok m =>
        obtain ⟨kept', readable, x, rfl, rendered⟩ := renders.returned ran₄
        rw [Action.bind_of_ok ran₄]
        cases rendered with
        | leaf leaf =>
            rw [leaf.kind?] at isObject
            cases isObject
        | @table _ r p kind isKind plain empty domain below =>
            obtain rfl := Option.some.inj (isKind.symm.trans isObject)
            have ran₅ : indexValue env (some (.table r)) key s₄ =
                (.ok (p.entries.lookup (.str key)), s₄) := by
              rw [indexValue, index, Action.get_bind, plain?_eq_some.1 plain]
              rfl
            rw [Action.bind_of_ok ran₅]
            have found₄ := (found.mono fun place v yields => yields.rooted rooted').mono
              fun place v yields => yields.grown kept'.grown
            refine (shows_iff kept'.wf ?_ ?_ found₄ ?_).trans (and_iff_right readable).symm
            · intro first source
              exact (atChild (decoded_of_freshSource source)).planted
            · exact fun x source => not_table_of_freshSource source
            · have under_ : under .obj (rootPlace tree start).children (.str key : Key F) =
                  lastUnder (rootPlace tree start).children key := by rw [under, if_pos rfl]
              have domain := domain (.str key)
              have below := below (.str key)
              rw [under_] at domain below
              cases last : lastUnder (rootPlace tree start).children key with
              | none => exact domain.2 last
              | some child =>
                  cases entry : p.entries.lookup (.str key) with
                  | none =>
                      rw [domain.1 entry] at last
                      cases last
                  | some x => exact ⟨x, rfl, below child x last entry⟩
  · rw [Action.bind_of_error ran₂]
    refine iff_of_false id ?_
    rintro ⟨readable, -⟩
    obtain ⟨child, member, unreadable⟩ := unreadable_of_missed missed
    exact not_readable_of_child member unreadable readable

end Both

end QJson.Table

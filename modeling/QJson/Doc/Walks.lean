import QJson.Doc.Sits

/-!
# The walks over the children of a container

The slow path of `walk_children`, the fast path over a cached slot,
`nth_object_entry` and `cursor_len` all walk the children of a container from
separator to separator.  For each of them one lemma says what a round does at a
child, and one, by induction on the entries, what the whole walk returns.
-/

namespace QJson.Doc

open Rfc8259 Validate

/-- Whether a segment selects the `n`-th child. -/
def Child.fits (seg : PathSeg) (n : Nat) (child : Child) : Bool :=
  match child.entry.name with
  | some name => seg == .key name.body
  | none => seg == .idx n

/-- The first child a segment selects, counting from `n`. -/
def pick (seg : PathSeg) : Nat → List Child → Option Child
  | _, [] => none
  | n, child :: rest => if child.fits seg n then some child else pick seg (n + 1) rest

/-- The cache slot of a list of children. -/
def slotOf (children : List Child) : SkipSlot :=
  ⟨children.map Child.keyIx, children.map fun child => child.place.cursor.idxEnd⟩

/-- The cursor of a child's value. -/
def Child.cursor (child : Child) : Cursor := child.place.cursor

/-- Members are selected by keys and elements by indices. -/
def PathSeg.suits (seg : PathSeg) (kind : Kind) : Prop :=
  seg.isKey = decide (kind = .obj)

section Rounds

variable {doc : Document} {kind : Kind} {child : Child} {sep : UInt8} {p : Nat}

/-- Where the value of a child starts, computed from its first marker. -/
theorem ChildAt.valueIx (at_ : ChildAt doc kind child sep p)
    (small : doc.indices.length < 2 ^ 32) :
    (if kind = .obj then u32 (child.keyIx + 3) else child.keyIx) = child.ix := by
  have bound := at_.sepIx_lt
  have ix := at_.ix
  have nameOk := at_.nameOk
  simp only [Child.sepIx] at bound
  cases named : child.entry.name with
  | none =>
      rw [named] at ix nameOk
      cases kind with
      | arr => simpa [nameSigns] using ix.symm
      | obj => exact nameOk.elim
  | some name =>
      rw [named] at ix nameOk
      cases kind with
      | arr => exact nameOk.elim
      | obj =>
          simp only [nameSigns, List.length_cons, List.length_nil] at ix
          rw [if_pos rfl, u32_of_lt (by omega)]
          omega

theorem ChildAt.childMatches (at_ : ChildAt doc kind child sep p)
    (small : doc.indices.length < 2 ^ 32) {seg : PathSeg} (suits : seg.suits kind)
    (n : Nat) :
    childMatches doc seg.isKey seg n child.keyIx = .ok (child.fits seg n) := by
  have nameOk := at_.nameOk
  rw [PathSeg.suits] at suits
  cases named : child.entry.name with
  | none =>
      rw [named] at nameOk
      cases kind with
      | arr => simp [Doc.childMatches, suits, Child.fits, named]
      | obj => exact nameOk.elim
  | some name =>
      rw [named] at nameOk
      cases kind with
      | arr => exact nameOk.elim
      | obj =>
          obtain ⟨⟨keyOpen, openAt, quote⟩, key⟩ := at_.key_read named small
          simp [Doc.childMatches, suits, Child.fits, named, atIdx_of_getElem? openAt, quote,
            key]

/-- The separator is a comma or closes the container. -/
theorem ChildAt.sep_bytes (at_ : ChildAt doc kind child sep p) :
    sep = 0x2C ∨ (sep ≠ 0x2C ∧ (sep = 0x7D ∨ sep = 0x5D)) := by
  rcases at_.sepCases with rfl | rfl
  · exact .inl rfl
  · cases kind <;> exact .inr (by decide)

/-- One round of the slow path. -/
theorem ChildAt.walk_round (at_ : ChildAt doc kind child sep p)
    (small : doc.indices.length < 2 ^ 32) {seg : PathSeg} (suits : seg.suits kind)
    {stop fuel n : Nat} {starts ends : List Nat} {result : Option Cursor}
    (inside : child.keyIx ≤ stop) (room : n + 1 < 2 ^ 32) :
    walkLoop doc seg.isKey seg stop (fuel + 1) child.keyIx n starts ends result =
      if sep = 0x2C then
        walkLoop doc seg.isKey seg stop fuel (child.sepIx + 1) (n + 1)
          (starts ++ [child.keyIx]) (ends ++ [child.cursor.idxEnd])
          (result.or (if child.fits seg n then some child.cursor else none))
      else
        .ok (⟨starts ++ [child.keyIx], ends ++ [child.cursor.idxEnd]⟩,
          result.or (if child.fits seg n then some child.cursor else none)) := by
  obtain ⟨sepPos, sepAt, sepByte⟩ := at_.sep_read
  have bound := at_.sepIx_lt
  have within : ¬ doc.buf.length ≤ sepPos := by
    have := (List.getElem?_eq_some_iff.1 sepByte).1
    omega
  have value := at_.valueIx small
  have isObj : (if seg.isKey = true then u32 (child.keyIx + 3) else child.keyIx) =
      child.ix := by
    rw [suits]
    simpa using value
  have next : u32 (child.sepIx + 1) = child.sepIx + 1 := u32_of_lt (by omega)
  have count : u32 (n + 1) = n + 1 := u32_of_lt room
  have matched : matchOnce doc seg.isKey seg n child.keyIx result =
      .ok (result.isNone && child.fits seg n) := by
    rw [matchOnce, at_.childMatches small suits]
    cases result <;> simp
  have merged : (if (result.isNone && child.fits seg n) = true then
        some (⟨child.ix, lastIx child.entry.value child.ix⟩ : Cursor) else result) =
      result.or (if child.fits seg n then some child.cursor else none) := by
    cases result <;> cases child.fits seg n <;> rfl
  rw [walkLoop, if_pos inside]
  simp only [isObj, at_.findValueSpan small, ok_bind, matched, merged,
    atIdx_of_getElem? sepAt, if_neg within, atIdx_of_getElem? sepByte, next, count]
  rcases at_.sep_bytes with rfl | ⟨notComma, closes⟩
  · rfl
  · rw [if_neg notComma, if_neg notComma, if_pos closes]
    rfl

end Rounds

section Walks

variable {doc : Document} {kind : Kind}

theorem EntriesAt.sep_ne_comma {p ix : Nat} {name : Option Name} {before after : Bytes}
    {value : Tree} (_ : EntriesAt doc kind (.last name before value after) p ix) :
    kind.closer ≠ 0x2C := by
  cases kind <;> decide

/-- The slow path collects the slot of all children and the first match. -/
theorem EntriesAt.walkLoop {entries : Entries} {p ix : Nat}
    (at_ : EntriesAt doc kind entries p ix) (small : doc.indices.length < 2 ^ 32)
    {seg : PathSeg} (suits : seg.suits kind) :
    ∀ {stop fuel n : Nat} {starts ends : List Nat} {result : Option Cursor},
      entries.toList.length ≤ fuel → ix + entries.signs.length ≤ stop →
      n + entries.toList.length < 2 ^ 32 →
      walkLoop doc seg.isKey seg stop fuel ix n starts ends result =
        .ok (⟨starts ++ (slotOf (entriesChildren p ix entries)).childStarts,
            ends ++ (slotOf (entriesChildren p ix entries)).childEnds⟩,
          result.or ((pick seg n (entriesChildren p ix entries)).map Child.cursor)) := by
  match entries with
  | .last name before value after =>
      intro stop fuel n starts ends result enough inside room
      simp only [Entries.toList, List.length_cons, List.length_nil] at enough room
      obtain ⟨fuel, rfl⟩ := Nat.exists_eq_add_of_le' enough
      have round := @ChildAt.walk_round _ _ _ _ _ at_.last small _ suits stop fuel n
        starts ends result (by simp; omega)
        room
      rw [if_neg at_.sep_ne_comma] at round
      rw [show fuel + (0 + 1) = fuel + 1 from rfl]
      refine round.trans ?_
      simp only [entriesChildren, slotOf, List.map_cons, List.map_nil, pick]
      split <;> rfl
  | .more name before value after rest =>
      intro stop fuel n starts ends result enough inside room
      simp only [Entries.toList, List.length_cons] at enough room
      simp only [Entries.signs, List.length_append, List.length_cons] at inside
      obtain ⟨fuel, rfl⟩ := Nat.exists_eq_add_of_le' (Nat.le_trans (by omega) enough :
        1 ≤ fuel)
      have round := @ChildAt.walk_round _ _ _ _ _ at_.more.1 small _ suits stop fuel n
        starts ends result (by simp; omega) (by omega)
      rw [if_pos rfl] at round
      refine round.trans ?_
      have others := @EntriesAt.walkLoop _ _ _ at_.more.2 small _ suits stop fuel
        (n + 1) (starts ++ [ix]) (ends ++ [lastIx value (ix + (nameSigns name).length)])
        (result.or (if (⟨⟨name, before, value, after⟩, ix,
          valueStart p name before, ix + (nameSigns name).length⟩ : Child).fits seg n then
            some (⟨⟨name, before, value, after⟩, ix, valueStart p name before,
              ix + (nameSigns name).length⟩ : Child).cursor else none))
        (by omega) (by omega) (by omega)
      refine others.trans ?_
      simp only [entriesChildren, slotOf, List.map_cons, pick, List.append_assoc,
        List.cons_append, List.nil_append]
      cases result with
      | some found => rfl
      | none => split <;> rfl

theorem resolveInKnownChildren_eq (small : doc.indices.length < 2 ^ 32) {seg : PathSeg}
    (suits : seg.suits kind) {children : List Child}
    (standing : ∀ child ∈ children, ∃ sep p, ChildAt doc kind child sep p) :
    ∀ {k : Nat}, k + children.length < 2 ^ 32 →
      resolveInKnownChildren doc seg.isKey seg k
          ((slotOf children).childStarts.zip (slotOf children).childEnds) =
        okOr .notFound ((pick seg k children).map Child.cursor) := by
  induction children with
  | nil => intro k _; rfl
  | cons child children ih =>
      intro k room
      simp only [List.length_cons] at room
      obtain ⟨sep, p, at_⟩ := standing child (List.mem_cons_self ..)
      have others := ih (fun child member => standing child (List.mem_cons_of_mem _ member))
        (k := k + 1) (by omega)
      have value := at_.valueIx small
      have nameOk := at_.nameOk
      simp only [slotOf, List.map_cons, List.zip_cons_cons] at others ⊢
      rw [resolveInKnownChildren, others, pick]
      rw [PathSeg.suits] at suits
      cases named : child.entry.name with
      | none =>
          rw [named] at nameOk
          cases kind with
          | obj => exact nameOk.elim
          | arr =>
              simp only [reduceCtorEq, if_false, decide_false] at value suits
              simp only [suits, Bool.false_eq_true, if_false, ok_bind,
                u32_of_lt (Nat.lt_of_le_of_lt (Nat.le_add_right k _) room), Child.fits,
                named, value]
              split <;> rfl
      | some name =>
          rw [named] at nameOk
          cases kind with
          | arr => exact nameOk.elim
          | obj =>
              obtain ⟨-, key⟩ := at_.key_read named small
              simp only [if_true, decide_true] at value suits
              simp only [suits, if_true, key, ok_bind, Child.fits, named, value]
              split <;> rfl

theorem EntriesAt.nthEntryLoop {entries : Entries} {p ix : Nat}
    (at_ : EntriesAt doc .obj entries p ix) (small : doc.indices.length < 2 ^ 32) :
    ∀ {stop fuel n count : Nat}, entries.toList.length ≤ fuel →
      ix + entries.signs.length ≤ stop → count ≤ n →
      nthEntryLoop doc stop n fuel ix count =
        okOr .notFound (((entriesChildren p ix entries)[n - count]?).map fun child =>
          (child.keyIx, child.cursor)) := by
  match entries with
  | .last name before value after =>
      intro stop fuel n count enough inside before_
      simp only [Entries.toList, List.length_cons, List.length_nil] at enough
      obtain ⟨fuel, rfl⟩ := Nat.exists_eq_add_of_le' enough
      have child := at_.last
      obtain ⟨sepPos, sepAt, sepByte⟩ := child.sep_read
      have within : ¬ doc.buf.length ≤ sepPos := by
        have := (List.getElem?_eq_some_iff.1 sepByte).1
        omega
      have valueIx := child.valueIx small
      simp only [if_true] at valueIx
      rw [show fuel + (0 + 1) = fuel + 1 from rfl, Doc.nthEntryLoop, valueIx,
        child.findValueSpan small, ok_bind]
      simp only [entriesChildren]
      by_cases here : count = n
      · subst here
        simp [Child.cursor, Child.place, Place.cursor]
      · have beyond : n - count ≠ 0 := by omega
        rw [if_neg here, atIdx_of_getElem? sepAt, ok_bind, if_neg within,
          atIdx_of_getElem? sepByte, ok_bind]
        simp [Kind.closer, beyond, okOr]
  | .more name before value after rest =>
      intro stop fuel n count enough inside before_
      simp only [Entries.toList, List.length_cons] at enough
      simp only [Entries.signs, List.length_append, List.length_cons] at inside
      obtain ⟨fuel, rfl⟩ := Nat.exists_eq_add_of_le' (Nat.le_trans (by omega) enough :
        1 ≤ fuel)
      have child := at_.more.1
      obtain ⟨sepPos, sepAt, sepByte⟩ := child.sep_read
      have bound := child.sepIx_lt
      have within : ¬ doc.buf.length ≤ sepPos := by
        have := (List.getElem?_eq_some_iff.1 sepByte).1
        omega
      have valueIx := child.valueIx small
      simp only [if_true] at valueIx
      rw [Doc.nthEntryLoop, valueIx, child.findValueSpan small, ok_bind]
      simp only [entriesChildren]
      by_cases here : count = n
      · subst here
        simp [Child.cursor, Child.place, Place.cursor]
      · have next := u32_of_lt (n := ix + (nameSigns name).length + value.signs.length + 1)
          (by simp only [Child.sepIx] at bound; omega)
        have others := @EntriesAt.nthEntryLoop _ _ _ at_.more.2 small stop fuel n
          (count + 1) (by omega) (by omega) (by omega)
        obtain ⟨k, shift⟩ : ∃ k, n - count = k + 1 := ⟨n - count - 1, by omega⟩
        have shift' : n - (count + 1) = k := by omega
        rw [shift'] at others
        rw [if_neg here, atIdx_of_getElem? sepAt, ok_bind, if_neg within,
          atIdx_of_getElem? sepByte, ok_bind, if_pos rfl, shift, List.getElem?_cons_succ]
        simp only [Child.sepIx, next]
        rw [if_neg (by omega), others]

/-- The walk of `cursor_len` counts the entries. -/
theorem EntriesAt.lenLoop {entries : Entries} {p ix : Nat}
    (at_ : EntriesAt doc kind entries p ix) (small : doc.indices.length < 2 ^ 32) :
    ∀ {stop fuel count : Nat}, entries.toList.length ≤ fuel →
      ix + entries.signs.length ≤ stop →
      lenLoop doc (decide (kind = .obj)) stop fuel ix count =
        .ok (count + entries.toList.length) := by
  match entries with
  | .last name before value after =>
      intro stop fuel count enough inside
      simp only [Entries.toList, List.length_cons, List.length_nil] at enough
      obtain ⟨fuel, rfl⟩ := Nat.exists_eq_add_of_le' enough
      have child := at_.last
      obtain ⟨sepPos, sepAt, sepByte⟩ := child.sep_read
      have within : ¬ doc.buf.length ≤ sepPos := by
        have := (List.getElem?_eq_some_iff.1 sepByte).1
        omega
      have valueIx := child.valueIx small
      obtain ⟨closes, -, -⟩ := Kind.closer_cases kind
      rw [show fuel + (0 + 1) = fuel + 1 from rfl, Doc.lenLoop]
      simp only [decide_eq_true_eq, valueIx]
      rw [child.findValueSpan small, ok_bind, atIdx_of_getElem? sepAt, ok_bind,
        if_neg within, atIdx_of_getElem? sepByte, ok_bind, if_neg at_.sep_ne_comma,
        if_pos closes]
      rfl
  | .more name before value after rest =>
      intro stop fuel count enough inside
      simp only [Entries.toList, List.length_cons] at enough
      simp only [Entries.signs, List.length_append, List.length_cons] at inside
      obtain ⟨fuel, rfl⟩ := Nat.exists_eq_add_of_le' (Nat.le_trans (by omega) enough :
        1 ≤ fuel)
      have child := at_.more.1
      obtain ⟨sepPos, sepAt, sepByte⟩ := child.sep_read
      have bound := child.sepIx_lt
      have within : ¬ doc.buf.length ≤ sepPos := by
        have := (List.getElem?_eq_some_iff.1 sepByte).1
        omega
      have valueIx := child.valueIx small
      have next := u32_of_lt (n := ix + (nameSigns name).length + value.signs.length + 1)
        (by simp only [Child.sepIx] at bound; omega)
      have others := @EntriesAt.lenLoop _ _ _ at_.more.2 small stop fuel (count + 1)
        (by omega) (by omega)
      rw [Doc.lenLoop]
      simp only [decide_eq_true_eq, valueIx]
      rw [child.findValueSpan small, ok_bind, atIdx_of_getElem? sepAt, ok_bind,
        if_neg within, atIdx_of_getElem? sepByte, ok_bind, if_pos rfl]
      simp only [Child.sepIx, next]
      rw [if_neg (by omega), others, Entries.toList, List.length_cons]
      congr 1
      omega

end Walks

/-! ## Walks from the cursor of a container -/

section Containers

variable {doc : Document} {kind : Kind}

theorem Entries.length_toList_le (entries : Entries) :
    entries.toList.length ≤ entries.signs.length + 1 := by
  match entries with
  | .last _ _ _ _ => simp [Entries.toList]
  | .more _ _ _ _ rest =>
      have := Entries.length_toList_le rest
      simp only [Entries.toList, Entries.signs, List.length_cons, List.length_append]
      omega

theorem length_entriesChildren (entries : Entries) (p ix : Nat) :
    (entriesChildren p ix entries).length = entries.toList.length := by
  rw [← entriesChildren_map_entry entries p ix, List.length_map]

theorem skipGap_eq {buf front gap tail : Bytes} {p stop : Nat} (at_ : p = front.length)
    (upTo : stop = p + gap.length) (split : buf = front ++ (gap ++ tail)) :
    skipGap buf p stop = .ok (p + (gap.takeWhile isWs).length) := by
  have cut := @drop_take_append _ _ tail _ _ at_ upTo
  have short := (gap.takeWhile_prefix isWs).length_le
  have inside : ¬ (p + (gap.takeWhile isWs).length < stop ∧
      buf.length ≤ p + (gap.takeWhile isWs).length) := by
    rw [split]
    simp only [List.length_append]
    omega
  simp only [skipGap, split, cut] at inside ⊢
  rw [if_neg inside]

/-- A container sits between its brackets. -/
theorem Sits.brackets {place : Place} (sits : Sits doc place)
    (container : place.node.kind? = some kind) :
    doc.indices[place.ix]? = some place.pos ∧ doc.buf[place.pos]? = some kind.opener ∧
      doc.indices[place.cursor.idxEnd]? =
        some (place.pos + place.node.render.length - 1) ∧
      place.cursor.idxEnd = place.ix + place.node.signs.length - 1 := by
  obtain ⟨inner, signs, marksEq, signsEq, -⟩ :=
    place.node.exists_brackets container place.pos
  obtain ⟨more, marks⟩ := sits.marks
  have reads := sits.reads
  have lengths := reads.length_eq
  rw [marksEq, signsEq] at reads lengths
  simp only [List.length_cons, List.length_append, List.length_nil] at lengths
  rw [marksEq] at marks
  have last : place.cursor.idxEnd = place.ix + place.node.signs.length - 1 := by
    simp [Place.cursor, lastIx, signsEq]
  refine ⟨getElem?_of_drop marks, (reads_cons.1 reads).1, ?_, last⟩
  have closer := @drop_of_drop _ _ (place.pos :: inner)
    ([place.pos + place.node.render.length - 1] ++ more) _ (place.ix + 1 + inner.length)
    (by rw [marks]; simp) (by simp; omega)
  rw [last, signsEq]
  simp only [List.length_cons, List.length_append, List.length_nil]
  have at_ : place.ix + (signs.length + (0 + 1) + 1) - 1 = place.ix + 1 + inner.length := by
    omega
  rw [at_]
  exact getElem?_of_drop closer

theorem Sits.isEmptyContainer {place : Place} (sits : Sits doc place)
    (container : place.node.kind? = some kind) :
    isEmptyContainer doc place.cursor.idxStart place.cursor.idxEnd =
      .ok (decide (place.node.children = [])) := by
  obtain ⟨openerAt, -, closerAt, -⟩ := sits.brackets container
  obtain ⟨front, tail, text, start⟩ := sits.text
  have valid := sits.valid
  have guard (gap : Bytes) (spelled : place.node.render =
      kind.opener :: (gap ++ [kind.closer])) :
      Doc.isEmptyContainer doc place.cursor.idxStart place.cursor.idxEnd =
        .ok (decide (IsBlank gap)) := by
    have split : doc.buf = (front ++ [kind.opener]) ++ (gap ++ (kind.closer :: tail)) := by
      rw [text, spelled]
      simp
    have skip := @skipGap_eq _ _ _ _ (place.pos + 1)
      (place.pos + place.node.render.length - 1) (by simp [start])
      (by rw [spelled]; simp; omega) split
    rw [Doc.isEmptyContainer, show place.cursor.idxStart = place.ix from rfl,
      atIdx_of_getElem? openerAt, ok_bind, atIdx_of_getElem? closerAt, ok_bind, skip,
      ok_bind, spelled]
    congr 1
    by_cases blank : IsBlank gap
    · have whole : gap.takeWhile isWs = gap := List.takeWhile_eq_self_iff.2 blank
      simp only [whole, List.length_cons, List.length_append, List.length_nil, blank,
        decide_true, beq_iff_eq]
      omega
    · have short : (gap.takeWhile isWs).length < gap.length := by
        refine lt_of_le_of_ne (gap.takeWhile_prefix isWs).length_le fun same => blank ?_
        exact List.takeWhile_eq_self_iff.1 ((gap.takeWhile_prefix isWs).eq_of_length same)
      simp only [List.length_cons, List.length_append, List.length_nil, blank,
        decide_false, beq_eq_false_iff_ne, ne_eq]
      omega
  cases spelled : place.node with
  | scalar token => rw [spelled] at container; cases container
  | str body => rw [spelled] at container; cases container
  | empty inner blank =>
      rw [spelled] at container valid
      obtain rfl := Option.some.inj container
      simp only [Tree.Valid] at valid
      rw [guard blank (by rw [spelled, Tree.render])]
      simp [valid, Tree.children]
  | node inner entries =>
      rw [spelled] at container valid
      obtain rfl := Option.some.inj container
      simp only [Tree.Valid] at valid
      rw [guard entries.render (by rw [spelled, Tree.render])]
      have some : entries.toList ≠ [] := by cases entries <;> simp [Entries.toList]
      simp [entries.not_isBlank_render valid, Tree.children, some]

end Containers

end QJson.Doc

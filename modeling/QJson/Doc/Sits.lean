import QJson.Doc.Places

/-!
# What the code reads at a node

`Sits` says that a node's text and marks stand in a document where its place
says; `ChildAt` says the same of an entry, with the marker in front of it and
the separator behind it.  From these follow the elementary reads of the code:
the span of a value, the separator after it, the bytes of its key, the start of
a scalar.
-/

namespace QJson.Doc

open Rfc8259 Validate

/-- A node's text and marks stand where its place says. -/
structure Sits (doc : Document) (place : Place) : Prop where
  valid : place.node.Valid
  text : ∃ front tail, doc.buf = front ++ (place.node.render ++ tail) ∧
    place.pos = front.length
  marks : ∃ more, doc.indices.drop place.ix = place.node.marks place.pos ++ more

/-- The entries of a container stand behind a marker and before its closer. -/
structure EntriesAt (doc : Document) (kind : Kind) (entries : Entries) (p ix : Nat) :
    Prop where
  valid : entries.Valid kind
  prev : 0 < p ∧ 0 < ix ∧ doc.indices[ix - 1]? = some (p - 1)
  text : ∃ front tail, doc.buf = front ++ (entries.render ++ kind.closer :: tail) ∧
    p = front.length
  marks : ∃ more, doc.indices.drop ix =
    entries.marks p ++ (p + entries.render.length) :: more

/-- An entry stands at byte `p` behind a marker, with the separator `sep` behind
it. -/
structure ChildAt (doc : Document) (kind : Kind) (child : Child) (sep : UInt8)
    (p : Nat) : Prop where
  nameOk : nameValid kind child.entry.name
  beforeBlank : IsBlank child.entry.before
  valid : child.entry.value.Valid
  afterBlank : IsBlank child.entry.after
  sepCases : sep = 0x2C ∨ sep = kind.closer
  prev : 0 < p ∧ 0 < child.keyIx ∧ doc.indices[child.keyIx - 1]? = some (p - 1)
  pos : child.pos = valueStart p child.entry.name child.entry.before
  ix : child.ix = child.keyIx + (nameSigns child.entry.name).length
  text : ∃ front tail, doc.buf = front ++ (nameText child.entry.name ++
      (child.entry.before ++ (child.entry.value.render ++ (child.entry.after ++
        sep :: tail)))) ∧ p = front.length
  marks : ∃ more, doc.indices.drop child.keyIx = nameMarks p child.entry.name ++
    (child.entry.value.marks child.pos ++
      separator p child.entry.name child.entry.before child.entry.value
        child.entry.after :: more)

section Standing

variable {doc : Document} {kind : Kind}

theorem length_nameMarks (p : Nat) (name : Option Name) :
    (nameMarks p name).length = (nameSigns name).length := by
  cases name <;> rfl

theorem Tree.length_marks (tree : Tree) (p : Nat) :
    (tree.marks p).length = tree.signs.length := by
  have reads := tree.reads (List.replicate p 0) []
  rw [List.length_replicate] at reads
  exact reads.length_eq

theorem Entries.length_marks (entries : Entries) (p : Nat) :
    (entries.marks p).length = entries.signs.length := by
  have reads := entries.reads (List.replicate p 0) []
  rw [List.length_replicate] at reads
  exact reads.length_eq

theorem getElem?_of_drop {α : Type} {list tail : List α} {n : Nat} {value : α}
    (drop : list.drop n = value :: tail) : list[n]? = some value := by
  have := congrArg List.head? drop
  simpa [List.head?_drop] using this

theorem drop_of_drop {α : Type} {list left right : List α} {n m : Nat}
    (drop : list.drop n = left ++ right) (at_ : m = n + left.length) :
    list.drop m = right := by
  subst at_
  rw [← List.drop_drop, drop, List.drop_left]

theorem Sits.entriesAt {pos ix : Nat} {entries : Entries}
    (sits : Sits doc ⟨.node kind entries, pos, ix⟩) :
    EntriesAt doc kind entries (pos + 1) (ix + 1) := by
  obtain ⟨valid, ⟨front, tail, text, at_⟩, more, marks⟩ := sits
  simp only [Tree.Valid] at valid
  simp only [Tree.marks, List.cons_append, List.append_assoc, List.nil_append] at marks
  refine ⟨valid, ⟨by omega, by omega, getElem?_of_drop marks⟩,
    ⟨front ++ [kind.opener], tail, ?_, ?_⟩, ⟨more, ?_⟩⟩
  · rw [text]
    simp [Tree.render]
  · simpa using at_
  · exact @drop_of_drop _ _ [pos] _ _ _ marks rfl

theorem EntriesAt.last {p ix : Nat} {name : Option Name} {before after : Bytes}
    {value : Tree} (at_ : EntriesAt doc kind (.last name before value after) p ix) :
    ChildAt doc kind ⟨⟨name, before, value, after⟩, ix, valueStart p name before,
      ix + (nameSigns name).length⟩ kind.closer p := by
  obtain ⟨valid, prev, ⟨front, tail, text, start⟩, more, marks⟩ := at_
  simp only [Entries.Valid] at valid
  obtain ⟨nameOk, beforeBlank, valueOk, afterBlank⟩ := valid
  refine ⟨nameOk, beforeBlank, valueOk, afterBlank, .inr rfl, prev, rfl, rfl,
    ⟨front, tail, ?_, start⟩, ⟨more, ?_⟩⟩
  · rw [text]
    simp [Entries.render]
  · rw [marks]
    simp only [Entries.marks, Entries.render, separator, valueStart, List.append_assoc,
      List.length_append]
    congr 3
    omega

/-- A further entry stands before a comma, and the rest behind it. -/
theorem EntriesAt.more {p ix : Nat} {name : Option Name} {before after : Bytes}
    {value : Tree} {rest : Entries}
    (at_ : EntriesAt doc kind (.more name before value after rest) p ix) :
    ChildAt doc kind ⟨⟨name, before, value, after⟩, ix, valueStart p name before,
        ix + (nameSigns name).length⟩ 0x2C p ∧
      EntriesAt doc kind rest (separator p name before value after + 1)
        (ix + (nameSigns name).length + value.signs.length + 1) := by
  obtain ⟨valid, prev, ⟨front, tail, text, start⟩, more, marks⟩ := at_
  simp only [Entries.Valid] at valid
  obtain ⟨nameOk, beforeBlank, valueOk, afterBlank, restOk⟩ := valid
  simp only [Entries.marks, List.append_assoc, List.cons_append] at marks
  have sepDrop : doc.indices.drop (ix + (nameSigns name).length + value.signs.length) =
      separator p name before value after ::
        (rest.marks (separator p name before value after + 1) ++
          (p + (Entries.more name before value after rest).render.length) :: more) := by
    refine @drop_of_drop _ _ (nameMarks p name ++
      value.marks (valueStart p name before)) _ ix _ ?_ ?_
    · rw [marks]
      simp
    · simp [length_nameMarks, Tree.length_marks, Nat.add_assoc]
  refine ⟨⟨nameOk, beforeBlank, valueOk, afterBlank, .inl rfl, prev, rfl, rfl,
    ⟨front, rest.render ++ kind.closer :: tail, ?_, start⟩, ⟨_, marks⟩⟩,
    ⟨restOk, ⟨by omega, by omega, ?_⟩, ⟨front ++ (nameText name ++ (before ++
      (value.render ++ (after ++ [0x2C])))), tail, ?_, ?_⟩, ⟨more, ?_⟩⟩⟩
  · rw [text]
    simp [Entries.render]
  · exact getElem?_of_drop sepDrop
  · rw [text]
    simp [Entries.render]
  · simp only [separator, valueStart, start, List.length_append, List.length_cons,
      List.length_nil]
    omega
  · have restDrop := @drop_of_drop _ _ [separator p name before value after] _ _ _
      sepDrop rfl
    rw [List.length_singleton] at restDrop
    rw [restDrop]
    congr 2
    simp only [Entries.render, separator, valueStart, List.length_append, List.length_cons]
    omega

/-- Every child stands between markers. -/
theorem EntriesAt.childAt {entries : Entries} {p ix : Nat}
    (at_ : EntriesAt doc kind entries p ix) {child : Child}
    (member : child ∈ entriesChildren p ix entries) :
    ∃ sep start, ChildAt doc kind child sep start := by
  match entries with
  | .last name before value after =>
      simp only [entriesChildren, List.mem_singleton] at member
      exact ⟨_, _, member ▸ at_.last⟩
  | .more name before value after rest =>
      simp only [entriesChildren, List.mem_cons] at member
      rcases member with rfl | tail
      · exact ⟨_, _, at_.more.1⟩
      · exact EntriesAt.childAt at_.more.2 tail

end Standing

/-! ## Elementary reads -/

section Reads

variable {doc : Document} {kind : Kind} {child : Child} {sep : UInt8} {p : Nat}

theorem ChildAt.exists_text (at_ : ChildAt doc kind child sep p) :
    ∃ front tail, doc.buf = front ++ (child.entry.value.render ++
      (child.entry.after ++ sep :: tail)) ∧ child.pos = front.length := by
  obtain ⟨front, tail, text, start⟩ := at_.text
  refine ⟨front ++ (nameText child.entry.name ++ child.entry.before), tail, ?_, ?_⟩
  · rw [text]
    simp
  · rw [at_.pos, start]
    simp [valueStart, Nat.add_assoc]

theorem ChildAt.drop_ix (at_ : ChildAt doc kind child sep p) :
    ∃ more, doc.indices.drop child.ix = child.entry.value.marks child.pos ++
      separator p child.entry.name child.entry.before child.entry.value
        child.entry.after :: more := by
  obtain ⟨more, marks⟩ := at_.marks
  exact ⟨more, drop_of_drop marks (by rw [at_.ix, length_nameMarks])⟩

theorem ChildAt.sits (at_ : ChildAt doc kind child sep p) : Sits doc child.place := by
  obtain ⟨front, tail, text, start⟩ := at_.exists_text
  obtain ⟨more, marks⟩ := at_.drop_ix
  exact ⟨at_.valid, ⟨front, _, text, start⟩, ⟨_, marks⟩⟩

/-- The separator behind a child. -/
theorem ChildAt.sep_read (at_ : ChildAt doc kind child sep p) :
    ∃ sepPos, doc.indices[child.sepIx]? = some sepPos ∧ doc.buf[sepPos]? = some sep := by
  obtain ⟨more, marks⟩ := at_.drop_ix
  obtain ⟨front, tail, text, start⟩ := at_.exists_text
  refine ⟨_, getElem?_of_drop (drop_of_drop marks ?_), ?_⟩
  · rw [Child.sepIx, Tree.length_marks]
  · have split : doc.buf = (front ++ child.entry.value.render ++ child.entry.after) ++
        sep :: tail := by
      rw [text]
      simp
    rw [split]
    refine getElem?_at ?_
    rw [separator, ← at_.pos, start]
    simp [Nat.add_assoc]

/-- The index list does not outgrow a child. -/
theorem ChildAt.sepIx_lt (at_ : ChildAt doc kind child sep p) :
    child.sepIx < doc.indices.length := by
  obtain ⟨sepPos, found, -⟩ := at_.sep_read
  exact (List.getElem?_eq_some_iff.1 found).1

theorem Sits.reads {place : Place} (sits : Sits doc place) :
    Reads doc.buf (place.node.marks place.pos) place.node.signs := by
  obtain ⟨front, tail, text, start⟩ := sits.text
  have reads := place.node.reads front tail
  rwa [← text, ← start] at reads

/-- Over balanced signs the brace-counting loop does not stop. -/
theorem spanLoop_balanced {buf : Bytes} {wantClose : UInt8} {signs : Bytes}
    (balanced : Balanced signs) :
    ∀ {marks : List Nat} {k : Nat} {depth : Int} {rest : List Nat}, 0 < depth →
      k + marks.length < 2 ^ 32 → Reads buf marks signs →
      spanLoop buf wantClose k depth (marks ++ rest) =
        spanLoop buf wantClose (k + marks.length) depth rest := by
  induction balanced with
  | nil =>
      intro marks k depth rest _ _ reads
      obtain rfl : marks = [] := by simpa using reads.length_eq
      rfl
  | @sep b signs sep _ ih =>
      intro marks k depth rest positive small reads
      obtain ⟨i, marks, rfl, byte, tail⟩ := exists_of_reads_cons reads
      have inside : ¬ buf.length ≤ i := by
        have := (List.getElem?_eq_some_iff.1 byte).1
        omega
      simp only [List.length_cons] at small
      have next : u32 (k + 1) = k + 1 := u32_of_lt (by omega)
      have step := @ih marks (k + 1) depth rest positive (by omega) tail
      rw [List.cons_append, spanLoop, if_neg inside, atIdx_of_getElem? byte, ok_bind]
      rw [List.length_cons, ← Nat.add_assoc, Nat.add_right_comm]
      rcases sep with rfl | rfl <;> simpa [next] using step
  | @quotes signs _ ih =>
      intro marks k depth rest positive small reads
      obtain ⟨i, marks, rfl, opening, reads⟩ := exists_of_reads_cons reads
      obtain ⟨j, marks, rfl, closing, reads⟩ := exists_of_reads_cons reads
      have inside : ¬ buf.length ≤ i := by
        have := (List.getElem?_eq_some_iff.1 opening).1
        omega
      have inside' : ¬ buf.length ≤ j := by
        have := (List.getElem?_eq_some_iff.1 closing).1
        omega
      simp only [List.length_cons] at small
      have next : u32 (k + 1) = k + 1 := u32_of_lt (by omega)
      have next' : u32 (k + 1 + 1) = k + 1 + 1 := u32_of_lt (by omega)
      have step := @ih marks (k + 1 + 1) depth rest positive (by omega) reads
      rw [List.cons_append, List.cons_append, spanLoop, if_neg inside,
        atIdx_of_getElem? opening, ok_bind, if_neg (by decide), if_neg (by decide),
        spanLoop, if_neg inside', atIdx_of_getElem? closing, ok_bind,
        if_neg (by decide), if_neg (by decide), next, next', step]
      congr 1
      simp only [List.length_cons]
      omega
  | @nest kind inner signs _ _ ihInner ih =>
      intro marks k depth rest positive small reads
      obtain ⟨i, left, j, marks, rfl, opening, readsInner, closing, reads⟩ :=
        reads_nest reads
      obtain ⟨opener, -⟩ := Kind.opener_cases kind
      obtain ⟨closer, -, notOpener⟩ := Kind.closer_cases kind
      have inside : ¬ buf.length ≤ i := by
        have := (List.getElem?_eq_some_iff.1 opening).1
        omega
      have inside' : ¬ buf.length ≤ j := by
        have := (List.getElem?_eq_some_iff.1 closing).1
        omega
      simp only [List.length_cons, List.length_append] at small
      have next : u32 (k + 1) = k + 1 := u32_of_lt (by omega)
      have next' : u32 (k + 1 + left.length + 1) = k + 1 + left.length + 1 :=
        u32_of_lt (by omega)
      have deeper : ¬ depth + 1 - 1 = 0 := by omega
      have step := @ih marks (k + 1 + left.length + 1) depth rest positive (by omega)
        reads
      rw [List.cons_append, List.append_assoc, spanLoop, if_neg inside,
        atIdx_of_getElem? opening, ok_bind, if_pos opener, next,
        ihInner (by omega) (by omega) readsInner, List.cons_append, spanLoop,
        if_neg inside', atIdx_of_getElem? closing, ok_bind, if_neg notOpener,
        if_pos closer, if_neg deeper, Int.add_sub_cancel, next', step]
      congr 1
      simp only [List.length_cons, List.length_append]
      omega

theorem ChildAt.findValueSpan (at_ : ChildAt doc kind child sep p)
    (small : doc.indices.length < 2 ^ 32) :
    findValueSpan doc child.ix =
      .ok (lastIx child.entry.value child.ix, child.sepIx) := by
  obtain ⟨more, marks⟩ := at_.drop_ix
  have bound := at_.sepIx_lt
  have reads := at_.sits.reads
  simp only [Child.place] at reads
  simp only [Child.sepIx] at bound ⊢
  cases shape : child.entry.value.kind? with
  | some inner =>
      obtain ⟨left, signs, marksEq, signsEq, balanced⟩ :=
        child.entry.value.exists_brackets shape child.pos
      rw [marksEq, signsEq] at reads
      rw [marksEq] at marks
      rw [signsEq] at bound ⊢
      simp only [List.length_cons, List.length_append, List.length_nil] at bound
      obtain ⟨opening, reads⟩ := reads_cons.1 reads
      have lengths := reads.length_eq
      simp only [List.length_append, List.length_cons, List.length_nil] at lengths
      obtain ⟨readsInner, readsLast⟩ : Reads doc.buf left signs ∧
          Reads doc.buf [child.pos + child.entry.value.render.length - 1]
            [inner.closer] := by
        obtain ⟨left', right, split, readsLeft, readsRight⟩ := reads_append_iff.1 reads
        obtain ⟨rfl, rfl⟩ := List.append_inj split
          (by have := readsLeft.length_eq; omega)
        exact ⟨readsLeft, readsRight⟩
      have closing := (reads_cons.1 readsLast).1
      obtain ⟨opener, -⟩ := Kind.opener_cases inner
      obtain ⟨closer, -, notOpener⟩ := Kind.closer_cases inner
      have inside : ¬ doc.buf.length ≤
          child.pos + child.entry.value.render.length - 1 := by
        have := (List.getElem?_eq_some_iff.1 closing).1
        omega
      have next : u32 (child.ix + 1) = child.ix + 1 := u32_of_lt (by omega)
      have next' : u32 (child.ix + 1 + left.length + 1) = child.ix + 1 + left.length + 1 :=
        u32_of_lt (by omega)
      have rest := @drop_of_drop _ _ [child.pos] (left ++
          [child.pos + child.entry.value.render.length - 1] ++
            separator p child.entry.name child.entry.before child.entry.value
              child.entry.after :: more) _ (child.ix + 1)
        (by rw [marks]; simp) rfl
      have want : (if inner.opener = 0x7B then (0x7D : UInt8) else 0x5D) =
          inner.closer := by cases inner <;> rfl
      rw [Doc.findValueSpan, atIdx_of_getElem? (getElem?_of_drop marks), ok_bind, getOr,
        opening, okOr_some, ok_bind, if_pos opener, want, next, rest, List.append_assoc,
        spanLoop_balanced balanced (by omega) (by omega) readsInner, List.cons_append,
        spanLoop, if_neg inside, atIdx_of_getElem? closing, ok_bind, if_neg notOpener,
        if_pos closer, if_pos (by omega), if_neg (by simp), next', lastIx, signsEq]
      simp only [List.isEmpty_cons, Bool.false_eq_true, if_false, List.length_cons,
        List.length_append, List.length_nil]
      congr 2 <;> omega
  | none =>
      cases spelled : child.entry.value with
      | scalar token =>
          rw [spelled] at marks
          simp only [Tree.marks, List.nil_append] at marks
          obtain ⟨sepPos, sepAt, sepByte⟩ := at_.sep_read
          simp only [Child.sepIx, spelled, Tree.signs, List.length_nil,
            Nat.add_zero] at sepAt
          have notMark : ¬ (sep = 0x7B ∨ sep = 0x5B) ∧ sep ≠ 0x22 := by
            rcases at_.sepCases with rfl | rfl
            · decide
            · obtain ⟨-, notQuote, notOpener⟩ := Kind.closer_cases kind
              exact ⟨notOpener, notQuote⟩
          simp only [spelled, Tree.signs, List.length_nil, Nat.add_zero] at bound
          have next : u32 (child.ix + 1) = child.ix + 1 := u32_of_lt (by omega)
          rw [Doc.findValueSpan, atIdx_of_getElem? sepAt, ok_bind, getOr, sepByte,
            okOr_some, ok_bind, if_neg notMark.1, if_neg notMark.2, next]
          simp [lastIx, Tree.signs]
      | str body =>
          rw [spelled] at marks reads
          simp only [spelled, Tree.signs, List.length_cons, List.length_nil] at bound
          simp only [Tree.marks, Tree.signs, reads_cons] at marks reads
          have next : u32 (child.ix + 1) = child.ix + 1 := u32_of_lt (by omega)
          have next' : u32 (child.ix + 2) = child.ix + 2 := u32_of_lt (by omega)
          rw [Doc.findValueSpan, atIdx_of_getElem? (getElem?_of_drop marks), ok_bind,
            getOr, reads.1, okOr_some, ok_bind, if_neg (by decide), if_pos rfl, next,
            next']
          simp [lastIx, Tree.signs]
      | empty inner blank => rw [spelled] at shape; cases shape
      | node inner entries => rw [spelled] at shape; cases shape

theorem ChildAt.key_read {name : Name} (at_ : ChildAt doc kind child sep p)
    (named : child.entry.name = some name) (small : doc.indices.length < 2 ^ 32) :
    (∃ keyOpen, doc.indices[child.keyIx]? = some keyOpen ∧
        doc.buf[keyOpen]? = some 0x22) ∧
      keyBytes doc child.keyIx = .ok name.body := by
  obtain ⟨more, marks⟩ := at_.marks
  obtain ⟨front, tail, text, start⟩ := at_.text
  have bound := at_.sepIx_lt
  have keyIx := at_.ix
  simp only [named, nameSigns, List.length_cons, List.length_nil] at keyIx
  simp only [named, nameMarks, List.cons_append, List.nil_append] at marks
  simp only [named, nameText, Name.render] at text
  simp only [Child.sepIx] at bound
  have keyOpen := getElem?_of_drop marks
  have keyClose := getElem?_of_drop
    (@drop_of_drop _ _ [p + name.before.length] _ _ (child.keyIx + 1) marks rfl)
  have quote : doc.buf[p + name.before.length]? = some 0x22 := by
    have split : doc.buf = (front ++ name.before) ++ 0x22 :: (name.body ++ 0x22 ::
        (name.after ++ [0x3A]) ++ (child.entry.before ++ (child.entry.value.render ++
          (child.entry.after ++ sep :: tail)))) := by
      rw [text]
      simp
    rw [split]
    exact getElem?_at (by simp [start])
  refine ⟨⟨_, keyOpen, quote⟩, ?_⟩
  have next : u32 (child.keyIx + 1) = child.keyIx + 1 := u32_of_lt (by omega)
  have split : doc.buf = (front ++ name.before ++ [0x22]) ++ (name.body ++ (0x22 ::
      (name.after ++ [0x3A]) ++ (child.entry.before ++ (child.entry.value.render ++
        (child.entry.after ++ sep :: tail))))) := by
    rw [text]
    simp
  have within : p + name.before.length + 1 ≤ p + name.before.length + 1 +
      name.body.length ∧ p + name.before.length + 1 + name.body.length ≤
        doc.buf.length := by
    rw [split]
    simp only [List.length_append, List.length_cons, start]
    omega
  rw [keyBytes, atIdx_of_getElem? keyOpen, ok_bind, next, atIdx_of_getElem? keyClose,
    ok_bind, slice, if_pos within, split]
  congr 1
  exact drop_take_append (by simp [start]; omega) rfl

/-- The marker in front of a value. -/
theorem ChildAt.prev_ix (at_ : ChildAt doc kind child sep p) :
    0 < child.ix ∧
      doc.indices[child.ix - 1]? = some (p + (nameText child.entry.name).length - 1) := by
  obtain ⟨positive, keyPositive, prev⟩ := at_.prev
  have ix := at_.ix
  cases named : child.entry.name with
  | none =>
      rw [named] at ix
      simp only [nameSigns, List.length_nil, Nat.add_zero] at ix
      rw [ix]
      exact ⟨keyPositive, prev⟩
  | some name =>
      obtain ⟨more, marks⟩ := at_.marks
      simp only [named, nameMarks, List.cons_append, List.nil_append] at marks
      rw [named] at ix
      simp only [nameSigns, List.length_cons, List.length_nil] at ix
      have colon := getElem?_of_drop (@drop_of_drop _ _
        [p + name.before.length, p + name.before.length + 1 + name.body.length] _ _
        (child.keyIx + 2) marks rfl)
      have at_ : child.ix - 1 = child.keyIx + 2 := by omega
      refine ⟨by omega, ?_⟩
      rw [at_, colon]
      simp only [nameText, Name.render, List.length_append, List.length_cons,
        List.length_nil, Option.some.injEq]
      omega

theorem skipWs_before {front before rest : Bytes} {b : UInt8} {start : Nat}
    (at_ : start = front.length) (beforeBlank : IsBlank before) (ink : isWs b = false) :
    skipWs (front ++ (before ++ b :: rest)) start = start + before.length := by
  subst at_
  have run : (before ++ b :: rest).takeWhile isWs = before := by
    rw [List.takeWhile_append_of_pos beforeBlank,
      List.takeWhile_cons_of_neg (by simp [ink]), List.append_nil]
  rw [skipWs, List.drop_left, run]

/-- A value does not start with whitespace. -/
theorem Tree.exists_ink {tree : Tree} (valid : tree.Valid) :
    ∃ b rest, tree.render = b :: rest ∧ isWs b = false := by
  cases tree with
  | scalar token =>
      simp only [Tree.Valid] at valid
      obtain ⟨b, rest, rfl⟩ := List.exists_cons_of_ne_nil valid.ne_nil
      exact ⟨b, rest, rfl, (valid.isInk b (by simp)).1⟩
  | str body => exact ⟨_, _, rfl, rfl⟩
  | empty kind blank => exact ⟨_, _, rfl, by cases kind <;> rfl⟩
  | node kind entries => exact ⟨_, _, rfl, by cases kind <;> rfl⟩

/-- The start of a child's value, searched from the marker in front of it. -/
theorem ChildAt.findScalarStart (at_ : ChildAt doc kind child sep p) :
    findScalarStart doc child.ix = .ok child.pos := by
  obtain ⟨positive, prev⟩ := at_.prev_ix
  obtain ⟨front, tail, text, start⟩ := at_.text
  obtain ⟨b, rest, spelled, ink⟩ := Tree.exists_ink at_.valid
  have bound : 0 < p := at_.prev.1
  have next : p + (nameText child.entry.name).length - 1 + 1 =
      (front ++ nameText child.entry.name).length := by
    rw [List.length_append, ← start]
    omega
  rw [Doc.findScalarStart, if_neg (by omega), atIdx_of_getElem? prev, ok_bind, text, spelled,
    ← List.append_assoc front, List.cons_append, skipWs_before next at_.beforeBlank ink, next,
    at_.pos, List.length_append, ← start, valueStart]

theorem ChildAt.key_marks {name : Name} (at_ : ChildAt doc kind child sep p)
    (named : child.entry.name = some name) :
    ∃ opening closing colon, doc.indices[child.keyIx]? = some opening ∧
      doc.indices[child.keyIx + 1]? = some closing ∧
      doc.indices[child.keyIx + 2]? = some colon ∧
      doc.buf[opening]? = some 0x22 ∧ doc.buf[closing]? = some 0x22 ∧
      doc.buf[colon]? = some 0x3A ∧ closing = opening + 1 + name.body.length ∧
      (doc.buf.drop (opening + 1)).take name.body.length = name.body := by
  obtain ⟨more, marks⟩ := at_.marks
  obtain ⟨front, tail, text, start⟩ := at_.text
  simp only [named, nameMarks, List.cons_append, List.nil_append] at marks
  rw [named] at text
  have reads := reads_nameMarks front (child.entry.before ++ (child.entry.value.render ++
    (child.entry.after ++ sep :: tail))) (some name)
  rw [← text, ← start] at reads
  simp only [nameMarks, nameSigns, reads_cons] at reads
  obtain ⟨opens, closes, parts, -⟩ := reads
  refine ⟨_, _, _, getElem?_of_drop marks,
    getElem?_of_drop (@drop_of_drop _ _ [p + name.before.length] _ _ (child.keyIx + 1) marks
      rfl),
    getElem?_of_drop (@drop_of_drop _ _ [p + name.before.length,
      p + name.before.length + 1 + name.body.length] _ _ (child.keyIx + 2) marks rfl),
    opens, closes, parts, rfl, ?_⟩
  have split : doc.buf = (front ++ name.before ++ [0x22]) ++ (name.body ++ (0x22 ::
      (name.after ++ [0x3A]) ++ (child.entry.before ++ (child.entry.value.render ++
        (child.entry.after ++ sep :: tail))))) := by
    rw [text]
    simp [nameText, Name.render]
  have within : p + name.before.length + 1 + name.body.length -
      (p + name.before.length + 1) = name.body.length := by omega
  have cut := @drop_take_append (front ++ name.before ++ [0x22]) name.body
    (0x22 :: (name.after ++ [0x3A]) ++ (child.entry.before ++ (child.entry.value.render ++
      (child.entry.after ++ sep :: tail)))) (p + name.before.length + 1)
    (p + name.before.length + 1 + name.body.length) (by simp [start]; omega) rfl
  rwa [← split, within] at cut

end Reads

/-- What stands behind a child tells whether another one follows. -/
theorem EntriesAt.next_child {doc : Document} {kind : Kind} {entries : Entries} {p ix : Nat}
    (at_ : EntriesAt doc kind entries p ix) {k : Nat} {child : Child}
    (here : (entriesChildren p ix entries)[k]? = some child) :
    ∃ sep start, ChildAt doc kind child sep start ∧
      match (entriesChildren p ix entries)[k + 1]? with
      | some next => sep = 0x2C ∧ next.keyIx = child.sepIx + 1
      | none => sep = kind.closer := by
  match entries with
  | .last name before value after =>
      cases k with
      | zero =>
          obtain rfl := Option.some.inj here
          exact ⟨_, _, at_.last, rfl⟩
      | succ k => simp [entriesChildren] at here
  | .more name before value after rest =>
      cases k with
      | zero =>
          obtain rfl := Option.some.inj here
          refine ⟨_, _, at_.more.1, ?_⟩
          cases rest <;> exact ⟨rfl, rfl⟩
      | succ k =>
          rw [entriesChildren, List.getElem?_cons_succ] at here ⊢
          exact EntriesAt.next_child at_.more.2 here

end QJson.Doc

import QJson.Rfc8259.Outline
import QJson.Rfc8259.Tree

/-!
# Where the marks of a parse tree stand

The structural index of a text follows its parse tree: `Tree.marks p` lists the
positions of the marks of a value whose text starts at `p`, and `Tree.signs` the
bytes that stand there.  Brackets balance along the signs, which is all that the
bracket-counting loops of the code rely on.
-/

namespace QJson.Rfc8259

/-- Positions of the marks of an optional name that starts at `p`. -/
def nameMarks (p : Nat) : Option Name → List Nat
  | none => []
  | some name =>
      let quote := p + name.before.length
      [quote, quote + 1 + name.body.length,
        quote + 1 + name.body.length + 1 + name.after.length]

/-- The bytes at the marks of an optional name. -/
def nameSigns : Option Name → Bytes
  | none => []
  | some _ => [0x22, 0x22, 0x3A]

/-- Where the value of an entry starts. -/
def valueStart (p : Nat) (name : Option Name) (before : Bytes) : Nat :=
  p + (nameText name).length + before.length

/-- Where the separator behind an entry stands. -/
def separator (p : Nat) (name : Option Name) (before : Bytes) (value : Tree)
    (after : Bytes) : Nat :=
  valueStart p name before + value.render.length + after.length

mutual
/-- Positions of the marks of a value that starts at `p`. -/
def Tree.marks (p : Nat) : Tree → List Nat
  | .scalar _ => []
  | .str body => [p, p + 1 + body.length]
  | .empty _ blank => [p, p + 1 + blank.length]
  | .node _ entries =>
      p :: (entries.marks (p + 1) ++ [p + 1 + entries.render.length])

/-- Positions of the marks between the brackets of a container. -/
def Entries.marks (p : Nat) : Entries → List Nat
  | .last name before value _ =>
      nameMarks p name ++ value.marks (valueStart p name before)
  | .more name before value after rest =>
      nameMarks p name ++ (value.marks (valueStart p name before) ++
        separator p name before value after ::
          rest.marks (separator p name before value after + 1))
end

mutual
/-- The bytes at the marks of a value. -/
def Tree.signs : Tree → Bytes
  | .scalar _ => []
  | .str _ => [0x22, 0x22]
  | .empty kind _ => [kind.opener, kind.closer]
  | .node kind entries => kind.opener :: (entries.signs ++ [kind.closer])

/-- The bytes at the marks between the brackets of a container. -/
def Entries.signs : Entries → Bytes
  | .last name _ value _ => nameSigns name ++ value.signs
  | .more name _ value _ rest =>
      nameSigns name ++ (value.signs ++ 0x2C :: rest.signs)
end

/-! ## The signs are the bytes at the marks -/

/-- The bytes of a buffer at given positions. -/
def Reads (buf : Bytes) (marks : List Nat) (signs : Bytes) : Prop :=
  marks.map (fun i => buf[i]?) = signs.map some

@[simp] theorem reads_nil (buf : Bytes) : Reads buf [] [] := rfl

@[simp] theorem reads_cons {buf : Bytes} {i : Nat} {marks : List Nat} {b : UInt8}
    {signs : Bytes} :
    Reads buf (i :: marks) (b :: signs) ↔ buf[i]? = some b ∧ Reads buf marks signs := by
  simp [Reads]

theorem Reads.append {buf : Bytes} {left right : List Nat} {leftSigns rightSigns : Bytes}
    (leftReads : Reads buf left leftSigns) (rightReads : Reads buf right rightSigns) :
    Reads buf (left ++ right) (leftSigns ++ rightSigns) := by
  simp only [Reads, List.map_append] at *
  rw [leftReads, rightReads]

theorem Reads.length_eq {buf : Bytes} {marks : List Nat} {signs : Bytes}
    (reads : Reads buf marks signs) : marks.length = signs.length := by
  simpa using congrArg List.length reads

theorem reads_append_iff {buf : Bytes} {marks : List Nat} {left right : Bytes} :
    Reads buf marks (left ++ right) ↔ ∃ leftMarks rightMarks,
      marks = leftMarks ++ rightMarks ∧ Reads buf leftMarks left ∧
        Reads buf rightMarks right := by
  constructor
  · intro reads
    rw [Reads, List.map_append, List.map_eq_append_iff] at reads
    exact reads
  · rintro ⟨leftMarks, rightMarks, rfl, leftReads, rightReads⟩
    exact leftReads.append rightReads

theorem exists_of_reads_cons {buf : Bytes} {marks : List Nat} {b : UInt8}
    {signs : Bytes} (reads : Reads buf marks (b :: signs)) :
    ∃ i rest, marks = i :: rest ∧ buf[i]? = some b ∧ Reads buf rest signs := by
  cases marks with
  | nil => cases reads.length_eq
  | cons i rest => exact ⟨i, rest, rfl, reads_cons.1 reads⟩

/-- The marks of a bracketed part and of what follows it. -/
theorem reads_nest {buf : Bytes} {marks : List Nat} {kind : Kind} {inner signs : Bytes}
    (reads : Reads buf marks (kind.opener :: (inner ++ kind.closer :: signs))) :
    ∃ i left j right, marks = i :: (left ++ j :: right) ∧
      buf[i]? = some kind.opener ∧ Reads buf left inner ∧
      buf[j]? = some kind.closer ∧ Reads buf right signs := by
  obtain ⟨i, marks, rfl, opening, reads⟩ := exists_of_reads_cons reads
  obtain ⟨left, right, rfl, readsInner, reads⟩ := reads_append_iff.1 reads
  obtain ⟨j, right, rfl, closing, reads⟩ := exists_of_reads_cons reads
  exact ⟨i, left, j, right, rfl, opening, readsInner, closing, reads⟩

theorem reads_nameMarks (front tail : Bytes) (name : Option Name) :
    Reads (front ++ (nameText name ++ tail)) (nameMarks front.length name)
      (nameSigns name) := by
  cases name with
  | none => exact reads_nil _
  | some name =>
      simp only [nameMarks, nameSigns, reads_cons, reads_nil, and_true, nameText,
        Name.render]
      refine ⟨?_, ?_, ?_⟩
      · have split : front ++ (name.before ++ 0x22 :: (name.body ++ 0x22 ::
            (name.after ++ [0x3A])) ++ tail) = (front ++ name.before) ++ 0x22 ::
            (name.body ++ 0x22 :: (name.after ++ [0x3A]) ++ tail) := by simp
        rw [split]
        exact getElem?_at (by simp)
      · have split : front ++ (name.before ++ 0x22 :: (name.body ++ 0x22 ::
            (name.after ++ [0x3A])) ++ tail) = (front ++ name.before ++ [0x22] ++
            name.body) ++ 0x22 :: (name.after ++ [0x3A] ++ tail) := by simp
        rw [split]
        exact getElem?_at (by simp; omega)
      · have split : front ++ (name.before ++ 0x22 :: (name.body ++ 0x22 ::
            (name.after ++ [0x3A])) ++ tail) = (front ++ name.before ++ [0x22] ++
            name.body ++ [0x22] ++ name.after) ++ 0x3A :: tail := by simp
        rw [split]
        exact getElem?_at (by simp; omega)

mutual
theorem Tree.reads (tree : Tree) (front tail : Bytes) :
    Reads (front ++ (tree.render ++ tail)) (tree.marks front.length) tree.signs := by
  cases tree with
  | scalar token => exact reads_nil _
  | str body =>
      simp only [Tree.marks, Tree.signs, Tree.render, reads_cons, reads_nil, and_true]
      refine ⟨getElem?_at rfl, ?_⟩
      have split : front ++ (0x22 :: (body ++ [0x22]) ++ tail) =
          (front ++ [0x22] ++ body) ++ 0x22 :: tail := by simp
      rw [split]
      exact getElem?_at (by simp; omega)
  | empty kind blank =>
      simp only [Tree.marks, Tree.signs, Tree.render, reads_cons, reads_nil, and_true]
      refine ⟨getElem?_at rfl, ?_⟩
      have split : front ++ (kind.opener :: (blank ++ [kind.closer]) ++ tail) =
          (front ++ [kind.opener] ++ blank) ++ kind.closer :: tail := by simp
      rw [split]
      exact getElem?_at (by simp; omega)
  | node kind entries =>
      simp only [Tree.marks, Tree.signs, Tree.render, reads_cons]
      refine ⟨getElem?_at rfl, Reads.append ?_ ?_⟩
      · have inner := Entries.reads entries (front ++ [kind.opener])
          (kind.closer :: tail)
        simpa using inner
      · simp only [reads_cons, reads_nil, and_true]
        have split : front ++ (kind.opener :: (entries.render ++ [kind.closer]) ++ tail) =
            (front ++ [kind.opener] ++ entries.render) ++ kind.closer :: tail := by simp
        rw [split]
        exact getElem?_at (by simp; omega)

theorem Entries.reads (entries : Entries) (front tail : Bytes) :
    Reads (front ++ (entries.render ++ tail)) (entries.marks front.length)
      entries.signs := by
  cases entries with
  | last name before value after =>
      simp only [Entries.marks, Entries.signs, Entries.render, List.append_assoc]
      refine Reads.append (reads_nameMarks front _ name) ?_
      have inner := Tree.reads value (front ++ nameText name ++ before) (after ++ tail)
      simpa [valueStart, Nat.add_assoc] using inner
  | more name before value after rest =>
      simp only [Entries.marks, Entries.signs, Entries.render, List.append_assoc]
      refine Reads.append (reads_nameMarks front _ name) (Reads.append ?_ ?_)
      · have inner := Tree.reads value (front ++ nameText name ++ before)
          (after ++ 0x2C :: rest.render ++ tail)
        simpa [valueStart, Nat.add_assoc] using inner
      · rw [reads_cons]
        constructor
        · have split : front ++ (nameText name ++ (before ++ (value.render ++ (after ++
              (0x2C :: rest.render ++ tail))))) = (front ++ nameText name ++ before ++
              value.render ++ after) ++ 0x2C :: (rest.render ++ tail) := by simp
          rw [split]
          exact getElem?_at (by simp [separator, valueStart, Nat.add_assoc])
        · have inner := Entries.reads rest (front ++ nameText name ++ before ++
            value.render ++ after ++ [0x2C]) tail
          simpa [separator, valueStart, Nat.add_assoc] using inner
end

/-! ## The marks lie in the text -/

mutual
/-- The marks of a value lie inside its text. -/
theorem Tree.marks_lt (tree : Tree) (p : Nat) :
    ∀ i ∈ tree.marks p, p ≤ i ∧ i < p + tree.render.length := by
  cases tree with
  | scalar token => simp [Tree.marks]
  | str body =>
      simp only [Tree.marks, Tree.render, List.mem_cons, List.not_mem_nil, or_false,
        List.length_cons, List.length_append, List.length_nil]
      omega
  | empty kind blank =>
      simp only [Tree.marks, Tree.render, List.mem_cons, List.not_mem_nil, or_false,
        List.length_cons, List.length_append, List.length_nil]
      omega
  | node kind entries =>
      intro i member
      simp only [Tree.marks, List.mem_cons, List.mem_append, List.not_mem_nil,
        or_false] at member
      simp only [Tree.render, List.length_cons, List.length_append, List.length_nil]
      rcases member with rfl | inner | rfl
      · omega
      · have := Entries.marks_lt entries (p + 1) i inner
        omega
      · omega

theorem Entries.marks_lt (entries : Entries) (p : Nat) :
    ∀ i ∈ entries.marks p, p ≤ i ∧ i < p + entries.render.length := by
  have inName : ∀ name : Option Name, ∀ i ∈ nameMarks p name,
      p ≤ i ∧ i < p + (nameText name).length := by
    intro name i member
    cases name with
    | none => simp [nameMarks] at member
    | some name =>
        simp only [nameMarks, List.mem_cons, List.not_mem_nil, or_false] at member
        simp only [nameText, Name.render, List.length_append, List.length_cons,
          List.length_nil]
        omega
  cases entries with
  | last name before value after =>
      intro i member
      simp only [Entries.marks, List.mem_append] at member
      simp only [Entries.render, List.length_append]
      rcases member with here | inner
      · have := inName name i here
        omega
      · have := Tree.marks_lt value (valueStart p name before) i inner
        simp only [valueStart] at this
        omega
  | more name before value after more =>
      intro i member
      simp only [Entries.marks, List.mem_append, List.mem_cons] at member
      simp only [Entries.render, List.length_append, List.length_cons]
      rcases member with here | inner | rfl | later
      · have := inName name i here
        omega
      · have := Tree.marks_lt value (valueStart p name before) i inner
        simp only [valueStart] at this
        omega
      · simp only [separator, valueStart]
        omega
      · have := Entries.marks_lt more (separator p name before value after + 1) i later
        simp only [separator, valueStart] at this
        omega
end

/-! ## Brackets balance along the signs -/

/-- A sequence of signs in which every bracket is closed by its partner and
quotation marks come in pairs. -/
inductive Balanced : Bytes → Prop where
  | nil : Balanced []
  | sep {b : UInt8} {signs : Bytes} : b = 0x2C ∨ b = 0x3A → Balanced signs →
      Balanced (b :: signs)
  | quotes {signs : Bytes} : Balanced signs → Balanced (0x22 :: 0x22 :: signs)
  | nest (kind : Kind) {inner signs : Bytes} : Balanced inner → Balanced signs →
      Balanced (kind.opener :: (inner ++ kind.closer :: signs))

theorem Balanced.append {left right : Bytes} (leftBalanced : Balanced left)
    (rightBalanced : Balanced right) : Balanced (left ++ right) := by
  induction leftBalanced with
  | nil => exact rightBalanced
  | sep separator _ ih => exact .sep separator ih
  | quotes _ ih => exact .quotes ih
  | nest kind inner _ _ ih =>
      rw [List.cons_append, List.append_assoc, List.cons_append]
      exact .nest kind inner ih

theorem balanced_nameSigns (name : Option Name) : Balanced (nameSigns name) := by
  cases name with
  | none => exact .nil
  | some name => exact .quotes (.sep (.inr rfl) .nil)

mutual
theorem Tree.balanced (tree : Tree) : Balanced tree.signs := by
  cases tree with
  | scalar token => exact .nil
  | str body => exact .quotes .nil
  | empty kind blank => exact .nest kind .nil .nil
  | node kind entries =>
      simp only [Tree.signs]
      exact .nest kind (Entries.balanced entries) .nil

theorem Entries.balanced (entries : Entries) : Balanced entries.signs := by
  cases entries with
  | last name before value after =>
      simp only [Entries.signs]
      exact (balanced_nameSigns name).append (Tree.balanced value)
  | more name before value after rest =>
      simp only [Entries.signs]
      exact (balanced_nameSigns name).append
        ((Tree.balanced value).append (.sep (.inl rfl) (Entries.balanced rest)))
end

theorem Tree.exists_brackets {tree : Tree} {kind : Kind} (container : tree.kind? = some kind)
    (p : Nat) :
    ∃ inner signs, tree.marks p = p :: (inner ++ [p + tree.render.length - 1]) ∧
      tree.signs = kind.opener :: (signs ++ [kind.closer]) ∧ Balanced signs := by
  cases tree with
  | scalar token => cases container
  | str body => cases container
  | empty kind blank =>
      obtain rfl := Option.some.inj container
      refine ⟨[], [], ?_, rfl, .nil⟩
      simp only [Tree.marks, Tree.render, List.nil_append, List.length_cons,
        List.length_append, List.length_nil, List.cons.injEq, and_true, true_and]
      omega
  | node kind entries =>
      obtain rfl := Option.some.inj container
      refine ⟨entries.marks (p + 1), entries.signs, ?_, by simp [Tree.signs],
        entries.balanced⟩
      simp only [Tree.marks, Tree.render, List.length_cons, List.length_append,
        List.length_nil]
      congr 3
      omega

end QJson.Rfc8259

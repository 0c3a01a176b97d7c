import QJson.Table.Carried
import QJson.Table.Materialized
import QJson.Table.Verbatim
import QJson.Table.Yielded

/-!
# Looking at a heap

Reads, lengths, loops, materializations and encodings leave every value spelled as it was.
A child that a read puts into the cache stands for the one member that has its key, and a loop
clears an entry only under a key that occurs again.
-/

namespace QJson.Table

open Rfc8259 Validate Doc Decode Ffi Lua

section Statements

variable {F : Type} [DecidableEq F]

/-- The keys that a loop over members has seen are keys of members behind it. -/
def Trails (forest : Forest) (s : State F) : Loop → Prop
  | .entries view it seen => ∃ q place k, s.proxy? view = some q ∧ q.kind = .obj ∧
      At forest q.doc place ∧ q.cur = place.cursor ∧ it = iterPlace place k ∧
      ∀ key ∈ seen, key ∈ (place.children.take k).map keyText
  | _ => True

/-- The heap is well formed, and the loops trail their members. -/
structure Ready (forest : Forest) (s : State F) : Prop where
  wf : Wf forest s
  trails : ∀ loop ∈ s.loops, Trails forest s loop

/-- What a step leaves: a ready heap, and when it is as harmless as the condition says, every
value spelled as before. -/
structure Glanced (env : Env F) (harmless : Prop) (forest : Forest) (s : State F)
    (forest' : Forest) (s' : State F) : Prop where
  ready : Ready forest' s'
  later : Later s s'
  spells : harmless → ∀ v tree, Spells env forest s (.value v) tree →
    Spells env forest' s' (.value v) tree

/-- Apart from the tables and the cells, two states are alike. -/
structure Alongside (s s' : State F) : Prop where
  docs : s'.docs = s.docs
  origins : s'.origins = s.origins
  loops : s'.loops = s.loops
  settings : s'.settings = s.settings

/-- A step that leaves the documents as they are, at both ends. -/
def Glances {α : Type} (env : Env F) (harmless : Prop) (forest : Forest) (s : State F)
    (action : Act F α) : Prop :=
  Action.Wp action s (fun _ s' => Glanced env harmless forest s forest s')
    (Glanced env harmless forest s forest)

end Statements

section Rules

variable {F : Type} [DecidableEq F] {env : Env F} {harmless : Prop}
  {forest forest' forest'' : Forest} {s s' s'' : State F} {loop : Loop}

omit [DecidableEq F] in
/-- A loop trails its members wherever the proxies stay what they stand for. -/
theorem Trails.later (trails : Trails forest s loop) (later : Later s s') :
    Trails forest s' loop := by
  cases loop with
  | entries view it seen =>
      obtain ⟨q, place, k, here, object, at_, cursor, iter, behind⟩ := trails
      obtain ⟨table, here', follows⟩ := later view _ (proxy?_eq_some.1 here)
      cases table with
      | proxy q' =>
          obtain ⟨kind, -, doc, cur, -⟩ := follows
          exact ⟨q', place, k, proxy?_eq_some.2 here', kind.trans object, doc.symm ▸ at_,
            cur.trans cursor, iter, behind⟩
      | plain p => exact absurd (object.symm.trans follows) (by decide)
  | ordered view i => trivial
  | elements view i => trivial

theorem Ready.later (ready : Ready forest s) (wf : Wf forest s') (later : Later s s')
    (loops : s'.loops = s.loops) : Ready forest s' := by
  refine ⟨wf, fun loop member => ?_⟩
  rw [loops] at member
  exact (ready.trails loop member).later later

theorem Glanced.refl (ready : Ready forest s) : Glanced env harmless forest s forest s :=
  ⟨ready, Later.of_tables rfl, fun _ _ _ => id⟩

theorem Glanced.trans (first : Glanced env harmless forest s forest' s')
    (second : Glanced env harmless forest' s' forest'' s'') :
    Glanced env harmless forest s forest'' s'' :=
  ⟨second.ready, first.later.trans second.later, fun may v tree spells =>
    second.spells may v tree (first.spells may v tree spells)⟩

theorem Glanced.imp {weaker : Prop} (glanced : Glanced env weaker forest s forest' s')
    (may : harmless → weaker) : Glanced env harmless forest s forest' s' :=
  ⟨glanced.ready, glanced.later, fun holds => glanced.spells (may holds)⟩

/-- A change that carries the spellings along. -/
theorem Ready.glanced (ready : Ready forest s) (wf : Wf forest s') (later : Later s s')
    (loops : s'.loops = s.loops) (carrying : harmless → Carrying env forest s forest s') :
    Glanced env harmless forest s forest s' :=
  ⟨ready.later wf later loops, later, fun may _ _ spells =>
    (carrying may).spells spells (.same _)⟩

theorem Ready.grown (ready : Ready forest s) (kept : Kept env forest s s')
    (loops : s'.loops = s.loops) (settings : s'.settings = s.settings)
    (origins : s'.origins = s.origins) : Glanced env harmless forest s forest s' :=
  ready.glanced kept.wf kept.grown.later loops fun _ =>
    kept.grown.carrying ready.wf settings origins

theorem Ready.opened (ready : Ready forest s) (opened : Opened forest s s') :
    Glanced env harmless forest s forest s' := by
  obtain ⟨added, -, adds⟩ := opened.opens
  exact ready.grown opened.kept adds.loops adds.settings adds.origins

theorem Ready.quiet (ready : Ready forest s) (quiet : Quiet s s')
    (library : Library forest s') : Glanced env harmless forest s forest s' :=
  ready.opened ((Opened.refl ready.wf).quiet quiet library)

theorem Ready.withLoops (ready : Ready forest s) {loops : List Loop}
    (ok : ∀ loop ∈ loops, LoopOk forest s loop ∧ Trails forest s loop) :
    Glanced env harmless forest s forest { s with loops } := by
  have later : Later s { s with loops } := Later.of_tables rfl
  have grown : Grown env forest s { s with loops } := ⟨rfl, fun _ _ => id, fun _ _ => .inl⟩
  refine ⟨⟨ready.wf.withLoops fun loop member => (ok loop member).1, fun loop member => ?_⟩,
    later, fun _ _ _ spells => (grown.carrying ready.wf rfl rfl).spells spells (.same _)⟩
  exact (ok loop member).2.later later

theorem Ready.setLoop (ready : Ready forest s) (i : Nat) (ok : LoopOk forest s loop)
    (trails : Trails forest s loop) :
    Glanced env harmless forest s forest { s with loops := s.loops.set i loop } := by
  apply ready.withLoops
  intro other member
  rcases List.mem_or_eq_of_mem_set member with old | rfl
  · exact ⟨ready.wf.loops other old, ready.trails other old⟩
  · exact ⟨ok, trails⟩

theorem glances_newLoop (ready : Ready forest s) (ok : LoopOk forest s loop)
    (trails : Trails forest s loop) :
    Glances env harmless forest s (newLoop loop : Act F Nat) := by
  apply ready.withLoops
  intro other member
  rcases List.mem_append.1 member with old | new
  · exact ⟨ready.wf.loops other old, ready.trails other old⟩
  · obtain rfl := List.mem_singleton.1 new
    exact ⟨ok, trails⟩

end Rules

/-! ## Caches -/

section Caches

variable {F : Type} [DecidableEq F] {env : Env F} {forest : Forest} {s : State F} {t : Nat}
  {children : List Child} {child : Child} {key : Bytes} {v : Option (Value F)}

theorem lastUnder_of_count (once : (children.map keyText).count key = 1)
    (member : child ∈ children) (same : keyText child = key) :
    lastUnder children key = some child := by
  rw [lastUnder]
  have kept : child ∈ children.filter fun other => keyText other = key := by
    simp [member, same]
  have single : (children.filter fun other => keyText other = key).length = 1 := by
    rw [← List.countP_eq_length_filter, ← once, List.count, List.countP_map]
    apply List.countP_congr
    intro other _
    simp [Function.comp]
  obtain ⟨other, alone⟩ := List.length_eq_one_iff.1 single
  rw [alone] at kept ⊢
  rw [List.mem_singleton.1 kept, List.getLast?_singleton]

/-- A key without a backslash leads to a member with that key. -/
theorem keyText_of_firstSpelled (found : firstSpelled children key = some child)
    (plain : 0x5C ∉ key) : keyText child = key := by
  have spelled := List.find?_some found
  rw [keyText]
  cases isName : child.entry.name with
  | none =>
      rw [isName] at spelled
      cases spelled
  | some name =>
      rw [isName] at spelled
      have same : name.body = key := by simpa using spelled
      simp only
      rw [same, bodyText, if_neg plain]

/-- A new entry of the child cache: under a key that occurs once, it is the member with that
key. -/
theorem carrying_cached (wf : Wf forest s)
    (fits : ∀ q place, s.proxy? t = some q → q.dirty = true → q.order = none →
      At forest q.doc place → q.cur = place.cursor →
      (place.children.map keyText).count key = 1 → q.childCache.lookup key = none ∧
        ∃ child, lastUnder place.children key = some child ∧ Yields env s t q.doc child.place v) :
    Carrying env forest s forest
      (s.updateProxy t fun q => { q with childCache := put q.childCache key v }) := by
  refine carrying_updateProxy wf (fun q => ⟨rfl, rfl, rfl, rfl, rfl⟩) ?_ ?_
  · intro q place here dirty object unordered at_ cursor k
    by_cases other : k = key
    · subst other
      by_cases once : (place.children.map keyText).count k = 1
      · obtain ⟨missing, child, last, yields⟩ :=
          fits q place here dirty unordered at_ cursor once
        obtain ⟨w, rfl⟩ := yields.isSome
        obtain ⟨i, inside⟩ := List.getElem?_of_mem (mem_of_lastUnder last).1
        rw [memberPart, memberPart, cachedOnce, cachedOnce, if_pos once, if_pos once, missing,
          lookup_put, if_pos rfl, last]
        exact .some ⟨rfl, .opened (at_.child inside) (yields.update wf _)⟩
      · rw [memberPart, memberPart, cachedOnce, cachedOnce, if_neg once, if_neg once]
        exact replaces_refl _
    · rw [memberPart, memberPart, cachedOnce, cachedOnce, lookup_put, if_neg other]
      exact replaces_refl _
  · intro q place _ _ _ _ _ i
    exact replaces_refl _

/-- A new element in the cache of an array. -/
theorem carrying_element (wf : Wf forest s) {n : Nat}
    (fits : ∀ q place, s.proxy? t = some q → At forest q.doc place → q.cur = place.cursor →
      q.elems.lookup (n + 1) = none ∧
        ∃ child, place.children[n]? = some child ∧ Yields env s t q.doc child.place v) :
    Carrying env forest s forest
      (s.updateProxy t fun q => { q with elems := put q.elems (n + 1) v }) := by
  refine carrying_updateProxy wf (fun q => ⟨rfl, rfl, rfl, rfl, rfl⟩) ?_ ?_
  · intro q place _ _ _ _ _ _ k
    exact replaces_refl _
  · intro q place here _ _ at_ cursor i
    rw [elementPart, elementPart, lookup_put]
    by_cases itself : i + 1 = n + 1
    · obtain rfl := Nat.succ.inj itself
      obtain ⟨missing, child, inside, yields⟩ := fits q place here at_ cursor
      obtain ⟨w, rfl⟩ := yields.isSome
      rw [if_pos rfl, missing, inside]
      exact .some ⟨rfl, .opened (at_.child inside) (yields.update wf _)⟩
    · rw [if_neg itself]
      exact replaces_refl _

end Caches

end QJson.Table

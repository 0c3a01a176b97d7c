import Mathlib.Data.Fintype.Card
import Mathlib.Data.Set.Finite.Basic
import Mathlib.Logic.Relation

/-!
# Reachability

Two relations that agree on a part which the first does not leave reach the same things from
there.  Where finitely many things have something next, walks end unless they come by a
thing again.
-/

namespace QJson

open Relation

variable {α : Type} {R R' : α → α → Prop} {S T : α → Prop} {a b : α}

/-- A path that stays in a part on which the other relation has its steps. -/
theorem reflTransGen_on (step : ∀ a b, S a → R a b → S b ∧ R' a b) (start : S a)
    (path : ReflTransGen R a b) : S b ∧ ReflTransGen R' a b := by
  induction path with
  | refl => exact ⟨start, .refl⟩
  | tail _ last ih =>
      obtain ⟨inside, other⟩ := step _ _ ih.1 last
      exact ⟨inside, ih.2.tail other⟩

/-- A path that leaves the part only for dead ends. -/
theorem reflTransGen_dead (step : ∀ a b, S a → R a b → T b ∨ S b ∧ R' a b)
    (dead : ∀ a b, T a → ¬ R a b) (start : S a) (path : ReflTransGen R a b) :
    T b ∨ S b ∧ ReflTransGen R' a b := by
  induction path with
  | refl => exact .inr ⟨start, .refl⟩
  | tail _ last ih =>
      rcases ih with stuck | ⟨inside, other⟩
      · exact absurd last (dead _ _ stuck)
      · rcases step _ _ inside last with stuck | ⟨inside', other'⟩
        · exact .inl stuck
        · exact .inr ⟨inside', other.tail other'⟩

/-! ## Walks that end -/

/-- When only finitely many things have something next, and nothing that is reached comes by
itself again, every walk ends. -/
theorem acc_of_acyclic {ends : Set α} (finite : ends.Finite) (next : ∀ a b, R a b → a ∈ ends)
    (acyclic : ∀ b, ReflTransGen R a b → ¬ TransGen R b b) : Acc (fun b a => R a b) a := by
  let Reached := {b : α // ReflTransGen R a b ∧ b ∈ ends}
  let later : Reached → Reached → Prop := fun c b => TransGen R b.1 c.1
  have : Finite Reached :=
    finite.subset fun b (inside : ReflTransGen R a b ∧ b ∈ ends) => inside.2
  have : IsTrans Reached later := ⟨fun _ _ _ first second => TransGen.trans second first⟩
  have : Std.Irrefl later := ⟨fun b => acyclic b.1 b.2.1⟩
  have founded : WellFounded later := Finite.wellFounded_of_trans_of_irrefl later
  have inside (b : Reached) : Acc (fun b a => R a b) b.1 := by
    induction b using founded.induction with
    | _ b ih =>
      refine .intro _ fun c step => ?_
      by_cases more : c ∈ ends
      · exact ih ⟨c, b.2.1.tail step, more⟩ (.single step)
      · exact .intro _ fun d step' => absurd (next c d step') more
  by_cases more : a ∈ ends
  · exact inside ⟨a, .refl, more⟩
  · exact .intro _ fun c step => absurd (next a c step) more

/-- Where every walk ends, nothing that is reached comes by itself again. -/
theorem acyclic_of_acc (acc : Acc (fun b a => R a b) a) (path : ReflTransGen R a b) :
    ¬ TransGen R b b := by
  have behind : Acc (fun b a => R a b) b := by
    induction path with
    | refl => exact acc
    | tail _ step ih => exact ih.inv step
  induction behind with
  | intro b _ ih =>
    intro cycle
    obtain ⟨c, step, rest⟩ := TransGen.head'_iff.1 cycle
    exact ih c step (path.tail step) (.tail' rest step)

end QJson

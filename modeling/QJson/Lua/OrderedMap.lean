import Mathlib.Data.List.AList

/-!
# Ordered maps

A list of entries with distinct keys is a map with an order.  A key keeps its place when its
value changes, and a new key comes last; removing a key and putting it back moves it to the
end.
-/

namespace QJson.OrderedMap

variable {κ β : Type} [DecidableEq κ] {m : AList fun _ : κ => β} {j k : κ} {v : β}

/-- A key gets a value: in its place if it has one, else at the end. -/
def assign (m : AList fun _ : κ => β) (k : κ) (v : β) : AList fun _ : κ => β :=
  if inside : k ∈ m then m.replace k v
  else ⟨m.entries ++ [⟨k, v⟩], by
    rw [List.NodupKeys, List.keys, List.map_append]
    refine m.nodupKeys.append (List.nodup_singleton k) fun j old new => ?_
    obtain rfl := List.mem_singleton.1 new
    exact inside old⟩

/-- The entries of a list, assigned one after the other. -/
def collapse (entries : List (κ × β)) : AList fun _ : κ => β :=
  entries.foldl (fun m e => assign m e.1 e.2) ∅

theorem keys_assign (m : AList fun _ : κ => β) (k : κ) (v : β) :
    (assign m k v).keys = if k ∈ m.keys then m.keys else m.keys ++ [k] := by
  by_cases inside : k ∈ m
  · rw [assign, dif_pos inside, if_pos (AList.mem_keys.1 inside), AList.keys_replace]
  · rw [assign, dif_neg inside, if_neg (mt AList.mem_keys.2 inside)]
    exact List.map_append

theorem dlookup_kreplace (entries : List (Sigma fun _ : κ => β)) (inside : k ∈ entries.keys)
    (j : κ) : (entries.kreplace k v).dlookup j = if j = k then some v else entries.dlookup j := by
  induction entries with
  | nil => cases inside
  | cons e entries ih =>
      obtain ⟨i, w⟩ := e
      by_cases here : k = i
      · subst here
        have step : List.kreplace k v (⟨k, w⟩ :: entries) = ⟨k, v⟩ :: entries :=
          List.lookmap_cons_some _ _ (if_pos rfl)
        rw [step]
        split
        · rename_i same
          rw [same, List.dlookup_cons_eq]
        · rename_i apart
          rw [List.dlookup_cons_ne _ _ apart, List.dlookup_cons_ne _ _ apart]
      · have there : k ∈ entries.keys := by
          rw [List.keys_cons, List.mem_cons] at inside
          exact inside.resolve_left here
        have step : List.kreplace k v (⟨i, w⟩ :: entries) = ⟨i, w⟩ :: entries.kreplace k v :=
          List.lookmap_cons_none _ _ (if_neg here)
        rw [step]
        by_cases first : j = i
        · subst first
          rw [List.dlookup_cons_eq, List.dlookup_cons_eq, if_neg (Ne.symm here)]
        · rw [List.dlookup_cons_ne _ _ first, List.dlookup_cons_ne _ _ first, ih there]

theorem lookup_assign (m : AList fun _ : κ => β) (k : κ) (v : β) (j : κ) :
    (assign m k v).lookup j = if j = k then some v else m.lookup j := by
  rw [assign]
  split
  · rename_i inside
    exact dlookup_kreplace m.entries inside j
  · rename_i new
    rw [AList.lookup, List.dlookup_append]
    split
    · rename_i same
      rw [same, List.dlookup_eq_none.2 new, List.dlookup_cons_eq]
      rfl
    · rename_i apart
      rw [List.dlookup_cons_ne _ _ apart, List.dlookup_nil, Option.or_none]
      rfl

@[simp] theorem collapse_nil : collapse ([] : List (κ × β)) = ∅ := rfl

theorem collapse_concat (entries : List (κ × β)) (e : κ × β) :
    collapse (entries ++ [e]) = assign (collapse entries) e.1 e.2 := by
  rw [collapse, List.foldl_append]
  rfl

end QJson.OrderedMap

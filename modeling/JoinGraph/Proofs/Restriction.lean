import JoinGraph.Proofs.Mention
import JoinGraph.Proofs.Registry

/-!
# Restricting the Joins of a Query

Pruning and removal take joins out and leave everything else as it is. `Query.restrict` is this one
change, with the bindings that are kept as a parameter: removal keeps all bindings but one
(`remove_eq_restrict`), and pruning keeps those that are live.

What can be looked up under a binding that is kept, or under an alias that no join taken out holds,
is found unchanged (`source?_restrict`, `join?_restrict`).
-/

namespace JoinGraph.Query

/-- The query with only those joins whose binding is kept. -/
def restrict (q : Query) (keep : Binding → Bool) : Query :=
  { q with joins := q.joins.filter fun j => keep j.index }

variable {q r : Query} {keep : Binding → Bool} {b : Binding} {a : Alias} {j : Join}

theorem mem_joins_restrict : j ∈ (q.restrict keep).joins ↔ j ∈ q.joins ∧ keep j.index = true :=
  List.mem_filter

theorem joins_restrict_sublist (q : Query) (keep : Binding → Bool) :
    (q.restrict keep).joins.Sublist q.joins :=
  List.filter_sublist

@[simp] theorem clauses_restrict (q : Query) (keep : Binding → Bool) :
    (q.restrict keep).clauses = q.clauses := rfl

theorem WellFormed.restrict (h : q.WellFormed) (keep : Binding → Bool) :
    (q.restrict keep).WellFormed :=
  h.drop (joins_restrict_sublist q keep) rfl

/-- Keeping every join changes nothing. -/
theorem restrict_eq_self (h : ∀ j ∈ q.joins, keep j.index = true) : q.restrict keep = q := by
  rw [Query.restrict, List.filter_eq_self.2 h]
  cases q
  rfl

/-- Only what is kept among the bindings of joins matters. -/
theorem restrict_congr {keep' : Binding → Bool}
    (h : ∀ j ∈ q.joins, keep j.index = keep' j.index) : q.restrict keep = q.restrict keep' := by
  rw [Query.restrict, Query.restrict, List.filter_congr h]

theorem restrict_restrict (q : Query) (keep keep' : Binding → Bool) :
    (q.restrict keep).restrict keep' = q.restrict fun b => keep' b && keep b := by
  rw [Query.restrict, Query.restrict, List.filter_filter]
  rfl

/-- A join whose binding is kept can be appended before or after. -/
theorem append_restrict (h : keep q.nextIndex = true) (name : Option Alias)
    (request : JoinRequest) :
    (q.append name request).restrict keep = (q.restrict keep).append name request := by
  have hnew : [(⟨q.nextIndex, name, request.qualifier, request.source, request.on⟩ : Join)].filter
      (fun j => keep j.index) = [⟨q.nextIndex, name, request.qualifier, request.source,
        request.on⟩] := List.filter_cons_of_pos h
  rw [Query.restrict, joins_append, List.filter_append, hnew]
  rfl

/-- The bindings of a restricted query are kept, and so is the root. -/
theorem mem_bindings_restrict_iff (hroot : keep Binding.root = true) :
    b ∈ (q.restrict keep).bindings ↔ b ∈ q.bindings ∧ keep b = true := by
  rw [mem_bindings, mem_bindings]
  constructor
  · rintro (rfl | ⟨j, hj, rfl⟩)
    · exact ⟨.inl rfl, hroot⟩
    · obtain ⟨hmem, hkeep⟩ := mem_joins_restrict.1 hj
      exact ⟨.inr ⟨j, hmem, rfl⟩, hkeep⟩
  · rintro ⟨rfl | ⟨j, hj, rfl⟩, hkeep⟩
    · exact .inl rfl
    · exact .inr ⟨j, mem_joins_restrict.2 ⟨hj, hkeep⟩, rfl⟩

/-! ### Looking up -/

/-- A search does not notice that elements are gone which it would not have found. -/
private theorem find?_filter_of_imp {α : Type} {keep found : α → Bool} {xs : List α}
    (h : ∀ x ∈ xs, found x = true → keep x = true) :
    (xs.filter keep).find? found = xs.find? found := by
  induction xs with
  | nil => rfl
  | cons x rest ih =>
    obtain ⟨hx, hrest⟩ := List.forall_mem_cons.1 h
    by_cases hfound : found x = true
    · rw [List.filter_cons_of_pos (hx hfound), List.find?_cons_of_pos hfound,
        List.find?_cons_of_pos hfound]
    · rw [List.find?_cons_of_neg hfound, ← ih hrest, List.filter_cons]
      split
      · rw [List.find?_cons_of_neg hfound]
      · rfl

/-- An alias is looked up as before when the join that holds it is kept. -/
theorem join?_restrict (h : ∀ j ∈ q.joins, j.name = some a → keep j.index = true) :
    (q.restrict keep).join? a = q.join? a :=
  find?_filter_of_imp fun j hj hname => h j hj (of_decide_eq_true hname)

/-- The source behind a binding that is kept is found as before. -/
theorem source?_restrict (h : keep b = true) : (q.restrict keep).source? b = q.source? b := by
  have hjoin : (q.restrict keep).joinAt? b = q.joinAt? b :=
    find?_filter_of_imp fun j _ hindex => by rw [of_decide_eq_true hindex, h]
  rw [source?, source?, hjoin]
  rfl

/-! ### Removal -/

/-- Removing the join under an alias keeps all bindings but that of the join. -/
theorem remove_eq_restrict (h : q.WellFormed) (hj : q.join? a = some j) :
    q.remove a = q.restrict fun b => decide (b ≠ j.index) := by
  obtain ⟨hmem, hname⟩ := mem_joins_of_join? hj
  rw [remove, Query.restrict, List.filter_congr]
  intro k hk
  -- Only one join holds the alias, and only one has the binding.
  have hiff : k.name = some a ↔ k.index = j.index := by
    constructor
    · intro hkname
      rw [h.join?_eq_some hk hkname] at hj
      rw [Option.some.inj hj]
    · intro hindex
      rw [h.eq_of_index_eq hk hmem hindex, hname]
  simp only [ne_eq, hiff]

/-- Removing an alias that no join holds changes nothing. -/
theorem remove_eq_self (h : q.join? a = none) : q.remove a = q := by
  rw [join?, List.find?_eq_none] at h
  have hkept : (q.joins.filter fun j => decide (j.name ≠ some a)) = q.joins :=
    List.filter_eq_self.2 fun j hj => by simpa using h j hj
  rw [remove, hkept]
  cases q
  rfl

/-- A checked removal that goes through removes what is not held, or what is not used. -/
theorem removeChecked_cases {name : Alias} (h : q.removeChecked name = .ok r) :
    r = q.remove name ∧ ∀ j, q.join? name = some j → q.Unused j.index := by
  refine ⟨eq_remove_of_removeChecked h, fun j hj => ?_⟩
  rw [removeChecked_eq hj] at h
  split at h
  · rename_i huses
    exact uses_eq_zero_iff.1 huses
  · cases h

end JoinGraph.Query

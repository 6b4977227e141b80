import JoinGraph.Query

/-!
# Well-formed queries

A query is well-formed when its joins are numbered from 1 in ascending order, no alias is held
twice, and the counter is above every number in use. `Query.check` decides this for a query that
comes from outside and names the first rule that is broken: joins in order, for each join its
binding before its alias, and the counter last.
-/

namespace JoinGraph

/-- The first rule that a query from outside breaks. -/
inductive QueryFault where
  /-- A join's binding is not above that of the join before it. -/
  | indexNotAbove (index last : Binding)
  | repeatedAlias (name : Alias)
  /-- The counter is not above the last binding in use. -/
  | counterNotAbove (counter last : Binding)
deriving DecidableEq

/-- The wording of a broken rule. -/
def QueryFault.message : QueryFault → String
  | .indexNotAbove index last =>
    "join index " ++ index.label ++ " must be greater than " ++ last.label
  | .repeatedAlias name => "alias '" ++ name.text ++ "' is registered twice"
  | .counterNotAbove counter last =>
    "next_index " ++ counter.label ++ " must be greater than the last join index " ++ last.label

namespace Query

/-- Joins are numbered upwards from 1, aliases are held once, and the counter is above them all. -/
structure WellFormed (q : Query) : Prop where
  /-- The bindings of joins ascend. -/
  ascending : (q.joins.map (·.index)).Pairwise (· < ·)
  /-- No join has the binding of the root. -/
  positive : ∀ j ∈ q.joins, Binding.root < j.index
  /-- No two joins hold one alias. -/
  nodup : q.aliases.Nodup
  /-- The counter is not the binding of the root. -/
  counter_positive : Binding.root < q.nextIndex
  /-- The counter is above every join. -/
  counter_above : ∀ j ∈ q.joins, j.index < q.nextIndex

/-- Check joins in order, given the last binding and the aliases before them; the last binding of
all, or the first rule broken. A join's binding is checked before its alias. -/
def checkJoins (last : Binding) (seen : List Alias) : List Join → Except QueryFault Binding
  | [] => .ok last
  | j :: rest =>
    if j.index ≤ last then .error (.indexNotAbove j.index last)
    else
      match j.name with
      | none => checkJoins j.index seen rest
      | some name =>
        if name ∈ seen then .error (.repeatedAlias name)
        else checkJoins j.index (name :: seen) rest

/-- Check the joins and then the counter. -/
def check (q : Query) : Except QueryFault Unit :=
  match checkJoins Binding.root [] q.joins with
  | .error fault => .error fault
  | .ok last =>
    if q.nextIndex ≤ last then .error (.counterNotAbove q.nextIndex last) else .ok ()

private theorem find?_eq_some_of_pairwise_ne {α β : Type} [DecidableEq β] {f : α → β} {xs : List α}
    {a : α} (h : xs.Pairwise fun x y => f x ≠ f y) (ha : a ∈ xs) :
    (xs.find? fun x => decide (f x = f a)) = some a := by
  induction xs with
  | nil => cases ha
  | cons x rest ih =>
    obtain ⟨hx, hrest⟩ := List.pairwise_cons.1 h
    rcases List.mem_cons.1 ha with rfl | ha
    · simp
    · rw [List.find?_cons_of_neg (by simpa using hx a ha)]
      exact ih hrest ha

/-- In a well-formed query a join is found by its binding. -/
theorem WellFormed.joinAt?_eq_some {q : Query} (h : q.WellFormed) {j : Join} (hj : j ∈ q.joins) :
    q.joinAt? j.index = some j := by
  refine find?_eq_some_of_pairwise_ne ?_ hj
  have ascending := List.pairwise_map.1 h.ascending
  exact ascending.imp fun hlt => Nat.ne_of_lt hlt

private theorem find?_name_eq_some {joins : List Join} {j : Join} {name : Alias}
    (h : (joins.filterMap (·.name)).Nodup) (hj : j ∈ joins) (hname : j.name = some name) :
    (joins.find? fun k => decide (k.name = some name)) = some j := by
  induction joins with
  | nil => cases hj
  | cons k rest ih =>
    rcases List.mem_cons.1 hj with rfl | hmem
    · simp [hname]
    · have hne : k.name ≠ some name := by
        intro hk
        rw [List.filterMap_cons_some hk] at h
        exact (List.nodup_cons.1 h).1 (List.mem_filterMap.2 ⟨j, hmem, hname⟩)
      rw [List.find?_cons_of_neg (by simpa using hne)]
      refine ih ?_ hmem
      cases hk : k.name with
      | none => rwa [List.filterMap_cons_none hk] at h
      | some other =>
        rw [List.filterMap_cons_some hk] at h
        exact (List.nodup_cons.1 h).2

/-- In a well-formed query a join is found by its alias. -/
theorem WellFormed.join?_eq_some {q : Query} (h : q.WellFormed) {j : Join} {name : Alias}
    (hj : j ∈ q.joins) (hname : j.name = some name) : q.join? name = some j :=
  find?_name_eq_some h.nodup hj hname

/-- A query without joins is well-formed. -/
theorem wellFormed_ofSource (source : Source) : (ofSource source).WellFormed where
  ascending := by simp [ofSource]
  positive := by simp [ofSource]
  nodup := by simp [ofSource, aliases]
  counter_positive := by simp [ofSource, Binding.root]
  counter_above := by simp [ofSource]

end Query

end JoinGraph

import JoinGraph.Proofs.Blog
import JoinGraph.Proofs.Expansion.Visits
import JoinGraph.Proofs.FirstFault

/-!
# Where an Expansion Fails

An expansion walks along the association nodes of its specification, and each node is judged by the
query that the nodes before it have left. A node is wrong when it has no name, when its parent is a
nested query, or when the relation of its parent has no association of its name (`Visit.Fault`).
Nothing else can go wrong: when the turn of a node comes, a join holds the alias around it, so its
parent is there (`findsParents_visitsBelow`).

The main result is `expand_first_fault`: an expansion fails exactly when a node is wrong, and with
what is wrong with the first one.
-/

namespace JoinGraph

/-- What is wrong with a node in a query. -/
inductive Visit.Fault (e : Expander) (q : Query) (v : Visit) : QueryError → Prop
  /-- The node names no association. -/
  | unnamed (hname : v.name = "") : Fault e q v (.invalidSpecification v.place .emptyName)
  /-- A nested query has no associations. -/
  | subquery {parent : Binding} {query : Query} (hname : v.name ≠ "")
      (hparent : q.parent? v.around = some parent)
      (hsource : q.source? parent = some (.subquery query)) :
    Fault e q v (.unknownAssociation "<subquery>" v.name)
  /-- The relation behind the parent has no such association. -/
  | unresolved {parent : Binding} {source : Source} {relation : RelationName} (hname : v.name ≠ "")
      (hparent : q.parent? v.around = some parent) (hsource : q.source? parent = some source)
      (hrelation : source.relation? = some relation)
      (hunknown : e.provider relation v.name = none) :
    Fault e q v (.unknownAssociation relation.text v.name)

namespace Query

variable {e : Expander} {q r : Query} {v : Visit} {parent : Binding} {error : QueryError}
  {vs ws : List Visit}

/-- The error is what is wrong with a node in the query that the nodes before it have left. -/
def FaultAfter (e : Expander) (q : Query) (before : List Visit) (v : Visit) (error : QueryError) :
    Prop :=
  ∃ r, before.foldlM (visit e) q = .ok r ∧ v.Fault e r error

/-- What can be wrong with a node whose parent and source are known. -/
theorem fault_iff {source : Source} (hparent : q.parent? v.around = some parent)
    (hsource : q.source? parent = some source) : v.Fault e q error ↔
      v.name = "" ∧ error = .invalidSpecification v.place .emptyName
      ∨ v.name ≠ "" ∧ source.relation? = none ∧ error = .unknownAssociation "<subquery>" v.name
      ∨ v.name ≠ "" ∧ ∃ relation, source.relation? = some relation
        ∧ e.provider relation v.name = none ∧ error = .unknownAssociation relation.text v.name := by
  constructor
  · intro h
    cases h with
    | unnamed hname => exact .inl ⟨hname, rfl⟩
    | subquery hname hparent' hsource' =>
      obtain rfl := Option.some.inj (hparent.symm.trans hparent')
      obtain rfl := Option.some.inj (hsource.symm.trans hsource')
      exact .inr (.inl ⟨hname, rfl, rfl⟩)
    | unresolved hname hparent' hsource' hrelation hunknown =>
      obtain rfl := Option.some.inj (hparent.symm.trans hparent')
      obtain rfl := Option.some.inj (hsource.symm.trans hsource')
      exact .inr (.inr ⟨hname, _, hrelation, hunknown, rfl⟩)
  · rintro (⟨hname, rfl⟩ | ⟨hname, hrelation, rfl⟩ | ⟨hname, relation, hrelation, hunknown, rfl⟩)
    · exact .unnamed hname
    · -- A source that leads to no relation is a nested query.
      cases source with
      | subquery query => exact .subquery hname hparent hsource
      | table relation => cases hrelation
      | association parent name related => cases hrelation
    · exact .unresolved hname hparent hsource hrelation hunknown

/-- A node whose parent is there fails exactly when something is wrong with it. -/
theorem visit_eq_error_iff (hparent : q.parent? v.around = some parent) :
    q.visit e v = .error error ↔ v.Fault e q error := by
  obtain ⟨source, hsource⟩ := exists_source?_of_parent? hparent
  rw [visit_eq hparent, fault_iff hparent hsource, associationJoin]
  by_cases hname : v.name = ""
  · simp [hname, Except.map, eq_comm]
  · rw [dif_neg hname, hsource, Option.bind_some]
    cases hrelation : source.relation? with
    | none =>
      have hnameless : q.nameless parent = "<subquery>" := by
        rw [nameless, hsource]
        cases source with
        | subquery query => rfl
        | table relation => cases hrelation
        | association parent name related => cases hrelation
      simp [hname, hnameless, Except.map, eq_comm]
    | some relation =>
      cases hassociation : e.provider relation v.name with
      | none => simp [hname, hassociation, Except.map, eq_comm]
      | some association => simp [hname, hassociation, Except.map]

/-! ### Parents are found -/

/-- Along a walk, every node finds its parent when its turn comes. -/
def FindsParents (e : Expander) : Query → List Visit → Prop
  | _, [] => True
  | q, v :: rest =>
    (∃ parent, q.parent? v.around = some parent) ∧ ∀ r, q.visit e v = .ok r → FindsParents e r rest

theorem findsParents_append_iff : FindsParents e q (vs ++ ws) ↔
    FindsParents e q vs ∧ ∀ r, vs.foldlM (visit e) q = .ok r → FindsParents e r ws := by
  induction vs generalizing q with
  | nil =>
    refine ⟨fun h => ⟨trivial, fun r hr => ?_⟩, fun h => h.2 q rfl⟩
    obtain rfl := Except.ok.inj hr
    exact h
  | cons v vs ih =>
    rw [List.cons_append, FindsParents, FindsParents, and_assoc, List.foldlM_cons]
    refine and_congr_right fun _ => ?_
    -- A node that fails ends the walk, and nothing is left to show of what follows it.
    cases q.visit e v with
    | error error =>
      exact ⟨fun _ => ⟨fun r hr => (nomatch hr), fun r hr => (nomatch hr)⟩,
        fun _ r hr => (nomatch hr)⟩
    | ok s =>
      simp only [Except.ok.injEq, forall_eq']
      exact ih

theorem findsParents_within_iff (outer : SpecPlace) :
    FindsParents e q (vs.map (Visit.within outer)) ↔ FindsParents e q vs := by
  induction vs generalizing q with
  | nil => exact Iff.rfl
  | cons v vs ih =>
    rw [List.map_cons, FindsParents, FindsParents, visit_within]
    refine and_congr_right fun _ => ?_
    simp only [ih]
    cases q.visit e v with
    | error error => exact ⟨fun _ r hr => (nomatch hr), fun _ r hr => (nomatch hr)⟩
    | ok s => exact Iff.rfl

mutual

/-- Where the alias around a specification is held, all its nodes find their parents. -/
theorem findsParents_visitsBelow : ∀ (spec : Spec) {q : Query} {around : Option String}
    {parent : Binding} (lead : String), q.parent? around = some parent →
    FindsParents e q (spec.visitsBelow around lead)
  | .relation name, q, around, parent, lead, h => by
    rw [Spec.visitsBelow]
    exact ⟨⟨parent, h⟩, fun r _ => trivial⟩
  | .seq items, q, around, parent, lead, h => by
    rw [Spec.visitsBelow]
    exact findsParents_itemVisitsBelow items lead 0 h
  | .nested name sub, q, around, parent, lead, h => by
    rw [Spec.visitsBelow]
    refine ⟨⟨parent, h⟩, fun r hr => (findsParents_within_iff _).2 ?_⟩
    -- The node has registered the alias around what is nested under it.
    obtain ⟨join, hjoin, rfl⟩ := exists_join_of_visit h hr
    exact findsParents_visitsBelow sub lead (parent?_ensure_associationJoin hjoin)
  | .prefixed extra sub, q, around, parent, lead, h => by
    rw [Spec.visitsBelow, findsParents_within_iff]
    exact findsParents_visitsBelow sub (lead ++ extra) h

theorem findsParents_itemVisitsBelow : ∀ (items : List Spec) {q : Query} {around : Option String}
    {parent : Binding} (lead : String) (index : Nat), q.parent? around = some parent →
    FindsParents e q (Spec.itemVisitsBelow around lead index items)
  | [], q, around, parent, lead, index, h => trivial
  | item :: rest, q, around, parent, lead, index, h => by
    rw [Spec.itemVisitsBelow, findsParents_append_iff, findsParents_within_iff]
    refine ⟨findsParents_visitsBelow item lead h, fun r hr => ?_⟩
    exact findsParents_itemVisitsBelow rest lead (index + 1)
      ((extends_of_foldlM_visit hr).parent? h)

end

/-- When the turn of a node comes, its parent is there. -/
theorem exists_parent?_of_visits {spec : Spec} {before after : List Visit}
    (hsplit : spec.visits = before ++ v :: after) (hr : before.foldlM (visit e) q = .ok r) :
    ∃ parent, r.parent? v.around = some parent := by
  have hfinds : FindsParents e q spec.visits := findsParents_visitsBelow spec "" rfl
  rw [hsplit, findsParents_append_iff] at hfinds
  exact (hfinds.2 r hr).1

/-! ### The first fault -/

variable {spec : Spec}

/-- An expansion fails with what is wrong with the first node that is wrong. -/
theorem expand_eq_error_iff :
    q.expand e spec = .error error ↔ FirstFault (FaultAfter e q) spec.visits error := by
  have hwalk : spec.visits.foldlM (visit e) q = .error error ↔
      FirstFault (fun before v error =>
        ∃ r, before.foldlM (visit e) q = .ok r ∧ r.visit e v = .error error) spec.visits error :=
    (reportsFirst_foldlM (visit e) q).eq_error_iff rfl
  have hexpand : q.expand e spec = .error error ↔
      spec.visits.foldlM (visit e) q = .error error := by
    rw [expand_eq_visits]
    cases spec.visits.foldlM (visit e) q <;> simp [Except.map]
  rw [hexpand, hwalk]
  -- In the list of a specification all parents are found, so to fail is to be wrong.
  refine firstFault_congr fun before v after hsplit error => exists_congr fun r => ?_
  refine and_congr_right fun hr => ?_
  obtain ⟨parent, hparent⟩ := exists_parent?_of_visits hsplit hr
  exact visit_eq_error_iff hparent

/-- A node that succeeds has an alias that can be written, and a join is found under it. -/
theorem exists_hasJoin_of_visit (hparent : q.parent? v.around = some parent)
    (h : q.visit e v = .ok r) :
    ∃ a, Alias.under v.lead v.name = .ok a ∧ r.hasJoin a = true := by
  obtain ⟨join, hjoin, rfl⟩ := exists_join_of_visit hparent h
  obtain ⟨hname, _, _, _, -, -, -, halias, -⟩ := associationJoin_eq_ok_iff.1 hjoin
  refine ⟨join.name, ?_, hasJoin_ensure_associationJoin hjoin⟩
  rw [halias]
  exact Alias.under_eq_ok v.lead v.name hname

/-- An expansion fails exactly when some node is wrong in the query that the nodes before it have
left, and then with what is wrong with the first such node, at its place; messages show the place of
each node by the way down to it. Whenever the turn of a node comes, its parent is a binding of the
query and has a source; and a node that is not wrong has an alias that can be written, and a join is
found under it when the node has been expanded. -/
theorem expand_first_fault (e : Expander) (q : Query) (spec : Spec) :
    (∀ error, q.expand e spec = .error error ↔ FirstFault (FaultAfter e q) spec.visits error)
      ∧ spec.visits.map (fun v => v.place.text) = spec.paths
      ∧ ((∃ error, q.expand e spec = .error error) ↔
          ∃ before v after error,
            spec.visits = before ++ v :: after ∧ FaultAfter e q before v error)
      ∧ ∀ before v after r, spec.visits = before ++ v :: after →
          before.foldlM (visit e) q = .ok r →
          (∃ parent source, r.parent? v.around = some parent ∧ parent ∈ r.bindings
            ∧ r.source? parent = some source)
          ∧ ((∀ error, ¬v.Fault e r error) → ∃ a s, Alias.under v.lead v.name = .ok a
            ∧ r.visit e v = .ok s ∧ s.hasJoin a = true) := by
  refine ⟨fun error => expand_eq_error_iff, spec.map_text_visits, ⟨?_, ?_⟩,
    fun before v after r hsplit hr => ?_⟩
  · rintro ⟨error, herror⟩
    obtain ⟨before, v, after, hsplit, -, hv⟩ := expand_eq_error_iff.1 herror
    exact ⟨before, v, after, error, hsplit, hv⟩
  · rintro ⟨before, v, after, error, hsplit, hv⟩
    -- Some node is wrong, so one of them is the first.
    rcases faultless_or_exists_firstFault (FaultAfter e q) spec.visits with hnone | ⟨first, hfirst⟩
    · exact absurd hv (hnone before v after hsplit error)
    · exact ⟨first, expand_eq_error_iff.2 hfirst⟩
  · obtain ⟨parent, hparent⟩ := exists_parent?_of_visits hsplit hr
    obtain ⟨source, hsource⟩ := exists_source?_of_parent? hparent
    refine ⟨⟨parent, source, hparent, mem_bindings_of_source? hsource, hsource⟩, fun hv => ?_⟩
    cases hs : r.visit e v with
    | error error => exact absurd ((visit_eq_error_iff hparent).1 hs) (hv error)
    | ok s =>
      obtain ⟨a, ha, hheld⟩ := exists_hasJoin_of_visit hparent hs
      exact ⟨a, s, ha, rfl, hheld⟩

/-- A node without a name, below a lead in what is nested under the second sibling. -/
example : ((ofRelation Blog.posts).expand Blog.expander (.seq [.relation "comments",
      .nested "comments" (.prefixed "c_" (.seq [.relation ""]))])).mapError QueryError.message
    = .error ("[QE001] Invalid nested specification at $[1].comments.spec[0]: "
        ++ "association name must not be empty") := by
  rfl

end Query

end JoinGraph

import JoinGraph.Proofs.Blog
import JoinGraph.Proofs.Catalog
import JoinGraph.Proofs.Expansion
import JoinGraph.Proofs.Pruning
import JoinGraph.Proofs.Run

/-!
# Where Joins Come From

When all joins of a query are made by expansion, the catalog accounts for each of them: a join has
an alias, its source is an association of an earlier binding, and its condition equates the two keys
of that association (`Query.FromAssociation`).

Nothing that removes joins looks at sources. That a parent outlives its children rests on
conditions: the condition of a child mentions the parent, so the parent is in use and it is live
when the child is. The main result is `join_fromAssociation_of_run`.
-/

namespace JoinGraph

/-- An operation by which only associations of the catalog lead to new joins, and joins are removed
only when nothing uses them. The root source stays. -/
def Operation.FollowsCatalog (c : Catalog) : Operation → Prop
  | .expand e _ => e.provider = c.provider
  | .removeChecked _ | .prune | .edit _ => True
  | _ => False

namespace Query

variable {c : Catalog} {q r : Query} {j : Join} {parent : Binding} {a : Association}
  {keep : Binding → Bool}

/-- The join is what an association of its parent leads to. -/
structure FromAssociation (c : Catalog) (q : Query) (parent : Binding) (a : Association)
    (j : Join) : Prop where
  named : j.name ≠ none
  source : j.source = .association parent a.name a.related
  /-- The parent is the root or a join in front of the child. -/
  parent_mem : parent ∈ q.bindings
  parent_lt : parent < j.index
  /-- The catalog finds the association on the relation behind the parent. -/
  resolved : ∃ relation, (q.source? parent).bind Source.relation? = some relation
    ∧ c.association? relation a.name = some a
  declared : c.contains a.related = true
  on : j.on = .equals (.field j.index a.relatedKey) (.field parent a.ownerKey)

/-- The catalog accounts for every join. -/
def FollowsCatalog (c : Catalog) (q : Query) : Prop :=
  ∀ j ∈ q.joins, ∃ parent a, FromAssociation c q parent a j

/-- A join is accounted for wherever the source of its parent is. -/
theorem FromAssociation.of_source? (h : FromAssociation c q parent a j)
    (hsource : ∀ s, q.source? parent = some s → r.source? parent = some s) :
    FromAssociation c r parent a j := by
  obtain ⟨relation, hrelation, ha⟩ := h.resolved
  obtain ⟨s, hs, hsrelation⟩ := Option.bind_eq_some_iff.1 hrelation
  exact { h with
    parent_mem := mem_bindings_of_source? (hsource s hs)
    resolved := ⟨relation, Option.bind_eq_some_iff.2 ⟨s, hsource s hs, hsrelation⟩, ha⟩ }

theorem FromAssociation.mentions_parent (h : FromAssociation c q parent a j) :
    j.on.Mentions parent := by
  rw [h.on]
  exact Expr.mentions_equals_field_iff.2 (.inr rfl)

/-- Whatever leaves the root source and the joins as they are leaves their origins as they are. -/
theorem FollowsCatalog.of_joins_eq (h : q.FollowsCatalog c) (hroot : r.source = q.source)
    (hjoins : r.joins = q.joins) : r.FollowsCatalog c := by
  intro j hj
  obtain ⟨parent, a, hja⟩ := h j (hjoins ▸ hj)
  refine ⟨parent, a, hja.of_source? fun s hs => ?_⟩
  rw [source?, joinAt?, hroot, hjoins]
  exact hs

/-- Joins may be taken out as long as all that is used is kept: a child uses its parent. -/
theorem FollowsCatalog.restrict (h : q.FollowsCatalog c) (hkeep : q.KeepsUsed keep) :
    (q.restrict keep).FollowsCatalog c := by
  intro j hj
  obtain ⟨hmem, hjkept⟩ := mem_joins_restrict.1 hj
  obtain ⟨parent, a, hja⟩ := h j hmem
  -- The condition of the join mentions the parent, so the parent is used.
  have hparent : keep parent = true := (hkeep.condition j hmem
    ⟨index_mem_bindings hmem, hjkept⟩ parent hja.parent_mem hja.mentions_parent).2
  refine ⟨parent, a, hja.of_source? fun s hs => ?_⟩
  rw [source?_restrict hparent]
  exact hs

theorem FollowsCatalog.prune (h : q.FollowsCatalog c) (hq : q.WellFormed) :
    q.prune.FollowsCatalog c := by
  rw [prune_eq_restrict]
  exact h.restrict (keepsUsed_live hq)

theorem FollowsCatalog.removeChecked (h : q.FollowsCatalog c) (hq : q.WellFormed) {name : Alias}
    (hr : q.removeChecked name = .ok r) : r.FollowsCatalog c := by
  obtain ⟨keep, hkeep, rfl⟩ := exists_restrict_of_removeChecked hq hr
  exact h.restrict hkeep

variable {e : Expander} {site : ExpansionSite} {name : String} {join : AssociationJoin}
  {spec : Spec}

/-- The join that an association node registers is accounted for. -/
theorem FollowsCatalog.ensure (h : q.FollowsCatalog c) (hq : q.WellFormed) (hc : c.Loaded)
    (he : e.provider = c.provider) (hjoin : q.associationJoin e site name = .ok join) :
    (q.ensure join.name join.request).FollowsCatalog c := by
  rcases ensure_cases q join.name join.request with ⟨-, -, hsame⟩ | ⟨hnone, happend⟩
  · rw [hsame]
    exact h
  · rw [happend]
    have hext : q.Extends (q.append (some join.name) join.request) := extends_append _ _ _
    intro j hj
    rcases List.mem_append.1 hj with hj | hj
    -- A join that was there finds its parent as before.
    · obtain ⟨parent, a, hja⟩ := h j hj
      exact ⟨parent, a, hja.of_source? fun s hs => hext.source parent s hs⟩
    · obtain rfl := List.mem_singleton.1 hj
      obtain ⟨_, source, relation, a, hsource, hrelation, ha, -, hindex, hrequest⟩ :=
        associationJoin_eq_ok_iff.1 hjoin
      rw [he] at ha
      have haname : a.name = name := (Catalog.mem_associations_of_association? ha).1
      -- The alias was free, so the binding that the condition names is the one handed out.
      rw [binding?, hnone, Option.map_none, Option.getD_none] at hindex
      have hparent : site.parent ∈ q.bindings := mem_bindings_of_source? hsource
      refine ⟨site.parent, a, ?_⟩
      exact
        { named := Option.some_ne_none _
          source := by rw [hrequest]
          parent_mem := by
            rw [bindings_append]
            exact List.mem_append_left _ hparent
          parent_lt := hq.lt_nextIndex_of_mem_bindings hparent
          resolved := by
            refine ⟨relation, Option.bind_eq_some_iff.2 ⟨source, ?_, hrelation⟩, ?_⟩
            · exact hext.source _ _ hsource
            · rw [haname]
              exact ha
          declared := hc.contains_related ha
          on := by rw [hrequest, hindex] }

theorem FollowsCatalog.expand (h : q.FollowsCatalog c) (hq : q.WellFormed) (hc : c.Loaded)
    (he : e.provider = c.provider) (hr : q.expand e spec = .ok r) : r.FollowsCatalog c := by
  obtain ⟨s, hs, rfl⟩ := expand_eq_ok_iff.1 hr
  have hboth : s.WellFormed ∧ s.FollowsCatalog c :=
    expandNode_invariant (I := fun q => q.WellFormed ∧ q.FollowsCatalog c)
      (fun hjoin hs => ⟨hs.1.steps (steps_ensure _ _ _), hs.2.ensure hs.1 hc he hjoin⟩) hs ⟨hq, h⟩
  exact hboth.2.of_joins_eq rfl rfl

/-- An operation that follows the catalog leaves a query that follows the catalog. -/
theorem FollowsCatalog.after (h : q.FollowsCatalog c) (hq : q.WellFormed) (hc : c.Loaded)
    {op : Operation} (hop : op.FollowsCatalog c) : (op.after q).FollowsCatalog c := by
  rcases Operation.after_cases q op with hr | hr
  · cases op with
    | removeChecked name => exact h.removeChecked hq hr
    | expand e spec => exact h.expand hq hc hop hr
    | prune => exact h.prune hq
    | edit slots => exact h.of_joins_eq rfl rfl
    | ensure name request | replace name request | append request | remove name
    | removeUnder policy name | passes ps names | reroot source => exact hop.elim
  · rw [hr]
    exact h

end Query

end JoinGraph

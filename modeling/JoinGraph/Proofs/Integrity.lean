import JoinGraph.Proofs.Blog
import JoinGraph.Proofs.Preload.Merge
import JoinGraph.Proofs.Pruning
import JoinGraph.Proofs.Run

/-!
# Referential Integrity

A query is intact when nothing that it mentions is missing: no reference dangles, and every alias in
the preload forest is held by a join. This is what the reference check looks for
(`danglingReports_eq_nil_iff`).

A careful operation mentions only what is there, or the binding that its own join has or receives,
and does not remove blindly (`Operation.Careful`). Checked removal counts uses, pruning follows
liveness and expansion predicts bindings; whatever one of these took for unused is also unused for
the reference check, so every careful operation keeps a query intact, and with it every careful run.
-/

namespace JoinGraph

namespace Query

variable {q r : Query}

/-- Nothing that the query mentions is missing. -/
structure Intact (q : Query) : Prop where
  /-- No reference dangles. -/
  dangling : q.dangling = []
  /-- Every alias in the preload forest is held by a join. -/
  preload : ∀ a, PreloadTree.Names q.preloads a → a ∈ q.aliases

theorem Intact.resolved (h : q.Intact) : q.Resolved := dangling_eq_nil_iff.1 h.dangling

/-- The reference check has nothing to report exactly on intact queries. -/
theorem danglingReports_eq_nil_iff : q.danglingReports = [] ↔ q.Intact := by
  rw [danglingReports, List.append_eq_nil_iff, List.map_eq_nil_iff, List.map_eq_nil_iff,
    List.filter_eq_nil_iff]
  simp only [decide_eq_true_eq, Decidable.not_not, mem_preloadNames_iff]
  exact ⟨fun ⟨hdangling, hpreload⟩ => ⟨hdangling, hpreload⟩, fun h => ⟨h.dangling, h.preload⟩⟩

/-- A change of the join list keeps a query intact when all that clauses and preloads mention is
kept and the conditions of the new list mention only what the new list has. -/
theorem Intact.of_joins (h : q.Intact) (hclauses : r.clauses = q.clauses)
    (hpreloads : r.preloads = q.preloads)
    (hclause : ∀ b ∈ q.bindings, q.ClauseMentions b → b ∈ r.bindings)
    (hpreload : ∀ a ∈ q.aliases, PreloadTree.Names q.preloads a → a ∈ r.aliases)
    (hcondition : ∀ j ∈ r.joins, ∀ b, j.on.Mentions b → b ∈ r.bindings) : r.Intact := by
  refine ⟨dangling_eq_nil_iff.2 ⟨fun b hb => ?_, hcondition⟩, fun a ha => ?_⟩
  · have hmentions : q.ClauseMentions b := (clauseMentions_congr hclauses).1 hb
    exact hclause b (h.resolved.clause b hmentions) hmentions
  · rw [hpreloads] at ha
    exact hpreload a (h.preload a ha) ha

/-! ### Registration -/

/-- A condition mentions only bindings that are there, or one that is to come. -/
def Within (q : Query) (next : Binding) (on : Expr) : Prop :=
  ∀ b, on.Mentions b → b ∈ q.bindings ∨ b = next

theorem Intact.append (h : q.Intact) {name : Option Alias} {request : JoinRequest}
    (hon : q.Within q.nextIndex request.on) : (q.append name request).Intact := by
  have hkept : ∀ b ∈ q.bindings, b ∈ (q.append name request).bindings := by
    intro b hb
    rw [bindings_append]
    exact List.mem_append_left _ hb
  refine h.of_joins (clauses_append q name request) rfl (fun b hb _ => hkept b hb)
    (fun a ha _ => ?_) fun j hj b hb => ?_
  · rw [aliases_append]
    exact List.mem_append_left _ ha
  · rcases List.mem_append.1 hj with hj | hj
    · exact hkept b (h.resolved.condition j hj b hb)
    · rw [List.mem_singleton.1 hj] at hb
      rcases hon b hb with hb | rfl
      · exact hkept b hb
      · -- The condition may mention the binding that the join is given.
        rw [bindings_append]
        exact List.mem_append_right _ List.mem_cons_self

/-- The binding that a join has, or will receive, under an alias. -/
def predicted (q : Query) (name : Alias) : Binding := (q.binding? name).getD q.nextIndex

theorem Intact.ensure (h : q.Intact) {name : Alias} {request : JoinRequest}
    (hon : q.Within (q.predicted name) request.on) : (q.ensure name request).Intact := by
  rcases ensure_cases q name request with ⟨j, -, hsame⟩ | ⟨hnone, happend⟩
  · -- The request is ignored, whatever its condition mentions.
    rw [hsame]
    exact h
  · rw [predicted, binding?, hnone, Option.map_none, Option.getD_none] at hon
    rw [happend]
    exact h.append hon

/-- After a replacement, a condition is one of before or the requested one. -/
theorem mem_replaceFirst {name : Alias} {request : JoinRequest} {joins : List Join} {j : Join}
    (hj : j ∈ replaceFirst name request joins) : j ∈ joins ∨ j.on = request.on := by
  induction joins with
  | nil => cases hj
  | cons k rest ih =>
    rw [replaceFirst] at hj
    split at hj
    · rcases List.mem_cons.1 hj with rfl | hj
      · exact .inr rfl
      · exact .inl (List.mem_cons_of_mem k hj)
    · rcases List.mem_cons.1 hj with rfl | hj
      · exact .inl List.mem_cons_self
      · rcases ih hj with hj | hon
        · exact .inl (List.mem_cons_of_mem k hj)
        · exact .inr hon

theorem Intact.replace (h : q.Intact) {name : Alias} {request : JoinRequest}
    (hon : q.Within (q.predicted name) request.on) : (q.replace name request).Intact := by
  rw [Query.replace]
  split
  · rename_i hheld
    have hbindings : bindings { q with joins := replaceFirst name request q.joins }
        = q.bindings := by
      rw [bindings, map_index_replaceFirst, bindings]
    have haliases : aliases { q with joins := replaceFirst name request q.joins }
        = q.aliases := by
      rw [aliases, aliases, filterMap_name_eq_map_key, map_key_replaceFirst,
        ← filterMap_name_eq_map_key]
    refine h.of_joins rfl rfl (fun b hb _ => hbindings ▸ hb) (fun a ha _ => haliases ▸ ha)
      fun j hj b hb => ?_
    rw [hbindings]
    rcases mem_replaceFirst hj with hj | hj
    · exact h.resolved.condition j hj b hb
    · rcases hon b (hj ▸ hb) with hb | rfl
      · exact hb
      · -- The alias is held, so the binding that it predicts is that of its join.
        obtain ⟨k, hk⟩ := Option.isSome_iff_exists.1 hheld
        rw [predicted, binding?, hk, Option.map_some, Option.getD_some]
        exact index_mem_bindings (mem_joins_of_join? hk).1
  · exact h.ensure hon

/-! ### Removal and pruning -/

/-- Joins may be taken out as long as all that is used is kept. -/
theorem Intact.restrict (h : q.Intact) {keep : Binding → Bool} (hkeep : q.KeepsUsed keep) :
    (q.restrict keep).Intact := by
  have hroot : keep Binding.root = true := hkeep.root.2
  refine h.of_joins rfl rfl (fun b hb hmentions => ?_) (fun a ha hnames => ?_)
    fun j hj b hmentions => ?_
  · exact (mem_bindings_restrict_iff hroot).2 (hkeep.clause b hb hmentions)
  · obtain ⟨j, hj, hname⟩ := mem_aliases.1 ha
    have hjkept : keep j.index = true := (hkeep.preload j hj a hname hnames).2
    exact mem_aliases.2 ⟨j, mem_joins_restrict.2 ⟨hj, hjkept⟩, hname⟩
  · obtain ⟨hmem, hjkept⟩ := mem_joins_restrict.1 hj
    have hb : b ∈ q.bindings := h.resolved.condition j hmem b hmentions
    exact (mem_bindings_restrict_iff hroot).2
      (hkeep.condition j hmem ⟨index_mem_bindings hmem, hjkept⟩ b hb hmentions)

theorem Intact.removeChecked (h : q.Intact) (hq : q.WellFormed) {name : Alias}
    (hr : q.removeChecked name = .ok r) : r.Intact := by
  obtain ⟨keep, hkeep, rfl⟩ := exists_restrict_of_removeChecked hq hr
  exact h.restrict hkeep

theorem Intact.prune (h : q.Intact) (hq : q.WellFormed) : q.prune.Intact := by
  rw [prune_eq_restrict]
  exact h.restrict (keepsUsed_live hq)

theorem Intact.runAll (h : q.Intact) (hq : q.WellFormed) (passes : List Pass) :
    (Pass.runAll passes q).Intact := by
  induction passes generalizing q with
  | nil => exact h
  | cons p rest ih =>
    cases p with
    | danglingRefs => exact ih h hq
    | deadJoins => exact ih (h.prune hq) (hq.steps (steps_prune q))

/-! ### Expansion -/

/-- The condition of a generated join stays within the query and the binding that is predicted for
the join. -/
theorem within_associationJoin {e : Expander} {site : ExpansionSite} {name : String}
    {join : AssociationJoin} (h : q.associationJoin e site name = .ok join) :
    q.Within (q.predicted join.name) join.request.on := by
  intro b hb
  rcases (mentions_associationJoin_iff h).1 hb with rfl | rfl
  · obtain ⟨-, -, -, -, -, -, -, -, hindex, -⟩ := associationJoin_eq_ok_iff.1 h
    exact .inr hindex
  · exact .inl (parent_mem_bindings h)

theorem Intact.expand (h : q.Intact) {e : Expander} {spec : Spec} (hr : q.expand e spec = .ok r) :
    r.Intact := by
  obtain ⟨s, hs, rfl⟩ := expand_eq_ok_iff.1 hr
  -- Node by node the query stays intact; the preloads are set only at the end.
  have hintact : s.Intact := by
    refine expandNode_invariant (I := Intact) (fun hjoin hq => ?_) hs h
    exact hq.ensure (within_associationJoin hjoin)
  have hpreloads : s.preloads = q.preloads := by rw [expandNode_eq_with hs]
  refine ⟨hintact.dangling, fun a ha => ?_⟩
  rcases PreloadTree.names_merge_iff.1 ha with ha | ha
  · rw [← hpreloads] at ha
    exact hintact.preload a ha
  · exact hasJoin_iff_mem_aliases.1 (expandNode_names hs ha)

end Query

/-! ### Careful runs -/

open Query

/-- What an operation asks for is there: conditions of new joins mention what the query has or their
own binding, and slots that are set mention what the query has or mentioned already. Removal is
checked. -/
def Operation.Careful (q : Query) : Operation → Prop
  | .ensure name request | .replace name request => q.Within (q.predicted name) request.on
  | .append request => q.Within q.nextIndex request.on
  | .remove _ => False
  | .removeUnder policy _ => policy = .validating
  | .edit slots =>
    (∀ b, (q.withSlots slots).ClauseMentions b → b ∈ q.bindings ∨ q.ClauseMentions b)
      ∧ ∀ a, PreloadTree.Names slots.preloads a →
          a ∈ q.aliases ∨ PreloadTree.Names q.preloads a
  | .removeChecked _ | .expand _ _ | .prune | .passes _ _ | .reroot _ => True

/-- A careful operation leaves an intact query intact. -/
theorem Query.Intact.after {q : Query} (h : q.Intact) (hq : q.WellFormed) {op : Operation}
    (hop : op.Careful q) : (Operation.after q op).Intact := by
  rcases Operation.after_cases q op with hr | hr
  · cases op with
    | ensure name request => exact h.ensure hop
    | replace name request => exact h.replace hop
    | append request => exact h.append hop
    | remove name => exact hop.elim
    | removeChecked name => exact h.removeChecked hq hr
    | removeUnder policy name =>
      obtain rfl := hop
      exact h.removeChecked hq hr
    | expand e spec => exact h.expand hr
    | prune => exact h.prune hq
    | passes ps names => exact h.runAll hq _
    | edit slots =>
      obtain ⟨hclauses, hpreloads⟩ := hop
      -- What a slot mentioned before is there, as the query was intact.
      refine ⟨dangling_eq_nil_iff.2 ⟨fun b hb => ?_, h.resolved.condition⟩, fun a ha => ?_⟩
      · exact (hclauses b hb).elim id (h.resolved.clause b)
      · exact (hpreloads a ha).elim id (h.preload a)
    | reroot source => exact ⟨h.dangling, h.preload⟩
  · rw [hr]
    exact h

namespace Query

/-- The queries that careful operations reach from the query over a source. -/
inductive CarefullyReached (source : Source) : Query → Prop where
  | start : CarefullyReached source (ofSource source)
  | step {q : Query} {op : Operation} (h : CarefullyReached source q) (careful : op.Careful q) :
      CarefullyReached source (op.after q)

variable {source : Source} {q : Query}

theorem CarefullyReached.wellFormed (h : CarefullyReached source q) : q.WellFormed := by
  induction h with
  | start => exact wellFormed_ofSource source
  | @step q op _ _ ih => exact ih.steps (Operation.steps_after q op)

theorem intact_ofSource (source : Source) : (ofSource source).Intact :=
  ⟨rfl, fun _ ha => absurd ha PreloadTree.not_names_nil⟩

/-- Every query that a careful run reaches is intact, and the reference check reports nothing. -/
theorem intact_of_carefullyReached (h : CarefullyReached source q) :
    q.Intact ∧ Pass.danglingRefs.events q = [] := by
  have hintact : q.Intact := by
    -- Removal and pruning find joins by binding and alias, so well-formedness goes along.
    induction h with
    | start => exact intact_ofSource source
    | step hreached hcareful ih => exact ih.after hreached.wellFormed hcareful
  refine ⟨hintact, ?_⟩
  rw [Pass.events, danglingReports_eq_nil_iff.2 hintact, List.map_nil]

/-- Posts joined by hand with their comments, and then expanded to the authors of the comments. -/
def commented : Query :=
  (Operation.expand Blog.expander (.nested "comments" (.relation "author"))).after
    ((Operation.ensure Blog.commentsAlias (Blog.commentsRequest 1)).after
      (ofRelation Blog.posts))

theorem intact_of_carefullyReached_commented :
    CarefullyReached (.table Blog.posts) commented
      ∧ commented.Intact ∧ Pass.danglingRefs.events commented = [] := by
  have hensure : (Operation.ensure Blog.commentsAlias (Blog.commentsRequest 1)).Careful
      (ofSource (.table Blog.posts)) := by
    intro b hb
    rcases Expr.mentions_equals_field_iff.1 hb with rfl | rfl
    · exact .inr rfl
    · exact .inl List.mem_cons_self
  have hreached : CarefullyReached (.table Blog.posts) commented :=
    .step (.step .start hensure) trivial
  exact ⟨hreached, intact_of_carefullyReached hreached⟩

end Query

end JoinGraph

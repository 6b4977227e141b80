import JoinGraph.Proofs.Blog
import JoinGraph.Proofs.Expansion
import JoinGraph.Proofs.Integrity
import JoinGraph.Proofs.Pruning

/-!
# Expanding a Pruned Query

An expansion looks at the join list only through the aliases that it generates and the bindings that
it joins to. Taking out joins that hold none of these aliases therefore commutes with expansion, the
error of an expansion that fails included (`expand_restrict`).

Pruning is such a change when no dead join holds an alias of the specification. The joins that were
dead are still dead after the expansion: new conditions mention new joins and their parents only,
and new preloads name only aliases of the specification. A query can therefore be pruned before an
expansion or after it (`expand_prune`).
-/

namespace JoinGraph.Query

variable {e : Expander} {q r : Query} {site : ExpansionSite} {name : String} {spec : Spec}
  {join : AssociationJoin} {keep : Binding → Bool} {xs ys : List String}

/-! ### Expanding a restricted query -/

/-- All is kept that an expansion to some aliases can look at: the root, the bindings to come, and
the joins that hold one of the aliases. -/
structure Spares (q : Query) (keep : Binding → Bool) (aliases : List String) : Prop where
  root : keep Binding.root = true
  fresh : ∀ b, q.nextIndex ≤ b → keep b = true
  held : ∀ j ∈ q.joins, ∀ a, j.name = some a → a.text ∈ aliases → keep j.index = true

theorem Spares.mono (h : q.Spares keep ys) (hsub : xs ⊆ ys) : q.Spares keep xs :=
  ⟨h.root, h.fresh, fun j hj a hname ha => h.held j hj a hname (hsub ha)⟩

theorem Spares.ensure (h : q.Spares keep xs) (a : Alias) (request : JoinRequest) :
    (q.ensure a request).Spares keep xs := by
  rcases ensure_cases q a request with ⟨j, -, hsame⟩ | ⟨-, happend⟩
  · rw [hsame]
    exact h
  · rw [happend]
    refine ⟨h.root, fun b hb => h.fresh b (Nat.le_of_succ_le hb), fun j hj b hname hb => ?_⟩
    rcases List.mem_append.1 hj with hj | hj
    · exact h.held j hj b hname hb
    · rw [List.mem_singleton.1 hj]
      exact h.fresh _ (Nat.le_refl _)

theorem Spares.join? (h : q.Spares keep xs) {a : Alias} (ha : a.text ∈ xs) :
    (q.restrict keep).join? a = q.join? a :=
  join?_restrict fun j hj hname => h.held j hj a hname ha

/-- Registering a spared alias commutes with the restriction. -/
theorem Spares.ensure_restrict (h : q.Spares keep xs) {a : Alias} (ha : a.text ∈ xs)
    (request : JoinRequest) :
    (q.restrict keep).ensure a request = (q.ensure a request).restrict keep := by
  rw [Query.ensure, Query.ensure, hasJoin, hasJoin, h.join? ha]
  split
  · rfl
  · rw [append_restrict (h.fresh _ (Nat.le_refl _))]

/-- An association node asks for the same join in the restricted query, or fails in the same way. -/
theorem Spares.associationJoin_restrict (h : q.Spares keep xs) (hparent : keep site.parent = true)
    (hname : site.lead ++ name ∈ xs) :
    (q.restrict keep).associationJoin e site name = q.associationJoin e site name := by
  rw [associationJoin, associationJoin, nameless, nameless, source?_restrict hparent]
  split
  · rfl
  · rename_i hne
    have hbinding : (q.restrict keep).binding? (Alias.below site.lead name hne)
        = q.binding? (Alias.below site.lead name hne) := by
      rw [binding?, binding?, h.join? hname]
    dsimp only
    rw [hbinding]
    rfl

/-- The binding that an association node predicts is kept. -/
theorem Spares.keep_index (h : q.Spares keep xs) (hname : site.lead ++ name ∈ xs)
    (hjoin : q.associationJoin e site name = .ok join) : keep join.index = true := by
  obtain ⟨hne, _, _, _, -, -, -, halias, hindex, -⟩ := associationJoin_eq_ok_iff.1 hjoin
  rw [hindex, binding?]
  cases hheld : q.join? join.name with
  | none => exact h.fresh _ (Nat.le_refl _)
  | some j =>
    obtain ⟨hmem, hjname⟩ := mem_joins_of_join? hheld
    refine h.held j hmem join.name hjname ?_
    rw [halias, Alias.text_below]
    exact hname

mutual

/-- Expanding a node commutes with a restriction that spares the aliases of the node. -/
theorem expandNode_restrict : ∀ (spec : Spec) (q : Query) (site : ExpansionSite),
    q.Spares keep (spec.aliasesBelow site.lead) → keep site.parent = true →
    (q.restrict keep).expandNode e site spec
      = (q.expandNode e site spec).map fun r => (r.1.restrict keep, r.2)
  | .relation name, q, site, h, hparent => by
    rw [Spec.aliasesBelow] at h
    rw [expandNode, expandNode, h.associationJoin_restrict hparent List.mem_cons_self]
    cases hjoin : q.associationJoin e site name with
    | error error => rfl
    | ok join =>
      obtain ⟨hne, _, _, _, -, -, -, halias, -⟩ := associationJoin_eq_ok_iff.1 hjoin
      dsimp only
      rw [h.ensure_restrict (by rw [halias]; exact List.mem_cons_self)]
      rfl
  | .seq items, q, site, h, hparent => by
    rw [Spec.aliasesBelow] at h
    rw [expandNode, expandNode, expandItems_restrict items q site 0 h hparent]
  | .nested name sub, q, site, h, hparent => by
    rw [Spec.aliasesBelow] at h
    rw [expandNode, expandNode, h.associationJoin_restrict hparent List.mem_cons_self]
    cases hjoin : q.associationJoin e site name with
    | error error => rfl
    | ok join =>
      obtain ⟨hne, _, _, _, -, -, -, halias, -⟩ := associationJoin_eq_ok_iff.1 hjoin
      have hsub : (q.ensure join.name join.request).Spares keep (sub.aliasesBelow site.lead) :=
        (h.ensure _ _).mono (List.subset_cons_self _ _)
      dsimp only
      rw [h.ensure_restrict (by rw [halias]; exact List.mem_cons_self),
        expandNode_restrict sub _ { site.down (.under name) with parent := join.index } hsub
          (h.keep_index List.mem_cons_self hjoin)]
      cases expandNode e (q.ensure join.name join.request)
        { site.down (.under name) with parent := join.index } sub <;> rfl
  | .prefixed extra sub, q, site, h, hparent => by
    rw [Spec.aliasesBelow] at h
    rw [expandNode, expandNode]
    exact expandNode_restrict sub q { site.down .spec with lead := site.lead ++ extra } h hparent

/-- Expanding siblings commutes with a restriction that spares their aliases. -/
theorem expandItems_restrict : ∀ (items : List Spec) (q : Query) (site : ExpansionSite)
    (index : Nat), q.Spares keep (Spec.itemAliasesBelow site.lead items) →
    keep site.parent = true →
    (q.restrict keep).expandItems e site index items
      = (q.expandItems e site index items).map fun r => (r.1.restrict keep, r.2)
  | [], q, site, index, h, hparent => by
    rw [expandItems, expandItems]
    rfl
  | item :: rest, q, site, index, h, hparent => by
    rw [Spec.itemAliasesBelow] at h
    have hitem : q.Spares keep (item.aliasesBelow (site.down (.item index)).lead) :=
      h.mono (List.subset_append_left _ _)
    rw [expandItems, expandItems, expandNode_restrict item q _ hitem hparent]
    cases hr : q.expandNode e (site.down (.item index)) item with
    | error error => rfl
    | ok result =>
      obtain ⟨r, trees⟩ := result
      -- What the first sibling registers is kept, so the others are still spared.
      have hrest : r.Spares keep (Spec.itemAliasesBelow site.lead rest) :=
        expandNode_invariant (I := fun s => s.Spares keep (Spec.itemAliasesBelow site.lead rest))
          (fun _ hs => hs.ensure _ _) hr (h.mono (List.subset_append_right _ _))
      dsimp only [Except.map]
      rw [expandItems_restrict rest r site _ hrest hparent]
      cases expandItems e r site (index + 1) rest <;> rfl

end

/-- Expansion commutes with a restriction that spares the aliases of the specification. -/
theorem expand_restrict (h : q.Spares keep spec.aliases) :
    (q.restrict keep).expand e spec = (q.expand e spec).map fun r => r.restrict keep := by
  rw [expand, expand, expandNode_restrict spec q .start h h.root]
  cases q.expandNode e .start spec <;> rfl

/-! ### What an expansion adds -/

/-- The second query has the joins of the first, in front of joins with later bindings whose
conditions mention only what the query has. -/
def Adds (q r : Query) : Prop :=
  q.nextIndex ≤ r.nextIndex ∧ ∃ new, r.joins = q.joins ++ new
    ∧ ∀ j ∈ new, q.nextIndex ≤ j.index ∧ ∀ b, j.on.Mentions b → b ∈ r.bindings

theorem Adds.refl (q : Query) : q.Adds q :=
  ⟨Nat.le_refl _, [], (List.append_nil _).symm, fun _ hj => absurd hj List.not_mem_nil⟩

/-- Registering the join of an association adds at most that join. -/
theorem Adds.ensure (h : q.Adds r) (hjoin : r.associationJoin e site name = .ok join) :
    q.Adds (r.ensure join.name join.request) := by
  rcases ensure_cases r join.name join.request with ⟨j, -, hsame⟩ | ⟨hnone, happend⟩
  · rw [hsame]
    exact h
  · obtain ⟨hcounter, new, hjoins, hnew⟩ := h
    rw [happend]
    refine ⟨Nat.le_succ_of_le hcounter, new ++ [⟨r.nextIndex, some join.name,
      join.request.qualifier, join.request.source, join.request.on⟩], ?_, fun j hj => ?_⟩
    · rw [joins_append, hjoins, List.append_assoc]
    · rw [bindings_append]
      rcases List.mem_append.1 hj with hj | hj
      · obtain ⟨hindex, hon⟩ := hnew j hj
        exact ⟨hindex, fun b hb => List.mem_append_left _ (hon b hb)⟩
      · rw [List.mem_singleton.1 hj]
        refine ⟨hcounter, fun b hb => ?_⟩
        rcases within_associationJoin hjoin b hb with hb | rfl
        · exact List.mem_append_left _ hb
        · -- The alias was free, so the binding that was predicted is the counter.
          rw [predicted, binding?, hnone, Option.map_none, Option.getD_none]
          exact List.mem_append_right _ List.mem_cons_self

theorem Adds.mem_joins (h : q.Adds r) {j : Join} (hj : j ∈ r.joins) :
    j ∈ q.joins ∨ q.nextIndex ≤ j.index ∧ ∀ b, j.on.Mentions b → b ∈ r.bindings := by
  obtain ⟨-, new, hjoins, hnew⟩ := h
  rw [hjoins] at hj
  exact (List.mem_append.1 hj).imp_right (hnew j)

theorem Adds.mem_bindings (h : q.Adds r) {b : Binding} (hb : b ∈ r.bindings) :
    b ∈ q.bindings ∨ q.nextIndex ≤ b := by
  rcases Query.mem_bindings.1 hb with rfl | ⟨j, hj, rfl⟩
  · exact .inl (root_mem_bindings q)
  · exact (h.mem_joins hj).imp index_mem_bindings And.left

theorem adds_of_expand (h : q.expand e spec = .ok r) : q.Adds r := by
  obtain ⟨s, hs, rfl⟩ := expand_eq_ok_iff.1 h
  have hadds : q.Adds s :=
    expandNode_invariant (I := q.Adds) (fun hjoin hs => hs.ensure hjoin) hs (.refl q)
  exact hadds

/-! ### Dead joins stay dead -/

/-- What is kept when a query is pruned before an expansion: the live bindings and those to come. -/
def keepsForExpansion (q : Query) (b : Binding) : Bool := decide (b ∈ q.live ∨ q.nextIndex ≤ b)

theorem prune_eq_restrict_keepsForExpansion (h : q.WellFormed) :
    q.prune = q.restrict q.keepsForExpansion := by
  rw [prune_eq_restrict]
  refine restrict_congr fun j hj => decide_eq_decide.2 ?_
  have hlt : ¬ q.nextIndex ≤ j.index := Nat.not_le_of_gt (h.counter_above j hj)
  simp only [hlt, or_false]

/-- Pruning spares the aliases that no dead join holds. -/
theorem spares_keepsForExpansion (h : q.WellFormed)
    (hdead : ∀ j ∈ q.deadJoins, ∀ a, j.name = some a → a.text ∉ xs) :
    q.Spares q.keepsForExpansion xs where
  root := decide_eq_true (.inl (sufficient_live h).root)
  fresh b hb := decide_eq_true (.inr hb)
  held j hj a hname ha := by
    refine decide_eq_true (.inl ?_)
    by_contra hnot
    exact hdead j (mem_deadJoins_iff.2 ⟨hj, hnot⟩) a hname ha

/-- The joins that an expansion adds to a query mention only bindings that are kept. -/
theorem keepsForExpansion_of_mentions (h : q.WellFormed)
    (hspares : q.Spares q.keepsForExpansion spec.aliases) (hr : q.expand e spec = .ok r)
    {j : Join} (hj : j ∈ r.joins) (hnew : q.nextIndex ≤ j.index) {b : Binding}
    (hb : j.on.Mentions b) : q.keepsForExpansion b = true := by
  -- The expansion of the pruned query adds the same join, and has no other bindings to mention.
  have hpruned : (q.restrict q.keepsForExpansion).expand e spec
      = .ok (r.restrict q.keepsForExpansion) := by
    rw [expand_restrict hspares, hr]
    rfl
  have hmem : j ∈ (r.restrict q.keepsForExpansion).joins :=
    mem_joins_restrict.2 ⟨hj, hspares.fresh _ hnew⟩
  rcases (adds_of_expand hpruned).mem_joins hmem with hold | ⟨-, hon⟩
  · have hlt : j.index < q.nextIndex := h.counter_above j (mem_joins_restrict.1 hold).1
    exact absurd hnew (Nat.not_le_of_gt hlt)
  · exact ((mem_bindings_restrict_iff hspares.root).1 (hon b hb)).2

/-- After an expansion, all that is used is new or was live before. -/
theorem keepsUsed_keepsForExpansion (h : q.WellFormed)
    (hspares : q.Spares q.keepsForExpansion spec.aliases) (hr : q.expand e spec = .ok r) :
    r.KeepsUsed q.keepsForExpansion := by
  have hlive : q.Sufficient {b | b ∈ q.live} := sufficient_live h
  have hadds : q.Adds r := adds_of_expand hr
  -- A binding of the result is kept if it is live in case it was there before.
  have hkept : ∀ c ∈ r.bindings, (c ∈ q.bindings → c ∈ q.live) → q.keepsForExpansion c = true :=
    fun c hc hold => (hadds.mem_bindings hc).elim (fun hc => decide_eq_true (.inl (hold hc)))
      (hspares.fresh c)
  exact
    { present := fun c hc => hc.1
      root := ⟨root_mem_bindings r, hspares.root⟩
      clause := by
        intro c hc hmentions
        rw [clauseMentions_congr (clauses_expand hr)] at hmentions
        exact ⟨hc, hkept c hc fun hold => hlive.clause c hold hmentions⟩
      preload := by
        intro j hj a hname hnames
        refine ⟨index_mem_bindings hj, ?_⟩
        rw [preloads_expand hr] at hnames
        rcases hadds.mem_joins hj with hold | ⟨hnew, -⟩
        · rcases PreloadTree.names_merge_iff.1 hnames with hnames | hnames
          · exact decide_eq_true (.inl (hlive.preload j hold a hname hnames))
          · exact hspares.held j hold a hname ((mem_aliases_iff_exists_names hr).2 ⟨a, hnames, rfl⟩)
        · exact hspares.fresh _ hnew
      condition := by
        intro j hj ⟨_, hjkept⟩ c hc hmentions
        refine ⟨hc, ?_⟩
        rcases hadds.mem_joins hj with hold | ⟨hnew, -⟩
        · have hlt : ¬ q.nextIndex ≤ j.index := Nat.not_le_of_gt (h.counter_above j hold)
          have hjlive : j.index ∈ q.live := (of_decide_eq_true hjkept).resolve_right hlt
          exact hkept c hc fun hcold => hlive.condition j hold hjlive c hcold hmentions
        · exact keepsForExpansion_of_mentions h hspares hr hj hnew hmentions }

/-- A query can be pruned before an expansion or after it, when no dead join holds an alias that the
specification generates: both expansions fail with one error, or both succeed and the results are
the same once they are pruned. -/
theorem expand_prune (h : q.WellFormed)
    (hdead : ∀ j ∈ q.deadJoins, ∀ a, j.name = some a → a.text ∉ spec.aliases) :
    (∃ error, q.expand e spec = .error error ∧ q.prune.expand e spec = .error error)
      ∨ ∃ r s, q.expand e spec = .ok r ∧ q.prune.expand e spec = .ok s ∧ r.prune = s.prune := by
  have hspares : q.Spares q.keepsForExpansion spec.aliases := spares_keepsForExpansion h hdead
  have hcommute := expand_restrict (e := e) hspares
  rw [← prune_eq_restrict_keepsForExpansion h] at hcommute
  cases hr : q.expand e spec with
  | error error =>
    rw [hr] at hcommute
    exact .inl ⟨error, rfl, hcommute⟩
  | ok r =>
    rw [hr] at hcommute
    refine .inr ⟨r, _, rfl, hcommute, ?_⟩
    have hwf : r.WellFormed := h.steps (steps_expand hr)
    have hkeep : r.KeepsUsed q.keepsForExpansion := keepsUsed_keepsForExpansion h hspares hr
    exact (prune_restrict hwf fun b hb => hkeep.keep_of_mem_live hwf hb).symm

/-- Posts joined with their authors, whom nothing asks for. -/
def authored : Query :=
  { ofRelation Blog.posts with
    joins := [{ Blog.comparing 1 1 0 with name := some Blog.authorAlias }]
    nextIndex := 2 }

theorem expand_prune_authored :
    authored.WellFormed ∧ authored.deadJoins = authored.joins
      ∧ ∃ r s, authored.expand Blog.expander (.relation "comments") = .ok r
        ∧ authored.prune.expand Blog.expander (.relation "comments") = .ok s
        ∧ r.joins.length = 2 ∧ s.joins.length = 1 ∧ r.prune = s.prune := by
  have h : authored.WellFormed := wellFormed_of_check rfl
  have hunused : authored.Unused 1 := uses_eq_zero_iff.1 (by cbv)
  have hdead : 1 ∉ authored.live := hunused.not_mem_live h List.mem_cons_self
  have hdeadJoins : authored.deadJoins = authored.joins :=
    List.filter_eq_self.2 fun j hj => by rw [List.mem_singleton.1 hj]; exact decide_eq_true hdead
  have hpruned : authored.prune = { ofRelation Blog.posts with nextIndex := 2 } := by
    have hkeep : authored.KeepsUsed fun b => decide (b ≠ 1) :=
      hunused.keepsUsed h List.mem_cons_self
    -- Without the join there is nothing left to prune.
    rw [← prune_restrict h fun b hb => hkeep.keep_of_mem_live h hb]
    exact prune_eq_self fun j hj => absurd hj List.not_mem_nil
  have hspared : ∀ j ∈ authored.deadJoins, ∀ a, j.name = some a →
      a.text ∉ (Spec.relation "comments").aliases := by
    intro j hj a hname
    rw [hdeadJoins] at hj
    rw [List.mem_singleton.1 hj] at hname
    obtain rfl := Option.some.inj hname
    decide
  refine ⟨h, hdeadJoins, ?_⟩
  rcases expand_prune (e := Blog.expander) h hspared with ⟨error, herror, -⟩ | ⟨r, s, hr, hs, heq⟩
  · cases herror
  · rw [hpruned] at hs
    obtain rfl := Except.ok.inj hr
    obtain rfl := Except.ok.inj hs
    exact ⟨_, _, rfl, by rw [hpruned]; rfl, rfl, rfl, heq⟩

end JoinGraph.Query

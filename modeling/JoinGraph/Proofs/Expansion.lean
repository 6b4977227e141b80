import JoinGraph.Expansion
import JoinGraph.Proofs.Mention
import JoinGraph.Proofs.Registry

/-!
# Successful Expansions

What an expansion that succeeds has done. One association node resolves its parent, finds the
association and registers one join (`associationJoin_eq_ok_iff`); a whole specification does this
node by node, and `expandNode_induction` is the one induction over it that all later facts use.

The main consequences are that expansion never loses what can be looked up (`expandNode_extends`),
that the trees it returns have the shape of the specification (`expandNode_forest`) and name the
aliases that it generates (`map_text_forestAliases`), and that every alias in them is held
afterwards (`expandNode_names`).
-/

open Relation

namespace JoinGraph

namespace Spec

mutual

/-- The trees that a specification stands for below a lead: its associations, nested as they are
written. An association without a name has no tree, as it has no alias. -/
def forestBelow (lead : String) : Spec → List PreloadTree
  | relation name =>
    if h : name = "" then [] else [PreloadTree.leaf name (Alias.below lead name h)]
  | seq items => itemForestsBelow lead items
  | nested name sub =>
    if h : name = "" then [] else [⟨name, Alias.below lead name h, sub.forestBelow lead⟩]
  | prefixed extra sub => sub.forestBelow (lead ++ extra)

def itemForestsBelow (lead : String) : List Spec → List PreloadTree
  | [] => []
  | item :: rest => item.forestBelow lead ++ itemForestsBelow lead rest

end

/-- The trees that a specification stands for. -/
def forest (spec : Spec) : List PreloadTree := spec.forestBelow ""

end Spec

/-- What can be looked up in the first query is found unchanged in the second. -/
structure Query.Extends (q r : Query) : Prop where
  join : ∀ a j, q.join? a = some j → r.join? a = some j
  source : ∀ b s, q.source? b = some s → r.source? b = some s

namespace Query

variable {q r s : Query}

theorem Extends.refl (q : Query) : q.Extends q := ⟨fun _ _ h => h, fun _ _ h => h⟩

theorem Extends.trans (h : q.Extends r) (h' : r.Extends s) : q.Extends s :=
  ⟨fun a j hj => h'.join a j (h.join a j hj), fun b t ht => h'.source b t (h.source b t ht)⟩

theorem Extends.hasJoin (h : q.Extends r) {a : Alias} (ha : q.hasJoin a = true) :
    r.hasJoin a = true := by
  obtain ⟨j, hj⟩ := Option.isSome_iff_exists.1 ha
  exact Option.isSome_iff_exists.2 ⟨j, h.join a j hj⟩

/-- Joins that are appended are found only where nothing was found before. -/
theorem extends_append (q : Query) (name : Option Alias) (request : JoinRequest) :
    q.Extends (q.append name request) where
  join a j h := by
    rw [join?, joins_append, List.find?_append]
    rw [join?] at h
    rw [h, Option.some_or]
  source b t h := by
    rw [source?] at h ⊢
    split
    · rename_i hb
      rw [if_pos hb] at h
      exact h
    · rename_i hb
      rw [if_neg hb, joinAt?] at h
      obtain ⟨j, hj, hjt⟩ := Option.map_eq_some_iff.1 h
      rw [joinAt?, joins_append, List.find?_append, hj, Option.some_or, Option.map_some, hjt]

theorem extends_ensure (q : Query) (name : Alias) (request : JoinRequest) :
    q.Extends (q.ensure name request) := by
  rcases ensure_cases q name request with ⟨j, -, hsame⟩ | ⟨-, happend⟩
  · rw [hsame]
    exact .refl q
  · rw [happend]
    exact extends_append q (some name) request

/-- Registering touches nothing but the joins and the counter. -/
theorem ensure_eq_with (q : Query) (name : Alias) (request : JoinRequest) :
    q.ensure name request = { q with
      joins := (q.ensure name request).joins
      nextIndex := (q.ensure name request).nextIndex } := by
  rcases ensure_cases q name request with ⟨j, -, hsame⟩ | ⟨-, happend⟩
  · rw [hsame]
    cases q
    rfl
  · rw [happend]
    rfl

/-- A binding whose source can be looked up is a binding of the query. -/
theorem mem_bindings_of_source? {b : Binding} {t : Source} (h : q.source? b = some t) :
    b ∈ q.bindings := by
  rw [mem_bindings]
  rw [source?] at h
  split at h
  · rename_i hb
    exact .inl hb
  · obtain ⟨j, hj, -⟩ := Option.map_eq_some_iff.1 h
    obtain ⟨hmem, hindex⟩ := mem_joins_of_joinAt? hj
    exact .inr ⟨j, hmem, hindex⟩

variable {e : Expander} {site : ExpansionSite} {name : String} {join : AssociationJoin}

/-- An association node succeeds exactly when it has a name, its parent has a relation and the
provider knows the association, and then the join is determined by these. -/
theorem associationJoin_eq_ok_iff :
    q.associationJoin e site name = .ok join ↔
      ∃ (hname : name ≠ "") (source : Source) (relation : RelationName)
        (association : Association),
        q.source? site.parent = some source ∧ source.relation? = some relation
          ∧ e.provider relation name = some association
          ∧ join.name = Alias.below site.lead name hname
          ∧ join.index = (q.binding? join.name).getD q.nextIndex
          ∧ join.request = {
              qualifier := e.qualifier
              source := .association site.parent association.name association.related
              on := .equals (.field join.index association.relatedKey)
                (.field site.parent association.ownerKey) } := by
  rw [associationJoin]
  constructor
  · intro h
    split at h
    · cases h
    · rename_i hname
      split at h
      · cases h
      · rename_i relation hrelation
        obtain ⟨source, hsource, hrelation⟩ := Option.bind_eq_some_iff.1 hrelation
        split at h
        · cases h
        · rename_i association hassociation
          obtain rfl := Except.ok.inj h
          exact ⟨hname, source, relation, association, hsource, hrelation, hassociation, rfl, rfl,
            rfl⟩
  · rintro ⟨hname, source, relation, association, hsource, hrelation, hassociation, h₁, h₂, h₃⟩
    -- The three equations say what each field of the join is.
    obtain ⟨_, _, _⟩ := join
    dsimp only at h₁ h₂ h₃
    subst h₁ h₂ h₃
    rw [dif_neg hname, hsource, Option.bind_some, hrelation]
    dsimp only
    rw [hassociation]

/-- Once its join is registered, the alias of an association node is held by the binding that the
node predicted. -/
theorem binding?_ensure_associationJoin (h : q.associationJoin e site name = .ok join) :
    (q.ensure join.name join.request).binding? join.name = some join.index := by
  obtain ⟨-, -, -, -, -, -, -, -, hindex, -⟩ := associationJoin_eq_ok_iff.1 h
  rw [hindex]
  -- The join that is reused has the binding already; a new one gets the counter.
  rcases ensure_cases q join.name join.request with ⟨j, hjoin, hsame⟩ | ⟨hnone, happend⟩
  · rw [hsame, binding?, hjoin, Option.map_some, Option.getD_some]
  · rw [happend, binding?, binding?, hnone, join?, joins_append, List.find?_append]
    rw [join?] at hnone
    simp [hnone]

theorem hasJoin_ensure_associationJoin (h : q.associationJoin e site name = .ok join) :
    (q.ensure join.name join.request).hasJoin join.name = true := by
  obtain ⟨j, hj, -⟩ := Option.map_eq_some_iff.1 (binding?_ensure_associationJoin h)
  exact Option.isSome_iff_exists.2 ⟨j, hj⟩

/-- The parent of an association node is a binding of the query. -/
theorem parent_mem_bindings (h : q.associationJoin e site name = .ok join) :
    site.parent ∈ q.bindings := by
  obtain ⟨-, _, -, -, hsource, -⟩ := associationJoin_eq_ok_iff.1 h
  exact mem_bindings_of_source? hsource

/-- The condition of a generated join mentions the join itself and its parent. -/
theorem mentions_associationJoin_iff (h : q.associationJoin e site name = .ok join) {b : Binding} :
    join.request.on.Mentions b ↔ b = join.index ∨ b = site.parent := by
  obtain ⟨_, _, _, _, -, -, -, -, -, hrequest⟩ := associationJoin_eq_ok_iff.1 h
  rw [hrequest, Expr.mentions_equals_field_iff]

end Query

/-! ### Induction over a successful expansion -/

/-- Two properties, of a node and of siblings, pass from the parts of an expansion that succeeds to
the whole. -/
structure ExpansionRules (e : Expander)
    (P : Query → ExpansionSite → Spec → Query → List PreloadTree → Prop)
    (Q : Query → ExpansionSite → Nat → List Spec → Query → List PreloadTree → Prop) : Prop where
  relation : ∀ {q site name join}, q.associationJoin e site name = .ok join →
    P q site (.relation name) (q.ensure join.name join.request) [PreloadTree.leaf name join.name]
  seq : ∀ {q site items r forest}, Q q site 0 items r forest → P q site (.seq items) r forest
  nested : ∀ {q site name sub join r children}, q.associationJoin e site name = .ok join →
    P (q.ensure join.name join.request) { site.down (.under name) with parent := join.index } sub
      r children →
    P q site (.nested name sub) r [⟨name, join.name, children⟩]
  prefixed : ∀ {q site lead sub r forest},
    P q { site.down .spec with lead := site.lead ++ lead } sub r forest →
    P q site (.prefixed lead sub) r forest
  nil : ∀ {q site index}, Q q site index [] q []
  cons : ∀ {q site index item rest r s trees more}, P q (site.down (.item index)) item r trees →
    Q r site (index + 1) rest s more → Q q site index (item :: rest) s (trees ++ more)

namespace Query

variable {e : Expander} {P : Query → ExpansionSite → Spec → Query → List PreloadTree → Prop}
  {Q : Query → ExpansionSite → Nat → List Spec → Query → List PreloadTree → Prop}

mutual

/-- What passes from the parts to the whole holds of every node that succeeds. -/
theorem expandNode_induction (rules : ExpansionRules e P Q) {q r : Query} {site : ExpansionSite}
    {forest : List PreloadTree} :
    ∀ {spec : Spec}, q.expandNode e site spec = .ok (r, forest) → P q site spec r forest
  -- A part that fails makes the whole fail, so in each case all parts have succeeded.
  | .relation name, h => by
    rw [expandNode] at h
    split at h
    · cases h
    · rename_i join hjoin
      obtain ⟨rfl, rfl⟩ := Prod.mk.inj (Except.ok.inj h)
      exact rules.relation hjoin
  | .seq items, h => by
    rw [expandNode] at h
    exact rules.seq (expandItems_induction rules h)
  | .nested name sub, h => by
    rw [expandNode] at h
    split at h
    · cases h
    · rename_i join hjoin
      dsimp only at h
      split at h
      · cases h
      · rename_i r' children hsub
        obtain ⟨rfl, rfl⟩ := Prod.mk.inj (Except.ok.inj h)
        exact rules.nested hjoin (expandNode_induction rules hsub)
  | .prefixed lead sub, h => by
    rw [expandNode] at h
    exact rules.prefixed (expandNode_induction rules h)

/-- What passes from the parts to the whole holds of all siblings that succeed. -/
theorem expandItems_induction (rules : ExpansionRules e P Q) {q r : Query} {site : ExpansionSite}
    {index : Nat} {forest : List PreloadTree} :
    ∀ {items : List Spec}, q.expandItems e site index items = .ok (r, forest) →
      Q q site index items r forest
  | [], h => by
    rw [expandItems] at h
    obtain ⟨rfl, rfl⟩ := Prod.mk.inj (Except.ok.inj h)
    exact rules.nil
  | item :: rest, h => by
    rw [expandItems] at h
    split at h
    · cases h
    · rename_i s trees hitem
      split at h
      · cases h
      · rename_i s' more hrest
        obtain ⟨rfl, rfl⟩ := Prod.mk.inj (Except.ok.inj h)
        exact rules.cons (expandNode_induction rules hitem) (expandItems_induction rules hrest)

end

variable {q r : Query} {site : ExpansionSite} {spec : Spec} {forest : List PreloadTree}

/-- What registering a resolved association preserves is preserved by an expansion. -/
theorem expandNode_invariant {I : Query → Prop}
    (step : ∀ {q site name join}, q.associationJoin e site name = .ok join → I q →
      I (q.ensure join.name join.request))
    (h : q.expandNode e site spec = .ok (r, forest)) (hq : I q) : I r := by
  have hrules : ExpansionRules e (fun q _ _ r _ => I q → I r) (fun q _ _ _ r _ => I q → I r) :=
    { relation := step
      seq := id
      nested := fun hjoin hsub hq => hsub (step hjoin hq)
      prefixed := id
      nil := id
      cons := fun hitem hrest hq => hrest (hitem hq) }
  exact expandNode_induction hrules h hq

/-- Expansion never loses what can be looked up. -/
theorem expandNode_extends (h : q.expandNode e site spec = .ok (r, forest)) : q.Extends r :=
  expandNode_invariant (I := q.Extends)
    (fun _ hs => hs.trans (extends_ensure _ _ _)) h (.refl q)

/-- Going through a specification touches nothing but the joins and the counter. -/
theorem expandNode_eq_with (h : q.expandNode e site spec = .ok (r, forest)) :
    r = { q with joins := r.joins, nextIndex := r.nextIndex } := by
  refine expandNode_invariant (I := fun s => s = { q with
    joins := s.joins, nextIndex := s.nextIndex }) ?_ h (by cases q; rfl)
  intro s site name join _ hs
  rw [ensure_eq_with, hs]

/-- The trees of an expansion are those that the specification stands for. -/
theorem expandNode_forest (h : q.expandNode e site spec = .ok (r, forest)) :
    forest = spec.forestBelow site.lead := by
  -- The trees depend on the lead only; queries, parents and places do not come in.
  have hrules : ExpansionRules e
      (fun _ site spec _ forest => forest = spec.forestBelow site.lead)
      (fun _ site _ items _ forest => forest = Spec.itemForestsBelow site.lead items) :=
    { relation := by
        intro q site name join hjoin
        obtain ⟨hname, _, _, _, -, -, -, hjoin, -⟩ := associationJoin_eq_ok_iff.1 hjoin
        rw [Spec.forestBelow, dif_neg hname, hjoin]
      seq := by
        intro q site items r forest hitems
        rw [hitems, Spec.forestBelow]
      nested := by
        intro q site name sub join r children hjoin hsub
        obtain ⟨hname, _, _, _, -, -, -, hjoin, -⟩ := associationJoin_eq_ok_iff.1 hjoin
        rw [Spec.forestBelow, dif_neg hname, hjoin, hsub]
        rfl
      prefixed := by
        intro q site lead sub r forest hsub
        rw [hsub, Spec.forestBelow]
      nil := by
        intro q site index
        rw [Spec.itemForestsBelow]
      cons := by
        intro q site index item rest r s trees more hitem hrest
        rw [hitem, hrest, Spec.itemForestsBelow]
        rfl }
  exact expandNode_induction hrules h

/-- Every alias in the trees of an expansion is held afterwards. -/
theorem expandNode_names (h : q.expandNode e site spec = .ok (r, forest)) {a : Alias}
    (ha : PreloadTree.Names forest a) : r.hasJoin a = true := by
  -- An alias of an early sibling has to be held at the end, so the extension is carried along.
  have hrules : ExpansionRules e
      (fun q _ _ r forest => q.Extends r ∧ ∀ a, PreloadTree.Names forest a → r.hasJoin a = true)
      (fun q _ _ _ r forest =>
        q.Extends r ∧ ∀ a, PreloadTree.Names forest a → r.hasJoin a = true) :=
    { relation := by
        intro q site name join hjoin
        refine ⟨extends_ensure _ _ _, fun a ha => ?_⟩
        rcases PreloadTree.names_cons_iff.1 ha with rfl | ha | ha
        · exact hasJoin_ensure_associationJoin hjoin
        · exact absurd ha PreloadTree.not_names_nil
        · exact absurd ha PreloadTree.not_names_nil
      seq := id
      nested := by
        intro q site name sub join r children hjoin ⟨hext, hnames⟩
        refine ⟨(extends_ensure _ _ _).trans hext, fun a ha => ?_⟩
        rcases PreloadTree.names_cons_iff.1 ha with rfl | ha | ha
        · exact hext.hasJoin (hasJoin_ensure_associationJoin hjoin)
        · exact hnames a ha
        · exact absurd ha PreloadTree.not_names_nil
      prefixed := id
      nil := ⟨.refl _, fun a ha => absurd ha PreloadTree.not_names_nil⟩
      cons := by
        intro q site index item rest r s trees more ⟨hext, hnames⟩ ⟨hext', hnames'⟩
        refine ⟨hext.trans hext', fun a ha => ?_⟩
        rcases PreloadTree.names_append_iff.1 ha with ha | ha
        · exact hext'.hasJoin (hnames a ha)
        · exact hnames' a ha }
  exact (expandNode_induction hrules h).2 a ha

/-- An expansion goes through its specification and merges the trees it gets. -/
theorem expand_eq_ok_iff {spec : Spec} : q.expand e spec = .ok r ↔
    ∃ s, q.expandNode e .start spec = .ok (s, spec.forest)
      ∧ r = { s with preloads := PreloadTree.merge q.preloads spec.forest } := by
  rw [expand]
  constructor
  · intro h
    split at h
    · cases h
    · rename_i s forest hs
      have hforest : forest = spec.forest := expandNode_forest hs
      have hpreloads : s.preloads = q.preloads := by rw [expandNode_eq_with hs]
      obtain rfl := Except.ok.inj h
      exact ⟨s, hforest ▸ hs, by rw [hforest, hpreloads]⟩
  · rintro ⟨s, hs, rfl⟩
    have hpreloads : s.preloads = q.preloads := by rw [expandNode_eq_with hs]
    rw [hs]
    dsimp only
    rw [hpreloads]

theorem clauses_expand (h : q.expand e spec = .ok r) : r.clauses = q.clauses := by
  obtain ⟨s, hs, rfl⟩ := expand_eq_ok_iff.1 h
  rw [expandNode_eq_with hs]
  rfl

theorem preloads_expand (h : q.expand e spec = .ok r) :
    r.preloads = PreloadTree.merge q.preloads spec.forest := by
  obtain ⟨s, -, rfl⟩ := expand_eq_ok_iff.1 h
  rfl

/-- The trees of an expansion name the aliases of the specification, in the same order. -/
theorem map_text_forestAliases (h : q.expandNode e site spec = .ok (r, forest)) :
    (PreloadTree.forestAliases forest).map (·.text) = spec.aliasesBelow site.lead := by
  have hrules : ExpansionRules e
      (fun _ site spec _ forest =>
        (PreloadTree.forestAliases forest).map (·.text) = spec.aliasesBelow site.lead)
      (fun _ site _ items _ forest =>
        (PreloadTree.forestAliases forest).map (·.text)
          = Spec.itemAliasesBelow site.lead items) :=
    { relation := by
        intro q site name join hjoin
        obtain ⟨_, _, _, _, -, -, -, halias, -⟩ := associationJoin_eq_ok_iff.1 hjoin
        simp [PreloadTree.leaf, PreloadTree.forestAliases, PreloadTree.aliases,
          Spec.aliasesBelow, halias]
      seq := by
        intro q site items r forest hitems
        rw [hitems, Spec.aliasesBelow]
      nested := by
        intro q site name sub join r children hjoin hsub
        obtain ⟨_, _, _, _, -, -, -, halias, -⟩ := associationJoin_eq_ok_iff.1 hjoin
        simp [PreloadTree.forestAliases, PreloadTree.aliases, Spec.aliasesBelow, halias, hsub,
          ExpansionSite.down]
      prefixed := by
        intro q site lead sub r forest hsub
        rw [hsub, Spec.aliasesBelow]
      nil := by
        intro q site index
        rw [Spec.itemAliasesBelow, PreloadTree.forestAliases, List.map_nil]
      cons := by
        intro q site index item rest r s trees more hitem hrest
        rw [PreloadTree.forestAliases_append, List.map_append, hitem, hrest,
          Spec.itemAliasesBelow]
        rfl }
  exact expandNode_induction hrules h

/-- When a specification can be expanded, its trees name what it generates. -/
theorem mem_aliases_iff_exists_names (h : q.expand e spec = .ok r) {text : String} :
    text ∈ spec.aliases ↔ ∃ a, PreloadTree.Names spec.forest a ∧ a.text = text := by
  obtain ⟨s, hs, -⟩ := expand_eq_ok_iff.1 h
  have haliases : (PreloadTree.forestAliases spec.forest).map (·.text) = spec.aliases :=
    map_text_forestAliases hs
  rw [← haliases, List.mem_map]
  simp only [PreloadTree.mem_forestAliases_iff_names]

/-- An expansion registers joins and then sets the preloads. -/
theorem steps_expand (h : q.expand e spec = .ok r) : ReflTransGen RegistryStep q r := by
  obtain ⟨s, hs, rfl⟩ := expand_eq_ok_iff.1 h
  have hsteps : ReflTransGen RegistryStep q s :=
    expandNode_invariant (I := ReflTransGen RegistryStep q)
      (fun _ h => h.trans (steps_ensure _ _ _)) hs .refl
  exact hsteps.tail (.rewrite rfl rfl)

end Query

end JoinGraph

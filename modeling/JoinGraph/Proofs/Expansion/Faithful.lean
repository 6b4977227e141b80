import JoinGraph.Proofs.Catalog
import JoinGraph.Proofs.Expansion.Joins
import JoinGraph.Proofs.Preload.Merge
import JoinGraph.Proofs.WellFormed
import Mathlib.Data.List.Nodup

/-!
# Faithful Expansion

When the aliases of a specification are new and distinct, its nodes do not get in each other's way.
The expansion then succeeds exactly when every name resolves along the path of the specification
(`Spec.Resolves`), and every node gets a join of its own, tied to that of the nearest node around it
(`Spec.JoinedIn`). What carries the induction is that a site is clear (`Query.Clear`): it stays so
for the siblings after a node, which see an extended query, and it becomes so below a node for what
is nested in it. The main result is `expand_faithful`.

## Main definitions

* `Spec.Resolves` — the names of a specification resolve in a catalog.
* `Spec.JoinedIn` — every node of a specification has its join in a query.
* `Query.Clear`, `Query.Grows` — a site where nothing is in the way, and what an expansion there
  does to the query.
-/

namespace JoinGraph

/-- Every association of the specification has a name, and the names resolve in the catalog. The
first ones resolve on `source?`, those nested under an association on the relation that it leads to;
sequences and leads do not move. -/
inductive Spec.Resolves (c : Catalog) : Option RelationName → Spec → Prop
  | relation {source : RelationName} {name : String} {a : Association} (hname : name ≠ "")
      (ha : c.association? source name = some a) : Resolves c (some source) (.relation name)
  | seq {source? : Option RelationName} {items : List Spec}
      (h : ∀ item ∈ items, Resolves c source? item) : Resolves c source? (.seq items)
  | nested {source : RelationName} {name : String} {sub : Spec} {a : Association}
      (hname : name ≠ "") (ha : c.association? source name = some a)
      (hsub : Resolves c (some a.related) sub) : Resolves c (some source) (.nested name sub)
  | prefixed {source? : Option RelationName} {lead : String} {sub : Spec}
      (h : Resolves c source? sub) : Resolves c source? (.prefixed lead sub)

/-- The join of an association node: it is held under the alias of the node, leads from its parent
along the association, and equates the keys of the association. -/
structure Query.NodeJoin (r : Query) (parent : Binding) (text name : String) (a : Association)
    (j : Join) : Prop where
  held : ∃ al : Alias, al.text = text ∧ r.join? al = some j
  source : j.source = .association parent name a.related
  on : j.on = .equals (.field j.index a.relatedKey) (.field parent a.ownerKey)

/-- Every node of the specification has its join in the query. The parent of what is nested under an
association is the join of that association; sequences and leads keep the parent. -/
inductive Spec.JoinedIn (c : Catalog) (r : Query) :
    Binding → Option RelationName → String → Spec → Prop
  | relation {parent : Binding} {source : RelationName} {lead name : String} {a : Association}
      {j : Join} (hname : name ≠ "") (ha : c.association? source name = some a)
      (hj : r.NodeJoin parent (lead ++ name) name a j) :
      JoinedIn c r parent (some source) lead (.relation name)
  | seq {parent : Binding} {source? : Option RelationName} {lead : String} {items : List Spec}
      (h : ∀ item ∈ items, JoinedIn c r parent source? lead item) :
      JoinedIn c r parent source? lead (.seq items)
  | nested {parent : Binding} {source : RelationName} {lead name : String} {sub : Spec}
      {a : Association} {j : Join} (hname : name ≠ "") (ha : c.association? source name = some a)
      (hj : r.NodeJoin parent (lead ++ name) name a j)
      (hsub : JoinedIn c r j.index (some a.related) lead sub) :
      JoinedIn c r parent (some source) lead (.nested name sub)
  | prefixed {parent : Binding} {source? : Option RelationName} {lead extra : String} {sub : Spec}
      (h : JoinedIn c r parent source? (lead ++ extra) sub) :
      JoinedIn c r parent source? lead (.prefixed extra sub)

/-- The join of a node stays found when the query is extended. -/
theorem Query.NodeJoin.mono {r s : Query} {parent : Binding} {text name : String} {a : Association}
    {j : Join} (h : r.NodeJoin parent text name a j) (hext : r.Extends s) :
    s.NodeJoin parent text name a j := by
  obtain ⟨⟨al, hal, hj⟩, hsource, hon⟩ := h
  exact ⟨⟨al, hal, hext.join al j hj⟩, hsource, hon⟩

namespace Spec

variable {c : Catalog} {r s : Query} {parent : Binding} {source? : Option RelationName}
  {lead : String} {spec : Spec}

/-- What has its joins has resolved. -/
theorem JoinedIn.resolves (h : spec.JoinedIn c r parent source? lead) :
    spec.Resolves c source? := by
  induction h with
  | relation hname ha _ => exact .relation hname ha
  | seq _ ih => exact .seq ih
  | nested hname ha _ _ ih => exact .nested hname ha ih
  | prefixed _ ih => exact .prefixed ih

/-- A specification that has its joins in a query has them in every extension of it. -/
theorem JoinedIn.mono (h : spec.JoinedIn c r parent source? lead) (hext : r.Extends s) :
    spec.JoinedIn c s parent source? lead := by
  induction h with
  | relation hname ha hj => exact .relation hname ha (hj.mono hext)
  | seq _ ih => exact .seq ih
  | nested hname ha hj _ ih => exact .nested hname ha (hj.mono hext) ih
  | prefixed _ ih => exact .prefixed ih

end Spec

namespace Query

/-! ## Clear sites -/

/-- Nothing is in the way of an expansion below `parent`: its source is known, and the aliases to be
generated are distinct and held by no join. -/
structure Clear (q : Query) (parent : Binding) (source : Source) (aliases : List String) :
    Prop where
  wellFormed : q.WellFormed
  source : q.source? parent = some source
  nodup : aliases.Nodup
  free : ∀ text ∈ aliases, text ∉ q.aliasTexts

/-- The second query is the first one with joins for the aliases. -/
structure Grows (q : Query) (aliases : List String) (r : Query) : Prop where
  extended : q.Extends r
  wellFormed : r.WellFormed
  aliasTexts : r.aliasTexts = q.aliasTexts ++ aliases

variable {q r s : Query} {parent : Binding} {source : Source} {xs ys : List String}

theorem Grows.trans (h : q.Grows xs r) (h' : r.Grows ys s) : q.Grows (xs ++ ys) s where
  extended := h.extended.trans h'.extended
  wellFormed := h'.wellFormed
  aliasTexts := by rw [h'.aliasTexts, h.aliasTexts, List.append_assoc]

theorem Clear.left (h : q.Clear parent source (xs ++ ys)) : q.Clear parent source xs where
  wellFormed := h.wellFormed
  source := h.source
  nodup := (List.nodup_append.1 h.nodup).1
  free text htext := h.free text (List.mem_append_left ys htext)

/-- When the first aliases have been registered, the site of any binding is clear for the others. -/
theorem Clear.after (h : q.Clear parent source (xs ++ ys)) (hr : q.Grows xs r) {b : Binding}
    {t : Source} (hb : r.source? b = some t) : r.Clear b t ys where
  wellFormed := hr.wellFormed
  source := hb
  nodup := (List.nodup_append.1 h.nodup).2.1
  free text htext hmem := by
    rw [hr.aliasTexts, List.mem_append] at hmem
    rcases hmem with hmem | hmem
    · exact h.free text (List.mem_append_right xs htext) hmem
    · exact (List.nodup_append.1 h.nodup).2.2 text hmem text htext rfl

/-- A join that is appended to a well-formed query is found by its binding, the counter. -/
theorem source?_append_nextIndex (name : Option Alias) (request : JoinRequest)
    (hr : (q.append name request).WellFormed) (hq : q.WellFormed) :
    (q.append name request).source? q.nextIndex = some request.source := by
  have hroot : q.nextIndex ≠ Binding.root := Nat.ne_of_gt hq.counter_positive
  have hmem : ⟨q.nextIndex, name, request.qualifier, request.source, request.on⟩ ∈
      (q.append name request).joins := by simp
  have hfound := hr.joinAt?_eq_some hmem
  rw [source?, if_neg hroot, hfound]
  rfl

/-! ## Association nodes -/

variable {c : Catalog} {e : Expander} {site : ExpansionSite} {name : String} {spec : Spec}
  {items : List Spec} {forest : List PreloadTree}

/-- An association node at a clear site appends its join, and the new binding is a clear site for
the aliases that follow. -/
theorem Clear.associationJoin (he : e.provider = c.provider) {join : AssociationJoin}
    (h : q.Clear site.parent source ((site.lead ++ name) :: ys))
    (hjoin : q.associationJoin e site name = .ok join) :
    ∃ relation a j, name ≠ "" ∧ source.relation? = some relation
      ∧ c.association? relation name = some a
      ∧ (q.ensure join.name join.request).NodeJoin site.parent (site.lead ++ name) name a j
      ∧ j.index = join.index
      ∧ q.Grows [site.lead ++ name] (q.ensure join.name join.request)
      ∧ (q.ensure join.name join.request).Clear join.index
          (.association site.parent name a.related) ys := by
  obtain ⟨hname, source', relation, a, hsource, hrelation, ha, halias, hindex, hrequest⟩ :=
    associationJoin_eq_ok_iff.1 hjoin
  obtain rfl : source = source' := Option.some.inj (h.source.symm.trans hsource)
  rw [he] at ha
  have haname : a.name = name := (Catalog.mem_associations_of_association? ha).1
  have htext : join.name.text = site.lead ++ name := by rw [halias, Alias.text_below]
  -- No join holds the alias, so one is appended, under the binding that the node predicts.
  have hfree : join.name.text ∉ q.aliasTexts := htext ▸ h.free _ List.mem_cons_self
  have hnew : q.hasJoin join.name = false := by
    rwa [text_mem_aliasTexts_iff, Bool.not_eq_true] at hfree
  have hcounter : join.index = q.nextIndex := by
    have hnone : q.join? join.name = none := by simpa [hasJoin] using hnew
    rw [hindex, binding?, hnone]
    rfl
  have happend := ensure_eq_append_of_not_hasJoin join.request hnew
  have hwell : (q.ensure join.name join.request).WellFormed :=
    h.wellFormed.steps (steps_ensure _ _ _)
  have hgrows : q.Grows [site.lead ++ name] (q.ensure join.name join.request) := by
    obtain ⟨new, hnewjoins⟩ := registers_ensure q join.name join.request
    rw [missing_singleton_of_not_mem hfree, htext] at hnewjoins
    exact ⟨extends_ensure _ _ _, hwell, hnewjoins.aliasTexts⟩
  have hfound : (q.ensure join.name join.request).source? join.index
      = some (.association site.parent name a.related) := by
    rw [happend] at hwell ⊢
    rw [hcounter, source?_append_nextIndex _ _ hwell h.wellFormed, hrequest, haname]
  have hafter : (q.ensure join.name join.request).Clear join.index
      (.association site.parent name a.related) ys := by
    rw [← List.singleton_append] at h
    exact h.after hgrows hfound
  refine ⟨relation, a,
    ⟨join.index, some join.name, join.request.qualifier, join.request.source, join.request.on⟩,
    hname, hrelation, ha, ⟨⟨join.name, htext, ?_⟩, ?_, ?_⟩, rfl, hgrows,
    hafter⟩
  · refine hwell.join?_eq_some ?_ rfl
    simp [happend, hcounter]
  · rw [hrequest, haname]
  · rw [hrequest]

/-! ## Expansions that succeed -/

/-- An expansion at a clear site gives every node of the specification its join. -/
theorem Clear.joinedIn (he : e.provider = c.provider)
    (hq : q.Clear site.parent source (spec.aliasesBelow site.lead))
    (h : q.expandNode e site spec = .ok (r, forest)) :
    q.Grows (spec.aliasesBelow site.lead) r
      ∧ spec.JoinedIn c r site.parent source.relation? site.lead := by
  have hrules : ExpansionRules e
      (fun q site spec r _ => ∀ source, q.Clear site.parent source (spec.aliasesBelow site.lead) →
        q.Grows (spec.aliasesBelow site.lead) r
          ∧ spec.JoinedIn c r site.parent source.relation? site.lead)
      (fun q site _ items r _ => ∀ source,
        q.Clear site.parent source (Spec.itemAliasesBelow site.lead items) →
        q.Grows (Spec.itemAliasesBelow site.lead items) r
          ∧ ∀ item ∈ items, item.JoinedIn c r site.parent source.relation? site.lead) :=
    { relation := by
        intro q site name join hjoin source hq
        rw [Spec.aliasesBelow] at hq ⊢
        obtain ⟨relation, a, j, hname, hrelation, ha, hj, -, hgrows, -⟩ :=
          hq.associationJoin he hjoin
        rw [hrelation]
        exact ⟨hgrows, .relation hname ha hj⟩
      seq := by
        intro q site items r forest hitems source hq
        rw [Spec.aliasesBelow] at hq ⊢
        obtain ⟨hgrows, hjoined⟩ := hitems source hq
        exact ⟨hgrows, .seq hjoined⟩
      nested := by
        intro q site name sub join r children hjoin hsub source hq
        rw [Spec.aliasesBelow] at hq ⊢
        obtain ⟨relation, a, j, hname, hrelation, ha, hj, hindex, hgrows, hclear⟩ :=
          hq.associationJoin he hjoin
        obtain ⟨hgrows', hjoined⟩ := hsub _ hclear
        rw [hrelation]
        -- The join of the node is still found when what is nested under it has been expanded.
        have hjr := hj.mono hgrows'.extended
        exact ⟨hgrows.trans hgrows', .nested hname ha hjr (hindex ▸ hjoined)⟩
      prefixed := by
        intro q site lead sub r forest hsub source hq
        rw [Spec.aliasesBelow] at hq ⊢
        obtain ⟨hgrows, hjoined⟩ := hsub source hq
        exact ⟨hgrows, .prefixed hjoined⟩
      nil := by
        intro q site index source hq
        refine ⟨⟨.refl q, hq.wellFormed, ?_⟩, by simp⟩
        rw [Spec.itemAliasesBelow, List.append_nil]
      cons := by
        intro q site index item rest r s trees more hitem hrest source hq
        rw [Spec.itemAliasesBelow] at hq ⊢
        obtain ⟨hgrows, hjoined⟩ := hitem source hq.left
        -- The siblings that follow start from the query that the item has extended.
        obtain ⟨hgrows', hjoined'⟩ :=
          hrest source (hq.after hgrows (hgrows.extended.source _ _ hq.source))
        refine ⟨hgrows.trans hgrows', List.forall_mem_cons.2 ⟨?_, hjoined'⟩⟩
        exact hjoined.mono hgrows'.extended }
  exact expandNode_induction hrules h source hq

/-! ## Expansions of what resolves -/

theorem exists_associationJoin (he : e.provider = c.provider) {relation : RelationName}
    {a : Association} (hname : name ≠ "") (hsource : q.source? site.parent = some source)
    (hrelation : source.relation? = some relation) (ha : c.association? relation name = some a) :
    ∃ join, q.associationJoin e site name = .ok join := by
  have hprovider : e.provider relation name = some a := by rwa [he]
  let index := (q.binding? (Alias.below site.lead name hname)).getD q.nextIndex
  let request : JoinRequest := {
    qualifier := e.qualifier
    source := .association site.parent a.name a.related
    on := .equals (.field index a.relatedKey) (.field site.parent a.ownerKey) }
  exact ⟨⟨Alias.below site.lead name hname, index, request⟩, associationJoin_eq_ok_iff.2
    ⟨hname, source, relation, a, hsource, hrelation, hprovider, rfl, rfl, rfl⟩⟩

mutual

/-- At a clear site a specification whose names resolve is expanded. -/
theorem Clear.exists_expandNode (he : e.provider = c.provider) :
    ∀ (spec : Spec) (site : ExpansionSite) {q : Query} {source : Source},
      q.Clear site.parent source (spec.aliasesBelow site.lead) →
      spec.Resolves c source.relation? → ∃ r forest, q.expandNode e site spec = .ok (r, forest)
  | .relation name, site, q, source, hq, hresolves => by
    generalize hrelation : source.relation? = source? at hresolves
    cases hresolves with
    | relation hname ha =>
      obtain ⟨join, hjoin⟩ := exists_associationJoin he hname hq.source hrelation ha
      rw [expandNode, hjoin]
      exact ⟨_, _, rfl⟩
  | .seq items, site, q, source, hq, hresolves => by
    rw [Spec.aliasesBelow] at hq
    generalize hrelation : source.relation? = source? at hresolves
    cases hresolves with
    | seq hitems =>
      subst hrelation
      rw [expandNode]
      exact Clear.exists_expandItems he items site 0 hq hitems
  | .nested name sub, site, q, source, hq, hresolves => by
    rw [Spec.aliasesBelow] at hq
    generalize hrelation : source.relation? = source? at hresolves
    cases hresolves with
    | nested hname ha hsub =>
      obtain ⟨join, hjoin⟩ := exists_associationJoin he hname hq.source hrelation ha
      -- The new join leads to the relation on which what is nested resolves.
      obtain ⟨relation', a', -, -, hrelation', ha', -, -, -, hclear⟩ :=
        hq.associationJoin he hjoin
      obtain rfl := Option.some.inj (hrelation.symm.trans hrelation')
      obtain rfl := Option.some.inj (ha.symm.trans ha')
      obtain ⟨r, children, hexpand⟩ := Clear.exists_expandNode he sub
        { site.down (.under name) with parent := join.index } hclear hsub
      rw [expandNode, hjoin]
      dsimp only
      rw [hexpand]
      exact ⟨_, _, rfl⟩
  | .prefixed extra sub, site, q, source, hq, hresolves => by
    rw [Spec.aliasesBelow] at hq
    generalize hrelation : source.relation? = source? at hresolves
    cases hresolves with
    | prefixed hsub =>
      subst hrelation
      rw [expandNode]
      exact Clear.exists_expandNode he sub { site.down .spec with lead := site.lead ++ extra }
        hq hsub

/-- At a clear site siblings whose names resolve are expanded. -/
theorem Clear.exists_expandItems (he : e.provider = c.provider) :
    ∀ (items : List Spec) (site : ExpansionSite) (index : Nat) {q : Query} {source : Source},
      q.Clear site.parent source (Spec.itemAliasesBelow site.lead items) →
      (∀ item ∈ items, item.Resolves c source.relation?) →
      ∃ r forest, q.expandItems e site index items = .ok (r, forest)
  | [], site, index, q, source, hq, hresolves => ⟨q, [], by rw [expandItems]⟩
  | item :: rest, site, index, q, source, hq, hresolves => by
    rw [Spec.itemAliasesBelow] at hq
    obtain ⟨hitem, hrest⟩ := List.forall_mem_cons.1 hresolves
    have hclear : q.Clear (site.down (.item index)).parent source
        (item.aliasesBelow (site.down (.item index)).lead) := hq.left
    obtain ⟨r, trees, hexpand⟩ := Clear.exists_expandNode he item _ hclear hitem
    obtain ⟨hgrows, -⟩ := hclear.joinedIn he hexpand
    -- The site is still there, and clear for the other siblings, in the query after the item.
    have hafter := hq.after hgrows (hgrows.extended.source _ _ hq.source)
    obtain ⟨s, more, hexpand'⟩ := Clear.exists_expandItems he rest site (index + 1) hafter hrest
    rw [expandItems, hexpand]
    dsimp only
    rw [hexpand']
    exact ⟨_, _, rfl⟩

end

/-! ## Whole specifications -/

/-- Texts that are distinct and not held are all missing. -/
theorem missing_eq_self {held texts : List String} (hnodup : texts.Nodup)
    (hfree : ∀ text ∈ texts, text ∉ held) : missing held texts = texts := by
  induction texts generalizing held with
  | nil => rfl
  | cons text rest ih =>
    obtain ⟨hnew, hrest⟩ := List.nodup_cons.1 hnodup
    obtain ⟨htext, hfree⟩ := List.forall_mem_cons.1 hfree
    have hsplit := missing_append held [text] rest
    rw [missing_singleton_of_not_mem htext] at hsplit
    refine hsplit.trans ?_
    rw [ih hrest]
    · rfl
    · intro other hother hmem
      rcases List.mem_append.1 hmem with hmem | hmem
      · exact hfree other hother hmem
      · exact hnew (List.mem_singleton.1 hmem ▸ hother)

/-- Merging into no forest the trees of a specification with distinct aliases gives these trees. -/
theorem merge_nil_forest (h : q.expandNode e .start spec = .ok (r, spec.forest))
    (hnodup : spec.aliases.Nodup) : PreloadTree.merge [] spec.forest = spec.forest := by
  -- Merging compares the aliases of siblings only, which are among all aliases of the trees.
  have haliases : (PreloadTree.forestAliases spec.forest).Nodup := by
    refine List.Nodup.of_map (·.text) ?_
    rwa [map_text_forestAliases h]
  have hnames := haliases.sublist (PreloadTree.map_name_sublist_forestAliases spec.forest)
  exact PreloadTree.merge_eq_append (by simpa using hnames)

/-- When the aliases of a specification are new and distinct, a query without preloads is expanded
exactly when all names resolve along the path of the specification. Every node then gets a join of
its own, one for each alias and in their order, tied to the join of the nearest node around it; the
preloads are the trees that the specification stands for; and nothing else changes. -/
theorem expand_faithful (hq : q.WellFormed) (hpreloads : q.preloads = [])
    (he : e.provider = c.provider) (hnodup : spec.aliases.Nodup)
    (hfree : ∀ text ∈ spec.aliases, text ∉ q.aliasTexts) :
    ((∃ r, q.expand e spec = .ok r) ↔ spec.Resolves c q.source.relation?)
      ∧ ∀ r, q.expand e spec = .ok r →
          (∃ new, q.Continues e.qualifier spec.aliases new r)
            ∧ spec.JoinedIn c r Binding.root q.source.relation? ""
            ∧ r = { q with
                joins := r.joins, nextIndex := r.nextIndex, preloads := spec.forest } := by
  have hclear : q.Clear ExpansionSite.start.parent q.source
      (spec.aliasesBelow ExpansionSite.start.lead) :=
    ⟨hq, source?_root q, hnodup, hfree⟩
  constructor
  · constructor
    · rintro ⟨r, hr⟩
      obtain ⟨s, hs, -⟩ := expand_eq_ok_iff.1 hr
      exact (hclear.joinedIn he hs).2.resolves
    · intro hresolves
      obtain ⟨s, forest, hs⟩ := hclear.exists_expandNode he spec _ hresolves
      obtain rfl : forest = spec.forest := expandNode_forest hs
      exact ⟨_, expand_eq_ok_iff.2 ⟨s, hs, rfl⟩⟩
  · intro r hr
    have hregisters := registers_expand hr
    rw [Registers, missing_eq_self hnodup hfree] at hregisters
    obtain ⟨s, hs, rfl⟩ := expand_eq_ok_iff.1 hr
    obtain ⟨-, hjoined⟩ := hclear.joinedIn he hs
    rw [hpreloads, merge_nil_forest hs hnodup] at hregisters ⊢
    -- Setting the preloads changes nothing that can be looked up.
    refine ⟨hregisters, hjoined.mono ⟨fun _ _ h => h, fun _ _ h => h⟩, ?_⟩
    rw [expandNode_eq_with hs]

/-- Posts, with comments by their authors and, under a lead, the comments once more. -/
def discussion : Spec :=
  .seq [.nested "comments" (.prefixed "comment_" (.relation "author")),
    .prefixed "recent_" (.relation "comments")]

/-- A query that holds an alias already which is not one of the specification. -/
def authorHeld : Query :=
  { ofRelation Blog.posts with
    joins := [{ Blog.comparing 3 3 0 with name := some Blog.authorAlias }]
    nextIndex := 4 }

/-- Three names resolve, so three joins are appended: the author's is tied to that of the comments
around it, and the comments under the lead are tied to the posts again. -/
theorem expand_faithful_discussion :
    discussion.Resolves Blog.catalog (some Blog.posts)
      ∧ ∃ r, expand ⟨Blog.catalog.provider, .left⟩ authorHeld discussion = .ok r
          ∧ discussion.JoinedIn Blog.catalog r Binding.root (some Blog.posts) ""
          ∧ r.preloads = discussion.forest
          ∧ r.aliasTexts = ["author", "comments", "comment_author", "recent_comments"] := by
  have hwell : authorHeld.WellFormed := wellFormed_of_check rfl
  have hfree : ∀ text ∈ discussion.aliases, text ∉ authorHeld.aliasTexts := by decide
  obtain ⟨hsuccess, hresult⟩ := expand_faithful (e := ⟨Blog.catalog.provider, .left⟩) hwell rfl rfl
    (by decide : discussion.aliases.Nodup) hfree
  obtain ⟨r, hr⟩ : ∃ r, expand ⟨Blog.catalog.provider, .left⟩ authorHeld discussion = .ok r :=
    ⟨_, rfl⟩
  obtain ⟨⟨new, hnew⟩, hjoined, hrest⟩ := hresult r hr
  refine ⟨hsuccess.1 ⟨r, hr⟩, r, hr, hjoined, ?_, hnew.aliasTexts⟩
  rw [hrest]

end Query

end JoinGraph

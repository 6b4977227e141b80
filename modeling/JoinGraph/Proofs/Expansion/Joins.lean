import JoinGraph.Proofs.Blog
import JoinGraph.Proofs.Expansion

/-!
# The Joins of an Expansion

However a specification is nested, an expansion registers its aliases one after the other, in
preorder (`registers_of_expandNode`). Registering a list of aliases appends a join for each one that
is missing when its turn comes: those that no join holds, once each and in the order in which they
first occur (`missing`). Such steps compose (`Registers.trans`), because what was registered before
is held afterwards (`missing_append`).

The main result `continues_of_expand` reads the joins of the result off the list of aliases.
-/

namespace JoinGraph.Query

/-! ### Missing names -/

/-- The texts that are not held, once each, in the order in which they first occur. -/
def missing (held texts : List String) : List String :=
  (texts.filter fun text => decide (text ∉ held)).eraseDups

example : missing ["b"] ["a", "b", "c", "a"] = ["a", "c"] := by decide

variable {held xs ys : List String} {x : String}

theorem mem_missing_iff : x ∈ missing held xs ↔ x ∈ xs ∧ x ∉ held := by
  rw [missing, List.mem_eraseDups, List.mem_filter, decide_eq_true_eq]

/-- What was missing among the first texts is held when it comes to the others. -/
theorem missing_append (held xs ys : List String) :
    missing held (xs ++ ys) = missing held xs ++ missing (held ++ missing held xs) ys := by
  rw [missing, List.filter_append, List.eraseDups_append, List.removeAll, List.filter_filter]
  congr 2
  -- A text that is missing later on is neither held at first nor one of the missing texts before.
  refine List.filter_congr fun y _ => ?_
  by_cases hy : y ∈ held
  · simp [hy]
  · by_cases hx : y ∈ xs <;> simp [hy, hx, mem_missing_iff]

theorem missing_singleton_of_mem (h : x ∈ held) : missing held [x] = [] := by
  simp [missing, h]

theorem missing_singleton_of_not_mem (h : x ∉ held) : missing held [x] = [x] := by
  simp [missing, h, List.eraseDups_cons]

/-! ### Registering aliases -/

/-- The aliases that joins of the query hold, as they are written. -/
def aliasTexts (q : Query) : List String := q.aliases.map (·.text)

/-- The second query has the joins of the first, and after them the new ones: one for each of the
aliases, with consecutive bindings from the counter of the first on, and all of one kind. -/
structure Continues (q : Query) (qualifier : Qualifier) (aliases : List String) (new : List Join)
    (r : Query) : Prop where
  joins : r.joins = q.joins ++ new
  names : new.map (fun j => j.name.map (·.text)) = aliases.map some
  indices : new.map (·.index) = List.range' q.nextIndex new.length
  counter : r.nextIndex = q.nextIndex + new.length
  qualifier : ∀ j ∈ new, j.qualifier = qualifier

/-- The second query is the first one with the missing ones among the aliases registered. -/
def Registers (q : Query) (qualifier : Qualifier) (aliases : List String) (r : Query) : Prop :=
  ∃ new, q.Continues qualifier (missing q.aliasTexts aliases) new r

variable {q r s : Query} {qualifier : Qualifier} {new : List Join}

theorem aliasTexts_eq (q : Query) :
    q.aliasTexts = q.joins.filterMap fun j => j.name.map (·.text) := by
  rw [aliasTexts, aliases, List.map_filterMap]

/-- The new joins hold the new aliases. -/
theorem Continues.aliasTexts (h : q.Continues qualifier xs new r) :
    r.aliasTexts = q.aliasTexts ++ xs := by
  have hnew : new.filterMap (fun j => j.name.map (·.text)) = xs := by
    have hnames := congrArg (List.filterMap id) h.names
    rwa [List.filterMap_map, List.filterMap_map, Function.id_comp, Function.id_comp,
      List.filterMap_some] at hnames
  rw [aliasTexts_eq, aliasTexts_eq, h.joins, List.filterMap_append, hnew]

/-- Each of the new joins holds one of the aliases. -/
theorem Continues.exists_name_eq (h : q.Continues qualifier xs new r) {j : Join} (hj : j ∈ new) :
    ∃ a, j.name = some a ∧ a.text ∈ xs := by
  have hmem : j.name.map (·.text) ∈ xs.map some := h.names ▸ List.mem_map_of_mem hj
  obtain ⟨text, htext, heq⟩ := List.mem_map.1 hmem
  obtain ⟨a, hname, rfl⟩ := Option.map_eq_some_iff.1 heq.symm
  exact ⟨a, hname, htext⟩

theorem Continues.refl (q : Query) (qualifier : Qualifier) : q.Continues qualifier [] [] q where
  joins := (List.append_nil _).symm
  names := rfl
  indices := rfl
  counter := rfl
  qualifier _ hj := absurd hj List.not_mem_nil

theorem Registers.refl (q : Query) (qualifier : Qualifier) : q.Registers qualifier [] q :=
  ⟨[], .refl q qualifier⟩

theorem Registers.trans (h : q.Registers qualifier xs r) (h' : r.Registers qualifier ys s) :
    q.Registers qualifier (xs ++ ys) s := by
  obtain ⟨new, hnew⟩ := h
  obtain ⟨more, hmore⟩ := h'
  -- The second step starts from a query in which the joins of the first are held.
  rw [hnew.aliasTexts] at hmore
  refine ⟨new ++ more, ?_⟩
  rw [missing_append]
  exact
    { joins := by rw [hmore.joins, hnew.joins, List.append_assoc]
      names := by rw [List.map_append, List.map_append, hnew.names, hmore.names]
      indices := by
        rw [List.map_append, hnew.indices, hmore.indices, hnew.counter, List.length_append,
          List.range'_append_1]
      counter := by rw [hmore.counter, hnew.counter, List.length_append, Nat.add_assoc]
      qualifier := by
        intro j hj
        rcases List.mem_append.1 hj with hj | hj
        · exact hnew.qualifier j hj
        · exact hmore.qualifier j hj }

/-- Aliases that are written alike are one alias. -/
theorem text_mem_aliasTexts_iff {a : Alias} : a.text ∈ q.aliasTexts ↔ q.hasJoin a = true := by
  rw [hasJoin_iff_mem_aliases, aliasTexts, List.mem_map]
  constructor
  · rintro ⟨b, hb, htext⟩
    exact Alias.ext htext ▸ hb
  · exact fun ha => ⟨a, ha, rfl⟩

theorem registers_ensure (q : Query) (a : Alias) (request : JoinRequest) :
    q.Registers request.qualifier [a.text] (q.ensure a request) := by
  cases hheld : q.hasJoin a with
  | true =>
    rw [ensure_eq_self_of_hasJoin request hheld]
    refine ⟨[], ?_⟩
    rw [missing_singleton_of_mem (text_mem_aliasTexts_iff.2 hheld)]
    exact .refl q request.qualifier
  | false =>
    rw [ensure_eq_append_of_not_hasJoin request hheld]
    have hfree : a.text ∉ q.aliasTexts := fun hmem => by
      rw [text_mem_aliasTexts_iff, hheld] at hmem
      exact Bool.false_ne_true hmem
    refine ⟨[⟨q.nextIndex, some a, request.qualifier, request.source, request.on⟩], ?_⟩
    rw [missing_singleton_of_not_mem hfree]
    exact ⟨rfl, rfl, rfl, rfl, fun j hj => by rw [List.mem_singleton.1 hj]⟩

/-! ### Expansion -/

variable {e : Expander} {site : ExpansionSite} {spec : Spec} {forest : List PreloadTree}

/-- An association node registers the alias that it generates. -/
theorem registers_associationJoin {name : String} {join : AssociationJoin}
    (h : q.associationJoin e site name = .ok join) :
    q.Registers e.qualifier [site.lead ++ name] (q.ensure join.name join.request) := by
  obtain ⟨hname, _, _, _, -, -, -, halias, -, hrequest⟩ := associationJoin_eq_ok_iff.1 h
  have hregisters := registers_ensure q join.name join.request
  have htext : join.name.text = site.lead ++ name := by rw [halias, Alias.text_below]
  have hqualifier : join.request.qualifier = e.qualifier := by rw [hrequest]
  rwa [htext, hqualifier] at hregisters

/-- A node registers the aliases that it generates, in preorder. -/
theorem registers_of_expandNode (h : q.expandNode e site spec = .ok (r, forest)) :
    q.Registers e.qualifier (spec.aliasesBelow site.lead) r := by
  have hrules : ExpansionRules e
      (fun q site spec r _ => q.Registers e.qualifier (spec.aliasesBelow site.lead) r)
      (fun q site _ items r _ =>
        q.Registers e.qualifier (Spec.itemAliasesBelow site.lead items) r) :=
    { relation := by
        intro q site name join hjoin
        rw [Spec.aliasesBelow]
        exact registers_associationJoin hjoin
      seq := by
        intro q site items r forest hitems
        rw [Spec.aliasesBelow]
        exact hitems
      nested := by
        intro q site name sub join r children hjoin hsub
        rw [Spec.aliasesBelow]
        exact (registers_associationJoin hjoin).trans hsub
      prefixed := by
        intro q site lead sub r forest hsub
        rw [Spec.aliasesBelow]
        exact hsub
      nil := by
        intro q site index
        rw [Spec.itemAliasesBelow]
        exact .refl q e.qualifier
      cons := by
        intro q site index item rest r s trees more hitem hrest
        rw [Spec.itemAliasesBelow]
        exact hitem.trans hrest }
  exact expandNode_induction hrules h

/-- An expansion registers the aliases of its specification, in preorder. -/
theorem registers_expand (h : q.expand e spec = .ok r) :
    q.Registers e.qualifier spec.aliases r := by
  obtain ⟨s, hs, rfl⟩ := expand_eq_ok_iff.1 h
  -- The preloads, which are set at the end, are no joins.
  obtain ⟨new, hnew⟩ := registers_of_expandNode hs
  exact ⟨new, hnew.joins, hnew.names, hnew.indices, hnew.counter, hnew.qualifier⟩

/-- An expansion appends one join for each alias of the specification that no join holds, in the
order in which the aliases first occur in preorder, numbered on from the counter and of the kind
that the expander makes. The joins that were there, the root source and all clauses but the preloads
stay as they are, and in the end every alias of the specification is held. -/
theorem continues_of_expand (h : q.expand e spec = .ok r) :
    (∃ new, q.Continues e.qualifier (missing q.aliasTexts spec.aliases) new r)
      ∧ r = { q with joins := r.joins, nextIndex := r.nextIndex, preloads := r.preloads }
      ∧ ∀ text ∈ spec.aliases, ∃ j ∈ r.joins, ∃ a, j.name = some a ∧ a.text = text := by
  obtain ⟨new, hnew⟩ := registers_expand h
  refine ⟨⟨new, hnew⟩, ?_, fun text htext => ?_⟩
  · obtain ⟨s, hs, rfl⟩ := expand_eq_ok_iff.1 h
    rw [expandNode_eq_with hs]
  · have hheld : text ∈ r.aliasTexts := by
      rw [hnew.aliasTexts, List.mem_append, mem_missing_iff]
      by_cases hq : text ∈ q.aliasTexts
      · exact .inl hq
      · exact .inr ⟨htext, hq⟩
    obtain ⟨a, ha, rfl⟩ := List.mem_map.1 hheld
    obtain ⟨j, hj, hname⟩ := mem_aliases.1 ha
    exact ⟨j, hj, a, hname, rfl⟩

/-- Posts joined by hand with their comments. Bindings 1, 3 and 4 have been given up. -/
def joinedByHand : Query :=
  { ofRelation Blog.posts with
    joins := [{ Blog.comparing 2 2 0 with name := some Blog.commentsAlias }]
    nextIndex := 5 }

/-- Comments and their authors are asked for under two leads, the authors twice under the second,
and comments once more at the end. -/
def repeatedly : Spec :=
  .seq [.nested "comments" (.relation "author"),
    .prefixed "x" (.nested "comments" (.seq [.relation "author", .relation "author"])),
    .relation "comments"]

/-- Of six aliases, three lead to joins: the others are held or have occurred before. -/
theorem continues_of_expand_repeatedly :
    repeatedly.aliases = ["comments", "author", "xcomments", "xauthor", "xauthor", "comments"]
      ∧ ∃ r new, joinedByHand.expand Blog.expander repeatedly = .ok r
        ∧ joinedByHand.Continues .left ["author", "xcomments", "xauthor"] new r
        ∧ new.map (·.index) = [5, 6, 7] ∧ r.nextIndex = 8 := by
  obtain ⟨r, hr⟩ : ∃ r, joinedByHand.expand Blog.expander repeatedly = .ok r := ⟨_, rfl⟩
  have hmissing : missing joinedByHand.aliasTexts repeatedly.aliases
      = ["author", "xcomments", "xauthor"] := by decide
  obtain ⟨⟨new, hnew⟩, -⟩ := continues_of_expand hr
  rw [hmissing] at hnew
  have hlength : new.length = 3 := by
    have hnames := congrArg List.length hnew.names
    rwa [List.length_map, List.length_map] at hnames
  refine ⟨by decide, r, new, hr, hnew, ?_, ?_⟩
  · rw [hnew.indices, hlength]
    rfl
  · rw [hnew.counter, hlength]
    rfl

end JoinGraph.Query

import JoinGraph.Query.Uses

/-!
# Mentions

What it means that an expression, a clause or a preload forest names something, stated without a
walk: an expression mentions a binding when one of its nodes, at any depth, is a reference to it.
The walks of `Expr.refs`, `Query.clauseRefs`, `Query.conditionRefs` and `Query.preloadNames` collect
exactly what is mentioned. A binding is counted as used when something asks for it
(`uses_eq_zero_iff`), and `Query.dangling` is empty exactly when every mentioned binding is there
(`dangling_eq_nil_iff`).
-/

namespace JoinGraph

namespace Expr

/-- A node of the expression is a reference to the binding. -/
inductive Mentions : Expr → Binding → Prop where
  | reference (b : Binding) (field : Option String) : Mentions (reference b field) b
  | tagged {inner : Expr} {tag : String} {b : Binding} (h : Mentions inner b) :
      Mentions (tagged inner tag) b
  | apply {op : Operator} {args : List Expr} {e : Expr} {b : Binding} (mem : e ∈ args)
      (h : Mentions e b) : Mentions (apply op args) b
  | seq {items : List Expr} {e : Expr} {b : Binding} (mem : e ∈ items) (h : Mentions e b) :
      Mentions (seq items) b

/-- A binding is mentioned by a reference to it, or by an operand. -/
theorem mentions_iff {e : Expr} {b : Binding} :
    e.Mentions b ↔ e.binding? = some b ∨ ∃ operand ∈ e.children, operand.Mentions b := by
  constructor
  · intro h
    cases h with
    | reference _ field => exact .inl rfl
    | tagged h => exact .inr ⟨_, List.mem_cons_self, h⟩
    | apply hmem h => exact .inr ⟨_, hmem, h⟩
    | seq hmem h => exact .inr ⟨_, hmem, h⟩
  · rintro (h | ⟨operand, hmem, h⟩)
    · cases e <;> cases h
      exact .reference _ _
    · cases e with
      | tagged inner tag => exact .tagged (List.mem_singleton.1 hmem ▸ h)
      | apply op args => exact .apply hmem h
      | seq items => exact .seq hmem h
      | reference | literal | unsupported => cases hmem

/-- The walk collects exactly the bindings that an expression mentions. -/
theorem mem_refs_iff_mentions {e : Expr} {b : Binding} : b ∈ e.refs ↔ e.Mentions b := by
  induction e using operands_induction with
  | node e ih =>
    rw [refs_eq_append, List.mem_append, Option.mem_toList, List.mem_flatMap, mentions_iff]
    exact or_congr_right (exists_congr fun operand => and_congr_right (ih operand))

/-- An equality of two fields mentions the bindings of the two fields. -/
theorem mentions_equals_field_iff {b c d : Binding} {s t : String} :
    (equals (field c s) (field d t)).Mentions b ↔ b = c ∨ b = d := by
  rw [← mem_refs_iff_mentions, refs_eq_filterMap]
  simp [equals, field, preorder, preorderAll, binding?, eq_comm]

end Expr

namespace PreloadTree

/-- A node of the forest, at any depth, names the alias. -/
inductive Names : List PreloadTree → Alias → Prop where
  | here {forest : List PreloadTree} {tree : PreloadTree} (mem : tree ∈ forest) :
      Names forest tree.name
  | deeper {forest : List PreloadTree} {tree : PreloadTree} {a : Alias} (mem : tree ∈ forest)
      (h : Names tree.children a) : Names forest a

/-- A forest names what its first tree or one of the others names. -/
theorem names_cons_iff {tree : PreloadTree} {rest : List PreloadTree} {a : Alias} :
    Names (tree :: rest) a ↔ a = tree.name ∨ Names tree.children a ∨ Names rest a := by
  constructor
  · rintro (hmem | ⟨hmem, h⟩)
    · rcases List.mem_cons.1 hmem with rfl | hmem
      · exact .inl rfl
      · exact .inr (.inr (.here hmem))
    · rcases List.mem_cons.1 hmem with rfl | hmem
      · exact .inr (.inl h)
      · exact .inr (.inr (.deeper hmem h))
  · rintro (rfl | h | h)
    · exact .here List.mem_cons_self
    · exact .deeper List.mem_cons_self h
    · rcases h with hmem | ⟨hmem, h⟩
      · exact .here (List.mem_cons_of_mem tree hmem)
      · exact .deeper (List.mem_cons_of_mem tree hmem) h

theorem not_names_nil {a : Alias} : ¬ Names [] a := by
  rintro (hmem | ⟨hmem, -⟩) <;> exact List.not_mem_nil hmem

mutual

/-- The walk over a tree collects its alias and those that its children name. -/
private theorem mem_aliases_iff {a : Alias} :
    ∀ tree : PreloadTree, a ∈ tree.aliases ↔ a = tree.name ∨ Names tree.children a
  | ⟨association, name, children⟩ => by
    rw [aliases, List.mem_cons, mem_forestAliases_iff_names children]

/-- The walk over a forest collects exactly the aliases that the forest names. -/
theorem mem_forestAliases_iff_names {a : Alias} :
    ∀ forest : List PreloadTree, a ∈ forestAliases forest ↔ Names forest a
  | [] => by
    rw [forestAliases]
    exact ⟨fun h => (List.not_mem_nil h).elim, fun h => (not_names_nil h).elim⟩
  | tree :: rest => by
    rw [forestAliases, List.mem_append, mem_aliases_iff tree, mem_forestAliases_iff_names rest,
      names_cons_iff, or_assoc]

end

/-- Two forests side by side name what one of them names. -/
theorem names_append_iff {xs ys : List PreloadTree} {a : Alias} :
    Names (xs ++ ys) a ↔ Names xs a ∨ Names ys a := by
  rw [← mem_forestAliases_iff_names, forestAliases_append, List.mem_append,
    mem_forestAliases_iff_names, mem_forestAliases_iff_names]

end PreloadTree

namespace Query

/-- A clause outside the join list mentions the binding. -/
inductive ClauseMentions (q : Query) (b : Binding) : Prop where
  | select {e : Expr} (slot : q.select = some e) (h : e.Mentions b)
  | wheres {f : Filter} (slot : f ∈ q.wheres) (h : f.expr.Mentions b)
  | orderBys {k : SortKey} (slot : k ∈ q.orderBys) (h : k.expr.Mentions b)
  | groupBys {e : Expr} (slot : e ∈ q.groupBys) (h : e.Mentions b)
  | havings {f : Filter} (slot : f ∈ q.havings) (h : f.expr.Mentions b)
  | distinct {e : Expr} (slot : q.distinct = some e) (h : e.Mentions b)
  | limit {e : Expr} (slot : q.limit = some e) (h : e.Mentions b)
  | offset {e : Expr} (slot : q.offset = some e) (h : e.Mentions b)

variable {q : Query} {b : Binding}

/-- The clauses are the expressions of the eight slots. -/
private theorem mem_clauses_iff {e : Expr} :
    e ∈ q.clauses ↔ q.select = some e ∨ (∃ f ∈ q.wheres, f.expr = e)
      ∨ (∃ k ∈ q.orderBys, k.expr = e) ∨ e ∈ q.groupBys ∨ (∃ f ∈ q.havings, f.expr = e)
      ∨ q.distinct = some e ∨ q.limit = some e ∨ q.offset = some e := by
  simp only [clauses, List.mem_append, List.mem_map, Option.mem_toList, or_assoc]

/-- The walk over the clauses collects exactly the bindings that some clause mentions. -/
theorem mem_clauseRefs_iff : b ∈ q.clauseRefs ↔ q.ClauseMentions b := by
  simp only [clauseRefs, List.mem_flatMap, Expr.mem_refs_iff_mentions, mem_clauses_iff]
  constructor
  · rintro ⟨e, h | ⟨f, hf, rfl⟩ | ⟨k, hk, rfl⟩ | h | ⟨f, hf, rfl⟩ | h | h | h, hb⟩
    · exact .select h hb
    · exact .wheres hf hb
    · exact .orderBys hk hb
    · exact .groupBys h hb
    · exact .havings hf hb
    · exact .distinct h hb
    · exact .limit h hb
    · exact .offset h hb
  · intro h
    cases h with
    | select h hb => exact ⟨_, .inl h, hb⟩
    | wheres h hb => exact ⟨_, .inr (.inl ⟨_, h, rfl⟩), hb⟩
    | orderBys h hb => exact ⟨_, .inr (.inr (.inl ⟨_, h, rfl⟩)), hb⟩
    | groupBys h hb => exact ⟨_, .inr (.inr (.inr (.inl h))), hb⟩
    | havings h hb => exact ⟨_, .inr (.inr (.inr (.inr (.inl ⟨_, h, rfl⟩)))), hb⟩
    | distinct h hb => exact ⟨_, .inr (.inr (.inr (.inr (.inr (.inl h))))), hb⟩
    | limit h hb => exact ⟨_, .inr (.inr (.inr (.inr (.inr (.inr (.inl h)))))), hb⟩
    | offset h hb => exact ⟨_, .inr (.inr (.inr (.inr (.inr (.inr (.inr h)))))), hb⟩

/-- Only the clauses matter to what the clauses mention. -/
theorem clauseMentions_congr {r : Query} (h : r.clauses = q.clauses) :
    r.ClauseMentions b ↔ q.ClauseMentions b := by
  rw [← mem_clauseRefs_iff, ← mem_clauseRefs_iff, clauseRefs, clauseRefs, h]

/-- The walk over the join conditions collects exactly the bindings that some condition
mentions. -/
theorem mem_conditionRefs_iff {joins : List Join} :
    b ∈ conditionRefs joins ↔ ∃ j ∈ joins, j.on.Mentions b := by
  simp only [conditionRefs, List.mem_flatMap, Expr.mem_refs_iff_mentions]

/-- The walk over the preloads collects exactly the aliases that some preload names. -/
theorem mem_preloadNames_iff {a : Alias} :
    a ∈ q.preloadNames ↔ PreloadTree.Names q.preloads a :=
  PreloadTree.mem_forestAliases_iff_names q.preloads

/-- Nothing asks for the binding: no clause, no condition of another join, and no preload that names
its alias. -/
structure Unused (q : Query) (b : Binding) : Prop where
  clause : ¬ q.ClauseMentions b
  condition : ∀ j ∈ q.joins, j.index ≠ b → ¬ j.on.Mentions b
  preload : ∀ j a, q.joinAt? b = some j → j.name = some a → ¬ PreloadTree.Names q.preloads a

/-- The count of uses is zero exactly when nothing asks for the binding. -/
theorem uses_eq_zero_iff : q.uses b = 0 ↔ q.Unused b := by
  rw [uses]
  simp only [Nat.add_eq_zero_iff, List.count_eq_zero, mem_clauseRefs_iff, mem_conditionRefs_iff,
    List.mem_filter, decide_eq_true_eq]
  constructor
  · rintro ⟨⟨hclause, hcondition⟩, hnamed⟩
    refine ⟨hclause, fun j hj hne hmentions => hcondition ⟨j, ⟨hj, hne⟩, hmentions⟩,
      fun j a hj hname hnames => ?_⟩
    rw [hj, Option.bind_some, hname] at hnamed
    exact List.count_eq_zero.1 hnamed (mem_preloadNames_iff.2 hnames)
  · intro h
    refine ⟨⟨h.clause, fun ⟨j, ⟨hj, hne⟩, hmentions⟩ => h.condition j hj hne hmentions⟩, ?_⟩
    -- An alias is looked for only when there is a join and it has one.
    split
    · rename_i a hname
      obtain ⟨j, hj, hname⟩ := Option.bind_eq_some_iff.1 hname
      exact List.count_eq_zero.2 fun hmem => h.preload j a hj hname (mem_preloadNames_iff.1 hmem)
    · rfl

/-- Every binding that a clause or a join condition mentions is a binding of the query. -/
structure Resolved (q : Query) : Prop where
  clause : ∀ b, q.ClauseMentions b → b ∈ q.bindings
  condition : ∀ j ∈ q.joins, ∀ b, j.on.Mentions b → b ∈ q.bindings

/-- Nothing dangles exactly when all that is mentioned is there. -/
theorem dangling_eq_nil_iff : q.dangling = [] ↔ q.Resolved := by
  -- Counting and ordering the missing bindings does not matter to whether there are any.
  have hnil : q.dangling = [] ↔ ∀ b, b ∉ q.danglingRefs := by
    rw [dangling, List.map_eq_nil_iff, List.eq_nil_iff_forall_not_mem]
    simp only [Binding.mem_ascending]
  rw [hnil]
  simp only [danglingRefs, allRefs, List.mem_filter, List.mem_append, decide_eq_true_eq,
    mem_clauseRefs_iff, mem_conditionRefs_iff, not_and, Decidable.not_not]
  constructor
  · intro h
    exact ⟨fun b hb => h b (.inl hb), fun j hj b hb => h b (.inr ⟨j, hj, hb⟩)⟩
  · rintro ⟨hclause, hcondition⟩ b (hb | ⟨j, hj, hb⟩)
    · exact hclause b hb
    · exact hcondition j hj b hb

end Query

end JoinGraph

import JoinGraph.Proofs.Blog
import JoinGraph.Proofs.Dangling
import JoinGraph.Proofs.WellFormed

/-!
# Uses before a Removal and References after It

Checked removal counts the uses of a binding while its join is still there, and leaves out what the
join refers to itself. The reference check counts references to bindings that are missing, so once
the join is gone it counts the same references (`uses_eq`). This tells what checked removal answers
from what the permissive one leaves behind (`removeChecked_agrees_with_dangling`): it goes through
exactly when nothing that is left names the binding or its alias (`removeChecked_eq_ok_iff`).

With a join go the references of its condition, and of these the reference check had counted only
those to missing bindings. The count of a binding that is there is 0 before and after, whatever the
removed condition refers to (`not_danglingCount_remove_eq_sub`).

Neither count looks at the sources of joins. The parent of an association can therefore be removed
from under a join whose condition does not refer to it (`not_parent_removed`). A join whose
condition does refer to its parent, such as every join that expansion makes, keeps its parent
(`forgets_of_removeChecked`).
-/

namespace JoinGraph

/-- The binding whose association leads to a source. -/
def Source.parent? : Source → Option Binding
  | .association parent _ _ => some parent
  | .table _ | .subquery _ => none

namespace Query

variable {q r : Query} {j : Join} {a : Alias} {b : Binding}

/-- Nothing that the query refers to is the binding or goes by the alias. -/
structure Forgets (q : Query) (b : Binding) (a : Alias) : Prop where
  clause : ¬ q.ClauseMentions b
  condition : ∀ k ∈ q.joins, ¬ k.on.Mentions b
  preload : ¬ PreloadTree.Names q.preloads a

/-! ### Taking one join out -/

/-- Removal takes the join that holds the alias from its place, and no other. -/
theorem exists_joins_remove (h : q.WellFormed) (hj : q.join? a = some j) :
    ∃ before after, q.joins = before ++ j :: after ∧ (q.remove a).joins = before ++ after := by
  obtain ⟨hmem, hname⟩ := mem_joins_of_join? hj
  obtain ⟨before, after, hsplit⟩ := List.append_of_mem hmem
  refine ⟨before, after, hsplit, ?_⟩
  have hothers : ∀ k ∈ before ++ after, decide (k.name ≠ some a) = true := fun k hk =>
    decide_eq_true (h.name_ne_of_split hsplit hname k hk)
  rw [remove, hsplit, List.filter_append, List.filter_cons_of_neg (by simpa using hname),
    ← List.filter_append, List.filter_eq_self.2 hothers]

/-- With a join go the references of its condition. -/
theorem count_allRefs_remove (h : q.WellFormed) (hj : q.join? a = some j) (b : Binding) :
    (q.remove a).allRefs.count b + j.on.refs.count b = q.allRefs.count b := by
  obtain ⟨before, after, hjoins, hremoved⟩ := exists_joins_remove h hj
  have hclauses : (q.remove a).clauseRefs = q.clauseRefs := rfl
  rw [allRefs, allRefs, hclauses, hremoved, hjoins]
  simp only [conditionRefs, List.flatMap_append, List.flatMap_cons, List.count_append]
  omega

theorem mem_bindings_remove_iff (h : q.WellFormed) (hj : q.join? a = some j) :
    b ∈ (q.remove a).bindings ↔ b ∈ q.bindings ∧ b ≠ j.index := by
  have hroot : Binding.root ≠ j.index := Nat.ne_of_lt (h.positive j (mem_joins_of_join? hj).1)
  rw [remove_eq_restrict h hj, mem_bindings_restrict_iff (decide_eq_true hroot), decide_eq_true_eq]

/-! ### Counting before and after -/

/-- The uses of a binding are the references that dangle once its join is gone, and the preloads
that name its alias. -/
theorem uses_eq (h : q.WellFormed) (hj : q.join? a = some j) :
    q.uses j.index = (q.remove a).danglingCount j.index + q.preloadNames.count a := by
  obtain ⟨hmem, hname⟩ := mem_joins_of_join? hj
  have hgone : j.index ∉ (q.remove a).bindings :=
    fun hb => ((mem_bindings_remove_iff h hj).1 hb).2 rfl
  -- The conditions that are looked at before the removal are those that are left after it.
  have hothers : (q.joins.filter fun k => decide (k.index ≠ j.index)) = (q.remove a).joins := by
    rw [remove_eq_restrict h hj]
    rfl
  rw [danglingCount_eq, if_neg hgone, allRefs, List.count_append, uses, hothers,
    h.joinAt?_eq_some hmem, Option.bind_some, hname]
  rfl

theorem danglingCount_of_mem (hb : b ∈ q.bindings) : q.danglingCount b = 0 := by
  rw [danglingCount_eq, if_pos hb]

/-- References to a binding that is missing anyway go only with the condition of the join. -/
theorem danglingCount_remove (h : q.WellFormed) (hj : q.join? a = some j) (hb : b ∉ q.bindings) :
    (q.remove a).danglingCount b + j.on.refs.count b = q.danglingCount b := by
  have hout : b ∉ (q.remove a).bindings :=
    fun hmem => hb ((mem_bindings_remove_iff h hj).1 hmem).1
  rw [danglingCount_eq, if_neg hout, danglingCount_eq, if_neg hb, count_allRefs_remove h hj]

/-- Checked removal keeps the books of the reference check. It goes through when nothing dangles
from the binding after the permissive removal and no preload names the alias; otherwise it is
refused with the number of these references. For another binding that is missing, the references
that dangled are those that still do and those of the removed condition; one that is there has none
to count, before and after. An alias that is not held is not removed. -/
theorem removeChecked_agrees_with_dangling (h : q.WellFormed) (a : Alias) :
    (∀ j ∈ q.joins, j.name = some a →
        (q.removeChecked a =
          if (q.remove a).danglingCount j.index + q.preloadNames.count a = 0 then .ok (q.remove a)
          else .error (.danglingReference a j.index
            ((q.remove a).danglingCount j.index + q.preloadNames.count a)))
          ∧ ∀ b, b ≠ j.index →
              (b ∉ q.bindings →
                  (q.remove a).danglingCount b + j.on.refs.count b = q.danglingCount b)
                ∧ (b ∈ q.bindings → q.danglingCount b = 0 ∧ (q.remove a).danglingCount b = 0))
      ∧ (a ∉ q.aliases → q.removeChecked a = .ok q ∧ q.remove a = q) := by
  constructor
  · intro j hmem hname
    have hj : q.join? a = some j := h.join?_eq_some hmem hname
    refine ⟨by rw [removeChecked_eq hj, uses_eq h hj], fun b hne =>
      ⟨danglingCount_remove h hj, fun hb => ⟨danglingCount_of_mem hb, ?_⟩⟩⟩
    exact danglingCount_of_mem ((mem_bindings_remove_iff h hj).2 ⟨hb, hne⟩)
  · intro hfree
    have hnone : q.join? a = none := by
      rw [← hasJoin_iff_mem_aliases] at hfree
      simpa [hasJoin] using hfree
    have hsame : q.remove a = q := remove_eq_self hnone
    refine ⟨?_, hsame⟩
    rw [removeChecked, binding?, hnone, Option.map_none]
    exact congrArg Except.ok hsame

/-- Comments that are selected, preloaded twice and compared to a binding that is missing, by
themselves and by an anonymous join. -/
def busyComments : Query :=
  { ofRelation Blog.posts with
    joins := [{ Blog.comparing 2 2 7 with name := some Blog.commentsAlias }, Blog.comparing 4 2 7]
    nextIndex := 5
    select := some (.row 2)
    preloads := [⟨"comments", Blog.commentsAlias, [.leaf "comments" Blog.commentsAlias]⟩] }

/-- Two references and two preloads are in the way, one of two references to the missing binding
goes with the comments, and the posts have none to count. -/
theorem removeChecked_agrees_with_dangling_busyComments :
    busyComments.WellFormed ∧ busyComments.dangling = [(7, 2)]
      ∧ (busyComments.remove Blog.commentsAlias).dangling = [(2, 2), (7, 1)]
      ∧ busyComments.removeChecked Blog.commentsAlias
        = .error (.danglingReference Blog.commentsAlias 2 4)
      ∧ (busyComments.remove Blog.commentsAlias).danglingCount 7 + 1 = busyComments.danglingCount 7
      ∧ (busyComments.remove Blog.commentsAlias).danglingCount Binding.root = 0
      ∧ busyComments.removeChecked Blog.authorAlias = .ok busyComments := by
  have h : busyComments.WellFormed := wellFormed_of_check rfl
  have hdangling : (busyComments.remove Blog.commentsAlias).dangling = [(2, 2), (7, 1)] := by cbv
  obtain ⟨hheld, -⟩ := removeChecked_agrees_with_dangling h Blog.commentsAlias
  obtain ⟨hanswer, hothers⟩ := hheld _ List.mem_cons_self rfl
  obtain ⟨-, hfree⟩ := removeChecked_agrees_with_dangling h Blog.authorAlias
  have hcondition : (Blog.comparing 2 2 7).on.refs.count 7 = 1 := by cbv
  have hseven := (hothers 7 (by decide)).1 (by decide)
  have hroot := (hothers Binding.root (by decide)).2 List.mem_cons_self
  refine ⟨h, by cbv, hdangling, ?_, ?_, hroot.2, (hfree (by decide)).1⟩
  · rw [hanswer, danglingCount, hdangling]
    rfl
  · rw [← hseven]
    exact congrArg _ hcondition.symm

/-- Posts joined with their comments. -/
def joinedComments : Query :=
  { ofRelation Blog.posts with
    joins :=
      [⟨1, some Blog.commentsAlias, .left, .table Blog.comments, (Blog.commentsRequest 1).on⟩]
    nextIndex := 2 }

/-- A count need not fall by the references of the removed condition. The condition on the comments
refers to the posts, which are there and have no dangling reference to begin with. -/
theorem not_danglingCount_remove_eq_sub :
    ¬ ∀ (q : Query) (j : Join) (a : Alias) (b : Binding), q.WellFormed → j ∈ q.joins →
        j.name = some a → b ≠ j.index →
        ((q.remove a).danglingCount b : Int) = q.danglingCount b - j.on.refs.count b := by
  intro hclaim
  have h : joinedComments.WellFormed := wellFormed_of_check rfl
  have hcondition : (Blog.commentsRequest 1).on.refs.count Binding.root = 1 := by cbv
  have hcount : ((joinedComments.remove Blog.commentsAlias).danglingCount Binding.root : Int)
      = joinedComments.danglingCount Binding.root
        - (Blog.commentsRequest 1).on.refs.count Binding.root :=
    hclaim joinedComments _ Blog.commentsAlias Binding.root h List.mem_cons_self rfl (by decide)
  rw [danglingCount_of_mem List.mem_cons_self, danglingCount_of_mem List.mem_cons_self,
    hcondition] at hcount
  exact absurd hcount (by decide)

/-! ### What is left behind -/

/-- What is left forgets the binding of the removed join exactly when nothing had asked for it. -/
theorem forgets_remove_iff (h : q.WellFormed) (hj : q.join? a = some j) :
    (q.remove a).Forgets j.index a ↔ q.Unused j.index := by
  obtain ⟨hmem, hname⟩ := mem_joins_of_join? hj
  have hclauses : (q.remove a).ClauseMentions j.index ↔ q.ClauseMentions j.index :=
    clauseMentions_congr (clauses_remove q a)
  -- The joins that are left are those with another binding.
  have hleft : ∀ k ∈ q.joins, k.index ≠ j.index ↔ k.name ≠ some a := by
    intro k hk
    refine not_congr ⟨fun hindex => ?_, fun hkname => ?_⟩
    · rw [h.eq_of_index_eq hk hmem hindex, hname]
    · rw [h.join?_eq_some hk hkname] at hj
      rw [Option.some.inj hj]
  constructor
  · intro hforgets
    refine ⟨fun hmentions => hforgets.clause (hclauses.2 hmentions), fun k hk hne => ?_,
      fun k a' hk hk' => ?_⟩
    · exact hforgets.condition k (mem_joins_remove.2 ⟨hk, (hleft k hk).1 hne⟩)
    · rw [h.joinAt?_eq_some hmem] at hk
      obtain rfl := Option.some.inj hk
      obtain rfl := Option.some.inj (hname.symm.trans hk')
      exact hforgets.preload
  · intro hunused
    refine ⟨fun hmentions => hunused.clause (hclauses.1 hmentions), fun k hk => ?_,
      hunused.preload j a (h.joinAt?_eq_some hmem) hname⟩
    obtain ⟨hkmem, hkname⟩ := mem_joins_remove.1 hk
    exact hunused.condition k hkmem ((hleft k hkmem).2 hkname)

/-- Checked removal goes through exactly when what it leaves forgets the binding and the alias. -/
theorem removeChecked_eq_ok_iff (h : q.WellFormed) (hj : q.join? a = some j) :
    q.removeChecked a = .ok r ↔ r = q.remove a ∧ r.Forgets j.index a := by
  constructor
  · intro hr
    obtain ⟨rfl, hunused⟩ := removeChecked_cases hr
    exact ⟨rfl, (forgets_remove_iff h hj).2 (hunused j hj)⟩
  · rintro ⟨rfl, hforgets⟩
    rw [removeChecked_eq hj, if_pos (uses_eq_zero_iff.2 ((forgets_remove_iff h hj).1 hforgets))]

/-- After a checked removal no clause, no condition and no preload names the binding that went or
its alias. A join that is left may still have the binding as the parent of its source, but not when
its condition refers to its parent. -/
theorem forgets_of_removeChecked (h : q.WellFormed) (hj : j ∈ q.joins) (hname : j.name = some a)
    (hr : q.removeChecked a = .ok r) :
    r.Forgets j.index a
      ∧ ∀ k ∈ r.joins, ∀ parent, k.source.parent? = some parent → k.on.Mentions parent →
          parent ≠ j.index := by
  have hforgets : r.Forgets j.index a :=
    ((removeChecked_eq_ok_iff h (h.join?_eq_some hj hname)).1 hr).2
  refine ⟨hforgets, fun k hk parent _ hmentions hparent => ?_⟩
  exact hforgets.condition k hk (hparent ▸ hmentions)

/-- Comments of posts and their authors, whose condition goes by the posts. -/
def orphans : Query :=
  { ofRelation Blog.posts with
    joins := [{ Blog.comparing 1 1 0 with name := some Blog.commentsAlias },
      { Blog.comparing 2 2 0 with
        name := some Blog.authorAlias, source := .association 1 "author" Blog.users }]
    nextIndex := 3 }

theorem wellFormed_orphans : orphans.WellFormed := wellFormed_of_check rfl

theorem removeChecked_orphans :
    orphans.removeChecked Blog.commentsAlias = .ok (orphans.remove Blog.commentsAlias) := by
  cbv

/-- The authors with the posts that they have written, whose condition refers to their parent. -/
def orphansPosts : Query :=
  { orphans with
    joins := orphans.joins
      ++ [{ Blog.comparing 3 3 2 with source := .association 2 "posts" Blog.posts }]
    nextIndex := 4 }

/-- The comments can be removed, and no reference to them is left. The posts of the authors are left
with their parent, to which their condition refers. -/
theorem forgets_of_removeChecked_orphansPosts :
    orphansPosts.WellFormed
      ∧ orphansPosts.removeChecked Blog.commentsAlias
        = .ok (orphansPosts.remove Blog.commentsAlias)
      ∧ (orphansPosts.remove Blog.commentsAlias).Forgets 1 Blog.commentsAlias
      ∧ ∃ k ∈ (orphansPosts.remove Blog.commentsAlias).joins, ∃ parent,
          k.source.parent? = some parent ∧ k.on.Mentions parent ∧ parent ≠ 1 := by
  have h : orphansPosts.WellFormed := wellFormed_of_check rfl
  have hr : orphansPosts.removeChecked Blog.commentsAlias
      = .ok (orphansPosts.remove Blog.commentsAlias) := by
    cbv
  obtain ⟨hforgets, hparents⟩ := forgets_of_removeChecked h List.mem_cons_self rfl hr
  -- Of the joins that are left, the posts come after the authors.
  have hleft : { Blog.comparing 3 3 2 with source := .association 2 "posts" Blog.posts }
      ∈ (orphansPosts.remove Blog.commentsAlias).joins := List.mem_cons_of_mem _ List.mem_cons_self
  have hmentions : (Blog.comparing 3 3 2).on.Mentions 2 :=
    Expr.mentions_equals_field_iff.2 (.inr rfl)
  exact ⟨h, hr, hforgets, _, hleft, 2, rfl, hmentions, hparents _ hleft 2 rfl hmentions⟩

/-- A checked removal can take the parent of a join away: the authors are left, and their source
still leads through the comments. -/
theorem not_parent_removed :
    ¬ ∀ (q r : Query) (j : Join) (a : Alias), q.WellFormed → j ∈ q.joins → j.name = some a →
        q.removeChecked a = .ok r →
        r.Forgets j.index a ∧ ∀ k ∈ r.joins, k.source.parent? ≠ some j.index := by
  intro hclaim
  obtain ⟨-, hparents⟩ :=
    hclaim orphans _ _ _ wellFormed_orphans List.mem_cons_self rfl removeChecked_orphans
  exact hparents _ List.mem_cons_self rfl

end Query

end JoinGraph

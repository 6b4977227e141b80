import JoinGraph.Proofs.Blog
import JoinGraph.Proofs.Expansion
import JoinGraph.Proofs.Preload.Merge

/-!
# Expanding a Specification Again

A second expansion of the same specification finds every alias held, by the binding that the first
expansion predicted for it, and every parent behind the same source. It therefore succeeds,
registers nothing and merges the same trees into the preloads once more.

Whether it changes the preloads is a matter of that merge, and `expand_again` says exactly when it
does not: each branch of the specification has to lead down the preloads along first siblings. The
branches of a specification that repeats an association below one node need not
(`not_expand_expand_eq`); without such a repetition they always do
(`expand_expand_of_unrepeated`).
-/

namespace JoinGraph.Query

variable {e : Expander} {q r s : Query} {site : ExpansionSite} {spec : Spec}

/-- In a query that extends the one with the registered join, an association node asks for the same
join again. -/
theorem associationJoin_again {name : String} {join : AssociationJoin}
    (h : q.associationJoin e site name = .ok join)
    (hext : (q.ensure join.name join.request).Extends s) :
    s.associationJoin e site name = .ok join := by
  obtain ⟨hname, source, relation, association, hsource, hrelation, hassociation, hjoin, _,
    hrequest⟩ := associationJoin_eq_ok_iff.1 h
  have hsource' : s.source? site.parent = some source :=
    hext.source _ _ ((extends_ensure q join.name join.request).source _ _ hsource)
  have hbinding : s.binding? join.name = some join.index := by
    obtain ⟨j, hj, hindex⟩ := Option.map_eq_some_iff.1 (binding?_ensure_associationJoin h)
    rw [binding?, hext.join _ _ hj, Option.map_some, hindex]
  refine associationJoin_eq_ok_iff.2 ⟨hname, source, relation, association, hsource', hrelation,
    hassociation, hjoin, ?_, hrequest⟩
  rw [hbinding, Option.getD_some]

/-- A node that was expanded is expanded again without any change, in every query that extends the
result. -/
theorem expandNode_again {forest : List PreloadTree}
    (h : q.expandNode e site spec = .ok (r, forest)) (hext : r.Extends s) :
    s.expandNode e site spec = .ok (s, forest) := by
  -- Each part leaves a query that the whole extends, so the second run of a part can take place in
  -- any extension of the final query.
  have hrules : ExpansionRules e
      (fun q site spec r forest => q.Extends r
        ∧ ∀ s, r.Extends s → s.expandNode e site spec = .ok (s, forest))
      (fun q site index items r forest => q.Extends r
        ∧ ∀ s, r.Extends s → s.expandItems e site index items = .ok (s, forest)) :=
    { relation := by
        intro q site name join hjoin
        refine ⟨extends_ensure _ _ _, fun s hs => ?_⟩
        have hheld := hs.hasJoin (hasJoin_ensure_associationJoin hjoin)
        rw [expandNode, associationJoin_again hjoin hs]
        dsimp only
        rw [ensure_eq_self_of_hasJoin _ hheld]
      seq := by
        intro q site items r forest ⟨hqr, hitems⟩
        refine ⟨hqr, fun s hs => ?_⟩
        rw [expandNode, hitems s hs]
      nested := by
        intro q site name sub join r children hjoin ⟨hqr, hsub⟩
        refine ⟨(extends_ensure _ _ _).trans hqr, fun s hs => ?_⟩
        have hheld := hs.hasJoin (hqr.hasJoin (hasJoin_ensure_associationJoin hjoin))
        rw [expandNode, associationJoin_again hjoin (hqr.trans hs)]
        dsimp only
        rw [ensure_eq_self_of_hasJoin _ hheld, hsub s hs]
      prefixed := by
        intro q site lead sub r forest ⟨hqr, hsub⟩
        refine ⟨hqr, fun s hs => ?_⟩
        rw [expandNode, hsub s hs]
      nil := by
        intro q site index
        refine ⟨.refl q, fun s _ => ?_⟩
        rw [expandItems]
      cons := by
        intro q site index item rest r s trees more ⟨hqr, hitem⟩ ⟨hrs, hrest⟩
        refine ⟨hqr.trans hrs, fun t ht => ?_⟩
        rw [expandItems, hitem t (hrs.trans ht)]
        dsimp only
        rw [hrest t ht] }
  exact (expandNode_induction hrules h).2 s hext

/-- A second expansion merges the trees of the specification once more and does nothing else. -/
theorem expand_again_eq (h : q.expand e spec = .ok r) :
    r.expand e spec = .ok { r with preloads := PreloadTree.merge r.preloads spec.forest } := by
  obtain ⟨s, hs, rfl⟩ := expand_eq_ok_iff.1 h
  -- Lookups do not depend on the preloads.
  have hext : s.Extends { s with preloads := PreloadTree.merge q.preloads spec.forest } :=
    ⟨fun _ _ hj => hj, fun _ _ ht => ht⟩
  exact expand_eq_ok_iff.2 ⟨_, expandNode_again hs hext, rfl⟩

/-- A second expansion always succeeds and keeps everything but the preloads. It keeps the preloads
as well exactly when every branch of the specification, from the top down to any of its nodes, is
found in them by going to the first sibling of each alias. -/
theorem expand_again (h : q.expand e spec = .ok r) :
    (∃ preloads, r.expand e spec = .ok { r with preloads := preloads })
      ∧ (r.expand e spec = .ok r ↔
          ∀ p ∈ PreloadTree.forestBranches spec.forest, PreloadTree.Leads r.preloads p) := by
  rw [expand_again_eq h, ← PreloadTree.merge_eq_self_iff]
  refine ⟨⟨_, rfl⟩, fun heq => ?_, fun heq => ?_⟩
  · have hpreloads := congrArg Query.preloads (Except.ok.inj heq)
    exact hpreloads
  · rw [heq]
    cases r
    rfl

/-- The comments of posts with their authors, who are asked for twice: alone, and with their
posts. -/
def repeatedAuthors : Spec :=
  .nested "comments" (.seq [.relation "author", .nested "author" (.relation "posts")])

/-- The posts can be expanded with the repeated authors. -/
private theorem exists_expand_repeatedAuthors :
    ∃ r, (ofRelation Blog.posts).expand Blog.expander repeatedAuthors = .ok r := by
  have hok : ((ofRelation Blog.posts).expand Blog.expander repeatedAuthors).isOk = true := by
    decide
  cases hr : (ofRelation Blog.posts).expand Blog.expander repeatedAuthors with
  | ok r => exact ⟨r, rfl⟩
  | error error =>
    rw [hr] at hok
    cases hok

/-- The second expansion of the repeated authors does not give the same query. The first one appends
the tree of the comments whole, with two authors below it; the second one merges the posts into the
first author. -/
private theorem expand_repeatedAuthors_ne
    (hr : (ofRelation Blog.posts).expand Blog.expander repeatedAuthors = .ok r) :
    r.expand Blog.expander repeatedAuthors ≠ .ok r := by
  intro htwice
  have hagain := expand_again_eq hr
  rw [htwice] at hagain
  have hmerge : r.preloads = PreloadTree.merge r.preloads repeatedAuthors.forest :=
    congrArg Query.preloads (Except.ok.inj hagain)
  obtain ⟨s, -, hs⟩ := expand_eq_ok_iff.1 hr
  have hpreloads : r.preloads = PreloadTree.merge [] repeatedAuthors.forest := by
    rw [hs]
    rfl
  rw [hpreloads] at hmerge
  -- Four nodes after the first merge, five after the second.
  have hcount := congrArg (fun forest => (PreloadTree.forestAliases forest).length) hmerge
  exact absurd hcount (by decide)

/-- The second expansion of a repeated association succeeds and keeps everything but the preloads.
These it changes, since some branch of the specification does not lead down them. -/
theorem expand_again_repeatedAuthors :
    ∃ r, (ofRelation Blog.posts).expand Blog.expander repeatedAuthors = .ok r
      ∧ (∃ preloads, r.expand Blog.expander repeatedAuthors
          = .ok { r with preloads := preloads })
      ∧ r.expand Blog.expander repeatedAuthors ≠ .ok r
      ∧ ¬ ∀ p ∈ PreloadTree.forestBranches repeatedAuthors.forest,
          PreloadTree.Leads r.preloads p := by
  obtain ⟨r, hr⟩ := exists_expand_repeatedAuthors
  obtain ⟨hkeeps, hsame⟩ := expand_again hr
  have hne := expand_repeatedAuthors_ne hr
  exact ⟨r, hr, hkeeps, hne, fun hleads => hne (hsame.2 hleads)⟩

/-- Expanding twice is not always expanding once. -/
theorem not_expand_expand_eq :
    ¬ ∀ (e : Expander) (q r : Query) (spec : Spec), q.WellFormed → q.expand e spec = .ok r →
      r.expand e spec = .ok r := by
  intro h
  obtain ⟨r, hr⟩ := exists_expand_repeatedAuthors
  exact expand_repeatedAuthors_ne hr
    (h Blog.expander (ofRelation Blog.posts) r repeatedAuthors (wellFormed_ofSource _) hr)

/-- Expanding twice is expanding once when no node of the specification has two associations below
it under one alias. -/
theorem expand_expand_of_unrepeated (h : q.expand e spec = .ok r)
    (hspec : ∀ t ∈ spec.forest, PreloadTree.Unrepeated t.children) :
    r.expand e spec = .ok r := by
  rw [expand_again_eq h]
  obtain ⟨s, -, rfl⟩ := expand_eq_ok_iff.1 h
  dsimp only
  rw [PreloadTree.merge_merge_of_unrepeated hspec]

end JoinGraph.Query

import JoinGraph.Pass
import JoinGraph.Proofs.Pruning
import Mathlib.Data.List.Flatten

/-!
# Dangling References

The reference check lists the missing bindings with the number of references to each, and then the
preloads that name no join. `danglingCount` reads the list as a function of the binding: it counts
the references to a binding that the query does not have (`danglingCount_eq`).

A restriction that keeps all that is used makes nothing dangle. A binding that goes is referred to
by nothing that stays, so no count grows (`KeepsUsed.danglingCount_restrict_le`), and a preload that
names a join still names it afterwards (`KeepsUsed.preloadReports_restrict`).
-/

namespace JoinGraph.Query

variable {q : Query} {keep : Binding → Bool} {b : Binding}

/-- The number of references to a binding that the list of dangling references gives, 0 for a
binding that is not in the list. -/
def danglingCount (q : Query) (b : Binding) : Nat := (q.dangling.lookup b).getD 0

/-- What the reference check reports about preloads: the reports that show no binding. -/
def preloadReports (q : Query) : List Diagnostic :=
  q.danglingReports.filter fun d => d.binding.isNone

/-! ### Counting -/

theorem danglingCount_eq_count (q : Query) (b : Binding) :
    q.danglingCount b = q.danglingRefs.count b := by
  rw [danglingCount, dangling]
  by_cases hb : b ∈ q.danglingRefs
  · rw [List.lookup_graph _ (Binding.mem_ascending.2 hb), Option.getD_some]
  · have hnone : ((Binding.ascending q.danglingRefs).map fun c =>
        (c, q.danglingRefs.count c)).lookup b = none := by
      rw [List.lookup_eq_none_iff]
      intro p hp
      obtain ⟨c, hc, rfl⟩ := List.mem_map.1 hp
      rw [Binding.mem_ascending] at hc
      exact bne_iff_ne.2 fun hbc => hb (hbc ▸ hc)
    rw [hnone, Option.getD_none, List.count_eq_zero.2 hb]

/-- References are counted when the query does not have the binding they lead to. -/
theorem danglingCount_eq (q : Query) (b : Binding) :
    q.danglingCount b = if b ∈ q.bindings then 0 else q.allRefs.count b := by
  rw [danglingCount_eq_count, danglingRefs]
  split
  · rename_i hb
    exact List.count_eq_zero.2 fun hmem =>
      of_decide_eq_true (List.mem_filter.1 hmem).2 hb
  · rename_i hb
    exact List.count_filter (decide_eq_true hb)

/-- The bindings that are listed are those with references to count. -/
theorem mem_map_fst_dangling_iff : b ∈ q.dangling.map Prod.fst ↔ 0 < q.danglingCount b := by
  rw [danglingCount_eq_count, List.count_pos_iff, dangling, List.map_map]
  simp only [List.mem_map, Function.comp_apply, exists_eq_right, Binding.mem_ascending]

/-- The reports about preloads are one for each name that no join holds, in preorder. -/
theorem preloadReports_eq (q : Query) : q.preloadReports
    = (q.preloadNames.filter fun a => decide (a ∉ q.aliases)).map Pass.danglingPreload := by
  rw [preloadReports, danglingReports, List.filter_append]
  -- The reports about bindings show one, and those about preloads do not.
  have hbindings : (q.dangling.map fun d => Pass.danglingBinding d.1 d.2).filter
      (fun d => d.binding.isNone) = [] := by
    rw [List.filter_eq_nil_iff]
    intro d hd
    obtain ⟨p, -, rfl⟩ := List.mem_map.1 hd
    exact Bool.false_ne_true
  rw [hbindings, List.nil_append, List.filter_eq_self]
  intro d hd
  obtain ⟨a, -, rfl⟩ := List.mem_map.1 hd
  rfl

/-! ### Restriction -/

/-- With fewer joins there are fewer references. -/
theorem count_allRefs_restrict_le (q : Query) (keep : Binding → Bool) (b : Binding) :
    (q.restrict keep).allRefs.count b ≤ q.allRefs.count b := by
  have hrefs : (q.restrict keep).allRefs.Sublist q.allRefs :=
    .append (.refl q.clauseRefs) ((joins_restrict_sublist q keep).flatMap fun j => j.on.refs)
  exact hrefs.count_le b

/-- Nothing that stays refers to a binding that goes. -/
theorem KeepsUsed.not_mem_allRefs_restrict (hkeep : q.KeepsUsed keep) (hb : b ∈ q.bindings)
    (hout : keep b = false) : b ∉ (q.restrict keep).allRefs := by
  have hgone : ¬ (b ∈ q.bindings ∧ keep b = true) := fun hkept => by simp [hkept.2] at hout
  rw [allRefs, List.mem_append, mem_clauseRefs_iff, mem_conditionRefs_iff, not_or]
  constructor
  · intro hmentions
    exact hgone (hkeep.clause b hb ((clauseMentions_congr (clauses_restrict q keep)).1 hmentions))
  · rintro ⟨j, hj, hmentions⟩
    obtain ⟨hmem, hjkept⟩ := mem_joins_restrict.1 hj
    exact hgone (hkeep.condition j hmem ⟨index_mem_bindings hmem, hjkept⟩ b hb hmentions)

/-- Keeping what is used makes no reference dangle that did not dangle before. -/
theorem KeepsUsed.danglingCount_restrict_le (hkeep : q.KeepsUsed keep) (b : Binding) :
    (q.restrict keep).danglingCount b ≤ q.danglingCount b := by
  rw [danglingCount_eq, danglingCount_eq]
  split
  · exact Nat.zero_le _
  · rename_i hgone
    rw [mem_bindings_restrict_iff hkeep.root.2] at hgone
    split
    · -- A binding that was there and is not kept is not referred to any more.
      rename_i hb
      have hout : keep b = false := by simpa [hb] using hgone
      rw [List.count_eq_zero.2 (hkeep.not_mem_allRefs_restrict hb hout)]
    · exact count_allRefs_restrict_le q keep b

/-- Keeping what is used leaves the reports about preloads as they are. -/
theorem KeepsUsed.preloadReports_restrict (hkeep : q.KeepsUsed keep) :
    (q.restrict keep).preloadReports = q.preloadReports := by
  have hnames : (q.restrict keep).preloadNames = q.preloadNames := rfl
  rw [preloadReports_eq, preloadReports_eq, hnames]
  congr 1
  refine List.filter_congr fun a ha => decide_eq_decide.2 (not_congr ?_)
  rw [mem_aliases, mem_aliases]
  constructor
  · rintro ⟨j, hj, hname⟩
    exact ⟨j, (mem_joins_restrict.1 hj).1, hname⟩
  · rintro ⟨j, hj, hname⟩
    -- The preload uses the join, so it is kept.
    have hjkept := hkeep.preload j hj a hname (mem_preloadNames_iff.1 ha)
    exact ⟨j, mem_joins_restrict.2 ⟨hj, hjkept.2⟩, hname⟩

end JoinGraph.Query

import JoinGraph.Proofs.Pass

/-!
# Arrangements of Passes

Passes may be listed in any order and any number of times, and a filter may name some of them. The
reference check leaves a query as it is and pruning a second time changes nothing, so all that
matters to the query is whether pruning is among the passes that run (`runAll_eq`).

Along a run the missing bindings can only be referred to less: what a report counts lies between the
references that are left in the end and those that there were in the beginning
(`count_of_mem_reports`). The main result is `arrangement_exact`.
-/

namespace JoinGraph.Pass

variable {q : Query} {passes : List Pass} {b : Binding} {n : Nat}

/-! ### Selection -/

/-- A filter lets a listed pass run when it names the pass. -/
theorem mem_selected_iff {p : Pass} {names : Option (List String)} :
    p ∈ selected passes names ↔ p ∈ passes ∧ ∀ listed, names = some listed → p.name ∈ listed := by
  cases names with
  | none => simp [selected]
  | some listed => simp [selected]

/-- Neither the order of names matters, nor how often one is listed, nor names of no pass. -/
theorem selected_congr {names names' : List String} (h : ∀ text, text ∈ names ↔ text ∈ names')
    (passes : List Pass) : selected passes (some names) = selected passes (some names') :=
  List.filter_congr fun p _ => decide_eq_decide.2 (h p.name)

/-! ### Counts of references -/

/-- A report about a binding shows how often it is referred to. -/
theorem danglingBinding_inj {m : Nat} : danglingBinding b m = danglingBinding b n ↔ m = n := by
  refine ⟨fun h => ?_, fun h => by rw [h]⟩
  -- The two messages are the same up to the numbers in their middle.
  have hmessage := congrArg Diagnostic.message h
  rw [danglingBinding, danglingBinding, String.append_left_inj, String.append_right_inj] at hmessage
  simp only [Nat.toString_eq_ofList_toDigits, String.ofList_inj] at hmessage
  have hnumber := congrArg (Nat.ofDigitChars 10 · 0) hmessage
  simpa only [Nat.ofDigitChars_ten_toDigits] using hnumber

/-- The reference check reports a binding with its count, unless there is nothing to count. -/
theorem mem_danglingReports_iff :
    danglingBinding b n ∈ q.danglingReports ↔ n = q.danglingCount b ∧ 0 < n := by
  rw [Query.danglingReports, List.mem_append, List.mem_map, List.mem_map]
  constructor
  · rintro (⟨⟨c, m⟩, hmem, hreport⟩ | ⟨a, -, hreport⟩)
    · obtain rfl : c = b := Option.some.inj (congrArg Diagnostic.binding hreport)
      obtain rfl : m = n := danglingBinding_inj.1 hreport
      obtain ⟨d, hd, heq⟩ := List.mem_map.1 hmem
      obtain ⟨rfl, rfl⟩ := Prod.mk.inj heq
      rw [Query.danglingCount_eq_count]
      exact ⟨rfl, List.count_pos_iff.2 (Binding.mem_ascending.1 hd)⟩
    · -- Reports about preloads show no binding.
      cases congrArg Diagnostic.binding hreport
  · rintro ⟨rfl, hpos⟩
    rw [Query.danglingCount_eq_count] at hpos ⊢
    exact .inl ⟨_, List.mem_map.2
      ⟨b, Binding.mem_ascending.2 (List.count_pos_iff.1 hpos), rfl⟩, rfl⟩

/-- Only the reference check reports bindings that are missing. -/
theorem mem_findings_iff {p : Pass} : danglingBinding b n ∈ p.findings q ↔
    p = danglingRefs ∧ n = q.danglingCount b ∧ 0 < n := by
  cases p with
  | danglingRefs => simp [findings, mem_danglingReports_iff]
  | deadJoins =>
    constructor
    · -- The codes of what pruning reports are different.
      intro hmem
      rcases List.mem_append.1 hmem with hmem | hmem
      · cases Query.code_of_mem_liveReports hmem
      · obtain ⟨j, -, hreport⟩ := List.mem_map.1 hmem
        cases congrArg Diagnostic.code hreport
    · rintro ⟨hcheck, -⟩
      cases hcheck

/-- No pass makes a reference dangle that did not. -/
theorem danglingCount_run_le (h : q.WellFormed) (p : Pass) (b : Binding) :
    (p.run q).danglingCount b ≤ q.danglingCount b := by
  cases p with
  | danglingRefs => exact Nat.le_refl _
  | deadJoins => exact (Query.keepsUsed_live h).danglingCount_restrict_le b

theorem danglingCount_runAll_le (h : q.WellFormed) (passes : List Pass) (b : Binding) :
    (runAll passes q).danglingCount b ≤ q.danglingCount b := by
  induction passes generalizing q with
  | nil => exact Nat.le_refl _
  | cons p rest ih => exact (ih (wellFormed_run h p)).trans (danglingCount_run_le h p b)

/-- What a report counts lies between what dangles after the run and what dangled before it, and
something was counted. -/
theorem count_of_mem_reports (h : q.WellFormed) (hmem : danglingBinding b n ∈ reports passes q) :
    (runAll passes q).danglingCount b ≤ n ∧ n ≤ q.danglingCount b ∧ 0 < n := by
  obtain ⟨earlier, p, later, rfl, hfinding⟩ := mem_reports_iff.1 hmem
  obtain ⟨-, rfl, hpos⟩ := mem_findings_iff.1 hfinding
  -- The count was taken in the middle of the run.
  rw [runAll_append]
  exact ⟨danglingCount_runAll_le (wellFormed_runAll h earlier) (p :: later) b,
    danglingCount_runAll_le h earlier b, hpos⟩

/-- The reference check reports what dangles in the query that it is given. -/
theorem mem_reports_append (earlier later : List Pass)
    (hcount : (runAll earlier q).danglingCount b = n) (hpos : 0 < n) :
    danglingBinding b n ∈ reports (earlier ++ danglingRefs :: later) q :=
  mem_reports_iff.2 ⟨earlier, danglingRefs, later, rfl, mem_findings_iff.2 ⟨rfl, hcount.symm, hpos⟩⟩

/-- What dangles after a run was reported if the reference check was among the passes. -/
theorem exists_mem_reports (h : q.WellFormed) (hcheck : danglingRefs ∈ passes)
    (hpos : 0 < (runAll passes q).danglingCount b) :
    ∃ n, danglingBinding b n ∈ reports passes q := by
  obtain ⟨earlier, later, rfl⟩ := List.append_of_mem hcheck
  rw [runAll_append] at hpos
  have hbefore : 0 < (runAll earlier q).danglingCount b :=
    Nat.lt_of_lt_of_le hpos (danglingCount_runAll_le (wellFormed_runAll h earlier) _ b)
  exact ⟨_, mem_reports_append earlier later rfl hbefore⟩

/-- Along a run the number of references to a missing binding that is reported never grows. -/
theorem le_of_mem_reports {earlier later : List Pass} {m : Nat} (h : q.WellFormed)
    (hlater : danglingBinding b m ∈ reports later (runAll earlier q))
    (hearlier : danglingBinding b n ∈ reports earlier q) : m ≤ n :=
  calc m
    _ ≤ (runAll earlier q).danglingCount b :=
      (count_of_mem_reports (wellFormed_runAll h earlier) hlater).2.1
    _ ≤ n := (count_of_mem_reports h hearlier).1

/-- What is reported as missing was missing before, so an earlier reference check reported it. -/
theorem exists_mem_reports_of_later {earlier later : List Pass} {m : Nat} (h : q.WellFormed)
    (hlater : danglingBinding b m ∈ reports later (runAll earlier q))
    (hcheck : danglingRefs ∈ earlier) : ∃ n, danglingBinding b n ∈ reports earlier q := by
  obtain ⟨-, hcount, hpos⟩ := count_of_mem_reports (wellFormed_runAll h earlier) hlater
  exact exists_mem_reports h hcheck (Nat.lt_of_lt_of_le hpos hcount)

/-! ### Any arrangement -/

/-- Whatever passes are listed and whatever a filter names, the query is pruned if pruning is among
the passes that run, and left as it is otherwise. Each join is kept and not reported as pruned, or
it is gone and reported once. At any moment of the run, a binding that is reported later is reported
with no more references than it was reported with earlier, and it was reported earlier if the
reference check had run. Filters that list the same names give the same query and the same
reports. -/
theorem arrangement_exact (h : q.WellFormed) (passes : List Pass) (names : Option (List String)) :
    (runAll (selected passes names) q
        = if deadJoins ∈ passes ∧ ∀ listed, names = some listed → deadJoins.name ∈ listed
          then q.prune else q)
      ∧ (∀ j ∈ q.joins,
          (j ∈ (runAll (selected passes names) q).joins
              ∧ (reports (selected passes names) q).countP (Diagnostic.reportsPruned j.index) = 0)
            ∨ (j ∉ (runAll (selected passes names) q).joins
              ∧ (reports (selected passes names) q).countP (Diagnostic.reportsPruned j.index) = 1))
      ∧ (∀ earlier later, selected passes names = earlier ++ later →
          reports (selected passes names) q = reports earlier q ++ reports later (runAll earlier q)
            ∧ ∀ b m, danglingBinding b m ∈ reports later (runAll earlier q) →
              (∀ n, danglingBinding b n ∈ reports earlier q → m ≤ n)
                ∧ (danglingRefs ∈ earlier → ∃ n, danglingBinding b n ∈ reports earlier q))
      ∧ ∀ listed listed' : List String, (∀ text, text ∈ listed ↔ text ∈ listed') →
          runAll (selected passes (some listed)) q = runAll (selected passes (some listed')) q
            ∧ reports (selected passes (some listed)) q
              = reports (selected passes (some listed')) q := by
  refine ⟨?_, fun j hj => kept_or_reported h _ hj, fun earlier later hsplit => ⟨?_, ?_⟩,
    fun listed listed' hlisted => ?_⟩
  · rw [runAll_eq h]
    simp only [mem_selected_iff]
  · rw [hsplit, reports_append]
  · intro b m hlater
    exact ⟨fun n hearlier => le_of_mem_reports h hlater hearlier,
      exists_mem_reports_of_later h hlater⟩
  · rw [selected_congr hlisted]
    exact ⟨rfl, rfl⟩

/-- Both passes, twice. -/
def twice : List Pass := [danglingRefs, deadJoins, danglingRefs, deadJoins]

/-- The anonymous join 3 is reported as pruned once, although pruning runs twice, and the second
check reports one reference less to the missing binding 2. -/
theorem arrangement_exact_littered :
    Query.littered.WellFormed
      ∧ selected twice (some ["dead_joins", "unknown", "dangling_refs", "dead_joins"]) = twice
      ∧ runAll twice Query.littered = Query.littered.prune
      ∧ (reports twice Query.littered).countP (Diagnostic.reportsPruned 3) = 1
      ∧ danglingBinding 2 2 ∈ reports [danglingRefs, deadJoins] Query.littered
      ∧ danglingBinding 2 1 ∈ reports [danglingRefs, deadJoins] Query.littered.prune
      ∧ (∀ m, danglingBinding 2 m ∈ reports [danglingRefs, deadJoins] Query.littered.prune →
          m ≤ 2)
      ∧ reports (selected twice (some ["unknown", "dead_joins"])) Query.littered
        = reports (selected twice (some ["dead_joins", "unknown", "dead_joins"]))
          Query.littered := by
  have h : Query.littered.WellFormed := Query.wellFormed_of_check rfl
  have hselected : selected twice (some ["dead_joins", "unknown", "dangling_refs", "dead_joins"])
      = twice := by decide
  obtain ⟨hfinal, hpruned, hcounts, hfilters⟩ := arrangement_exact h twice
    (some ["dead_joins", "unknown", "dangling_refs", "dead_joins"])
  rw [hselected] at hfinal hpruned hcounts
  rw [if_pos ⟨by decide, fun _ hlisted => Option.some.inj hlisted ▸ by decide⟩] at hfinal
  have hbefore : danglingBinding 2 2 ∈ reports [danglingRefs, deadJoins] Query.littered :=
    mem_reports_append [] _ (by decide +kernel) (by decide)
  have hafter : danglingBinding 2 1 ∈ reports [danglingRefs, deadJoins] Query.littered.prune := by
    rw [Query.prune_littered]
    exact mem_reports_append [] _ (by decide +kernel) (by decide)
  refine ⟨h, hselected, hfinal, ?_, hbefore, hafter, fun m hm => ?_, ?_⟩
  · refine ((hpruned (Blog.comparing 3 4 2) (by simp [Query.littered])).resolve_left ?_).2
    rintro ⟨hkept, -⟩
    rw [hfinal, Query.prune_littered] at hkept
    exact absurd (List.mem_map_of_mem (f := Join.index) hkept) (by decide)
  · exact ((hcounts [danglingRefs, deadJoins] [danglingRefs, deadJoins] rfl).2 2 m hm).1 2 hbefore
  · exact (hfilters _ _ fun text => by simp only [List.mem_cons, List.not_mem_nil]; tauto).2

end JoinGraph.Pass

import JoinGraph.Proofs.FirstFault
import JoinGraph.Query.Codec
import Mathlib.Data.List.Nodup

/-!
# Checked Queries

The check on a query that comes from outside goes through the joins with the last binding and the
aliases seen so far, and reports the first join that is wrong (`reportsFirst_checkJoins`), or else a
counter that is not above the last join (`check_eq_error_iff`). It accepts well-formed queries
(`WellFormed.checked_eq_ok`) and no others (`wellFormed_of_check`). What is read from JSON is
therefore well-formed (`wellFormed_of_ofJson`).
-/

namespace JoinGraph

/-! ## Faults of joins -/

/-- The binding of the last of some joins, or that of the root if there is none. -/
def lastBinding (joins : List Join) : Binding :=
  (joins.getLast?.map (·.index)).getD Binding.root

@[simp] theorem lastBinding_nil : lastBinding [] = Binding.root := rfl

@[simp] theorem lastBinding_concat (joins : List Join) (j : Join) :
    lastBinding (joins ++ [j]) = j.index := by
  simp [lastBinding]

/-- Among joins that are numbered upwards from 1 the last one is above all others. -/
theorem lastBinding_lt_iff {joins : List Join} {n : Binding}
    (hasc : (joins.map (·.index)).Pairwise (· < ·)) (hpos : ∀ j ∈ joins, Binding.root < j.index) :
    lastBinding joins < n ↔ Binding.root < n ∧ ∀ j ∈ joins, j.index < n := by
  rcases List.eq_nil_or_concat joins with rfl | ⟨init, l, rfl⟩
  · simp
  · rw [List.concat_eq_append] at hasc hpos ⊢
    rw [List.map_append, List.pairwise_append] at hasc
    have hbelow : ∀ j ∈ init, j.index < l.index := by simpa using hasc.2.2
    rw [lastBinding_concat]
    constructor
    · intro hl
      -- All other bindings are below that of the last join, the root's included.
      refine ⟨Nat.lt_trans (hpos l (by simp)) hl, fun j hj => ?_⟩
      rcases List.mem_append.1 hj with hj | hj
      · exact Nat.lt_trans (hbelow j hj) hl
      · obtain rfl := List.mem_singleton.1 hj
        exact hl
    · exact fun h => h.2 l (by simp)

namespace Join

/-- What is wrong with a join that comes after others. Its binding is looked at before its alias. -/
inductive Fault (before : List Join) (j : Join) : QueryFault → Prop
  /-- Its binding is not above that of the join before it. -/
  | notAbove (h : j.index ≤ lastBinding before) :
    Fault before j (.indexNotAbove j.index (lastBinding before))
  /-- A join before it holds its alias. -/
  | repeated {name : Alias} (habove : lastBinding before < j.index) (hname : j.name = some name)
      (h : name ∈ before.filterMap (·.name)) : Fault before j (.repeatedAlias name)

/-- Nothing is wrong with a join above the last one whose alias is new. -/
theorem not_fault_iff {before : List Join} {j : Join} : (∀ e, ¬Fault before j e) ↔
    lastBinding before < j.index ∧ ∀ a, j.name = some a → a ∉ before.filterMap (·.name) := by
  refine ⟨fun h => ?_, fun ⟨habove, hname⟩ e he => ?_⟩
  · have habove : lastBinding before < j.index := Nat.lt_of_not_le fun hle => h _ (.notAbove hle)
    exact ⟨habove, fun a ha hmem => h _ (.repeated habove ha hmem)⟩
  · cases he with
    | notAbove hle => exact Nat.not_lt_of_le hle habove
    | repeated _ ha hmem => exact hname _ ha hmem

/-- Nothing is wrong with joins that are numbered upwards from 1 and hold distinct aliases. -/
theorem faultless_iff {joins : List Join} :
    Faultless Fault joins ↔
      (joins.map (·.index)).Pairwise (· < ·) ∧ (∀ j ∈ joins, Binding.root < j.index)
        ∧ (joins.filterMap (·.name)).Nodup := by
  induction joins using List.reverseRecOn with
  | nil => simp [faultless_nil]
  | append_singleton joins j ih =>
    have hasc : ((joins ++ [j]).map (·.index)).Pairwise (· < ·) ↔
        (joins.map (·.index)).Pairwise (· < ·) ∧ ∀ k ∈ joins, k.index < j.index := by
      simp [List.pairwise_append]
    have hpos : (∀ k ∈ joins ++ [j], Binding.root < k.index) ↔
        (∀ k ∈ joins, Binding.root < k.index) ∧ Binding.root < j.index := by
      simp [or_imp, forall_and]
    have hnodup : ((joins ++ [j]).filterMap (·.name)).Nodup ↔
        (joins.filterMap (·.name)).Nodup
          ∧ ∀ a, j.name = some a → a ∉ joins.filterMap (·.name) := by
      rw [List.filterMap_append]
      cases hname : j.name with
      | none => simp [hname]
      | some a =>
        rw [List.filterMap_cons_some hname, List.filterMap_nil, ← List.concat_eq_append,
          List.nodup_concat]
        simp [and_comm]
    rw [faultless_concat_iff, ih, not_fault_iff, hasc, hpos, hnodup]
    constructor
    · rintro ⟨⟨hjoins, hroot, hnames⟩, habove, hname⟩
      obtain ⟨hj, hlt⟩ := (lastBinding_lt_iff hjoins hroot).1 habove
      exact ⟨⟨hjoins, hlt⟩, ⟨hroot, hj⟩, hnames, hname⟩
    · rintro ⟨⟨hjoins, hlt⟩, ⟨hroot, hj⟩, hnames, hname⟩
      exact ⟨⟨hjoins, hroot, hnames⟩, (lastBinding_lt_iff hjoins hroot).2 ⟨hj, hlt⟩, hname⟩

end Join

namespace Query

variable {q : Query}

/-! ## The check -/

/-- Joins are checked one after the other, and the first fault is reported. -/
theorem reportsFirst_checkJoins :
    ReportsFirst Join.Fault
      (fun before s => s.1 = lastBinding before ∧ ∀ a, a ∈ s.2 ↔ a ∈ before.filterMap (·.name))
      (fun (s : Binding × List Alias) joins => checkJoins s.1 s.2 joins) Prod.fst where
  finishes s := rfl
  stops := by
    rintro before ⟨last, seen⟩ j e ⟨rfl, hseen⟩ hfault rest
    cases hfault with
    | notAbove h => rw [checkJoins, if_pos h]
    | repeated habove hname h =>
      rw [checkJoins, if_neg (Nat.not_le_of_gt habove), hname]
      dsimp only
      rw [if_pos ((hseen _).2 h)]
  passes := by
    rintro before ⟨last, seen⟩ j ⟨rfl, hseen⟩ hok
    obtain ⟨habove, hnew⟩ := Join.not_fault_iff.1 hok
    -- A join without an alias leaves the aliases seen as they are.
    cases hname : j.name with
    | none =>
      refine ⟨(j.index, seen), ⟨by simp, fun a => by simp [hseen, hname]⟩, fun rest => ?_⟩
      rw [checkJoins, if_neg (Nat.not_le_of_gt habove), hname]
    | some name =>
      have hunseen : name ∉ seen := fun hmem => hnew name hname ((hseen _).1 hmem)
      refine ⟨(j.index, name :: seen), ⟨by simp, fun a => ?_⟩, fun rest => ?_⟩
      · simp [hseen, hname, or_comm]
      · rw [checkJoins, if_neg (Nat.not_le_of_gt habove), hname]
        dsimp only
        rw [if_neg hunseen]

/-- Before the first join the last binding is that of the root and no alias is held. -/
private theorem stands_start : Binding.root = lastBinding [] ∧
    ∀ a : Alias, a ∈ ([] : List Alias) ↔ a ∈ ([] : List Join).filterMap (·.name) := by
  simp

private theorem checkJoins_eq_ok {joins : List Join} (h : Faultless Join.Fault joins) :
    checkJoins Binding.root [] joins = .ok (lastBinding joins) := by
  obtain ⟨⟨last, seen⟩, ⟨rfl, -⟩, hcheck⟩ :=
    reportsFirst_checkJoins.exists_stands (s := (Binding.root, [])) stands_start h
  exact hcheck

private theorem checkJoins_eq_error {joins : List Join} {fault : QueryFault}
    (h : FirstFault Join.Fault joins fault) :
    checkJoins Binding.root [] joins = .error fault :=
  reportsFirst_checkJoins.eq_error_of_firstFault (s := (Binding.root, [])) stands_start h

/-- What the check finds wrong with a query: its first wrong join, or its counter when nothing is
wrong with its joins. -/
inductive Fault (q : Query) : QueryFault → Prop
  | join {fault : QueryFault} (h : FirstFault Join.Fault q.joins fault) : Fault q fault
  | counter (hjoins : Faultless Join.Fault q.joins) (h : q.nextIndex ≤ lastBinding q.joins) :
    Fault q (.counterNotAbove q.nextIndex (lastBinding q.joins))

/-- A query is well-formed when nothing is wrong with its joins and its counter is above the last
one. -/
theorem wellFormed_iff : q.WellFormed ↔
    Faultless Join.Fault q.joins ∧ lastBinding q.joins < q.nextIndex := by
  rw [Join.faultless_iff]
  constructor
  · intro h
    refine ⟨⟨h.ascending, h.positive, h.nodup⟩, ?_⟩
    exact (lastBinding_lt_iff h.ascending h.positive).2 ⟨h.counter_positive, h.counter_above⟩
  · rintro ⟨⟨hasc, hpos, hnodup⟩, hlast⟩
    obtain ⟨hcounter, habove⟩ := (lastBinding_lt_iff hasc hpos).1 hlast
    exact ⟨hasc, hpos, hnodup, hcounter, habove⟩

/-- The check accepts a query that is well-formed. -/
theorem WellFormed.check_eq_ok (h : q.WellFormed) : q.check = .ok () := by
  obtain ⟨hjoins, hcounter⟩ := wellFormed_iff.1 h
  rw [check, checkJoins_eq_ok hjoins]
  dsimp only
  rw [if_neg (Nat.not_le_of_gt hcounter)]

/-- The check reports what is wrong with a query. -/
theorem Fault.check_eq_error {fault : QueryFault} (h : q.Fault fault) :
    q.check = .error fault := by
  cases h with
  | join h => rw [check, checkJoins_eq_error h]
  | counter hjoins h =>
    rw [check, checkJoins_eq_ok hjoins]
    dsimp only
    rw [if_pos h]

/-- A query is well-formed, or something is wrong with it. -/
theorem wellFormed_or_exists_fault (q : Query) : q.WellFormed ∨ ∃ fault, q.Fault fault := by
  rcases faultless_or_exists_firstFault Join.Fault q.joins with hjoins | ⟨fault, hfault⟩
  · by_cases hcounter : q.nextIndex ≤ lastBinding q.joins
    · exact .inr ⟨_, .counter hjoins hcounter⟩
    · exact .inl (wellFormed_iff.2 ⟨hjoins, Nat.lt_of_not_le hcounter⟩)
  · exact .inr ⟨fault, .join hfault⟩

/-- A query that passes the check is well-formed. -/
theorem wellFormed_of_check (h : q.check = .ok ()) : q.WellFormed := by
  rcases wellFormed_or_exists_fault q with hq | ⟨fault, hfault⟩
  · exact hq
  · rw [hfault.check_eq_error] at h
    cases h

/-- A well-formed query passes the check. -/
theorem WellFormed.checked_eq_ok (h : q.WellFormed) : q.checked = .ok q := by
  rw [checked, h.check_eq_ok]

/-- A query that is accepted is the query that was checked, and it is well-formed. -/
theorem wellFormed_of_checked {raw : Query} (h : raw.checked = .ok q) :
    q = raw ∧ q.WellFormed := by
  rw [checked] at h
  split at h
  · rename_i hcheck
    obtain rfl := Except.ok.inj h
    exact ⟨rfl, wellFormed_of_check hcheck⟩
  · cases h

/-- A query that is read from JSON is well-formed. -/
theorem wellFormed_of_ofJson {v : Json} (h : ofJson v = .ok q) : q.WellFormed := by
  rw [ofJson, ofJsonWithin] at h
  cases hfields : fieldsOfJson (ofJsonWithin v.depth) v with
  | error e => rw [hfields] at h; cases h
  | ok raw =>
    rw [hfields] at h
    exact (wellFormed_of_checked h).2

end Query

end JoinGraph

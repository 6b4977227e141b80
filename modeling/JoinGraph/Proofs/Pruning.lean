import JoinGraph.Proofs.Liveness
import JoinGraph.Proofs.Restriction
import Mathlib.Data.List.Sort

/-!
# Pruning

Pruning restricts a query to its live joins. Liveness looks only at what is live: a query that has
all live joins of another, and whose clauses and preloads mention as much, has all its live bindings
as well (`mem_live_of_live_joins`).

Two queries that differ in dead joins only (`AgreesOnLive`) have therefore the same live bindings
and become the same query when they are pruned. Taking dead joins out, some or all of them, is such
a difference (`live_restrict`, `prune_restrict`).

Pruning is not alone in keeping all that is used (`KeepsUsed`): a checked removal that goes through
does so as well (`exists_restrict_of_removeChecked`). What such a restriction preserves is preserved
by both.
-/

namespace JoinGraph.Query

variable {q r : Query} {keep : Binding → Bool} {b : Binding} {j : Join}

/-- A query that has the live joins of another, and mentions what the other mentions outside its
joins, has the live bindings of the other. -/
theorem mem_live_of_live_joins (hq : q.WellFormed) (hr : r.WellFormed)
    (hjoins : ∀ j ∈ q.joins, j.index ∈ q.live → j ∈ r.joins)
    (hclause : ∀ b, q.ClauseMentions b → r.ClauseMentions b)
    (hpreload : ∀ a, PreloadTree.Names q.preloads a → PreloadTree.Names r.preloads a)
    (hb : b ∈ q.live) : b ∈ r.live := by
  have hqlive : q.Sufficient {b | b ∈ q.live} := sufficient_live hq
  have hrlive : r.Sufficient {b | b ∈ r.live} := sufficient_live hr
  have hpresent : ∀ c ∈ q.live, c ∈ r.bindings := by
    intro c hc
    rcases mem_bindings.1 (hqlive.present c hc) with rfl | ⟨j, hj, rfl⟩
    · exact root_mem_bindings r
    · exact index_mem_bindings (hjoins j hj hc)
  -- The bindings that are live in both queries suffice for the first one.
  have hboth : q.Sufficient {c | c ∈ q.live ∧ c ∈ r.live} :=
    { present := fun c hc => hqlive.present c hc.1
      root := ⟨hqlive.root, hrlive.root⟩
      clause := by
        intro c hc hmentions
        have hlive : c ∈ q.live := hqlive.clause c hc hmentions
        exact ⟨hlive, hrlive.clause c (hpresent c hlive) (hclause c hmentions)⟩
      preload := by
        intro j hj a hname hnames
        have hlive : j.index ∈ q.live := hqlive.preload j hj a hname hnames
        exact ⟨hlive, hrlive.preload j (hjoins j hj hlive) a hname (hpreload a hnames)⟩
      condition := by
        intro j hj ⟨hjq, hjr⟩ c hc hmentions
        have hlive : c ∈ q.live := hqlive.condition j hj hjq c hc hmentions
        exact ⟨hlive, hrlive.condition j (hjoins j hj hjq) hjr c (hpresent c hlive) hmentions⟩ }
  exact (hboth.mem_of_mem_live hq hb).2

theorem pairwise_live (q : Query) : q.live.Pairwise (· < ·) := Binding.pairwise_ascending _

/-- Live bindings are listed in one way only. -/
theorem live_eq_of_mem_iff (h : ∀ b, b ∈ q.live ↔ b ∈ r.live) : q.live = r.live :=
  (pairwise_live q).eq_of_mem_iff (pairwise_live r) h

theorem mem_deadJoins_iff : j ∈ q.deadJoins ↔ j ∈ q.joins ∧ j.index ∉ q.live := by
  rw [deadJoins, List.mem_filter, decide_eq_true_eq]

theorem prune_eq_restrict (q : Query) : q.prune = q.restrict fun b => decide (b ∈ q.live) := rfl

/-! ### Agreeing on what is live -/

/-- The second query agrees with the first on what is live in the first. Dead joins may be gone or
rewritten, but no join is known by anything that no join of the first is known by. -/
structure AgreesOnLive (q r : Query) : Prop where
  /-- With only the live joins left, the second query is the first one pruned. -/
  restrict : (r.restrict fun b => decide (b ∈ q.live)) = q.prune
  keys : (r.joins.map Join.key).Sublist (q.joins.map Join.key)

theorem AgreesOnLive.clauses_eq (h : q.AgreesOnLive r) : r.clauses = q.clauses := by
  have hclauses := congrArg Query.clauses h.restrict
  exact hclauses

theorem AgreesOnLive.preloads_eq (h : q.AgreesOnLive r) : r.preloads = q.preloads := by
  have hpreloads := congrArg Query.preloads h.restrict
  exact hpreloads

theorem AgreesOnLive.wellFormed (h : q.AgreesOnLive r) (hq : q.WellFormed) : r.WellFormed := by
  have hcounter := congrArg Query.nextIndex h.restrict
  exact hq.of_keys_sublist h.keys hcounter

/-- The joins that are live in the first query are the same in both. -/
theorem AgreesOnLive.mem_joins_iff (h : q.AgreesOnLive r) (hlive : j.index ∈ q.live) :
    j ∈ r.joins ↔ j ∈ q.joins := by
  have hjoins : j ∈ (r.restrict fun b => decide (b ∈ q.live)).joins ↔ j ∈ q.prune.joins := by
    rw [h.restrict]
  rw [prune_eq_restrict, mem_joins_restrict, mem_joins_restrict] at hjoins
  simpa only [hlive, decide_true, and_true] using hjoins

/-- Every join of the second query stands for a binding and an alias of the first. -/
theorem AgreesOnLive.exists_key_eq (h : q.AgreesOnLive r) (hj : j ∈ r.joins) :
    ∃ k ∈ q.joins, k.index = j.index ∧ k.name = j.name := by
  obtain ⟨k, hk, hkey⟩ := List.mem_map.1 (h.keys.subset (List.mem_map_of_mem hj))
  exact ⟨k, hk, congrArg Prod.fst hkey, congrArg Prod.snd hkey⟩

/-- Queries that agree on what is live in one of them have the same live bindings: whatever dead
joins refer to, nothing that is live leads to them. -/
theorem AgreesOnLive.live_eq (h : q.AgreesOnLive r) (hq : q.WellFormed) : r.live = q.live := by
  have hlive : q.Sufficient {b | b ∈ q.live} := sufficient_live hq
  have hr : r.WellFormed := h.wellFormed hq
  have hclause : ∀ b, r.ClauseMentions b ↔ q.ClauseMentions b :=
    fun _ => clauseMentions_congr h.clauses_eq
  have hbindings : ∀ b ∈ r.bindings, b ∈ q.bindings := by
    intro b hb
    rcases mem_bindings.1 hb with rfl | ⟨j, hj, rfl⟩
    · exact root_mem_bindings q
    · obtain ⟨k, hk, hindex, -⟩ := h.exists_key_eq hj
      exact hindex ▸ index_mem_bindings hk
  -- What is live in the first query suffices for the second.
  have hsufficient : r.Sufficient {b | b ∈ q.live} :=
    { present := by
        intro b hb
        rcases mem_bindings.1 (hlive.present b hb) with rfl | ⟨j, hj, rfl⟩
        · exact root_mem_bindings r
        · exact index_mem_bindings ((h.mem_joins_iff hb).2 hj)
      root := hlive.root
      clause := fun b hb hmentions => hlive.clause b (hbindings b hb) ((hclause b).1 hmentions)
      preload := by
        intro j hj a hname hnames
        obtain ⟨k, hk, hindex, hkname⟩ := h.exists_key_eq hj
        rw [h.preloads_eq] at hnames
        exact hindex ▸ hlive.preload k hk a (hkname.trans hname) hnames
      condition := fun j hj hjlive b hb hmentions =>
        hlive.condition j ((h.mem_joins_iff hjlive).1 hj) hjlive b (hbindings b hb) hmentions }
  refine live_eq_of_mem_iff fun b => ⟨fun hb => hsufficient.mem_of_mem_live hr hb, fun hb => ?_⟩
  refine mem_live_of_live_joins hq hr (fun j hj hjlive => (h.mem_joins_iff hjlive).2 hj)
    (fun c => (hclause c).2) (fun a hnames => ?_) hb
  rw [h.preloads_eq]
  exact hnames

/-- Pruning does not tell them apart. -/
theorem AgreesOnLive.prune_eq (h : q.AgreesOnLive r) (hq : q.WellFormed) : r.prune = q.prune := by
  rw [prune_eq_restrict, h.live_eq hq, h.restrict]

/-! ### Taking dead joins out -/

/-- Taking dead joins out changes nothing that is live. -/
theorem agreesOnLive_restrict (hkeep : ∀ b ∈ q.live, keep b = true) :
    q.AgreesOnLive (q.restrict keep) where
  restrict := by
    rw [restrict_restrict, prune_eq_restrict]
    refine restrict_congr fun j _ => ?_
    by_cases hlive : j.index ∈ q.live
    · rw [hkeep j.index hlive, Bool.and_true]
    · rw [decide_eq_false hlive, Bool.false_and]
  keys := (joins_restrict_sublist q keep).map Join.key

/-- Taking dead joins out leaves the live bindings as they are. -/
theorem live_restrict (h : q.WellFormed) (hkeep : ∀ b ∈ q.live, keep b = true) :
    (q.restrict keep).live = q.live :=
  (agreesOnLive_restrict hkeep).live_eq h

theorem live_prune (h : q.WellFormed) : q.prune.live = q.live := by
  rw [prune_eq_restrict, live_restrict h fun _ hb => decide_eq_true hb]

/-- Pruning comes to the same when dead joins have been taken out before. -/
theorem prune_restrict (h : q.WellFormed) (hkeep : ∀ b ∈ q.live, keep b = true) :
    (q.restrict keep).prune = q.prune :=
  (agreesOnLive_restrict hkeep).prune_eq h

/-- A query without dead joins is pruned already. -/
theorem prune_eq_self (h : ∀ j ∈ q.joins, j.index ∈ q.live) : q.prune = q := by
  rw [prune_eq_restrict]
  exact restrict_eq_self fun j hj => decide_eq_true (h j hj)

/-! ### Keeping what is used -/

/-- All that is asked for is kept, whether the query asks for it or a join that is kept. -/
def KeepsUsed (q : Query) (keep : Binding → Bool) : Prop :=
  q.Sufficient {b | b ∈ q.bindings ∧ keep b = true}

/-- What is live is kept. -/
theorem KeepsUsed.keep_of_mem_live (hkeep : q.KeepsUsed keep) (h : q.WellFormed) (hb : b ∈ q.live) :
    keep b = true :=
  (Sufficient.mem_of_mem_live hkeep h hb).2

/-- Pruning keeps what is used. -/
theorem keepsUsed_live (h : q.WellFormed) : q.KeepsUsed fun b => decide (b ∈ q.live) := by
  have hlive : q.Sufficient {b | b ∈ q.live} := sufficient_live h
  have hset : {b | b ∈ q.bindings ∧ decide (b ∈ q.live) = true} = {b | b ∈ q.live} := by
    ext b
    exact ⟨fun hb => of_decide_eq_true hb.2,
      fun hb => ⟨hlive.present b hb, decide_eq_true hb⟩⟩
  rw [KeepsUsed, hset]
  exact hlive

/-- All bindings may be kept but one that nothing asks for. -/
theorem Unused.keepsUsed (hunused : q.Unused j.index) (h : q.WellFormed) (hj : j ∈ q.joins) :
    q.KeepsUsed fun b => decide (b ≠ j.index) where
  present _ hb := hb.1
  root := ⟨root_mem_bindings q, decide_eq_true (Nat.ne_of_lt (h.positive j hj))⟩
  clause b hb hmentions :=
    ⟨hb, decide_eq_true fun hindex => hunused.clause (hindex ▸ hmentions)⟩
  preload k hk a hname hnames := by
    refine ⟨index_mem_bindings hk, decide_eq_true fun hindex => ?_⟩
    rw [h.eq_of_index_eq hk hj hindex] at hname
    exact hunused.preload j a (h.joinAt?_eq_some hj) hname hnames
  condition k hk hkept b hb hmentions := by
    refine ⟨hb, decide_eq_true fun hindex => ?_⟩
    exact hunused.condition k hk (of_decide_eq_true hkept.2) (hindex ▸ hmentions)

/-- The binding of a join that nothing asks for is dead. -/
theorem Unused.not_mem_live (hunused : q.Unused j.index) (h : q.WellFormed) (hj : j ∈ q.joins) :
    j.index ∉ q.live := by
  intro hlive
  -- Without this binding all that is used is kept, so it is not live.
  have hkept := (hunused.keepsUsed h hj).keep_of_mem_live h hlive
  exact of_decide_eq_true hkept rfl

/-- A checked removal that goes through keeps what is used. -/
theorem exists_restrict_of_removeChecked (h : q.WellFormed) {a : Alias}
    (hr : q.removeChecked a = .ok r) : ∃ keep, q.KeepsUsed keep ∧ r = q.restrict keep := by
  obtain ⟨rfl, hunused⟩ := removeChecked_cases hr
  cases hj : q.join? a with
  | none =>
    have hall : q.KeepsUsed fun _ => true :=
      { present := fun _ hb => hb.1
        root := ⟨root_mem_bindings q, rfl⟩
        clause := fun _ hb _ => ⟨hb, rfl⟩
        preload := fun _ hk _ _ _ => ⟨index_mem_bindings hk, rfl⟩
        condition := fun _ _ _ _ hb _ => ⟨hb, rfl⟩ }
    refine ⟨_, hall, ?_⟩
    rw [remove_eq_self hj, restrict_eq_self fun _ _ => rfl]
  | some j =>
    exact ⟨_, (hunused j hj).keepsUsed h (mem_joins_of_join? hj).1, remove_eq_restrict h hj⟩

end JoinGraph.Query

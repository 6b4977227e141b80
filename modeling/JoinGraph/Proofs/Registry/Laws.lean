import JoinGraph.Proofs.Blog
import JoinGraph.Proofs.Restriction
import JoinGraph.Proofs.WellFormed

/-!
# The Registry as a Finite Map

The registry maps aliases to what was requested of their joins (`Query.request?`). `Query.alter`
changes what stands under one alias, given what stands there already. Registering, replacing and
removing are changes of this kind (`Change.after_eq_alter`), and two facts about `alter` carry the
laws of the registry:

* two changes of one alias are a single change (`alter_alter`), as long as the second neither takes
  back what the first registered nor registers anew what the first took out;
* changes of two aliases commute (`alter_comm`), unless both register a join, for then the first
  one gets the lower binding.

All that is not under the alias stays as it is and where it is (`sameBut_alter`), anonymous joins
included. The laws are put together in `registry_laws`.
-/

open Relation

namespace JoinGraph

/-- What was requested of a join. -/
def Join.request (j : Join) : JoinRequest := ⟨j.qualifier, j.source, j.on⟩

/-- The join with another request. It keeps its binding and its alias. -/
def Join.answering (j : Join) (request : JoinRequest) : Join :=
  { j with qualifier := request.qualifier, source := request.source, on := request.on }

/-- A join is as it was requested. -/
theorem Join.answering_request (j : Join) : j.answering j.request = j := by
  cases j
  rfl

/-- A change of what stands under one alias. -/
inductive Change where
  /-- Register a join unless there is one. -/
  | ensure (request : JoinRequest)
  /-- Replace the join, or register one. -/
  | replace (request : JoinRequest)
  | remove

namespace Change

/-- The query after a change under an alias. -/
def after (c : Change) (name : Alias) (q : Query) : Query :=
  match c with
  | ensure request => q.ensure name request
  | replace request => q.replace name request
  | remove => q.remove name

/-- What a change makes of the request that stands under the alias, if there is one: the first
request stays when it is ensured again, and the last one stays when it is replaced. -/
def update : Change → Option JoinRequest → Option JoinRequest
  | ensure request, held => some (held.getD request)
  | replace request, _ => some request
  | remove, _ => none

end Change

namespace Query

variable {q r : Query} {a b : Alias} {f g : Option JoinRequest → Option JoinRequest}
  {j : Join} {before after : List Join}

/-- What is requested of the join under an alias. -/
def request? (q : Query) (a : Alias) : Option JoinRequest := (q.join? a).map Join.request

/-- A join after a change under an alias, unless the change takes it out. -/
def alterJoin (a : Alias) (f : Option JoinRequest → Option JoinRequest) (j : Join) : Option Join :=
  if j.name = some a then (f (some j.request)).map j.answering else some j

/-- Change what stands under an alias. The join under the alias stays in its place or goes, and
where there was none a new one comes last. -/
def alter (q : Query) (a : Alias) (f : Option JoinRequest → Option JoinRequest) : Query :=
  if q.hasJoin a then { q with joins := q.joins.filterMap (alterJoin a f) }
  else match f none with
    | none => q
    | some request => q.append (some a) request

theorem alter_of_hasJoin (hheld : q.hasJoin a = true) :
    q.alter a f = { q with joins := q.joins.filterMap (alterJoin a f) } :=
  if_pos hheld

theorem alter_eq_self (hfree : q.hasJoin a = false) (hf : f none = none) : q.alter a f = q := by
  simp [alter, hfree, hf]

theorem alter_eq_append {request : JoinRequest} (hfree : q.hasJoin a = false)
    (hf : f none = some request) : q.alter a f = q.append (some a) request := by
  simp [alter, hfree, hf]

theorem hasJoin_eq_false_iff_join? : q.hasJoin a = false ↔ q.join? a = none := by
  rw [hasJoin, Option.isSome_eq_false_iff, Option.isNone_iff_eq_none]

theorem hasJoin_eq_false_iff : q.hasJoin a = false ↔ ∀ j ∈ q.joins, j.name ≠ some a := by
  rw [← Bool.not_eq_true, hasJoin_iff_mem_aliases, mem_aliases]
  exact ⟨fun h j hj hname => h ⟨j, hj, hname⟩, fun h ⟨j, hj, hname⟩ => h j hj hname⟩

/-- A join that was just registered is there. -/
theorem hasJoin_append_self (request : JoinRequest) :
    (q.append (some a) request).hasJoin a = true := by
  rw [hasJoin_iff_mem_aliases, aliases_append]
  exact List.mem_append_right _ List.mem_cons_self

/-! ### One join -/

theorem alterJoin_of_name_eq (hname : j.name = some a) :
    alterJoin a f j = (f (some j.request)).map j.answering :=
  if_pos hname

theorem alterJoin_of_name_ne (hname : j.name ≠ some a) : alterJoin a f j = some j :=
  if_neg hname

/-- A change that leaves every join as it is leaves the list as it is. -/
theorem filterMap_alterJoin_eq_self {joins : List Join}
    (h : ∀ j ∈ joins, alterJoin a f j = some j) : joins.filterMap (alterJoin a f) = joins := by
  rw [List.filterMap_congr h]
  exact List.filterMap_some

/-- Two changes of a join under one alias are a single change. -/
theorem bind_alterJoin_self (h : ∀ o, g (f o) = none ↔ f o = none) (j : Join) :
    (alterJoin a f j).bind (alterJoin a g) = alterJoin a (fun o => g (f o)) j := by
  by_cases hname : j.name = some a
  · rw [alterJoin_of_name_eq hname, alterJoin_of_name_eq hname]
    cases hf : f (some j.request) with
    | none =>
      have hg : g (f (some j.request)) = none := (h _).2 hf
      rw [hf] at hg
      rw [hg]
      rfl
    | some request =>
      -- The new request stands under the alias of the old one.
      rw [Option.map_some, Option.bind_some]
      exact alterJoin_of_name_eq hname
  · rw [alterJoin_of_name_ne hname, alterJoin_of_name_ne hname]
    exact alterJoin_of_name_ne hname

/-- Changes of a join under two aliases commute, as it has one of them at most. -/
theorem bind_alterJoin_comm (hab : a ≠ b) (j : Join) :
    (alterJoin a f j).bind (alterJoin b g) = (alterJoin b g j).bind (alterJoin a f) := by
  -- A change leaves the alias of a join as it is, so a change under another alias lets it pass.
  have hpass : ∀ {c d : Alias} {f g : Option JoinRequest → Option JoinRequest},
      j.name ≠ some d → (alterJoin c f j).bind (alterJoin d g) = alterJoin c f j := by
    intro c d f g hname
    rw [alterJoin]
    split
    · cases f (some j.request) with
      | none => rfl
      | some request => exact alterJoin_of_name_ne hname
    · exact alterJoin_of_name_ne hname
  by_cases hname : j.name = some a
  · have hother : j.name ≠ some b := fun hb => hab (Option.some.inj (hname.symm.trans hb))
    rw [hpass hother, alterJoin_of_name_ne hother, Option.bind_some]
  · rw [hpass hname, alterJoin_of_name_ne hname, Option.bind_some]

/-! ### What a change leaves alone -/

private theorem filter_filterMap_alterJoin {p : Join → Bool}
    (hp : ∀ j, p j = true → j.name ≠ some a) (joins : List Join) :
    (joins.filterMap (alterJoin a f)).filter p = joins.filter p := by
  induction joins with
  | nil => rfl
  | cons j rest ih =>
    by_cases hname : j.name = some a
    · -- Neither the join nor what the change makes of it is among those that are looked at.
      have hout : ∀ k : Join, k.name = some a → ¬ p k = true := fun k hk hpk => hp k hpk hk
      rw [List.filter_cons_of_neg (hout j hname), List.filterMap_cons, alterJoin_of_name_eq hname]
      cases f (some j.request) with
      | none => exact ih
      | some request =>
        rw [Option.map_some, List.filter_cons_of_neg (hout (j.answering request) hname)]
        exact ih
    · rw [List.filterMap_cons_some (alterJoin_of_name_ne hname), List.filter_cons, List.filter_cons,
        ih]

/-- A choice of joins that are not under the alias is the same after a change. -/
theorem filter_joins_alter {p : Join → Bool} (hp : ∀ j, p j = true → j.name ≠ some a) :
    (q.alter a f).joins.filter p = q.joins.filter p := by
  cases hheld : q.hasJoin a with
  | true =>
    rw [alter_of_hasJoin hheld]
    exact filter_filterMap_alterJoin hp q.joins
  | false =>
    cases hf : f none with
    | none => rw [alter_eq_self hheld hf]
    | some request =>
      rw [alter_eq_append hheld hf, joins_append, List.filter_append]
      have hnew : ¬ p ⟨q.nextIndex, some a, request.qualifier, request.source, request.on⟩ = true :=
        fun hpnew => hp _ hpnew rfl
      rw [List.filter_cons_of_neg hnew, List.filter_nil, List.append_nil]

theorem join?_alter_of_ne (hab : b ≠ a) : (q.alter a f).join? b = q.join? b := by
  -- Looking up is choosing the joins under the alias and taking the first of them.
  have hp : ∀ j : Join, decide (j.name = some b) = true → j.name ≠ some a :=
    fun j hj ha => hab (Option.some.inj ((of_decide_eq_true hj).symm.trans ha))
  rw [join?, join?, ← List.head?_filter, ← List.head?_filter, filter_joins_alter hp]

theorem hasJoin_alter_of_ne (hab : b ≠ a) : (q.alter a f).hasJoin b = q.hasJoin b := by
  rw [hasJoin, hasJoin, join?_alter_of_ne hab]

/-- The second query differs from the first at most in what stands under one alias, and in the
counter. -/
structure SameBut (a : Alias) (q r : Query) : Prop where
  /-- Other aliases have the joins they had. -/
  found : ∀ b, b ≠ a → r.join? b = q.join? b
  /-- Anonymous joins are the same, in the same order. -/
  anonymous : (r.joins.filter fun j => decide (j.name = none))
    = q.joins.filter fun j => decide (j.name = none)
  /-- The joins that are not under the alias are the same, in the same order. -/
  others : (r.joins.filter fun j => decide (j.name ≠ some a))
    = q.joins.filter fun j => decide (j.name ≠ some a)
  /-- The root source, the clauses and the preloads are the same. -/
  rest : { r with joins := q.joins, nextIndex := q.nextIndex } = q

/-- A change leaves alone whatever is not under its alias. -/
theorem sameBut_alter (q : Query) (a : Alias) (f : Option JoinRequest → Option JoinRequest) :
    SameBut a q (q.alter a f) where
  found _ hb := join?_alter_of_ne hb
  anonymous := filter_joins_alter fun j hj ha => by
    rw [of_decide_eq_true hj] at ha
    cases ha
  others := filter_joins_alter fun _ hj => of_decide_eq_true hj
  rest := by
    cases q
    rw [alter]
    split
    · rfl
    · split <;> rfl

/-- The counter moves when the alias was free and is held after the change. -/
theorem nextIndex_alter (q : Query) (a : Alias) (f : Option JoinRequest → Option JoinRequest) :
    (q.alter a f).nextIndex
      = if q.hasJoin a = false ∧ (q.alter a f).hasJoin a = true then q.nextIndex + 1
        else q.nextIndex := by
  cases hheld : q.hasJoin a with
  | true => simp [alter_of_hasJoin hheld]
  | false =>
    cases hf : f none with
    | none => simp [alter_eq_self hheld hf, hheld]
    | some request => simp [alter_eq_append hheld hf, hasJoin_append_self]

/-! ### One alias -/

/-- Two changes of one alias are a single change, as long as the second keeps what the first leaves
and registers nothing where the first leaves nothing. -/
theorem alter_alter (h : ∀ o, g (f o) = none ↔ f o = none) :
    (q.alter a f).alter a g = q.alter a fun o => g (f o) := by
  cases hheld : q.hasJoin a with
  | true =>
    have hpointwise : (q.joins.filterMap (alterJoin a f)).filterMap (alterJoin a g)
        = q.joins.filterMap (alterJoin a fun o => g (f o)) := by
      rw [List.filterMap_filterMap]
      exact List.filterMap_congr fun j _ => bind_alterJoin_self h j
    rw [alter_of_hasJoin hheld, alter_of_hasJoin hheld, ← hpointwise]
    cases hheld' : hasJoin { q with joins := q.joins.filterMap (alterJoin a f) } a with
    | true => exact alter_of_hasJoin hheld'
    | false =>
      -- The first change has taken the join out, so the second one finds nothing and adds nothing.
      obtain ⟨j, hj, hname⟩ := mem_aliases.1 (hasJoin_iff_mem_aliases.1 hheld)
      have hfree := hasJoin_eq_false_iff.1 hheld'
      have hgone : f (some j.request) = none := by
        rw [Option.eq_none_iff_forall_ne_some]
        intro request hf
        have hkept : alterJoin a f j = some (j.answering request) := by
          rw [alterJoin_of_name_eq hname, hf, Option.map_some]
        exact hfree _ (List.mem_filterMap.2 ⟨j, hj, hkept⟩) hname
      have hg : g none = none := by rw [← hgone, (h _).2 hgone, hgone]
      rw [alter_eq_self hheld' hg, filterMap_alterJoin_eq_self fun k hk =>
        alterJoin_of_name_ne (hfree k hk)]
  | false =>
    cases hf : f none with
    | none =>
      have hgf : g (f none) = none := (h none).2 hf
      have hg : g none = none := (congrArg g hf).symm.trans hgf
      rw [alter_eq_self hheld hf, alter_eq_self hheld hg, alter_eq_self hheld hgf]
    | some request =>
      obtain ⟨request', hg⟩ : ∃ request', g (f none) = some request' :=
        Option.ne_none_iff_exists'.1 fun hg => by rw [(h none).1 hg] at hf; cases hf
      rw [alter_eq_append hheld hf, alter_eq_append hheld hg,
        alter_of_hasJoin (hasJoin_append_self request)]
      -- Only the new join is under the alias.
      have hold : q.joins.filterMap (alterJoin a g) = q.joins :=
        filterMap_alterJoin_eq_self fun k hk =>
          alterJoin_of_name_ne (hasJoin_eq_false_iff.1 hheld k hk)
      have hnew : alterJoin a g ⟨q.nextIndex, some a, request.qualifier, request.source, request.on⟩
          = some ⟨q.nextIndex, some a, request'.qualifier, request'.source, request'.on⟩ := by
        rw [hf] at hg
        rw [alterJoin_of_name_eq rfl, Join.request, hg]
        rfl
      rw [joins_append, List.filterMap_append, hold, List.filterMap_cons_some hnew]
      rfl

/-- A change reaches the join under the alias in its place, and no other join. -/
theorem joins_alter_of_split (h : q.WellFormed) (hsplit : q.joins = before ++ j :: after)
    (hname : j.name = some a) : (q.alter a f).joins
      = before ++ (((f (some j.request)).map j.answering).toList ++ after) := by
  have hothers := h.name_ne_of_split hsplit hname
  have hheld : q.hasJoin a = true :=
    hasJoin_iff_mem_aliases.2 (mem_aliases.2 ⟨j, by simp [hsplit], hname⟩)
  have hbefore : before.filterMap (alterJoin a f) = before :=
    filterMap_alterJoin_eq_self fun k hk =>
      alterJoin_of_name_ne (hothers k (List.mem_append_left _ hk))
  have hafter : after.filterMap (alterJoin a f) = after :=
    filterMap_alterJoin_eq_self fun k hk =>
      alterJoin_of_name_ne (hothers k (List.mem_append_right _ hk))
  rw [alter_of_hasJoin hheld, hsplit, List.filterMap_append, hbefore, List.filterMap_cons, hafter,
    alterJoin_of_name_eq hname]
  cases (f (some j.request)) <;> rfl

/-- Looking the alias up afterwards shows what the change makes of what was found before. -/
theorem request?_alter (h : q.WellFormed) : (q.alter a f).request? a = f (q.request? a) := by
  have hfind : ∀ {joins : List Join}, (∀ k ∈ joins, k.name ≠ some a) →
      joins.find? (fun k => decide (k.name = some a)) = none := fun hne =>
    List.find?_eq_none.2 fun k hk => by simpa using hne k hk
  cases hj : q.join? a with
  | some j =>
    -- No other join is under the alias, so the search finds what has become of this one.
    obtain ⟨hmem, hname⟩ := mem_joins_of_join? hj
    obtain ⟨before, after, hsplit⟩ := List.append_of_mem hmem
    have hothers := h.name_ne_of_split hsplit hname
    rw [request?, request?, hj, join?, joins_alter_of_split h hsplit hname, List.find?_append,
      hfind fun k hk => hothers k (List.mem_append_left _ hk), Option.none_or, Option.map_some]
    cases f (some j.request) with
    | none =>
      rw [Option.map_none, Option.toList_none, List.nil_append,
        hfind fun k hk => hothers k (List.mem_append_right _ hk)]
      rfl
    | some request =>
      have hfound : (j.answering request :: after).find? (fun k => decide (k.name = some a))
          = some (j.answering request) := List.find?_cons_of_pos (decide_eq_true hname)
      rw [Option.map_some, Option.toList_some, List.singleton_append, hfound]
      rfl
  | none =>
    have hfree : q.hasJoin a = false := by rw [hasJoin, hj, Option.isSome_none]
    rw [request?, request?, hj, Option.map_none]
    cases hf : f none with
    | none => rw [alter_eq_self hfree hf, hj, Option.map_none]
    | some request =>
      rw [alter_eq_append hfree hf, join?, joins_append, List.find?_append,
        hfind (hasJoin_eq_false_iff.1 hfree), Option.none_or, List.find?_singleton,
        if_pos (decide_eq_true rfl)]
      rfl

/-! ### Two aliases -/

/-- A change under an alias that is held commutes with every change under another. -/
theorem alter_comm_of_hasJoin (hab : a ≠ b) (hheld : q.hasJoin a = true) :
    (q.alter a f).alter b g = (q.alter b g).alter a f := by
  have hheld' : (q.alter b g).hasJoin a = true := by rw [hasJoin_alter_of_ne hab, hheld]
  have hother : (q.alter a f).hasJoin b = q.hasJoin b := hasJoin_alter_of_ne hab.symm
  rw [alter_of_hasJoin hheld']
  cases hb : q.hasJoin b with
  | true =>
    rw [alter_of_hasJoin (hother.trans hb), alter_of_hasJoin hheld, alter_of_hasJoin hb]
    dsimp only
    rw [List.filterMap_filterMap, List.filterMap_filterMap]
    rw [List.filterMap_congr fun j _ => bind_alterJoin_comm hab j]
  | false =>
    cases hg : g none with
    | none => rw [alter_eq_self (hother.trans hb) hg, alter_eq_self hb hg, alter_of_hasJoin hheld]
    | some request =>
      rw [alter_eq_append (hother.trans hb) hg, alter_eq_append hb hg, alter_of_hasJoin hheld,
        joins_append, List.filterMap_append]
      -- The join that is registered is not under the alias of the other change.
      have hnew : alterJoin a f ⟨q.nextIndex, some b, request.qualifier, request.source, request.on⟩
          = some ⟨q.nextIndex, some b, request.qualifier, request.source, request.on⟩ :=
        alterJoin_of_name_ne fun hname => hab (Option.some.inj hname).symm
      rw [List.filterMap_cons_some hnew]
      rfl

/-- A change that adds nothing where nothing is commutes with every change under another alias. -/
theorem alter_comm_of_none (hab : a ≠ b) (hf : f none = none) :
    (q.alter a f).alter b g = (q.alter b g).alter a f := by
  cases ha : q.hasJoin a with
  | true => exact alter_comm_of_hasJoin hab ha
  | false => rw [alter_eq_self ha hf, alter_eq_self ((hasJoin_alter_of_ne hab).trans ha) hf]

/-- Changes under two aliases commute when at least one of the aliases is held already. -/
theorem alter_comm (hab : a ≠ b) (hheld : q.hasJoin a = true ∨ q.hasJoin b = true) :
    (q.alter a f).alter b g = (q.alter b g).alter a f := by
  rcases hheld with ha | hb
  · exact alter_comm_of_hasJoin hab ha
  · exact (alter_comm_of_hasJoin hab.symm hb).symm

end Query

/-! ### The operations -/

namespace Change

variable {q : Query} {a b : Alias}

theorem wellFormed_after (h : q.WellFormed) (c : Change) (a : Alias) :
    (c.after a q).WellFormed := by
  cases c with
  | ensure request => exact h.steps (Query.steps_ensure q a request)
  | replace request => exact h.steps (Query.steps_replace q a request)
  | remove => exact h.steps (Query.steps_remove q a)

/-- Where one join at most holds the alias, replacing the first one is replacing all. -/
private theorem replaceFirst_eq_filterMap {request : JoinRequest} {joins : List Join}
    (hnodup : (joins.filterMap (·.name)).Nodup) : Query.replaceFirst a request joins
      = joins.filterMap (Query.alterJoin a fun _ => some request) := by
  induction joins with
  | nil => rfl
  | cons j rest ih =>
    rw [Query.replaceFirst]
    split
    · rename_i hname
      rw [List.filterMap_cons_some hname, List.nodup_cons] at hnodup
      have hrest : rest.filterMap (Query.alterJoin a fun _ => some request) = rest :=
        Query.filterMap_alterJoin_eq_self fun k hk =>
          Query.alterJoin_of_name_ne fun hkname =>
            hnodup.1 (List.mem_filterMap.2 ⟨k, hk, hkname⟩)
      have hfirst : Query.alterJoin a (fun _ => some request) j = some (j.answering request) :=
        Query.alterJoin_of_name_eq hname
      rw [List.filterMap_cons_some hfirst, hrest]
      rfl
    · rename_i hname
      have htail : (rest.filterMap (·.name)).Nodup :=
        hnodup.sublist ((List.sublist_cons_self j rest).filterMap _)
      rw [List.filterMap_cons_some (Query.alterJoin_of_name_ne hname), ih htail]

/-- Registering, replacing and removing change what stands under the alias, and nothing else. -/
theorem after_eq_alter (h : q.WellFormed) (c : Change) (a : Alias) :
    c.after a q = q.alter a c.update := by
  cases hheld : q.hasJoin a with
  | true =>
    rw [Query.alter_of_hasJoin hheld]
    cases c with
    | ensure request =>
      have hsame : q.joins.filterMap (Query.alterJoin a (ensure request).update) = q.joins := by
        refine Query.filterMap_alterJoin_eq_self fun j _ => ?_
        rw [Query.alterJoin]
        split
        · exact congrArg some j.answering_request
        · rfl
      rw [hsame, Change.after, Query.ensure_eq_self_of_hasJoin request hheld]
      cases q
      rfl
    | replace request =>
      rw [Change.after, Query.replace, if_pos hheld, replaceFirst_eq_filterMap h.nodup]
      rfl
    | remove =>
      rw [Change.after, Query.remove, ← List.filterMap_eq_filter]
      congr 1
      refine List.filterMap_congr fun j _ => ?_
      by_cases hname : j.name = some a <;> simp [Query.alterJoin, Option.guard, update, hname]
  | false =>
    cases c with
    | ensure request =>
      rw [Query.alter_eq_append hheld rfl]
      exact Query.ensure_eq_append_of_not_hasJoin request hheld
    | replace request =>
      rw [Query.alter_eq_append hheld rfl, Change.after, Query.replace, hheld]
      exact Query.ensure_eq_append_of_not_hasJoin request hheld
    | remove =>
      rw [Query.alter_eq_self hheld rfl]
      exact Query.remove_eq_self (Query.hasJoin_eq_false_iff_join?.1 hheld)

/-- Two changes of one alias are the change that makes of each request what the two make of it. -/
theorem after_after (h : q.WellFormed) (a : Alias) (c d e : Change)
    (hupdate : ∀ o, d.update (c.update o) = e.update o)
    (hkeep : ∀ o, e.update o = none ↔ c.update o = none) :
    d.after a (c.after a q) = e.after a q := by
  rw [after_eq_alter (c.wellFormed_after h a), after_eq_alter h, after_eq_alter h,
    Query.alter_alter fun o => (hupdate o) ▸ hkeep o]
  exact congrArg (q.alter a) (funext hupdate)

/-- Changes of two aliases commute when one of the aliases is held. -/
theorem after_comm (h : q.WellFormed) (hab : a ≠ b) (c d : Change)
    (hheld : q.hasJoin a = true ∨ q.hasJoin b = true) :
    d.after b (c.after a q) = c.after a (d.after b q) := by
  rw [after_eq_alter (c.wellFormed_after h a), after_eq_alter (d.wellFormed_after h b),
    after_eq_alter h, after_eq_alter h, Query.alter_comm hab hheld]

/-- Removing the join under an alias commutes with every change of another alias. -/
theorem remove_after (h : q.WellFormed) (hab : a ≠ b) (c : Change) :
    (c.after a q).remove b = c.after a (q.remove b) := by
  have hremove : ∀ {r : Query}, r.WellFormed → r.remove b = r.alter b remove.update :=
    fun hr => after_eq_alter hr remove b
  have hremoved : (q.remove b).WellFormed := remove.wellFormed_after h b
  rw [hremove (c.wellFormed_after h a), after_eq_alter hremoved, after_eq_alter h, hremove h,
    Query.alter_comm_of_none hab.symm rfl]

end Change

namespace Query

variable {q : Query} {a b : Alias}

/-- The registry is a finite map from aliases to requests. Of two requests under one alias the first
that is ensured stays and the last that replaces stays; removing twice is removing once, and
removing what is not held changes nothing. Under two aliases, removing commutes with everything, and
the other operations commute when one of the aliases is held. An operation leaves all that is not
under its alias as it is and in its place; a join that is replaced keeps its binding and its place;
and the counter moves, by one, when an alias that was free is registered. -/
theorem registry_laws (h : q.WellFormed) (hab : a ≠ b) (x y : JoinRequest) (c d : Change) :
    ((q.ensure a x).ensure a y = q.ensure a x
        ∧ (q.replace a x).replace a y = q.replace a y
        ∧ (q.replace a x).ensure a y = q.replace a x
        ∧ (q.ensure a x).replace a y = q.replace a y
        ∧ (q.remove a).remove a = q.remove a
        ∧ (q.hasJoin a = false → q.remove a = q))
      ∧ ((c.after a q).remove b = c.after a (q.remove b)
        ∧ (q.hasJoin a = true ∨ q.hasJoin b = true →
            d.after b (c.after a q) = c.after a (d.after b q)))
      ∧ ((q.ensure a x).request? a = some ((q.request? a).getD x)
        ∧ (q.replace a x).request? a = some x
        ∧ (q.remove a).request? a = none)
      ∧ SameBut a q (c.after a q)
      ∧ (∀ before j after, q.joins = before ++ j :: after → j.name = some a →
          (q.replace a x).joins = before ++ j.answering x :: after)
      ∧ (c.after a q).nextIndex
        = if q.hasJoin a = false ∧ (c.after a q).hasJoin a = true then q.nextIndex + 1
          else q.nextIndex := by
  have hchange : ∀ c : Change, c.after a q = q.alter a c.update := fun c => c.after_eq_alter h a
  have hfound : ∀ c : Change, (c.after a q).request? a = c.update (q.request? a) :=
    fun c => by rw [hchange, request?_alter h]
  refine ⟨⟨?_, ?_, ?_, ?_, ?_, ?_⟩, ⟨c.remove_after h hab, c.after_comm h hab d⟩,
    ⟨hfound (.ensure x), hfound (.replace x), hfound .remove⟩, ?_, ?_, ?_⟩
  · exact Change.after_after h a (.ensure x) (.ensure y) (.ensure x) (fun _ => rfl) fun _ => .rfl
  · exact Change.after_after h a (.replace x) (.replace y) (.replace y) (fun _ => rfl)
      fun _ => by simp [Change.update]
  · exact Change.after_after h a (.replace x) (.ensure y) (.replace x) (fun _ => rfl) fun _ => .rfl
  · exact Change.after_after h a (.ensure x) (.replace y) (.replace y) (fun _ => rfl)
      fun _ => by simp [Change.update]
  · exact Change.after_after h a .remove .remove .remove (fun _ => rfl) fun _ => .rfl
  · exact fun hfree => remove_eq_self (hasJoin_eq_false_iff_join?.1 hfree)
  · rw [hchange]
    exact sameBut_alter q a c.update
  · intro before j after hsplit hname
    have hreplace : q.replace a x = q.alter a (Change.replace x).update := hchange (.replace x)
    rw [hreplace, joins_alter_of_split h hsplit hname]
    rfl
  · rw [hchange]
    exact nextIndex_alter q a c.update

/-- Comments with an alias, an anonymous join that refers to them, and a gap in the bindings. -/
def partlyNamed : Query :=
  { ofRelation Blog.posts with
    joins := [{ Blog.comparing 1 1 0 with name := some Blog.commentsAlias }, Blog.comparing 3 3 1]
    nextIndex := 5 }

/-- The comments are replaced and the authors are registered, in either order. -/
theorem registry_laws_partlyNamed :
    partlyNamed.WellFormed ∧ Blog.commentsAlias ≠ Blog.authorAlias
      ∧ partlyNamed.hasJoin Blog.commentsAlias = true
      ∧ partlyNamed.hasJoin Blog.authorAlias = false
      ∧ (partlyNamed.ensure Blog.commentsAlias (Blog.commentsRequest 1)).replace Blog.commentsAlias
          (Blog.commentsRequest 3) = partlyNamed.replace Blog.commentsAlias (Blog.commentsRequest 3)
      ∧ (partlyNamed.replace Blog.commentsAlias (Blog.commentsRequest 3)).ensure Blog.authorAlias
          (Blog.commentsRequest 5)
        = (partlyNamed.ensure Blog.authorAlias (Blog.commentsRequest 5)).replace Blog.commentsAlias
            (Blog.commentsRequest 3)
      ∧ SameBut Blog.commentsAlias partlyNamed
          (partlyNamed.replace Blog.commentsAlias (Blog.commentsRequest 3)) := by
  have h : partlyNamed.WellFormed := wellFormed_of_check rfl
  have hne : Blog.commentsAlias ≠ Blog.authorAlias := by decide
  obtain ⟨⟨-, -, -, hlast, -⟩, ⟨-, hcomm⟩, -, hsame, -⟩ :=
    registry_laws h hne (Blog.commentsRequest 1) (Blog.commentsRequest 3)
      (.replace (Blog.commentsRequest 3)) (.ensure (Blog.commentsRequest 5))
  exact ⟨h, hne, rfl, rfl, hlast, hcomm (.inl rfl), hsame⟩

end Query

end JoinGraph

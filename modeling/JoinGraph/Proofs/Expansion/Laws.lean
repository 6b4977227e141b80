import JoinGraph.Proofs.Expansion.Visits

/-!
# Equations Between Specifications

Many specifications can be written in more than one way: sequences within sequences can be
flattened, leads can be put together, and a lead of siblings can be given to each of them. Such
specifications have the same association nodes, in the same order and with the same leads and
parents, and they stand for the same trees (`Spec.Alike`), so by `Query.expand_eq_visits` they are
expanded alike: to equal queries, or to equal errors but for the place that the error points at.

The main result `Query.expand_laws` lists the equations (`Spec.Law`), which hold anywhere in a
specification, and says that to expand siblings is to expand one after the other.

## Main definitions

* `QueryError.Agree` — two results are equal but for the places of errors.
* `Spec.Context` — a specification with a hole.
* `Spec.Law` — the equations.
-/

namespace JoinGraph

/-! ### Errors without places -/

/-- An error without the place that it points at. -/
def QueryError.unplaced : QueryError → QueryError
  | .invalidSpecification _ fault => .invalidSpecification [] fault
  | error => error

/-- Both results are the same value, or both are errors that differ at most in the places they point
at. -/
inductive QueryError.Agree {α : Type} : Except QueryError α → Except QueryError α → Prop
  | ok (a : α) : Agree (.ok a) (.ok a)
  | error {x y : QueryError} (h : x.unplaced = y.unplaced) : Agree (.error x) (.error y)

namespace QueryError.Agree

variable {α β : Type} {x y z : Except QueryError α}

theorem refl (x : Except QueryError α) : Agree x x := by
  cases x with
  | ok a => exact .ok a
  | error error => exact .error rfl

theorem symm (h : Agree x y) : Agree y x := by
  cases h with
  | ok a => exact .ok a
  | error h => exact .error h.symm

theorem trans (h : Agree x y) (h' : Agree y z) : Agree x z := by
  cases h with
  | ok a => exact h'
  | error h =>
    cases h' with
    | error h' => exact .error (h.trans h')

/-- Results that agree are continued to results that agree. -/
theorem bind {f g : α → Except QueryError β} (h : Agree x y) (hfg : ∀ a, Agree (f a) (g a)) :
    Agree (x >>= f) (y >>= g) := by
  cases h with
  | ok a => exact hfg a
  | error h => exact .error h

theorem map (h : Agree x y) (f : α → β) : Agree (x.map f) (y.map f) := by
  cases h with
  | ok a => exact .ok (f a)
  | error h => exact .error h

end QueryError.Agree

/-- The same node without its place. -/
def Visit.unplaced (v : Visit) : Visit := { v with place := [] }

@[simp] theorem QueryError.unplaced_within (outer : SpecPlace) (error : QueryError) :
    (error.within outer).unplaced = error.unplaced := by
  cases error <;> rfl

@[simp] theorem Visit.unplaced_within (outer : SpecPlace) (v : Visit) :
    (v.within outer).unplaced = v.unplaced := rfl

theorem Visit.within_unplaced (v : Visit) : v.unplaced.within v.place = v := rfl

/-- An error that is moved to another place is the same error but for its place. -/
theorem QueryError.agree_mapError_within {α : Type} (x : Except QueryError α) (outer : SpecPlace) :
    Agree (x.mapError (QueryError.within outer)) x := by
  cases x with
  | ok a => exact .ok a
  | error error => exact .error (unplaced_within outer error)

theorem map_unplaced_map_within (outer : SpecPlace) (vs : List Visit) :
    (vs.map (Visit.within outer)).map Visit.unplaced = vs.map Visit.unplaced := by
  simp [Function.comp_def]

namespace Spec

/-! ### Specifications that are expanded alike -/

/-- The two specifications have the same association nodes but for their places, and stand for the
same trees. -/
structure Alike (s t : Spec) : Prop where
  visits : ∀ around lead, (s.visitsBelow around lead).map Visit.unplaced
    = (t.visitsBelow around lead).map Visit.unplaced
  forest : ∀ lead, s.forestBelow lead = t.forestBelow lead

variable {s t : Spec}

/-- The places aside, the nodes of siblings are the nodes of each of them. -/
private theorem map_unplaced_itemVisitsBelow (around : Option String) (lead : String) (index : Nat)
    (items : List Spec) :
    (itemVisitsBelow around lead index items).map Visit.unplaced
      = items.flatMap fun item => (item.visitsBelow around lead).map Visit.unplaced := by
  induction items generalizing index with
  | nil => rfl
  | cons item rest ih =>
    rw [itemVisitsBelow, List.map_append, map_unplaced_map_within, ih, List.flatMap_cons]

theorem map_unplaced_visitsBelow_seq (around : Option String) (lead : String) (items : List Spec) :
    ((seq items).visitsBelow around lead).map Visit.unplaced
      = items.flatMap fun item => (item.visitsBelow around lead).map Visit.unplaced := by
  rw [visitsBelow, map_unplaced_itemVisitsBelow]

theorem map_unplaced_visitsBelow_nested (around : Option String) (lead name : String) (sub : Spec) :
    ((nested name sub).visitsBelow around lead).map Visit.unplaced
      = ⟨around, lead, name, []⟩
        :: (sub.visitsBelow (some (lead ++ name)) lead).map Visit.unplaced := by
  rw [visitsBelow, List.map_cons, map_unplaced_map_within]
  rfl

theorem map_unplaced_visitsBelow_prefixed (around : Option String) (lead extra : String)
    (sub : Spec) :
    ((prefixed extra sub).visitsBelow around lead).map Visit.unplaced
      = (sub.visitsBelow around (lead ++ extra)).map Visit.unplaced := by
  rw [visitsBelow, map_unplaced_map_within]

private theorem itemForestsBelow_eq_flatMap (lead : String) (items : List Spec) :
    itemForestsBelow lead items = items.flatMap (forestBelow lead) := by
  induction items with
  | nil => rfl
  | cons item rest ih => rw [itemForestsBelow, ih, List.flatMap_cons]

theorem forestBelow_seq (lead : String) (items : List Spec) :
    (seq items).forestBelow lead = items.flatMap (forestBelow lead) := by
  rw [forestBelow, itemForestsBelow_eq_flatMap]

/-- A specification with a hole. -/
inductive Context where
  | hole
  /-- The hole is in one of several siblings. -/
  | item (before : List Spec) (inner : Context) (after : List Spec)
  | nested (name : String) (inner : Context)
  | prefixed (lead : String) (inner : Context)

/-- The specification with something in place of the hole. -/
def Context.fill (s : Spec) : Context → Spec
  | hole => s
  | item before inner after => .seq (before ++ inner.fill s :: after)
  | nested name inner => .nested name (inner.fill s)
  | prefixed lead inner => .prefixed lead (inner.fill s)

/-- What is alike is alike in any place of a larger specification. -/
theorem Alike.fill (h : s.Alike t) (context : Context) :
    (context.fill s).Alike (context.fill t) := by
  induction context with
  | hole => exact h
  | item before inner after ih =>
    refine ⟨fun around lead => ?_, fun lead => ?_⟩
    · simp only [Context.fill, map_unplaced_visitsBelow_seq, List.flatMap_append,
        List.flatMap_cons, ih.visits]
    · simp only [Context.fill, forestBelow_seq, List.flatMap_append, List.flatMap_cons, ih.forest]
  | nested name inner ih =>
    refine ⟨fun around lead => ?_, fun lead => ?_⟩
    · simp only [Context.fill, map_unplaced_visitsBelow_nested, ih.visits]
    · simp only [Context.fill, forestBelow, ih.forest]
  | prefixed lead inner ih =>
    refine ⟨fun around outer => ?_, fun outer => ?_⟩
    · simp only [Context.fill, map_unplaced_visitsBelow_prefixed, ih.visits]
    · simp only [Context.fill, forestBelow, ih.forest]

/-! ### The equations -/

mutual

/-- The siblings that a specification stands for: the items of sequences, and sequences within them,
are siblings, and anything else is one. -/
def flatten : Spec → List Spec
  | seq items => flattenItems items
  | spec => [spec]

def flattenItems : List Spec → List Spec
  | [] => []
  | item :: rest => item.flatten ++ flattenItems rest

end

/-- What two specifications have in common that are expanded alike. -/
inductive Law : Spec → Spec → Prop
  /-- The items of a sequence within a sequence are items of the outer one. -/
  | splice (before inner after : List Spec) :
    Law (seq (before ++ seq inner :: after)) (seq (before ++ inner ++ after))
  /-- The same, at any depth and all at once. -/
  | flatten (items : List Spec) : Law (seq items) (seq (flattenItems items))
  /-- A sequence of one item is the item. -/
  | single (s : Spec) : Law (seq [s]) s
  /-- An association with nothing beneath it is the association. -/
  | bare (name : String) : Law (nested name (seq [])) (relation name)
  /-- Leads add up. -/
  | leads (outer inner : String) (s : Spec) :
    Law (prefixed outer (prefixed inner s)) (prefixed (outer ++ inner) s)
  | noLead (s : Spec) : Law (prefixed "" s) s
  /-- A lead of siblings is a lead of each. -/
  | distribute (lead : String) (items : List Spec) :
    Law (prefixed lead (seq items)) (seq (items.map (prefixed lead)))

mutual

/-- What is collected item by item is collected from the flattened items. -/
theorem flatMap_flatten {α : Type} {f : Spec → List α}
    (hf : ∀ items, f (seq items) = items.flatMap f) :
    ∀ s : Spec, s.flatten.flatMap f = f s
  | relation _ | nested _ _ | prefixed _ _ => by rw [flatten, List.flatMap_singleton]; simp
  | seq items => by rw [flatten, hf, flatMap_flattenItems hf items]

theorem flatMap_flattenItems {α : Type} {f : Spec → List α}
    (hf : ∀ items, f (seq items) = items.flatMap f) :
    ∀ items : List Spec, (flattenItems items).flatMap f = items.flatMap f
  | [] => rfl
  | item :: rest => by
    rw [flattenItems, List.flatMap_append, flatMap_flatten hf item, flatMap_flattenItems hf rest,
      List.flatMap_cons]

end

/-- Specifications that are equal by a law are expanded alike. -/
theorem Law.alike (h : Law s t) : s.Alike t := by
  cases h with
  | splice before inner after =>
    refine ⟨fun around lead => ?_, fun lead => ?_⟩
    · simp [map_unplaced_visitsBelow_seq]
    · simp [forestBelow_seq]
  | flatten items =>
    -- Nodes and trees of a sequence are collected item by item.
    refine ⟨fun around lead => ?_, fun lead => ?_⟩
    · simp only [map_unplaced_visitsBelow_seq]
      exact (flatMap_flattenItems (map_unplaced_visitsBelow_seq around lead) items).symm
    · simp only [forestBelow_seq]
      exact (flatMap_flattenItems (forestBelow_seq lead) items).symm
  | single s =>
    refine ⟨fun around lead => ?_, fun lead => ?_⟩
    · rw [map_unplaced_visitsBelow_seq, List.flatMap_singleton]
    · rw [forestBelow_seq, List.flatMap_singleton]
  | bare name => exact ⟨fun around lead => rfl, fun lead => rfl⟩
  | leads outer inner s =>
    refine ⟨fun around lead => ?_, fun lead => ?_⟩
    · simp only [map_unplaced_visitsBelow_prefixed, String.append_assoc]
    · simp only [forestBelow, String.append_assoc]
  | noLead s =>
    refine ⟨fun around lead => ?_, fun lead => ?_⟩
    · rw [map_unplaced_visitsBelow_prefixed, String.append_empty]
    · rw [forestBelow, String.append_empty]
  | distribute lead items =>
    refine ⟨fun around outer => ?_, fun outer => ?_⟩
    · simp only [map_unplaced_visitsBelow_seq, map_unplaced_visitsBelow_prefixed, List.flatMap_map]
    · rw [forestBelow_seq, List.flatMap_map, forestBelow, forestBelow_seq]
      simp only [forestBelow]

end Spec

namespace Query

variable {e : Expander} {q : Query} {s t : Spec}

/-- Nodes that differ in their places only fail alike. -/
theorem agree_visit_unplaced (q : Query) (v : Visit) :
    QueryError.Agree (q.visit e v) (q.visit e v.unplaced) := by
  have hplace := visit_within (e := e) q v.unplaced v.place
  rw [Visit.within_unplaced] at hplace
  rw [hplace]
  exact QueryError.agree_mapError_within _ _

theorem agree_foldlM_unplaced (q : Query) (vs : List Visit) :
    QueryError.Agree (vs.foldlM (visit e) q) ((vs.map Visit.unplaced).foldlM (visit e) q) := by
  induction vs generalizing q with
  | nil => exact .refl _
  | cons v vs ih =>
    rw [List.map_cons, List.foldlM_cons, List.foldlM_cons]
    exact (agree_visit_unplaced q v).bind ih

/-- Specifications that are alike are expanded alike. -/
theorem agree_expand_of_alike (h : s.Alike t) :
    QueryError.Agree (q.expand e s) (q.expand e t) := by
  have hforest : s.forest = t.forest := h.forest ""
  have hvisits : s.visits.map Visit.unplaced = t.visits.map Visit.unplaced := h.visits none ""
  rw [expand_eq_visits, expand_eq_visits, hforest]
  refine QueryError.Agree.map ?_ _
  refine (agree_foldlM_unplaced q s.visits).trans ?_
  rw [hvisits]
  exact (agree_foldlM_unplaced q t.visits).symm

/-! ### Siblings one after the other -/

theorem ensure_with_preloads (q : Query) (a : Alias) (request : JoinRequest)
    (preloads : List PreloadTree) :
    ({ q with preloads := preloads } : Query).ensure a request
      = { q.ensure a request with preloads := preloads } := by
  have hheld : ({ q with preloads := preloads } : Query).hasJoin a = q.hasJoin a := rfl
  rw [ensure, ensure, hheld]
  cases q.hasJoin a <;> rfl

/-- A node is expanded whatever the preloads are. -/
theorem visit_with_preloads (q : Query) (v : Visit) (preloads : List PreloadTree) :
    ({ q with preloads := preloads } : Query).visit e v
      = (q.visit e v).map fun r => { r with preloads := preloads } := by
  have haround : ({ q with preloads := preloads } : Query).parent? v.around = q.parent? v.around :=
    rfl
  cases hparent : q.parent? v.around with
  | none =>
    rw [visit, visit, haround, hparent]
    rfl
  | some parent =>
    rw [visit_eq hparent, visit_eq (haround.trans hparent)]
    have hjoin : ({ q with preloads := preloads } : Query).associationJoin e
        ⟨parent, v.lead, v.place⟩ v.name = q.associationJoin e ⟨parent, v.lead, v.place⟩ v.name :=
      rfl
    rw [hjoin]
    cases q.associationJoin e ⟨parent, v.lead, v.place⟩ v.name with
    | error error => rfl
    | ok join => exact congrArg Except.ok (ensure_with_preloads q join.name join.request preloads)

theorem foldlM_visit_with_preloads (q : Query) (vs : List Visit) (preloads : List PreloadTree) :
    vs.foldlM (visit e) { q with preloads := preloads }
      = (vs.foldlM (visit e) q).map fun r => { r with preloads := preloads } := by
  induction vs generalizing q with
  | nil => rfl
  | cons v vs ih =>
    rw [List.foldlM_cons, List.foldlM_cons, visit_with_preloads]
    cases q.visit e v with
    | error error => rfl
    | ok r => exact ih r

/-- To expand siblings is to expand one after the other, each at its place among them. -/
theorem expand_siblings (q : Query) (items : List Spec) (index : Nat) :
    ((Spec.itemVisitsBelow none "" index items).foldlM (visit e) q).map (fun r =>
        { r with preloads := PreloadTree.merge q.preloads (Spec.itemForestsBelow "" items) })
      = (items.zipIdx index).foldlM (fun r item =>
          (r.expand e item.1).mapError (QueryError.within [.item item.2])) q := by
  induction items generalizing q index with
  | nil =>
    cases q
    rfl
  | cons item rest ih =>
    rw [Spec.itemVisitsBelow, Spec.itemForestsBelow, List.zipIdx_cons, List.foldlM_append,
      List.foldlM_cons, foldlM_visit_within, expand_eq_visits, Spec.visits]
    cases (item.visitsBelow none "").foldlM (visit e) q with
    | error error => rfl
    | ok r =>
      -- The others start with the trees of the first item in the preloads.
      have hrest := ih { r with preloads := PreloadTree.merge q.preloads item.forest } (index + 1)
      rw [foldlM_visit_with_preloads] at hrest
      rw [PreloadTree.merge_append]
      refine Eq.trans ?_ hrest
      change ((Spec.itemVisitsBelow none "" (index + 1) rest).foldlM (visit e) r).map _ = _
      cases (Spec.itemVisitsBelow none "" (index + 1) rest).foldlM (visit e) r <;> rfl

/-- To expand siblings as separate specifications changes at most the place of an error. -/
theorem agree_foldlM_expand (q : Query) (items : List Spec) (index : Nat) :
    QueryError.Agree
      ((items.zipIdx index).foldlM (fun r item =>
        (r.expand e item.1).mapError (QueryError.within [.item item.2])) q)
      (items.foldlM (fun r item => r.expand e item) q) := by
  induction items generalizing q index with
  | nil => exact .refl _
  | cons item rest ih =>
    rw [List.zipIdx_cons, List.foldlM_cons, List.foldlM_cons]
    exact (QueryError.agree_mapError_within _ _).bind fun r => ih r (index + 1)

theorem expand_seq (q : Query) (items : List Spec) :
    q.expand e (.seq items) = items.zipIdx.foldlM (fun r item =>
      (r.expand e item.1).mapError (QueryError.within [.item item.2])) q := by
  rw [← expand_siblings, expand_eq_visits]
  rfl

/-- Specifications that are equal by a law, in any place of a larger specification, are expanded to
equal queries or fail with equal errors, but for the place of the error. To expand siblings is to
expand one after the other until one fails, and an error then points into the sibling at its
position; to expand none is to change nothing. -/
theorem expand_laws (e : Expander) (q : Query) :
    (∀ (context : Spec.Context) (s t : Spec), s.Law t →
        QueryError.Agree (q.expand e (context.fill s)) (q.expand e (context.fill t)))
      ∧ (∀ items, QueryError.Agree (q.expand e (.seq items))
          (items.foldlM (fun r item => r.expand e item) q))
      ∧ (∀ items, q.expand e (.seq items) = items.zipIdx.foldlM (fun r item =>
          (r.expand e item.1).mapError (QueryError.within [.item item.2])) q)
      ∧ q.expand e (.seq []) = .ok q := by
  refine ⟨fun context s t hlaw => ?_, fun items => ?_, expand_seq q, expand_seq q []⟩
  · exact agree_expand_of_alike (hlaw.alike.fill context)
  · rw [expand_seq]
    exact agree_foldlM_expand q items 0

end Query

end JoinGraph

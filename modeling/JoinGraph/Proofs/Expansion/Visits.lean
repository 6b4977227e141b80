import JoinGraph.Proofs.Expansion

/-!
# Expansion Node by Node

A specification is a tree, but what its expansion does to a query is a matter of its association
nodes and their order alone. `Spec.visits` lists these nodes in preorder, each with what it takes to
expand it, and `Query.visit` expands one of them in a query. The expansion of a specification is the
walk along this list: every node is expanded in the query that the nodes before it have left, and
the first one that fails ends the walk (`expand_eq_visits`).

The place of a node shows in errors only: to walk along the nodes of a part of a specification is to
walk along the part on its own, but for the places in the error (`foldlM_visit_within`). As messages
show them, the places are the ways down to the nodes (`Spec.map_text_visits`).

## Main definitions

* `Visit` — an association node with what it takes to expand it.
* `Spec.visits` — the association nodes of a specification, in preorder.
* `Spec.paths` — the texts of their places.
* `Query.visit` — the expansion of one node.
-/

namespace JoinGraph

/-- An error in a part of a specification that stands at a place. -/
def QueryError.within (outer : SpecPlace) : QueryError → QueryError
  | .invalidSpecification place fault => .invalidSpecification (place ++ outer) fault
  | error => error

/-- An association node of a specification, with what it takes to expand it. -/
structure Visit where
  /-- The alias of the association node around it, if there is one. -/
  around : Option String
  /-- What goes in front of its alias. -/
  lead : String
  /-- The association that it names. -/
  name : String
  /-- Its place in the specification. -/
  place : SpecPlace

/-- The same node in a part of a specification that stands at a place. -/
def Visit.within (outer : SpecPlace) (v : Visit) : Visit := { v with place := v.place ++ outer }

theorem Visit.within_nil : Visit.within [] = id := by
  funext v
  simp [Visit.within]

namespace Spec

mutual

/-- The association nodes of a specification below a lead, in preorder. -/
def visitsBelow (around : Option String) (lead : String) : Spec → List Visit
  | relation name => [⟨around, lead, name, []⟩]
  | seq items => itemVisitsBelow around lead 0 items
  | nested name sub =>
    ⟨around, lead, name, []⟩
      :: (sub.visitsBelow (some (lead ++ name)) lead).map (Visit.within [.under name])
  | prefixed extra sub => (sub.visitsBelow around (lead ++ extra)).map (Visit.within [.spec])

/-- The association nodes of siblings that are numbered from `index`. -/
def itemVisitsBelow (around : Option String) (lead : String) (index : Nat) :
    List Spec → List Visit
  | [] => []
  | item :: rest =>
    (item.visitsBelow around lead).map (Visit.within [.item index])
      ++ itemVisitsBelow around lead (index + 1) rest

end

/-- The association nodes of a specification, in preorder. -/
def visits (spec : Spec) : List Visit := spec.visitsBelow none ""

mutual

/-- The places of the association nodes of a specification that stands at a place shown as `path`,
in preorder and as messages show them. -/
def pathsBelow (path : String) : Spec → List String
  | relation _ => [path]
  | seq items => itemPathsBelow path 0 items
  | nested name sub => path :: sub.pathsBelow (path ++ "." ++ name)
  | prefixed _ sub => sub.pathsBelow (path ++ ".spec")

/-- The places of the association nodes of siblings that are numbered from `index`. -/
def itemPathsBelow (path : String) (index : Nat) : List Spec → List String
  | [] => []
  | item :: rest =>
    item.pathsBelow (path ++ "[" ++ toString index ++ "]") ++ itemPathsBelow path (index + 1) rest

end

/-- The places of the association nodes of a specification, in preorder and as messages show
them. -/
def paths (spec : Spec) : List String := spec.pathsBelow "$"

/-- What a part of a specification shows of a place, when the part stands at another place. -/
theorem map_text_within (vs : List Visit) (inner outer : SpecPlace) :
    (vs.map (Visit.within inner)).map (fun v => SpecPlace.text (v.place ++ outer))
      = vs.map fun v => SpecPlace.text (v.place ++ (inner ++ outer)) := by
  simp [Visit.within]

mutual

theorem map_text_visitsBelow (around : Option String) (lead : String) (outer : SpecPlace) :
    ∀ spec : Spec, (spec.visitsBelow around lead).map (fun v => SpecPlace.text (v.place ++ outer))
      = spec.pathsBelow outer.text
  | relation name => by
    rw [visitsBelow, pathsBelow]
    rfl
  | seq items => by
    rw [visitsBelow, pathsBelow]
    exact map_text_itemVisitsBelow around lead outer 0 items
  | nested name sub => by
    rw [visitsBelow, pathsBelow, List.map_cons, map_text_within, map_text_visitsBelow,
      List.singleton_append, SpecPlace.text_cons, String.append_assoc]
    rfl
  | prefixed extra sub => by
    rw [visitsBelow, pathsBelow, map_text_within, map_text_visitsBelow, List.singleton_append,
      SpecPlace.text_cons]
    rfl

theorem map_text_itemVisitsBelow (around : Option String) (lead : String) (outer : SpecPlace)
    (index : Nat) : ∀ items : List Spec,
      (itemVisitsBelow around lead index items).map (fun v => SpecPlace.text (v.place ++ outer))
        = itemPathsBelow outer.text index items
  | [] => rfl
  | item :: rest => by
    have hpath : SpecPlace.text ([.item index] ++ outer)
        = outer.text ++ "[" ++ toString index ++ "]" := by
      simp only [List.singleton_append, SpecPlace.text_cons, SpecStep.text, String.append_assoc]
    rw [itemVisitsBelow, itemPathsBelow, List.map_append, map_text_within, map_text_visitsBelow,
      map_text_itemVisitsBelow, hpath]

end

/-- The places of the nodes, as messages show them. -/
theorem map_text_visits (spec : Spec) : spec.visits.map (fun v => v.place.text) = spec.paths := by
  rw [visits, paths, ← SpecPlace.text_nil, ← map_text_visitsBelow none ""]
  simp only [List.append_nil]

end Spec

namespace Query

/-- The binding that holds the alias around a node. Without an alias around it that is the root. -/
def parent? (q : Query) : Option String → Option Binding
  | none => some Binding.root
  | some text => (q.joins.find? fun j => decide (j.name.map (·.text) = some text)).map (·.index)

/-- Expand one node: register the join of its association. A node whose parent is missing registers
nothing. -/
def visit (e : Expander) (q : Query) (v : Visit) : Except QueryError Query :=
  match q.parent? v.around with
  | none => .ok q
  | some parent =>
    (q.associationJoin e ⟨parent, v.lead, v.place⟩ v.name).map fun join =>
      q.ensure join.name join.request

variable {e : Expander} {q r : Query} {v : Visit} {parent : Binding} {name : String}
  {join : AssociationJoin}

/-! ### Parents -/

theorem parent?_text (q : Query) (a : Alias) : q.parent? (some a.text) = q.binding? a := by
  rw [parent?, binding?, join?]
  congr 2
  funext j
  refine decide_eq_decide.2 ?_
  cases j.name with
  | none => simp
  | some b => simp [Alias.ext_iff]

/-- An alias has a parent when a join holds it. -/
theorem exists_binding?_of_parent? {text : String} (h : q.parent? (some text) = some parent) :
    ∃ a : Alias, a.text = text ∧ q.binding? a = some parent := by
  have hfound := h
  rw [parent?] at hfound
  obtain ⟨j, hj, -⟩ := Option.map_eq_some_iff.1 hfound
  have hname : j.name.map (·.text) = some text := by simpa using List.find?_some hj
  obtain ⟨a, -, rfl⟩ := Option.map_eq_some_iff.1 hname
  exact ⟨a, rfl, by rw [← parent?_text, h]⟩

/-- A parent stays the parent in a query that has more to look up. -/
theorem Extends.parent? (h : q.Extends r) {around : Option String}
    (hparent : q.parent? around = some parent) : r.parent? around = some parent := by
  cases around with
  | none => exact hparent
  | some text =>
    obtain ⟨a, rfl, ha⟩ := exists_binding?_of_parent? hparent
    obtain ⟨j, hj, hindex⟩ := Option.map_eq_some_iff.1 ha
    rw [parent?_text, binding?, h.join a j hj, Option.map_some, hindex]

/-- Behind a parent there is a source. -/
theorem exists_source?_of_parent? {around : Option String}
    (hparent : q.parent? around = some parent) : ∃ source, q.source? parent = some source := by
  cases around with
  | none =>
    obtain rfl := Option.some.inj hparent
    exact ⟨q.source, source?_root q⟩
  | some text =>
    obtain ⟨a, -, ha⟩ := exists_binding?_of_parent? hparent
    obtain ⟨j, hj, rfl⟩ := Option.map_eq_some_iff.1 ha
    rw [source?]
    split
    · exact ⟨_, rfl⟩
    · -- The join itself has the binding, so some join with the binding is found.
      have hfound : (q.joinAt? j.index).isSome = true :=
        List.find?_isSome.2 ⟨j, (mem_joins_of_join? hj).1, decide_eq_true rfl⟩
      obtain ⟨k, hk⟩ := Option.isSome_iff_exists.1 hfound
      exact ⟨k.source, by rw [hk, Option.map_some]⟩

/-! ### Walks -/

theorem visit_eq (h : q.parent? v.around = some parent) :
    q.visit e v = (q.associationJoin e ⟨parent, v.lead, v.place⟩ v.name).map fun join =>
      q.ensure join.name join.request := by
  rw [visit, h]

/-- A node whose parent is there succeeds by registering the join of its association. -/
theorem exists_join_of_visit (hparent : q.parent? v.around = some parent)
    (h : q.visit e v = .ok r) :
    ∃ join, q.associationJoin e ⟨parent, v.lead, v.place⟩ v.name = .ok join
      ∧ q.ensure join.name join.request = r := by
  rw [visit_eq hparent] at h
  cases hjoin : q.associationJoin e ⟨parent, v.lead, v.place⟩ v.name with
  | error error =>
    rw [hjoin] at h
    cases h
  | ok join =>
    rw [hjoin] at h
    exact ⟨join, rfl, Except.ok.inj h⟩

theorem extends_of_visit (h : q.visit e v = .ok r) : q.Extends r := by
  cases hparent : q.parent? v.around with
  | none =>
    rw [visit, hparent] at h
    obtain rfl := Except.ok.inj h
    exact .refl q
  | some parent =>
    obtain ⟨join, -, rfl⟩ := exists_join_of_visit hparent h
    exact extends_ensure _ _ _

/-- The place of a node matters only for the error that the node fails with. -/
theorem associationJoin_within (q : Query) (site : ExpansionSite) (name : String)
    (outer : SpecPlace) :
    q.associationJoin e { site with place := site.place ++ outer } name
      = (q.associationJoin e site name).mapError (QueryError.within outer) := by
  rw [associationJoin, associationJoin]
  by_cases hname : name = ""
  · rw [dif_pos hname, dif_pos hname]
    rfl
  · rw [dif_neg hname, dif_neg hname]
    dsimp only
    cases (q.source? site.parent).bind Source.relation? with
    | none => rfl
    | some relation =>
      dsimp only
      cases e.provider relation name <;> rfl

theorem visit_within (q : Query) (v : Visit) (outer : SpecPlace) :
    q.visit e (v.within outer) = (q.visit e v).mapError (QueryError.within outer) := by
  have haround : q.parent? (v.within outer).around = q.parent? v.around := rfl
  cases hparent : q.parent? v.around with
  | none =>
    rw [visit, visit, haround, hparent]
    rfl
  | some parent =>
    have hplace := associationJoin_within (e := e) q ⟨parent, v.lead, v.place⟩ v.name outer
    rw [visit_eq hparent, visit_eq (haround.trans hparent)]
    refine (congrArg _ hplace).trans ?_
    cases q.associationJoin e ⟨parent, v.lead, v.place⟩ v.name <;> rfl

theorem foldlM_visit_within (q : Query) (vs : List Visit) (outer : SpecPlace) :
    (vs.map (Visit.within outer)).foldlM (visit e) q
      = (vs.foldlM (visit e) q).mapError (QueryError.within outer) := by
  induction vs generalizing q with
  | nil => rfl
  | cons v vs ih =>
    rw [List.map_cons, List.foldlM_cons, List.foldlM_cons, visit_within]
    cases q.visit e v with
    | error error => rfl
    | ok r => exact ih r

/-- A walk never loses what can be looked up. -/
theorem extends_of_foldlM_visit {vs : List Visit} (h : vs.foldlM (visit e) q = .ok r) :
    q.Extends r := by
  induction vs generalizing q with
  | nil =>
    obtain rfl := Except.ok.inj h
    exact .refl q
  | cons v vs ih =>
    rw [List.foldlM_cons] at h
    cases hv : q.visit e v with
    | error error => rw [hv] at h; cases h
    | ok s =>
      rw [hv] at h
      exact (extends_of_visit hv).trans (ih h)

theorem map_within_map_within (inner outer : SpecPlace) (vs : List Visit) :
    (vs.map (Visit.within inner)).map (Visit.within outer)
      = vs.map (Visit.within (inner ++ outer)) := by
  simp [Visit.within, Function.comp_def]

/-- The alias of a node is the parent of what is nested under it, once its join is registered. -/
theorem parent?_ensure_associationJoin {site : ExpansionSite}
    (h : q.associationJoin e site name = .ok join) :
    (q.ensure join.name join.request).parent? (some (site.lead ++ name)) = some join.index := by
  obtain ⟨_, _, _, _, -, -, -, halias, -⟩ := associationJoin_eq_ok_iff.1 h
  have htext : join.name.text = site.lead ++ name := by rw [halias, Alias.text_below]
  rw [← htext, parent?_text, binding?_ensure_associationJoin h]

mutual

/-- To expand a node of a specification is to walk along the association nodes below it. -/
theorem map_fst_expandNode : ∀ (spec : Spec) (q : Query) (site : ExpansionSite)
    {around : Option String}, q.parent? around = some site.parent →
    (q.expandNode e site spec).map Prod.fst
      = ((spec.visitsBelow around site.lead).map (Visit.within site.place)).foldlM (visit e) q
  | .relation name, q, site, around, h => by
    rw [expandNode, Spec.visitsBelow, List.map_singleton, List.foldlM_cons, visit_eq h]
    change _ = (q.associationJoin e site name).map _ >>= _
    cases q.associationJoin e site name <;> rfl
  | .seq items, q, site, around, h => by
    rw [expandNode, Spec.visitsBelow, map_fst_expandItems items q site 0 h]
  | .nested name sub, q, site, around, h => by
    rw [expandNode, Spec.visitsBelow, List.map_cons, List.foldlM_cons, visit_eq h,
      map_within_map_within]
    change _ = (q.associationJoin e site name).map _ >>= _
    cases hjoin : q.associationJoin e site name with
    | error error => rfl
    | ok join =>
      -- The rest of the walk starts with the join of the node, which is the new parent.
      have hsub := map_fst_expandNode sub (q.ensure join.name join.request)
        { site.down (.under name) with parent := join.index } (parent?_ensure_associationJoin hjoin)
      refine Eq.trans ?_ hsub
      dsimp only
      cases expandNode e (q.ensure join.name join.request)
        { site.down (.under name) with parent := join.index } sub <;> rfl
  | .prefixed extra sub, q, site, around, h => by
    rw [expandNode, Spec.visitsBelow, map_within_map_within]
    exact map_fst_expandNode sub q { site.down .spec with lead := site.lead ++ extra } h

/-- To expand siblings is to walk along the association nodes below them. -/
theorem map_fst_expandItems : ∀ (items : List Spec) (q : Query) (site : ExpansionSite)
    (index : Nat) {around : Option String}, q.parent? around = some site.parent →
    (q.expandItems e site index items).map Prod.fst
      = ((Spec.itemVisitsBelow around site.lead index items).map
          (Visit.within site.place)).foldlM (visit e) q
  | [], q, site, index, around, h => by
    rw [expandItems, Spec.itemVisitsBelow]
    rfl
  | item :: rest, q, site, index, around, h => by
    have hitem : (q.expandNode e (site.down (.item index)) item).map Prod.fst
        = ((item.visitsBelow around site.lead).map
            (Visit.within (.item index :: site.place))).foldlM (visit e) q :=
      map_fst_expandNode item q (site.down (.item index)) h
    rw [expandItems, Spec.itemVisitsBelow, List.map_append, List.foldlM_append,
      map_within_map_within, List.singleton_append, ← hitem]
    cases hr : q.expandNode e (site.down (.item index)) item with
    | error error => rfl
    | ok result =>
      obtain ⟨r, trees⟩ := result
      have hrest := map_fst_expandItems rest r site (index + 1) ((expandNode_extends hr).parent? h)
      refine Eq.trans ?_ hrest
      dsimp only
      cases expandItems e r site (index + 1) rest <;> rfl

end

/-- An expansion is the walk along the association nodes of the specification; if none of them
fails, the trees of the specification are merged into the preloads. -/
theorem expand_eq_visits (q : Query) (spec : Spec) :
    q.expand e spec = (spec.visits.foldlM (visit e) q).map fun r =>
      { r with preloads := PreloadTree.merge q.preloads spec.forest } := by
  have hroot : q.parent? none = some ExpansionSite.start.parent := rfl
  have hwalk := map_fst_expandNode (e := e) spec q .start hroot
  rw [show ExpansionSite.start.place = [] from rfl, Visit.within_nil, List.map_id] at hwalk
  rw [Spec.visits, expand]
  refine Eq.trans ?_ (congrArg (Except.map _) hwalk)
  cases hr : q.expandNode e .start spec with
  | error error => rfl
  | ok result =>
    obtain ⟨r, forest⟩ := result
    have hforest : forest = spec.forest := expandNode_forest hr
    have hpreloads : r.preloads = q.preloads := by rw [expandNode_eq_with hr]
    dsimp only [Except.map]
    rw [hforest, hpreloads]

end Query

end JoinGraph

import JoinGraph.Catalog.Load

/-!
# The Closing Check

However a catalog is loaded, the targets of its associations are checked last. Whether the check
lets a catalog through does not depend on the order in which it visits the associations
(`Catalog.validate_eq_ok_iff`), so a catalog that has loaded is closed. Which association an error
names does depend on it: some order names each of those that lead out of the catalog, and no order
names any other (`Catalog.exists_validate_eq_error_iff`).

## Main definitions

* `Catalog.Closed` — every association leads to a relation of the catalog.
* `Catalog.LeadsOut` — the errors that name an association that does not.
* `VisitOrder.startingAt` — an order that visits a given association first.
-/

namespace JoinGraph

/-! ## Orders -/

/-- The items with a property, and then the others. -/
def bringForward {α : Type} (p : α → Bool) (xs : List α) : List α :=
  xs.filter p ++ xs.filter fun x => !p x

theorem bringForward_perm {α : Type} (p : α → Bool) (xs : List α) : (bringForward p xs).Perm xs :=
  List.filter_append_perm p xs

/-- If some item has the property, one that has it comes first. -/
theorem exists_bringForward_eq_cons {α : Type} {p : α → Bool} {xs : List α} {x : α} (hx : x ∈ xs)
    (hp : p x = true) : ∃ y rest, bringForward p xs = y :: rest ∧ p y = true := by
  have hne : xs.filter p ≠ [] := List.ne_nil_of_mem (List.mem_filter.2 ⟨hx, hp⟩)
  obtain ⟨y, rest, hy⟩ := List.exists_cons_of_ne_nil hne
  have hmem : y ∈ xs.filter p := by simp [hy]
  exact ⟨y, rest ++ xs.filter fun x => !p x, by simp [bringForward, hy], (List.mem_filter.1 hmem).2⟩

namespace VisitOrder

@[simp]
theorem mem_relations (order : VisitOrder) {c : Catalog} {r : CatalogRelation} :
    r ∈ order.relations c ↔ r ∈ c.relations :=
  (order.relations_perm c).mem_iff

@[simp]
theorem mem_associations (order : VisitOrder) {r : CatalogRelation} {a : Association} :
    a ∈ order.associations r ↔ a ∈ r.associations :=
  (order.associations_perm r).mem_iff

/-- The order that visits the associations of a given name and target first, and before all others
the relation of a given name that has one. -/
def startingAt (relation : RelationName) (name : String) (related : RelationName) : VisitOrder where
  relations c := bringForward (fun r => decide (r.name = relation)
    && r.associations.any fun a => decide (a.name = name ∧ a.related = related)) c.relations
  associations r :=
    bringForward (fun a => decide (a.name = name ∧ a.related = related)) r.associations
  relations_perm _ := bringForward_perm _ _
  associations_perm _ := bringForward_perm _ _

/-- Of the associations of a relation, one with the name and the target comes first. -/
theorem exists_associations_startingAt {r : CatalogRelation} {a : Association}
    (ha : a ∈ r.associations) (relation : RelationName) :
    ∃ b rest, (startingAt relation a.name a.related).associations r = b :: rest
      ∧ b.name = a.name ∧ b.related = a.related := by
  obtain ⟨b, rest, hfirst, hb⟩ := exists_bringForward_eq_cons
    (p := fun b => decide (b.name = a.name ∧ b.related = a.related)) ha (by simp)
  exact ⟨b, rest, hfirst, of_decide_eq_true hb⟩

/-- Of the relations, one with the name comes first that has such an association. -/
theorem exists_relations_startingAt {c : Catalog} {r : CatalogRelation} {a : Association}
    (hr : r ∈ c.relations) (ha : a ∈ r.associations) :
    ∃ s rest, (startingAt r.name a.name a.related).relations c = s :: rest ∧ s.name = r.name
      ∧ ∃ b ∈ s.associations, b.name = a.name ∧ b.related = a.related := by
  obtain ⟨s, rest, hfirst, hs⟩ := exists_bringForward_eq_cons
    (p := fun s => decide (s.name = r.name)
      && s.associations.any fun b => decide (b.name = a.name ∧ b.related = a.related)) hr
    (by simpa using ⟨a, ha, rfl, rfl⟩)
  refine ⟨s, rest, hfirst, ?_⟩
  simpa using hs

end VisitOrder

namespace Catalog

variable {c d : Catalog} {order : VisitOrder} {relation : RelationName} {name : String}
  {a : Association} {e : LoadError}

/-! ## What the check lets through -/

/-- Every association leads to a relation of the catalog. -/
def Closed (c : Catalog) : Prop :=
  ∀ r ∈ c.relations, ∀ a ∈ r.associations, c.contains a.related = true

theorem firstUnknown?_eq_none_iff (order : VisitOrder) :
    c.firstUnknown? order = none ↔ c.Closed := by
  simp [firstUnknown?, Closed]

/-- The check lets the closed catalogs through, and them alone, in whatever order it goes. -/
theorem validate_eq_ok_iff : c.validate order = .ok d ↔ c.Closed ∧ c = d := by
  rw [← firstUnknown?_eq_none_iff order, validate]
  cases c.firstUnknown? order <;> simp

/-- The catalog has been loaded: from files, from a text, or from declarations that are at hand. -/
inductive Loaded : Catalog → Prop where
  | files {files : FileTree} {paths : List String} {order : VisitOrder} {c : Catalog}
      (h : loadAll files paths order = .ok c) : Loaded c
  | text {text : String} {order : VisitOrder} {c : Catalog} (h : ofText text order = .ok c) :
      Loaded c
  | schema {schema : Schema} {order : VisitOrder} {c : Catalog}
      (h : ofSchema schema order = .ok c) : Loaded c

theorem closed_of_validate (h : d.validate order = .ok c) : c.Closed := by
  obtain ⟨hclosed, rfl⟩ := validate_eq_ok_iff.1 h
  exact hclosed

theorem closed_of_ofSchema {schema : Schema} (h : ofSchema schema order = .ok c) : c.Closed := by
  rw [ofSchema] at h
  split at h
  · cases h
  · exact closed_of_validate h

/-- A catalog that has loaded has passed the check. -/
theorem Loaded.closed (h : c.Loaded) : c.Closed := by
  cases h with
  | files h =>
    rw [loadAll] at h
    split at h
    · cases h
    · exact closed_of_validate h
  | text h =>
    rw [ofText] at h
    split at h
    · cases h
    · exact closed_of_ofSchema h
  | schema h => exact closed_of_ofSchema h

/-- An association that a catalog resolves has the name it was asked for, and a relation declares
it. -/
theorem mem_associations_of_association? (h : c.association? relation name = some a) :
    a.name = name ∧ ∃ r ∈ c.relations, r.name = relation ∧ a ∈ r.associations := by
  rw [association?] at h
  obtain ⟨r, hr, ha⟩ := Option.bind_eq_some_iff.1 h
  have hname : a.name = name := by simpa using List.find?_some ha
  have hrelation : r.name = relation := by simpa using List.find?_some hr
  exact ⟨hname, r, List.mem_of_find?_eq_some hr, hrelation, List.mem_of_find?_eq_some ha⟩

/-- In a catalog that has loaded, associations lead to declared relations. -/
theorem Loaded.contains_related (h : c.Loaded) (ha : c.association? relation name = some a) :
    c.contains a.related = true := by
  obtain ⟨-, r, hr, -, hmem⟩ := mem_associations_of_association? ha
  exact h.closed r hr a hmem

/-! ## What the check reports -/

/-- The error names an association of the catalog that leads to no relation of it. -/
def LeadsOut (c : Catalog) (e : LoadError) : Prop :=
  ∃ r ∈ c.relations, ∃ a ∈ r.associations,
    ¬c.contains a.related = true ∧ e = .unknownRelatedRelation r.name a.name a.related

/-- The association that an error names leads out of the catalog. -/
theorem leadsOut_of_validate (h : c.validate order = .error e) : c.LeadsOut e := by
  rw [validate] at h
  split at h
  · cases h
  · rename_i r a hfirst
    obtain rfl := Except.error.inj h
    obtain ⟨r', hr', hfound⟩ := List.exists_of_findSome?_eq_some hfirst
    obtain ⟨a', hfind, hpair⟩ := Option.map_eq_some_iff.1 hfound
    obtain ⟨rfl, rfl⟩ := Prod.mk.inj hpair
    exact ⟨_, order.mem_relations.1 hr', _,
      order.mem_associations.1 (List.mem_of_find?_eq_some hfind),
      by simpa using List.find?_some hfind, rfl⟩

/-- An association that leads out of the catalog is named by the order that starts at it. -/
theorem validate_startingAt {r : CatalogRelation} (hr : r ∈ c.relations) (ha : a ∈ r.associations)
    (h : ¬c.contains a.related = true) :
    c.validate (.startingAt r.name a.name a.related)
      = .error (.unknownRelatedRelation r.name a.name a.related) := by
  obtain ⟨r₁, relations, hrelations, hname, b, hb, hbname, hbrelated⟩ :=
    VisitOrder.exists_relations_startingAt hr ha
  obtain ⟨a₁, associations, hassociations, haname, harelated⟩ :=
    VisitOrder.exists_associations_startingAt hb r.name
  rw [hbname, hbrelated] at hassociations
  rw [hbname] at haname
  rw [hbrelated] at harelated
  -- The search ends with the first association of the first relation.
  have hfirst : c.firstUnknown? (.startingAt r.name a.name a.related) = some (r₁, a₁) := by
    rw [firstUnknown?, hrelations, List.findSome?_cons, hassociations,
      List.find?_cons_of_pos (by simp [harelated, h])]
    rfl
  rw [validate, hfirst]
  simp only [hname, haname, harelated]

/-- The errors of the check, over all orders, name exactly the associations that lead out of the
catalog. -/
theorem exists_validate_eq_error_iff : (∃ order, c.validate order = .error e) ↔ c.LeadsOut e := by
  refine ⟨fun ⟨order, h⟩ => leadsOut_of_validate h, ?_⟩
  rintro ⟨r, hr, a, ha, h, rfl⟩
  exact ⟨_, validate_startingAt hr ha h⟩

end Catalog

end JoinGraph

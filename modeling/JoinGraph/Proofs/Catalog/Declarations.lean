import JoinGraph.Proofs.Catalog
import JoinGraph.Proofs.Correspondence
import JoinGraph.Proofs.FirstFault
import Mathlib.Data.List.Nodup

/-!
# Declarations and Their Faults

A catalog is filled by two nested loops, one over relations and one over the associations of each.
Both judge a declaration by those before it. `AssociationDecl.Fault` and `RelationDecl.Fault` say
what can be wrong with a declaration, `Denotes` says what becomes of one that is right, and both
loops report the first fault (`Catalog.reportsFirst_addAssociations`,
`Catalog.reportsFirst_addRelations`). The closing check is in no such order: it may name any
association whose target is undeclared (`Catalog.exists_bind_validate_eq_error_iff`).

## Main definitions

* `AssociationDecl.Denotes`, `RelationDecl.Denotes` — what a catalog keeps of a declaration.
* `AssociationDecl.Fault`, `RelationDecl.Fault`, `UndeclaredTarget` — what can be wrong.
* `Catalog.Holds` — a catalog keeps the given declarations and nothing else.
* `Violation` — what adding declarations and closing the catalog can report.
-/

namespace JoinGraph

/-- Among items whose keys are distinct, an item is found by its key. -/
theorem find?_eq_some_iff_of_nodup {α β : Type} [DecidableEq β] {f : α → β} {xs : List α}
    (h : (xs.map f).Nodup) {x : α} {k : β} :
    (xs.find? fun y => decide (f y = k)) = some x ↔ x ∈ xs ∧ f x = k := by
  refine ⟨fun hx => ⟨List.mem_of_find?_eq_some hx, by simpa using List.find?_some hx⟩, ?_⟩
  rintro ⟨hx, rfl⟩
  cases hfound : xs.find? fun y => decide (f y = f x) with
  | none => exact absurd (List.find?_eq_none.1 hfound x hx) (by simp)
  | some y =>
    have hkey : f y = f x := by simpa using List.find?_some hfound
    have hy := List.mem_of_find?_eq_some hfound
    rw [List.inj_on_of_nodup_map h hy hx hkey]

/-! ## Associations -/

namespace AssociationDecl

/-- `a` is what a relation's declaration of an association stands for: keys are as given or have
their default, and only a `belongs_to` has a default on both sides. -/
structure Denotes (owner : RelationName) (d : AssociationDecl) (a : Association) : Prop where
  name : a.name = d.name
  kind : a.kind = d.kind
  owner : a.owner = owner
  related : a.related = d.related
  ownerKey : a.ownerKey
    = d.ownerKey.getD (if d.kind = .belongsTo then d.name ++ "_id" else "id")
  relatedKey : a.relatedKey = d.relatedKey.getD "id"
  key_given : d.kind ≠ .belongsTo → d.relatedKey ≠ none

/-- What is wrong with a declaration that comes after others of the same relation. The key is looked
at before the name. -/
inductive Fault (owner : RelationName) (before : List AssociationDecl) (d : AssociationDecl) :
    LoadError → Prop
  /-- The key is on the other side and is not given. -/
  | missingKey (hkind : d.kind ≠ .belongsTo) (hkey : d.relatedKey = none) :
    Fault owner before d (.missingRelatedKey owner d.name d.kind)
  /-- The relation already has an association of this name. -/
  | repeated (hkey : d.kind ≠ .belongsTo → d.relatedKey ≠ none)
      (hname : d.name ∈ before.map (·.name)) :
    Fault owner before d (.duplicateAssociation owner d.name)

variable {owner : RelationName} {d : AssociationDecl} {a b : Association}

/-- A declaration stands for one association at most. -/
theorem Denotes.unique (ha : d.Denotes owner a) (hb : d.Denotes owner b) : a = b := by
  cases a
  cases b
  simp only [Association.mk.injEq]
  exact ⟨ha.name.trans hb.name.symm, ha.kind.trans hb.kind.symm, ha.owner.trans hb.owner.symm,
    ha.related.trans hb.related.symm, ha.ownerKey.trans hb.ownerKey.symm,
    ha.relatedKey.trans hb.relatedKey.symm⟩

/-- A declaration resolves when its key is given where it has to be. -/
theorem exists_resolve_eq_ok (owner : RelationName)
    (h : d.kind ≠ .belongsTo → d.relatedKey ≠ none) :
    ∃ a, d.resolve owner = .ok a ∧ d.Denotes owner a := by
  obtain ⟨name, kind, related, ownerKey, relatedKey⟩ := d
  cases kind with
  | belongsTo => exact ⟨_, rfl, rfl, rfl, rfl, rfl, rfl, rfl, h⟩
  | hasOne | hasMany =>
    cases relatedKey with
    | none => exact absurd rfl (h (by simp))
    | some key => exact ⟨_, rfl, rfl, rfl, rfl, rfl, rfl, rfl, h⟩

/-- Without its key a declaration does not resolve. -/
theorem resolve_eq_error (owner : RelationName) (hkind : d.kind ≠ .belongsTo)
    (hkey : d.relatedKey = none) :
    d.resolve owner = .error (.missingRelatedKey owner d.name d.kind) := by
  obtain ⟨name, kind, related, ownerKey, relatedKey⟩ := d
  obtain rfl : relatedKey = none := hkey
  cases kind with
  | belongsTo => exact absurd rfl hkind
  | hasOne | hasMany => rfl

/-- Nothing is wrong with declarations of distinct names whose keys are given. -/
theorem faultless_iff {ds : List AssociationDecl} :
    Faultless (Fault owner) ds ↔
      (ds.map (·.name)).Nodup ∧ ∀ d ∈ ds, d.kind ≠ .belongsTo → d.relatedKey ≠ none := by
  induction ds using List.reverseRecOn with
  | nil => simp [faultless_nil]
  | append_singleton ds d ih =>
    -- A name is repeated only when the key is fine, so the key is settled before the name.
    have hlast : (∀ e, ¬Fault owner ds d e) ↔
        (d.kind ≠ .belongsTo → d.relatedKey ≠ none) ∧ d.name ∉ ds.map (·.name) := by
      refine ⟨fun h => ?_, fun ⟨hkey, hname⟩ e he => ?_⟩
      · have hkey : d.kind ≠ .belongsTo → d.relatedKey ≠ none :=
          fun hkind hkey => h _ (.missingKey hkind hkey)
        exact ⟨hkey, fun hname => h _ (.repeated hkey hname)⟩
      · cases he with
        | missingKey hkind hnone => exact hkey hkind hnone
        | repeated _ hmem => exact hname hmem
    rw [faultless_concat_iff, ih, hlast, List.map_append, List.map_cons, List.map_nil,
      ← List.concat_eq_append, List.nodup_concat]
    simp only [List.mem_append, List.mem_singleton, or_imp, forall_and, forall_eq]
    tauto

end AssociationDecl

/-! ## Relations -/

namespace RelationDecl

/-- `r` is what a catalog keeps of a relation's declaration. -/
structure Denotes (d : RelationDecl) (r : CatalogRelation) : Prop where
  name : r.name = d.name
  fields : r.fields = d.fields
  associations : List.Forall₂ (AssociationDecl.Denotes d.name) d.associations r.associations

/-- What is wrong with the declaration of a relation that comes after others. Its name is looked at
before what is inside. -/
inductive Fault (origin : String) (before : List RelationDecl) (d : RelationDecl) :
    LoadError → Prop
  /-- The relation is already declared. -/
  | repeated (hname : d.name ∈ before.map (·.name)) :
    Fault origin before d (.duplicateRelation d.name origin)
  /-- One of its associations is wrong. -/
  | inside {e : LoadError} (hname : d.name ∉ before.map (·.name))
      (hfirst : FirstFault (AssociationDecl.Fault d.name) d.associations e) :
    Fault origin before d e

/-- Nothing is wrong with relations of distinct names in which nothing is wrong. -/
theorem faultless_iff {origin : String} {ds : List RelationDecl} :
    Faultless (Fault origin) ds ↔
      (ds.map (·.name)).Nodup
        ∧ ∀ d ∈ ds, Faultless (AssociationDecl.Fault d.name) d.associations := by
  induction ds using List.reverseRecOn with
  | nil => simp [faultless_nil]
  | append_singleton ds d ih =>
    have hlast : (∀ e, ¬Fault origin ds d e) ↔
        d.name ∉ ds.map (·.name) ∧ Faultless (AssociationDecl.Fault d.name) d.associations := by
      refine ⟨fun h => ?_, fun ⟨hname, hinside⟩ e he => ?_⟩
      · have hname : d.name ∉ ds.map (·.name) := fun hmem => h _ (.repeated hmem)
        refine ⟨hname, faultless_of_not_firstFault fun e he => h e (.inside hname he)⟩
      · cases he with
        | repeated hmem => exact hname hmem
        | inside _ hfirst => exact hinside.not_firstFault hfirst
    rw [faultless_concat_iff, ih, hlast, List.map_append, List.map_cons, List.map_nil,
      ← List.concat_eq_append, List.nodup_concat]
    simp only [List.mem_append, List.mem_singleton, or_imp, forall_and, forall_eq]
    tauto

end RelationDecl

/-! ## The loops over declarations -/

namespace Catalog

/-- The catalog keeps these declarations, in their order, and nothing else. -/
def Holds (c : Catalog) (ds : List RelationDecl) : Prop :=
  List.Forall₂ RelationDecl.Denotes ds c.relations

variable {c : Catalog} {ds : List RelationDecl}

theorem holds_empty : empty.Holds [] := .nil

theorem Holds.map_name (h : c.Holds ds) : c.relations.map (·.name) = ds.map (·.name) :=
  map_eq_of_forall₂ h fun _ _ hd => hd.name

theorem contains_eq_true_iff {name : RelationName} :
    c.contains name = true ↔ name ∈ c.relations.map (·.name) := by
  simp [contains, relation?]

/-- Associations are resolved one after the other, and the first fault is reported. -/
theorem reportsFirst_addAssociations (owner : RelationName) :
    ReportsFirst (AssociationDecl.Fault owner)
      (fun before done => List.Forall₂ (AssociationDecl.Denotes owner) before done)
      (addAssociations owner) id where
  finishes done := rfl
  stops := by
    intro before done d e hdone hfault rest
    -- The loop looks for the name among what it has resolved, a fault among the declarations.
    have hnames := map_eq_of_forall₂ hdone fun _ _ ha => AssociationDecl.Denotes.name ha
    cases hfault with
    | missingKey hkind hkey =>
      rw [addAssociations, AssociationDecl.resolve_eq_error owner hkind hkey]
    | repeated hkey hname =>
      obtain ⟨a, hresolve, ha⟩ := AssociationDecl.exists_resolve_eq_ok owner hkey
      have hany : (done.any fun b => decide (b.name = a.name)) = true := by
        rw [← hnames, ← ha.name] at hname
        simpa using hname
      rw [addAssociations, hresolve]
      dsimp only
      rw [if_pos hany, ha.name]
  passes := by
    intro before done d hdone hok
    have hnames := map_eq_of_forall₂ hdone fun _ _ ha => AssociationDecl.Denotes.name ha
    have hkey : d.kind ≠ .belongsTo → d.relatedKey ≠ none :=
      fun hkind hnone => hok _ (.missingKey hkind hnone)
    obtain ⟨a, hresolve, ha⟩ := AssociationDecl.exists_resolve_eq_ok owner hkey
    have hany : (done.any fun b => decide (b.name = a.name)) = false := by
      have hname : d.name ∉ before.map (·.name) := fun hmem => hok _ (.repeated hkey hmem)
      rw [← hnames, ← ha.name] at hname
      simpa using hname
    refine ⟨done ++ [a], List.rel_append hdone (.cons ha .nil), fun rest => ?_⟩
    rw [addAssociations, hresolve]
    simp [hany]

/-- Relations are added one after the other to those declared `earlier`, and the first fault is
reported. -/
theorem reportsFirst_addRelations (origin : String) (earlier : List RelationDecl) :
    ReportsFirst (fun before => RelationDecl.Fault origin (earlier ++ before))
      (fun before c => c.Holds (earlier ++ before)) (addRelations origin) id where
  finishes c := rfl
  stops := by
    intro before c d e hc hfault rest
    cases hfault with
    | repeated hname =>
      have hcontains : c.contains d.name = true := by
        rw [contains_eq_true_iff, hc.map_name]
        exact hname
      rw [addRelations, if_pos hcontains]
    | inside hname hfirst =>
      have hcontains : ¬c.contains d.name = true := by
        rw [contains_eq_true_iff, hc.map_name]
        exact hname
      have hinside := (reportsFirst_addAssociations d.name).eq_error_of_firstFault .nil hfirst
      rw [addRelations, if_neg hcontains, hinside]
  passes := by
    intro before c d hc hok
    have hname : d.name ∉ (earlier ++ before).map (·.name) := fun hmem => hok _ (.repeated hmem)
    have hcontains : ¬c.contains d.name = true := by
      rw [contains_eq_true_iff, hc.map_name]
      exact hname
    have hinside : Faultless (AssociationDecl.Fault d.name) d.associations :=
      faultless_of_not_firstFault fun e he => hok e (.inside hname he)
    -- The inner loop starts afresh for each relation and hands over what it has resolved.
    obtain ⟨associations, hassociations, hadd⟩ :=
      (reportsFirst_addAssociations d.name).exists_stands .nil hinside
    refine ⟨⟨c.relations ++ [⟨d.name, d.fields, associations, origin⟩]⟩, ?_, fun rest => ?_⟩
    · rw [← List.append_assoc]
      exact List.rel_append hc (.cons ⟨rfl, rfl, hassociations⟩ .nil)
    · rw [addRelations, if_neg hcontains, hadd]
      rfl

end Catalog

/-! ## The closing check -/

/-- The associations that are declared lead to relations that are declared. -/
def TargetsDeclared (ds : List RelationDecl) : Prop :=
  ∀ d ∈ ds, ∀ a ∈ d.associations, a.related ∈ ds.map (·.name)

/-- The error names a declared association whose target is not declared. -/
def UndeclaredTarget (ds : List RelationDecl) (e : LoadError) : Prop :=
  ∃ d ∈ ds, ∃ a ∈ d.associations,
    a.related ∉ ds.map (·.name) ∧ e = .unknownRelatedRelation d.name a.name a.related

namespace Catalog

variable {c : Catalog} {ds : List RelationDecl} {e : LoadError}

theorem Holds.contains_iff (h : c.Holds ds) {name : RelationName} :
    c.contains name = true ↔ name ∈ ds.map (·.name) := by
  rw [contains_eq_true_iff, h.map_name]

/-- The owners, names and targets of associations are those that are declared. -/
theorem Holds.exists_association_iff (h : c.Holds ds)
    (p : RelationName → String → RelationName → Prop) :
    (∃ r ∈ c.relations, ∃ a ∈ r.associations, p r.name a.name a.related) ↔
      ∃ d ∈ ds, ∃ a ∈ d.associations, p d.name a.name a.related := by
  constructor
  · rintro ⟨r, hr, b, hb, hp⟩
    obtain ⟨d, hd, hdr⟩ := exists_left_of_forall₂ h hr
    obtain ⟨a, ha, hab⟩ := exists_left_of_forall₂ hdr.associations hb
    exact ⟨d, hd, a, ha, by rwa [hdr.name, hab.name, hab.related] at hp⟩
  · rintro ⟨d, hd, a, ha, hp⟩
    obtain ⟨r, hr, hdr⟩ := exists_right_of_forall₂ h hd
    obtain ⟨b, hb, hab⟩ := exists_right_of_forall₂ hdr.associations ha
    exact ⟨r, hr, b, hb, by rwa [hdr.name, hab.name, hab.related]⟩

/-- A catalog is closed when the declarations that it holds are. -/
theorem Holds.closed_iff (h : c.Holds ds) : c.Closed ↔ TargetsDeclared ds := by
  have hout := h.exists_association_iff fun _ _ target => target ∉ ds.map (·.name)
  simp only [Closed, TargetsDeclared, h.contains_iff]
  rw [← not_iff_not]
  push Not
  exact hout

/-- The associations that lead out of a catalog are the declared ones without a declared target. -/
theorem Holds.leadsOut_iff (h : c.Holds ds) : c.LeadsOut e ↔ UndeclaredTarget ds e := by
  simp only [LeadsOut, h.contains_iff]
  exact h.exists_association_iff fun owner name target =>
    target ∉ ds.map (·.name) ∧ e = .unknownRelatedRelation owner name target

end Catalog

/-! ## Adding and closing -/

/-- What can be reported when the items `xs`, which declare `ds`, are added to a catalog and the
catalog is then closed. Items are judged in their order. Targets are looked at only when nothing is
wrong with the items, and then any undeclared one may be reported. -/
inductive Violation {α : Type} (fault : List α → α → LoadError → Prop) (xs : List α)
    (ds : List RelationDecl) (e : LoadError) : Prop where
  /-- The first item that is wrong. -/
  | adding (h : FirstFault fault xs e)
  /-- All items are added, and some association leads to no declared relation. -/
  | closing (hadded : Faultless fault xs) (h : UndeclaredTarget ds e)

namespace Catalog

variable {α : Type} {fault : List α → α → LoadError → Prop} {declared : List α → List RelationDecl}
  {run : Catalog → List α → Except LoadError Catalog} {xs : List α} {order : VisitOrder}
  {c : Catalog} {e : LoadError}

/-- What a loop has added to the empty catalog and the closing check has let through is faultless
and closed, and the catalog holds it. -/
theorem holds_of_bind_validate
    (h : ReportsFirst fault (fun before c => c.Holds (declared before)) run id)
    (hempty : empty.Holds (declared [])) (hrun : (run empty xs).bind (validate order) = .ok c) :
    Faultless fault xs ∧ TargetsDeclared (declared xs) ∧ c.Holds (declared xs) := by
  cases hadd : run empty xs with
  | error e => rw [hadd] at hrun; cases hrun
  | ok added =>
    rw [hadd] at hrun
    obtain ⟨hxs, _, hholds, rfl⟩ := h.of_eq_ok hempty hadd
    obtain ⟨hclosed, rfl⟩ := validate_eq_ok_iff.1 hrun
    exact ⟨hxs, hholds.closed_iff.1 hclosed, hholds⟩

/-- A faultless list whose declarations are closed is added and let through. -/
theorem exists_bind_validate_eq_ok_iff
    (h : ReportsFirst fault (fun before c => c.Holds (declared before)) run id)
    (hempty : empty.Holds (declared [])) :
    (∃ c, (run empty xs).bind (validate order) = .ok c) ↔
      Faultless fault xs ∧ TargetsDeclared (declared xs) := by
  refine ⟨fun ⟨c, hrun⟩ => ?_, fun ⟨hxs, htargets⟩ => ?_⟩
  · obtain ⟨hxs, htargets, -⟩ := holds_of_bind_validate h hempty hrun
    exact ⟨hxs, htargets⟩
  · obtain ⟨added, hholds, hadd⟩ := h.exists_stands hempty hxs
    refine ⟨added, ?_⟩
    rw [hadd]
    exact validate_eq_ok_iff.2 ⟨hholds.closed_iff.2 htargets, rfl⟩

/-- An item that is wrong is reported whatever the order of the closing check, which is not
reached. -/
theorem bind_validate_eq_error_of_firstFault
    (h : ReportsFirst fault (fun before c => c.Holds (declared before)) run id)
    (hempty : empty.Holds (declared [])) (hfirst : FirstFault fault xs e) :
    (run empty xs).bind (validate order) = .error e := by
  rw [h.eq_error_of_firstFault hempty hfirst]
  rfl

/-- The errors of adding and closing, over all orders of the closing check. -/
theorem exists_bind_validate_eq_error_iff
    (h : ReportsFirst fault (fun before c => c.Holds (declared before)) run id)
    (hempty : empty.Holds (declared [])) :
    (∃ order, (run empty xs).bind (validate order) = .error e) ↔
      Violation fault xs (declared xs) e := by
  constructor
  · rintro ⟨order, hrun⟩
    cases hadd : run empty xs with
    | error e' =>
      rw [hadd] at hrun
      obtain rfl := Except.error.inj hrun
      exact .adding ((h.eq_error_iff hempty).1 hadd)
    | ok added =>
      obtain ⟨hxs, _, hholds, rfl⟩ := h.of_eq_ok hempty hadd
      rw [hadd] at hrun
      exact .closing hxs (hholds.leadsOut_iff.1 (leadsOut_of_validate hrun))
  · rintro (hfirst | ⟨hxs, hundeclared⟩)
    · exact ⟨.declared, bind_validate_eq_error_of_firstFault h hempty hfirst⟩
    · obtain ⟨added, hholds, hadd⟩ := h.exists_stands hempty hxs
      rw [hadd]
      exact exists_validate_eq_error_iff.2 (hholds.leadsOut_iff.2 hundeclared)

end Catalog

end JoinGraph

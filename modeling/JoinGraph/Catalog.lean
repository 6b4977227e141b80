import JoinGraph.Error
import JoinGraph.Schema

/-!
# Catalogs

A catalog holds the relations that schema files declare, with the keys of their associations filled
in. Declarations are taken in order and the first one that breaks a rule decides the error; that
associations lead to declared relations is checked at the end, so files may refer to each other in
any order. The closing check goes through hash maps, which promise no order, so the order in which
it visits the entries of a catalog is a parameter (`VisitOrder`).
-/

namespace JoinGraph

/-- A relation of a catalog. -/
structure CatalogRelation where
  /-- Its name. -/
  name : RelationName
  /-- The names of its fields. -/
  fields : List String
  /-- The associations that start from it. -/
  associations : List Association
  /-- The file that declares it. -/
  origin : String

/-- The relations known to a query engine, in the order of their declarations. -/
structure Catalog where
  /-- The relations. -/
  relations : List CatalogRelation

/-- An order in which the relations of a catalog, and the associations of each, are visited. Nothing
fixes it but that each of them is visited once. -/
structure VisitOrder where
  /-- The relations, as they are visited. -/
  relations : Catalog → List CatalogRelation
  /-- The associations of a relation, as they are visited. -/
  associations : CatalogRelation → List Association
  relations_perm : ∀ c, (relations c).Perm c.relations
  associations_perm : ∀ r, (associations r).Perm r.associations

/-- The order of the declarations. -/
def VisitOrder.declared : VisitOrder where
  relations c := c.relations
  associations r := r.associations
  relations_perm _ := .refl _
  associations_perm _ := .refl _

/-- The association that a declaration stands for. A `belongs_to` key is named after the
association and leads to `id`; the other kinds lead from `id` to a key that must be given. -/
def AssociationDecl.resolve (owner : RelationName) (d : AssociationDecl) :
    Except LoadError Association :=
  match d.kind, d.relatedKey with
  -- The owner holds the key, so both sides have a default.
  | .belongsTo, relatedKey =>
    .ok ⟨d.name, .belongsTo, owner, d.related, d.ownerKey.getD (d.name ++ "_id"),
      relatedKey.getD "id"⟩
  | kind, some relatedKey =>
    .ok ⟨d.name, kind, owner, d.related, d.ownerKey.getD "id", relatedKey⟩
  | kind, none => .error (.missingRelatedKey owner d.name kind)

namespace Catalog

/-- The catalog without relations. -/
def empty : Catalog := ⟨[]⟩

/-- The number of relations. -/
def size (c : Catalog) : Nat := c.relations.length

/-- The relation with a given name. -/
def relation? (c : Catalog) (name : RelationName) : Option CatalogRelation :=
  c.relations.find? fun r => decide (r.name = name)

/-- A relation is declared. -/
def contains (c : Catalog) (name : RelationName) : Bool := (c.relation? name).isSome

/-- The association of a given name that starts from a relation. -/
def association? (c : Catalog) (relation : RelationName) (name : String) : Option Association :=
  (c.relation? relation).bind fun r => r.associations.find? fun a => decide (a.name = name)

/-- A relation declares a field. -/
def hasField (c : Catalog) (relation : RelationName) (field : String) : Bool :=
  match c.relation? relation with
  | some r => decide (field ∈ r.fields)
  | none => false

/-- A catalog as the provider of associations. -/
def provider (c : Catalog) : Provider := c.association?

/-- Resolve the declarations of a relation's associations, after those in `done`. -/
def addAssociations (owner : RelationName) (done : List Association) :
    List AssociationDecl → Except LoadError (List Association)
  | [] => .ok done
  | d :: rest =>
    match d.resolve owner with
    | .error error => .error error
    | .ok association =>
      if done.any fun a => decide (a.name = association.name) then
        .error (.duplicateAssociation owner association.name)
      else addAssociations owner (done ++ [association]) rest

/-- Add the declarations of a file. -/
def addRelations (origin : String) (c : Catalog) : List RelationDecl → Except LoadError Catalog
  | [] => .ok c
  | d :: rest =>
    if c.contains d.name then .error (.duplicateRelation d.name origin)
    else
      match addAssociations d.name [] d.associations with
      | .error error => .error error
      | .ok associations =>
        addRelations origin ⟨c.relations ++ [⟨d.name, d.fields, associations, origin⟩]⟩ rest

/-- Add a schema file. -/
def addSchema (c : Catalog) (schema : Schema) (origin : String) : Except LoadError Catalog :=
  addRelations origin c schema.relations

/-- The first association visited that leads to a relation that is not declared, with the relation
that declares it. -/
def firstUnknown? (order : VisitOrder) (c : Catalog) : Option (CatalogRelation × Association) :=
  (order.relations c).findSome? fun r =>
    ((order.associations r).find? fun a => !c.contains a.related).map fun a => (r, a)

/-- Check that every association leads to a declared relation. Where several do not, the order of
the visits decides which one is named. -/
def validate (order : VisitOrder) (c : Catalog) : Except LoadError Catalog :=
  match c.firstUnknown? order with
  | none => .ok c
  | some (r, a) => .error (.unknownRelatedRelation r.name a.name a.related)

/-- The origin of a schema that is not in a file. -/
def inlineOrigin : String := "<inline>"

/-- The catalog of one schema. -/
def ofSchema (schema : Schema) (order : VisitOrder := .declared) : Except LoadError Catalog :=
  match empty.addSchema schema inlineOrigin with
  | .error error => .error error
  | .ok c => c.validate order

end Catalog

end JoinGraph

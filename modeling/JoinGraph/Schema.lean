import JoinGraph.Association

/-!
# Schema declarations

What schema files declare, before key defaults are applied and before anything is checked.
-/

namespace JoinGraph

/-- The declaration of an association. -/
structure AssociationDecl where
  /-- Its name on the relation that declares it. -/
  name : String
  /-- Its cardinality. -/
  kind : AssociationKind
  /-- The relation it leads to. -/
  related : RelationName
  /-- The key column of the declaring relation, if it is given. -/
  ownerKey : Option String
  /-- The key column of the related relation, if it is given. -/
  relatedKey : Option String
deriving DecidableEq

/-- The declaration of a relation. -/
structure RelationDecl where
  /-- Its name. -/
  name : RelationName
  /-- The names of its fields. -/
  fields : List String
  /-- The associations that start from it. -/
  associations : List AssociationDecl
deriving DecidableEq

/-- The declarations of one schema file. -/
structure Schema where
  /-- The relations, in the order they are declared. -/
  relations : List RelationDecl
deriving DecidableEq

/-- A schema that declares nothing. -/
def Schema.empty : Schema := ⟨[]⟩

/-- The declarations of two schemas, those of the first one first. -/
def Schema.append (s t : Schema) : Schema := ⟨s.relations ++ t.relations⟩

instance : Append Schema := ⟨Schema.append⟩

end JoinGraph

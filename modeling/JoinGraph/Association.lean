import JoinGraph.Name
import JoinGraph.Vocabulary

/-!
# Associations

An association says how rows of one relation belong to rows of another: the related row's
`relatedKey` equals the owner's `ownerKey`. Expansion asks a `Provider` for associations and never
looks at schemas itself.
-/

namespace JoinGraph

/-- Cardinality of an association, seen from its owner. -/
inductive AssociationKind where
  /-- The owner holds the key of the related row. -/
  | belongsTo
  /-- At most one related row holds the key of the owner. -/
  | hasOne
  /-- Any number of related rows hold the key of the owner. -/
  | hasMany
deriving DecidableEq, Repr

instance : Vocabulary AssociationKind where
  word
    | .belongsTo => "belongs_to"
    | .hasOne => "has_one"
    | .hasMany => "has_many"
  all := [.belongsTo, .hasOne, .hasMany]
  find_word a := by cases a <;> rfl

/-- An association between two relations, with its keys. -/
structure Association where
  /-- Its name on the owner. -/
  name : String
  /-- Its cardinality. -/
  kind : AssociationKind
  /-- The relation that declares it. -/
  owner : RelationName
  /-- The relation it leads to. -/
  related : RelationName
  /-- The key column of the owner. -/
  ownerKey : String
  /-- The key column of the related relation. -/
  relatedKey : String
deriving DecidableEq

/-- What resolves the name of an association on a relation. -/
abbrev Provider := RelationName → String → Option Association

/-- The provider that knows no association. -/
def Provider.empty : Provider := fun _ _ => none

end JoinGraph

import JoinGraph.Decode
import JoinGraph.Query.Codec
import JoinGraph.Schema
import JoinGraph.Yaml.Typed

/-!
# Written form of schemas

Schemas are read from YAML text and from JSON; the JSON form is also written.
-/

namespace JoinGraph

/-- The JSON form of a text that may be absent. -/
def optionalTextToJson (t : Option String) : Json := (t.map Json.string).getD .null

namespace AssociationDecl

/-- The fields of a declaration. -/
def keys : List String := ["kind", "name", "owner_key", "related", "related_key"]

/-- The JSON form of a declaration. -/
def toJson (d : AssociationDecl) : Json :=
  .object [("kind", wordToJson d.kind), ("name", .string d.name),
    ("owner_key", optionalTextToJson d.ownerKey), ("related", .string d.related.text),
    ("related_key", optionalTextToJson d.relatedKey)]

/-- Read a declaration from JSON. -/
def ofJson : Decoder AssociationDecl := Decoder.strict keys fun ms => do
  let kind ← Decoder.field ms "kind" Decoder.word
  let name ← Decoder.field ms "name" Decoder.text
  let ownerKey ← Decoder.nullable ms "owner_key" Decoder.text
  let related ← Decoder.field ms "related" Decoder.relationName
  let relatedKey ← Decoder.nullable ms "related_key" Decoder.text
  return do
    return ⟨← Decoder.require name, ← Decoder.require kind, ← Decoder.require related, ownerKey,
      relatedKey⟩

/-- Read a declaration from YAML. -/
def ofNode : Yaml.Typed AssociationDecl := fun n => do
  let fields ← Yaml.Typed.record keys n
  return {
    name := ← Yaml.Typed.required fields "name" Yaml.Typed.text
    kind := ← Yaml.Typed.required fields "kind" Yaml.Typed.word
    related := ← Yaml.Typed.required fields "related" Yaml.Typed.relationName
    ownerKey := ← Yaml.Typed.defaulted fields "owner_key" Yaml.Typed.optionalText none
    relatedKey := ← Yaml.Typed.defaulted fields "related_key" Yaml.Typed.optionalText none }

end AssociationDecl

namespace RelationDecl

/-- The fields of a declaration. -/
def keys : List String := ["associations", "fields", "name"]

/-- The JSON form of a declaration. -/
def toJson (d : RelationDecl) : Json :=
  .object [("associations", .array (d.associations.map AssociationDecl.toJson)),
    ("fields", .array (d.fields.map Json.string)), ("name", .string d.name.text)]

/-- Read a declaration from JSON. -/
def ofJson : Decoder RelationDecl := Decoder.strict keys fun ms => do
  let associations ← Decoder.items ms "associations" AssociationDecl.ofJson
  let fields ← Decoder.items ms "fields" Decoder.text
  let name ← Decoder.field ms "name" Decoder.relationName
  return do
    return ⟨← Decoder.require name, fields, associations⟩

/-- Read a declaration from YAML. -/
def ofNode : Yaml.Typed RelationDecl := fun n => do
  let fields ← Yaml.Typed.record keys n
  return {
    name := ← Yaml.Typed.required fields "name" Yaml.Typed.relationName
    fields := ← Yaml.Typed.defaulted fields "fields" (Yaml.Typed.list Yaml.Typed.text) []
    associations :=
      ← Yaml.Typed.defaulted fields "associations" (Yaml.Typed.list AssociationDecl.ofNode) [] }

end RelationDecl

namespace Schema

/-- The fields of a schema. -/
def keys : List String := ["relations"]

/-- The JSON form of a schema. -/
def toJson (s : Schema) : Json :=
  .object [("relations", .array (s.relations.map RelationDecl.toJson))]

/-- Read a schema from JSON. -/
def ofJson : Decoder Schema := Decoder.strict keys fun ms => do
  let relations ← Decoder.items ms "relations" RelationDecl.ofJson
  return .ok ⟨relations⟩

/-- Read a schema from YAML. -/
def ofNode : Yaml.Typed Schema := fun n => do
  let fields ← Yaml.Typed.record keys n
  return ⟨← Yaml.Typed.defaulted fields "relations" (Yaml.Typed.list RelationDecl.ofNode) []⟩

/-- Read a schema from a text. -/
def ofText? (text : String) : Option Schema := Yaml.recordOfText? ofNode text

end Schema

namespace Association

/-- The JSON form of an association. -/
def toJson (a : Association) : Json :=
  .object [("kind", wordToJson a.kind), ("name", .string a.name), ("owner", .string a.owner.text),
    ("owner_key", .string a.ownerKey), ("related", .string a.related.text),
    ("related_key", .string a.relatedKey)]

/-- Read an association from JSON. -/
def ofJson : Decoder Association := fun v => do
  let ms ← Decoder.members v
  let kind ← Decoder.field ms "kind" Decoder.word
  let name ← Decoder.field ms "name" Decoder.text
  let owner ← Decoder.field ms "owner" Decoder.relationName
  let ownerKey ← Decoder.field ms "owner_key" Decoder.text
  let related ← Decoder.field ms "related" Decoder.relationName
  let relatedKey ← Decoder.field ms "related_key" Decoder.text
  return ⟨← Decoder.require name, ← Decoder.require kind, ← Decoder.require owner,
    ← Decoder.require related, ← Decoder.require ownerKey, ← Decoder.require relatedKey⟩

end Association

end JoinGraph

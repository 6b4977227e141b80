import JoinGraph.Expr.Codec
import JoinGraph.Preload.Codec
import JoinGraph.Query.WellFormed

/-!
# JSON form of queries

A query that is read is checked after all its fields have been read, hence after all queries nested
in it. Every query that is accepted is well-formed, at every depth.
-/

namespace JoinGraph

/-- The JSON form of a member of a vocabulary. -/
def wordToJson {α : Type} [Vocabulary α] (a : α) : Json := .string (Vocabulary.word a)

namespace Filter

/-- The JSON form of a filter. -/
def toJson (f : Filter) : Json := .object [("expr", f.expr.toJson), ("op", wordToJson f.op)]

/-- Read a filter. -/
def ofJson : Decoder Filter := fun v => do
  let ms ← Decoder.members v
  let expr ← Decoder.field ms "expr" Expr.ofJson
  let op ← Decoder.field ms "op" Decoder.word
  return ⟨← Decoder.require op, ← Decoder.require expr⟩

end Filter

namespace SortKey

/-- The JSON form of an ordering term. -/
def toJson (k : SortKey) : Json :=
  .object [("direction", wordToJson k.direction), ("expr", k.expr.toJson)]

/-- Read an ordering term. -/
def ofJson : Decoder SortKey := fun v => do
  let ms ← Decoder.members v
  let direction ← Decoder.field ms "direction" Decoder.word
  let expr ← Decoder.field ms "expr" Expr.ofJson
  return ⟨← Decoder.require expr, ← Decoder.require direction⟩

end SortKey

mutual

/-- The JSON form of a source. -/
def Source.toJson : Source → Json
  | .table relation => .object [("Table", .object [("relation", .string relation.text)])]
  | .association parent name related =>
    .object [("Association", .object [("association", .string name), ("parent", .int parent),
      ("related", .string related.text)])]
  | .subquery query => .object [("Subquery", query.toJson)]

/-- The JSON form of a join. -/
def Join.toJson : Join → Json
  | ⟨index, name, qualifier, source, on⟩ =>
    .object [("alias", (name.map fun a => Json.string a.text).getD .null), ("index", .int index),
      ("on", on.toJson), ("qualifier", wordToJson qualifier), ("source", source.toJson)]

/-- The JSON forms of joins. -/
def Join.listToJson : List Join → List Json
  | [] => []
  | j :: rest => j.toJson :: Join.listToJson rest

/-- The JSON form of a query. -/
def Query.toJson : Query → Json
  | ⟨source, joins, nextIndex, select, wheres, orderBys, groupBys, havings, limit, offset, distinct,
      preloads⟩ =>
    .object [("distinct", Expr.optionalToJson distinct), ("from", source.toJson),
      ("group_bys", .array (Expr.listToJson groupBys)),
      ("havings", .array (havings.map Filter.toJson)), ("joins", .array (Join.listToJson joins)),
      ("limit", Expr.optionalToJson limit), ("next_index", .int nextIndex),
      ("offset", Expr.optionalToJson offset), ("order_bys", .array (orderBys.map SortKey.toJson)),
      ("preloads", .array (PreloadTree.forestToJson preloads)),
      ("select", Expr.optionalToJson select), ("wheres", .array (wheres.map Filter.toJson))]

end

/-- Read a source, given how a nested query is read. -/
def Source.ofJsonUsing (query : Decoder Query) : Decoder Source := fun v => do
  let (tag, body) ← Decoder.variant v
  match tag with
  | "Table" =>
    let ms ← Decoder.members body
    let relation ← Decoder.field ms "relation" Decoder.relationName
    return .table (← Decoder.require relation)
  | "Association" =>
    let ms ← Decoder.members body
    let name ← Decoder.field ms "association" Decoder.text
    let parent ← Decoder.field ms "parent" Decoder.natural
    let related ← Decoder.field ms "related" Decoder.relationName
    -- Fields that do not decode come before fields that are missing.
    let name ← Decoder.require name
    return .association (← Decoder.require parent) name (← Decoder.require related)
  | "Subquery" => return .subquery (← query body)
  | _ => .error .shape

/-- Read a join, given how a nested query is read. -/
def Join.ofJsonUsing (query : Decoder Query) : Decoder Join := fun v => do
  let ms ← Decoder.members v
  let name ← Decoder.nullable ms "alias" Decoder.aliasName
  let index ← Decoder.field ms "index" Decoder.natural
  let on ← Decoder.field ms "on" Expr.ofJson
  let qualifier ← Decoder.field ms "qualifier" Decoder.word
  let source ← Decoder.field ms "source" (Source.ofJsonUsing query)
  return {
    index := ← Decoder.require index
    name := name
    qualifier := ← Decoder.require qualifier
    source := ← Decoder.require source
    on := ← Decoder.require on }

/-- Read the fields of a query, given how a nested query is read. -/
def Query.fieldsOfJson (query : Decoder Query) : Decoder Query := fun v => do
  let ms ← Decoder.members v
  let distinct ← Decoder.nullable ms "distinct" Expr.ofJson
  let source ← Decoder.field ms "from" (Source.ofJsonUsing query)
  let groupBys ← Decoder.items ms "group_bys" Expr.ofJson
  let havings ← Decoder.items ms "havings" Filter.ofJson
  let joins ← Decoder.items ms "joins" (Join.ofJsonUsing query)
  let limit ← Decoder.nullable ms "limit" Expr.ofJson
  let nextIndex ← Decoder.field ms "next_index" Decoder.natural
  let offset ← Decoder.nullable ms "offset" Expr.ofJson
  let orderBys ← Decoder.items ms "order_bys" SortKey.ofJson
  let preloads ← Decoder.items ms "preloads" PreloadTree.ofJson
  let select ← Decoder.nullable ms "select" Expr.ofJson
  let wheres ← Decoder.items ms "wheres" Filter.ofJson
  return {
    source := ← Decoder.require source
    nextIndex := ← Decoder.require nextIndex
    joins, select, wheres, orderBys, groupBys, havings, limit, offset, distinct, preloads }

/-- Accept a query that is well-formed. -/
def Query.checked (q : Query) : Except DecodeError Query :=
  match q.check with
  | .ok () => .ok q
  | .error fault => .error (.query fault)

/-- Read a query nested at most as deep as the bound says, and check it. -/
def Query.ofJsonWithin : Nat → Decoder Query
  | 0, _ => .error .shape
  | bound + 1, v => do (← Query.fieldsOfJson (Query.ofJsonWithin bound) v).checked

namespace Query

/-- Read a query and check it. -/
def ofJson : Decoder Query := fun v => ofJsonWithin (v.depth + 1) v

end Query

/-- Read a source. -/
def Source.ofJson : Decoder Source := fun v => Source.ofJsonUsing Query.ofJson v

/-- Read a join. -/
def Join.ofJson : Decoder Join := fun v => Join.ofJsonUsing Query.ofJson v

end JoinGraph

import JoinGraph.Decode
import JoinGraph.Preload

/-!
# JSON form of preload forests
-/

namespace JoinGraph.PreloadTree

mutual

/-- The JSON form of a tree. -/
def toJson : PreloadTree → Json
  | ⟨association, name, children⟩ =>
    .object [("alias", .string name.text), ("association", .string association),
      ("children", .array (forestToJson children))]

/-- The JSON forms of the trees of a forest. -/
def forestToJson : List PreloadTree → List Json
  | [] => []
  | tree :: rest => tree.toJson :: forestToJson rest

end

/-- Read a tree, given how its children are read. -/
def nodeOfJson (child : Decoder PreloadTree) : Decoder PreloadTree := fun v => do
  let ms ← Decoder.members v
  let name ← Decoder.field ms "alias" Decoder.aliasName
  let association ← Decoder.field ms "association" Decoder.text
  let children ← Decoder.items ms "children" child
  return ⟨← Decoder.require association, ← Decoder.require name, children⟩

/-- Read a tree nested at most as deep as the bound says. -/
def ofJsonWithin : Nat → Decoder PreloadTree
  | 0, _ => .error .shape
  | bound + 1, v => nodeOfJson (ofJsonWithin bound) v

/-- Read a tree. -/
def ofJson : Decoder PreloadTree := fun v => ofJsonWithin (v.depth + 1) v

/-- Read a forest. -/
def forestOfJson : Decoder (List PreloadTree) := Decoder.list ofJson

end JoinGraph.PreloadTree

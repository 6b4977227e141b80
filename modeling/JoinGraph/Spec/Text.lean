import JoinGraph.Spec
import JoinGraph.Yaml.Untyped

/-!
# Specifications as text
-/

namespace JoinGraph.Spec

/-- Read a specification from a text. -/
def ofText (text : String) : Except QueryError Spec :=
  match Yaml.valueOfText? text with
  | none => refuse [] .malformed
  | some v => ofValue v

end JoinGraph.Spec

import JoinGraph.Yaml.Tag

/-!
# YAML tokens

A text in order: brackets, scalars with their properties, and marks where blocks start and end,
which are not written but follow from indentation.
-/

namespace JoinGraph.Yaml

/-- A token of a YAML text. -/
inductive Token where
  /-- The version a document is written in. -/
  | version (major minor : Nat)
  /-- An abbreviation for tags. -/
  | tagDirective (handle : String) (lead : Tag)
  | documentStart
  | documentEnd
  | blockSequence
  | blockMapping
  | blockEnd
  | flowSequence
  | flowSequenceEnd
  | flowMapping
  | flowMappingEnd
  | blockEntry
  | flowEntry
  | key
  | value
  | reference (name : String)
  /-- The name of the node that follows. -/
  | anchor (name : String)
  /-- The tag of the node that follows, with no handle when it is not abbreviated. -/
  | tag (handle : String) (suffix : Tag)
  /-- A scalar; `plain` when it is written without quotes and not as a block. -/
  | scalar (text : String) (plain : Bool)
deriving DecidableEq

end JoinGraph.Yaml

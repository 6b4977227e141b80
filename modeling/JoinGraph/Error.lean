import JoinGraph.Association
import JoinGraph.Query.WellFormed

/-!
# Errors

`LoadError` says why configuration or association metadata cannot be used, `QueryError` why an
operation on a query is refused. Each cause is a constructor; its wording is in `message`.
-/

namespace JoinGraph

/-- What messages show in place of the details of a text that is not in the expected notation. -/
def notationDetails : String := "<yaml>"

/-- What messages show in place of the reason why a file cannot be read. -/
def readDetails : String := "<io>"

/-- Why a configuration is not acceptable. -/
inductive ConfigFault where
  /-- Association joins have a condition, which a cross join ignores. -/
  | crossByDefault
  /-- A schema path has no visible character. -/
  | blankSchemaPath
deriving DecidableEq

/-- The wording of a configuration that is not acceptable. -/
def ConfigFault.message : ConfigFault → String
  | .crossByDefault =>
    "default_qualifier cannot be 'cross': association joins need an ON condition"
  | .blankSchemaPath => "schema_paths entries must not be empty"

/-- Why configuration or association metadata cannot be used. -/
inductive LoadError where
  | configNotFound (path : String)
  | configInvalid (fault : ConfigFault)
  | duplicateRelation (name : RelationName) (path : String)
  | duplicateAssociation (relation : RelationName) (association : String)
  /-- An association whose key is on the other side does not name the key. -/
  | missingRelatedKey (relation : RelationName) (association : String) (kind : AssociationKind)
  | unknownRelatedRelation (relation : RelationName) (association : String)
    (related : RelationName)
  | unreadable (path : String)
  | malformed
deriving DecidableEq

/-- The wording of a load error. -/
def LoadError.message : LoadError → String
  | .configNotFound path => "[C001] Config file not found: " ++ path
  | .configInvalid fault => "[C002] Invalid config: " ++ fault.message
  | .duplicateRelation name path => "[C003] Duplicate relation '" ++ name.text ++ "' in " ++ path
  | .duplicateAssociation relation association =>
    "[C004] Duplicate association '" ++ association ++ "' on relation '" ++ relation.text ++ "'"
  | .missingRelatedKey relation association kind =>
    "[C005] Association '" ++ association ++ "' on '" ++ relation.text ++ "' ("
      ++ Vocabulary.word kind ++ ") requires a 'related_key'"
  | .unknownRelatedRelation relation association related =>
    "[C006] Association '" ++ association ++ "' on '" ++ relation.text
      ++ "' targets unknown relation '" ++ related.text ++ "'"
  | .unreadable path => "[C007] Failed to read '" ++ path ++ "': " ++ readDetails
  | .malformed => "[C008] YAML parse error: " ++ notationDetails

/-- One step from a node of a specification to a node below it. -/
inductive SpecStep where
  /-- To an item of a sequence. -/
  | item (index : Nat)
  /-- To what is nested under an association. -/
  | under (name : String)
  /-- To the specification that gets a lead. -/
  | spec
  /-- To the lead itself. -/
  | lead
deriving DecidableEq

/-- The place of a node in a specification: the steps to it, the last one first. -/
abbrev SpecPlace := List SpecStep

/-- How messages show a step. -/
def SpecStep.text : SpecStep → String
  | .item index => "[" ++ toString index ++ "]"
  | .under name => "." ++ name
  | .spec => ".spec"
  | .lead => ".prefix"

/-- How messages show a place. -/
def SpecPlace.text (place : SpecPlace) : String :=
  place.reverse.foldl (fun acc step => acc ++ step.text) "$"

theorem SpecPlace.text_nil : SpecPlace.text [] = "$" := rfl

/-- A place one step further down is shown with the text of the step behind. -/
theorem SpecPlace.text_cons (step : SpecStep) (place : SpecPlace) :
    SpecPlace.text (step :: place) = SpecPlace.text place ++ step.text := by
  rw [SpecPlace.text, SpecPlace.text, List.reverse_cons, List.foldl_append]
  rfl

/-- Why a node of a specification is not acceptable. -/
inductive SpecFault where
  | malformed
  | emptyName
  | emptyMapping
  | leadNotText
  | keyNotName
  | foundNull
  | foundTruth
  | foundNumber
  | foundTagged (tag : String)
deriving DecidableEq

/-- The wording of a node that is not acceptable. -/
def SpecFault.message : SpecFault → String
  | .malformed => notationDetails
  | .emptyName => "association name must not be empty"
  | .emptyMapping => "empty mapping"
  | .leadNotText => "prefix must be a string"
  | .keyNotName => "mapping keys must be non-empty association names"
  | .foundNull => "expected an association, sequence, or mapping, found null"
  | .foundTruth => "expected an association, sequence, or mapping, found a boolean"
  | .foundNumber => "expected an association, sequence, or mapping, found a number"
  | .foundTagged tag => "tagged values are not supported (tag !" ++ tag ++ ")"

/-- Why an operation on a query is refused. -/
inductive QueryError where
  | invalidSpecification (place : SpecPlace) (fault : SpecFault)
  | unknownAssociation (relation association : String)
  | danglingReference (name : Alias) (binding : Binding) (count : Nat)
  | load (error : LoadError)
  | invalidQuery (fault : QueryFault)
deriving DecidableEq

/-- The wording of a refused operation. -/
def QueryError.message : QueryError → String
  | .invalidSpecification place fault =>
    "[QE001] Invalid nested specification at " ++ place.text ++ ": " ++ fault.message
  | .unknownAssociation relation association =>
    "[QE002] Unknown association '" ++ association ++ "' on '" ++ relation ++ "'"
  | .danglingReference name binding count =>
    "[QE003] Cannot remove join '" ++ name.text ++ "': binding " ++ binding.label
      ++ " is still referenced " ++ toString count ++ " time(s)"
  | .load error => "[QE004] Core error: " ++ error.message
  | .invalidQuery fault => "[QE005] Invalid query: " ++ fault.message

end JoinGraph

import JoinGraph.Name
import JoinGraph.Vocabulary
import JoinGraph.Yaml.Untyped

/-!
# Typed content

What a node means when its type is known. A text is whatever a scalar is written as, so `5` and
`true` are texts too. A list or a record for which nothing is written is empty. A record has no
other fields than its own, and none twice.
-/

namespace JoinGraph.Yaml

/-- A way to read a type from a node. -/
abbrev Typed (α : Type) := Node → Option α

namespace Typed

/-- A text: any scalar as it is written. -/
def text : Typed String
  | .scalar _ text _ => some text
  | _ => none

/-- A text that is absent when nothing or a word for null is written. -/
def optionalText : Typed (Option String)
  | .scalar none t true => some (if t = "" || t ∈ nullWords then none else some t)
  | .scalar (some tag) t true =>
    if tag = Tag.standard "null" then (if t ∈ nullWords then some none else none)
    else some (some t)
  | .scalar _ t false => some (some t)
  | _ => none

/-- A relation name. -/
def relationName : Typed RelationName := fun n => do
  (RelationName.ofString (← text n)).toOption

/-- A member of a vocabulary: its word, or its word as a tag with no content. -/
def word {α : Type} [Vocabulary α] : Typed α
  | .scalar tag t plain =>
    match tag.bind Tag.ownName? with
    | none => Vocabulary.ofWord? t
    | some name =>
      if plain && (t = "" || t ∈ nullWords) then Vocabulary.ofWord? name else none
  | _ => none

/-- A list, empty when nothing is written. -/
def list {α : Type} (item : Typed α) : Typed (List α)
  | .scalar _ t plain => if t = "" && plain then some [] else none
  | .sequence _ items => items.mapM item
  | _ => none

/-- The fields of a record, none when nothing is written. They are among the known ones, and none
is given twice. -/
def record (known : List String) : Typed (List (String × Node))
  | .scalar _ t plain => if t = "" && plain then some [] else none
  | .mapping _ entries => do
    let fields ← entries.mapM fun e => (text e.1).map fun key => (key, e.2)
    let keys := fields.map (·.1)
    if keys.all (· ∈ known) && keys.Nodup then some fields else none
  | _ => none

/-- A field of a record, absent when it is not given. -/
def field {α : Type} (fields : List (String × Node)) (key : String) (d : Typed α) :
    Option (Option α) :=
  match fields.find? fun f => f.1 = key with
  | none => some none
  | some f => (d f.2).map some

/-- A field that must be given. -/
def required {α : Type} (fields : List (String × Node)) (key : String) (d : Typed α) : Option α :=
  (field fields key d).join

/-- A field with a value for when it is not given. -/
def defaulted {α : Type} (fields : List (String × Node)) (key : String) (d : Typed α)
    (default : α) : Option α :=
  (field fields key d).map (·.getD default)

end Typed

/-- Read a record from a text. A text without a document is a record without fields. -/
def recordOfText? {α : Type} (d : Typed α) (text : String) : Option α := do
  match ← contentOfText? text with
  | none => d .nothing
  | some n => d n

end JoinGraph.Yaml

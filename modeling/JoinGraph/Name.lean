/-!
# Names

Relation names and join aliases are both text, but an alias where a relation was meant gives a
silently wrong join. Each kind of name is therefore a type of its own, and neither is ever empty.
-/

namespace JoinGraph

/-- Why a text is not a name. -/
inductive NameError where
  | emptyAlias
  | emptyRelationName
deriving DecidableEq, Repr

/-- The wording of a refused name. -/
def NameError.message : NameError → String
  | .emptyAlias => "Alias must not be empty"
  | .emptyRelationName => "RelationName must not be empty"

/-- Name of a relation (a table or a schema) known to the catalog. -/
structure RelationName where
  /-- The name as it is written. -/
  text : String
  /-- A relation has a name that can be written. -/
  text_ne_empty : text ≠ ""
deriving DecidableEq

/-- Symbolic name that identifies one join within a query. -/
structure Alias where
  /-- The alias as it is written. -/
  text : String
  /-- An alias can be written. -/
  text_ne_empty : text ≠ ""
deriving DecidableEq

namespace RelationName

/-- The relation name written `text`. -/
def ofString (text : String) : Except NameError RelationName :=
  if h : text = "" then .error .emptyRelationName else .ok ⟨text, h⟩

@[ext] theorem ext {a b : RelationName} (h : a.text = b.text) : a = b := by
  cases a; cases b; cases h; rfl

@[simp] theorem ofString_text (name : RelationName) : ofString name.text = .ok name := by
  simp [ofString, name.text_ne_empty]

theorem ofString_empty : ofString "" = .error .emptyRelationName := rfl

theorem text_of_ofString {text : String} {name : RelationName} (h : ofString text = .ok name) :
    name.text = text := by
  unfold ofString at h
  split at h
  · cases h
  · cases h; rfl

end RelationName

namespace Alias

/-- The alias written `text`. -/
def ofString (text : String) : Except NameError Alias :=
  if h : text = "" then .error .emptyAlias else .ok ⟨text, h⟩

/-- The alias of the association `name` below `lead`: the lead is put in front verbatim, so an
empty lead gives the name itself. -/
def under (lead name : String) : Except NameError Alias :=
  ofString (lead ++ name)

/-- The alias of an association that has a name. -/
def below (lead name : String) (h : name ≠ "") : Alias :=
  ⟨lead ++ name, fun he => h (String.append_eq_empty_iff.1 he).2⟩

@[ext] theorem ext {a b : Alias} (h : a.text = b.text) : a = b := by
  cases a; cases b; cases h; rfl

@[simp] theorem ofString_text (name : Alias) : ofString name.text = .ok name := by
  simp [ofString, name.text_ne_empty]

theorem ofString_empty : ofString "" = .error .emptyAlias := rfl

theorem text_of_ofString {text : String} {name : Alias} (h : ofString text = .ok name) :
    name.text = text := by
  unfold ofString at h
  split at h
  · cases h
  · cases h; rfl

@[simp] theorem text_below (lead name : String) (h : name ≠ "") :
    (below lead name h).text = lead ++ name := rfl

theorem under_eq_ok (lead name : String) (h : name ≠ "") :
    under lead name = .ok (below lead name h) :=
  ofString_text (below lead name h)

end Alias

end JoinGraph

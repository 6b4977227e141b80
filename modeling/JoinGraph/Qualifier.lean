import JoinGraph.Vocabulary

/-!
# Join qualifiers

The kind of a join. Association expansion asks for `left` unless told otherwise, so that parents
without related rows are still returned.
-/

namespace JoinGraph

/-- Join kind attached to every join of a query. -/
inductive Qualifier where
  /-- Rows of both sides are present. -/
  | inner
  /-- The joined side may be absent. -/
  | left
  /-- The side joined to may be absent. -/
  | right
  /-- Either side may be absent. -/
  | full
  /-- Every pair of rows; the condition is ignored. -/
  | cross
deriving DecidableEq, Repr

namespace Qualifier

/-- Joins are left joins unless another kind is asked for. -/
instance : Inhabited Qualifier := ⟨left⟩

instance : Vocabulary Qualifier where
  word
    | inner => "inner"
    | left => "left"
    | right => "right"
    | full => "full"
    | cross => "cross"
  all := [inner, left, right, full, cross]
  find_word a := by cases a <;> rfl

/-- Rows of one side may be absent from the output. -/
def isOuter : Qualifier → Bool
  | left | right | full => true
  | inner | cross => false

end Qualifier

end JoinGraph

import JoinGraph.Binary64
import JoinGraph.Binding

/-!
# Expressions

One tree type is shared by every clause and every join condition. The engine looks at references
only: literals are carried through untouched, and a node that could not be classified refers to
nothing.
-/

namespace JoinGraph

/-- A literal value, never interpreted. -/
inductive Literal where
  | null
  | boolean (value : Bool)
  | integer (value : Int64)
  | float (value : Binary64)
  | string (value : String)
  /-- A positional query parameter. -/
  | param (position : Nat)
deriving DecidableEq

/-- Operator of an application. -/
inductive Operator where
  | eq
  | notEq
  | lt
  | ltEq
  | gt
  | gtEq
  | and
  | or
  | not
  | isNull
  | isIn
  | like
  | plus
  | minus
  | multiply
  | divide
  /-- A named function or aggregate. -/
  | call (name : String)
deriving DecidableEq

namespace Operator

/-- How an operator is displayed. -/
def symbol : Operator → String
  | eq => "=="
  | notEq => "!="
  | lt => "<"
  | ltEq => "<="
  | gt => ">"
  | gtEq => ">="
  | and => "and"
  | or => "or"
  | not => "not"
  | isNull => "is_nil"
  | isIn => "in"
  | like => "like"
  | plus => "+"
  | minus => "-"
  | multiply => "*"
  | divide => "/"
  | call name => name

/-- The operator compares two values. -/
def isComparison : Operator → Bool
  | eq | notEq | lt | ltEq | gt | gtEq => true
  | _ => false

/-- The operator connects truth values. -/
def isLogical : Operator → Bool
  | and | or | not => true
  | _ => false

end Operator

/-- An expression tree. -/
inductive Expr where
  /-- A binding, or one of its fields. -/
  | reference (binding : Binding) (field : Option String)
  | literal (value : Literal)
  /-- An expression wrapped with a type tag. -/
  | tagged (inner : Expr) (tag : String)
  | apply (op : Operator) (args : List Expr)
  | seq (items : List Expr)
  /-- A node that could not be classified. -/
  | unsupported (description : String)
deriving Inhabited

namespace Expr

/-- Reference to a field of a binding. -/
def field (binding : Binding) (name : String) : Expr := reference binding (some name)

/-- Reference to the whole row of a binding. -/
def row (binding : Binding) : Expr := reference binding none

/-- Equality of two expressions. -/
def equals (left right : Expr) : Expr := apply .eq [left, right]

/-- The condition that always holds. -/
def always : Expr := literal (.boolean true)

end Expr

/-- Equality of literals as values: numbers are compared as the floating point standard does. -/
def Literal.sameValue : Literal → Literal → Bool
  | .float x, .float y => x.sameValue y
  | a, b => decide (a = b)

namespace Expr

mutual

/-- Equality of expressions whose literals are compared as values. -/
def sameValue : Expr → Expr → Bool
  | reference b f, reference b' f' => decide (b = b') && decide (f = f')
  | literal v, literal v' => v.sameValue v'
  | tagged e t, tagged e' t' => e.sameValue e' && decide (t = t')
  | apply op args, apply op' args' => decide (op = op') && sameValues args args'
  | seq items, seq items' => sameValues items items'
  | unsupported d, unsupported d' => decide (d = d')
  | _, _ => false

/-- Equality of lists of expressions, item by item. -/
def sameValues : List Expr → List Expr → Bool
  | [], [] => true
  | e :: rest, e' :: rest' => e.sameValue e' && sameValues rest rest'
  | _, _ => false

end

end Expr

end JoinGraph

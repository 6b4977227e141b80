import JoinGraph.Decode
import JoinGraph.Expr

/-!
# JSON form of expressions

Operators without a name are words; every other shape is an object with one member, whose key names
the shape.
-/

namespace JoinGraph

namespace Operator

/-- The operators that are written as words. -/
def tags : List (String × Operator) :=
  [("Eq", eq), ("NotEq", notEq), ("Lt", lt), ("LtEq", ltEq), ("Gt", gt), ("GtEq", gtEq),
    ("And", and), ("Or", or), ("Not", not), ("IsNull", isNull), ("In", isIn), ("Like", like),
    ("Plus", plus), ("Minus", minus), ("Multiply", multiply), ("Divide", divide)]

/-- The JSON form of an operator. -/
def toJson : Operator → Json
  | eq => .string "Eq"
  | notEq => .string "NotEq"
  | lt => .string "Lt"
  | ltEq => .string "LtEq"
  | gt => .string "Gt"
  | gtEq => .string "GtEq"
  | and => .string "And"
  | or => .string "Or"
  | not => .string "Not"
  | isNull => .string "IsNull"
  | isIn => .string "In"
  | like => .string "Like"
  | plus => .string "Plus"
  | minus => .string "Minus"
  | multiply => .string "Multiply"
  | divide => .string "Divide"
  | call name => .object [("Call", .string name)]

/-- Read an operator. One without a name is a text, and not an object with a null member. -/
def ofJson : Decoder Operator
  | .string tag => Decoder.require ((tags.find? fun t => decide (t.1 = tag)).map (·.2))
  | .object [("Call", name)] => (Decoder.text name).map call
  | _ => .error .shape

end Operator

namespace Literal

/-- The JSON form of a literal. -/
def toJson : Literal → Json
  | null => .string "Null"
  | boolean b => .object [("Boolean", .bool b)]
  | integer n => .object [("Integer", .int n.toInt)]
  | float x => .object [("Float", .float x)]
  | string s => .object [("String", .string s)]
  | param n => .object [("Param", .int n)]

/-- Read a literal. Null is a text, and not an object with a null member. -/
def ofJson : Decoder Literal
  | .string tag => if tag = "Null" then .ok null else .error .shape
  | .object [(tag, v)] =>
    match tag with
    | "Boolean" => (Decoder.truth v).map boolean
    | "Integer" => (Decoder.integer v).map integer
    | "Float" => (Decoder.float v).map float
    | "String" => (Decoder.text v).map string
    | "Param" => (Decoder.natural v).map param
    | _ => .error .shape
  | _ => .error .shape

end Literal

namespace Expr

mutual

/-- The JSON form of an expression. -/
def toJson : Expr → Json
  | reference b f =>
    .object [("Reference",
      .object [("binding", .int b), ("field", (f.map Json.string).getD .null)])]
  | literal v => .object [("Literal", v.toJson)]
  | tagged e tag => .object [("Tagged", .object [("expr", e.toJson), ("tag", .string tag)])]
  | apply op args =>
    .object [("Apply", .object [("args", .array (listToJson args)), ("op", op.toJson)])]
  | seq items => .object [("Seq", .array (listToJson items))]
  | unsupported d => .object [("Unsupported", .object [("description", .string d)])]

/-- The JSON forms of expressions. -/
def listToJson : List Expr → List Json
  | [] => []
  | e :: rest => e.toJson :: listToJson rest

end

/-- The JSON form of an expression that may be absent. -/
def optionalToJson (e : Option Expr) : Json := (e.map toJson).getD .null

/-- Read a node of an expression, given how its operands are read. -/
def nodeOfJson (operand : Decoder Expr) : Decoder Expr := fun v => do
  let (tag, body) ← Decoder.variant v
  match tag with
  | "Reference" =>
    let ms ← Decoder.members body
    -- Members that are there are read before a missing one is noticed.
    let b ← Decoder.field ms "binding" Decoder.natural
    let f ← Decoder.nullable ms "field" Decoder.text
    return reference (← Decoder.require b) f
  | "Literal" => return literal (← Literal.ofJson body)
  | "Tagged" =>
    let ms ← Decoder.members body
    let e ← Decoder.field ms "expr" operand
    let t ← Decoder.field ms "tag" Decoder.text
    return tagged (← Decoder.require e) (← Decoder.require t)
  | "Apply" =>
    let ms ← Decoder.members body
    let args ← Decoder.field ms "args" (Decoder.list operand)
    let op ← Decoder.field ms "op" Operator.ofJson
    return apply (← Decoder.require op) (← Decoder.require args)
  | "Seq" => return seq (← Decoder.list operand body)
  | "Unsupported" =>
    let ms ← Decoder.members body
    let d ← Decoder.field ms "description" Decoder.text
    return unsupported (← Decoder.require d)
  | _ => .error .shape

/-- Read an expression nested at most as deep as the bound says. -/
def ofJsonWithin : Nat → Decoder Expr
  | 0, _ => .error .shape
  | bound + 1, v => nodeOfJson (ofJsonWithin bound) v

/-- Read an expression. -/
def ofJson : Decoder Expr := fun v => ofJsonWithin (v.depth + 1) v

end Expr

end JoinGraph

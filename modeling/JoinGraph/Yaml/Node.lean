import JoinGraph.Yaml.Token

/-!
# YAML nodes

What a document consists of. A node may carry a tag, and a reference stands for the node with its
number. Numbers are given to anchors as a document is read; when several nodes get one number, the
one that starts last has it.
-/

namespace JoinGraph.Yaml

/-- A node of a document. -/
inductive Node where
  /-- A text; `plain` when it is written without quotes and not as a block. -/
  | scalar (tag : Option Tag) (text : String) (plain : Bool)
  | sequence (tag : Option Tag) (items : List Node)
  | mapping (tag : Option Tag) (entries : List (Node × Node))
  /-- A node that stands elsewhere in the document. -/
  | reference (number : Nat)
deriving Inhabited

namespace Node

/-- The scalar that stands where nothing is written. -/
def nothing : Node := scalar none "" true

mutual

/-- How many marks it takes to write a node: one for a scalar or a reference, two for the ends of a
collection. -/
def weight : Node → Nat
  | scalar _ _ _ => 1
  | reference _ => 1
  | sequence _ items => weightOfItems items + 2
  | mapping _ entries => weightOfEntries entries + 2

/-- The weight of items. -/
def weightOfItems : List Node → Nat
  | [] => 0
  | n :: rest => n.weight + weightOfItems rest

/-- The weight of entries. -/
def weightOfEntries : List (Node × Node) → Nat
  | [] => 0
  | (k, v) :: rest => k.weight + v.weight + weightOfEntries rest

end

end Node

/-- A node that has an anchor. -/
structure AnchoredNode where
  /-- Its number. -/
  number : Nat
  /-- The number of anchors before its own. -/
  order : Nat
  /-- The node. -/
  node : Node

/-- A document: its node, and the nodes that references stand for. -/
structure Document where
  /-- The outermost node; none when the text has no document. -/
  root : Option Node
  /-- The anchored nodes. -/
  anchored : List AnchoredNode

/-- The node that a number stands for. -/
def Document.find? (d : Document) (number : Nat) : Option Node :=
  let candidates := d.anchored.filter fun a => a.number = number
  let latest := candidates.foldl (fun best a =>
    match best with
    | none => some a
    | some b => if b.order < a.order then some a else some b) (none : Option AnchoredNode)
  latest.map (·.node)

end JoinGraph.Yaml

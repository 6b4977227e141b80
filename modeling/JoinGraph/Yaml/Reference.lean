import JoinGraph.Yaml.Document

/-!
# Following references

A reference stands for the node with its number. Nodes may be nested to a limited depth, references
followed, so a node that contains itself is refused; and references may be followed only so often,
in proportion to the size of the document, so small documents do not stand for huge ones.
-/

namespace JoinGraph.Yaml

/-- How deep collections may be nested. -/
def maxDepth : Nat := 128

/-- How often references may be followed, for each unit of a document's weight. -/
def jumpsPerUnit : Nat := 100

namespace Document

/-- The node that a node stands for, at the cost of a jump if it is a reference. -/
def follow (d : Document) (n : Node) : StateT Nat Option Node :=
  match n with
  | .reference number => fun jumps =>
    match jumps, d.find? number with
    | jumps + 1, some n => some (n, jumps)
    | _, _ => none
  | n => pure n

/-- A node with all references replaced, if it is nested at most as deep as given and the jumps
suffice. -/
def expand (d : Document) : Nat → Node → StateT Nat Option Node
  | 0, n => do
    match ← d.follow n with
    | .scalar tag text plain => pure (.scalar tag text plain)
    | _ => fun _ => none
  | depth + 1, n => do
    match ← d.follow n with
    | .scalar tag text plain => pure (.scalar tag text plain)
    | .sequence tag items => .sequence tag <$> items.mapM (d.expand depth)
    | .mapping tag entries =>
      .mapping tag <$> entries.mapM fun e => do
        let k ← d.expand depth e.1
        let v ← d.expand depth e.2
        return (k, v)
    | .reference _ => fun _ => none

/-- The content of a document, references replaced: none when there is no document. -/
def content? (d : Document) : Option (Option Node) :=
  match d.root with
  | none => some none
  | some root =>
    ((d.expand maxDepth root).run (jumpsPerUnit * root.weight)).map fun (n, _) => some n

end Document

/-- The content of a text: none when it holds no document. -/
def contentOfText? (text : String) : Option (Option Node) := do
  (← Document.ofText? text).content?

end JoinGraph.Yaml

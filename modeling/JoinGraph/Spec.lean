import JoinGraph.Error
import JoinGraph.Value

/-!
# Nested specifications

A specification is a tree of association names: which related data to join and to preload. It is
written as an untyped value. A name is a text, siblings are a sequence, and what is nested under a
name is a mapping from the name; a mapping with just the keys `prefix` and `spec` puts a lead in
front of every alias generated below it.

`Spec.ofValue` reads a value and points at the first node that is not acceptable; `Spec.toValue`
writes a specification in the same notation. `Spec.aliases` is the view that expansion follows: the
aliases of all nodes in preorder.
-/

namespace JoinGraph

/-- A tree of related data. -/
inductive Spec where
  | relation (name : String)
  /-- Siblings, from left to right. -/
  | seq (items : List Spec)
  /-- An association, and what to expand beneath it. -/
  | nested (name : String) (sub : Spec)
  /-- A lead for every alias generated beneath it. -/
  | prefixed (lead : String) (sub : Spec)
deriving Inhabited

namespace Spec

/-- A node is refused. -/
def refuse {α : Type} (place : SpecPlace) (fault : SpecFault) : Except QueryError α :=
  .error (.invalidSpecification place fault)

/-- One entry stands for itself, several are siblings. -/
def ofEntries : List Spec → Spec
  | [s] => s
  | specs => seq specs

mutual

/-- Read the value at a place. -/
def ofValueAt (place : SpecPlace) : Value → Except QueryError Spec
  | .string name => if name = "" then refuse place .emptyName else .ok (relation name)
  | .sequence items => (itemsOfValues place 0 items).map seq
  | .mapping [] => refuse place .emptyMapping
  -- Two entries with just these keys, in either order, are a lead and a specification.
  | .mapping [(.string k, v), (.string l, w)] =>
    if k = "prefix" ∧ l = "spec" then
      match v.text? with
      | none => refuse (.lead :: place) .leadNotText
      | some lead => (ofValueAt (.spec :: place) w).map (prefixed lead)
    else if k = "spec" ∧ l = "prefix" then
      match w.text? with
      | none => refuse (.lead :: place) .leadNotText
      | some lead => (ofValueAt (.spec :: place) v).map (prefixed lead)
    else (entriesOfValues place [(.string k, v), (.string l, w)]).map ofEntries
  | .mapping entries => (entriesOfValues place entries).map ofEntries
  | .null => refuse place .foundNull
  | .bool _ => refuse place .foundTruth
  | .int _ => refuse place .foundNumber
  | .float _ => refuse place .foundNumber
  | .tagged tag _ => refuse place (.foundTagged tag)

/-- Read the items of a sequence, numbered from `index`. -/
def itemsOfValues (place : SpecPlace) (index : Nat) : List Value → Except QueryError (List Spec)
  | [] => .ok []
  | v :: rest => do
    let s ← ofValueAt (.item index :: place) v
    return s :: (← itemsOfValues place (index + 1) rest)

/-- Read the entries of a mapping, the key of each before its value. -/
def entriesOfValues (place : SpecPlace) : List (Value × Value) → Except QueryError (List Spec)
  | [] => .ok []
  | (key, v) :: rest =>
    match key.text? with
    | none => refuse place .keyNotName
    | some name =>
      if name = "" then refuse place .keyNotName
      else do
        let s ← ofValueAt (.under name :: place) v
        return nested name s :: (← entriesOfValues place rest)

end

/-- Read a specification from a value. -/
def ofValue (v : Value) : Except QueryError Spec := ofValueAt [] v

mutual

/-- Write a specification as a value. -/
def toValue : Spec → Value
  | relation name => .string name
  | seq items => .sequence (itemsToValues items)
  | nested name sub => .mapping [(.string name, sub.toValue)]
  | prefixed lead sub => .mapping [(.string "prefix", .string lead), (.string "spec", sub.toValue)]

/-- Write siblings as values. -/
def itemsToValues : List Spec → List Value
  | [] => []
  | s :: rest => s.toValue :: itemsToValues rest

end

mutual

/-- The aliases that a specification generates below a lead, in preorder. -/
def aliasesBelow (lead : String) : Spec → List String
  | relation name => [lead ++ name]
  | seq items => itemAliasesBelow lead items
  | nested name sub => (lead ++ name) :: sub.aliasesBelow lead
  | prefixed extra sub => sub.aliasesBelow (lead ++ extra)

/-- The aliases that siblings generate below a lead, in preorder. -/
def itemAliasesBelow (lead : String) : List Spec → List String
  | [] => []
  | s :: rest => s.aliasesBelow lead ++ itemAliasesBelow lead rest

end

/-- The aliases that a specification generates, in preorder. -/
def aliases (s : Spec) : List String := s.aliasesBelow ""

end Spec

end JoinGraph

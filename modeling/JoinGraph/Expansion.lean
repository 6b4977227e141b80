import JoinGraph.Registry
import JoinGraph.Spec

/-!
# Expanding specifications

Expansion turns a specification into joins and a preload forest. It goes through the specification
depth first and hands the query on from node to node. Every association becomes a join under the
lead followed by its name; a join that is already there is reused, so repeated and overlapping
expansions share their joins.
-/

namespace JoinGraph

/-- What an expansion works with. -/
structure Expander where
  /-- Resolves associations. -/
  provider : Provider
  /-- The kind of the joins that are generated. -/
  qualifier : Qualifier

/-- Where in a query and in a specification a node is expanded. -/
structure ExpansionSite where
  /-- The binding whose associations the node names. -/
  parent : Binding
  /-- What goes in front of the aliases generated below. -/
  lead : String
  /-- The place of the node in the specification. -/
  place : SpecPlace

namespace ExpansionSite

/-- The site of a whole specification. -/
def start : ExpansionSite := ⟨Binding.root, "", []⟩

/-- The site one step further down. -/
def down (site : ExpansionSite) (step : SpecStep) : ExpansionSite :=
  { site with place := step :: site.place }

end ExpansionSite

/-- The join that an association node asks for. -/
structure AssociationJoin where
  /-- Its alias. -/
  name : Alias
  /-- The binding that holds the alias once the join is registered. -/
  index : Binding
  /-- What is registered under the alias, unless it is held already. -/
  request : JoinRequest

namespace Query

/-- How a message names the relation behind a binding that has no associations. -/
def nameless (q : Query) (b : Binding) : String :=
  match q.source? b with
  | some (.subquery _) => "<subquery>"
  | _ => b.label

/-- The join for an association of the binding at a site. The condition equates the key of the new
binding with the key of its parent. -/
def associationJoin (e : Expander) (q : Query) (site : ExpansionSite) (name : String) :
    Except QueryError AssociationJoin :=
  if h : name = "" then .error (.invalidSpecification site.place .emptyName)
  else
    match (q.source? site.parent).bind Source.relation? with
    | none => .error (.unknownAssociation (q.nameless site.parent) name)
    | some relation =>
      match e.provider relation name with
      | none => .error (.unknownAssociation relation.text name)
      | some association =>
        let generated := Alias.below site.lead name h
        -- The binding that holds the alias afterwards, whether the join is reused or new.
        let index := (q.binding? generated).getD q.nextIndex
        .ok {
          name := generated
          index := index
          request := {
            qualifier := e.qualifier
            source := .association site.parent association.name association.related
            on := .equals (.field index association.relatedKey)
              (.field site.parent association.ownerKey) } }

mutual

/-- Expand one node: the query with its joins, and the trees with the shape of the node. -/
def expandNode (e : Expander) (q : Query) (site : ExpansionSite) :
    Spec → Except QueryError (Query × List PreloadTree)
  | .relation name =>
    match q.associationJoin e site name with
    | .error error => .error error
    | .ok join => .ok (q.ensure join.name join.request, [PreloadTree.leaf name join.name])
  | .seq items => expandItems e q site 0 items
  | .nested name sub =>
    match q.associationJoin e site name with
    | .error error => .error error
    | .ok join =>
      let below := { site.down (.under name) with parent := join.index }
      match expandNode e (q.ensure join.name join.request) below sub with
      | .error error => .error error
      | .ok (q, children) => .ok (q, [⟨name, join.name, children⟩])
  | .prefixed extra sub =>
    expandNode e q { site.down .spec with lead := site.lead ++ extra } sub

/-- Expand siblings, numbered from `index`, one after the other. -/
def expandItems (e : Expander) (q : Query) (site : ExpansionSite) (index : Nat) :
    List Spec → Except QueryError (Query × List PreloadTree)
  | [] => .ok (q, [])
  | item :: rest =>
    match expandNode e q (site.down (.item index)) item with
    | .error error => .error error
    | .ok (q, trees) =>
      match expandItems e q site (index + 1) rest with
      | .error error => .error error
      | .ok (q, more) => .ok (q, trees ++ more)

end

/-- Expand a specification from the root: the query with every join registered, and the trees
merged into its preload forest. -/
def expand (e : Expander) (q : Query) (spec : Spec) : Except QueryError Query :=
  match q.expandNode e .start spec with
  | .error error => .error error
  | .ok (q, forest) => .ok { q with preloads := PreloadTree.merge q.preloads forest }

end Query

end JoinGraph

import JoinGraph.Name

/-!
# Preload trees

Which joined relations nest into which result objects. A node names the association its rows nest
under in the parent object and the alias of the join that supplies them.

`PreloadTree.merge` joins two forests: a tree whose alias is already present at its level is merged
into the first such tree, anything else is appended in order. `PreloadTree.aliases` is the view of
a forest that liveness looks at.
-/

namespace JoinGraph

/-- One node of a preload forest. -/
structure PreloadTree where
  /-- Association on the parent under which the rows nest. -/
  association : String
  /-- Alias of the join that supplies the rows. -/
  name : Alias
  /-- Nested preloads. -/
  children : List PreloadTree

namespace PreloadTree

/-- A node without nested preloads. -/
def leaf (association : String) (name : Alias) : PreloadTree := ⟨association, name, []⟩

mutual

/-- The aliases of a tree in preorder. -/
def aliases : PreloadTree → List Alias
  | ⟨_, name, children⟩ => name :: forestAliases children

/-- The aliases of a forest in preorder. -/
def forestAliases : List PreloadTree → List Alias
  | [] => []
  | tree :: rest => tree.aliases ++ forestAliases rest

end

/-- Change the children of the first tree with this alias, or append a new tree. -/
def updateOrAppend (association : String) (name : Alias) (children : List PreloadTree)
    (update : List PreloadTree → List PreloadTree) : List PreloadTree → List PreloadTree
  | [] => [⟨association, name, children⟩]
  | tree :: rest =>
    if tree.name = name then { tree with children := update tree.children } :: rest
    else tree :: updateOrAppend association name children update rest

mutual

/-- Merge one tree into a forest. -/
def mergeTree : PreloadTree → List PreloadTree → List PreloadTree
  | ⟨association, name, children⟩, forest =>
    updateOrAppend association name children (mergeAll children) forest

/-- Merge trees into a forest, one after the other. -/
def mergeAll : List PreloadTree → List PreloadTree → List PreloadTree
  | [], forest => forest
  | tree :: rest, forest => mergeAll rest (tree.mergeTree forest)

end

/-- The forest with `incoming` merged into it. -/
def merge (forest incoming : List PreloadTree) : List PreloadTree := mergeAll incoming forest

@[simp] theorem merge_nil (forest : List PreloadTree) : merge forest [] = forest := rfl

theorem merge_cons (forest : List PreloadTree) (tree : PreloadTree) (rest : List PreloadTree) :
    merge forest (tree :: rest) = merge (merge forest [tree]) rest := rfl

/-- Merging two forests one after the other is merging them together. -/
theorem merge_append (forest xs ys : List PreloadTree) :
    merge forest (xs ++ ys) = merge (merge forest xs) ys := by
  induction xs generalizing forest with
  | nil => rfl
  | cons x xs ih => exact ih (x.mergeTree forest)

theorem forestAliases_append (xs ys : List PreloadTree) :
    forestAliases (xs ++ ys) = forestAliases xs ++ forestAliases ys := by
  induction xs with
  | nil => simp [forestAliases]
  | cons x xs ih => simp [forestAliases, ih, List.append_assoc]

end PreloadTree

end JoinGraph

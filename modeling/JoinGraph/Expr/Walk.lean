import JoinGraph.Expr

/-!
# Walking an expression

`Expr.foldNodes` visits every node, operators before operands and operands from left to right. The
nodes still to visit are kept in a list, so nesting is bounded by memory only. `Expr.preorder` is
the plain recursion, and `Expr.walk_eq_preorder` says that both give the same nodes in the same
order.
-/

namespace JoinGraph.Expr

/-- The operands of a node, from left to right. -/
def children : Expr → List Expr
  | apply _ args => args
  | seq items => items
  | tagged inner _ => [inner]
  | reference _ _ | literal _ | unsupported _ => []

theorem sizeOf_lt_of_mem_children {operand e : Expr} (h : operand ∈ e.children) :
    sizeOf operand < sizeOf e := by
  have hlist := List.sizeOf_lt_of_mem h
  cases e with
  | apply | seq => simp only [children, apply.sizeOf_spec, seq.sizeOf_spec] at hlist ⊢; omega
  | tagged inner tag =>
    obtain rfl := List.mem_singleton.1 h
    simp only [tagged.sizeOf_spec]
    omega
  | reference | literal | unsupported => cases h

/-- To show something of all expressions, show it of each one from its operands. -/
@[elab_as_elim]
theorem operands_induction {motive : Expr → Prop}
    (node : ∀ e : Expr, (∀ operand ∈ e.children, motive operand) → motive e) (e : Expr) :
    motive e :=
  node e fun operand _ => operands_induction node operand
termination_by sizeOf e
decreasing_by exact sizeOf_lt_of_mem_children ‹_›

private theorem sizeOf_append (xs ys : List Expr) :
    sizeOf (xs ++ ys) + 1 = sizeOf xs + sizeOf ys := by
  induction xs with
  | nil => simp; omega
  | cons x xs ih => simp only [List.cons_append, List.cons.sizeOf_spec]; omega

private theorem sizeOf_children_append_lt (e : Expr) (pending : List Expr) :
    sizeOf (e.children ++ pending) < sizeOf (e :: pending) := by
  have h := sizeOf_append e.children pending
  cases e <;> simp [children] at h ⊢ <;> omega

/-- Visit the pending expressions one after the other, each with all its nodes. -/
def foldPending {σ : Type} (visit : σ → Expr → σ) (state : σ) : List Expr → σ
  | [] => state
  | e :: pending => foldPending visit (visit state e) (e.children ++ pending)
termination_by pending => sizeOf pending
decreasing_by exact sizeOf_children_append_lt e pending

/-- Visit every node of an expression, operators first, operands from left to right. -/
def foldNodes {σ : Type} (visit : σ → Expr → σ) (state : σ) (e : Expr) : σ :=
  foldPending visit state [e]

/-- The nodes of an expression in the order they are visited. -/
def walk (e : Expr) : List Expr :=
  (e.foldNodes (fun nodes node => node :: nodes) []).reverse

mutual

/-- The nodes of an expression: the node itself, then those of its operands from left to right. -/
def preorder : Expr → List Expr
  | apply op args => apply op args :: preorderAll args
  | seq items => seq items :: preorderAll items
  | tagged inner tag => tagged inner tag :: inner.preorder
  | reference b f => [reference b f]
  | literal v => [literal v]
  | unsupported d => [unsupported d]

/-- The nodes of several expressions, one after the other. -/
def preorderAll : List Expr → List Expr
  | [] => []
  | e :: rest => e.preorder ++ preorderAll rest

end

theorem preorder_eq (e : Expr) : e.preorder = e :: preorderAll e.children := by
  cases e <;> simp [preorder, preorderAll, children]

theorem preorderAll_eq_flatMap (es : List Expr) : preorderAll es = es.flatMap preorder := by
  induction es with
  | nil => rfl
  | cons e rest ih => rw [preorderAll, ih, List.flatMap_cons]

theorem preorderAll_append (xs ys : List Expr) :
    preorderAll (xs ++ ys) = preorderAll xs ++ preorderAll ys := by
  simp only [preorderAll_eq_flatMap, List.flatMap_append]

theorem foldPending_eq_foldl {σ : Type} (visit : σ → Expr → σ) (state : σ) (pending : List Expr) :
    foldPending visit state pending = (preorderAll pending).foldl visit state := by
  fun_induction foldPending visit state pending with
  | case1 => simp [preorderAll]
  | case2 state e pending ih =>
    rw [ih, preorderAll_append]
    simp [preorderAll, preorder_eq e]

theorem foldNodes_eq_foldl {σ : Type} (visit : σ → Expr → σ) (state : σ) (e : Expr) :
    e.foldNodes visit state = e.preorder.foldl visit state := by
  simp [foldNodes, foldPending_eq_foldl, preorderAll]

theorem walk_eq_preorder (e : Expr) : e.walk = e.preorder := by
  have h : ∀ (nodes acc : List Expr),
      nodes.foldl (fun nodes node => node :: nodes) acc = nodes.reverse ++ acc := by
    intro nodes
    induction nodes with
    | nil => simp
    | cons n rest ih => intro acc; simp [ih]
  simp [walk, foldNodes_eq_foldl, h]

/-- The binding a node refers to. -/
def binding? : Expr → Option Binding
  | reference b _ => some b
  | _ => none

/-- The description of a node that could not be classified. -/
def description? : Expr → Option String
  | unsupported d => some d
  | _ => none

/-- The bindings referred to, in the order of the walk and with repetitions. -/
def refs (e : Expr) : List Binding := e.walk.filterMap binding?

/-- The bindings referred to, ascending and once each. -/
def refSet (e : Expr) : List Binding := Binding.ascending e.refs

/-- The descriptions of nodes that could not be classified, in the order of the walk. -/
def unsupportedNodes (e : Expr) : List String := e.walk.filterMap description?

theorem refs_eq_filterMap (e : Expr) : e.refs = e.preorder.filterMap binding? := by
  rw [refs, walk_eq_preorder]

/-- The references of a node come before those of its operands. -/
theorem refs_eq_append (e : Expr) : e.refs = e.binding?.toList ++ e.children.flatMap refs := by
  have hrefs : e.children.flatMap refs = (preorderAll e.children).filterMap binding? := by
    rw [preorderAll_eq_flatMap, List.filterMap_flatMap]
    exact congrArg (List.flatMap · e.children) (funext refs_eq_filterMap)
  rw [hrefs, refs_eq_filterMap, preorder_eq, ← List.singleton_append, List.filterMap_append]
  cases e <;> rfl

theorem mem_refSet {b : Binding} {e : Expr} : b ∈ e.refSet ↔ b ∈ e.refs := by
  simp [refSet]

end JoinGraph.Expr

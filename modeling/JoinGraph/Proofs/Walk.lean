import JoinGraph.Expr.Walk
import Mathlib.Data.List.Basic
import Mathlib.Logic.Function.Iterate

/-!
# The Order of a Walk

A walk goes on in rounds. Each round takes the top off a stack of expressions, visits it and puts
its operands on the stack (`Expr.walkRound`). What is left to visit are the nodes of the expressions
on the stack (`Expr.nodesLeft`), from the top down and those of each by plain recursion, and a round
visits the first of them and leaves the others (`exists_walkRound_eq`). So a walk takes one round
for each node, and visits them in the order of `Expr.preorder`. Rounds come to the same as
`Expr.foldNodes`, as each is one step of `Expr.foldPending` (`foldPending_walkRound`).

That this is the order in which an expression is read is stated without a recursion over nodes. The
place of a node is the way down to it (`Expr.nodeAt`), and the nodes with their places
(`Expr.occurrences`) are listed place by place, in lexicographic order.
-/

namespace JoinGraph.Expr

/-! ### Rounds -/

section Rounds

variable {σ : Type} (visit : σ → Expr → σ) (state : σ) {stack : List Expr}

/-- One round of a walk, with the top of the stack at its end: the top is taken off and visited, and
its operands are put on from right to left, so that the first one is on top. -/
def walkRound : σ × List Expr → σ × List Expr
  | (state, stack) =>
    match stack.getLast? with
    | none => (state, stack)
    | some e => (visit state e, stack.dropLast ++ e.children.reverse)

/-- A round is one step of the walk over the expressions on the stack, from the top down. -/
theorem foldPending_walkRound (s : σ × List Expr) :
    foldPending visit (walkRound visit s).1 (walkRound visit s).2.reverse
      = foldPending visit s.1 s.2.reverse := by
  obtain ⟨state, stack⟩ := s
  rcases List.eq_nil_or_concat' stack with rfl | ⟨below, e, rfl⟩
  · rfl
  · rw [walkRound, List.getLast?_concat, List.dropLast_concat, List.reverse_concat, foldPending,
      List.reverse_append, List.reverse_reverse]

/-- Rounds never change what the walk comes to. -/
theorem foldPending_iterate_walkRound (k : Nat) (s : σ × List Expr) :
    foldPending visit ((walkRound visit)^[k] s).1 ((walkRound visit)^[k] s).2.reverse
      = foldPending visit s.1 s.2.reverse := by
  induction k with
  | zero => rfl
  | succ k ih => rw [Function.iterate_succ_apply', foldPending_walkRound, ih]

/-- The nodes that are left to visit: those of the expressions on the stack, from the top down. -/
def nodesLeft (stack : List Expr) : List Expr := preorderAll stack.reverse

theorem nodesLeft_singleton (e : Expr) : nodesLeft [e] = e.preorder := by
  rw [nodesLeft, List.reverse_singleton, preorderAll, preorderAll, List.append_nil]

/-- The top is the next node to visit, and its operands come before the rest of the stack. -/
theorem nodesLeft_concat (stack : List Expr) (e : Expr) :
    nodesLeft (stack ++ [e]) = e :: nodesLeft (stack ++ e.children.reverse) := by
  simp only [nodesLeft, List.reverse_append, List.reverse_reverse, List.reverse_singleton,
    preorderAll_append]
  rw [preorderAll, preorderAll, List.append_nil, preorder_eq, List.cons_append]

theorem nodesLeft_eq_nil_iff : nodesLeft stack = [] ↔ stack = [] := by
  constructor
  · intro h
    rcases List.eq_nil_or_concat' stack with rfl | ⟨below, e, rfl⟩
    · rfl
    · rw [nodesLeft_concat] at h
      cases h
  · rintro rfl
    rfl

/-- A round visits the first of the nodes that are left, and leaves the others. -/
theorem exists_walkRound_eq {node : Expr} {nodes : List Expr}
    (h : nodesLeft stack = node :: nodes) :
    ∃ rest, walkRound visit (state, stack) = (visit state node, rest) ∧ nodesLeft rest = nodes := by
  rcases List.eq_nil_or_concat' stack with rfl | ⟨below, e, rfl⟩
  · cases h
  · rw [nodesLeft_concat] at h
    obtain ⟨rfl, hnodes⟩ := List.cons.inj h
    refine ⟨below ++ e.children.reverse, ?_, hnodes⟩
    rw [walkRound, List.getLast?_concat, List.dropLast_concat]

/-- After a number of rounds as many of the nodes have been visited, and the others are left. -/
theorem exists_iterate_walkRound_eq (k : Nat) (stack : List Expr) :
    ∃ rest, (walkRound visit)^[k] (state, stack)
        = (((nodesLeft stack).take k).foldl visit state, rest)
      ∧ nodesLeft rest = (nodesLeft stack).drop k := by
  -- For all stacks at once, as the rounds that follow the first start with the stack it leaves.
  induction k generalizing state stack with
  | zero => exact ⟨stack, rfl, rfl⟩
  | succ k ih =>
    rw [Function.iterate_succ_apply]
    cases hleft : nodesLeft stack with
    | nil =>
      -- A round with an empty stack changes nothing.
      obtain rfl := nodesLeft_eq_nil_iff.1 hleft
      obtain ⟨rest, hrounds, hrest⟩ := ih state []
      rw [hleft, List.take_nil] at hrounds
      rw [hleft, List.drop_nil] at hrest
      exact ⟨rest, hrounds, hrest⟩
    | cons node nodes =>
      obtain ⟨next, hround, hnext⟩ := exists_walkRound_eq visit state hleft
      obtain ⟨rest, hrounds, hrest⟩ := ih (visit state node) next
      rw [hnext] at hrounds hrest
      exact ⟨rest, hround ▸ hrounds, hrest⟩

/-- The stack is empty from the round on that visits the last node. -/
theorem iterate_walkRound_snd_eq_nil_iff (e : Expr) (k : Nat) :
    ((walkRound visit)^[k] (state, [e])).2 = [] ↔ e.preorder.length ≤ k := by
  obtain ⟨rest, hrounds, hrest⟩ := exists_iterate_walkRound_eq visit state k [e]
  rw [hrounds, ← nodesLeft_eq_nil_iff, hrest, nodesLeft_singleton, List.drop_eq_nil_iff]

/-- By then the rounds have come to what the walk comes to. -/
theorem iterate_walkRound_eq (e : Expr) :
    (walkRound visit)^[e.preorder.length] (state, [e]) = (e.foldNodes visit state, []) := by
  have hstack := (iterate_walkRound_snd_eq_nil_iff visit state e _).2 (Nat.le_refl _)
  have hstate := foldPending_iterate_walkRound visit e.preorder.length (state, [e])
  rw [hstack, List.reverse_nil, foldPending] at hstate
  exact Prod.ext hstate hstack

end Rounds

/-! ### Places -/

/-- The node at a place: the place says, from the top down, which operand to go to. -/
def nodeAt : Expr → List Nat → Option Expr
  | e, [] => some e
  | apply _ args, i :: place => args[i]?.bind fun arg => arg.nodeAt place
  | seq items, i :: place => items[i]?.bind fun item => item.nodeAt place
  | tagged inner _, 0 :: place => inner.nodeAt place
  | _, _ :: _ => none

theorem nodeAt_nil (e : Expr) : e.nodeAt [] = some e := by
  cases e <;> rfl

theorem nodeAt_cons (e : Expr) (i : Nat) (place : List Nat) :
    e.nodeAt (i :: place) = e.children[i]?.bind fun operand => operand.nodeAt place := by
  cases e with
  | tagged inner tag => cases i <;> rfl
  | _ => rfl

mutual

/-- The nodes of an expression with their places, in preorder. -/
def occurrences : Expr → List (List Nat × Expr)
  | apply op args => ([], apply op args) :: occurrencesFrom 0 args
  | seq items => ([], seq items) :: occurrencesFrom 0 items
  | tagged inner tag => ([], tagged inner tag) :: inner.occurrences.map fun o => (0 :: o.1, o.2)
  | reference b f => [([], reference b f)]
  | literal v => [([], literal v)]
  | unsupported d => [([], unsupported d)]

/-- The nodes of operands, which are counted from the given number on, with their places. -/
def occurrencesFrom (i : Nat) : List Expr → List (List Nat × Expr)
  | [] => []
  | e :: rest => (e.occurrences.map fun o => (i :: o.1, o.2)) ++ occurrencesFrom (i + 1) rest

end

/-- The place of one occurrence comes before that of another, in lexicographic order. -/
def Before (o o' : List Nat × Expr) : Prop := List.Lex (· < ·) o.1 o'.1

theorem occurrences_eq (e : Expr) : e.occurrences = ([], e) :: occurrencesFrom 0 e.children := by
  cases e <;> simp [occurrences, occurrencesFrom, children]

theorem map_snd_occurrencesFrom {es : List Expr}
    (h : ∀ e ∈ es, e.occurrences.map Prod.snd = e.preorder) (i : Nat) :
    (occurrencesFrom i es).map Prod.snd = preorderAll es := by
  induction es generalizing i with
  | nil => rw [occurrencesFrom, preorderAll, List.map_nil]
  | cons e rest ih =>
    obtain ⟨he, hrest⟩ := List.forall_mem_cons.1 h
    rw [occurrencesFrom, List.map_append, List.map_map, ih hrest, preorderAll, ← he]
    rfl

/-- Without their places the occurrences are the nodes. -/
theorem map_snd_occurrences (e : Expr) : e.occurrences.map Prod.snd = e.preorder := by
  induction e using operands_induction with
  | node e ih => rw [occurrences_eq, List.map_cons, map_snd_occurrencesFrom ih, preorder_eq]

/-- Places below operands start with the number of the operand. -/
theorem mem_occurrencesFrom_iff {i : Nat} {place : List Nat} {node : Expr} {es : List Expr} :
    (place, node) ∈ occurrencesFrom i es
      ↔ ∃ k rest e, place = (i + k) :: rest ∧ es[k]? = some e ∧ (rest, node) ∈ e.occurrences := by
  induction es generalizing i with
  | nil => simp [occurrencesFrom]
  | cons e es ih =>
    rw [occurrencesFrom, List.mem_append, List.mem_map, ih]
    -- The first operand has the number to count from, and the others count from the next one on.
    constructor
    · rintro (⟨⟨rest, _⟩, hmem, h⟩ | ⟨k, rest, e', rfl, he', hmem⟩)
      · obtain ⟨rfl, rfl⟩ := Prod.mk.inj h
        exact ⟨0, rest, e, rfl, rfl, hmem⟩
      · exact ⟨k + 1, rest, e', by rw [Nat.add_right_comm, Nat.add_assoc], he', hmem⟩
    · rintro ⟨_ | k, rest, e', rfl, he', hmem⟩
      · cases he'
        exact .inl ⟨(rest, node), hmem, rfl⟩
      · exact .inr ⟨k, rest, e', by rw [Nat.add_right_comm, Nat.add_assoc], he', hmem⟩

/-- What is listed for a place is the node at the place. -/
theorem mem_occurrences_iff {e : Expr} {place : List Nat} {node : Expr} :
    (place, node) ∈ e.occurrences ↔ e.nodeAt place = some node := by
  induction place generalizing e with
  | nil =>
    -- No place below an operand is empty.
    rw [occurrences_eq, List.mem_cons, mem_occurrencesFrom_iff, nodeAt_nil]
    simp [eq_comm]
  | cons i place ih =>
    rw [occurrences_eq, List.mem_cons, mem_occurrencesFrom_iff, nodeAt_cons,
      Option.bind_eq_some_iff]
    constructor
    · rintro (h | ⟨k, rest, operand, h, hoperand, hmem⟩)
      · cases h
      · rw [Nat.zero_add] at h
        obtain ⟨rfl, rfl⟩ := List.cons.inj h
        exact ⟨operand, hoperand, ih.1 hmem⟩
    · rintro ⟨operand, hoperand, hnode⟩
      exact .inr ⟨i, place, operand, by rw [Nat.zero_add], hoperand, ih.2 hnode⟩

theorem pairwise_occurrencesFrom {es : List Expr}
    (h : ∀ e ∈ es, e.occurrences.Pairwise Before) (i : Nat) :
    (occurrencesFrom i es).Pairwise Before := by
  induction es generalizing i with
  | nil => rw [occurrencesFrom]; exact .nil
  | cons e rest ih =>
    obtain ⟨he, hrest⟩ := List.forall_mem_cons.1 h
    rw [occurrencesFrom, List.pairwise_append, List.pairwise_map]
    refine ⟨he.imp fun hlex => .cons hlex, ih hrest (i + 1), ?_⟩
    -- What is below the first operand comes before what is below the others.
    intro o ho o' ho'
    obtain ⟨below, -, rfl⟩ := List.mem_map.1 ho
    obtain ⟨k, place, -, hplace, -⟩ := mem_occurrencesFrom_iff.1 ho'
    rw [Before, hplace]
    exact .rel (by omega)

/-- Places are listed in lexicographic order, and once each. -/
theorem pairwise_occurrences (e : Expr) : e.occurrences.Pairwise Before := by
  induction e using operands_induction with
  | node e ih =>
    rw [occurrences_eq, List.pairwise_cons]
    refine ⟨fun o ho => ?_, pairwise_occurrencesFrom ih 0⟩
    obtain ⟨k, place, -, hplace, -⟩ := mem_occurrencesFrom_iff.1 ho
    rw [Before, hplace]
    exact .nil

/-- The nodes of an expression are what stands at its places. -/
theorem mem_preorder_iff {e node : Expr} :
    node ∈ e.preorder ↔ ∃ place, e.nodeAt place = some node := by
  rw [← map_snd_occurrences, List.mem_map]
  constructor
  · rintro ⟨⟨place, _⟩, hmem, rfl⟩
    exact ⟨place, mem_occurrences_iff.1 hmem⟩
  · rintro ⟨place, hplace⟩
    exact ⟨(place, node), mem_occurrences_iff.2 hplace, rfl⟩

/-! ### References -/

/-- To collect the references on a walk is to collect them one after the other. -/
theorem foldNodes_references {σ : Type} (collect : σ → Binding → σ) (state : σ) (e : Expr) :
    e.foldNodes (fun state node => match node with
      | reference b _ => collect state b
      | _ => state) state = e.refs.foldl collect state := by
  rw [foldNodes_eq_foldl, refs_eq_filterMap, List.foldl_filterMap]
  congr 1
  funext state node
  cases node <;> rfl

theorem binding?_eq_some_iff {e : Expr} {b : Binding} :
    e.binding? = some b ↔ ∃ field, e = reference b field := by
  cases e <;> simp [binding?]

/-- The references are found at the places of reference nodes. -/
theorem mem_refs_iff_exists_place {e : Expr} {b : Binding} :
    b ∈ e.refs ↔ ∃ place field, e.nodeAt place = some (reference b field) := by
  rw [refs_eq_filterMap, List.mem_filterMap]
  constructor
  · rintro ⟨node, hnode, hb⟩
    obtain ⟨place, hplace⟩ := mem_preorder_iff.1 hnode
    obtain ⟨field, rfl⟩ := binding?_eq_some_iff.1 hb
    exact ⟨place, field, hplace⟩
  · rintro ⟨place, field, hplace⟩
    exact ⟨_, mem_preorder_iff.2 ⟨place, hplace⟩, rfl⟩

/-- The references of an expression, by the kind of its top node. -/
theorem refs_eq_match (e : Expr) :
    e.refs = match e with
      | reference b _ => [b]
      | literal _ | unsupported _ => []
      | tagged inner _ => inner.refs
      | apply _ args => args.flatMap refs
      | seq items => items.flatMap refs := by
  rw [refs_eq_append]
  cases e with
  | tagged inner tag => exact List.flatMap_singleton refs inner
  | _ => rfl

/-- The set of references of an expression, by the kind of its top node. -/
theorem mem_refSet_iff_match (e : Expr) (b : Binding) :
    b ∈ e.refSet ↔ match e with
      | reference c _ => b = c
      | literal _ | unsupported _ => False
      | tagged inner _ => b ∈ inner.refSet
      | apply _ args => ∃ arg ∈ args, b ∈ arg.refSet
      | seq items => ∃ item ∈ items, b ∈ item.refSet := by
  simp only [mem_refSet]
  rw [refs_eq_match]
  cases e with
  | reference c field => exact List.mem_singleton
  | literal | unsupported => exact List.mem_nil_iff b
  | tagged inner tag => exact Iff.rfl
  | apply | seq => exact List.mem_flatMap

/-- With a stack, of which each round visits the top and puts on its operands, a walk takes as many
rounds as there are nodes, and has then visited them as the plain recursion does. This is each place
of the expression once, and in lexicographic order. So the references are passed on from left to
right and with repetitions, and their set is that of the bindings of the reference nodes, which is
made up of the sets of the operands. -/
theorem walk_exact (e : Expr) :
    (∀ (σ : Type) (visit : σ → Expr → σ) (state : σ),
        (∀ k, ((walkRound visit)^[k] (state, [e])).2 = [] ↔ e.preorder.length ≤ k)
          ∧ (walkRound visit)^[e.preorder.length] (state, [e]) = (e.foldNodes visit state, [])
          ∧ e.foldNodes visit state = e.preorder.foldl visit state)
      ∧ e.walk = e.preorder
      ∧ (∃ occurrences : List (List Nat × Expr),
          occurrences.map Prod.snd = e.walk
            ∧ occurrences.Pairwise Before
            ∧ ∀ place node, (place, node) ∈ occurrences ↔ e.nodeAt place = some node)
      ∧ (∀ (σ : Type) (collect : σ → Binding → σ) (state : σ),
          e.foldNodes (fun state node => match node with
            | reference b _ => collect state b
            | _ => state) state = e.refs.foldl collect state)
      ∧ (e.refs = match e with
          | reference b _ => [b]
          | literal _ | unsupported _ => []
          | tagged inner _ => inner.refs
          | apply _ args => args.flatMap refs
          | seq items => items.flatMap refs)
      ∧ e.refSet.Pairwise (· < ·)
      ∧ (∀ b, b ∈ e.refSet ↔ ∃ place field, e.nodeAt place = some (reference b field))
      ∧ ∀ b, b ∈ e.refSet ↔ match e with
          | reference c _ => b = c
          | literal _ | unsupported _ => False
          | tagged inner _ => b ∈ inner.refSet
          | apply _ args => ∃ arg ∈ args, b ∈ arg.refSet
          | seq items => ∃ item ∈ items, b ∈ item.refSet := by
  refine ⟨fun σ visit state => ⟨iterate_walkRound_snd_eq_nil_iff visit state e,
      iterate_walkRound_eq visit state e,
      foldNodes_eq_foldl visit state e⟩, walk_eq_preorder e, ⟨e.occurrences, ?_,
      pairwise_occurrences e, fun place node => mem_occurrences_iff⟩,
    fun σ collect state => foldNodes_references collect state e, refs_eq_match e,
    Binding.pairwise_ascending e.refs, fun b => ?_, mem_refSet_iff_match e⟩
  · rw [map_snd_occurrences, walk_eq_preorder]
  · rw [mem_refSet, mem_refs_iff_exists_place]

/-- References are read from left to right, whatever they are nested in. -/
example :
    (seq [equals (row 3) (tagged (row 1) "integer"), literal .null,
        apply (.call "coalesce") [seq [], seq [row 3]]]).refs = [3, 1, 3] := by
  cbv

end JoinGraph.Expr

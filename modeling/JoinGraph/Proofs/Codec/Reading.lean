import JoinGraph.Query.Codec

/-!
# Reading Without a Bound

A reader for nested values takes a bound on the nesting, one more than the depth of the value it is
given, so that it recurses on a number. What is below a value is nested less deep than the value, so
the bound is never noticed: reading a value is reading one node of it, and reading what is below in
the same way (`Expr.ofJson_eq`, `PreloadTree.ofJson_eq`, `Query.ofJson_eq`).
-/

namespace JoinGraph

namespace Decoder

variable {α β : Type} {d d' : Decoder α} {depth : Nat} {ms : List (String × Json)}

@[simp] theorem ok_bind (a : α) (f : α → Except DecodeError β) : (Except.ok a >>= f) = f a := rfl

@[simp] theorem error_bind (e : DecodeError) (f : α → Except DecodeError β) :
    (Except.error e >>= f) = .error e := rfl

/-- Two readers read alike what is nested less deep than a bound. -/
def AgreeBelow (depth : Nat) (d d' : Decoder α) : Prop := ∀ v : Json, v.depth < depth → d v = d' v

/-- A reader that is given another one uses it only below the value that it reads. -/
def Guarded (node : Decoder α → Decoder β) : Prop :=
  ∀ (d d' : Decoder α) (v : Json), AgreeBelow v.depth d d' → node d v = node d' v

/-- Readers that agree below a bound agree below a smaller one. -/
theorem AgreeBelow.mono (h : AgreeBelow depth d d') {n : Nat} (hn : n ≤ depth) :
    AgreeBelow n d d' :=
  fun v hv => h v (Nat.lt_of_lt_of_le hv hn)

/-- A guarded reader makes readers that agree out of readers that agree. -/
theorem Guarded.agreeBelow {node : Decoder α → Decoder β} (hnode : Guarded node)
    (h : AgreeBelow depth d d') : AgreeBelow depth (node d) (node d') :=
  fun v hv => hnode d d' v (h.mono (Nat.le_of_lt hv))

/-- Reading an array reads its items, which are below it. -/
theorem guarded_list : Guarded (list (α := α)) := by
  intro d d' v h
  cases v with
  | array items =>
    -- The items that are left are items of the array, so they are nested less deep.
    have hitems : ∀ xs ⊆ items, xs.mapM d = xs.mapM d' := by
      intro xs hxs
      induction xs with
      | nil => rfl
      | cons x rest ih =>
        obtain ⟨hx, hrest⟩ := List.cons_subset.1 hxs
        have hdepth : x.depth < (Json.array items).depth := by
          rw [Json.depth]
          exact Nat.lt_succ_of_le (Json.depth_le_of_mem hx)
        rw [List.mapM_cons, List.mapM_cons, h x hdepth, ih hrest]
    exact hitems items (List.Subset.refl _)
  | null | bool _ | int _ | float _ | string _ | object _ => rfl

/-- The value of a field is below the object. -/
theorem AgreeBelow.field (h : AgreeBelow (Json.object ms).depth d d') (key : String) :
    field ms key d = field ms key d' := by
  rw [Decoder.field, Decoder.field]
  split
  · rfl
  · rename_i v hv
    have hdepth : v.depth < (Json.object ms).depth := by
      rw [Json.depth]
      exact Nat.lt_succ_of_le (Json.depth_le_of_lookup? hv)
    rw [h v hdepth]

/-- The items of a field are below the object. -/
theorem AgreeBelow.items (h : AgreeBelow (Json.object ms).depth d d') (key : String) :
    items ms key d = items ms key d' := by
  rw [Decoder.items, Decoder.items, (guarded_list.agreeBelow h).field key]

theorem eq_object_of_members {v : Json} (h : members v = .ok ms) : v = .object ms := by
  cases v with
  | object ms' =>
    obtain rfl := Except.ok.inj h
    rfl
  | null | bool _ | int _ | float _ | string _ | array _ => cases h

/-- Reading with a bound on the nesting, if each bound reads one node and leaves what is below to
the bound before it, is reading node by node. -/
theorem Guarded.eq_node {node : Decoder α → Decoder α} (h : Guarded node)
    {within : Nat → Decoder α} (hsucc : ∀ n v, within (n + 1) v = node (within n) v) (v : Json) :
    within (v.depth + 1) v = node (fun x => within (x.depth + 1) x) v := by
  -- Bounds above the depth of a value read it alike.
  have hstable : ∀ m n, ∀ v : Json, v.depth < m → v.depth < n → within m v = within n v := by
    intro m
    induction m with
    | zero => exact fun n v hm => absurd hm (Nat.not_lt_zero _)
    | succ m ih =>
      intro n v hm hn
      cases n with
      | zero => exact absurd hn (Nat.not_lt_zero _)
      | succ n =>
        rw [hsucc, hsucc]
        refine h _ _ v fun x hx => ih n x ?_ ?_
        · exact Nat.lt_of_lt_of_le hx (Nat.le_of_lt_succ hm)
        · exact Nat.lt_of_lt_of_le hx (Nat.le_of_lt_succ hn)
  rw [hsucc]
  exact h _ _ v fun x hx => hstable _ _ x hx (Nat.lt_succ_self _)

end Decoder

open Decoder

/-- The body of a value with a tag is nested less deep than the value. -/
private theorem depth_body_lt (tag : String) (body : Json) :
    body.depth < (Json.object [(tag, body)]).depth := by
  rw [Json.depth, Json.depthOfMembers]
  exact Nat.lt_succ_of_le (Nat.le_max_left _ _)

namespace Expr

theorem guarded_nodeOfJson : Guarded nodeOfJson := by
  intro d d' v h
  match v with
  | .object [(tag, body)] =>
    have hbody : AgreeBelow body.depth d d' := h.mono (Nat.le_of_lt (depth_body_lt tag body))
    have hlist : list d body = list d' body := guarded_list d d' body hbody
    have hfield : ∀ ms, members body = .ok ms → ∀ key,
        Decoder.field ms key d = Decoder.field ms key d'
          ∧ Decoder.field ms key (list d) = Decoder.field ms key (list d') := by
      intro ms hms key
      obtain rfl := eq_object_of_members hms
      exact ⟨hbody.field key, (guarded_list.agreeBelow hbody).field key⟩
    simp only [nodeOfJson, variant, ok_bind]
    -- Only a tagged expression, an application and a sequence have something below them.
    split
    · rfl
    · rfl
    · cases hms : members body with
      | error error => rfl
      | ok ms => simp only [ok_bind, (hfield ms hms "expr").1]
    · cases hms : members body with
      | error error => rfl
      | ok ms => simp only [ok_bind, (hfield ms hms "args").2]
    · simp only [hlist]
    · rfl
    · rfl
  | .null | .bool _ | .int _ | .float _ | .string _ | .array _ | .object []
  | .object (_ :: _ :: _) => rfl

/-- An expression is read node by node. -/
theorem ofJson_eq (v : Json) : ofJson v = nodeOfJson ofJson v :=
  guarded_nodeOfJson.eq_node (fun _ _ => rfl) v

end Expr

namespace PreloadTree

theorem guarded_nodeOfJson : Guarded nodeOfJson := by
  intro d d' v h
  cases v with
  | object ms => simp only [nodeOfJson, members, ok_bind, h.items "children"]
  | null | bool _ | int _ | float _ | string _ | array _ => rfl

/-- A preload tree is read node by node. -/
theorem ofJson_eq (v : Json) : ofJson v = nodeOfJson ofJson v :=
  guarded_nodeOfJson.eq_node (fun _ _ => rfl) v

end PreloadTree

theorem Source.ofJsonUsing_ofJson : Source.ofJsonUsing Query.ofJson = Source.ofJson := rfl

theorem Join.ofJsonUsing_ofJson : Join.ofJsonUsing Query.ofJson = Join.ofJson := rfl

/-- In a source, a nested query is below its tag. -/
theorem Source.guarded_ofJsonUsing : Guarded Source.ofJsonUsing := by
  intro d d' v h
  match v with
  | .object [(tag, body)] =>
    simp only [ofJsonUsing, variant, ok_bind]
    -- Only a nested query is below its tag.
    split
    · rfl
    · rfl
    · rw [h body (depth_body_lt _ body)]
    · rfl
  | .null | .bool _ | .int _ | .float _ | .string _ | .array _ | .object []
  | .object (_ :: _ :: _) => rfl

/-- In a join, a nested query is below its source. -/
theorem Join.guarded_ofJsonUsing : Guarded Join.ofJsonUsing := by
  intro d d' v h
  cases v with
  | object ms =>
    have hsource := (Source.guarded_ofJsonUsing.agreeBelow h).field "source"
    simp only [ofJsonUsing, members, ok_bind, hsource]
  | null | bool _ | int _ | float _ | string _ | array _ =>
    simp only [ofJsonUsing, members, error_bind]

namespace Query

/-- In the fields of a query, nested queries are below the source and the joins. -/
theorem guarded_fieldsOfJson : Guarded fieldsOfJson := by
  intro d d' v h
  cases v with
  | object ms =>
    -- Nested queries are below the source and the joins only.
    have hsource := (Source.guarded_ofJsonUsing.agreeBelow h).field "from"
    have hjoins := (Join.guarded_ofJsonUsing.agreeBelow h).items "joins"
    simp only [fieldsOfJson, members, ok_bind, hsource, hjoins]
  | null | bool _ | int _ | float _ | string _ | array _ =>
    simp only [fieldsOfJson, members, error_bind]

/-- The fields of a query are read, with the queries nested in them, before the query is checked. -/
theorem ofJson_eq (v : Json) : ofJson v = (do (← fieldsOfJson ofJson v).checked) := by
  have hguarded : Guarded fun d v => (do (← fieldsOfJson d v).checked) := by
    intro d d' v h
    dsimp only
    rw [guarded_fieldsOfJson d d' v h]
  exact hguarded.eq_node (fun _ _ => rfl) v

end Query

end JoinGraph

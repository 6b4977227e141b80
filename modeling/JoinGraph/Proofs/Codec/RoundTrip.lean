import JoinGraph.Expr.Walk
import JoinGraph.Proofs.Codec.Reading
import JoinGraph.Proofs.WellFormed

/-!
# Reading What Was Written

Reading undoes writing. For words, names and numbers within 64 bits this is immediate; for nested
types it goes along their structure.

A query is checked when it is read, and so is every query in it, at any depth. `Query.ofJson_toJson`
therefore asks for a query that is well-formed at all depths. Floating point literals are left out:
not every floating point number has a JSON form.
-/

namespace JoinGraph

/-! ### Fields -/

namespace Decoder

variable {α : Type} {d : Decoder α} {ms : List (String × Json)} {key : String} {v : Json}

theorem field_eq_ok {a : α} (hv : Json.lookup? key ms = some v) (hread : d v = .ok a) :
    field ms key d = .ok (some a) := by
  rw [field, hv]
  dsimp only
  rw [hread]
  rfl

theorem items_eq_ok {xs : List α} (hv : Json.lookup? key ms = some v)
    (hread : list d v = .ok xs) : items ms key d = .ok xs := by
  rw [items, field_eq_ok hv hread]
  rfl

/-- What is absent is written as null, and what is there is not. -/
theorem nullable_eq_ok {write : α → Json} {x : Option α}
    (hv : Json.lookup? key ms = some ((x.map write).getD .null))
    (hread : ∀ a ∈ x, d (write a) = .ok a) (hwrite : ∀ a, write a ≠ .null) :
    nullable ms key d = .ok x := by
  rw [nullable, hv]
  cases x with
  | none => rfl
  | some a =>
    dsimp only [Option.map_some, Option.getD_some]
    split
    · rename_i hnone
      cases hnone
    · rename_i hnull
      exact absurd (Option.some.inj hnull) (hwrite a)
    · rename_i hsome
      rw [← Option.some.inj hsome, hread a rfl]
      rfl

theorem natural_int (n : Nat) : natural (.int n) = .ok n := by
  rw [natural, if_pos (Int.natCast_nonneg n), Int.toNat_natCast]

theorem integer_int (n : Int64) : integer (.int n.toInt) = .ok n := by
  -- The bounds that reading checks are those of the type.
  have hlow : -Nat.pow 2 63 ≤ n.toInt := Int64.le_toInt n
  have hhigh : n.toInt < Nat.pow 2 63 := Int64.toInt_lt n
  rw [integer, if_pos ⟨hlow, hhigh⟩, Int64.ofInt_toInt]

theorem word_wordToJson {β : Type} [Vocabulary β] (b : β) : word (wordToJson b) = .ok b := by
  change require (Vocabulary.ofWord? (Vocabulary.word b)) = .ok b
  rw [Vocabulary.ofWord?_word]
  rfl

theorem aliasName_text (a : Alias) : aliasName (.string a.text) = .ok a := by
  change (Alias.ofString a.text).mapError DecodeError.name = .ok a
  rw [Alias.ofString_text]
  rfl

theorem relationName_text (r : RelationName) : relationName (.string r.text) = .ok r := by
  change (RelationName.ofString r.text).mapError DecodeError.name = .ok r
  rw [RelationName.ofString_text]
  rfl

end Decoder

open Decoder

/-! ### Expressions -/

theorem Operator.ofJson_toJson (op : Operator) : ofJson op.toJson = .ok op := by
  cases op <;> rfl

theorem Literal.ofJson_toJson {v : Literal} (h : ∀ x, v ≠ .float x) : ofJson v.toJson = .ok v := by
  cases v with
  | null | boolean _ | string _ => rfl
  | integer n =>
    change (Decoder.integer (.int n.toInt)).map integer = .ok (integer n)
    rw [integer_int]
    rfl
  | float x => exact absurd rfl (h x)
  | param n =>
    change (natural (.int n)).map param = .ok (param n)
    rw [natural_int]
    rfl

namespace Expr

/-- No node of the expression is a floating point literal. -/
def FloatFree (e : Expr) : Prop := ∀ x, literal (.float x) ∉ e.preorder

/-- The operands of an expression without floating point literals have none either. -/
theorem FloatFree.of_mem_children {e operand : Expr} (h : e.FloatFree)
    (hoperand : operand ∈ e.children) : operand.FloatFree := by
  intro x hx
  refine h x ?_
  -- In preorder the nodes of the operands come after the node itself.
  rw [preorder_eq, preorderAll_eq_flatMap]
  exact List.mem_cons_of_mem _ (List.mem_flatMap_of_mem hoperand hx)

theorem toJson_ne_null (e : Expr) : e.toJson ≠ .null := by
  cases e <;> simp [toJson]

mutual

/-- An expression without floating point literals is read as it was written. -/
theorem ofJson_toJson : ∀ e : Expr, e.FloatFree → ofJson e.toJson = .ok e
  | reference b f, _ => by
    have hfield : nullable [("binding", .int b), ("field", (f.map Json.string).getD .null)]
        "field" text = .ok f := nullable_eq_ok rfl (fun _ _ => rfl) fun _ => Json.noConfusion
    rw [ofJson_eq, toJson]
    simp only [nodeOfJson, variant, members, ok_bind]
    rw [field_eq_ok rfl (natural_int b), hfield]
    rfl
  | literal v, h => by
    have hv : ∀ x, v ≠ .float x := fun x hx => h x (by rw [hx, preorder]; exact List.mem_cons_self)
    rw [ofJson_eq, toJson]
    simp only [nodeOfJson, variant, ok_bind, Literal.ofJson_toJson hv]
    rfl
  | tagged e tag, h => by
    have he : ofJson e.toJson = .ok e := ofJson_toJson e (h.of_mem_children List.mem_cons_self)
    rw [ofJson_eq, toJson]
    simp only [nodeOfJson, variant, members, ok_bind]
    rw [field_eq_ok rfl he, field_eq_ok (a := tag) rfl rfl]
    rfl
  | apply op args, h => by
    have hargs : list ofJson (.array (listToJson args)) = .ok args :=
      list_listToJson args fun _ ha => h.of_mem_children ha
    rw [ofJson_eq, toJson]
    simp only [nodeOfJson, variant, members, ok_bind]
    rw [field_eq_ok rfl hargs, field_eq_ok rfl op.ofJson_toJson]
    rfl
  | seq items, h => by
    have hitems : list ofJson (.array (listToJson items)) = .ok items :=
      list_listToJson items fun _ hi => h.of_mem_children hi
    rw [ofJson_eq, toJson]
    simp only [nodeOfJson, variant, ok_bind, hitems]
    rfl
  | unsupported d, _ => by
    rw [ofJson_eq, toJson]
    simp only [nodeOfJson, variant, members, ok_bind]
    rw [field_eq_ok (a := d) rfl rfl]
    rfl

/-- So are several of them. -/
theorem list_listToJson : ∀ es : List Expr, (∀ e ∈ es, e.FloatFree) →
    list ofJson (.array (listToJson es)) = .ok es
  | [], _ => rfl
  | e :: rest, h => by
    rw [listToJson]
    exact list_cons_eq_ok (ofJson_toJson e (h e List.mem_cons_self))
      (list_listToJson rest fun e' he' => h e' (List.mem_cons_of_mem e he'))

end

end Expr

/-! ### Parts of queries -/

namespace PreloadTree

mutual

/-- A preload tree is read as it was written. -/
theorem ofJson_toJson : ∀ tree : PreloadTree, ofJson tree.toJson = .ok tree
  | ⟨association, name, children⟩ => by
    have hchildren : list ofJson (.array (forestToJson children)) = .ok children :=
      list_forestToJson children
    rw [ofJson_eq, toJson]
    simp only [nodeOfJson, members, ok_bind]
    rw [field_eq_ok rfl (aliasName_text name), field_eq_ok (a := association) rfl rfl,
      items_eq_ok rfl hchildren]
    rfl

/-- A preload forest is read as it was written. -/
theorem list_forestToJson : ∀ forest : List PreloadTree,
    list ofJson (.array (forestToJson forest)) = .ok forest
  | [] => rfl
  | tree :: rest => by
    rw [forestToJson]
    exact list_cons_eq_ok (ofJson_toJson tree) (list_forestToJson rest)

end

end PreloadTree

theorem Filter.ofJson_toJson {f : Filter} (h : f.expr.FloatFree) : ofJson f.toJson = .ok f := by
  rw [ofJson, toJson]
  simp only [members, ok_bind]
  rw [field_eq_ok rfl (Expr.ofJson_toJson f.expr h), field_eq_ok rfl (word_wordToJson f.op)]
  rfl

theorem SortKey.ofJson_toJson {k : SortKey} (h : k.expr.FloatFree) : ofJson k.toJson = .ok k := by
  rw [ofJson, toJson]
  simp only [members, ok_bind]
  rw [field_eq_ok rfl (word_wordToJson k.direction), field_eq_ok rfl (Expr.ofJson_toJson k.expr h)]
  rfl

/-! ### Queries -/

namespace Query

/-- A query is a query that it holds, and so is every query nested in its source or in the source of
one of its joins, at any depth. -/
inductive Holds : Query → Query → Prop
  | self (q : Query) : q.Holds q
  | root {q s t : Query} (h : q.source = .subquery s) (ht : s.Holds t) : q.Holds t
  | join {q s t : Query} {j : Join} (hj : j ∈ q.joins) (h : j.source = .subquery s)
      (ht : s.Holds t) : q.Holds t

/-- No clause and no condition of the query has a floating point literal. -/
structure FloatFree (q : Query) : Prop where
  clause : ∀ e ∈ q.clauses, e.FloatFree
  condition : ∀ j ∈ q.joins, j.on.FloatFree

/-- The query and all queries nested in it can be written and read. -/
def Exchangeable (q : Query) : Prop := ∀ t, q.Holds t → t.WellFormed ∧ t.FloatFree

end Query

/-- The queries in a source can be written and read. -/
def Source.Exchangeable (s : Source) : Prop := ∀ q, s = .subquery q → q.Exchangeable

/-- An optional expression is read as it was written. -/
private theorem nullable_optionalToJson {e : Option Expr} {ms : List (String × Json)} {key : String}
    (hv : Json.lookup? key ms = some (Expr.optionalToJson e)) (he : ∀ x ∈ e, x.FloatFree) :
    nullable ms key Expr.ofJson = .ok e :=
  nullable_eq_ok hv (fun x hx => x.ofJson_toJson (he x hx)) Expr.toJson_ne_null

mutual

theorem Source.ofJson_toJson : ∀ s : Source, s.Exchangeable → Source.ofJson s.toJson = .ok s
  | .table relation, _ => by
    rw [Source.ofJson, Source.toJson]
    simp only [Source.ofJsonUsing, variant, members, ok_bind]
    rw [field_eq_ok rfl (relationName_text relation)]
    rfl
  | .association parent name related, _ => by
    rw [Source.ofJson, Source.toJson]
    simp only [Source.ofJsonUsing, variant, members, ok_bind]
    rw [field_eq_ok (a := name) rfl rfl, field_eq_ok rfl (natural_int parent),
      field_eq_ok rfl (relationName_text related)]
    rfl
  | .subquery q, h => by
    have hq : Query.ofJson q.toJson = .ok q := Query.ofJson_toJson q (h q rfl)
    rw [Source.ofJson, Source.toJson]
    simp only [Source.ofJsonUsing, variant, ok_bind, hq]
    rfl

theorem Join.ofJson_toJson : ∀ j : Join, j.on.FloatFree → j.source.Exchangeable →
    Join.ofJson j.toJson = .ok j
  | ⟨index, name, qualifier, source, on⟩, hon, hsource => by
    rw [Join.ofJson, Join.toJson]
    simp only [Join.ofJsonUsing, members, ok_bind, Source.ofJsonUsing_ofJson]
    rw [nullable_eq_ok rfl (fun a _ => aliasName_text a) fun _ => Json.noConfusion,
      field_eq_ok rfl (natural_int index), field_eq_ok rfl (Expr.ofJson_toJson on hon),
      field_eq_ok rfl (word_wordToJson qualifier),
      field_eq_ok rfl (Source.ofJson_toJson source hsource)]
    rfl

theorem Join.list_listToJson : ∀ js : List Join,
    (∀ j ∈ js, j.on.FloatFree ∧ j.source.Exchangeable) →
    list Join.ofJson (.array (Join.listToJson js)) = .ok js
  | [], _ => rfl
  | j :: rest, h => by
    obtain ⟨⟨hon, hsource⟩, hrest⟩ := List.forall_mem_cons.1 h
    rw [Join.listToJson]
    exact list_cons_eq_ok (Join.ofJson_toJson j hon hsource) (Join.list_listToJson rest hrest)

/-- A query is read as it was written, if it and the queries in it are well-formed and no
expression has a floating point literal. -/
theorem Query.ofJson_toJson : ∀ q : Query, q.Exchangeable → Query.ofJson q.toJson = .ok q
  | ⟨source, joins, nextIndex, select, wheres, orderBys, groupBys, havings, limit, offset, distinct,
      preloads⟩, h => by
    obtain ⟨hwf, hfree⟩ := h _ (.self _)
    -- Nested queries are read by induction, and their check is part of reading them.
    have hsource : Source.ofJson source.toJson = .ok source :=
      Source.ofJson_toJson source fun _ hs t ht => h t (.root hs ht)
    have hjoins : list Join.ofJson (.array (Join.listToJson joins)) = .ok joins :=
      Join.list_listToJson joins fun j hj =>
        ⟨hfree.condition j hj, fun _ hs t ht => h t (.join hj hs ht)⟩
    have hclauses := hfree.clause
    simp only [Query.clauses, List.forall_mem_append, Option.mem_toList, List.forall_mem_map]
      at hclauses
    obtain ⟨⟨⟨⟨⟨⟨⟨hselect, hwheres⟩, horderBys⟩, hgroupBys⟩, hhavings⟩, hdistinct⟩, hlimit⟩,
      hoffset⟩ := hclauses
    -- Fields are read in the order of their keys.
    rw [Query.ofJson_eq, Query.toJson]
    simp only [Query.fieldsOfJson, members, ok_bind, Source.ofJsonUsing_ofJson,
      Join.ofJsonUsing_ofJson]
    rw [nullable_optionalToJson rfl hdistinct, field_eq_ok rfl hsource,
      items_eq_ok rfl (Expr.list_listToJson groupBys hgroupBys),
      items_eq_ok rfl (list_map_eq_ok fun f hf => Filter.ofJson_toJson (hhavings f hf)),
      items_eq_ok rfl hjoins, nullable_optionalToJson rfl hlimit,
      field_eq_ok rfl (natural_int nextIndex), nullable_optionalToJson rfl hoffset,
      items_eq_ok rfl (list_map_eq_ok fun k hk => SortKey.ofJson_toJson (horderBys k hk)),
      items_eq_ok rfl (PreloadTree.list_forestToJson preloads),
      nullable_optionalToJson rfl hselect,
      items_eq_ok rfl (list_map_eq_ok fun f hf => Filter.ofJson_toJson (hwheres f hf))]
    exact hwf.checked_eq_ok

end

end JoinGraph

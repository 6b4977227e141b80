import JoinGraph.Proofs.Blog
import JoinGraph.Proofs.Codec.RoundTrip
import Mathlib.Data.List.Nodup
import Mathlib.Logic.Relation

/-!
# Edits That Reading Does Not Notice

A JSON value can say the same in more than one way: a key that holds an absent optional value or an
empty list may be missing, and a key that a record does not know is ignored. Both can happen at any
depth, so what may be edited depends on what is expected at each place. `Form` says this once, as a
grammar: which records there are, which fields they have, and which tags lead to them.

`Edit.read_eq` shows that no edit changes what is read. With the round trip, every edited form of a
query is read as the query (`Query.ofJson_of_edits`).
-/

open Relation

namespace JoinGraph

open Decoder

/-- What is expected at a place in the JSON form of a query. -/
inductive Form : Type 1 where
  /-- A value that holds no record. -/
  | leaf {α : Type} (read : Decoder α)
  | list (item : Form)
  | query
  | join
  | filter
  | sortKey
  | tree
  /-- A source or an expression: an object with one member, whose tag names what it holds. -/
  | source
  | expr
  /-- The records that stand under the tags of sources and expressions. -/
  | table
  | association
  | reference
  | tagged
  | application
  | unsupported

/-- A field of a record. -/
inductive FormField : Type 1 where
  | required (key : String) (form : Form)
  /-- A field whose value may be absent. -/
  | optional (key : String) (form : Form)
  /-- A field for a list that may be empty. -/
  | list (key : String) (item : Form)

namespace Form

/-- The type that a form is read as. -/
def Value : Form → Type
  | @leaf α _ => α
  | list item => List item.Value
  | query => Query
  | join => Join
  | filter => Filter
  | sortKey => SortKey
  | tree => PreloadTree
  | source | table | association => Source
  | expr | reference | tagged | application | unsupported => Expr

/-- Read a form. A record under a tag is read together with the tag. -/
def read : (f : Form) → Decoder f.Value
  | leaf read => read
  | list item => Decoder.list item.read
  | query => Query.ofJson
  | join => Join.ofJson
  | filter => Filter.ofJson
  | sortKey => SortKey.ofJson
  | tree => PreloadTree.ofJson
  | source => Source.ofJson
  | expr => Expr.ofJson
  | table => fun body => Source.ofJson (.object [("Table", body)])
  | association => fun body => Source.ofJson (.object [("Association", body)])
  | reference => fun body => Expr.ofJson (.object [("Reference", body)])
  | tagged => fun body => Expr.ofJson (.object [("Tagged", body)])
  | application => fun body => Expr.ofJson (.object [("Apply", body)])
  | unsupported => fun body => Expr.ofJson (.object [("Unsupported", body)])

/-- The fields of a record; what is no record has none. -/
def record? : Form → Option (List FormField)
  | query => some [.optional "distinct" expr, .required "from" source, .list "group_bys" expr,
      .list "havings" filter, .list "joins" join, .optional "limit" expr,
      .required "next_index" (leaf natural), .optional "offset" expr, .list "order_bys" sortKey,
      .list "preloads" tree, .optional "select" expr, .list "wheres" filter]
  | join => some [.optional "alias" (leaf aliasName), .required "index" (leaf natural),
      .required "on" expr, .required "qualifier" (leaf (word : Decoder Qualifier)),
      .required "source" source]
  | filter => some [.required "expr" expr, .required "op" (leaf (word : Decoder BoolOp))]
  | sortKey =>
    some [.required "direction" (leaf (word : Decoder SortDirection)), .required "expr" expr]
  | tree => some [.required "alias" (leaf aliasName), .required "association" (leaf text),
      .list "children" tree]
  | table => some [.required "relation" (leaf relationName)]
  | association => some [.required "association" (leaf text), .required "parent" (leaf natural),
      .required "related" (leaf relationName)]
  | reference => some [.required "binding" (leaf natural), .optional "field" (leaf text)]
  | tagged => some [.required "expr" expr, .required "tag" (leaf text)]
  | application =>
    some [.required "args" (list expr), .required "op" (leaf Operator.ofJson)]
  | unsupported => some [.required "description" (leaf text)]
  | leaf _ | list _ | source | expr => none

/-- The tags of a value that has one, with what stands under each. -/
def variants : Form → List (String × Form)
  | source => [("Table", table), ("Association", association), ("Subquery", query)]
  | expr => [("Reference", reference), ("Literal", leaf Literal.ofJson), ("Tagged", tagged),
      ("Apply", application), ("Seq", list expr), ("Unsupported", unsupported)]
  | _ => []

end Form

namespace FormField

def key : FormField → String
  | required key _ | optional key _ | list key _ => key

/-- What is expected under the key. -/
def form : FormField → Form
  | required _ form | optional _ form => form
  | list _ item => .list item

/-- What is under the key when the key may as well be missing. -/
def blank? : FormField → Option Json
  | required _ _ => none
  | optional _ _ => some .null
  | list _ _ => some (.array [])

/-- The type that a field is read as. -/
def Value : FormField → Type
  | required _ form | optional _ form => Option form.Value
  | list _ item => List item.Value

/-- Read a field of a record. -/
def read : (x : FormField) → List (String × Json) → Except DecodeError x.Value
  | required key form, ms => field ms key form.read
  | optional key form, ms => nullable ms key form.read
  | list key item, ms => items ms key item.read

end FormField

/-- One edit of a value that has a form: at some place in it, a key is added that the record there
does not know, or a key goes that holds an absent value or an empty list. -/
inductive Edit : Form → Json → Json → Prop
  | add {f : Form} {fields : List FormField} {ms ns : List (String × Json)} {key : String}
      (value : Json) (hf : f.record? = some fields) (hkey : ∀ x ∈ fields, x.key ≠ key) :
      Edit f (.object (ms ++ ns)) (.object (ms ++ (key, value) :: ns))
  | drop {f : Form} {fields : List FormField} {ms : List (String × Json)} {x : FormField}
      {blank : Json} (hf : f.record? = some fields) (hx : x ∈ fields)
      (hblank : x.blank? = some blank) (hheld : Json.lookup? x.key ms = some blank) :
      Edit f (.object ms) (.object (ms.filter fun m => m.1 ≠ x.key))
  | field {f : Form} {fields : List FormField} {ms ns : List (String × Json)} {x : FormField}
      {v w : Json} (hf : f.record? = some fields) (hx : x ∈ fields) (h : Edit x.form v w) :
      Edit f (.object (ms ++ (x.key, v) :: ns)) (.object (ms ++ (x.key, w) :: ns))
  | variant {f g : Form} {tag : String} {v w : Json} (hg : (tag, g) ∈ f.variants)
      (h : Edit g v w) : Edit f (.object [(tag, v)]) (.object [(tag, w)])
  | item {f : Form} {vs ws : List Json} {v w : Json} (h : Edit f v w) :
      Edit (.list f) (.array (vs ++ v :: ws)) (.array (vs ++ w :: ws))

/-! ### Looking up -/

namespace Json

variable {ms ns : List (String × Json)} {key k : String} {v : Json}

theorem lookup?_append : lookup? key (ms ++ ns) = (lookup? key ms).or (lookup? key ns) := by
  induction ms with
  | nil => rfl
  | cons m rest ih =>
    rw [List.cons_append, lookup?, lookup?]
    split
    · rfl
    · exact ih

/-- A member is not noticed under another key. -/
theorem lookup?_insert_of_ne (h : k ≠ key) :
    lookup? key (ms ++ (k, v) :: ns) = lookup? key (ms ++ ns) := by
  rw [lookup?_append, lookup?_append, lookup?, if_neg h]

theorem lookup?_insert_self (h : lookup? key ms = none) :
    lookup? key (ms ++ (key, v) :: ns) = some v := by
  rw [lookup?_append, h, Option.none_or, lookup?, if_pos rfl]

theorem lookup?_filter_self : lookup? key (ms.filter fun m => m.1 ≠ key) = none := by
  induction ms with
  | nil => rfl
  | cons m rest ih =>
    rw [List.filter_cons]
    split
    · rename_i hne
      rw [lookup?, if_neg (of_decide_eq_true hne), ih]
    · exact ih

theorem lookup?_filter_of_ne (h : k ≠ key) :
    lookup? key (ms.filter fun m => m.1 ≠ k) = lookup? key ms := by
  induction ms with
  | nil => rfl
  | cons m rest ih =>
    rw [List.filter_cons, lookup?]
    split
    · rw [lookup?, ih]
    · rename_i heq
      have hm : m.1 = k := by simpa using heq
      rw [if_neg (hm ▸ h), ih]

end Json

/-! ### Reading fields -/

namespace Decoder

variable {α : Type} {d : Decoder α} {ms ns : List (String × Json)} {key : String} {v w : Json}

/-- A field is read from what is under its key. -/
theorem field_congr (h : Json.lookup? key ms = Json.lookup? key ns) :
    field ms key d = field ns key d := by
  rw [field, field, h]

theorem nullable_congr (h : Json.lookup? key ms = Json.lookup? key ns) :
    nullable ms key d = nullable ns key d := by
  rw [nullable, nullable, h]

theorem items_congr (h : Json.lookup? key ms = Json.lookup? key ns) :
    items ms key d = items ns key d := by
  rw [items, items, field_congr h]

theorem nullable_eq_map (hv : Json.lookup? key ms = some v) (hnull : v ≠ .null) :
    nullable ms key d = (d v).map some := by
  rw [nullable, hv]
  split
  · rename_i hnone
    cases hnone
  · rename_i hsome
    exact absurd (Option.some.inj hsome) hnull
  · rename_i hsome
    rw [Option.some.inj hsome]

/-- Values that are read alike may stand for each other under a key. -/
theorem field_congr_of_read (hv : Json.lookup? key ms = some v) (hw : Json.lookup? key ns = some w)
    (h : d v = d w) : field ms key d = field ns key d := by
  rw [field, field, hv, hw]
  dsimp only
  rw [h]

theorem nullable_congr_of_read (hv : Json.lookup? key ms = some v)
    (hw : Json.lookup? key ns = some w) (hvnull : v ≠ .null) (hwnull : w ≠ .null)
    (h : d v = d w) : nullable ms key d = nullable ns key d := by
  rw [nullable_eq_map hv hvnull, nullable_eq_map hw hwnull, h]

theorem items_congr_of_read (hv : Json.lookup? key ms = some v) (hw : Json.lookup? key ns = some w)
    (h : list d v = list d w) : items ms key d = items ns key d := by
  rw [items, items, field_congr_of_read hv hw h]

/-- Null may as well be missing. -/
theorem nullable_congr_of_missing (hv : Json.lookup? key ms = some .null)
    (hw : Json.lookup? key ns = none) : nullable ms key d = nullable ns key d := by
  rw [nullable, nullable, hv, hw]

/-- An empty list may as well be missing. -/
theorem items_congr_of_missing (hv : Json.lookup? key ms = some (.array []))
    (hw : Json.lookup? key ns = none) : items ms key d = items ns key d := by
  rw [items_eq_ok hv rfl, items, field, hw]
  rfl

end Decoder

namespace FormField

variable {x : FormField} {ms ns : List (String × Json)} {v w blank : Json}

theorem read_congr (h : Json.lookup? x.key ms = Json.lookup? x.key ns) : x.read ms = x.read ns := by
  cases x with
  | required _ _ => exact field_congr h
  | optional _ _ => exact nullable_congr h
  | list _ _ => exact items_congr h

/-- A key that may be missing may hold what says that nothing is there. -/
theorem read_eq_of_blank (hblank : x.blank? = some blank)
    (hheld : Json.lookup? x.key ms = some blank) (hmissing : Json.lookup? x.key ns = none) :
    x.read ms = x.read ns := by
  cases x with
  | required _ _ => cases hblank
  | optional _ _ =>
    obtain rfl := Option.some.inj hblank
    exact nullable_congr_of_missing hheld hmissing
  | list _ _ =>
    obtain rfl := Option.some.inj hblank
    exact items_congr_of_missing hheld hmissing

theorem read_eq_of_read_eq (hv : Json.lookup? x.key ms = some v)
    (hw : Json.lookup? x.key ns = some w) (hvnull : v ≠ .null) (hwnull : w ≠ .null)
    (h : x.form.read v = x.form.read w) : x.read ms = x.read ns := by
  cases x with
  | required _ _ => exact field_congr_of_read hv hw h
  | optional _ _ => exact nullable_congr_of_read hv hw hvnull hwnull h
  | list _ _ => exact items_congr_of_read hv hw h

end FormField

/-! ### Reading records and variants -/

namespace Form

variable {f g : Form} {fields : List FormField} {ms ns : List (String × Json)} {tag : String}
  {v w : Json}

/-- No two fields of a record have one key. -/
theorem eq_of_key_eq (hf : f.record? = some fields) {x y : FormField} (hx : x ∈ fields)
    (hy : y ∈ fields) (h : x.key = y.key) : x = y := by
  have hnodup : (fields.map FormField.key).Nodup := by
    cases f with
    | leaf _ | list _ | source | expr => cases hf
    | query | join | filter | sortKey | tree | table | association | reference | tagged
    | application | unsupported =>
      obtain rfl := Option.some.inj hf
      decide
  exact List.inj_on_of_nodup_map hnodup hx hy h

/-- A record is read from its fields. -/
theorem read_object_congr (hf : f.record? = some fields)
    (h : ∀ x ∈ fields, x.read ms = x.read ns) : f.read (.object ms) = f.read (.object ns) := by
  -- What is left are the records, each with an equation for every field that it has.
  cases f <;> cases hf <;> simp only [List.forall_mem_cons] at h <;>
    dsimp only [FormField.read, read, FormField.Value, Value] at h
  case query =>
    change Query.ofJson (.object ms) = Query.ofJson (.object ns)
    rw [Query.ofJson_eq, Query.ofJson_eq]
    simp only [Query.fieldsOfJson, members, ok_bind, Source.ofJsonUsing_ofJson,
      Join.ofJsonUsing_ofJson, h]
  case join =>
    change Join.ofJson (.object ms) = Join.ofJson (.object ns)
    simp only [Join.ofJson, Join.ofJsonUsing, members, ok_bind, Source.ofJsonUsing_ofJson, h]
  case filter =>
    change Filter.ofJson (.object ms) = Filter.ofJson (.object ns)
    simp only [Filter.ofJson, members, ok_bind, h]
  case sortKey =>
    change SortKey.ofJson (.object ms) = SortKey.ofJson (.object ns)
    simp only [SortKey.ofJson, members, ok_bind, h]
  case tree =>
    change PreloadTree.ofJson (.object ms) = PreloadTree.ofJson (.object ns)
    rw [PreloadTree.ofJson_eq, PreloadTree.ofJson_eq]
    simp only [PreloadTree.nodeOfJson, members, ok_bind, h]
  case table | association =>
    change Source.ofJson _ = Source.ofJson _
    simp only [Source.ofJson, Source.ofJsonUsing, variant, members, ok_bind, h]
  case reference | tagged | application | unsupported =>
    change Expr.ofJson _ = Expr.ofJson _
    rw [Expr.ofJson_eq, Expr.ofJson_eq]
    simp only [Expr.nodeOfJson, variant, members, ok_bind, h]

/-- What is under a tag decides what is read. -/
theorem read_variant_congr (hg : (tag, g) ∈ f.variants) (h : g.read v = g.read w) :
    f.read (.object [(tag, v)]) = f.read (.object [(tag, w)]) := by
  cases f <;> simp only [variants, List.mem_cons, Prod.mk.injEq, List.not_mem_nil, or_false] at hg
  -- A record under a tag is read with the tag already; the other cases are read in two steps.
  case source =>
    rcases hg with ⟨rfl, rfl⟩ | ⟨rfl, rfl⟩ | ⟨rfl, rfl⟩
    · exact h
    · exact h
    · change Source.ofJson _ = Source.ofJson _
      change Query.ofJson v = Query.ofJson w at h
      simp only [Source.ofJson, Source.ofJsonUsing, variant, ok_bind, h]
  case expr =>
    rcases hg with ⟨rfl, rfl⟩ | ⟨rfl, rfl⟩ | ⟨rfl, rfl⟩ | ⟨rfl, rfl⟩ | ⟨rfl, rfl⟩ | ⟨rfl, rfl⟩
    · exact h
    · change Expr.ofJson _ = Expr.ofJson _
      change Literal.ofJson v = Literal.ofJson w at h
      rw [Expr.ofJson_eq, Expr.ofJson_eq]
      simp only [Expr.nodeOfJson, variant, ok_bind, h]
    · exact h
    · exact h
    · change Expr.ofJson _ = Expr.ofJson _
      change Decoder.list Expr.ofJson v = Decoder.list Expr.ofJson w at h
      rw [Expr.ofJson_eq, Expr.ofJson_eq]
      simp only [Expr.nodeOfJson, variant, ok_bind, h]
    · exact h

/-- Values that are read alike may stand for each other in a list. -/
theorem read_item_congr {vs ws : List Json} (h : f.read v = f.read w) :
    (list f).read (.array (vs ++ v :: ws)) = (list f).read (.array (vs ++ w :: ws)) := by
  change (vs ++ v :: ws).mapM f.read = (vs ++ w :: ws).mapM f.read
  rw [List.mapM_append, List.mapM_append, List.mapM_cons, List.mapM_cons, h]

end Form

namespace Edit

variable {f : Form} {v w : Json}

/-- Only records, and lists and values with something in them, are edited. -/
theorem ne_null (h : Edit f v w) : v ≠ .null ∧ w ≠ .null := by
  cases h <;> exact ⟨Json.noConfusion, Json.noConfusion⟩

/-- An edit does not change what is read. -/
theorem read_eq (h : Edit f v w) : f.read v = f.read w := by
  -- An edit somewhere below has left what is read there as it was.
  induction h with
  | add value hf hkey =>
    refine Form.read_object_congr hf fun x hx => FormField.read_congr ?_
    rw [Json.lookup?_insert_of_ne (hkey x hx).symm]
  | @drop f fields ms x blank hf hx hblank hheld =>
    refine Form.read_object_congr hf fun y hy => ?_
    by_cases hyx : y.key = x.key
    · obtain rfl := Form.eq_of_key_eq hf hy hx hyx
      exact FormField.read_eq_of_blank hblank hheld Json.lookup?_filter_self
    · exact FormField.read_congr (Json.lookup?_filter_of_ne (Ne.symm hyx)).symm
  | @field f fields ms ns x v w hf hx h ih =>
    refine Form.read_object_congr hf fun y hy => ?_
    by_cases hyx : y.key = x.key
    · obtain rfl := Form.eq_of_key_eq hf hy hx hyx
      -- A member in front with the same key would hide this one.
      cases hms : Json.lookup? y.key ms with
      | none =>
        obtain ⟨hv, hw⟩ := h.ne_null
        exact FormField.read_eq_of_read_eq (Json.lookup?_insert_self hms)
          (Json.lookup?_insert_self hms) hv hw ih
      | some u =>
        refine FormField.read_congr ?_
        rw [Json.lookup?_append, Json.lookup?_append, hms, Option.some_or, Option.some_or]
    · refine FormField.read_congr ?_
      rw [Json.lookup?_insert_of_ne (Ne.symm hyx), Json.lookup?_insert_of_ne (Ne.symm hyx)]
  | variant hg _ ih => exact Form.read_variant_congr hg ih
  | item _ ih => exact Form.read_item_congr ih

end Edit

/-- A query that is well-formed at all depths and has no floating point literal is read from every
value that edits make of its JSON form. -/
theorem Query.ofJson_of_edits {q : Query} {v : Json}
    (hq : ∀ t, q.Holds t → t.WellFormed ∧ t.FloatFree)
    (hv : ReflTransGen (Edit .query) q.toJson v) : ofJson v = .ok q := by
  induction hv with
  | refl => exact ofJson_toJson q hq
  | tail _ hedit ih => exact hedit.read_eq.symm.trans ih

/-- A query over a nested query. -/
def Query.nested : Query :=
  { Query.ofSource (.subquery (.ofRelation Blog.comments)) with nextIndex := 7 }

/-- A note is put into the nested query, and the limit of the outer one goes. -/
theorem Query.ofJson_of_edits_nested :
    (∀ t, nested.Holds t → t.WellFormed ∧ t.FloatFree)
      ∧ ∃ v, ReflTransGen (Edit .query) nested.toJson v
        ∧ v.get? "limit" = none
        ∧ ((v.get? "from").bind (Json.get? "Subquery")).bind (Json.get? "note")
          = some (.string "kept")
        ∧ ofJson v = .ok nested := by
  have hinner : ∀ t, (ofRelation Blog.comments).Holds t → t.WellFormed ∧ t.FloatFree := by
    intro t ht
    cases ht with
    | self => exact ⟨wellFormed_ofSource _, fun _ => nofun, fun _ => nofun⟩
    | root h _ => cases h
    | join hj _ _ => cases hj
  have hnested : ∀ t, nested.Holds t → t.WellFormed ∧ t.FloatFree := by
    intro t ht
    cases ht with
    | self => exact ⟨wellFormed_of_check rfl, fun _ => nofun, fun _ => nofun⟩
    | root h ht =>
      cases h
      exact hinner t ht
    | join hj _ _ => cases hj
  have hnote : Edit .query (ofRelation Blog.comments).toJson _ :=
    @Edit.add .query _ [] _ "note" (.string "kept") rfl (by decide)
  have hfrom : Edit .query nested.toJson _ :=
    @Edit.field .query _ [("distinct", .null)] _ (.required "from" .source) _ _ rfl (by simp)
      (@Edit.variant .source _ "Subquery" _ _ (by simp [Form.variants]) hnote)
  have hedits : ReflTransGen (Edit .query) nested.toJson _ :=
    (ReflTransGen.single hfrom).tail
      (@Edit.drop .query _ _ (.optional "limit" .expr) _ rfl (by simp) rfl rfl)
  exact ⟨hnested, _, hedits, rfl, rfl, ofJson_of_edits hnested hedits⟩

end JoinGraph

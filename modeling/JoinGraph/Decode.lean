import JoinGraph.Json
import JoinGraph.Name
import JoinGraph.Query.WellFormed
import JoinGraph.Vocabulary

/-!
# Decoding JSON values

A record is decoded from an object, its fields in the order of their keys: the first field that
does not decode decides the error, and only then are missing fields looked for. Keys without a
meaning are ignored, unless the record is strict.

A value of a type with several shapes is a word, or an object with one member whose key names the
shape.

Only the notations in which values are written are read. Decoders of derived types often take two
more, a record as the array of its fields in order and a word as an object whose one member is null;
these are refused here for their shape.
-/

namespace JoinGraph

/-- Why a JSON value is not a value of the expected type. -/
inductive DecodeError where
  | shape
  | name (error : NameError)
  | query (fault : QueryFault)
deriving DecidableEq

/-- A way to read a type from JSON, in the notation in which it is written. -/
abbrev Decoder (α : Type) := Json → Except DecodeError α

namespace Decoder

/-- A value that must be there. -/
def require {α : Type} : Option α → Except DecodeError α
  | some a => .ok a
  | none => .error .shape

/-- A text. -/
def text : Decoder String := fun v => require v.string?

/-- A truth value. -/
def truth : Decoder Bool
  | .bool b => .ok b
  | _ => .error .shape

/-- A non-negative integer. -/
def natural : Decoder Nat
  | .int n => if 0 ≤ n then .ok n.toNat else .error .shape
  | _ => .error .shape

/-- An integer of 64 bits. -/
def integer : Decoder Int64
  | .int n => if -Nat.pow 2 63 ≤ n ∧ n < Nat.pow 2 63 then .ok (Int64.ofInt n) else .error .shape
  | _ => .error .shape

/-- A number, as floating point. -/
def float : Decoder Binary64
  | .int n => .ok (Binary64.ofInt n)
  | .float x => .ok x
  | _ => .error .shape

/-- A member of a vocabulary. -/
def word {α : Type} [Vocabulary α] : Decoder α := fun v => do
  require (Vocabulary.ofWord? (← text v))

/-- A relation name. -/
def relationName : Decoder RelationName := fun v => do
  (RelationName.ofString (← text v)).mapError .name

/-- An alias. -/
def aliasName : Decoder Alias := fun v => do
  (Alias.ofString (← text v)).mapError .name

/-- A list, each item decoded in turn. -/
def list {α : Type} (item : Decoder α) : Decoder (List α) := fun v => do
  (← require v.array?).mapM item

/-- The members of an object. -/
def members : Decoder (List (String × Json))
  | .object ms => .ok ms
  | _ => .error .shape

/-- The only member of an object. -/
def variant : Decoder (String × Json)
  | .object [m] => .ok m
  | _ => .error .shape

/-- A field that may be missing from the record. -/
def field {α : Type} (ms : List (String × Json)) (key : String) (d : Decoder α) :
    Except DecodeError (Option α) :=
  match Json.lookup? key ms with
  | none => .ok none
  | some v => (d v).map some

/-- A field that is absent when missing or null. -/
def nullable {α : Type} (ms : List (String × Json)) (key : String) (d : Decoder α) :
    Except DecodeError (Option α) :=
  match Json.lookup? key ms with
  | none => .ok none
  | some .null => .ok none
  | some v => (d v).map some

/-- A list that is empty when missing. -/
def items {α : Type} (ms : List (String × Json)) (key : String) (d : Decoder α) :
    Except DecodeError (List α) := do
  return (← field ms key (list d)).getD []

/-- Members up to the first key that is not one of `known`, and whether all keys are known. -/
def knownMembers (known : List String) : List (String × Json) → List (String × Json) × Bool
  | [] => ([], true)
  | m :: rest =>
    if m.1 ∈ known then
      let (ms, all) := knownMembers known rest
      (m :: ms, all)
    else ([], false)

/-- Decode a strict record: fields before the first unknown key are decoded, and then that key is
refused. -/
def strict {α : Type} (known : List String)
    (decode : List (String × Json) → Except DecodeError (Except DecodeError α)) : Decoder α :=
  fun v => do
    let (ms, all) := knownMembers known (← members v)
    let finish ← decode ms
    if all then finish else .error .shape

theorem list_cons_eq_ok {α : Type} {d : Decoder α} {v : Json} {vs : List Json} {a : α} {as : List α}
    (hv : d v = .ok a) (hvs : list d (.array vs) = .ok as) :
    list d (.array (v :: vs)) = .ok (a :: as) := by
  replace hvs : vs.mapM d = .ok as := hvs
  change (v :: vs).mapM d = .ok (a :: as)
  rw [List.mapM_cons, hv]
  change (do return a :: (← vs.mapM d)) = Except.ok (a :: as)
  rw [hvs]
  rfl

/-- Items that can be read back one by one can be read back as a list. -/
theorem list_map_eq_ok {α : Type} {write : α → Json} {read : Decoder α} {xs : List α}
    (h : ∀ x ∈ xs, read (write x) = .ok x) : list read (.array (xs.map write)) = .ok xs := by
  induction xs with
  | nil => rfl
  | cons x rest ih =>
    obtain ⟨hx, hrest⟩ := List.forall_mem_cons.1 h
    exact list_cons_eq_ok hx (ih hrest)

end Decoder

end JoinGraph

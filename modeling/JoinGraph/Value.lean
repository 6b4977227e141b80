import JoinGraph.Binary64

/-!
# Untyped values

What a text in the configuration notation holds when nothing is known about its type. A mapping is
the list of its entries in the order they are written. A tag marks a value without changing it:
`Value.bare` looks through tags.
-/

namespace JoinGraph

/-- An untyped value. -/
inductive Value where
  | null
  | bool (value : Bool)
  | int (value : Int)
  | float (value : Binary64)
  | string (value : String)
  | sequence (items : List Value)
  | mapping (entries : List (Value × Value))
  /-- A value marked with a tag, which is held without its exclamation mark. -/
  | tagged (tag : String) (value : Value)
deriving Inhabited

namespace Value

/-- Mark a value with a tag, which may be written with its exclamation mark. -/
def mark (tag : String) (v : Value) : Value :=
  match tag.toList with
  | '!' :: c :: rest => tagged (String.ofList (c :: rest)) v
  | _ => tagged tag v

/-- A value without its tags. -/
def bare : Value → Value
  | tagged _ v => v.bare
  | v => v

/-- The text of a string, tagged or not. -/
def text? (v : Value) : Option String :=
  match v.bare with
  | string s => some s
  | _ => none

/-- Equality of numbers as keys: a NaN equals itself, and the two zeros are equal. -/
def sameFloat (x y : Binary64) : Bool := (x.isNaN && y.isNaN) || x.sameValue y

mutual

/-- Equality of values as keys of a mapping. The order of a mapping's entries does not count. -/
def sameKey : Value → Value → Bool
  | null, null => true
  | bool a, bool b => decide (a = b)
  | int a, int b => decide (a = b)
  | float a, float b => sameFloat a b
  | string a, string b => decide (a = b)
  | sequence a, sequence b => sameItems a b
  | mapping a, mapping b => decide (a.length = b.length) && entriesWithin a b
  | tagged s a, tagged t b => decide (s = t) && a.sameKey b
  | _, _ => false

/-- Equality of sequences, item by item. -/
def sameItems : List Value → List Value → Bool
  | [], [] => true
  | v :: rest, w :: rest' => v.sameKey w && sameItems rest rest'
  | _, _ => false

/-- Every entry of the first mapping is one of the second. -/
def entriesWithin : List (Value × Value) → List (Value × Value) → Bool
  | [], _ => true
  | (k, v) :: rest, entries =>
    (entries.any fun e => k.sameKey e.1 && v.sameKey e.2) && entriesWithin rest entries

end

/-- Add an entry to a mapping, in place of the value of an equal key. -/
def insertEntry (key value : Value) : List (Value × Value) → List (Value × Value)
  | [] => [(key, value)]
  | (k, v) :: rest =>
    if k.sameKey key then (k, value) :: rest else (k, v) :: insertEntry key value rest

/-- No two entries have equal keys. -/
def distinctKeys : List (Value × Value) → Bool
  | [] => true
  | (k, _) :: rest => !(rest.any fun e => k.sameKey e.1) && distinctKeys rest

end Value

end JoinGraph

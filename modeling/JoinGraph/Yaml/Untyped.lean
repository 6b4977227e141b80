import JoinGraph.Value
import JoinGraph.Yaml.Reference

/-!
# Untyped content

What a node means when nothing is known about its type. A plain scalar is a null, a truth value or
a number when it is written like one, and a text otherwise. A tag of the document's own makes a
tagged value; a standard tag demands its type.
-/

namespace JoinGraph.Yaml

/-- The words for null. -/
def nullWords : List String := ["null", "Null", "NULL", "~"]

/-- The truth value that a word stands for. -/
def truth? (text : String) : Option Bool :=
  if text ∈ ["true", "True", "TRUE"] then some true
  else if text ∈ ["false", "False", "FALSE"] then some false
  else none

/-- The value of a digit in any base up to sixteen. -/
def digit? (base : Nat) (c : Char) : Option Nat :=
  (hexDigit? c).filter (· < base)

/-- The number that one or more digits stand for. -/
def digits? (base : Nat) (digits : List Char) : Option Nat :=
  if digits = [] then none else digits.foldlM (fun n d => (digit? base d).map (n * base + ·)) 0

/-- Several digits of which the first is a zero, after a sign or not. Such a text is no number. -/
def isZeroPadded (cs : List Char) : Bool :=
  let digits := match cs with
    | '-' :: rest => rest
    | '+' :: rest => rest
    | cs => cs
  2 ≤ digits.length && digits.head? = some '0' && digits.all Char.isDigit

/-- The integer that an unsigned text stands for: a base mark and digits, or decimal digits. -/
def magnitude? (cs : List Char) : Option Nat :=
  match cs with
  | '0' :: 'x' :: rest => digits? 16 rest
  | '0' :: 'o' :: rest => digits? 8 rest
  | '0' :: 'b' :: rest => digits? 2 rest
  | cs => digits? 10 cs

/-- The integer that a text stands for, of any size. -/
def integer? (cs : List Char) : Option Int :=
  if isZeroPadded cs then none
  else
    match cs with
    | '-' :: rest => (magnitude? rest).map fun n => 0 - (n : Int)
    | '+' :: rest => (magnitude? rest).map Int.ofNat
    | cs => (magnitude? cs).map Int.ofNat

/-- What a text is when it is read as an integer. -/
inductive IntegerReading where
  /-- An integer of 64 bits. -/
  | fits (value : Int)
  /-- An integer of more than 64 but no more than 128 bits, which is refused. -/
  | tooWide
  /-- No integer. -/
  | other

/-- Read a text as an integer. -/
def readInteger (cs : List Char) : IntegerReading :=
  match integer? cs with
  | some n =>
    if -Nat.pow 2 63 ≤ n ∧ n < Nat.pow 2 64 then .fits n
    else if -Nat.pow 2 127 ≤ n ∧ n < Nat.pow 2 128 then .tooWide
    else .other
  | none => .other

/-- The finite number that a text in decimal notation stands for. -/
def decimal? (cs : List Char) : Option Binary64 := do
  let (negative, cs) := match cs with
    | '-' :: rest => (true, rest)
    | '+' :: rest => (false, rest)
    | cs => (false, cs)
  let whole := cs.takeWhile Char.isDigit
  let cs := cs.dropWhile Char.isDigit
  let (fraction, cs) := match cs with
    | '.' :: rest => (rest.takeWhile Char.isDigit, rest.dropWhile Char.isDigit)
    | cs => ([], cs)
  if whole = [] ∧ fraction = [] then none
  let exponent : Int ← match cs with
    | [] => some 0
    | e :: rest =>
      if e = 'e' ∨ e = 'E' then
        match rest with
        | '-' :: ds => (digits? 10 ds).map fun n => 0 - (n : Int)
        | '+' :: ds => (digits? 10 ds).map Int.ofNat
        | ds => (digits? 10 ds).map Int.ofNat
      else none
  let significand := (whole ++ fraction).foldl (fun n d => n * 10 + (d.toNat - 48)) 0
  nearest negative significand (exponent - fraction.length)
where
  /-- The nearest number, if it is finite. Exponents beyond all numbers need no computation. -/
  nearest (negative : Bool) (significand : Nat) (exponent : Int) : Option Binary64 :=
    let digits := ((toString significand).length : Int)
    -- The order of magnitude decides first, so a huge exponent is never raised to.
    let f : Float :=
      if significand = 0 || digits + exponent < -400 then 0.0
      else if 400 < digits + exponent then Float.ofScientific 1 false 400
      else if 0 ≤ exponent then Float.ofScientific significand false exponent.toNat
      else Float.ofScientific significand true exponent.natAbs
    if f.isInf then none else some (Binary64.ofFloat (if negative then -f else f))

/-- The bits of positive infinity. -/
def infinity : Binary64 := ⟨0x7ff0000000000000⟩

/-- The bits of negative infinity. -/
def negativeInfinity : Binary64 := ⟨0xfff0000000000000⟩

/-- The bits of a NaN. -/
def notANumber : Binary64 := ⟨0x7ff8000000000000⟩

/-- The floating point number that a text stands for. One sign is allowed. -/
def float? (text : String) : Option Binary64 :=
  if text ∈ [".inf", ".Inf", ".INF", "+.inf", "+.Inf", "+.INF"] then some infinity
  else if text ∈ ["-.inf", "-.Inf", "-.INF"] then some negativeInfinity
  else if text ∈ [".nan", ".NaN", ".NAN"] then some notANumber
  else decimal? text.toList

/-- The value of a plain scalar. -/
def plainValue? (text : String) : Option Value :=
  if text = "" || text ∈ nullWords then some .null
  else
    match truth? text with
    | some b => some (.bool b)
    | none =>
      match readInteger text.toList with
      | .fits n => some (.int n)
      | .tooWide => none
      | .other =>
        -- Such a text would pass as a floating point number.
        if isZeroPadded text.toList then some (.string text)
        else
          match float? text with
          | some x => some (.float x)
          | none => some (.string text)

/-- The value of a scalar with a tag that is not the document's own: a standard type demands its
form, and anything else is a text. -/
def taggedScalar? (tag : Tag) (text : String) : Option Value :=
  if tag = Tag.standard "bool" then (truth? text).map .bool
  else if tag = Tag.standard "int" then
    match readInteger text.toList with
    | .fits n => some (.int n)
    | _ => none
  else if tag = Tag.standard "float" then (float? text).map .float
  else if tag = Tag.standard "null" then (if text ∈ nullWords then some .null else none)
  else some (.string text)

/-- The value of a scalar without regard to a tag of the document's own. -/
def scalarValue? (tag : Option Tag) (text : String) (plain : Bool) : Option Value :=
  match tag.filter fun t => !t.isOwn with
  | some tag => taggedScalar? tag text
  | none => if plain then plainValue? text else some (.string text)

/-- Mark a value with the tag of its node, if that is the document's own and has a name. -/
def markWith (tag : Option Tag) (v : Value) : Value :=
  match tag.bind Tag.ownName? with
  | none => v
  | some name => .mark name v

namespace Node

mutual

/-- The value of a node whose references have been replaced. Keys of a mapping are distinct. -/
def value? : Node → Option Value
  | scalar tag text plain => (scalarValue? tag text plain).map (markWith tag)
  | sequence tag items => (values? items).map fun vs => markWith tag (.sequence vs)
  | mapping tag entries =>
    (entryValues? entries).bind fun es =>
      if Value.distinctKeys es then some (markWith tag (.mapping es)) else none
  | reference _ => none

/-- The values of items. -/
def values? : List Node → Option (List Value)
  | [] => some []
  | n :: rest => do
    let v ← n.value?
    return v :: (← values? rest)

/-- The values of entries. -/
def entryValues? : List (Node × Node) → Option (List (Value × Value))
  | [] => some []
  | (k, v) :: rest => do
    let key ← k.value?
    let value ← v.value?
    return (key, value) :: (← entryValues? rest)

end

end Node

/-- The untyped value of a text; one without a document is null. -/
def valueOfText? (text : String) : Option Value := do
  match ← contentOfText? text with
  | none => some .null
  | some n => n.value?

end JoinGraph.Yaml

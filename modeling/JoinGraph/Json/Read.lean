import JoinGraph.Json

/-!
# Reading JSON text

A reader of the full grammar. Every step of the recursion consumes a character, so the length of
the text bounds it.
-/

namespace JoinGraph.Json

/-- Drop blanks. -/
def skipBlanks : List Char → List Char
  | [] => []
  | c :: rest => if c = ' ' ∨ c = '\n' ∨ c = '\t' ∨ c = '\r' then skipBlanks rest else c :: rest

/-- The value of a hexadecimal digit. -/
def hexValue? (c : Char) : Option Nat :=
  if '0' ≤ c ∧ c ≤ '9' then some (c.toNat - 48)
  else if 'a' ≤ c ∧ c ≤ 'f' then some (c.toNat - 87)
  else if 'A' ≤ c ∧ c ≤ 'F' then some (c.toNat - 55)
  else none

/-- The value of four hexadecimal digits. -/
def hex4? (a b c d : Char) : Option Nat := do
  return (((← hexValue? a) * 16 + (← hexValue? b)) * 16 + (← hexValue? c)) * 16 + (← hexValue? d)

/-- The character that a letter after a backslash stands for. -/
def unescape? (c : Char) : Option Char :=
  match c with
  | '"' => some '"'
  | '\\' => some '\\'
  | '/' => some '/'
  | 'b' => some (Char.ofNat 8)
  | 'f' => some (Char.ofNat 12)
  | 'n' => some '\n'
  | 'r' => some '\r'
  | 't' => some '\t'
  | _ => none

/-- The rest of a quoted text, whose characters so far are `done` in reverse. A character beyond
the basic plane may be written as two units. -/
def readString (done : List Char) : List Char → Option (String × List Char)
  | [] => none
  | '"' :: rest => some (String.ofList done.reverse, rest)
  | '\\' :: 'u' :: a :: b :: c :: d :: rest =>
    match hex4? a b c d with
    | none => none
    | some unit =>
      -- The first of two units needs the second, and the second does not stand alone.
      if 0xD800 ≤ unit ∧ unit ≤ 0xDBFF then
        match rest with
        | '\\' :: 'u' :: e :: f :: g :: h :: rest =>
          match hex4? e f g h with
          | none => none
          | some low =>
            if 0xDC00 ≤ low ∧ low ≤ 0xDFFF then
              let code := 0x10000 + (unit - 0xD800) * 0x400 + (low - 0xDC00)
              readString (Char.ofNat code :: done) rest
            else none
        | _ => none
      else if 0xDC00 ≤ unit ∧ unit ≤ 0xDFFF then none
      else readString (Char.ofNat unit :: done) rest
  | '\\' :: c :: rest =>
    match unescape? c with
    | none => none
    | some d => readString (d :: done) rest
  | c :: rest => if c.toNat < 32 then none else readString (c :: done) rest

/-- Leading decimal digits and what follows them. -/
def readDigits (s : List Char) : List Char × List Char :=
  (s.takeWhile Char.isDigit, s.dropWhile Char.isDigit)

/-- The integer that decimal digits stand for. -/
def digitsValue (digits : List Char) : Nat :=
  digits.foldl (fun n c => n * 10 + (c.toNat - 48)) 0

/-- Append digits to `value` as long as the result fits 64 bits; the result and the number of digits
left over. -/
def significand (value : Nat) : List Char → Nat × Nat
  | [] => (value, 0)
  | c :: rest =>
    let next := value * 10 + (c.toNat - 48)
    if next < Nat.pow 2 64 then significand next rest else (value, rest.length + 1)

/-- A number by its parts: digits before and after the point, and the exponent. Digits that no
longer fit the significand are dropped; those before the point keep their place value. -/
def ofParts? (negative : Bool) (whole fraction : List Char) (exponent : Int) : Option Json :=
  let (value, left) := significand 0 whole
  let (value, cut) := significand value fraction
  -- A digit dropped before the point is worth a factor of ten; one after it is worth nothing.
  let places := fraction.length - cut
  (Binary64.ofDecimal? negative value (exponent + left - places)).map float

/-- An integer of 64 bits, with or without sign, or else the number nearest to it. -/
def ofInteger? (negative : Bool) (digits : List Char) : Option Json :=
  let n := digitsValue digits
  if negative then
    -- A negative zero is no integer, since it has to keep its sign.
    if 0 < n ∧ n ≤ Nat.pow 2 63 then some (int (0 - n))
    else ofParts? true digits [] 0
  else if n < Nat.pow 2 64 then some (int n)
  else ofParts? false digits [] 0

/-- A number after its sign. -/
def readNumber (negative : Bool) (s : List Char) : Option (Json × List Char) := do
  let (whole, s) := readDigits s
  -- Zero is the only number that starts with a zero before the point.
  guard (whole ≠ [] ∧ (whole.length = 1 ∨ whole.head? ≠ some '0'))
  let (fraction, s) ← match s with
    | '.' :: s =>
      let (fraction, s) := readDigits s
      if fraction = [] then none else some (some fraction, s)
    | s => some (none, s)
  let (exponent, s) ← match s with
    | c :: s =>
      if c = 'e' ∨ c = 'E' then
        let (down, s) := match s with
          | '-' :: s => (true, s)
          | '+' :: s => (false, s)
          | s => (false, s)
        let (digits, s) := readDigits s
        if digits = [] then none
        else
          let n := digitsValue digits
          some (some (if down then 0 - (n : Int) else n), s)
      else some (none, c :: s)
    | [] => some (none, [])
  -- Only the notation without fraction and exponent can be an integer.
  let value ← match fraction, exponent with
    | none, none => ofInteger? negative whole
    | _, _ => ofParts? negative whole (fraction.getD []) (exponent.getD 0)
  return (value, s)

mutual

/-- One value and the text after it. -/
def readValue : Nat → List Char → Option (Json × List Char)
  | 0, _ => none
  | bound + 1, s =>
    match skipBlanks s with
    | 'n' :: 'u' :: 'l' :: 'l' :: s => some (null, s)
    | 't' :: 'r' :: 'u' :: 'e' :: s => some (bool true, s)
    | 'f' :: 'a' :: 'l' :: 's' :: 'e' :: s => some (bool false, s)
    | '"' :: s => (readString [] s).map fun (t, s) => (string t, s)
    | '-' :: s => readNumber true s
    | '[' :: s =>
      match skipBlanks s with
      | ']' :: s => some (array [], s)
      | s => (readItems bound [] s).map fun (items, s) => (array items, s)
    | '\x7b' :: s =>
      match skipBlanks s with
      | '\x7d' :: s => some (object [], s)
      | s => (readMembers bound [] s).map fun (members, s) => (ofMembers members, s)
    | c :: s => if c.isDigit then readNumber false (c :: s) else none
    | [] => none

/-- The items of an array up to its end, after those in `done`, which are in reverse. -/
def readItems : Nat → List Json → List Char → Option (List Json × List Char)
  | 0, _, _ => none
  | bound + 1, done, s =>
    match readValue bound s with
    | none => none
    | some (v, s) =>
      match skipBlanks s with
      | ',' :: s => readItems bound (v :: done) s
      | ']' :: s => some ((v :: done).reverse, s)
      | _ => none

/-- The members of an object up to its end, after those in `done`, which are in reverse. -/
def readMembers : Nat → List (String × Json) → List Char →
    Option (List (String × Json) × List Char)
  | 0, _, _ => none
  | bound + 1, done, s =>
    match skipBlanks s with
    | '"' :: s =>
      match readString [] s with
      | none => none
      | some (key, s) =>
        match skipBlanks s with
        | ':' :: s =>
          match readValue bound s with
          | none => none
          | some (v, s) =>
            match skipBlanks s with
            | ',' :: s => readMembers bound ((key, v) :: done) s
            | '\x7d' :: s => some (((key, v) :: done).reverse, s)
            | _ => none
        | _ => none
    | _ => none

end

/-- The value that a text is, if it is one value with nothing but blanks around it. -/
def ofText? (text : String) : Option Json :=
  let s := text.toList
  match readValue (s.length + 1) s with
  | some (v, rest) => if skipBlanks rest = [] then some v else none
  | none => none

end JoinGraph.Json

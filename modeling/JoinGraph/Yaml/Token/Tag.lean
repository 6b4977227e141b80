import JoinGraph.Yaml.Cursor
import JoinGraph.Yaml.Scalar.Quoted
import JoinGraph.Yaml.Token

/-!
# Tags, anchors and directives

The tokens that begin with `!`, `&`, `*` and `%`.
-/

namespace JoinGraph.Yaml

/-- A character of a tag, other than an escape. It is one octet. -/
def isTagChar (withFlow : Bool) (c : Char) : Bool :=
  isWordChar c || c ∈ [';', '/', '?', ':', '@', '&', '=', '+', '$', '.', '!', '~', '*', '\'', '(',
    ')'] || (withFlow && c ∈ [',', '[', ']'])

/-- The octet of an ASCII character. -/
def octetOf (c : Char) : UInt8 := UInt8.ofNat c.toNat

/-- The octet that an escape spells: a percent sign and two digits. -/
def escapedOctet? : List Char → Option UInt8
  | '%' :: a :: b :: _ => do return UInt8.ofNat ((← hexDigit? a) * 16 + (← hexDigit? b))
  | _ => none

/-- The number of octets that follow a leading one, if it is one. -/
def trailing? (lead : UInt8) : Option Nat :=
  if lead < 0x80 then some 0
  else if lead < 0xc0 then none
  else if lead < 0xe0 then some 1
  else if lead < 0xf0 then some 2
  else if lead < 0xf8 then some 3
  else none

/-- The trailing octets that escapes spell, as many as given. -/
def trailingOctets : Nat → List Char → Option (List UInt8)
  | 0, _ => some []
  | n + 1, cs => do
    let o ← escapedOctet? cs
    if o < 0x80 || 0xc0 ≤ o then none
    return o :: (← trailingOctets n (cs.drop 3))

/-- The octets that the escapes at the start of a text spell: a leading one and those that it says
follow. They need not be the encoding of a character. -/
def escapedOctets (cs : List Char) : Option (List UInt8) := do
  let lead ← escapedOctet? cs
  return lead :: (← trailingOctets (← trailing? lead) (cs.drop 3))

/-- Read the octets of a tag. The bound is the number of characters. -/
def tagOctets (withFlow : Bool) : Nat → List UInt8 → Cursor → Option (List UInt8 × Cursor)
  | 0, _, _ => none
  | bound + 1, done, c =>
    match c.peek with
    | some '%' => do
      let octets ← escapedOctets c.rest
      tagOctets withFlow bound (done ++ octets) (c.move (3 * octets.length))
    | some ch =>
      if isTagChar withFlow ch then tagOctets withFlow bound (done ++ [octetOf ch]) c.advance
      else some (done, c)
    | none => some (done, c)

/-- Read the octets of a tag after those in `done`. -/
def readTagOctets (withFlow : Bool) (done : List UInt8) (c : Cursor) :
    Option (List UInt8 × Cursor) :=
  tagOctets withFlow (c.rest.length + 1) done c

/-- Read a handle: an exclamation mark, a word, and possibly another exclamation mark. -/
def tagHandle (c : Cursor) : Option (List Char × Cursor) :=
  if c.sees '!' then
    let (word, c) := c.advance.takeWhile isWordChar
    if c.sees '!' then some ('!' :: word ++ ['!'], c.advance) else some ('!' :: word, c)
  else none

/-- Read the tag that starts here. When nothing follows a plain mark, the mark is the whole tag. -/
def tagToken (inFlow : Bool) (c : Cursor) : Option (Token × Cursor) := do
  let (handle, suffix, c) ←
    if c.peekAt 1 = some '<' then do
      let (octets, c) ← readTagOctets true [] (c.move 2)
      if octets = [] then none
      else if c.sees '>' then some ([], Tag.ofOctets octets, c.advance)
      else none
    else do
      let (handle, c) ← tagHandle c
      if 2 ≤ handle.length ∧ handle.getLast? = some '!' then do
        let (octets, c) ← readTagOctets false [] c
        if octets = [] then none else some (handle, Tag.ofOctets octets, c)
      else do
        -- What looked like a handle is the start of the name of a local tag.
        let (octets, c) ← readTagOctets false ((handle.drop 1).map octetOf) c
        let suffix := Tag.ofOctets octets
        if suffix.octets = [] then some ([], Tag.bareMark, c) else some (['!'], suffix, c)
  if endsWord c.peek || (inFlow && c.sees ',') then
    some (.tag (String.ofList handle) suffix, c)
  else none

/-- Read the name of an anchor, after its mark. -/
def anchorName (c : Cursor) : Option (String × Cursor) :=
  let (name, after) := c.advance.takeWhile isWordChar
  let ended := endsWord after.peek
    || after.seesAny fun ch => ch ∈ ['?', ':', ',', ']', '\x7d', '%', '@', '\x60']
  if name ≠ [] && ended then some (String.ofList name, after) else none

/-- Read a number of at most nine digits. -/
def versionNumber (c : Cursor) : Option (Nat × Cursor) :=
  let (digits, c) := c.takeWhile Char.isDigit
  if digits ≠ [] ∧ digits.length ≤ 9 then
    some (digits.foldl (fun n d => n * 10 + (d.toNat - 48)) 0, c)
  else none

/-- Read the directive that starts here: the version, or an abbreviation for tags. -/
def directive (c : Cursor) : Option (Token × Cursor) := do
  let (name, c) := c.advance.takeWhile isWordChar
  if !endsWord c.peek then none
  let (token, c) ←
    if name = "YAML".toList then do
      let (major, c) ← versionNumber (c.skipWhile isBlank)
      if !c.sees '.' then none
      let (minor, c) ← versionNumber c.advance
      some (Token.version major minor, c)
    else if name = "TAG".toList then do
      let (handle, c) ← tagHandle (c.skipWhile isBlank)
      if handle ≠ ['!'] ∧ (handle.length < 2 ∨ handle.getLast? ≠ some '!') then none
      if !c.seesAny isBlank then none
      let (lead, c) ← readTagOctets true [] (c.skipWhile isBlank)
      if lead = [] || !endsWord c.peek then none
      some (Token.tagDirective (String.ofList handle) (Tag.ofOctets lead), c)
    else none
  let c := (c.skipWhile isBlank).skipComment
  if c.seesAny (fun ch => !isBreak ch) then none
  some (token, c.skipBreak)

end JoinGraph.Yaml

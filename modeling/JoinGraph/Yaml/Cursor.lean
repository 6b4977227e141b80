/-!
# Positions in a YAML text

A text is read as a list of characters. Indentation gives it its structure, so a position knows its
line and its column; `offset` counts octets, for the rule that a key is only so long.

Before it is read, a text is checked for characters that may not appear in it, and its line breaks
are made uniform.
-/

namespace JoinGraph.Yaml

/-- A character that may appear in a text. -/
def isAllowed (c : Char) : Bool :=
  let n := c.toNat
  n = 0x09 || n = 0x0A || n = 0x0D || (0x20 ≤ n && n ≤ 0x7E) || n = 0x85
    || (0xA0 ≤ n && n ≤ 0xD7FF) || (0xE000 ≤ n && n ≤ 0xFFFD) || 0x10000 ≤ n

/-- Carriage returns, alone or before a line feed, and next-line characters become line feeds. -/
def uniformBreaks : List Char → List Char
  | [] => []
  | '\r' :: '\n' :: rest => '\n' :: uniformBreaks rest
  | c :: rest => (if c = '\r' ∨ c = '\u0085' then '\n' else c) :: uniformBreaks rest

/-- The characters of a text, if it has allowed ones only. -/
def characters? (text : String) : Option (List Char) :=
  if text.toList.all isAllowed then some (uniformBreaks text.toList) else none

/-- The byte order mark. It may stand at the start of a line, where it takes up a column; anywhere
else it is a character like others. -/
def byteOrderMark : Char := '\ufeff'

/-- A line break, once breaks are uniform. -/
def isBreak (c : Char) : Bool := c = '\n' || c = '\u2028' || c = '\u2029'

/-- A space or a tab. -/
def isBlank (c : Char) : Bool := c = ' ' || c = '\t'

/-- A blank or a line break. -/
def isSpace (c : Char) : Bool := isBlank c || isBreak c

/-- Nothing, a blank or a line break: what ends a word. -/
def endsWord : Option Char → Bool
  | none => true
  | some c => isSpace c

/-- A letter, a digit, a hyphen or an underscore: what names are made of. -/
def isWordChar (c : Char) : Bool :=
  ('0' ≤ c && c ≤ '9') || ('a' ≤ c && c ≤ 'z') || ('A' ≤ c && c ≤ 'Z') || c = '_' || c = '-'

/-- A bracket, a brace or a comma: what ends a plain word within brackets. -/
def isFlowIndicator (c : Char) : Bool := c = ',' || c = '[' || c = ']' || c = '\x7b' || c = '\x7d'

/-- A position in a text. -/
structure Cursor where
  /-- The characters from here on. -/
  rest : List Char
  /-- The line, from 0. -/
  line : Nat
  /-- The column, from 0. -/
  column : Nat
  /-- The number of octets before, each line break counted as one character. -/
  offset : Nat

namespace Cursor

/-- The start of a text. -/
def start (cs : List Char) : Cursor := ⟨cs, 0, 0, 0⟩

/-- The next character. -/
def peek (c : Cursor) : Option Char := c.rest.head?

/-- The character `n` places further on. -/
def peekAt (c : Cursor) (n : Nat) : Option Char := c.rest[n]?

/-- The next character is the given one. -/
def sees (c : Cursor) (ch : Char) : Bool := c.peek = some ch

/-- The next character, if there is one, satisfies a condition. -/
def seesAny (c : Cursor) (p : Char → Bool) : Bool := c.peek.any p

/-- Move over one character. -/
def advance (c : Cursor) : Cursor :=
  match c.rest with
  | [] => c
  | ch :: rest =>
    let offset := c.offset + ch.utf8Size
    if isBreak ch then ⟨rest, c.line + 1, 0, offset⟩ else ⟨rest, c.line, c.column + 1, offset⟩

/-- Move over some characters. -/
def move (c : Cursor) : Nat → Cursor
  | 0 => c
  | n + 1 => c.advance.move n

/-- The characters from here on that satisfy a condition, and the position after them. -/
def takeWhile (c : Cursor) (p : Char → Bool) : List Char × Cursor :=
  let taken := c.rest.takeWhile p
  (taken, c.move taken.length)

/-- The position after the characters from here on that satisfy a condition. -/
def skipWhile (c : Cursor) (p : Char → Bool) : Cursor := (c.takeWhile p).2

/-- The position after a byte order mark, if one starts the line here. -/
def skipMark (c : Cursor) : Cursor :=
  if c.column = 0 && c.sees byteOrderMark then c.advance else c

/-- The position after a line break, if there is one here. -/
def skipBreak (c : Cursor) : Cursor := if c.seesAny isBreak then c.advance else c

/-- The position after a comment, if there is one here. -/
def skipComment (c : Cursor) : Cursor :=
  if c.sees '#' then c.skipWhile fun ch => !isBreak ch else c

/-- A word of three equal marks stands at the start of this line. -/
def atMarks (c : Cursor) (mark : Char) : Bool :=
  c.column = 0 && c.peekAt 0 = some mark && c.peekAt 1 = some mark && c.peekAt 2 = some mark
    && endsWord (c.peekAt 3)

/-- A document starts or ends here. -/
def atDocumentMark (c : Cursor) : Bool := c.atMarks '-' || c.atMarks '.'

end Cursor

end JoinGraph.Yaml

import JoinGraph.Yaml.Scalar.Block
import JoinGraph.Yaml.Scalar.Plain
import JoinGraph.Yaml.Token.Tag

/-!
# From a text to tokens

Two things make tokens depend on what is around them. Indentation opens and closes blocks: a deeper
item or key opens one, a line further out closes those it leaves. And a key is only known to be one
when the colon after it is met; until then the place where it starts is remembered, one place for
each level of brackets, and the colon puts the mark of a key there.

A key without a mark of its own lies on one line and has at most 1024 octets.
-/

namespace JoinGraph.Yaml

/-- The start of what may turn out to be a key. -/
structure PossibleKey where
  /-- The number of tokens before it. -/
  place : Nat
  /-- It must be a key: a block mapping goes on with nothing else at this column. -/
  required : Bool
  /-- Its line. -/
  line : Nat
  /-- Its column. -/
  column : Nat
  /-- The number of octets before it. -/
  offset : Nat

/-- A text that has been turned into tokens up to a position. -/
structure Scan where
  /-- The position. -/
  cursor : Cursor
  /-- The tokens so far. -/
  tokens : Array Token
  /-- The column of the innermost block, or -1. -/
  indent : Int
  /-- The columns of the blocks around it, the innermost first. -/
  outer : List Int
  /-- The level of brackets. -/
  level : Nat
  /-- The possible key of the innermost level of brackets. -/
  possible : Option PossibleKey
  /-- The possible keys of the levels around it, the innermost first. -/
  outerKeys : List (Option PossibleKey)
  /-- A key may start here without a mark. -/
  keyAllowed : Bool

namespace Scan

/-- A text of which nothing has been read. -/
def start (cs : List Char) : Scan where
  cursor := Cursor.start cs
  tokens := #[]
  indent := -1
  outer := []
  level := 0
  possible := none
  outerKeys := []
  keyAllowed := true

/-- The position is within brackets. -/
def inFlow (s : Scan) : Bool := s.level ≠ 0

/-- Add a token. -/
def push (s : Scan) (t : Token) : Scan := { s with tokens := s.tokens.push t }

/-- Add a token and go on at a position. -/
def pushAt (s : Scan) (t : Token) (c : Cursor) : Scan :=
  { s with tokens := s.tokens.push t, cursor := c }

/-- Pass blanks, comments and line breaks, and a mark at the start of a line. A tab is a blank only
where no key may start; a line break outside of brackets lets a key start. The number of characters
bounds the recursion. -/
def skipToToken : Nat → Scan → Scan
  | 0, s => s
  | bound + 1, s =>
    let c := s.cursor.skipMark.skipWhile fun ch =>
      ch = ' ' || (ch = '\t' && (s.inFlow || !s.keyAllowed))
    let c := c.skipComment
    if c.seesAny isBreak then
      skipToToken bound
        { s with cursor := c.advance, keyAllowed := s.keyAllowed || !s.inFlow }
    else { s with cursor := c }

/-- A possible key that is out of reach: on an earlier line, or too long. -/
def isStale (c : Cursor) (k : PossibleKey) : Bool := k.line < c.line || k.offset + 1024 < c.offset

/-- Forget a possible key that is out of reach, which a required one may not be. -/
def dropStale (c : Cursor) : Option PossibleKey → Option (Option PossibleKey)
  | none => some none
  | some k => if isStale c k then (if k.required then none else some none) else some (some k)

/-- Forget all possible keys that are out of reach. -/
def dropStaleKeys (s : Scan) : Option Scan := do
  let possible ← dropStale s.cursor s.possible
  let outerKeys ← s.outerKeys.mapM (dropStale s.cursor)
  return { s with possible, outerKeys }

/-- Forget the possible key of this level, which may not be a required one. -/
def dropKey (s : Scan) : Option Scan :=
  match s.possible with
  | some k => if k.required then none else some { s with possible := none }
  | none => some s

/-- Remember that a key may start here. -/
def rememberKey (s : Scan) : Option Scan :=
  if s.keyAllowed then
    s.dropKey.map fun s =>
      { s with possible := some {
          place := s.tokens.size
          required := !s.inFlow && s.indent = s.cursor.column
          line := s.cursor.line
          column := s.cursor.column
          offset := s.cursor.offset } }
  else some s

/-- Open a block at a column if it is deeper than the innermost one. -/
def openBlock (s : Scan) (column : Nat) (place : Nat) (t : Token) : Scan :=
  if !s.inFlow && s.indent < column then
    { s with
      indent := column
      outer := s.indent :: s.outer
      tokens := s.tokens.insertIdxIfInBounds place t }
  else s

/-- Close the blocks, given innermost first, that are deeper than a column. -/
def closeTo (column : Int) (tokens : Array Token) (indent : Int) :
    List Int → Array Token × Int × List Int
  | [] => (tokens, indent, [])
  | parent :: rest =>
    if column < indent then closeTo column (tokens.push .blockEnd) parent rest
    else (tokens, indent, parent :: rest)

/-- Close the blocks that are deeper than a column. -/
def closeBlocks (s : Scan) (column : Int) : Scan :=
  if s.inFlow then s
  else
    let (tokens, indent, outer) := closeTo column s.tokens s.indent s.outer
    { s with tokens, indent, outer }

/-- Close all blocks before a mark of a document. -/
def leaveBlocks (s : Scan) : Option Scan :=
  ({ s.closeBlocks (-1) with keyAllowed := false }).dropKey

/-- Read an opening bracket. -/
def openFlow (s : Scan) (t : Token) : Option Scan := do
  -- The whole collection may turn out to be a key, so its start is remembered outside of it.
  let s ← s.rememberKey
  let s := s.pushAt t s.cursor.advance
  return { s with
    level := s.level + 1
    outerKeys := s.possible :: s.outerKeys
    possible := none
    keyAllowed := true }

/-- Read a closing bracket. -/
def closeFlow (s : Scan) (t : Token) : Option Scan := do
  let s ← s.dropKey
  let s := { s.pushAt t s.cursor.advance with keyAllowed := false }
  match s.outerKeys with
  | possible :: outerKeys => return { s with level := s.level - 1, possible, outerKeys }
  | [] => return s

/-- Read the hyphen in front of an item. -/
def readBlockEntry (s : Scan) : Option Scan := do
  if !s.inFlow && !s.keyAllowed then none
  let s := s.openBlock s.cursor.column s.tokens.size .blockSequence
  let s ← s.dropKey
  return { s.pushAt .blockEntry s.cursor.advance with keyAllowed := true }

/-- Read the mark in front of a key. -/
def readKeyMark (s : Scan) : Option Scan := do
  if !s.inFlow && !s.keyAllowed then none
  let s := s.openBlock s.cursor.column s.tokens.size .blockMapping
  let s ← s.dropKey
  return { s.pushAt .key s.cursor.advance with keyAllowed := !s.inFlow }

/-- Read the colon in front of a value. If there is a possible key, it is one. -/
def readValueMark (s : Scan) : Option Scan :=
  match s.possible with
  | some k =>
    -- The mark of the key goes in front of tokens that have been read, and so does the block
    -- that the key opens, in front of the mark.
    let s := { s with tokens := s.tokens.insertIdxIfInBounds k.place .key }
    let s := s.openBlock k.column k.place .blockMapping
    some { s.pushAt .value s.cursor.advance with possible := none, keyAllowed := false }
  | none =>
    if !s.inFlow && !s.keyAllowed then none
    else
      let s := s.openBlock s.cursor.column s.tokens.size .blockMapping
      some { s.pushAt .value s.cursor.advance with keyAllowed := !s.inFlow }

/-- Read a token that may start a key and after which no other key starts on the line. -/
def readInline (s : Scan) (token : Option (Token × Cursor)) : Option Scan := do
  let s ← s.rememberKey
  let (t, c) ← token
  return { s.pushAt t c with keyAllowed := false }

/-- A scalar as a token. -/
def scalarToken (isPlain : Bool) (read : Option (List Char × Cursor)) : Option (Token × Cursor) :=
  read.map fun (text, c) => (.scalar (String.ofList text) isPlain, c)

/-- Read a block scalar. -/
def readBlockScalar (s : Scan) (literal : Bool) : Option Scan := do
  let s ← s.dropKey
  let (t, c) ← scalarToken false (blockScalar literal s.indent s.cursor)
  return { s.pushAt t c with keyAllowed := true }

/-- Read a plain scalar. A key may start after it when a line break follows. -/
def readPlainScalar (s : Scan) : Option Scan := do
  let s ← s.rememberKey
  let scalar ← plainScalar s.inFlow s.indent s.cursor
  return { s.pushAt (.scalar (String.ofList scalar.text) true) scalar.after with
    keyAllowed := scalar.broken }

/-- Read the token that starts here; nothing starts at the end of the text. -/
def readToken (s : Scan) : Option Scan :=
  let c := s.cursor
  if c.column = 0 && c.sees '%' then do
    let s ← s.leaveBlocks
    let (t, c) ← directive c
    return s.pushAt t c
  else if c.atMarks '-' then s.leaveBlocks.map fun s => s.pushAt .documentStart (c.move 3)
  else if c.atMarks '.' then s.leaveBlocks.map fun s => s.pushAt .documentEnd (c.move 3)
  else
    match c.peek with
    | none => none
    | some ch =>
      -- Outside of brackets the marks of items, keys and values are words of their own; within
      -- brackets those of keys and values need no blank after them.
      let wordEnds := endsWord (c.peekAt 1)
      if ch = '[' then s.openFlow .flowSequence
      else if ch = '\x7b' then s.openFlow .flowMapping
      else if ch = ']' then s.closeFlow .flowSequenceEnd
      else if ch = '\x7d' then s.closeFlow .flowMappingEnd
      else if ch = ',' then
        s.dropKey.map fun s => { s.pushAt .flowEntry c.advance with keyAllowed := true }
      else if ch = '-' && wordEnds then s.readBlockEntry
      else if ch = '?' && (s.inFlow || wordEnds) then s.readKeyMark
      else if ch = ':' && (s.inFlow || wordEnds) then s.readValueMark
      else if ch = '*' then
        s.readInline ((anchorName c).map fun (name, c) => (.reference name, c))
      else if ch = '&' then s.readInline ((anchorName c).map fun (name, c) => (.anchor name, c))
      else if ch = '!' then s.readInline (tagToken s.inFlow c)
      else if ch = '|' && !s.inFlow then s.readBlockScalar true
      else if ch = '>' && !s.inFlow then s.readBlockScalar false
      else if ch = '\'' then s.readInline (scalarToken false (singleQuotedScalar c))
      else if ch = '"' then s.readInline (scalarToken false (doubleQuotedScalar c))
      else if startsPlain s.inFlow c then s.readPlainScalar
      else none

/-- Read all tokens. Every token that is written has a character, and so has every break before
it, so the number of characters bounds the recursion. -/
def readTokens : Nat → Scan → Option (Array Token)
  | 0, _ => none
  | bound + 1, s => do
    let s ← (skipToToken (bound + 1) s).dropStaleKeys
    let s := s.closeBlocks s.cursor.column
    if s.cursor.rest = [] then
      -- The end of the text closes whatever is open.
      let s ← s.leaveBlocks
      return s.tokens
    else readTokens bound (← s.readToken)

end Scan

/-- The tokens of a text, if it can be divided into tokens. -/
def Token.ofText? (text : String) : Option (List Token) := do
  let cs ← characters? text
  let tokens ← Scan.readTokens (cs.length + 1) (Scan.start cs)
  return tokens.toList

end JoinGraph.Yaml

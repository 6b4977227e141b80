import JoinGraph.Yaml.Scalar.Gap

/-!
# Plain scalars

A plain scalar has no quotes. It ends before a colon that is followed by a blank, before a comment,
where the indentation falls back, and within brackets before a bracket or a comma.
-/

namespace JoinGraph.Yaml

/-- A character that cannot start a plain scalar. -/
def isIndicator (c : Char) : Bool :=
  c ∈ ['-', '?', ':', ',', '[', ']', '\x7b', '\x7d', '#', '&', '*', '!', '|', '>', '\'', '"', '%',
    '@', '\x60']

/-- A plain scalar starts here. -/
def startsPlain (inFlow : Bool) (c : Cursor) : Bool :=
  match c.peek with
  | none => false
  | some ch =>
    (!isSpace ch && !isIndicator ch)
      || (ch = '-' && !((c.peekAt 1).any isBlank))
      || (!inFlow && (ch = '?' || ch = ':') && !endsWord (c.peekAt 1))

/-- The length of a word of a plain scalar. Within brackets a colon directly before a bracket, a
comma or a question mark is refused. -/
def plainWord (inFlow : Bool) : List Char → Option Nat
  | [] => some 0
  | c :: rest =>
    if isSpace c then some 0
    else if inFlow && c = ':' && rest.head?.any (fun d => isFlowIndicator d || d = '?') then none
    else if c = ':' && endsWord rest.head? then some 0
    else if inFlow && isFlowIndicator c then some 0
    else (plainWord inFlow rest).map (· + 1)

/-- A plain scalar that has been read. -/
structure PlainScalar where
  /-- Its text. -/
  text : List Char
  /-- The position after it and after the blanks that follow. -/
  after : Cursor
  /-- A line break follows it. -/
  broken : Bool

/-- A plain scalar with some more characters in front. -/
def PlainScalar.before (text : List Char) (s : PlainScalar) : PlainScalar :=
  { s with text := text ++ s.text }

/-- Read the words of a plain scalar from here on, the gap before them included. Every word has a
character, so the number of characters bounds the recursion. -/
def plainWords (inFlow : Bool) (minColumn : Nat) : Nat → Gap → Cursor → Option PlainScalar
  | 0, _, _ => none
  | bound + 1, gap, c =>
    let finish := some ⟨[], c, gap.broken⟩
    if c.atDocumentMark || c.sees '#' then finish
    else
      match plainWord inFlow c.rest with
      | none => none
      | some 0 => finish
      | some n =>
        let text := gap.text ++ c.rest.take n
        let c := c.move n
        if !c.seesAny isSpace then some ⟨text, c, false⟩
        else
          match Gap.none.readAt minColumn c with
          | none => none
          | some (gap, c) =>
            -- Less indentation ends the scalar; between brackets it means nothing.
            if !inFlow && c.column < minColumn then some ⟨text, c, gap.broken⟩
            else (plainWords inFlow minColumn bound gap c).map (·.before text)

/-- Read the plain scalar that starts here, in a block indented by `indent`. -/
def plainScalar (inFlow : Bool) (indent : Int) (c : Cursor) : Option PlainScalar :=
  plainWords inFlow (indent + 1).toNat (c.rest.length + 1) Gap.none c

end JoinGraph.Yaml

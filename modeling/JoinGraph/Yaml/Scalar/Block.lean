import JoinGraph.Yaml.Cursor

/-!
# Block scalars

A block scalar is a run of indented lines after a header. A literal one keeps its line breaks; a
folded one turns a single break between two lines that start with a word into a space. The header
may give the indentation, and says what becomes of the breaks at the end.
-/

namespace JoinGraph.Yaml

/-- What becomes of the line breaks at the end of a block scalar. -/
inductive Chomping where
  /-- All are dropped. -/
  | strip
  /-- One is kept. -/
  | clip
  /-- All are kept. -/
  | keep

/-- The header of a block scalar. -/
structure BlockHeader where
  /-- What becomes of the breaks at the end. -/
  chomping : Chomping
  /-- The indentation, relative to the block around it, if it is given. -/
  indentation : Option Nat

/-- The chomping indicator that starts here. -/
def chomping? (c : Cursor) : Option Chomping :=
  match c.peek with
  | some '+' => some .keep
  | some '-' => some .strip
  | _ => none

/-- The indentation indicator that starts here, if it is a digit. -/
def indentation? (c : Cursor) : Option Nat :=
  match c.peek with
  | some d => if d.isDigit then some (d.toNat - 48) else none
  | none => none

/-- Read a header: its two indicators in either order, blanks and a comment up to the end of the
line. The indentation is not zero. -/
def blockHeader (c : Cursor) : Option (BlockHeader × Cursor) :=
  -- The two indicators come in either order, and each of them may be left out.
  let (chomping, indentation, c) :=
    match chomping? c with
    | some chomping =>
      let c := c.advance
      match indentation? c with
      | some n => (some chomping, some n, c.advance)
      | none => (some chomping, none, c)
    | none =>
      match indentation? c with
      | some n =>
        let c := c.advance
        match chomping? c with
        | some chomping => (some chomping, some n, c.advance)
        | none => (none, some n, c)
      | none => (none, none, c)
  let c := (c.skipWhile isBlank).skipComment
  if indentation = some 0 then none
  else if c.seesAny (fun ch => !isBreak ch) then none
  else some (⟨chomping.getD .clip, indentation⟩, c.skipBreak)

/-- Indentation and empty lines before a line of a block scalar. -/
structure BlockMargin where
  /-- The widest indentation passed. -/
  widest : Nat
  /-- The line breaks passed. -/
  breaks : List Char
  /-- The position after them. -/
  after : Cursor

/-- Pass spaces up to the indentation, or all when it is not known yet, and empty lines. A tab may
not stand where indentation is expected. Every step passes a break, so the number of characters
bounds the recursion. -/
def blockMargin (indentation : Option Nat) :
    Nat → Nat → List Char → Cursor → Option BlockMargin
  | 0, _, _, _ => none
  | bound + 1, widest, breaks, c =>
    let expected := fun (c : Cursor) => match indentation with
      | some n => decide (c.column < n)
      | none => true
    let spaces := (c.rest.takeWhile (· = ' ')).length
    let passed := match indentation with
      | some n => min spaces (n - c.column)
      | none => spaces
    let c := c.move passed
    let widest := max widest c.column
    -- Once the indentation is passed, a tab is a character of the line.
    if expected c && c.sees '\t' then none
    else
      match c.peek with
      | some ch =>
        if isBreak ch then blockMargin indentation bound widest (breaks ++ [ch]) c.advance
        else some ⟨widest, breaks, c⟩
      | none => some ⟨widest, breaks, c⟩

/-- What stands between two lines of a block scalar. -/
structure BlockJoint where
  /-- The line before starts with a blank. -/
  blankStart : Bool
  /-- The break of the line before; nothing in front of the first line. -/
  lineBreak : List Char
  /-- The breaks of empty lines. -/
  further : List Char

/-- What a joint stands for when the line after it starts with a blank or not. -/
def BlockJoint.text (literal : Bool) (j : BlockJoint) (blankStart : Bool) : List Char :=
  if !literal && j.lineBreak = ['\n'] && !j.blankStart && !blankStart then
    (if j.further = [] then [' '] else j.further)
  else j.lineBreak ++ j.further

/-- The lines of a block scalar. -/
structure BlockText where
  /-- The text without the breaks at the end. -/
  text : List Char
  /-- The joint after the last line. -/
  ending : BlockJoint
  /-- The position after the breaks at the end. -/
  after : Cursor

/-- Read the lines of a block scalar from here on, the joint before them included. Every line has a
character, so the number of characters bounds the recursion. -/
def blockLines (literal : Bool) (indentation : Nat) :
    Nat → BlockJoint → Cursor → Option BlockText
  | 0, _, _ => none
  | bound + 1, joint, c =>
    if c.column ≠ indentation || c.rest = [] then some ⟨[], joint, c⟩
    else
      let blankStart := c.seesAny isBlank
      let (line, after) := c.takeWhile fun ch => !isBreak ch
      match blockMargin (some indentation) bound 0 [] after.skipBreak with
      | none => none
      | some margin =>
        let next := ⟨blankStart, after.peek.toList, margin.breaks⟩
        (blockLines literal indentation bound next margin.after).map fun t =>
          { t with text := joint.text literal blankStart ++ line ++ t.text }

/-- Read the block scalar that starts here, in a block indented by `indent`. Without an indicator
the first line that is not empty gives the indentation, which is deeper than the block around. -/
def blockScalar (literal : Bool) (indent : Int) (c : Cursor) : Option (List Char × Cursor) := do
  let (header, c) ← blockHeader c.advance
  -- Outside of any block an indicator counts from the margin, although the column of no block
  -- is -1.
  let given := header.indentation.map fun n => (max indent 0).toNat + n
  let margin ← blockMargin given (c.rest.length + 1) 0 [] c
  let indentation := given.getD (max margin.widest (max (indent + 1).toNat 1))
  let t ← blockLines literal indentation (c.rest.length + 1) ⟨false, [], margin.breaks⟩ margin.after
  match header.chomping with
  | .strip => some (t.text, t.after)
  | .clip => some (t.text ++ t.ending.lineBreak, t.after)
  | .keep => some (t.text ++ t.ending.lineBreak ++ t.ending.further, t.after)

end JoinGraph.Yaml

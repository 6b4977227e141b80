import JoinGraph.Yaml.Cursor

/-!
# Gaps within scalars

A plain or quoted scalar may go over several lines. Blanks within a line are kept; a single line
break with the blanks around it stands for a space, and each further one for a line feed.
-/

namespace JoinGraph.Yaml

/-- Blanks and line breaks between two words of a scalar. -/
structure Gap where
  /-- The blanks on the line of the first word. -/
  blanks : List Char
  /-- A line break has been passed. -/
  broken : Bool
  /-- The first line break; an escaped one is not recorded. -/
  first : Option Char
  /-- The further line breaks. -/
  further : List Char

namespace Gap

/-- No gap. -/
def none : Gap := ⟨[], false, .none, []⟩

/-- The gap that an escaped line break opens. -/
def escaped : Gap := ⟨[], true, .none, []⟩

/-- What a gap stands for. -/
def text (g : Gap) : List Char :=
  if g.broken then
    match g.first with
    | .none => g.further
    | .some '\n' => if g.further = [] then [' '] else g.further
    | .some c => c :: g.further
  else g.blanks

/-- Read blanks and line breaks from a column on; the gap and the number of characters read. A tab
may not stand for indentation up to `minColumn`. -/
def read (minColumn column : Nat) (g : Gap) (count : Nat) : List Char → Option (Gap × Nat)
  | [] => some (g, count)
  | c :: rest =>
    if isBlank c then
      if g.broken then
        if c = '\t' ∧ column < minColumn then .none
        else read minColumn (column + 1) g (count + 1) rest
      else read minColumn (column + 1) { g with blanks := g.blanks ++ [c] } (count + 1) rest
    else if isBreak c then
      if g.broken then
        read minColumn 0 { g with further := g.further ++ [c] } (count + 1) rest
      else read minColumn 0 ⟨[], true, some c, []⟩ (count + 1) rest
    else some (g, count)

/-- Read a gap that starts at a position. -/
def readAt (minColumn : Nat) (g : Gap) (c : Cursor) : Option (Gap × Cursor) :=
  (read minColumn c.column g 0 c.rest).map fun (g, n) => (g, c.move n)

end Gap

end JoinGraph.Yaml

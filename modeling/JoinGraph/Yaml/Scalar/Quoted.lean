import JoinGraph.Yaml.Scalar.Gap

/-!
# Quoted scalars

Between single quotes a quote is written twice; between double quotes a backslash starts an escape,
and one at the end of a line continues the line.
-/

namespace JoinGraph.Yaml

/-- Why a word of a quoted scalar ends. -/
inductive WordEnd where
  /-- At the closing quote. -/
  | quote
  /-- At a blank or a line break. -/
  | gap
  /-- After an escaped line break. -/
  | escapedBreak

/-- A word of a quoted scalar. -/
structure QuotedWord where
  /-- What it stands for. -/
  text : List Char
  /-- The number of characters it is written with. -/
  length : Nat
  /-- Why it ends. -/
  ending : WordEnd

/-- A word with some more characters in front. -/
def QuotedWord.before (text : List Char) (length : Nat) (w : QuotedWord) : QuotedWord :=
  ⟨text ++ w.text, length + w.length, w.ending⟩

/-- The value of a hexadecimal digit. -/
def hexDigit? (c : Char) : Option Nat :=
  if '0' ≤ c ∧ c ≤ '9' then some (c.toNat - 48)
  else if 'a' ≤ c ∧ c ≤ 'f' then some (c.toNat - 87)
  else if 'A' ≤ c ∧ c ≤ 'F' then some (c.toNat - 55)
  else none

/-- The character with a hexadecimal code. -/
def hexCharacter? (digits : List Char) : Option Char := do
  let code ← digits.foldlM (fun n d => (hexDigit? d).map (n * 16 + ·)) 0
  if code.isValidChar then some (Char.ofNat code) else none

/-- The character that a letter after a backslash stands for. -/
def escapedCharacter? (c : Char) : Option Char :=
  match c with
  | '0' => some (Char.ofNat 0)
  | 'a' => some (Char.ofNat 7)
  | 'b' => some (Char.ofNat 8)
  | 't' => some '\t'
  | '\t' => some '\t'
  | 'n' => some '\n'
  | 'v' => some (Char.ofNat 11)
  | 'f' => some (Char.ofNat 12)
  | 'r' => some '\r'
  | 'e' => some (Char.ofNat 27)
  | ' ' => some ' '
  | '"' => some '"'
  | '/' => some '/'
  | '\\' => some '\\'
  | 'N' => some '\u0085'
  | '_' => some '\u00a0'
  | 'L' => some '\u2028'
  | 'P' => some '\u2029'
  | _ => none

/-- The next word between single quotes. -/
def singleQuotedWord : List Char → Option QuotedWord
  | [] => none
  | '\'' :: '\'' :: rest => (singleQuotedWord rest).map (·.before ['\''] 2)
  | '\'' :: _ => some ⟨[], 0, .quote⟩
  | c :: rest =>
    if isSpace c then some ⟨[], 0, .gap⟩ else (singleQuotedWord rest).map (·.before [c] 1)

/-- The next word between double quotes. -/
def doubleQuotedWord : List Char → Option QuotedWord
  | [] => none
  | '"' :: _ => some ⟨[], 0, .quote⟩
  -- The number counts the characters that are read, not those that they stand for.
  | '\\' :: 'x' :: a :: b :: rest =>
    match hexCharacter? [a, b] with
    | none => none
    | some c => (doubleQuotedWord rest).map (·.before [c] 4)
  | '\\' :: 'u' :: a :: b :: c :: d :: rest =>
    match hexCharacter? [a, b, c, d] with
    | none => none
    | some ch => (doubleQuotedWord rest).map (·.before [ch] 6)
  | '\\' :: 'U' :: a :: b :: c :: d :: e :: f :: g :: h :: rest =>
    match hexCharacter? [a, b, c, d, e, f, g, h] with
    | none => none
    | some ch => (doubleQuotedWord rest).map (·.before [ch] 10)
  | '\\' :: c :: rest =>
    if isBreak c then some ⟨[], 2, .escapedBreak⟩
    else
      match escapedCharacter? c with
      | none => none
      | some ch => (doubleQuotedWord rest).map (·.before [ch] 2)
  | c :: rest =>
    if isSpace c then some ⟨[], 0, .gap⟩ else (doubleQuotedWord rest).map (·.before [c] 1)

/-- Read words up to the closing quote. Every step passes a character, so the number of characters
bounds the recursion. -/
def quotedWords (word : List Char → Option QuotedWord) :
    Nat → Cursor → Option (List Char × Cursor)
  | 0, _ => none
  | bound + 1, c =>
    if c.atDocumentMark then none
    else
      match word c.rest with
      | none => none
      | some w =>
        let c := c.move w.length
        match w.ending with
        | .quote => some (w.text, c.advance)
        | .gap => continueAfter bound w.text Gap.none c
        | .escapedBreak => continueAfter bound w.text Gap.escaped c
where
  /-- Read a gap and the words after it, behind a word that has been read. -/
  continueAfter (bound : Nat) (text : List Char) (gap : Gap) (c : Cursor) :
      Option (List Char × Cursor) :=
    match gap.readAt 0 c with
    | none => none
    | some (gap, c) =>
      (quotedWords word bound c).map fun (rest, c) => (text ++ gap.text ++ rest, c)

/-- Read the single-quoted scalar that starts here. -/
def singleQuotedScalar (c : Cursor) : Option (List Char × Cursor) :=
  quotedWords singleQuotedWord (c.rest.length + 1) c.advance

/-- Read the double-quoted scalar that starts here. -/
def doubleQuotedScalar (c : Cursor) : Option (List Char × Cursor) :=
  quotedWords doubleQuotedWord (c.rest.length + 1) c.advance

end JoinGraph.Yaml

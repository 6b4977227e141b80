import JoinGraph.Json
import JoinGraph.Binary64.Shortest

/-!
# JSON text of a value

The compact form: no blanks, members in the order of the object, characters beyond ASCII as they
are.
-/

namespace JoinGraph.Json

/-- A character within a quoted text. -/
def escape (c : Char) : String :=
  if c = '"' then "\\\""
  else if c = '\\' then "\\\\"
  else if c = '\n' then "\\n"
  else if c = '\r' then "\\r"
  else if c = '\t' then "\\t"
  else if c.toNat = 8 then "\\b"
  else if c.toNat = 12 then "\\f"
  else if c.toNat < 32 then
    "\\u00" ++ String.singleton (Nat.digitChar (c.toNat / 16))
      ++ String.singleton (Nat.digitChar (c.toNat % 16))
  else String.singleton c

/-- A text between quotes, put after `out`. -/
def writeString (out : String) (s : String) : String :=
  (s.toList.foldl (fun acc c => acc ++ escape c) (out.push '"')).push '"'

mutual

/-- The text of a value, put after `out`. -/
def writeTo (out : String) : Json → String
  | null => out ++ "null"
  | bool b => out ++ (if b then "true" else "false")
  | int n => out ++ toString n
  | float x => out ++ x.text
  | string s => writeString out s
  | array items => (writeItems (out.push '[') true items).push ']'
  | object members => (writeMembers (out.push '\x7b') true members).push '\x7d'

/-- Items with commas between them; `first` says that none has been written yet. -/
def writeItems (out : String) (first : Bool) : List Json → String
  | [] => out
  | v :: rest => writeItems (writeTo (if first then out else out.push ',') v) false rest

/-- Members with commas between them; `first` says that none has been written yet. -/
def writeMembers (out : String) (first : Bool) : List (String × Json) → String
  | [] => out
  | (k, v) :: rest =>
    let out := (writeString (if first then out else out.push ',') k).push ':'
    writeMembers (writeTo out v) false rest

end

/-- The compact text of a value. -/
def text (v : Json) : String := writeTo "" v

end JoinGraph.Json

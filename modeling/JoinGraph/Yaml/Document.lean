import JoinGraph.Yaml.Node
import JoinGraph.Yaml.Token.Scan

/-!
# From tokens to a document

A text holds one document at most. Where a node may stand but nothing is written, there is an empty
scalar.
-/

namespace JoinGraph.Yaml

/-- Tokens of which a part has been read. -/
structure Reading where
  /-- The tokens that follow. -/
  tokens : List Token
  /-- What the handles of tags stand for. -/
  handles : List (String × Tag)
  /-- The names of anchors and their numbers; a name that is given again has its new number. -/
  names : List (String × Nat)
  /-- The number of anchors so far. -/
  anchors : Nat
  /-- The anchored nodes that have been read. -/
  anchored : List AnchoredNode

/-- A step in reading tokens, which may find that they do not form a document. -/
abbrev Reader := StateT Reading Option

namespace Reader

/-- The tokens do not form a document. -/
def refuse {α : Type} : Reader α := fun _ => none

/-- The next token. -/
def peek : Reader (Option Token) := fun r => some (r.tokens.head?, r)

/-- Pass the next token. -/
def skip : Reader Unit := fun r => some ((), { r with tokens := r.tokens.drop 1 })

/-- Pass the next token if it is the given one. -/
def accept (t : Token) : Reader Bool := do
  if (← peek) = some t then
    skip
    return true
  else return false

/-- The next token is one of the given ones. -/
def seesAny (ts : List Token) : Reader Bool := do
  match ← peek with
  | some t => return decide (t ∈ ts)
  | none => return false

/-- Read the name of an anchor, if there is one. -/
def anchor? : Reader (Option String) := do
  match ← peek with
  | some (.anchor name) =>
    skip
    return some name
  | _ => return none

/-- Read a tag, if there is one, and look up what its handle stands for. -/
def tag? : Reader (Option Tag) := do
  match ← peek with
  | some (.tag handle suffix) =>
    skip
    if handle = "" then return some suffix
    else
      match (← get).handles.find? (·.1 = handle) with
      | some (_, lead) => return some (lead ++ suffix)
      | none => refuse
  | _ => return none

/-- The number of an anchor that is given a name: the number of different names so far. -/
def number (name : String) : Reader (Nat × Nat) := fun r =>
  let n := r.names.length
  let names := (name, n) :: r.names.filter (·.1 ≠ name)
  some ((n, r.anchors), { r with names := names, anchors := r.anchors + 1 })

/-- Record an anchored node. -/
def record (place : Option (Nat × Nat)) (node : Node) : Reader Node := fun r =>
  match place with
  | none => some (node, r)
  | some (number, order) => some (node, { r with anchored := ⟨number, order, node⟩ :: r.anchored })

mutual

/-- Read a node. `block` says whether it may be an indented collection, and `indentless` whether it
may be a sequence that is not deeper than the mapping around it. -/
def node : Nat → Bool → Bool → Reader Node
  | 0, _, _ => refuse
  | bound + 1, block, indentless => do
    if let some (.reference name) ← peek then
      skip
      match (← get).names.find? (·.1 = name) with
      | some (_, number) => return .reference number
      | none => refuse
    else
      -- An anchor and a tag may come in either order.
      let first ← anchor?
      let tag ← tag?
      let anchor ← if first.isNone then anchor? else pure first
      -- The anchor has its number before the content is read, so a reference within the content
      -- may already name it.
      let place ← match anchor with
        | some name => some <$> number name
        | none => pure none
      let content ← match ← peek with
        | some .blockEntry =>
          if indentless then .sequence tag <$> indentlessItems bound
          else nothing anchor tag
        | some (.scalar text plain) => do
          skip
          pure (.scalar tag text plain)
        | some .flowSequence => do
          skip
          .sequence tag <$> flowItems bound true
        | some .flowMapping => do
          skip
          .mapping tag <$> flowEntries bound true
        | some .blockSequence =>
          if block then do
            skip
            .sequence tag <$> blockItems bound
          else nothing anchor tag
        | some .blockMapping =>
          if block then do
            skip
            .mapping tag <$> blockEntries bound
          else nothing anchor tag
        | _ => nothing anchor tag
      record place content
where
  /-- A node that has properties but no content is an empty scalar. -/
  nothing (anchor : Option String) (tag : Option Tag) : Reader Node :=
    if anchor.isSome || tag.isSome then pure (.scalar tag "" true) else refuse

/-- Read a node unless one of some tokens follows, before which there is nothing. -/
def nodeBefore : Nat → List Token → Bool → Bool → Reader Node
  | 0, _, _, _ => refuse
  | bound + 1, ends, block, indentless => do
    if ← seesAny ends then return .nothing else node bound block indentless

/-- Read the items of an indented sequence up to its end. -/
def blockItems : Nat → Reader (List Node)
  | 0 => refuse
  | bound + 1 => do
    if ← accept .blockEntry then
      let item ← nodeBefore bound [.blockEntry, .blockEnd] true false
      return item :: (← blockItems bound)
    else if ← accept .blockEnd then return []
    else refuse

/-- Read the items of a sequence that is not indented. -/
def indentlessItems : Nat → Reader (List Node)
  | 0 => refuse
  | bound + 1 => do
    if ← accept .blockEntry then
      let item ← nodeBefore bound [.blockEntry, .key, .value, .blockEnd] true false
      return item :: (← indentlessItems bound)
    else return []

/-- Read the entries of an indented mapping up to its end. -/
def blockEntries : Nat → Reader (List (Node × Node))
  | 0 => refuse
  | bound + 1 => do
    if ← accept .key then
      let ends := [.key, .value, .blockEnd]
      let key ← nodeBefore bound ends true true
      let value ← if ← accept .value then nodeBefore bound ends true true else pure .nothing
      return (key, value) :: (← blockEntries bound)
    else if ← accept .blockEnd then return []
    else refuse

/-- Read the items of a bracketed sequence up to its end. An item may be a single entry of a
mapping. -/
def flowItems : Nat → Bool → Reader (List Node)
  | 0, _ => refuse
  | bound + 1, first => do
    if ← accept .flowSequenceEnd then return []
    else
      unless first do
        unless ← accept .flowEntry do refuse
      if ← accept .key then
        -- An entry without a key: what ends the key is passed together with it.
        let key ← if ← seesAny [.value, .flowEntry, .flowSequenceEnd] then do
            skip
            pure .nothing
          else node bound false false
        let value ← if ← accept .value then
            nodeBefore bound [.flowEntry, .flowSequenceEnd] false false
          else pure .nothing
        return .mapping none [(key, value)] :: (← flowItems bound false)
      else if ← accept .flowSequenceEnd then return []
      else
        let item ← node bound false false
        return item :: (← flowItems bound false)

/-- Read the entries of a bracketed mapping up to its end. An entry may be a single key. -/
def flowEntries : Nat → Bool → Reader (List (Node × Node))
  | 0, _ => refuse
  | bound + 1, first => do
    if ← accept .flowMappingEnd then return []
    else
      unless first do
        unless ← accept .flowEntry do refuse
      if ← accept .key then
        let key ← nodeBefore bound [.value, .flowEntry, .flowMappingEnd] false false
        let value ← if ← accept .value then
            nodeBefore bound [.flowEntry, .flowMappingEnd] false false
          else pure .nothing
        return (key, value) :: (← flowEntries bound false)
      else if ← accept .flowMappingEnd then return []
      else
        let key ← node bound false false
        return (key, .nothing) :: (← flowEntries bound false)

end

/-- Read the directives before a document; a version is given once, and so is every handle. -/
def directives : Nat → Bool → Reader Bool
  | 0, _ => refuse
  | bound + 1, versioned => do
    match ← peek with
    | some (.version major minor) =>
      skip
      if versioned || major ≠ 1 || (minor ≠ 1 && minor ≠ 2) then refuse
      discard (directives bound true)
      return true
    | some (.tagDirective handle lead) =>
      skip
      if (← get).handles.any (·.1 = handle) then refuse
      modify fun r => { r with handles := (handle, lead) :: r.handles }
      discard (directives bound versioned)
      return true
    | _ => return false

/-- Pass marks of the end of a document. -/
def skipEnds : Nat → Reader Unit
  | 0 => refuse
  | bound + 1 => do
    if ← accept .documentEnd then skipEnds bound

/-- Read the only document of a text. -/
def document (bound : Nat) : Reader Document := do
  if (← peek).isNone then return ⟨none, []⟩
  let directed ← directives bound false
  -- The two standard handles come last, so a directive may give them another meaning.
  modify fun r =>
    { r with handles := r.handles ++ [("!", Tag.bareMark), ("!!", Tag.standardLead)] }
  let marked ← accept .documentStart
  if directed && !marked then refuse
  let root ←
    if marked then
      match ← peek with
      | none => pure .nothing
      | some t =>
        match t with
        | .version _ _ | .tagDirective _ _ | .documentStart | .documentEnd => pure .nothing
        | _ => node bound true false
    else node bound true false
  skipEnds bound
  -- Whatever is left would be a second document.
  if (← peek).isSome then refuse
  return ⟨some root, (← get).anchored⟩

end Reader

/-- The document that tokens form. Reading a node passes a token at least at every second step, so
the number of tokens bounds the recursion. -/
def Document.ofTokens? (tokens : List Token) : Option Document :=
  ((Reader.document (4 * tokens.length + 8)).run ⟨tokens, [], [], 0, []⟩).map (·.1)

/-- The document that a text holds. -/
def Document.ofText? (text : String) : Option Document := do
  ofTokens? (← Token.ofText? text)

end JoinGraph.Yaml

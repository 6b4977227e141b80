/-!
# File trees

The files that configuration and schemas are read from, as a value. Paths are relative to the top
of the tree. A path is followed component by component, and every component but the last one must
be a directory; a path that ends in a slash is one to a directory. What lies outside the tree is not
known, so above the top there are directories only.
-/

namespace JoinGraph

/-- A tree of files. -/
structure FileTree where
  /-- The files, by their components, with their bytes. -/
  files : List (List String × ByteArray)
  /-- Directories that hold no file, by their components. -/
  directories : List (List String)

namespace FileTree

/-- What a path leads to. -/
inductive Target where
  /-- A file with its bytes. -/
  | file (content : ByteArray)
  | directory

/-- The components of a path, empty ones included. -/
def components (path : String) : List String := path.splitOn "/"

/-- The components of a path without those that stay in place. -/
def plainComponents (path : String) : List String :=
  (components path).filter fun c => decide (c ≠ "" ∧ c ≠ ".")

/-- What components lead to from the top, none of them being `.` or `..`. -/
def entry? (tree : FileTree) (place : List String) : Option Target :=
  match tree.files.find? fun f => decide (f.1 = place) with
  | some f => some (.file f.2)
  | none =>
    if place = [] || tree.files.any (fun f => place.isPrefixOf f.1)
        || tree.directories.any (fun d => place.isPrefixOf d) then some .directory
    else none

/-- A directory within the tree, or one that is some steps above its top. -/
inductive Place where
  /-- A place within the tree, by its components. -/
  | within (components : List String)
  /-- A directory above the top. -/
  | above

/-- Follow components from a place. -/
def follow (tree : FileTree) : Place → List String → Option Target
  | .above, [] => some .directory
  | .above, c :: rest =>
    if c = "" ∨ c = "." ∨ c = ".." then tree.follow .above rest else none
  | .within place, [] => tree.entry? place
  | .within place, c :: rest =>
    match tree.entry? place with
    | some .directory =>
      if c = "" ∨ c = "." then tree.follow (.within place) rest
      else if c = ".." then
        -- Nothing is known above the top but that directories are there.
        tree.follow (if place = [] then .above else .within place.dropLast) rest
      else tree.follow (.within (place ++ [c])) rest
    | _ => none

/-- A path starts from the root of the file system. -/
def isAbsolute (path : String) : Bool := path.startsWith "/"

/-- What a path leads to. -/
def target? (tree : FileTree) (path : String) : Option Target :=
  if path = "" then none
  else if isAbsolute path then tree.follow .above (components path)
  else tree.follow (.within []) (components path)

/-- A path leads to something. -/
def has (tree : FileTree) (path : String) : Bool := (tree.target? path).isSome

/-- The text of the file that a path leads to. -/
def read? (tree : FileTree) (path : String) : Option String :=
  match tree.target? path with
  | some (.file content) => String.fromUTF8? content
  | _ => none

/-- The path of an entry below a directory. An absolute entry stands for itself. -/
def join (directory entry : String) : String :=
  if isAbsolute entry || directory = "" then entry
  else if directory.endsWith "/" then directory ++ entry
  else directory ++ "/" ++ entry

end FileTree

end JoinGraph

import JoinGraph.Catalog
import JoinGraph.FileTree
import JoinGraph.Log
import JoinGraph.Schema.Codec

/-!
# Loading catalogs

A catalog is loaded from one or more schema files. Each file is read, parsed and added before the
next one is looked at, so the error is that of the first file that has one; only then are the
targets of associations checked.
-/

namespace JoinGraph.Catalog

/-- The schema in a file. -/
def readSchema (files : FileTree) (path : String) : Except LoadError Schema :=
  match files.read? path with
  | none => .error (.unreadable path)
  | some text =>
    match Schema.ofText? text with
    | none => .error .malformed
    | some schema => .ok schema

/-- Add a schema file to a catalog. -/
def addFile (files : FileTree) (c : Catalog) (path : String) : Except LoadError Catalog :=
  match readSchema files path with
  | .error error => .error error
  | .ok schema => c.addSchema schema path

/-- Add schema files to a catalog, one after the other. -/
def addFiles (files : FileTree) (c : Catalog) : List String → Except LoadError Catalog
  | [] => .ok c
  | path :: rest =>
    match c.addFile files path with
    | .error error => .error error
    | .ok c => c.addFiles files rest

/-- Load a catalog from schema files. -/
def loadAll (files : FileTree) (paths : List String) (order : VisitOrder := .declared) :
    Except LoadError Catalog :=
  match empty.addFiles files paths with
  | .error error => .error error
  | .ok c => c.validate order

/-- Load a catalog from one schema file. -/
def load (files : FileTree) (path : String) (order : VisitOrder := .declared) :
    Except LoadError Catalog :=
  loadAll files [path] order

/-- The catalog that a text declares. -/
def ofText (text : String) (order : VisitOrder := .declared) : Except LoadError Catalog :=
  match Schema.ofText? text with
  | none => .error .malformed
  | some schema => ofSchema schema order

/-- The line for a schema that has been added. -/
def addedLine (schema : Schema) (origin : String) : LogLine :=
  .debug ("Loaded " ++ toString schema.relations.length ++ " relation(s) from " ++ origin)

/-- The lines of a validation. -/
def validateLog (order : VisitOrder) (c : Catalog) : List LogLine :=
  match c.firstUnknown? order with
  | none => []
  | some (r, a) =>
    [.debug ("Association '" ++ a.name ++ "' declared in " ++ r.origin ++ " has no target")]

/-- The lines of adding schema files and of the validation after them. -/
def addFilesLog (order : VisitOrder) (files : FileTree) (c : Catalog) : List String → List LogLine
  | [] => c.validateLog order
  | path :: rest =>
    match readSchema files path with
    | .error _ => []
    | .ok schema =>
      match c.addSchema schema path with
      | .error _ => []
      | .ok c => addedLine schema path :: c.addFilesLog order files rest

/-- The lines of loading a catalog from schema files. -/
def loadLog (files : FileTree) (paths : List String) (order : VisitOrder := .declared) :
    List LogLine :=
  empty.addFilesLog order files paths

end JoinGraph.Catalog

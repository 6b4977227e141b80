import JoinGraph.Catalog.Load
import JoinGraph.Registry

/-!
# Configuration

The settings of an engine: the kind of generated joins, what to do with joins that are removed
while in use, and the schema files that make up the catalog, relative to a root directory.
-/

namespace JoinGraph

/-- Engine configuration. -/
structure Config where
  /-- The kind of joins that expansion generates. -/
  defaultQualifier : Qualifier
  /-- What removal does with joins in use. -/
  removal : RemovalPolicy
  /-- The schema files. -/
  schemaPaths : List String

namespace Config

/-- The fields of a configuration. -/
def keys : List String := ["default_qualifier", "removal", "schema_paths"]

/-- The JSON form of a configuration. -/
def toJson (c : Config) : Json :=
  .object [("default_qualifier", wordToJson c.defaultQualifier), ("removal", wordToJson c.removal),
    ("schema_paths", .array (c.schemaPaths.map Json.string))]

/-- Read a configuration from JSON. -/
def ofJson : Decoder Config := Decoder.strict keys fun ms => do
  let qualifier ← Decoder.field ms "default_qualifier" Decoder.word
  let removal ← Decoder.field ms "removal" Decoder.word
  let paths ← Decoder.items ms "schema_paths" Decoder.text
  return .ok ⟨qualifier.getD default, removal.getD default, paths⟩

/-- Read a configuration from YAML. -/
def ofNode : Yaml.Typed Config := fun n => do
  let fields ← Yaml.Typed.record keys n
  return {
    defaultQualifier := ← Yaml.Typed.defaulted fields "default_qualifier" Yaml.Typed.word default
    removal := ← Yaml.Typed.defaulted fields "removal" Yaml.Typed.word default
    schemaPaths :=
      ← Yaml.Typed.defaulted fields "schema_paths" (Yaml.Typed.list Yaml.Typed.text) [] }

/-- A character without ink, which does not make a path visible. -/
def isWhite (c : Char) : Bool :=
  let n := c.toNat
  (9 ≤ n && n ≤ 13) || n = 0x20 || n = 0x85 || n = 0xA0 || n = 0x1680
    || (0x2000 ≤ n && n ≤ 0x200A) || n = 0x2028 || n = 0x2029 || n = 0x202F || n = 0x205F
    || n = 0x3000

/-- What makes a configuration unacceptable, if anything. -/
def fault? (c : Config) : Option ConfigFault :=
  if c.defaultQualifier = .cross then some .crossByDefault
  else if c.schemaPaths.any fun p => p.toList.all isWhite then some .blankSchemaPath
  else none

/-- Load the configuration in a file. -/
def load (files : FileTree) (path : String) : Except LoadError Config :=
  if !files.has path then .error (.configNotFound path)
  else
    match files.read? path with
    | none => .error (.unreadable path)
    | some text =>
      match Yaml.recordOfText? ofNode text with
      | none => .error .malformed
      | some c =>
        match c.fault? with
        | some fault => .error (.configInvalid fault)
        | none => .ok c

/-- The name under which the configuration of a directory is looked for first. -/
def fileName : String := "quiver.yml"

/-- The name under which the configuration of a directory is looked for next. -/
def otherFileName : String := "quiver.yaml"

/-- Load the configuration of a directory. -/
def loadDirectory (files : FileTree) (directory : String) : Except LoadError Config :=
  let path := FileTree.join directory fileName
  let otherPath := FileTree.join directory otherFileName
  if files.has path then load files path
  else if files.has otherPath then load files otherPath
  else .error (.configNotFound path)

/-- The schema files as paths from a root directory. -/
def schemaPathsFrom (c : Config) (root : String) : List String :=
  c.schemaPaths.map (FileTree.join root)

/-- Load the catalog of a configuration. -/
def loadCatalog (c : Config) (files : FileTree) (root : String) (order : VisitOrder := .declared) :
    Except LoadError Catalog :=
  Catalog.loadAll files (c.schemaPathsFrom root) order

/-- The lines of loading the catalog of a configuration. -/
def loadCatalogLog (c : Config) (files : FileTree) (root : String)
    (order : VisitOrder := .declared) : List LogLine :=
  Catalog.loadLog files (c.schemaPathsFrom root) order

end Config

end JoinGraph

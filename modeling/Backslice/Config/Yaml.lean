import Backslice.Config.Basic
import Backslice.Yaml.Value
import Backslice.Yaml.Written

namespace Backslice.Config

open Yaml

def fieldNames : List String :=
  ["max_upward_depth", "max_downward_depth", "excluded_namespaces", "optimize",
   "fold_string_constants", "merge", "max_merge_paths"]

/-- A field that is left out has its default value. -/
def ofNode (n : Node) : Reading Config := do
  let fs ← n.fields fieldNames
  let d := default
  let maxUpwardDepth ← Node.defaulted fs "max_upward_depth" d.maxUpwardDepth Node.count
  let maxDownwardDepth ← Node.defaulted fs "max_downward_depth" d.maxDownwardDepth Node.count
  let excludedNamespaces ← Node.defaulted fs "excluded_namespaces" d.excludedNamespaces
    (Node.listOf Node.text)
  let optimize ← Node.defaulted fs "optimize" d.optimize Node.bool
  let foldStringConstants ← Node.defaulted fs "fold_string_constants" d.foldStringConstants
    Node.bool
  let merge ← Node.defaulted fs "merge" d.merge Node.bool
  let maxMergePaths ← Node.defaulted fs "max_merge_paths" d.maxMergePaths Node.count
  return { maxUpwardDepth, maxDownwardDepth, excludedNamespaces, optimize, foldStringConstants,
           merge, maxMergePaths }

/-- A document that can be read is still refused if its values are. -/
def ofYaml (text : String) : Except ConfigError Config :=
  match Node.parse? text >>= Reading.run? ofNode with
  | none => .error .yaml
  | some c => c.validate.map fun _ => c

def field (name value : String) : String := name ++ ": " ++ value ++ "\n"

def listField (name : String) (texts : List String) : String :=
  if texts.isEmpty then field name "[]"
  else name ++ ":\n" ++ String.join (texts.map fun t => Written.ended ("- " ++ Written.item t))

def toYaml (c : Config) : String :=
  field "max_upward_depth" (toString c.maxUpwardDepth) ++
  field "max_downward_depth" (toString c.maxDownwardDepth) ++
  listField "excluded_namespaces" c.excludedNamespaces ++
  field "optimize" (toString c.optimize) ++
  field "fold_string_constants" (toString c.foldStringConstants) ++
  field "merge" (toString c.merge) ++
  field "max_merge_paths" (toString c.maxMergePaths)

end Backslice.Config

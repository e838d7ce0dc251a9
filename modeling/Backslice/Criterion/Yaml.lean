import Backslice.Criterion.Request
import Backslice.Yaml.Value

namespace Backslice.Request

open Yaml

def fieldNames : List String := ["caller", "target_statement", "kind", "params"]

def ofNode (n : Node) : Reading Request := do
  let fs ← n.fields fieldNames
  let caller ← Node.required fs "caller" Node.text
  let target ← Node.required fs "target_statement" Node.text
  let kind ← Node.required fs "kind" (Node.choice (TargetKind.all.map fun k => (k.name, k)))
  let positions ← Node.defaulted fs "params" [] (Node.listOf Node.int32)
  return { caller, target, kind, positions }

/-- The requests of a document that is a list of them. -/
def listOfYaml (text : String) : Except ConfigError (List Request) :=
  match Node.parse? text >>= Reading.run? (Node.listOf ofNode) with
  | some requests => .ok requests
  | none => .error .yaml

end Backslice.Request

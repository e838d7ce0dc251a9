import Backslice.Criterion.Request
import Backslice.Json.Member

namespace Backslice

namespace LiveSet

def binding? (m : String × Json) : Option (String × String) := m.2.str?.map fun s => (m.1, s)

def ofJson? : Json → Option LiveSet
  | .obj members => (members.mapM binding?).map Table.ofList
  | _ => none

def toJson (live : LiveSet) : Json := .obj (live.entries.map fun e => (e.1, .str e.2))

end LiveSet

def TargetKind.ofJson? : Json → Option TargetKind :=
  Json.choice? (TargetKind.all.map fun k => (k.name, k))

def Criterion.toJson (c : Criterion) : Json :=
  .obj [("caller", .str c.caller), ("depth", .int c.depth), ("group_id", .orNull .str c.group?),
    ("live_values", LiveSet.toJson c.live), ("target_index", .int c.index),
    ("target_kind", .str c.kind.name), ("target_param_numbers", .arr (c.positions.map .int)),
    ("target_statement", .str c.target)]

namespace Request

def positionsOfJson? : Json → Option (List Int) := Json.listOf? Json.int32?

def ofJson? (v : Json) : Option Request := do
  let ms ← v.members? ["caller", "target_statement", "kind", "params"]
  let caller ← Json.required? ms "caller" Json.str?
  let target ← Json.required? ms "target_statement" Json.str?
  let kind ← Json.required? ms "kind" TargetKind.ofJson?
  let positions ← Json.defaulted? ms "params" [] positionsOfJson?
  return { caller, target, kind, positions }

def toJson (r : Request) : Json :=
  .obj [("caller", .str r.caller), ("kind", .str r.kind.name),
    ("params", .arr (r.positions.map .int)), ("target_statement", .str r.target)]

end Request

end Backslice

import Backslice.Code.UnitKind
import Backslice.Criterion.Document

namespace Backslice

/-- A line of a slice: an instruction with the literals that reached it. -/
structure Line where
  text : String
  kind : UnitKind
  method : String
  number : Nat
  source : Nat
  constants? : Option (List String) := none
  deriving DecidableEq, Repr, Inhabited

/-- A slice. The slice of one criterion has a node id; a merged one has none and lists the nodes it
was merged from. -/
structure Record where
  nodeId? : Option String := none
  group : String
  related : List String := []
  caller : String
  target : String
  positions : List Int := []
  live : LiveSet := .empty
  content : List Line := []
  deriving DecidableEq, Inhabited

namespace Line

/-- Each literal is kept once. -/
def attach (l : Line) (literal : String) : Line :=
  let constants := l.constants?.getD []
  { l with constants? := some (if literal ∈ constants then constants else constants ++ [literal]) }

def attachAll (l : Line) (literals : List String) : Line := literals.foldl attach l

def toJson (l : Line) : Json :=
  .obj ([("callerName", .str l.method)] ++
    (l.constants?.map fun cs => ("constants", Json.texts cs)).toList ++
    [("lineNumber", .int l.number), ("sourceIndex", .int l.source), ("unitString", .str l.text),
     ("unitType", .int l.kind.tag)])

def memberNames : List String :=
  ["unitString", "unitType", "callerName", "lineNumber", "sourceIndex", "constants"]

def ofJson? (v : Json) : Option Line := do
  let ms ← v.members? memberNames
  let text ← Json.required? ms "unitString" Json.str?
  let kind ← Json.required? ms "unitType" fun v => v.int32? >>= UnitKind.ofTag?
  let method ← Json.required? ms "callerName" Json.str?
  let number ← Json.required? ms "lineNumber" Json.count?
  let source ← Json.required? ms "sourceIndex" Json.count?
  let constants? ← Json.optional? ms "constants" Json.texts?
  return { text, kind, method, number, source, constants? }

end Line

namespace Record

def isMerged (r : Record) : Bool := r.nodeId?.isNone

def lineTexts (r : Record) : List String := r.content.map (·.text)

def constants (r : Record) : List String := r.content.flatMap fun l => l.constants?.getD []

def toJson (r : Record) : Json :=
  .obj ([("callerName", .str r.caller), ("content", .arr (r.content.map Line.toJson)),
      ("groupId", .str r.group)] ++
    (r.nodeId?.map fun id => ("nodeId", .str id)).toList ++
    [("relatedNodeIds", .texts r.related),
     ("targetParamNumbers", .arr (r.positions.map .int)),
     ("targetStatement", .str r.target),
     ("targetVariables", LiveSet.toJson r.live)])

def memberNames : List String :=
  ["nodeId", "groupId", "relatedNodeIds", "callerName", "targetStatement", "targetParamNumbers",
   "targetVariables", "content"]

def ofJson? (v : Json) : Option Record := do
  let ms ← v.members? memberNames
  let nodeId? ← Json.optional? ms "nodeId" Json.str?
  let group ← Json.required? ms "groupId" Json.str?
  let related ← Json.defaulted? ms "relatedNodeIds" [] Json.texts?
  let caller ← Json.required? ms "callerName" Json.str?
  let target ← Json.required? ms "targetStatement" Json.str?
  let positions ← Json.defaulted? ms "targetParamNumbers" [] Request.positionsOfJson?
  let live ← Json.defaulted? ms "targetVariables" .empty LiveSet.ofJson?
  let content ← Json.defaulted? ms "content" [] (Json.listOf? Line.ofJson?)
  return { nodeId?, group, related, caller, target, positions, live, content }

end Record

end Backslice

import Backslice.CallGraph.Build
import Backslice.Config.Basic
import Backslice.Criterion.Request
import Backslice.Walk.Basic

namespace Backslice

/-- What slicing works on: a program, what was found in it, and the limits. -/
structure Analysis where
  program : Program
  build : Build
  config : Config
  deriving Inhabited

structure SliceStats where
  processed : Nat := 0
  memoized : Nat := 0
  skipped : Nat := 0
  upward : Nat := 0
  downward : Nat := 0
  fieldWriters : Nat := 0
  deriving DecidableEq, Repr, Inhabited

def Spawn.isDownward : Spawn → Bool
  | .downward _ => true
  | .fieldWriters _ => false

namespace Analysis

/-- A criterion for an instruction of a body, with the group and place given. -/
def criterionAt (caller target : String) (kind : TargetKind) (body : Body) (i : Instruction)
    (depth : Int) (group : String) (positions : List Int) (live : LiveSet) : Criterion :=
  { caller, target, kind, index := body.length - 1 - i.index, positions, live, depth,
    group? := some group }

def bodyOf? (a : Analysis) (method : String) : Option Body := (a.program.bodyOf method).toOption

/-- The criteria for the calls of the walked method, at the arguments that reached the walk. -/
def callSites (a : Analysis) (w : Walk) : List Criterion :=
  let depth := w.criterion.depth + 1
  if Config.signedDepth a.config.maxUpwardDepth < depth || w.ordinals.isEmpty then []
  else
    let method := w.criterion.caller
    let positions := w.ordinals.map Call.positionOf
    (a.build.graph.callersOf method).flatMap fun caller =>
      match a.bodyOf? caller with
      | none => []
      | some body => body.filterMap fun i =>
        match i.stmt.call? with
        | none => none
        | some c =>
          if c.method.text = method then
            some (criterionAt caller method .invocation body i depth w.criterion.rootId positions
              (Request.operandsLive method c positions))
          else none

/-- The criteria for the values that a method returns. -/
def returnSites (a : Analysis) (w : Walk) (callee : MethodSig) : List Criterion :=
  let depth := w.criterion.depth - 1
  if depth < -Config.signedDepth a.config.maxDownwardDepth || !a.build.isProcessed callee.cls then
    []
  else match a.bodyOf? callee.text with
    | none => []
    | some body => body.filterMap fun i =>
      match i.kind?, i.stmt with
      | some .returnValue, .ret v =>
        some (criterionAt callee.text i.stmt.text .returnValue body i depth w.criterion.rootId []
          (Request.localLive "return" v))
      | _, _ => none

def isEnumConstant (a : Analysis) (field : FieldSig) : Bool :=
  (a.program.class? field.cls).any fun c =>
    c.isEnum && (c.field? field.name).any (·.isEnumConstant)

/-- The criteria for the stores to a field in other methods. Constants of an enum have none. -/
def storeSites (a : Analysis) (w : Walk) (field : FieldSig) : List Criterion :=
  if a.isEnumConstant field then []
  else
    let writers := a.build.graph.writersOf field.text
    (writers.filter (· ≠ w.criterion.caller)).flatMap fun writer =>
      match a.bodyOf? writer with
      | none => []
      | some body => body.filterMap fun i =>
        match i.stmt with
        | .assign lhs rhs =>
          if lhs.field? = some field then
            some (criterionAt writer field.text .fieldWrite body i w.criterion.depth
              w.criterion.rootId [] (Request.localLive field.text rhs))
          else none
        | _ => none

def spawned (a : Analysis) (w : Walk) : Spawn → List Criterion
  | .downward callee => a.returnSites w callee
  | .fieldWriters field => a.storeSites w field

/-- The criteria that a walk leads to in other methods. -/
def children (a : Analysis) (w : Walk) : List Criterion :=
  w.spawns.flatMap (a.spawned w) ++ a.callSites w

def countSpawned (a : Analysis) (w : Walk) (s : SliceStats) : SliceStats :=
  let (down, field) := w.spawns.partition Spawn.isDownward
  { s with
    upward := s.upward + (a.callSites w).length
    downward := s.downward + (down.flatMap (a.spawned w)).length
    fieldWriters := s.fieldWriters + (field.flatMap (a.spawned w)).length }

/-- The walk of a criterion that can be resolved. -/
def walk? (a : Analysis) (c : Criterion) : Option Walk :=
  match a.bodyOf? c.caller with
  | none => none
  | some body =>
    if c.index < body.length then
      some (.ofCriterion a.build.constants c body (a.build.branchesFor c.caller body))
    else none

end Analysis

end Backslice

import Backslice.Criterion.Basic
import Backslice.Program.Basic

namespace Backslice

/-- Asks for slices at the statements of a method whose text contains the target. -/
structure Request where
  caller : String
  target : String
  kind : TargetKind
  positions : List Int := []
  deriving DecidableEq, Repr, Inhabited

namespace Request

/-- Whether a value that is asked for has a type that slices follow. -/
def tracks (r : Request) (caller : MethodSig) : Bool :=
  match r.kind, Signature.parse r.target with
  | .returnValue, _ => caller.ret.isTracked
  | .fieldRead, .ok (.field f) | .fieldWrite, .ok (.field f) => f.ty.isTracked
  | .invocation, .ok (.method m) =>
    if r.positions.isEmpty then m.ret.isTracked
    else r.positions.any fun p => p < 0 || (m.params[p.toNat]?).any Ty.isTracked
  | _, _ => true

def suits (kind : TargetKind) (i : Instruction) : Bool :=
  match kind, i.kind? with
  | .fieldRead, some k => k = .assignField
  | .fieldWrite, some k => k = .fieldStoreConstant || k = .fieldStoreVariable
  | .invocation, some k => k.isInvoke
  | .returnValue, some k => k = .returnValue
  | _, none => false

/-- The positions asked for; all arguments if none is named. -/
def positionsIn (positions : List Int) (c : Call) : List Int :=
  if positions.isEmpty then (List.range c.args.length).map Int.ofNat else positions

def addOperand (target : String) (c : Call) (live : LiveSet) (position : Int) : LiveSet :=
  match c.operand? position with
  | some (.loc l) => live.insert l.name (target ++ "#" ++ toString position)
  | _ => live

/-- The locals at the given positions of a call, each live for its position of the target. -/
def operandsLive (target : String) (c : Call) (positions : List Int) : LiveSet :=
  positions.foldl (addOperand target c) .empty

def localLive (origin : String) : Value → LiveSet
  | .loc l => Table.empty.insert l.name origin
  | _ => .empty

def seed? (r : Request) (s : Stmt) : Option LiveSet :=
  match r.kind, s with
  | .fieldRead, .assign _ rhs => rhs.field?.map fun f => Table.empty.insert f.text r.target
  | .fieldWrite, .assign _ rhs => some (localLive r.target rhs)
  | .invocation, s => s.call?.map fun c => operandsLive r.target c (positionsIn r.positions c)
  | .returnValue, .ret v => some (localLive "return" v)
  | _, _ => none

def operandKey : Option Value → String
  | some (.const c) => c.literal
  | some v => v.text
  | none => ""

/-- Statements with the same key are asked for once. -/
def key (r : Request) (s : Stmt) (live : LiveSet) : List String :=
  match r.kind, s.call? with
  | .invocation, some c => (positionsIn r.positions c).map fun p => operandKey (c.operand? p)
  | _, _ => live.keys ++ [s.text]

/-- The statements a request means, as they come, with the keys met so far. -/
def collect (r : Request) (caller : String) :
    List (Instruction × Nat) → List (List String) → List Criterion
  | [], _ => []
  | (i, index) :: rest, seen =>
    if suits r.kind i && Text.contains i.stmt.text r.target then
      match r.seed? i.stmt with
      | none => collect r caller rest seen
      | some live =>
        let key := r.key i.stmt live
        if key ∈ seen then collect r caller rest seen
        else
          { caller, target := r.target, kind := r.kind, index, positions := r.positions, live } ::
            collect r caller rest (key :: seen)
    else collect r caller rest seen

/-- The root criteria of a request, the last statement first. -/
def criteria (p : Program) (r : Request) : List Criterion :=
  match MethodSig.parse r.caller with
  | .error _ => []
  | .ok caller =>
    if r.tracks caller then
      match p.body caller with
      | .error _ => []
      | .ok body => r.collect caller.text body.reverse.zipIdx []
    else []

end Request

end Backslice

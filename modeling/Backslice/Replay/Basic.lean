import Backslice.CallGraph.Branches
import Backslice.Replay.Known

namespace Backslice

/-- The values of locals that are known at a place. -/
abbrev Frame := Table String Known

namespace Frame

def operand? (f : Frame) : Value → Option Known
  | .loc l => f.get? l.name
  | .const c => Known.ofConstant? c
  | _ => none

def value? (f : Frame) : Value → Option Known
  | .binOp .add lhs rhs => do
    let a ← f.operand? lhs >>= Known.int?
    let b ← f.operand? rhs >>= Known.int?
    (Known.add? a b).map .int
  | v => f.operand? v

def judge (f : Frame) (c : Condition) : Decision :=
  match f.operand? c.lhs, f.operand? c.rhs with
  | some a, some b => .ofKnown c.op a b
  | _, _ => .unknown

/-- Binds a local to a value, or forgets it if there is none. -/
def assign (f : Frame) (name : String) : Option Known → Frame
  | some v => f.insert name v
  | none => f.erase name

end Frame

/-- A replay of a body in program order: what is known, which indices no run reaches, at which
indices nothing is certain, and the arguments of the first call of a given method. -/
structure Replay where
  frame : Frame
  dead : Ranges
  uncertain : Ranges
  args? : Option (List (Option Known))
  deriving Inhabited

namespace Replay

def start : Replay := ⟨.empty, .empty, .empty, none⟩

/-- The second arm of a branch whose first arm ends with a jump over it. -/
def elseArm? (body : Body) (index target : Nat) : Option (Nat × Nat) :=
  if target ≤ index + 1 then none
  else match body[target - 1]? with
    | some i =>
      match i.stmt with
      | .goto join => if target < join then some (target, join - 1) else none
      | _ => none
    | none => none

def addRange? (r : Ranges) : Option (Nat × Nat) → Ranges
  | some (first, last) => r.add first last
  | none => r

/-- Takes a forward branch into account. -/
def branch (body : Body) (r : Replay) (index target : Nat) : Decision → Replay
  | .taken => { r with dead := r.dead.add (index + 1) (target - 1) }
  | .notTaken => { r with dead := addRange? r.dead (elseArm? body index target) }
  | .unknown =>
    { r with
      uncertain := addRange? (r.uncertain.add (index + 1) (target - 1))
        (elseArm? body index target) }

def capture (callee? : Option String) (r : Replay) (s : Stmt) : Replay :=
  match r.args?, callee?, s.call? with
  | none, some callee, some c =>
    if c.method.text = callee then { r with args? := some (c.args.map r.frame.operand?) } else r
  | _, _, _ => r

def step (body : Body) (params : List (Option Known)) (r : Replay) (certain : Bool) (index : Nat) :
    Stmt → Replay
  | .identity dest (.parameter n _) =>
    let v := (params[n]?).join
    { r with frame := r.frame.assign dest.name (if certain then v else none) }
  | .identity dest _ => { r with frame := r.frame.assign dest.name none }
  | .assign (.loc dest) rhs =>
    let v := r.frame.value? rhs
    { r with frame := r.frame.assign dest.name (if certain then v else none) }
  | .branch cond target =>
    if index < target then
      r.branch body index target (if certain then r.frame.judge cond else .unknown)
    else r
  | _ => r

/-- Replays the instruction at an index, unless it is dead. -/
def visit (body : Body) (b : Branches) (params : List (Option Known)) (callee? : Option String)
    (r : Replay) (here : Instruction × Nat) : Replay :=
  let (i, index) := here
  if r.dead.contains index then r
  else
    let certain := !r.uncertain.contains index && !b.inLoop index
    (r.capture callee? i.stmt).step body params certain index i.stmt

def ofBody (body : Body) (params : List (Option Known)) (callee? : Option String) : Replay :=
  body.zipIdx.foldl (visit body (.ofBody body) params callee?) start

end Replay

end Backslice

import Backslice.Ascending
import Backslice.Table
import Backslice.Code.UnitKind

namespace Backslice

/-- The jumps of a method as pairs of source and target. -/
structure Branches where
  gotos : List (Nat × Nat)
  conditionals : List (Nat × Nat)
  switches : Table Nat (List Nat)
  deriving DecidableEq, Inhabited

namespace Branches

def empty : Branches := ⟨[], [], .empty⟩

def record (b : Branches) (index : Nat) (s : Stmt) : Branches :=
  match s with
  | .goto target => { b with gotos := b.gotos ++ [(index, target)] }
  | .branch _ target => { b with conditionals := b.conditionals ++ [(index, target)] }
  | .switch _ _ _ => { b with switches := b.switches.insert index s.targets }
  | _ => b

def ofBody (body : Body) : Branches :=
  body.foldl (fun b i => b.record i.index i.stmt) empty

def jumps (b : Branches) : List (Nat × Nat) :=
  b.gotos ++ b.conditionals ++ b.switches.entries.flatMap fun e => e.2.map fun t => (e.1, t)

/-- The jumps to the same place or an earlier one, which close loops. -/
def backEdges (b : Branches) : List (Nat × Nat) :=
  Ascending.ofList Ascending.pairLt (b.jumps.filter fun j => j.2 ≤ j.1)

/-- The jumps to a later place, which may pass over what lies between. -/
def forwardJumps (b : Branches) : List (Nat × Nat) :=
  Ascending.ofList Ascending.pairLt (b.jumps.filter fun j => j.1 < j.2)

def inLoop (b : Branches) (index : Nat) : Bool :=
  b.backEdges.any fun j => j.2 ≤ index && index ≤ j.1

end Branches

end Backslice

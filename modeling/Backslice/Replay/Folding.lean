import Backslice.Program.Basic
import Backslice.Record

namespace Backslice.Folding

/-- The strings that locals are known to hold, by method and local. -/
abbrev Strings := List ((String × String) × String)

/-- The character an argument names by its code. -/
def charArg? (v : Value) : Option Char := do
  let n ← v.const? >>= Constant.int?
  if 0 ≤ n && n.toNat.isValidChar then some (Char.ofNat n.toNat) else none

/-- The value of a replacement of characters in a known string. -/
def replaced? (c : Call) (method : String) (known : Strings) : Option String :=
  if c.isCharReplace then do
    let receiver ← c.base
    let text ← known.lookup (method, receiver.name)
    let source ← c.arg? 0 >>= charArg?
    let target ← c.arg? 1 >>= charArg?
    return String.ofList (text.toList.map fun x => if x = source then target else x)
  else none

def value? (rhs : Value) (method : String) (known : Strings) : Option String :=
  match rhs with
  | .const (.str s) => some s
  | .loc source => known.lookup (method, source.name)
  | .call c => replaced? c method known
  | _ => none

def learn (known : Strings) (key : String × String) (value : Option String) : Strings :=
  let others := known.filter fun e => e.1 ≠ key
  match value with
  | some s => (key, s) :: others
  | none => others

/-- A replacement whose value is known becomes an assignment of that value. The line counts if it
read otherwise before. -/
def foldLine (l : Line) (dest : Local) (rhs : Value) (value : Option String) : Bool × Line :=
  match rhs, value with
  | .call _, some s =>
    let text := dest.name ++ " = " ++ (Constant.str s).text
    (text ≠ l.text, { l with text, constants? := some [s] })
  | _, _ => (false, l)

/-- The statement of a line, looked up in the program. -/
def stmt? (p : Program) (l : Line) : Option Stmt :=
  match p.bodyOf l.method with
  | .ok body => (body[l.source]?).map (·.stmt)
  | .error _ => none

/-- One pass over the lines, with the number of those that count. -/
def pass (p : Program) : List Line → Strings → Nat × List Line
  | [], _ => (0, [])
  | l :: rest, known =>
    match stmt? p l with
    | some (.assign (.loc dest) rhs) =>
      let value := value? rhs l.method known
      let line := foldLine l dest rhs value
      let others := pass p rest (learn known (l.method, dest.name) value)
      (line.1.toNat + others.1, line.2 :: others.2)
    | _ =>
      let others := pass p rest known
      (others.1, l :: others.2)

def foldLines (p : Program) (lines : List Line) (known : Strings) : List Line :=
  (pass p lines known).2

def rewrites (p : Program) (lines : List Line) (known : Strings) : Nat := (pass p lines known).1

def fold (p : Program) (lines : List Line) : List Line := foldLines p lines []

end Backslice.Folding

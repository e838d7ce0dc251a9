import Backslice.Table
import Backslice.Program.Class

namespace Backslice

/-- The classes under analysis. A method with a fault breaks down whenever its body is asked for,
with a reason or without. -/
structure Program where
  classes : Table String ClassDef
  bodies : Table String Body
  faults : Table String (Option String)
  deriving Inhabited

namespace Program

def empty : Program := ⟨.empty, .empty, .empty⟩

def addBody (bodies : Table String Body) (m : MethodSig × List Stmt) : Table String Body :=
  bodies.insert m.1.text (Body.ofStmts m.1.text m.2)

/-- Replaces a class of the same name and bodies of the same signature. -/
def addClass (p : Program) (c : ClassSource) : Program :=
  { p with
    classes := p.classes.insert c.cls.name c.cls
    bodies := c.bodies.foldl addBody p.bodies }

def addPhantom (p : Program) (name : String) : Program :=
  { p with classes := p.classes.insert name (.phantom name) }

def methodCount (p : Program) : Nat := p.bodies.size

def class? (p : Program) (name : String) : Option ClassDef := p.classes.get? name

/-- The classes that are more than a name, in the order of their names. -/
def loadedClasses (p : Program) : List ClassDef := p.classes.values.filter (!·.isPhantom)

def isLoaded (p : Program) (name : String) : Bool :=
  (p.class? name).any (!·.isPhantom)

/-- Looks for the body of a method whose class is there. -/
def lookup (p : Program) (m : MethodSig) : Except SliceError Body :=
  match p.class? m.cls with
  | none => .error (.unresolved ("class " ++ m.cls ++ " is not loaded"))
  | some c =>
    if c.isPhantom then .error (.unresolved ("class " ++ m.cls ++ " is phantom"))
    else match p.bodies.get? m.text with
      | some body => .ok body
      | none => .error (.unresolved ("no body for " ++ m.text))

def body (p : Program) (m : MethodSig) : Except SliceError Body :=
  match p.faults.get? m.text with
  | some reason =>
    .error (.exhausted (m.text ++ ": " ++ reason.getD "panic while materialising body"))
  | none => p.lookup m

/-- The body of the method with this signature text. -/
def bodyOf (p : Program) (text : String) : Except SliceError Body :=
  MethodSig.parse text >>= p.body

end Program

end Backslice

import Backslice.Code.Constant
import Backslice.Code.Signature

namespace Backslice

structure Local where
  name : String
  ty : Ty
  deriving DecidableEq, Repr, Inhabited

inductive CallKind where
  | virtual | static | interface | special
  deriving DecidableEq, Repr, Inhabited

def CallKind.text : CallKind → String
  | .virtual => "virtualinvoke"
  | .static => "staticinvoke"
  | .interface => "interfaceinvoke"
  | .special => "specialinvoke"

inductive BinOp where
  | add | sub | mul | div | rem | and | or | xor | shl | shr | ushr | cmp
  deriving DecidableEq, Repr, Inhabited

def BinOp.symbol : BinOp → String
  | .add => "+"
  | .sub => "-"
  | .mul => "*"
  | .div => "/"
  | .rem => "%"
  | .and => "&"
  | .or => "|"
  | .xor => "^"
  | .shl => "<<"
  | .shr => ">>"
  | .ushr => ">>>"
  | .cmp => "cmp"

mutual
/-- An operand or a right-hand side. -/
inductive Value where
  | loc (l : Local)
  | const (c : Constant)
  | instanceField (base : Local) (field : FieldSig)
  | staticField (field : FieldSig)
  | element (base : Local) (index : Value)
  | call (c : Call)
  | newInstance (ty : Ty)
  | newArray (elem : Ty) (size : Value)
  | cast (ty : Ty) (op : Value)
  | length (op : Value)
  | isInstance (op : Value) (ty : Ty)
  | binOp (op : BinOp) (lhs rhs : Value)
  | parameter (index : Nat) (ty : Ty)
  | this (ty : Ty)
  | caughtException

structure Call where
  kind : CallKind
  base : Option Local
  method : MethodSig
  args : List Value
end

instance : Inhabited Value := ⟨.caughtException⟩

mutual
def Value.text : Value → String
  | .loc l => l.name
  | .const c => c.text
  | .instanceField base field => base.name ++ "." ++ field.text
  | .staticField field => field.text
  | .element base index => base.name ++ "[" ++ index.text ++ "]"
  | .call c => c.text
  | .newInstance ty => "new " ++ ty.text
  | .newArray elem size => "newarray (" ++ elem.text ++ ")[" ++ size.text ++ "]"
  | .cast ty op => "(" ++ ty.text ++ ") " ++ op.text
  | .length op => "lengthof " ++ op.text
  | .isInstance op ty => op.text ++ " instanceof " ++ ty.text
  | .binOp op lhs rhs => lhs.text ++ " " ++ op.symbol ++ " " ++ rhs.text
  | .parameter index ty => "@parameter" ++ toString index ++ ": " ++ ty.text
  | .this ty => "@this: " ++ ty.text
  | .caughtException => "@caughtexception"

def Call.text : Call → String
  | ⟨kind, none, method, args⟩ =>
    kind.text ++ " " ++ method.text ++ "(" ++ String.intercalate ", " (Value.texts args) ++ ")"
  | ⟨kind, some base, method, args⟩ =>
    kind.text ++ " " ++ base.name ++ "." ++ method.text ++ "(" ++
      String.intercalate ", " (Value.texts args) ++ ")"

def Value.texts : List Value → List String
  | [] => []
  | v :: vs => v.text :: Value.texts vs
end

mutual
/-- The ids of the locals and fields that a value reads, from left to right. -/
def Value.ids : Value → List String
  | .loc l => [l.name]
  | .instanceField base field => [base.name, field.text]
  | .staticField field => [field.text]
  | .element base index => base.name :: index.ids
  | .call c => c.ids
  | .newArray _ size => size.ids
  | .cast _ op | .length op | .isInstance op _ => op.ids
  | .binOp _ lhs rhs => lhs.ids ++ rhs.ids
  | .const _ | .newInstance _ | .parameter _ _ | .this _ | .caughtException => []

def Call.ids : Call → List String
  | ⟨_, none, _, args⟩ => Value.idsAll args
  | ⟨_, some base, _, args⟩ => base.name :: Value.idsAll args

def Value.idsAll : List Value → List String
  | [] => []
  | v :: vs => v.ids ++ Value.idsAll vs
end

theorem Value.idsAll_eq (vs : List Value) : Value.idsAll vs = vs.flatMap Value.ids := by
  induction vs with
  | nil => simp [Value.idsAll]
  | cons v vs ih => simp [Value.idsAll, ih]

namespace Value

def local? : Value → Option Local
  | .loc l => some l
  | _ => none

def const? : Value → Option Constant
  | .const c => some c
  | _ => none

def field? : Value → Option FieldSig
  | .instanceField _ field | .staticField field => some field
  | _ => none

def call? : Value → Option Call
  | .call c => some c
  | _ => none

end Value

namespace Call

/-- Positions are signed numbers of 32 bits, so that a large ordinal wraps around. -/
def positionOf (ordinal : Nat) : Int := Int.bmod ordinal 0x100000000

def arg? (c : Call) (position : Nat) : Option Value := c.args[position]?

/-- The argument at a position; every negative position is the receiver. -/
def operand? (c : Call) (position : Int) : Option Value :=
  if position < 0 then c.base.map .loc else c.arg? position.toNat

def operandTy? (c : Call) (position : Int) : Option Ty :=
  if position < 0 then c.base.map (·.ty) else c.method.params[position.toNat]?

/-- The declared type of an argument. -/
def slot (c : Call) (position : Nat) : Ty := c.method.params[position]?.getD .unknown

/-- Copies part of one array to another. -/
def isBulkCopy (c : Call) : Bool :=
  c.kind = .static && c.method.cls = "java.lang.System" && c.method.name = "arraycopy"

def mapClasses : List String :=
  ["java.util.Map", "java.util.HashMap", "java.util.Hashtable", "java.util.LinkedHashMap",
   "java.util.TreeMap", "java.util.Properties"]

/-- Puts entries into the map it is called on. -/
def isMapInsert (c : Call) : Bool :=
  c.base.isSome && mapClasses.contains c.method.cls &&
    ["put", "putAll", "setProperty"].contains c.method.name

/-- Replaces every occurrence of one character in a string by another. -/
def isCharReplace (c : Call) : Bool :=
  c.method.cls = Ty.stringClass && c.method.name = "replace" &&
    c.method.params = [.char, .char]

end Call

end Backslice

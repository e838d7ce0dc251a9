import Backslice.Code.Stmt

namespace Backslice

/-- What an instruction does, by its shape alone. The position of a kind is its stored tag. -/
inductive UnitKind where
  | virtualInvoke | staticInvoke | interfaceInvoke | specialInvoke | assignVirtualInvoke
  | assignStaticInvoke | assignInterfaceInvoke | assignSpecialInvoke | parameterIdentity
  | caughtExceptionIdentity | newInstance | newArray | newException | assignConstant
  | assignVariable | assignArrayElement | assignField | assignAdd | arrayStoreConstant
  | arrayStoreVariable | fieldStoreConstant | fieldStoreVariable | cast | lengthOf | instanceOf
  | branch | goto | switch | returnValue | returnVoid
  deriving DecidableEq, Repr, Inhabited

namespace UnitKind

def all : List UnitKind :=
  [.virtualInvoke, .staticInvoke, .interfaceInvoke, .specialInvoke, .assignVirtualInvoke,
   .assignStaticInvoke, .assignInterfaceInvoke, .assignSpecialInvoke, .parameterIdentity,
   .caughtExceptionIdentity, .newInstance, .newArray, .newException, .assignConstant,
   .assignVariable, .assignArrayElement, .assignField, .assignAdd, .arrayStoreConstant,
   .arrayStoreVariable, .fieldStoreConstant, .fieldStoreVariable, .cast, .lengthOf, .instanceOf,
   .branch, .goto, .switch, .returnValue, .returnVoid]

def tag (k : UnitKind) : Nat := all.idxOf k

def ofTag? (n : Int) : Option UnitKind := if n < 0 then none else all[n.toNat]?

theorem ofTag?_tag (k : UnitKind) : ofTag? k.tag = some k := by cases k <;> rfl

def name : UnitKind → String
  | .virtualInvoke => "virtual_invoke"
  | .staticInvoke => "static_invoke"
  | .interfaceInvoke => "interface_invoke"
  | .specialInvoke => "special_invoke"
  | .assignVirtualInvoke => "assign_virtual_invoke"
  | .assignStaticInvoke => "assign_static_invoke"
  | .assignInterfaceInvoke => "assign_interface_invoke"
  | .assignSpecialInvoke => "assign_special_invoke"
  | .parameterIdentity => "parameter_identity"
  | .caughtExceptionIdentity => "caught_exception_identity"
  | .newInstance => "new_instance"
  | .newArray => "new_array"
  | .newException => "new_exception"
  | .assignConstant => "assign_constant"
  | .assignVariable => "assign_variable"
  | .assignArrayElement => "assign_array_element"
  | .assignField => "assign_field"
  | .assignAdd => "assign_add"
  | .arrayStoreConstant => "array_store_constant"
  | .arrayStoreVariable => "array_store_variable"
  | .fieldStoreConstant => "field_store_constant"
  | .fieldStoreVariable => "field_store_variable"
  | .cast => "cast"
  | .lengthOf => "length_of"
  | .instanceOf => "instance_of"
  | .branch => "if"
  | .goto => "goto"
  | .switch => "switch"
  | .returnValue => "return_value"
  | .returnVoid => "return_void"

def isInvoke : UnitKind → Bool
  | .virtualInvoke | .staticInvoke | .interfaceInvoke | .specialInvoke | .assignVirtualInvoke
  | .assignStaticInvoke | .assignInterfaceInvoke | .assignSpecialInvoke => true
  | _ => false

def isAssigningInvoke : UnitKind → Bool
  | .assignVirtualInvoke | .assignStaticInvoke | .assignInterfaceInvoke
  | .assignSpecialInvoke => true
  | _ => false

def callKind? : UnitKind → Option CallKind
  | .virtualInvoke | .assignVirtualInvoke => some .virtual
  | .staticInvoke | .assignStaticInvoke => some .static
  | .interfaceInvoke | .assignInterfaceInvoke => some .interface
  | .specialInvoke | .assignSpecialInvoke => some .special
  | _ => none

def isIdentity : UnitKind → Bool
  | .parameterIdentity | .caughtExceptionIdentity => true
  | _ => false

def isAllocation : UnitKind → Bool
  | .newInstance | .newArray | .newException => true
  | _ => false

def isAssignment : UnitKind → Bool
  | .assignConstant | .assignVariable | .assignArrayElement | .assignField | .assignAdd | .cast
  | .lengthOf | .instanceOf => true
  | k => k.isAllocation

def isStore : UnitKind → Bool
  | .arrayStoreConstant | .arrayStoreVariable | .fieldStoreConstant | .fieldStoreVariable => true
  | _ => false

def isBranch : UnitKind → Bool
  | .branch | .goto | .switch => true
  | _ => false

def isReturn : UnitKind → Bool
  | .returnValue | .returnVoid => true
  | _ => false

def ofCall : CallKind → UnitKind
  | .virtual => .virtualInvoke
  | .static => .staticInvoke
  | .interface => .interfaceInvoke
  | .special => .specialInvoke

def ofAssignedCall : CallKind → UnitKind
  | .virtual => .assignVirtualInvoke
  | .static => .assignStaticInvoke
  | .interface => .assignInterfaceInvoke
  | .special => .assignSpecialInvoke

/-- A class counts as an exception by its own name, the part after the last dot. -/
def namesException (cls : String) : Bool :=
  let simple := String.ofList ((Text.splitChars '.' cls.toList).getLastD [])
  simple = "Throwable" || Text.endsWith simple "Exception" || Text.endsWith simple "Error"

def ofDefinition? : Value → Option UnitKind
  | .call c => some (ofAssignedCall c.kind)
  | .newInstance (.ref cls) => some (if namesException cls then .newException else .newInstance)
  | .newInstance _ => some .newInstance
  | .newArray _ _ => some .newArray
  | .const _ => some .assignConstant
  | .loc _ => some .assignVariable
  | .element _ _ => some .assignArrayElement
  | .instanceField _ _ | .staticField _ => some .assignField
  | .binOp .add _ _ => some .assignAdd
  | .cast _ _ => some .cast
  | .length _ => some .lengthOf
  | .isInstance _ _ => some .instanceOf
  | _ => none

def ofAssignment? : Value → Value → Option UnitKind
  | .loc _, rhs => ofDefinition? rhs
  | .element _ _, .const _ => some .arrayStoreConstant
  | .element _ _, .loc _ => some .arrayStoreVariable
  | .instanceField _ _, .const _ | .staticField _, .const _ => some .fieldStoreConstant
  | .instanceField _ _, .loc _ | .staticField _, .loc _ => some .fieldStoreVariable
  | _, _ => none

/-- The kind of a statement; some statements have none. -/
def ofStmt? : Stmt → Option UnitKind
  | .invoke c => some (ofCall c.kind)
  | .identity _ (.parameter _ _) => some .parameterIdentity
  | .identity _ .caughtException => some .caughtExceptionIdentity
  | .identity _ _ => none
  | .assign lhs rhs => ofAssignment? lhs rhs
  | .branch _ _ => some .branch
  | .goto _ => some .goto
  | .switch _ _ _ => some .switch
  | .ret _ => some .returnValue
  | .retVoid => some .returnVoid
  | .throw _ | .nop => none

end UnitKind

/-- A statement at its place in a method. -/
structure Instruction where
  method : String
  index : Nat
  stmt : Stmt
  kind? : Option UnitKind
  deriving Inhabited

namespace Instruction

def ofStmt (method : String) (index : Nat) (stmt : Stmt) : Instruction :=
  ⟨method, index, stmt, UnitKind.ofStmt? stmt⟩

end Instruction

/-- The instructions of a method in program order. -/
abbrev Body := List Instruction

/-- Numbers the statements from zero. -/
def Body.ofStmts (method : String) (stmts : List Stmt) : Body :=
  stmts.mapIdx fun i s => Instruction.ofStmt method i s

end Backslice

import Backslice.Code.Stmt
import Backslice.Json.Member

namespace Backslice

namespace Ty

def documentNames : List (String × Ty) :=
  [("Boolean", .boolean), ("Byte", .byte), ("Char", .char), ("Short", .short), ("Int", .int),
   ("Long", .long), ("Float", .float), ("Double", .double), ("Void", .void), ("Null", .null),
   ("Unknown", .unknown)]

def ofJson? : Json → Option Ty
  | .obj [("Ref", .str name)] => some (.ref name)
  | .obj [("Array", elem)] => (ofJson? elem).map .array
  | v => Json.choice? documentNames v

def toJson : Ty → Json
  | .ref name => .obj [("Ref", .str name)]
  | .array elem => .obj [("Array", elem.toJson)]
  | .boolean => .str "Boolean"
  | .byte => .str "Byte"
  | .char => .str "Char"
  | .short => .str "Short"
  | .int => .str "Int"
  | .long => .str "Long"
  | .float => .str "Float"
  | .double => .str "Double"
  | .void => .str "Void"
  | .null => .str "Null"
  | .unknown => .str "Unknown"

end Ty

namespace MethodSig

def ofJson? (v : Json) : Option MethodSig := do
  let ms ← v.members? ["class", "ret", "name", "params"]
  let cls ← Json.required? ms "class" Json.str?
  let ret ← Json.required? ms "ret" Ty.ofJson?
  let name ← Json.required? ms "name" Json.str?
  let params ← Json.required? ms "params" (Json.listOf? Ty.ofJson?)
  return { cls, ret, name, params }

def toJson (m : MethodSig) : Json :=
  .obj [("class", .str m.cls), ("name", .str m.name), ("params", .arr (m.params.map Ty.toJson)),
    ("ret", m.ret.toJson)]

end MethodSig

namespace FieldSig

def ofJson? (v : Json) : Option FieldSig := do
  let ms ← v.members? ["class", "ty", "name"]
  let cls ← Json.required? ms "class" Json.str?
  let ty ← Json.required? ms "ty" Ty.ofJson?
  let name ← Json.required? ms "name" Json.str?
  return { cls, ty, name }

def toJson (f : FieldSig) : Json :=
  .obj [("class", .str f.cls), ("name", .str f.name), ("ty", f.ty.toJson)]

end FieldSig

namespace Constant

def ofJson? : Json → Option Constant
  | .obj [("Int", v)] => v.int64?.map .int
  | .obj [("Long", v)] => v.int64?.map .long
  | .obj [("Float", v)] => v.float?.map .float
  | .obj [("Double", v)] => v.float?.map .double
  | .obj [("Str", .str s)] => some (.str s)
  | .obj [("Class", .str name)] => some (.cls name)
  | v => Json.choice? [("Null", .null)] v

/-- A float that is no finite number has no written form and becomes null. -/
def floatJson (x : Float) : Json := if x.isFinite then .float x else .null

def toJson : Constant → Json
  | .int n => .obj [("Int", .int n)]
  | .long n => .obj [("Long", .int n)]
  | .float x => .obj [("Float", floatJson x)]
  | .double x => .obj [("Double", floatJson x)]
  | .str s => .obj [("Str", .str s)]
  | .null => .str "Null"
  | .cls name => .obj [("Class", .str name)]

end Constant

def Local.ofJson? (v : Json) : Option Local := do
  let ms ← v.members? ["name", "ty"]
  let name ← Json.required? ms "name" Json.str?
  let ty ← Json.required? ms "ty" Ty.ofJson?
  return { name, ty }

def CallKind.ofJson? : Json → Option CallKind :=
  Json.choice? [("Virtual", .virtual), ("Static", .static), ("Interface", .interface),
    ("Special", .special)]

def BinOp.ofJson? : Json → Option BinOp :=
  Json.choice? [("Add", .add), ("Sub", .sub), ("Mul", .mul), ("Div", .div), ("Rem", .rem),
    ("And", .and), ("Or", .or), ("Xor", .xor), ("Shl", .shl), ("Shr", .shr), ("Ushr", .ushr),
    ("Cmp", .cmp)]

def CmpOp.ofJson? : Json → Option CmpOp :=
  Json.choice? [("Eq", .eq), ("Ne", .ne), ("Ge", .ge), ("Gt", .gt), ("Lt", .lt), ("Le", .le)]

mutual
def Value.ofJson? : Json → Option Value
  | .obj [("Local", v)] => (Local.ofJson? v).map .loc
  | .obj [("Constant", v)] => (Constant.ofJson? v).map .const
  | .obj [("InstanceField", .obj ms)] => do
    let base ← Json.required? ms "base" Local.ofJson?
    let field ← Json.required? ms "field" FieldSig.ofJson?
    return .instanceField base field
  | .obj [("StaticField", v)] => (FieldSig.ofJson? v).map .staticField
  | .obj [("ArrayRef", .obj ms)] => do
    let base ← Json.required? ms "base" Local.ofJson?
    let index ← Value.member? "index" ms
    return .element base index
  | .obj [("Invoke", v)] => (Call.ofJson? v).map .call
  | .obj [("NewInstance", v)] => (Ty.ofJson? v).map .newInstance
  | .obj [("NewArray", .obj ms)] => do
    let elem ← Json.required? ms "elem" Ty.ofJson?
    let size ← Value.member? "size" ms
    return .newArray elem size
  | .obj [("Cast", .obj ms)] => do
    let ty ← Json.required? ms "ty" Ty.ofJson?
    let op ← Value.member? "op" ms
    return .cast ty op
  | .obj [("Length", v)] => (Value.ofJson? v).map .length
  | .obj [("InstanceOf", .obj ms)] => do
    let op ← Value.member? "op" ms
    let ty ← Json.required? ms "ty" Ty.ofJson?
    return .isInstance op ty
  | .obj [("BinOp", .obj ms)] => do
    let op ← Json.required? ms "op" BinOp.ofJson?
    let lhs ← Value.member? "lhs" ms
    let rhs ← Value.member? "rhs" ms
    return .binOp op lhs rhs
  | .obj [("ParameterRef", .obj ms)] => do
    let index ← Json.required? ms "index" Json.count?
    let ty ← Json.required? ms "ty" Ty.ofJson?
    return .parameter index ty
  | .obj [("ThisRef", v)] => (Ty.ofJson? v).map .this
  | v => Json.choice? [("CaughtException", .caughtException)] v

def Call.ofJson? : Json → Option Call
  | .obj ms => do
    let kind ← Json.required? ms "kind" CallKind.ofJson?
    let base ← Json.optional? ms "base" Local.ofJson?
    let method ← Json.required? ms "method" MethodSig.ofJson?
    let args ← Value.listMember? "args" ms
    return ⟨kind, base, method, args⟩
  | .arr [kind, .null, method, .arr args] => do
    return ⟨← CallKind.ofJson? kind, none, ← MethodSig.ofJson? method, ← Value.all? args⟩
  | .arr [kind, base, method, .arr args] => do
    let kind ← CallKind.ofJson? kind
    return ⟨kind, some (← Local.ofJson? base), ← MethodSig.ofJson? method, ← Value.all? args⟩
  | _ => none

def Value.member? (name : String) : List (String × Json) → Option Value
  | [] => none
  | (key, v) :: ms => if key = name then Value.ofJson? v else Value.member? name ms

def Value.listMember? (name : String) : List (String × Json) → Option (List Value)
  | [] => none
  | (key, .arr items) :: ms => if key = name then Value.all? items else Value.listMember? name ms
  | (key, _) :: ms => if key = name then none else Value.listMember? name ms

def Value.all? : List Json → Option (List Value)
  | [] => some []
  | v :: vs => do return (← Value.ofJson? v) :: (← Value.all? vs)
end

def Condition.ofJson? (v : Json) : Option Condition := do
  let ms ← v.members? ["op", "lhs", "rhs"]
  let op ← Json.required? ms "op" CmpOp.ofJson?
  let lhs ← Json.required? ms "lhs" Value.ofJson?
  let rhs ← Json.required? ms "rhs" Value.ofJson?
  return { op, lhs, rhs }

namespace Stmt

def casesOfJson? : Json → Option (List (Int × Nat)) :=
  Json.listOf? (Json.pairOf? Json.int64? Json.count?)

def ofJson? : Json → Option Stmt
  | .obj [("Assign", .obj ms)] => do
    let lhs ← Json.required? ms "lhs" Value.ofJson?
    let rhs ← Json.required? ms "rhs" Value.ofJson?
    return .assign lhs rhs
  | .obj [("Identity", .obj ms)] => do
    let dest ← Json.required? ms "local" Local.ofJson?
    let rhs ← Json.required? ms "rhs" Value.ofJson?
    return .identity dest rhs
  | .obj [("Invoke", v)] => (Call.ofJson? v).map .invoke
  | .obj [("If", .obj ms)] => do
    let cond ← Json.required? ms "cond" Condition.ofJson?
    let target ← Json.required? ms "target" Json.count?
    return .branch cond target
  | .obj [("Goto", .obj ms)] => (Json.required? ms "target" Json.count?).map .goto
  | .obj [("Switch", .obj ms)] => do
    let key ← Json.required? ms "key" Value.ofJson?
    let cases ← Json.required? ms "cases" casesOfJson?
    let default ← Json.required? ms "default" Json.count?
    return .switch key cases default
  | .obj [("Return", v)] => (Value.ofJson? v).map .ret
  | .obj [("Throw", v)] => (Value.ofJson? v).map .throw
  | v => Json.choice? [("ReturnVoid", .retVoid), ("Nop", .nop)] v

end Stmt

end Backslice

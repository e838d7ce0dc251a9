import Backslice.Code.Document
import Backslice.Program.Class

namespace Backslice

namespace FieldDef

def ofJson? (v : Json) : Option FieldDef := do
  let ms ← v.members? ["sig", "is_static", "is_final", "constant_value", "is_enum_constant"]
  let sig ← Json.required? ms "sig" FieldSig.ofJson?
  let isStatic ← Json.required? ms "is_static" Json.bool?
  let isFinal ← Json.required? ms "is_final" Json.bool?
  let constant? ← Json.optional? ms "constant_value" Constant.ofJson?
  let isEnumConstant ← Json.required? ms "is_enum_constant" Json.bool?
  return { sig, isStatic, isFinal, constant?, isEnumConstant }

def toJson (f : FieldDef) : Json :=
  .obj [("constant_value", .orNull Constant.toJson f.constant?),
    ("is_enum_constant", .bool f.isEnumConstant), ("is_final", .bool f.isFinal),
    ("is_static", .bool f.isStatic), ("sig", f.sig.toJson)]

end FieldDef

def MethodDef.toJson (m : MethodDef) : Json :=
  .obj [("is_concrete", .bool m.isConcrete), ("sig", m.sig.toJson)]

def ClassDef.toJson (c : ClassDef) : Json :=
  .obj [("fields", .arr (c.fields.map FieldDef.toJson)), ("is_enum", .bool c.isEnum),
    ("is_phantom", .bool c.isPhantom), ("methods", .arr (c.methods.map MethodDef.toJson)),
    ("name", .str c.name), ("super_class", .orNull .str c.super?)]

end Backslice

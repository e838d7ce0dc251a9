import Backslice.Code.UnitKind

namespace Backslice

structure FieldDef where
  sig : FieldSig
  isStatic : Bool
  isFinal : Bool
  constant? : Option Constant
  isEnumConstant : Bool
  deriving Repr, Inhabited

namespace FieldDef

def plain (sig : FieldSig) : FieldDef := ⟨sig, false, false, none, false⟩

def constant (sig : FieldSig) (value : Constant) : FieldDef := ⟨sig, true, true, some value, false⟩

/-- An enum constant has its own enum as type and no constant value. -/
def enumConstant (cls name : String) : FieldDef := ⟨⟨cls, .ref cls, name⟩, true, true, none, true⟩

/-- The value that a static final field is declared with. -/
def staticFinal? (f : FieldDef) : Option Constant :=
  if f.isStatic && f.isFinal then f.constant? else none

end FieldDef

structure MethodDef where
  sig : MethodSig
  isConcrete : Bool
  deriving DecidableEq, Repr, Inhabited

/-- A phantom class is known by name only. -/
structure ClassDef where
  name : String
  super? : Option String
  isEnum : Bool
  isPhantom : Bool
  fields : List FieldDef
  methods : List MethodDef
  deriving Repr, Inhabited

namespace ClassDef

def phantom (name : String) : ClassDef := ⟨name, none, false, true, [], []⟩

def field? (c : ClassDef) (name : String) : Option FieldDef :=
  c.fields.find? fun f => f.sig.name = name

def method? (c : ClassDef) (sig : MethodSig) : Option MethodDef :=
  c.methods.find? fun m => m.sig = sig

def concreteMethods (c : ClassDef) : List MethodSig :=
  (c.methods.filter (·.isConcrete)).map (·.sig)

def staticInitializer? (c : ClassDef) : Option MethodDef :=
  c.methods.find? fun m => m.sig.isStaticInitializer

end ClassDef

/-- A class with the statements of its concrete methods. -/
structure ClassSource where
  cls : ClassDef
  bodies : List (MethodSig × List Stmt)
  deriving Inhabited

/-- A method with statements is concrete, one without is abstract or native. -/
structure MethodSource where
  sig : MethodSig
  stmts? : Option (List Stmt)
  deriving Inhabited

namespace MethodSource

def toDef (m : MethodSource) : MethodDef := ⟨m.sig, m.stmts?.isSome⟩

def body? (m : MethodSource) : Option (MethodSig × List Stmt) :=
  m.stmts?.map fun stmts => (m.sig, stmts)

end MethodSource

namespace ClassSource

def ofMembers (name : String) (super? : Option String) (isEnum : Bool) (fields : List FieldDef)
    (methods : List MethodSource) : ClassSource where
  cls := ⟨name, super?, isEnum, false, fields, methods.map MethodSource.toDef⟩
  bodies := methods.filterMap MethodSource.body?

end ClassSource

end Backslice

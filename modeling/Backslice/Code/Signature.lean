import Backslice.Error
import Backslice.Code.Ty
import Backslice.Text.Search

namespace Backslice

/-- Names a method as `<class: ret name(params)>`. -/
structure MethodSig where
  cls : String
  ret : Ty
  name : String
  params : List Ty
  deriving DecidableEq, Repr, Inhabited

/-- Names a field as `<class: type name>`. -/
structure FieldSig where
  cls : String
  ty : Ty
  name : String
  deriving DecidableEq, Repr, Inhabited

namespace Signature

def isClassChar (c : Char) : Bool := c ≠ ':' && c ≠ '<' && c ≠ '>' && !Text.isBlank c

def isTypeChar (c : Char) : Bool := !Text.isBlank c

def isMethodNameChar (c : Char) : Bool := c ≠ '(' && !Text.isBlank c

def isFieldNameChar (c : Char) : Bool :=
  c ≠ '(' && c ≠ ')' && c ≠ '<' && c ≠ '>' && !Text.isBlank c

/-- The longest front of the text in a class of characters, if it is not empty. -/
def run? (p : Char → Bool) (cs : List Char) : Option (List Char × List Char) :=
  match cs.takeWhile p with
  | [] => none
  | word => some (word, cs.dropWhile p)

def expect? : List Char → List Char → Option (List Char)
  | [], cs => some cs
  | _ :: _, [] => none
  | w :: ws, c :: cs => if w = c then expect? ws cs else none

/-- The class and the type that both kinds of signature start with. -/
def head? (cs : List Char) : Option (List Char × List Char × List Char) := do
  let cs ← expect? ['<'] cs
  let (cls, cs) ← run? isClassChar cs
  let cs ← expect? [':', ' '] cs
  let (ty, cs) ← run? isTypeChar cs
  let cs ← expect? [' '] cs
  return (cls, ty, cs)

end Signature

open Signature

namespace MethodSig

def subSignature (m : MethodSig) : String :=
  m.ret.text ++ " " ++ m.name ++ "(" ++ String.intercalate "," (m.params.map Ty.text) ++ ")"

def text (m : MethodSig) : String := "<" ++ m.cls ++ ": " ++ m.subSignature ++ ">"

def isStaticInitializer (m : MethodSig) : Bool := m.name = "<clinit>"

def isConstructor (m : MethodSig) : Bool := m.name = "<init>"

/-- Empty pieces between the commas are no parameters. -/
def paramsOf (cs : List Char) : List Ty :=
  (((Text.splitChars ',' cs).map Text.trimChars).filter (!·.isEmpty)).map Ty.ofChars

def ofChars? (cs : List Char) : Option MethodSig := do
  let (cls, ret, cs) ← head? cs
  let (name, cs) ← run? isMethodNameChar cs
  let cs ← expect? ['('] cs
  let params := cs.takeWhile (· ≠ ')')
  if cs.dropWhile (· ≠ ')') = [')', '>'] then
    return ⟨String.ofList cls, Ty.ofChars ret, String.ofList name, paramsOf params⟩
  else none

def parse (text : String) : Except SliceError MethodSig :=
  match ofChars? (Text.trimChars text.toList) with
  | some m => .ok m
  | none => .error (.invalidSignature text)

end MethodSig

namespace FieldSig

def text (f : FieldSig) : String := "<" ++ f.cls ++ ": " ++ f.ty.text ++ " " ++ f.name ++ ">"

def ofChars? (cs : List Char) : Option FieldSig := do
  let (cls, ty, cs) ← head? cs
  let (name, cs) ← run? isFieldNameChar cs
  if cs = ['>'] then return ⟨String.ofList cls, Ty.ofChars ty, String.ofList name⟩ else none

def parse (text : String) : Except SliceError FieldSig :=
  match ofChars? (Text.trimChars text.toList) with
  | some f => .ok f
  | none => .error (.invalidSignature text)

end FieldSig

/-- The name of a node of the call graph. -/
inductive Signature where
  | method (m : MethodSig)
  | field (f : FieldSig)
  deriving DecidableEq, Repr

namespace Signature

def parse (text : String) : Except SliceError Signature :=
  match MethodSig.parse text with
  | .ok m => .ok (.method m)
  | .error _ => (FieldSig.parse text).map .field

def declaringClass : Signature → String
  | .method m => m.cls
  | .field f => f.cls

def text : Signature → String
  | .method m => m.text
  | .field f => f.text

end Signature

end Backslice

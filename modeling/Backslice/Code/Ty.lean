import Backslice.Text.Blank

namespace Backslice

/-- The type of a bytecode value. -/
inductive Ty where
  | boolean | byte | char | short | int | long | float | double | void | null
  | ref (name : String)
  | array (elem : Ty)
  | unknown
  deriving DecidableEq, Repr, Inhabited

namespace Ty

def stringClass : String := "java.lang.String"

def string : Ty := .ref stringClass

/-- The words that name a type other than a class. -/
def keywords : List (String × Ty) :=
  [("boolean", .boolean), ("byte", .byte), ("char", .char), ("short", .short), ("int", .int),
   ("long", .long), ("float", .float), ("double", .double), ("void", .void), ("null_type", .null),
   ("", .unknown), ("unknown", .unknown)]

def text : Ty → String
  | .boolean => "boolean"
  | .byte => "byte"
  | .char => "char"
  | .short => "short"
  | .int => "int"
  | .long => "long"
  | .float => "float"
  | .double => "double"
  | .void => "void"
  | .null => "null_type"
  | .ref name => name
  | .array elem => elem.text ++ "[]"
  | .unknown => "unknown"

def named (name : String) : Ty := (keywords.lookup name).getD (.ref name)

/-- What stands before a final pair of square brackets. -/
def stripBrackets? (cs : List Char) : Option (List Char) :=
  match cs.reverse with
  | ']' :: '[' :: rest => some rest.reverse
  | _ => none

theorem length_of_stripBrackets? {cs rest : List Char} (h : stripBrackets? cs = some rest) :
    rest.length + 2 = cs.length := by
  simp only [stripBrackets?] at h
  split at h
  · rename_i rev eq
    have := congrArg List.length eq
    simp only [List.length_reverse, List.length_cons] at this
    simp only [Option.some.injEq] at h
    subst h
    simp [this]
  · cases h

def ofChars (cs : List Char) : Ty :=
  match _h : stripBrackets? (Text.trimChars cs) with
  | some elem => .array (ofChars elem)
  | none => named (String.ofList (Text.trimChars cs))
termination_by cs.length
decreasing_by
  have := length_of_stripBrackets? _h
  have := Text.length_trimChars_le cs
  omega

def parse (text : String) : Ty := ofChars text.toList

def isIntegral : Ty → Bool
  | .byte | .short | .int | .long => true
  | _ => false

def isChar : Ty → Bool
  | .char => true
  | _ => false

def isTextual (t : Ty) : Bool := t = string

def isByteSequence (t : Ty) : Bool := t = .array .byte

/-- The types whose values a slice follows. -/
def isTracked (t : Ty) : Bool := t.isIntegral || t.isChar || t.isTextual || t.isByteSequence

def isTextLike : Ty → Bool
  | .char | .byte | .array .byte | .array .char => true
  | t => t.isTextual

def isReference : Ty → Bool
  | .ref _ | .array _ | .null => true
  | _ => false

def className? : Ty → Option String
  | .ref name => some name
  | _ => none

/-- The type of an array's elements; other types have unknown ones. -/
def element : Ty → Ty
  | .array elem => elem
  | _ => .unknown

end Ty

end Backslice

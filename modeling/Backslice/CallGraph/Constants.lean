import Backslice.Table
import Backslice.Code.Signature
import Backslice.Code.Constant

namespace Backslice

/-- The constants of static final fields, by class and by the field's signature text. -/
structure ConstantTable where
  byClass : Table String (Table String Constant)
  deriving Inhabited

namespace ConstantTable

def empty : ConstantTable := ⟨.empty⟩

def field? (t : ConstantTable) (f : FieldSig) : Option Constant :=
  t.byClass.get? f.cls >>= fun fields => fields.get? f.text

/-- The first constant recorded for a field stays. -/
def record (t : ConstantTable) (f : FieldSig) (value : Constant) : ConstantTable :=
  let fields := (t.byClass.get? f.cls).getD .empty
  if fields.contains f.text then t
  else ⟨t.byClass.insert f.cls (fields.insert f.text value)⟩

def get? (t : ConstantTable) (text : String) : Option Constant :=
  match FieldSig.parse text with
  | .ok f => t.byClass.get? f.cls >>= fun fields => fields.get? text
  | .error _ => none

def size (t : ConstantTable) : Nat :=
  t.byClass.values.foldl (fun n fields => n + fields.size) 0

end ConstantTable

end Backslice

import Backslice.Code.Value

namespace Backslice

inductive CmpOp where
  | eq | ne | ge | gt | lt | le
  deriving DecidableEq, Repr, Inhabited

namespace CmpOp

def symbol : CmpOp → String
  | .eq => "=="
  | .ne => "!="
  | .ge => ">="
  | .gt => ">"
  | .lt => "<"
  | .le => "<="

def holds : CmpOp → Int → Int → Bool
  | .eq, a, b => a = b
  | .ne, a, b => a ≠ b
  | .ge, a, b => b ≤ a
  | .gt, a, b => b < a
  | .lt, a, b => a < b
  | .le, a, b => a ≤ b

end CmpOp

structure Condition where
  op : CmpOp
  lhs : Value
  rhs : Value
  deriving Inhabited

def Condition.text (c : Condition) : String :=
  c.lhs.text ++ " " ++ c.op.symbol ++ " " ++ c.rhs.text

/-- A statement of three-address code. Jumps go to indices of the method's body. -/
inductive Stmt where
  | assign (lhs rhs : Value)
  | identity (dest : Local) (rhs : Value)
  | invoke (c : Call)
  | branch (cond : Condition) (target : Nat)
  | goto (target : Nat)
  | switch (key : Value) (cases : List (Int × Nat)) (default : Nat)
  | ret (v : Value)
  | retVoid
  | throw (v : Value)
  | nop
  deriving Inhabited

namespace Stmt

/-- Binds the receiver of an instance method. -/
def bindThis (m : MethodSig) : Stmt := .identity ⟨"r0", .ref m.cls⟩ (.this (.ref m.cls))

/-- Binds a local to a parameter, with the type that the signature gives it. -/
def bindParameter (m : MethodSig) (name : String) (index : Nat) : Stmt :=
  let ty := m.params[index]?.getD .unknown
  .identity ⟨name, ty⟩ (.parameter index ty)

def assignConstant (name : String) (ty : Ty) (value : Constant) : Stmt :=
  .assign (.loc ⟨name, ty⟩) (.const value)

/-- The local has the type that the method returns. -/
def assignCall (name : String) (c : Call) : Stmt := .assign (.loc ⟨name, c.method.ret⟩) (.call c)

def caseText (c : Int × Nat) : String :=
  "case " ++ toString c.1 ++ ": goto " ++ toString c.2 ++ "; "

def text : Stmt → String
  | .assign lhs rhs => lhs.text ++ " = " ++ rhs.text
  | .identity dest rhs => dest.name ++ " := " ++ rhs.text
  | .invoke c => c.text
  | .branch cond target => "if " ++ cond.text ++ " goto " ++ toString target
  | .goto target => "goto " ++ toString target
  | .switch key cases default =>
    "lookupswitch(" ++ key.text ++ ") \x7b " ++ String.join (cases.map caseText) ++
      "default: goto " ++ toString default ++ "; \x7d"
  | .ret v => "return " ++ v.text
  | .retVoid => "return"
  | .throw v => "throw " ++ v.text
  | .nop => "nop"

def call? : Stmt → Option Call
  | .invoke c => some c
  | .assign _ rhs => rhs.call?
  | _ => none

def assigned? : Stmt → Option Local
  | .assign lhs _ => lhs.local?
  | .identity dest _ => some dest
  | _ => none

/-- The ids that the statement may give a new value. -/
def defs : Stmt → List String
  | .assign (.loc l) _ => [l.name]
  | .assign (.instanceField _ field) _ | .assign (.staticField field) _ => [field.text]
  | .assign (.element base _) _ => [base.name]
  | .identity dest _ => [dest.name]
  | _ => []

/-- The ids whose values the statement reads. -/
def uses : Stmt → List String
  | .assign (.element _ index) rhs => index.ids ++ rhs.ids
  | .assign (.instanceField base _) rhs => base.name :: rhs.ids
  | .assign _ rhs => rhs.ids
  | .invoke c => c.ids
  | .branch cond _ => cond.lhs.ids ++ cond.rhs.ids
  | .switch key _ _ => key.ids
  | .ret v | .throw v => v.ids
  | .identity _ _ | .goto _ | .retVoid | .nop => []

def targets : Stmt → List Nat
  | .branch _ target | .goto target => [target]
  | .switch _ cases default => cases.map (·.2) ++ [default]
  | _ => []

end Stmt

end Backslice

import Backslice.CallGraph.Constants
import Backslice.Criterion.Basic
import Backslice.Code.UnitKind

namespace Backslice

/-- Where a walk goes on in other methods. -/
inductive Spawn where
  /-- The returns of a method whose result is followed. -/
  | downward (callee : MethodSig)
  /-- The stores to a field that is read. -/
  | fieldWriters (field : FieldSig)
  deriving DecidableEq, Repr, Inhabited

/-- What an instruction means for a walk that meets it. -/
structure Effect where
  retain : Bool := false
  constants : List String := []
  trigger? : Option String := none
  kill : List String := []
  gen : List String := []
  ordinal? : Option Nat := none
  spawns : List Spawn := []
  deriving DecidableEq, Repr, Inhabited

namespace Effect

def skip : Effect := {}

def retained (trigger : String) : Effect := { retain := true, trigger? := some trigger }

def killing (e : Effect) (id : String) : Effect := { e with kill := e.kill ++ [id] }

def generating (e : Effect) (id : String) : Effect := { e with gen := e.gen ++ [id] }

def spawning (e : Effect) (s : Spawn) : Effect := { e with spawns := e.spawns ++ [s] }

def attach (e : Effect) (c : Constant) (slot : Ty) : Effect :=
  match c.textFor? slot with
  | some text =>
    if text ∈ e.constants then e else { e with constants := e.constants ++ [text] }
  | none => e

/-- Follows a local, keeps the text of a constant. -/
def reading (e : Effect) (slot : Ty) : Value → Effect
  | .loc l => e.generating l.name
  | .const c => e.attach c slot
  | _ => e

def generatingLocal (e : Effect) : Value → Effect
  | .loc l => e.generating l.name
  | _ => e

end Effect

/-- What the rules know besides the live set: the constants of fields, and whether the walk started
at a field read. -/
structure Surroundings where
  constants : ConstantTable
  readsField : Bool
  deriving Inhabited

namespace Effect

/-- A copy between arrays matters to its destination only. -/
def ofBulkCopy (live : LiveSet) (c : Call) : Effect :=
  match c.arg? 2 with
  | some (.loc dest) =>
    if live.contains dest.name then
      match c.arg? 0 with
      | some source => (retained dest.name).generatingLocal source
      | none => retained dest.name
    else skip
  | _ => skip

def readingArgs (e : Effect) (c : Call) : Effect :=
  c.args.zipIdx.foldl (fun e a => e.reading (c.slot a.2) a.1) e

/-- Follows a local argument only if it or its slot may hold text. -/
def readingText (e : Effect) (slot : Ty) : Value → Effect
  | .loc l => if slot.isTextLike || l.ty.isTextLike then e.generating l.name else e
  | v => e.reading slot v

def readingTextArgs (e : Effect) (c : Call) : Effect :=
  c.args.zipIdx.foldl (fun e a => e.readingText (c.slot a.2) a.1) e

/-- A call matters if its result is followed, or else the receiver or an argument. A followed result
leads into the method called. -/
def ofPlainCall (live : LiveSet) (c : Call) (result : Option Local) : Effect :=
  let result := result.filter fun r => live.contains r.name
  let trigger := match result with
    | some r => some r.name
    | none => c.ids.find? live.contains
  match trigger with
  | none => skip
  | some trigger =>
    let e := retained trigger
    let e := match c.base with
      | some base => e.generating base.name
      | none => e
    let e := e.readingTextArgs c
    match result with
    | some r => (e.killing r.name).spawning (.downward c.method)
    | none => e

def ofCall (live : LiveSet) (c : Call) (result : Option Local) : Effect :=
  if c.isBulkCopy then ofBulkCopy live c
  else match c.base.filter fun b => c.isMapInsert && live.contains b.name with
    | some receiver => (retained receiver.name).readingArgs c
    | none => ofPlainCall live c result

/-- A definition of a local that is followed. -/
def ofDefinition (s : Surroundings) (kind : UnitKind) (dest : Local) (rhs : Value) : Effect :=
  let e := (retained dest.name).killing dest.name
  match kind, rhs with
  | .assignConstant, .const c => e.attach c dest.ty
  | .newInstance, .newInstance _ | .newException, .newInstance _ | .newArray, .newArray _ _ => e
  | .assignVariable, .loc source => e.generating source.name
  | .cast, .cast _ op | .lengthOf, .length op | .instanceOf, .isInstance op _ =>
    e.reading dest.ty op
  | .assignArrayElement, .element base _ => e.generating base.name
  | .assignAdd, .binOp _ lhs rhs => (e.reading dest.ty lhs).reading dest.ty rhs
  | .assignField, rhs =>
    match rhs.field? with
    | none => skip
    | some field =>
      let e := match s.constants.field? field with
        | some c => e.attach c field.ty
        | none => e
      let e := e.generating field.text
      if s.readsField then e.spawning (.fieldWriters field) else e
  | _, _ => skip

/-- An effect that an instruction has if the id it defines is live. -/
def ifLive (live : LiveSet) (id : String) (e : Effect) : Effect :=
  if live.contains id then e else skip

def ofStmt (s : Surroundings) (live : LiveSet) (kind : UnitKind) : Stmt → Effect
  | .invoke c => if kind.isInvoke then ofCall live c none else skip
  | .identity dest rhs =>
    match kind, rhs with
    | .parameterIdentity, .parameter index _ =>
      ifLive live dest.name
        { (retained dest.name).killing dest.name with ordinal? := some index }
    | .caughtExceptionIdentity, _ =>
      ifLive live dest.name ((retained dest.name).killing dest.name)
    | _, _ => skip
  | .assign (.loc dest) (.call c) =>
    if kind.isAssigningInvoke then ofCall live c (some dest)
    else ifLive live dest.name (ofDefinition s kind dest (.call c))
  | .assign (.loc dest) rhs => ifLive live dest.name (ofDefinition s kind dest rhs)
  | .assign (.element base _) rhs =>
    match kind, rhs with
    | .arrayStoreVariable, rhs =>
      ifLive live base.name ((retained base.name).generatingLocal rhs)
    | .arrayStoreConstant, .const c =>
      ifLive live base.name ((retained base.name).attach c base.ty.element)
    | _, _ => skip
  | .assign lhs rhs =>
    match lhs.field?, kind, rhs with
    | some field, .fieldStoreVariable, rhs =>
      ifLive live field.text (((retained field.text).killing field.text).generatingLocal rhs)
    | some field, .fieldStoreConstant, .const c =>
      ifLive live field.text (((retained field.text).attach c field.ty).killing field.text)
    | _, _, _ => skip
  | _ => skip

/-- The effect of an instruction on a live set. An instruction without a kind has none. -/
def ofInstruction (s : Surroundings) (live : LiveSet) (i : Instruction) : Effect :=
  match i.kind? with
  | some kind => ofStmt s live kind i.stmt
  | none => skip

end Effect

end Backslice

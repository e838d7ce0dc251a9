import Backslice.Yaml.Node
import Backslice.Yaml.Number

namespace Backslice.Yaml

namespace Node

mutual
/-- The nodes with anchors, in the order of the text. -/
def anchored : Node → List (Nat × Node)
  | .alias _ => []
  | .scalar props style text =>
    (props.anchor?.map fun id => (id, .scalar props style text)).toList
  | .list props items =>
    (props.anchor?.map fun id => (id, .list props items)).toList ++ anchoredItems items
  | .mapping props entries =>
    (props.anchor?.map fun id => (id, .mapping props entries)).toList ++ anchoredEntries entries

def anchoredItems : List Node → List (Nat × Node)
  | [] => []
  | n :: ns => anchored n ++ anchoredItems ns

def anchoredEntries : List (Node × Node) → List (Nat × Node)
  | [] => []
  | (k, v) :: es => anchored k ++ anchored v ++ anchoredEntries es
end

mutual
/-- The size of a document. A list or mapping counts twice, for its start and its end. -/
def size : Node → Nat
  | .alias _ | .scalar _ _ _ => 1
  | .list _ items => itemsSize items + 2
  | .mapping _ entries => entriesSize entries + 2

def itemsSize : List Node → Nat
  | [] => 0
  | n :: ns => size n + itemsSize ns

def entriesSize : List (Node × Node) → Nat
  | [] => 0
  | (k, v) :: es => size k + size v + entriesSize es
end

end Node

/-- Reading the nodes of a document, given what its aliases stand for and how many more of them may
be followed. -/
abbrev Reading := ReaderT (List (Nat × Node)) (StateT Nat Option)

/-- Reads a document. Of two nodes with an anchor the last one counts. At most a hundred times as
many aliases are followed as the size of the document. -/
def Reading.run? {α : Type} (read : Node → Reading α) (root : Node) : Option α :=
  ((read root).run root.anchored.reverse).run' (100 * root.size)

namespace Node

/-- What an alias stands for; other nodes stand for themselves. -/
def target : Node → Reading Node
  | .alias id => do
    let some n := (← read).lookup id | failure
    let left + 1 ← get | failure
    set left
    return n
  | n => return n

/-- The text of any scalar. -/
def text (n : Node) : Reading String := do
  let .scalar _ _ text ← n.target | failure
  return text

/-- The text of a scalar that may be read as something other than text: a plain one, or a literal
one with the tag. -/
def typedText (tag : String) (n : Node) : Reading String := do
  let .scalar props style text ← n.target | failure
  if style = .plain || (style = .literal && props.tag? = some (Tag.ofText tag)) then return text
  else failure

def bool (n : Node) : Reading Bool := do
  let text ← n.typedText "tag:yaml.org,2002:bool"
  if ["true", "True", "TRUE"].contains text then return true
  else if ["false", "False", "FALSE"].contains text then return false
  else failure

/-- A number without sign of at most 64 bits. -/
def count (n : Node) : Reading Nat := do
  let text ← n.typedText "tag:yaml.org,2002:int"
  let some n := Number.unsigned? text.toList | failure
  if n < 0x10000000000000000 then return n else failure

/-- A signed number of 32 bits. -/
def int32 (n : Node) : Reading Int := do
  let text ← n.typedText "tag:yaml.org,2002:int"
  let some n := Number.signed? text.toList | failure
  if -0x80000000 ≤ n && n < 0x80000000 then return n else failure

def isOmitted (style : Style) (text : String) : Bool := style = .plain && text = ""

/-- The items of a list. A value that is left out is an empty list. -/
def items (n : Node) : Reading (List Node) := do
  match ← n.target with
  | .list _ items => return items
  | .scalar _ style text => if isOmitted style text then return [] else failure
  | _ => failure

def listOf {α : Type} (read : Node → Reading α) (n : Node) : Reading (List α) := do
  (← n.items).mapM read

/-- The entries of a mapping. A value that is left out is an empty mapping. -/
def entries (n : Node) : Reading (List (Node × Node)) := do
  match ← n.target with
  | .mapping _ entries => return entries
  | .scalar _ style text => if isOmitted style text then return [] else failure
  | _ => failure

/-- The entries of a structure with the given fields. The keys are texts; no field is given
twice. -/
def fields (names : List String) (n : Node) : Reading (List (String × Node)) := do
  let fields ← (← n.entries).mapM fun e => do return (← e.1.text, e.2)
  let given := (fields.map (·.1)).filter names.contains
  if given.eraseDups.length < given.length then failure else return fields

def required {α : Type} (fields : List (String × Node)) (name : String)
    (read : Node → Reading α) : Reading α :=
  match fields.lookup name with
  | none => failure
  | some n => read n

def defaulted {α : Type} (fields : List (String × Node)) (name : String) (default : α)
    (read : Node → Reading α) : Reading α :=
  match fields.lookup name with
  | none => return default
  | some n => read n

def isNullText (text : String) : Bool := ["", "~", "null", "Null", "NULL"].contains text

/-- One of some names, as text, or as a tag of a scalar without content. -/
def choice {α : Type} (names : List (String × α)) (n : Node) : Reading α := do
  let .scalar props style text ← n.target | failure
  let name? := match props.tag? >>= Tag.name? with
    | some name => if style = .plain && isNullText text then some name else none
    | none => some text
  let some a := name? >>= fun name => names.lookup name | failure
  return a

end Node

end Backslice.Yaml

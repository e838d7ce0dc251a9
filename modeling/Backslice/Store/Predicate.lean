import Backslice.Error
import Backslice.Json.Reader
import Backslice.Store.Path
import Backslice.Text.Blank
import Backslice.Text.Word

namespace Backslice

/-- A condition on documents. -/
inductive Predicate where
  | eq (path : Path) (value : Json)
  | exists (path : Path)
  | missing (path : Path)
  | contains (path : Path) (needle : String)
  deriving Inhabited

namespace Predicate

/-- The text of a string, a number or a truth value. -/
def scalarText? : Json → Option String
  | .str s => some s
  | .int n => some (Json.int n).text
  | .float x => some (Json.float x).text
  | .bool b => some (Json.bool b).text
  | _ => none

mutual
/-- Equality up to the difference between a scalar and its text. A list equals what one of its items
equals. -/
def matchesValue (expected : Json) : Json → Bool
  | .arr items => Json.same (.arr items) expected || anyMatches expected items
  | .obj members => Json.same (.obj members) expected
  | .null => Json.same .null expected
  | v => Json.same v expected || scalarText? v == scalarText? expected

def anyMatches (expected : Json) : List Json → Bool
  | [] => false
  | v :: vs => matchesValue expected v || anyMatches expected vs
end

mutual
/-- Whether a scalar somewhere in the document has a text with the needle in it. -/
def containsText (needle : String) : Json → Bool
  | .arr items => anyContains needle items
  | .obj members => anyMemberContains needle members
  | .null => false
  | v => (scalarText? v).any fun s => Text.contains s needle

def anyContains (needle : String) : List Json → Bool
  | [] => false
  | v :: vs => containsText needle v || anyContains needle vs

def anyMemberContains (needle : String) : List (String × Json) → Bool
  | [] => false
  | (_, v) :: ms => containsText needle v || anyMemberContains needle ms
end

def isPresent (found : List Json) : Bool := found.any (!·.isNull)

def holds (p : Predicate) (doc : Json) : Bool :=
  match p with
  | .eq path value => (path.resolve doc).any (matchesValue value)
  | .exists path => isPresent (path.resolve doc)
  | .missing path => !isPresent (path.resolve doc)
  | .contains path needle => (path.resolve doc).any (containsText needle)

def holdAll (ps : List Predicate) (doc : Json) : Bool := ps.all (·.holds doc)

def isPathChar (c : Char) : Bool := c = '.' || Text.isWord c

/-- The path at the front of the text and what follows it. -/
def path? (cs : List Char) : Option (String × List Char) :=
  let cs := cs.dropWhile Text.isBlank
  match cs.takeWhile isPathChar with
  | [] => none
  | path => some (String.ofList path, cs.dropWhile isPathChar)

/-- One or more blanks and what follows all of them. -/
def blanks? (cs : List Char) : Option (List Char × List Char) :=
  match cs.takeWhile Text.isBlank with
  | [] => none
  | blanks => some (blanks, cs.dropWhile Text.isBlank)

/-- A value takes a single line, blanks around it apart. -/
def oneLine? (cs : List Char) : Option (List Char) :=
  let raw := Text.trimEnd cs
  if '\n' ∈ raw then none else some raw

/-- Takes one pair of quotes off. -/
def unquote (cs : List Char) : List Char :=
  match cs with
  | '"' :: rest => if rest.getLast? = some '"' then rest.dropLast else cs
  | _ => cs

/-- Reads `path in needle`. A needle of blanks alone is empty and needs a blank before it. -/
def contains? (cs : List Char) : Option Predicate := do
  let (path, cs) ← path? cs
  let (_, cs) ← blanks? cs
  let ('i' :: 'n' :: cs) := cs | none
  let (blanks, cs) ← blanks? cs
  if cs.isEmpty then
    if blanks.tail.any (· ≠ '\n') then return .contains (.parse path) "" else none
  else
    let raw ← oneLine? cs
    return .contains (.parse path) (String.ofList (unquote raw))

/-- Text that is no document stands for itself. -/
def literal (raw : List Char) : Json :=
  let s := String.ofList raw
  (Json.parse? s).getD (.str s)

/-- Reads `path==value`, `path==null` and `path!=null`. -/
def equality? (cs : List Char) : Option Predicate := do
  let (path, cs) ← path? cs
  match cs.dropWhile Text.isBlank with
  | '=' :: '=' :: cs =>
    let raw ← oneLine? (cs.dropWhile Text.isBlank)
    if raw = ['n', 'u', 'l', 'l'] then return .missing (.parse path)
    else if raw.isEmpty then none
    else return .eq (.parse path) (literal raw)
  | '!' :: '=' :: cs =>
    let raw ← oneLine? (cs.dropWhile Text.isBlank)
    if raw = ['n', 'u', 'l', 'l'] then return .exists (.parse path) else none
  | _ => none

def parse (text : String) : Except SliceError Predicate :=
  match contains? text.toList <|> equality? text.toList with
  | some p => .ok p
  | none => .error (.invalidPredicate text)

end Predicate

end Backslice

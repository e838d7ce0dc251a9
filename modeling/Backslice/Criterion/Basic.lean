import Backslice.Ascending
import Backslice.Digest
import Backslice.Table

namespace Backslice

/-- The ids whose values are followed, each with what asked for it. -/
abbrev LiveSet := Table String String

inductive TargetKind where
  | fieldRead | fieldWrite | invocation | returnValue
  deriving DecidableEq, Repr, Inhabited

def TargetKind.name : TargetKind → String
  | .fieldRead => "field_read"
  | .fieldWrite => "field_write"
  | .invocation => "invocation"
  | .returnValue => "return_value"

def TargetKind.all : List TargetKind := [.fieldRead, .fieldWrite, .invocation, .returnValue]

/-- Where a backward walk starts and what it follows. The index counts from the end of the caller's
body. A criterion without a group is the root of its own. The depth is meant as a signed number of
32 bits and is not bounded here: from one that fits, walks lead to such as fit. -/
structure Criterion where
  caller : String
  target : String
  kind : TargetKind
  index : Nat
  positions : List Int := []
  live : LiveSet := .empty
  depth : Int := 0
  group? : Option String := none
  deriving DecidableEq, Inhabited

namespace Criterion

/-- The text that identifies a criterion. Order and repetition of the live ids do not matter. -/
def identityText (caller target : String) (index : Nat) (live : List String) : String :=
  caller ++ "|" ++ target ++ "|" ++ toString index ++ "|" ++
    String.intercalate "," (Ascending.ofList Ascending.textLt live)

def idOf (caller target : String) (index : Nat) (live : List String) : String :=
  String.ofList ((Digest.sha256 (identityText caller target index live)).take 32)

def id (c : Criterion) : String := idOf c.caller c.target c.index c.live.keys

def rootId (c : Criterion) : String := c.group?.getD c.id

def isRoot (c : Criterion) : Bool := c.group?.isNone

def readsField (c : Criterion) : Bool := c.kind = .fieldRead

/-- Two criteria are the same if they ask for the same ids at the same place. -/
def same (a b : Criterion) : Bool :=
  a.caller = b.caller && a.target = b.target && a.index = b.index && a.live.keys = b.live.keys

end Criterion

end Backslice

import Backslice.Yaml.Token

namespace Backslice.Yaml

/-- What may be said of a node besides its content. -/
structure Props where
  anchor? : Option Nat := none
  tag? : Option Octets := none
  deriving DecidableEq, Repr, Inhabited

/-- A document as a tree. -/
inductive Node where
  | alias (id : Nat)
  | scalar (props : Props) (style : Style) (text : String)
  | list (props : Props) (items : List Node)
  | mapping (props : Props) (entries : List (Node × Node))
  deriving Inhabited

namespace Node

/-- A value that is left out. -/
def empty (props : Props) : Node := .scalar props .plain ""

/-- The texts that tag handles stand for. -/
abbrev Shorthands := List (String × Octets)

def resolveTag? (shorthands : Shorthands) (handle : String) (text : Octets) :
    Option Octets :=
  if handle = "" then some text else (shorthands.lookup handle).map (· ++ text)

/-- The anchor and the tag before a node, in either order. -/
def props? (shorthands : Shorthands) : List Token → Option (Props × List Token)
  | .anchor id :: .tag handle text :: ts | .tag handle text :: .anchor id :: ts =>
    (resolveTag? shorthands handle text).map fun tag => (⟨some id, some tag⟩, ts)
  | .anchor id :: ts => some (⟨some id, none⟩, ts)
  | .tag handle text :: ts =>
    (resolveTag? shorthands handle text).map fun tag => (⟨none, some tag⟩, ts)
  | ts => some ({}, ts)

def endsBlockItem : List Token → Bool
  | .blockEntry :: _ | .blockEnd :: _ => true
  | _ => false

def endsBlockValue : List Token → Bool
  | .key :: _ | .value :: _ | .blockEnd :: _ => true
  | _ => false

def endsFlowItem : List Token → Bool
  | .flowEntry :: _ | .flowListEnd :: _ => true
  | _ => false

def endsFlowValue : List Token → Bool
  | .flowEntry :: _ | .flowMappingEnd :: _ => true
  | _ => false

def afterComma? : List Token → Option (List Token)
  | .flowEntry :: ts => some ts
  | _ => none

mutual
/-- A node. Blocks start in block context only; the entries of a list may stand below their key
without indentation if `bare` is set. -/
def node? (sh : Shorthands) (block bare : Bool) : Nat → List Token → Option (Node × List Token)
  | 0, _ => none
  | _, .alias id :: ts => some (.alias id, ts)
  | n + 1, ts => do
    let (props, ts) ← props? sh ts
    match ts with
    | .scalar style text :: ts => return (.scalar props style text, ts)
    | .flowListStart :: ts =>
      let (items, ts) ← flowItems? sh true n ts
      return (.list props items, ts)
    | .flowMappingStart :: ts =>
      let (entries, ts) ← flowEntries? sh true n ts
      return (.mapping props entries, ts)
    | .blockEntry :: _ =>
      if bare then
        let (items, ts) ← bareItems? sh n ts
        return (.list props items, ts)
      else if props = {} then none
      else return (empty props, ts)
    | .blockListStart :: rest =>
      if block then
        let (items, ts) ← blockItems? sh n rest
        return (.list props items, ts)
      else if props = {} then none
      else return (empty props, ts)
    | .blockMappingStart :: rest =>
      if block then
        let (entries, ts) ← blockEntries? sh n rest
        return (.mapping props entries, ts)
      else if props = {} then none
      else return (empty props, ts)
    | ts => if props = {} then none else return (empty props, ts)

def blockItems? (sh : Shorthands) : Nat → List Token → Option (List Node × List Token)
  | n + 1, .blockEntry :: ts => do
    let (item, ts) ← if endsBlockItem ts then some (empty {}, ts) else node? sh true false n ts
    let (items, ts) ← blockItems? sh n ts
    return (item :: items, ts)
  | _, .blockEnd :: ts => some ([], ts)
  | _, _ => none

def bareItems? (sh : Shorthands) : Nat → List Token → Option (List Node × List Token)
  | 0, _ => none
  | n + 1, .blockEntry :: ts => do
    let (item, ts) ←
      if endsBlockItem ts || endsBlockValue ts then some (empty {}, ts)
      else node? sh true false n ts
    let (items, ts) ← bareItems? sh n ts
    return (item :: items, ts)
  | _, ts => some ([], ts)

def blockEntries? (sh : Shorthands) : Nat → List Token → Option (List (Node × Node) × List Token)
  | n + 1, .key :: ts => do
    let (key, ts) ← if endsBlockValue ts then some (empty {}, ts) else node? sh true true n ts
    let (value, ts) ← blockValue? sh n ts
    let (entries, ts) ← blockEntries? sh n ts
    return ((key, value) :: entries, ts)
  | _, .blockEnd :: ts => some ([], ts)
  | _, _ => none

def blockValue? (sh : Shorthands) : Nat → List Token → Option (Node × List Token)
  | 0, _ => none
  | n + 1, .value :: ts =>
    if endsBlockValue ts then some (empty {}, ts) else node? sh true true n ts
  | _, ts => some (empty {}, ts)

def flowItems? (sh : Shorthands) (first : Bool) : Nat → List Token → Option (List Node × List Token)
  | 0, _ => none
  | _, .flowListEnd :: ts => some ([], ts)
  | n + 1, ts => do
    let ts ← if first then some ts else afterComma? ts
    match ts with
    | .flowListEnd :: ts => return ([], ts)
    | .key :: ts =>
      let (pair, ts) ← flowPair? sh n ts
      let (items, ts) ← flowItems? sh false n ts
      return (.mapping {} [pair] :: items, ts)
    | ts =>
      let (item, ts) ← node? sh false false n ts
      let (items, ts) ← flowItems? sh false n ts
      return (item :: items, ts)

/-- A single entry of a mapping as an item of a list. A token that stands in place of the key is
passed over. -/
def flowPair? (sh : Shorthands) : Nat → List Token → Option ((Node × Node) × List Token)
  | 0, _ => none
  | n + 1, ts => do
    let (key, ts) ← match ts with
      | .value :: ts | .flowEntry :: ts | .flowListEnd :: ts => some (empty {}, ts)
      | ts => node? sh false false n ts
    match ts with
    | .value :: ts =>
      if endsFlowItem ts then return ((key, empty {}), ts)
      let (value, ts) ← node? sh false false n ts
      return ((key, value), ts)
    | ts => return ((key, empty {}), ts)

def flowEntries? (sh : Shorthands) (first : Bool) :
    Nat → List Token → Option (List (Node × Node) × List Token)
  | 0, _ => none
  | _, .flowMappingEnd :: ts => some ([], ts)
  | n + 1, ts => do
    let ts ← if first then some ts else afterComma? ts
    match ts with
    | .flowMappingEnd :: ts => return ([], ts)
    | .key :: ts =>
      let (key, ts) ← match ts with
        | .value :: _ => some (empty {}, ts)
        | _ => if endsFlowValue ts then some (empty {}, ts) else node? sh false false n ts
      let (value, ts) ← flowValue? sh n ts
      let (entries, ts) ← flowEntries? sh false n ts
      return ((key, value) :: entries, ts)
    | ts =>
      let (key, ts) ← node? sh false false n ts
      let (entries, ts) ← flowEntries? sh false n ts
      return ((key, empty {}) :: entries, ts)

def flowValue? (sh : Shorthands) : Nat → List Token → Option (Node × List Token)
  | 0, _ => none
  | n + 1, .value :: ts =>
    if endsFlowValue ts then some (empty {}, ts) else node? sh false false n ts
  | _, ts => some (empty {}, ts)
end

def isDirective : Token → Bool
  | .version _ _ | .tagShorthand _ _ => true
  | _ => false

def isSupported : Nat × Nat → Bool
  | (major, minor) => major = 1 && (minor = 1 || minor = 2)

def version? : Token → Option (Nat × Nat)
  | .version major minor => some (major, minor)
  | _ => none

def shorthand? : Token → Option (String × Octets)
  | .tagShorthand handle text => some (handle, text)
  | _ => none

/-- The shorthands that directives declare, with the two that are always there. -/
def shorthands? (directives : List Token) : Option Shorthands :=
  let declared := directives.filterMap shorthand?
  let versions := directives.filterMap version?
  if 1 < versions.length || !versions.all isSupported ||
      (declared.map (·.1)).eraseDups.length < declared.length then none
  else some (declared ++ [("!", Tag.mark), ("!!", Tag.ofText "tag:yaml.org,2002:")])

def endsDocument : List Token → Bool
  | .version _ _ :: _ | .tagShorthand _ _ :: _ | .documentStart :: _ | .documentEnd :: _
  | .streamEnd :: _ => true
  | _ => false

/-- Two calls at most are made for a token. -/
def root? (sh : Shorthands) (ts : List Token) : Option (Node × List Token) :=
  node? sh true false (2 * ts.length + 2) ts

/-- The only document of a text. No document at all is an empty one. -/
def ofTokens? (ts : List Token) : Option Node := do
  let directives := ts.takeWhile isDirective
  let sh ← shorthands? directives
  let (root, ts) ← match ts.drop directives.length with
    | .documentStart :: ts => if endsDocument ts then some (empty {}, ts) else root? sh ts
    | ts =>
      if !directives.isEmpty then none
      else if ts = [.streamEnd] then some (empty {}, ts)
      else root? sh ts
  if ts.dropWhile (· = .documentEnd) = [.streamEnd] then return root else none

def parse? (text : String) : Option Node := Token.ofText? text >>= ofTokens?

end Node

end Backslice.Yaml

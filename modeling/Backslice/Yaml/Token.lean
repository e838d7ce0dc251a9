import Backslice.Table
import Backslice.Yaml.Scalar
import Backslice.Yaml.Tag

namespace Backslice.Yaml

/-- A word of a document. Anchors are numbered. -/
inductive Token where
  | version (major minor : Nat)
  | tagShorthand (handle : String) (text : Octets)
  | documentStart | documentEnd | streamEnd
  | blockListStart | blockMappingStart | blockEnd
  | flowListStart | flowListEnd | flowMappingStart | flowMappingEnd
  | blockEntry | flowEntry | key | value
  | alias (id : Nat)
  | anchor (id : Nat)
  | tag (handle : String) (text : Octets)
  | scalar (style : Style) (text : String)
  deriving DecidableEq, Repr, Inhabited

/-- A place where a key may have started, before the token of the given number. A required key must
be followed by a colon. -/
structure PossibleKey where
  required : Bool
  token : Nat
  start : Cursor
  deriving Repr, Inhabited

/-- The state of splitting a text into tokens. A level is one more than the column at which an open
block starts, innermost first. `keys` has an entry for the blocks and one for each open bracket,
innermost first. -/
structure Scan where
  cursor : Cursor
  tokens : List Token := []
  levels : List Nat := []
  keys : List (Option PossibleKey) := [none]
  keyAllowed : Bool := true
  anchors : Table String Nat := .empty
  deriving Inhabited

namespace Scan

def inFlow (s : Scan) : Bool := 1 < s.keys.length

def level (s : Scan) : Nat := s.levels.headD 0

def emit (s : Scan) (t : Token) : Scan := { s with tokens := s.tokens ++ [t] }

/-- Takes one character as a token. -/
def emitChar (s : Scan) (t : Token) : Scan := { s.emit t with cursor := s.cursor.next }

def allow (s : Scan) (keyAllowed : Bool) : Scan := { s with keyAllowed }

/-- Ends the blocks deeper than a level. -/
def unroll (s : Scan) (level : Nat) : Scan :=
  if s.inFlow then s
  else
    let ended := s.levels.takeWhile (level < ·)
    { s with
      levels := s.levels.drop ended.length
      tokens := s.tokens ++ ended.map fun _ => .blockEnd }

/-- Starts a block at a column if it is deeper than the one around it. -/
def roll (s : Scan) (column : Nat) (at? : Option Nat) (t : Token) : Scan :=
  if s.inFlow || column < s.level then s
  else
    { s with
      levels := (column + 1) :: s.levels
      tokens := s.tokens.insertIdx (at?.getD s.tokens.length) t }

/-- Gives up the innermost possible key. -/
def dropKey? (s : Scan) : Option Scan :=
  match s.keys with
  | some k :: keys => if k.required then none else some { s with keys := none :: keys }
  | _ => some s

/-- Remembers that a key may start here. -/
def saveKey? (s : Scan) : Option Scan :=
  if s.keyAllowed then
    s.dropKey?.map fun s =>
      let required := !s.inFlow && s.level = s.cursor.column + 1
      { s with keys := some ⟨required, s.tokens.length, s.cursor⟩ :: s.keys.tail }
  else some s

/-- A key stays on one line and within 1024 characters. -/
def isStale (c : Cursor) (k : PossibleKey) : Bool :=
  k.start.line < c.line || k.start.index + 1024 < c.index

def freshKeys? (c : Cursor) : List (Option PossibleKey) → Option (List (Option PossibleKey))
  | [] => some []
  | none :: keys => (freshKeys? c keys).map (none :: ·)
  | some k :: keys =>
    if !isStale c k then (freshKeys? c keys).map (some k :: ·)
    else if k.required then none
    else (freshKeys? c keys).map (none :: ·)

/-- Goes past spaces, comments and line ends. A new line outside brackets allows a key. Where a key
is allowed, tabs are no spaces. -/
def toToken (flow : Bool) : Nat → Bool → Cursor → Bool × Cursor
  | 0, keyAllowed, c => (keyAllowed, c)
  | bound + 1, keyAllowed, c =>
    let c := if c.column = 0 && c.peek? = some '\ufeff' then c.next else c
    let c := c.skipWhile fun x => x = ' ' || (x = '\t' && (flow || !keyAllowed))
    let c := c.skipComment
    if c.peek?.any isBreak then toToken flow bound (keyAllowed || !flow) c.next
    else (keyAllowed, c)

/-- Ends all blocks for a line that belongs to no block. -/
def leaveBlocks? (s : Scan) : Option Scan := (s.unroll 0).dropKey?.map (·.allow false)

def number? (cs : List Char) : Option (Nat × List Char) :=
  let digits := cs.takeWhile Char.isDigit
  if digits.isEmpty || 9 < digits.length then none
  else some (digits.foldl (fun n c => n * 10 + Json.digitValue c) 0, cs.drop digits.length)

def version? (cs : List Char) : Option (Token × List Char) := do
  let (major, cs) ← number? (cs.dropWhile isBlank)
  let ('.' :: cs) := cs | none
  let (minor, cs) ← number? cs
  return (.version major minor, cs)

def tagShorthand? (cs : List Char) : Option (Token × List Char) := do
  let ('!' :: cs) := cs.dropWhile isBlank | none
  let (handle, cs) ← Tag.handle? cs
  if !cs.head?.any isBlank then none
  let (text, cs) ← Tag.suffix? true (cs.dropWhile isBlank)
  if !atWordEnd cs then none
  return (.tagShorthand handle text, cs)

/-- Reads a line that starts with a percent sign. -/
def directive? (s : Scan) : Option Scan := do
  let s ← s.leaveBlocks?
  let c := s.cursor.next
  let name := c.rest.takeWhile isWordChar
  let rest := c.rest.drop name.length
  let (t, rest) ←
    if !atWordEnd rest then none
    else match String.ofList name with
      | "YAML" => version? rest
      | "TAG" => tagShorthand? rest
      | _ => none
  let cursor ← (c.moveTo rest).endLine?
  return { s.emit t with cursor }

def documentMark? (s : Scan) (t : Token) : Option Scan := do
  let s ← s.leaveBlocks?
  return { s.emit t with cursor := s.cursor.advance 3 }

def openFlow? (s : Scan) (t : Token) : Option Scan := do
  let s ← s.saveKey?
  return { (s.emitChar t).allow true with keys := none :: s.keys }

def closeFlow? (s : Scan) (t : Token) : Option Scan := do
  let s ← s.dropKey?
  let keys := if s.inFlow then s.keys.tail else s.keys
  return { (s.emitChar t).allow false with keys }

def flowItem? (s : Scan) : Option Scan := do
  let s ← s.dropKey?
  return (s.emitChar .flowEntry).allow true

def blockItem? (s : Scan) : Option Scan := do
  if !s.inFlow && !s.keyAllowed then none
  let s ← (s.roll s.cursor.column none .blockListStart).dropKey?
  return (s.emitChar .blockEntry).allow true

def key? (s : Scan) : Option Scan := do
  if !s.inFlow && !s.keyAllowed then none
  let s ← (s.roll s.cursor.column none .blockMappingStart).dropKey?
  return (s.emitChar .key).allow (!s.inFlow)

/-- At a colon the possible key becomes one. -/
def value? (s : Scan) : Option Scan :=
  match s.keys with
  | some k :: keys =>
    let s := { s with tokens := s.tokens.insertIdx k.token .key, keys := none :: keys }
    let s := s.roll k.start.column (some k.token) .blockMappingStart
    some ((s.emitChar .value).allow false)
  | _ =>
    if !s.inFlow && !s.keyAllowed then none
    else
      let s := s.roll s.cursor.column none .blockMappingStart
      some ((s.emitChar .value).allow (!s.inFlow))

/-- The name after an ampersand or an asterisk. -/
def anchorName? (s : Scan) : Option (String × Cursor) :=
  let c := s.cursor.next
  let name := c.rest.takeWhile isWordChar
  let c := c.advance name.length
  let ends := c.peek?.all fun x =>
    isGap x || ['?', ':', ',', ']', '\x7d', '%', '@', '\x60'].contains x
  if name.isEmpty || !ends then none else some (String.ofList name, c)

/-- An anchor gets the number of names before it. A name that is used again keeps that number free,
so that the next new name shares it. -/
def anchor? (s : Scan) : Option Scan := do
  let s ← s.saveKey?
  let (name, cursor) ← s.anchorName?
  let id := s.anchors.size
  return { (s.emit (.anchor id)).allow false with cursor, anchors := s.anchors.insert name id }

/-- An alias names an anchor before it. -/
def alias? (s : Scan) : Option Scan := do
  let s ← s.saveKey?
  let (name, cursor) ← s.anchorName?
  let id ← s.anchors.get? name
  return { (s.emit (.alias id)).allow false with cursor }

def tag? (s : Scan) : Option Scan := do
  let s ← s.saveKey?
  let c := s.cursor.next
  let (handle, text, rest) ← Tag.read? c.rest
  if atWordEnd rest || (s.inFlow && rest.head? = some ',') then
    return { (s.emit (.tag handle text)).allow false with cursor := c.moveTo rest }
  else none

def block? (s : Scan) (literal : Bool) : Option Scan := do
  let s ← s.dropKey?
  let (text, cursor) ← Block.read? literal s.level s.cursor.next
  let t := .scalar (if literal then .literal else .folded) (String.ofList text)
  return { (s.emit t).allow true with cursor }

def quoted? (s : Scan) (single : Bool) : Option Scan := do
  let s ← s.saveKey?
  let (text, cursor) ← Quoted.read? single s.cursor.next
  let t := .scalar (if single then .single else .double) (String.ofList text)
  return { (s.emit t).allow false with cursor }

def plain? (s : Scan) : Option Scan := do
  if !Plain.canStart s.inFlow s.cursor.rest then none
  let s ← s.saveKey?
  let (text, broken, cursor) ← Plain.read? s.inFlow s.level s.cursor
  return { (s.emit (.scalar .plain (String.ofList text))).allow broken with cursor }

/-- Reads the token that starts at the cursor. -/
def token? (s : Scan) : Option Scan :=
  let c := s.cursor
  match c.rest with
  | [] => s.leaveBlocks?.map (·.emit .streamEnd)
  | x :: rest =>
    let wordEnds := atWordEnd rest
    if c.column = 0 && x = '%' then s.directive?
    else if c.column = 0 && startsTriple '-' c.rest then s.documentMark? .documentStart
    else if c.column = 0 && startsTriple '.' c.rest then s.documentMark? .documentEnd
    else match x with
      | '[' => s.openFlow? .flowListStart
      | '\x7b' => s.openFlow? .flowMappingStart
      | ']' => s.closeFlow? .flowListEnd
      | '\x7d' => s.closeFlow? .flowMappingEnd
      | ',' => s.flowItem?
      | '-' => if wordEnds then s.blockItem? else s.plain?
      | '?' => if s.inFlow || wordEnds then s.key? else s.plain?
      | ':' => if s.inFlow || wordEnds then s.value? else s.plain?
      | '*' => s.alias?
      | '&' => s.anchor?
      | '!' => s.tag?
      | '|' => if s.inFlow then none else s.block? true
      | '>' => if s.inFlow then none else s.block? false
      | '\'' => s.quoted? true
      | '"' => s.quoted? false
      | _ => s.plain?

/-- Goes on to the next token, ends what its place ends, and reads it. -/
def step? (s : Scan) : Option Scan := do
  let (keyAllowed, cursor) := toToken s.inFlow (s.cursor.rest.length + 1) s.keyAllowed s.cursor
  let keys ← freshKeys? cursor s.keys
  Scan.token? ({ s with keyAllowed, cursor, keys }.unroll (cursor.column + 1))

/-- Every token but the last takes up at least one character of the bound. -/
def run? : Nat → Scan → Option (List Token)
  | 0, _ => none
  | bound + 1, s => do
    let s ← s.step?
    if s.tokens.getLast? = some .streamEnd then return s.tokens else run? bound s

end Scan

/-- The tokens of a text. -/
def Token.ofText? (text : String) : Option (List Token) :=
  let cs := text.toList
  if cs.all isAllowed then
    let cs := normalize cs
    Scan.run? (cs.length + 1) { cursor := { rest := cs } }
  else none

end Backslice.Yaml

import Backslice.Json.Reader
import Backslice.Yaml.Cursor

namespace Backslice.Yaml

/-- How a scalar is written. -/
inductive Style where
  | plain | single | double | literal | folded
  deriving DecidableEq, Repr, Inhabited

/-- What a gap inside a scalar stands for: a single line feed is a space, of more line feeds the
first does not count. -/
def joined (gap : List Char) : List Char :=
  match gap.filter isBreak with
  | [] => gap
  | ['\n'] => [' ']
  | '\n' :: more => more
  | breaks => breaks

namespace Plain

def isFlowMark (c : Char) : Bool :=
  c = ',' || c = '[' || c = ']' || c = '\x7b' || c = '\x7d'

/-- The characters with a meaning of their own at the start of a word. -/
def indicators : List Char := ['#', '&', '*', '!', '|', '>', '\'', '"', '%', '@', '\x60']

/-- Whether a plain scalar may start here. -/
def canStart (flow : Bool) : List Char → Bool
  | [] => false
  | '-' :: cs => !cs.head?.any isBlank
  | '?' :: cs | ':' :: cs => !flow && !atWordEnd cs
  | c :: _ => !isGap c && !isFlowMark c && c ∉ indicators

/-- The front of the text that belongs to a plain scalar. Inside brackets a colon must not stand
before a bracket, a comma or a question mark. -/
def word? (flow : Bool) : List Char → Option (List Char)
  | [] => some []
  | c :: cs =>
    if isGap c || (flow && isFlowMark c) then some []
    else if c = ':' && flow && cs.head?.any (fun x => isFlowMark x || x = '?') then none
    else if c = ':' && atWordEnd cs then some []
    else (word? flow cs).map (c :: ·)

/-- Whether a tab stands left of an indentation in the given part of a line or in a later one. -/
def hasTabBefore (indent : Nat) : Nat → List Char → Bool
  | _, [] => false
  | column, c :: cs =>
    if isBreak c then hasTabBefore indent 0 cs
    else (column < indent && c = '\t') || hasTabBefore indent (column + 1) cs

/-- Whether a tab stands left of an indentation on a later line of a gap. -/
def hasEarlyTab (indent : Nat) (gap : List Char) : Bool :=
  hasTabBefore indent 0 ((gap.dropWhile fun c => !isBreak c).drop 1)

/-- The rest of a plain scalar after a gap, and whether a line break was passed since its last
word. A word takes up at least one unit of the bound. -/
def lines? (flow : Bool) (indent : Nat) :
    Nat → List Char → Bool → Cursor → Option (List Char × Bool × Cursor)
  | 0, _, _, _ => none
  | bound + 1, gap, broken, c =>
    if c.atMark || c.peek? = some '#' then some ([], broken, c)
    else do
      let word ← word? flow c.rest
      let text := if word.isEmpty then [] else joined gap ++ word
      let c := c.advance word.length
      let gap := c.rest.takeWhile isGap
      if gap.isEmpty then return (text, broken && word.isEmpty, c)
      if hasEarlyTab indent gap then none
      let c := c.advance gap.length
      let broken := gap.any isBreak
      if !flow && c.column < indent then return (text, broken, c)
      let (more, broken, c) ← lines? flow indent bound gap broken c
      return (text ++ more, broken, c)

def read? (flow : Bool) (indent : Nat) (c : Cursor) : Option (List Char × Bool × Cursor) :=
  lines? flow indent (c.rest.length + 1) [] false c

end Plain

namespace Quoted

def escape? : Char → Option Char
  | '0' => some '\x00'
  | 'a' => some '\x07'
  | 'b' => some '\x08'
  | 't' | '\t' => some '\t'
  | 'n' => some '\n'
  | 'v' => some '\x0b'
  | 'f' => some '\x0c'
  | 'r' => some '\r'
  | 'e' => some '\x1b'
  | ' ' => some ' '
  | '"' => some '"'
  | '/' => some '/'
  | '\\' => some '\\'
  | 'N' => some '\u0085'
  | '_' => some '\u00a0'
  | 'L' => some '\u2028'
  | 'P' => some '\u2029'
  | _ => none

/-- The number of digits of a character code. -/
def codeLength? : Char → Option Nat
  | 'x' => some 2
  | 'u' => some 4
  | 'U' => some 8
  | _ => none

/-- The character that an escape stands for, and what follows. -/
def escaped? : List Char → Option (Char × List Char)
  | [] => none
  | c :: cs =>
    match codeLength? c with
    | none => (escape? c).map fun x => (x, cs)
    | some n => do
      let code ← Json.hexValue? (cs.take n)
      if n ≤ cs.length && code.isValidChar then some (Char.ofNat code, cs.drop n) else none

/-- The text up to the closing quote. -/
def chars? (single : Bool) : Nat → List Char → Option (List Char × List Char)
  | 0, _ | _, [] => none
  | bound + 1, c :: cs =>
    let goOn (front rest : List Char) : Option (List Char × List Char) :=
      (chars? single bound rest).map fun (text, rest) => (front ++ text, rest)
    if isGap c then
      let gap := (c :: cs).takeWhile isGap
      let rest := (c :: cs).dropWhile isGap
      if gap.getLast?.any isBreak && startsMark rest then none else goOn (joined gap) rest
    else if single then
      match c, cs with
      | '\'', '\'' :: rest => goOn ['\''] rest
      | '\'', rest => some ([], rest)
      | _, _ => goOn [c] cs
    else if c = '"' then some ([], cs)
    else if c = '\\' then
      if cs.head?.any isBreak then
        let gap := cs.takeWhile isGap
        let rest := cs.dropWhile isGap
        if gap.getLast?.any isBreak && startsMark rest then none
        else goOn (gap.tail.filter isBreak) rest
      else match escaped? cs with
        | some (x, rest) => goOn [x] rest
        | none => none
    else goOn [c] cs

/-- Reads from after the opening quote. -/
def read? (single : Bool) (c : Cursor) : Option (List Char × Cursor) :=
  (chars? single (c.rest.length + 1) c.rest).map fun (text, rest) => (text, c.moveTo rest)

end Quoted

/-- What becomes of the line breaks at the end of a block scalar. -/
inductive Chomp where
  | strip | clip | keep
  deriving DecidableEq, Repr

namespace Block

def chomp? : List Char → Option (Chomp × List Char)
  | '-' :: cs => some (.strip, cs)
  | '+' :: cs => some (.keep, cs)
  | _ => none

/-- An indentation is a single digit other than zero; zero stands for none given. -/
def increment? : List Char → Option (Nat × List Char)
  | '0' :: _ => none
  | c :: cs => if c.isDigit then some (Json.digitValue c, cs) else some (0, c :: cs)
  | [] => some (0, [])

/-- The indicators after the mark of a block scalar, in either order. -/
def header? (cs : List Char) : Option (Chomp × Nat × List Char) := do
  match chomp? cs with
  | some (chomp, cs) =>
    let (n, cs) ← increment? cs
    return (chomp, n, cs)
  | none =>
    let (n, cs) ← increment? cs
    let (chomp, cs) := if n = 0 then (.clip, cs) else (chomp? cs).getD (.clip, cs)
    return (chomp, n, cs)

/-- Goes past empty lines and the indentation of the next line. With no indentation set, all spaces
are passed. Gives the breaks and the widest indentation met. -/
def emptyLines? (indent : Nat) : Nat → Nat → Cursor → Option (List Char × Nat × Cursor)
  | 0, _, _ => none
  | bound + 1, widest, c =>
    let spaces := (c.rest.takeWhile (· = ' ')).length
    let c := c.advance (if indent = 0 then spaces else min spaces (indent - c.column))
    let widest := max widest c.column
    match c.peek? with
    | some x =>
      if x = '\t' && (indent = 0 || c.column < indent) then none
      else if isBreak x then
        (emptyLines? indent bound widest c.next).map fun (breaks, widest, c) =>
          (x :: breaks, widest, c)
      else some ([], widest, c)
    | none => some ([], widest, c)

/-- The lines of a block scalar, with the break after the last one and the empty lines after that.
In a folded scalar a single break between lines that start with no blank is a space. -/
def lines? (literal : Bool) (indent : Nat) :
    Nat → List Char → List Char → Bool → Cursor →
      Option (List Char × List Char × List Char × Cursor)
  | 0, _, _, _, _ => none
  | bound + 1, last, empty, blank, c =>
    if c.column ≠ indent || c.rest.isEmpty then some ([], last, empty, c)
    else do
      let startsBlank := c.peek?.any isBlank
      let folds := !literal && last = ['\n'] && !blank && !startsBlank
      let start := if folds then (if empty.isEmpty then [' '] else []) else last
      let line := c.rest.takeWhile fun x => !isBreak x
      let c := c.advance line.length
      let next := c.peek?.toList
      let (breaks, _, c) ← emptyLines? indent (c.rest.length + 1) 0 c.next
      let (more, tail) ← lines? literal indent bound next breaks startsBlank c
      return (start ++ empty ++ line ++ more, tail)

/-- Reads from after the mark. The level is one more than the column of the enclosing block. -/
def read? (literal : Bool) (level : Nat) (c : Cursor) : Option (List Char × Cursor) := do
  let (chomp, increment, rest) ← header? c.rest
  let c ← (c.moveTo rest).endLine?
  let given := if increment = 0 then 0 else level - 1 + increment
  let (breaks, widest, c) ← emptyLines? given (c.rest.length + 1) 0 c
  let indent := if given = 0 then max (max widest level) 1 else given
  let (text, last, empty, c) ← lines? literal indent (c.rest.length + 1) [] breaks false c
  let tail := match chomp with
    | .strip => []
    | .clip => last
    | .keep => last ++ empty
  return (text ++ tail, c)

end Block

end Backslice.Yaml

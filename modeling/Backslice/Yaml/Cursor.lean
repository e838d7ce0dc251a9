namespace Backslice.Yaml

def isBreak (c : Char) : Bool := c = '\n' || c = '\u2028' || c = '\u2029'

def isBlank (c : Char) : Bool := c = ' ' || c = '\t'

/-- The characters that come between words. -/
def isGap (c : Char) : Bool := isBlank c || isBreak c

/-- The characters of anchors, directives and tag handles. -/
def isWordChar (c : Char) : Bool := c.isAlphanum || c = '_' || c = '-'

/-- The characters that may stand in a document at all. -/
def isAllowed (c : Char) : Bool :=
  c = '\t' || c = '\n' || c = '\r' || c = '\u0085' || (' ' ≤ c && c ≤ '~') ||
    ('\u00a0' ≤ c && c ≠ '\ufffe' && c ≠ '\uffff')

/-- A carriage return, alone or before a line feed, and a next line character end a line like a line
feed. -/
def normalize : List Char → List Char
  | [] => []
  | '\r' :: '\n' :: cs => '\n' :: normalize cs
  | c :: cs => (if c = '\r' || c = '\u0085' then '\n' else c) :: normalize cs

/-- Whether a word ends here: before a gap or at the end of the text. -/
def atWordEnd (cs : List Char) : Bool := cs.head?.all isGap

/-- Whether three equal characters stand here as a word of their own. -/
def startsTriple (x : Char) : List Char → Bool
  | a :: b :: c :: cs => a = x && b = x && c = x && atWordEnd cs
  | _ => false

/-- Whether a document starts or ends here. -/
def startsMark (cs : List Char) : Bool := startsTriple '-' cs || startsTriple '.' cs

/-- The text still to be read and the place where it starts. -/
structure Cursor where
  rest : List Char
  index : Nat := 0
  line : Nat := 0
  column : Nat := 0
  deriving Repr, Inhabited

namespace Cursor

def next (c : Cursor) : Cursor :=
  match c.rest with
  | [] => c
  | x :: rest =>
    if isBreak x then ⟨rest, c.index + 1, c.line + 1, 0⟩
    else ⟨rest, c.index + 1, c.line, c.column + 1⟩

def advance : Nat → Cursor → Cursor
  | 0, c => c
  | n + 1, c => advance n c.next

def skipWhile (p : Char → Bool) (c : Cursor) : Cursor := c.advance (c.rest.takeWhile p).length

/-- Goes on to where the given rest of the text starts. -/
def moveTo (c : Cursor) (rest : List Char) : Cursor := c.advance (c.rest.length - rest.length)

def peek? (c : Cursor) : Option Char := c.rest.head?

def skipComment (c : Cursor) : Cursor :=
  if c.peek? = some '#' then c.skipWhile fun x => !isBreak x else c

/-- Goes past blanks and a comment to the start of the next line. -/
def endLine? (c : Cursor) : Option Cursor :=
  let c := (c.skipWhile isBlank).skipComment
  match c.peek? with
  | none => some c
  | some x => if isBreak x then some c.next else none

/-- Whether a document starts or ends at this place. -/
def atMark (c : Cursor) : Bool := c.column = 0 && startsMark c.rest

end Cursor

end Backslice.Yaml

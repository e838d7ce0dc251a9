import Backslice.Yaml.Scalar
import Backslice.Yaml.Number

namespace Backslice.Yaml.Written

/-- The characters that stand for themselves outside double quotes. -/
def isPrintable (c : Char) : Bool :=
  c = '\n' || (' ' ≤ c && c ≤ '~') ||
    ('\u00a0' ≤ c && c ≠ '\ufeff' && c ≠ '\ufffe' && c ≠ '\uffff')

/-- Whether a plain text would be read as null, a truth value or a number. -/
def isTyped (cs : List Char) : Bool :=
  ["", "~", "null", "Null", "NULL", "true", "True", "TRUE", "false", "False", "FALSE"].contains
      (String.ofList cs) ||
    Number.isInteger cs || Number.isFloat cs || Number.isZeroPadded cs

/-- Whether two neighbours somewhere in a text have the given properties. -/
def hasPair (p q : Char → Bool) : List Char → Bool
  | a :: b :: cs => (p a && q b) || hasPair p q (b :: cs)
  | _ => false

def startsIndicator : List Char → Bool
  | [] => false
  | c :: cs =>
    (['-', '?', ':'].contains c && atWordEnd cs) || Plain.isFlowMark c || c ∈ Plain.indicators

def startsLikeMark : List Char → Bool
  | '-' :: '-' :: '-' :: _ | '.' :: '.' :: '.' :: _ => true
  | _ => false

/-- Whether a part of the text would be taken for something other than plain text. -/
def hasIndicator (cs : List Char) : Bool :=
  startsIndicator cs || startsLikeMark cs || hasPair (· = ':') isGap cs ||
    cs.getLast? = some ':' || hasPair isGap (· = '#') cs

def hasSpecial (cs : List Char) : Bool := cs.any fun c => !isPrintable c

def isSpace (c : Char) : Bool := c = ' '

def plainAllowed (cs : List Char) : Bool :=
  !hasSpecial cs && !cs.any isBreak && cs.head? ≠ some ' ' && cs.getLast? ≠ some ' ' &&
    !hasIndicator cs

def singleAllowed (cs : List Char) : Bool :=
  !hasSpecial cs && !hasPair isSpace isBreak cs && !hasPair isBreak isSpace cs

def literalAllowed (cs : List Char) : Bool :=
  !hasSpecial cs && !hasPair isSpace isBreak cs && cs.getLast? ≠ some ' '

/-- Text with a line feed is a literal block if it can be; other text is plain if it can be and
would be read as text, else in single quotes if it can be. The rest is in double quotes. -/
def style (cs : List Char) : Style :=
  if '\n' ∈ cs then
    if literalAllowed cs then .literal else .double
  else if !isTyped cs && plainAllowed cs then .plain
  else if singleAllowed cs then .single
  else .double

def indent : List Char := [' ', ' ']

/-- Every line but an empty one is indented. -/
def indented : Bool → List Char → List Char
  | _, [] => []
  | fresh, c :: cs =>
    if isBreak c then c :: indented true cs
    else (if fresh then indent else []) ++ c :: indented false cs

/-- Quotes are doubled, and what follows a line break is indented. -/
def single : Bool → List Char → List Char
  | broken, [] => if broken then indent else []
  | broken, c :: cs =>
    if isBreak c then c :: single true cs
    else (if broken then indent else []) ++ (if c = '\'' then ['\'', c] else [c]) ++ single false cs

def hexDigit (n : Nat) : Char := (Nat.digitChar n).toUpper

def hex : Nat → Nat → List Char
  | 0, _ => []
  | width + 1, n => hex width (n / 16) ++ [hexDigit (n % 16)]

def escape (c : Char) : List Char :=
  match c with
  | '\x00' => ['0']
  | '\x07' => ['a']
  | '\x08' => ['b']
  | '\t' => ['t']
  | '\n' => ['n']
  | '\x0b' => ['v']
  | '\x0c' => ['f']
  | '\r' => ['r']
  | '\x1b' => ['e']
  | '"' => ['"']
  | '\\' => ['\\']
  | '\u0085' => ['N']
  | '\u00a0' => ['_']
  | '\u2028' => ['L']
  | '\u2029' => ['P']
  | c =>
    if c.toNat < 0x100 then 'x' :: hex 2 c.toNat
    else if c.toNat < 0x10000 then 'u' :: hex 4 c.toNat
    else 'U' :: hex 8 c.toNat

def double (c : Char) : List Char :=
  if !isPrintable c || isBreak c || c = '"' || c = '\\' then '\\' :: escape c else [c]

/-- The indicators of a literal block: the indentation if it cannot be seen, and what to do with the
line breaks at the end. -/
def hints (cs : List Char) : List Char :=
  (if cs.head?.any isGap then ['2'] else []) ++
    match cs.reverse with
    | c :: d :: _ => if !isBreak c then ['-'] else if isBreak d then ['+'] else []
    | c :: _ => if isBreak c then ['+'] else ['-']
    | [] => ['-']

/-- A text as the item of a list, without the line end after it. -/
def item (text : String) : String :=
  let cs := text.toList
  String.ofList <| match style cs with
    | .plain => cs
    | .single => '\'' :: single false cs ++ ['\'']
    | .literal | .folded => '|' :: hints cs ++ '\n' :: indented true cs
    | .double => '"' :: cs.flatMap double ++ ['"']

/-- A line end, unless the text has one already. -/
def ended (text : String) : String :=
  if text.toList.getLast?.any isBreak then text else text ++ "\n"

end Backslice.Yaml.Written

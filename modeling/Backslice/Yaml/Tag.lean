import Backslice.Json.Reader
import Backslice.Yaml.Cursor

namespace Backslice.Yaml

/-- A text by its octets, which need not be those of characters. -/
abbrev Octets := List UInt8

namespace Tag

def ofText (s : String) : Octets := s.toUTF8.data.toList

/-- The tag of a single exclamation mark. -/
def mark : Octets := ofText "!"

/-- A tag ends before an octet that is zero. -/
def cut (octets : Octets) : Octets := octets.takeWhile (· ≠ 0)

/-- What follows an exclamation mark, if it is text. -/
def name? : Octets → Option String
  | 0x21 :: octets => String.fromUTF8? ⟨octets.toArray⟩
  | _ => none

def isUriChar (verbatim : Bool) (c : Char) : Bool :=
  isWordChar c || [';', '/', '?', ':', '@', '&', '=', '+', '$', '.', '%', '!', '~', '*', '\'', '(',
    ')'].contains c || (verbatim && [',', '[', ']'].contains c)

def octet? : List Char → Option (UInt8 × List Char)
  | '%' :: a :: b :: cs => (Json.hexValue? [a, b]).map fun n => (n.toUInt8, cs)
  | _ => none

/-- The octets after the first one of a character. -/
def moreOctets? : Nat → List Char → Option (Octets × List Char)
  | 0, cs => some ([], cs)
  | n + 1, cs => do
    let (octet, cs) ← octet? cs
    if octet / 64 = 2 then
      let (octets, cs) ← moreOctets? n cs
      return (octet :: octets, cs)
    else none

/-- A character given by its octets. The first one says how many follow. -/
def escaped? (cs : List Char) : Option (Octets × List Char) := do
  let (octet, cs) ← octet? cs
  let (octets, cs) ←
    if octet < 0x80 then some ([], cs)
    else if octet / 32 = 6 then moreOctets? 1 cs
    else if octet / 16 = 14 then moreOctets? 2 cs
    else if octet / 8 = 30 then moreOctets? 3 cs
    else none
  return (octet :: octets, cs)

def uri? (verbatim : Bool) : Nat → List Char → Option (Octets × List Char)
  | 0, _ => none
  | _, [] => some ([], [])
  | bound + 1, c :: cs =>
    if !isUriChar verbatim c then some ([], c :: cs)
    else do
      let (octets, rest) ← if c = '%' then escaped? (c :: cs) else some ([c.toUInt8], cs)
      let (more, rest) ← uri? verbatim bound rest
      return (octets ++ more, rest)

/-- A text of characters that tags are made of; it must not be empty. -/
def suffix? (verbatim : Bool) (cs : List Char) : Option (Octets × List Char) :=
  match uri? verbatim (cs.length + 1) cs with
  | some (octet :: octets, rest) => some (cut (octet :: octets), rest)
  | _ => none

/-- A tag from after its exclamation mark: a handle, then what follows it. A tag of the mark alone
has no handle. -/
def read? (cs : List Char) : Option (String × Octets × List Char) :=
  match cs with
  | '<' :: cs => do
    let (text, rest) ← suffix? true cs
    let ('>' :: rest) := rest | none
    return ("", text, rest)
  | cs =>
    let word := cs.takeWhile isWordChar
    let rest := cs.dropWhile isWordChar
    match rest with
    | '!' :: rest => do
      let (text, rest) ← suffix? false rest
      return ("!" ++ String.ofList word ++ "!", text, rest)
    | rest => do
      let (text, rest) ← uri? false (rest.length + 1) rest
      let text := cut (word.map Char.toUInt8 ++ text)
      if text.isEmpty then return ("", mark, rest) else return ("!", text, rest)

/-- The handle that a directive declares, after its exclamation mark. -/
def handle? (cs : List Char) : Option (String × List Char) :=
  let word := cs.takeWhile isWordChar
  match cs.dropWhile isWordChar with
  | '!' :: rest => some ("!" ++ String.ofList word ++ "!", rest)
  | rest => if word.isEmpty then some ("!", rest) else none

end Tag

end Backslice.Yaml

import Backslice.Json.Basic

namespace Backslice.Json

def escaped (c : Char) : List Char :=
  match c with
  | '"' => ['\\', '"']
  | '\\' => ['\\', '\\']
  | '\x08' => ['\\', 'b']
  | '\x0c' => ['\\', 'f']
  | '\n' => ['\\', 'n']
  | '\r' => ['\\', 'r']
  | '\t' => ['\\', 't']
  | c =>
    if c.toNat < 0x20 then
      '\\' :: 'u' :: '0' :: '0' :: [Nat.digitChar (c.toNat / 16), Nat.digitChar (c.toNat % 16)]
    else [c]

def quote (s : String) : String :=
  "\"" ++ String.ofList (s.toList.flatMap escaped) ++ "\""

mutual
/-- The text of a document, without spaces. -/
def text : Json → String
  | .null => "null"
  | .bool true => "true"
  | .bool false => "false"
  | .int n => toString n
  | .float x => number.float x
  | .str s => quote s
  | .arr items => "[" ++ String.intercalate "," (itemTexts items) ++ "]"
  | .obj members => "\x7b" ++ String.intercalate "," (memberTexts members) ++ "\x7d"

def itemTexts : List Json → List String
  | [] => []
  | v :: vs => text v :: itemTexts vs

def memberTexts : List (String × Json) → List String
  | [] => []
  | (k, v) :: ms => (quote k ++ ":" ++ text v) :: memberTexts ms
end

end Backslice.Json

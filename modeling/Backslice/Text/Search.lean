namespace Backslice.Text

def hasInfix (needle : List Char) : List Char → Bool
  | [] => needle.isEmpty
  | c :: rest => needle.isPrefixOf (c :: rest) || hasInfix needle rest

/-- Whether `needle` stands somewhere in `text`. -/
def contains (text needle : String) : Bool := hasInfix needle.toList text.toList

def startsWith (text start : String) : Bool := start.toList.isPrefixOf text.toList

def endsWith (text final : String) : Bool := final.toList.isSuffixOf text.toList

/-- The pieces between the separators, one more than there are separators. -/
def splitChars (sep : Char) : List Char → List (List Char)
  | [] => [[]]
  | c :: rest =>
    if c = sep then [] :: splitChars sep rest
    else match splitChars sep rest with
      | [] => [[c]]
      | piece :: pieces => (c :: piece) :: pieces

end Backslice.Text

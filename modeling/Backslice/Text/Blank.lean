namespace Backslice.Text

/-- The characters with the Unicode property White_Space. -/
def isBlank (c : Char) : Bool :=
  let n := c.toNat
  (9 ≤ n && n ≤ 13) || n == 0x20 || n == 0x85 || n == 0xA0 || n == 0x1680 ||
    (0x2000 ≤ n && n ≤ 0x200A) || n == 0x2028 || n == 0x2029 || n == 0x202F ||
    n == 0x205F || n == 0x3000

def trimEnd (cs : List Char) : List Char := (cs.reverse.dropWhile isBlank).reverse

def trimChars (cs : List Char) : List Char := trimEnd (cs.dropWhile isBlank)

def trim (s : String) : String := String.ofList (trimChars s.toList)

theorem length_trimEnd_le (cs : List Char) : (trimEnd cs).length ≤ cs.length := by
  simpa [trimEnd] using (List.dropWhile_sublist isBlank (l := cs.reverse)).length_le

theorem length_trimChars_le (cs : List Char) : (trimChars cs).length ≤ cs.length :=
  Nat.le_trans (length_trimEnd_le _) (List.dropWhile_sublist isBlank).length_le

end Backslice.Text

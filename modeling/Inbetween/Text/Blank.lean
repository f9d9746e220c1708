/-!
# Blank characters

The characters with the Unicode property White_Space, and names freed of them. Mode names are
compared after blanks around them are cut off and ASCII letters are lowered.
-/

namespace Inbetween.Text

/-- The code points with the property White_Space, as ranges with both ends included. -/
def blankRanges : List (Nat × Nat) :=
  [(0x0009, 0x000D), (0x0020, 0x0020), (0x0085, 0x0085), (0x00A0, 0x00A0), (0x1680, 0x1680),
   (0x2000, 0x200A), (0x2028, 0x2029), (0x202F, 0x202F), (0x205F, 0x205F), (0x3000, 0x3000)]

def isBlank (c : Char) : Bool :=
  blankRanges.any fun (first, last) => first ≤ c.toNat && c.toNat ≤ last

example : (blankRanges.map fun (first, last) => last + 1 - first).sum = 25 := rfl

/-- The characters from the first to the last one that is not blank. -/
def trim (cs : List Char) : List Char :=
  ((cs.dropWhile isBlank).reverse.dropWhile isBlank).reverse

/-- The name that a mode is looked up by: trimmed, with ASCII letters lowered. -/
def plainName (s : String) : List Char :=
  (trim s.toList).map Char.toLower

end Inbetween.Text

-- White space as the Unicode property of that name has it: 25 characters, in ascending ranges.

namespace Palette

-- First and last code points of the runs of white space.
def blankRanges : List (Nat × Nat) :=
  [(0x09, 0x0D), (0x20, 0x20), (0x85, 0x85), (0xA0, 0xA0), (0x1680, 0x1680), (0x2000, 0x200A),
    (0x2028, 0x2029), (0x202F, 0x202F), (0x205F, 0x205F), (0x3000, 0x3000)]

def isUnicodeBlank (c : Char) : Bool :=
  blankRanges.any fun (first, last) => first ≤ c.toNat && c.toNat ≤ last

-- The text without white space at either end.
def trimBlanks (s : List Char) : List Char :=
  ((s.dropWhile isUnicodeBlank).reverse.dropWhile isUnicodeBlank).reverse

end Palette

/-! # White space around names

The white-space characters of Unicode, and the text that is left when they are taken off both
ends. -/

namespace BranchBound.Text

/-- The ranges of code points with the property White_Space, in ascending order. -/
def blankRanges : List (Nat × Nat) :=
  [(0x9, 0xd), (0x20, 0x20), (0x85, 0x85), (0xa0, 0xa0), (0x1680, 0x1680), (0x2000, 0x200a),
    (0x2028, 0x2029), (0x202f, 0x202f), (0x205f, 0x205f), (0x3000, 0x3000)]

/-- Whether a character is white space. -/
def isBlank (c : Char) : Bool :=
  blankRanges.any fun (first, last) => first ≤ c.toNat && c.toNat ≤ last

/-- The characters left after taking white space off both ends. -/
def trim (characters : List Char) : List Char :=
  ((characters.dropWhile isBlank).reverse.dropWhile isBlank).reverse

/-- A name without the white space around it and with its ASCII letters in lower case. -/
def foldName (name : String) : String :=
  String.ofList ((trim name.toList).map Char.toLower)

end BranchBound.Text

/-!
# Classes of characters given by ranges

Grammars for identifiers name their characters by ranges of code points.  Such
a class is a list of ranges, and a character is in the class when one of the
ranges holds its code point.
-/

namespace QuadSession.Text

/-- The code points from `first` to `last`, both included. -/
structure CodeRange where
  first : Nat
  last : Nat
deriving DecidableEq, Repr

namespace CodeRange

/-- The range of a single character. -/
def single (c : Char) : CodeRange :=
  ⟨c.toNat, c.toNat⟩

/-- The range between two characters, both included. -/
def between (first last : Char) : CodeRange :=
  ⟨first.toNat, last.toNat⟩

/-- Whether the code point of `c` lies in the range. -/
def contains (range : CodeRange) (c : Char) : Bool :=
  decide (range.first ≤ c.toNat) && decide (c.toNat ≤ range.last)

end CodeRange

/-- Whether one of the ranges holds `c`. -/
def inRanges (ranges : List CodeRange) (c : Char) : Bool :=
  ranges.any fun range => range.contains c

/-- The letters of ASCII, both cases. -/
def asciiLetters : List CodeRange :=
  [.between 'A' 'Z', .between 'a' 'z']

/-- The ten digits of ASCII. -/
def asciiDigits : List CodeRange :=
  [.between '0' '9']

/-- The digits of base sixteen, in either case. -/
def hexDigits : List CodeRange :=
  asciiDigits ++ [.between 'A' 'F', .between 'a' 'f']

/-- Whether `c` is a digit of base sixteen. -/
def isHexDigit (c : Char) : Bool :=
  inRanges hexDigits c

/-- Whether `c` is a decimal digit of ASCII. -/
def isDecimalDigit (c : Char) : Bool :=
  inRanges asciiDigits c

end QuadSession.Text

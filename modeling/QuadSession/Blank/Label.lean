import QuadSession.Blank
import QuadSession.Text.CodeRange

/-!
# Well-formed labels of blank nodes

A label has at least one character.  It may start with a letter, a digit, an
underscore or a colon; inside it, dots, hyphens and combining marks may follow,
but its last character is not a dot.
-/

namespace QuadSession.Blank

open QuadSession.Text

/-- The characters that a label may start with. -/
def labelStart : List CodeRange :=
  asciiDigits ++ asciiLetters ++
    [.single '_', .single ':', ⟨0xC0, 0xD6⟩, ⟨0xD8, 0xF6⟩, ⟨0xF8, 0x2FF⟩, ⟨0x370, 0x37D⟩,
      ⟨0x37F, 0x1FFF⟩, ⟨0x200C, 0x200D⟩, ⟨0x2070, 0x218F⟩, ⟨0x2C00, 0x2FEF⟩,
      ⟨0x3001, 0xD7FF⟩, ⟨0xF900, 0xFDCF⟩, ⟨0xFDF0, 0xFFFD⟩, ⟨0x10000, 0xEFFFF⟩]

/-- The characters that a label may hold after its first one. -/
def labelInner : List CodeRange :=
  labelStart ++
    [.single '.', .single '-', .single '\u00b7', ⟨0x300, 0x36F⟩, ⟨0x203F, 0x2040⟩]

/-- Whether the text can be the label of a blank node. -/
def wellFormedLabel (label : String) : Bool :=
  match label.toList with
  | [] => false
  | first :: rest =>
    inRanges labelStart first && rest.all (inRanges labelInner) &&
      (first :: rest).getLast? != some '.'

/-- The one way in which a label can be refused. -/
structure BadLabel where
  label : String
deriving DecidableEq, Repr

/-- The text of the refusal, which does not repeat the label. -/
def BadLabel.message (_ : BadLabel) : String :=
  "The blank node identifier is invalid"

/-- The blank node with a label that has been checked. -/
def parse (label : String) (root : Iri) : Except BadLabel Blank :=
  if wellFormedLabel label then .ok ⟨root, label⟩ else .error ⟨label⟩

end QuadSession.Blank

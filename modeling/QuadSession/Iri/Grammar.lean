import QuadSession.Iri
import QuadSession.Text.CodeRange

/-!
# Which texts are absolute IRIs

An absolute IRI has a scheme, then either `//` with an authority and a path or
a path alone, then an optional query and an optional fragment.  The parts are
cut at the first delimiter that can end them: the scheme at the first colon,
the fragment at the first `#`, the query at the first `?`, the authority at the
first slash after `//`.  Each part is then checked by the class of its
characters.  Nothing is decoded or normalised.

## Main definitions

* `Iri.WellFormed.text` decides whether a text is an absolute IRI.
* `Iri.parse?` is the IRI of a well-formed text.
-/

namespace QuadSession.Iri

open QuadSession.Text

/-! ## Characters -/

/-- ASCII letters and digits and the marks that need no escape anywhere. -/
def asciiPlain : List CodeRange :=
  asciiLetters ++ asciiDigits ++ "!$&'()*+,-.;=_~".toList.map CodeRange.single

/-- The characters beyond ASCII that may stand in every part of an IRI. -/
def worldwide : List CodeRange :=
  [⟨0xA0, 0xD7FF⟩, ⟨0xF900, 0xFDCF⟩, ⟨0xFDF0, 0xFFEF⟩,
    ⟨0x10000, 0x1FFFD⟩, ⟨0x20000, 0x2FFFD⟩, ⟨0x30000, 0x3FFFD⟩, ⟨0x40000, 0x4FFFD⟩,
    ⟨0x50000, 0x5FFFD⟩, ⟨0x60000, 0x6FFFD⟩, ⟨0x70000, 0x7FFFD⟩, ⟨0x80000, 0x8FFFD⟩,
    ⟨0x90000, 0x9FFFD⟩, ⟨0xA0000, 0xAFFFD⟩, ⟨0xB0000, 0xBFFFD⟩, ⟨0xC0000, 0xCFFFD⟩,
    ⟨0xD0000, 0xDFFFD⟩, ⟨0xE1000, 0xEFFFD⟩]

/-- The characters for private use, which only a query may hold. -/
def privateUse : List CodeRange :=
  [⟨0xE000, 0xF8FF⟩, ⟨0xF0000, 0xFFFFD⟩, ⟨0x100000, 0x10FFFD⟩]

/-- The characters that may stand in every part of an IRI. -/
def isPlain (c : Char) : Bool :=
  inRanges (asciiPlain ++ worldwide) c

def isPathChar (c : Char) : Bool :=
  isPlain c || c == ':' || c == '@' || c == '/'

def isFragmentChar (c : Char) : Bool :=
  isPathChar c || c == '?'

def isQueryChar (c : Char) : Bool :=
  isFragmentChar c || inRanges privateUse c

def isSchemeChar (c : Char) : Bool :=
  inRanges (asciiLetters ++ asciiDigits) c || c == '+' || c == '-' || c == '.'

/-- Whether every character is allowed, a percent sign being allowed when two
hexadecimal digits follow it. -/
def encoded (allowed : Char → Bool) : List Char → Bool
  | [] => true
  | '%' :: high :: low :: rest => isHexDigit high && isHexDigit low && encoded allowed rest
  | c :: rest => allowed c && encoded allowed rest

/-! ## Cutting at a delimiter -/

/-- The text before the first `delimiter`, and the text after it if there is
one. -/
def cut (delimiter : Char) : List Char → List Char × Option (List Char)
  | [] => ([], none)
  | c :: rest =>
    if c = delimiter then ([], some rest)
    else
      let (before, after) := cut delimiter rest
      (c :: before, after)

/-- The pieces between consecutive `delimiter`s.  There is always one piece. -/
def pieces (delimiter : Char) : List Char → List (List Char)
  | [] => [[]]
  | c :: rest =>
    if c = delimiter then [] :: pieces delimiter rest
    else
      match pieces delimiter rest with
      | [] => [[c]]
      | piece :: more => (c :: piece) :: more

/-- The text around the first pair of colons, if there is such a pair. -/
def cutAtDoubleColon? : List Char → Option (List Char × List Char)
  | [] => none
  | ':' :: ':' :: rest => some ([], rest)
  | c :: rest => (cutAtDoubleColon? rest).map fun (before, after) => (c :: before, after)

namespace WellFormed

/-! ## Addresses in brackets -/

/-- Whether the digits are a number below 256 without leading zeros. -/
def octet (digits : List Char) : Bool :=
  digits.all isDecimalDigit && 0 < digits.length && digits.length ≤ 3 &&
    (digits.length == 1 || digits.head? != some '0') &&
    digits.foldl (fun value c => 10 * value + (c.toNat - '0'.toNat)) 0 < 256

/-- Whether the text is four octets between dots. -/
def dottedQuad (text : List Char) : Bool :=
  let parts := pieces '.' text
  parts.length == 4 && parts.all octet

/-- Whether the text is one to four hexadecimal digits. -/
def hexGroup (text : List Char) : Bool :=
  text.all isHexDigit && 0 < text.length && text.length ≤ 4

/-- The number of groups that the pieces stand for, if each is a group.  Where
`quadAllowed`, the last piece may be a dotted quad, which stands for two. -/
def groupCount? (quadAllowed : Bool) : List (List Char) → Option Nat
  | [] => some 0
  | [last] =>
    if hexGroup last then some 1
    else if quadAllowed && dottedQuad last then some 2
    else none
  | piece :: rest =>
    if hexGroup piece then (groupCount? quadAllowed rest).map (· + 1) else none

/-- The number of groups in one side of an address, an empty side having
none. -/
def sideCount? (quadAllowed : Bool) (side : List Char) : Option Nat :=
  if side.isEmpty then some 0 else groupCount? quadAllowed (pieces ':' side)

/-- Whether the text is an address of eight groups, where a pair of colons
stands for the groups that are left out, at least one.  A dotted quad can only
be at the very end. -/
def address (text : List Char) : Bool :=
  match cutAtDoubleColon? text with
  | none => sideCount? true text == some 8
  | some (before, after) =>
    match sideCount? false before, sideCount? true after with
    | some front, some back => front + back ≤ 7
    | _, _ => false

/-- Whether the text is an address of a later version: `v`, the version in
hexadecimal, a dot, and at least one character. -/
def versionedAddress : List Char → Bool
  | [] => false
  | mark :: rest =>
    let (version, content) := cut '.' rest
    (mark == 'v' || mark == 'V') && !version.isEmpty && version.all isHexDigit &&
      match content with
      | none => false
      | some content =>
        !content.isEmpty && content.all fun c => inRanges asciiPlain c || c == ':'

/-! ## The parts of an IRI -/

/-- Whether the text can be a scheme: a letter, then letters, digits and three
marks. -/
def scheme : List Char → Bool
  | [] => false
  | first :: rest => inRanges asciiLetters first && rest.all isSchemeChar

/-- Whether nothing follows a host, or what follows the colon after it is digits,
possibly none. -/
def hostNumber : Option (List Char) → Bool
  | none => true
  | some digits => digits.all isDecimalDigit

/-- Whether the text is a host, with a number behind a colon if there is one. -/
def host : List Char → Bool
  | '[' :: rest =>
    match cut ']' rest with
    | (_, none) => false
    | (inner, some after) =>
      (address inner || versionedAddress inner) &&
        match after with
        | [] => true
        | ':' :: digits => hostNumber (some digits)
        | _ => false
  | text =>
    let (name, after) := cut ':' text
    encoded isPlain name && hostNumber after

/-- Whether the text is a host that may have user information before it. -/
def authority (text : List Char) : Bool :=
  match cut '@' text with
  | (_, none) => host text
  | (user, some after) => encoded (fun c => isPlain c || c == ':') user && host after

/-- Whether the text is what stands between the scheme and the query. -/
def hierarchy : List Char → Bool
  | '/' :: '/' :: rest =>
    let (name, path) := cut '/' rest
    authority name && encoded isPathChar (path.getD [])
  | path => encoded isPathChar path

/-- Whether the text is an absolute IRI. -/
def text (text : List Char) : Bool :=
  match cut ':' text with
  | (_, none) => false
  | (name, some afterScheme) =>
    let (beforeFragment, fragment) := cut '#' afterScheme
    let (beforeQuery, query) := cut '?' beforeFragment
    scheme name && hierarchy beforeQuery &&
      encoded isQueryChar (query.getD []) && encoded isFragmentChar (fragment.getD [])

end WellFormed

/-- The IRI of a well-formed text. -/
def parse? (text : String) : Option Iri :=
  if WellFormed.text text.toList then some ⟨text⟩ else none

end QuadSession.Iri

import QuadSession.Node

/-!
# Locales

A locale selects the literals of one language.  It is given by a tag such as
`en-GB`; what counts is the primary subtag, the text before the first hyphen or
underscore, compared with the whole language tag of a literal up to the case of
ASCII letters.  The empty tag gives the invariant locale, which selects the
literals without a language.
-/

namespace QuadSession

/-- A locale, held as its tag.  The empty tag is the invariant locale. -/
structure Locale where
  text : String
deriving DecidableEq, Repr

namespace Locale

def invariant : Locale :=
  ⟨""⟩

def isInvariant (l : Locale) : Bool :=
  l.text.isEmpty

/-- The tag, which the invariant locale does not have. -/
def tag (l : Locale) : Option String :=
  if l.isInvariant then none else some l.text

/-- Whether a character ends the primary subtag. -/
def isSeparator (c : Char) : Bool :=
  c == '-' || c == '_'

/-- The text of a tag before its first separator. -/
def primary (tag : String) : String :=
  String.ofList (tag.toList.takeWhile fun c => !isSeparator c)

/-- The primary subtag of the locale, which may be empty. -/
def language (l : Locale) : Option String :=
  l.tag.map primary

/-- The text with the capital letters of ASCII made small. -/
def foldCase (text : String) : String :=
  String.ofList (text.toList.map Char.toLower)

/-- Whether a literal with the given language tag belongs to the locale. -/
def selectsLanguage (l : Locale) (tag : Option String) : Bool :=
  match l.language, tag with
  | none, none => true
  | some primary, some tag => foldCase primary == foldCase tag
  | _, _ => false

/-- Whether the term is a literal that belongs to the locale. -/
def selects (l : Locale) (t : Term) : Bool :=
  match t.literal? with
  | some value => l.selectsLanguage value.language
  | none => false

end Locale

end QuadSession

/-!
# Quoted text

The value of a literal is written between double quotes on one line.  The quote
itself, the backslash and the control characters of ASCII are escaped; every
other character stands for itself.  Five controls have a letter of their own,
the rest are written by their code point in four hexadecimal digits.
-/

namespace QuadSession.Text

/-- One hexadecimal digit in upper case. -/
def upperHexDigit (n : Nat) : Char :=
  (Nat.digitChar n).toUpper

/-- A code point below 65536 as a backslash, the letter `u` and four digits. -/
def codeEscape (c : Char) : List Char :=
  let n := c.toNat
  ['\\', 'u', upperHexDigit (n / 4096 % 16), upperHexDigit (n / 256 % 16),
    upperHexDigit (n / 16 % 16), upperHexDigit (n % 16)]

/-- How one character is written inside quotes. -/
def escapeChar (c : Char) : List Char :=
  match c with
  | '\x08' => ['\\', 'b']
  | '\t' => ['\\', 't']
  | '\n' => ['\\', 'n']
  | '\x0c' => ['\\', 'f']
  | '\r' => ['\\', 'r']
  | '"' => ['\\', '"']
  | '\\' => ['\\', '\\']
  | c => if c.toNat < 0x20 || c.toNat == 0x7f then codeEscape c else [c]

/-- The text between double quotes, with what cannot stand there escaped. -/
def quoted (text : String) : String :=
  String.ofList ('"' :: text.toList.flatMap escapeChar ++ ['"'])

end QuadSession.Text

import LiveOrder.Text.Hidden

/-!
# Quoted text

A text between quotes.  The usual controls have short escapes; the quote in use and the backslash
take a backslash; a character that could not be seen on its own is written by its code point in
braces.

* `Text.quote`       a text between double quotes;
* `Text.quoteChar`   a character between single quotes.
-/

namespace LiveOrder.Text

/-- A natural in lower-case hexadecimal digits. -/
def hex (n : Nat) : List Char := Nat.toDigits 16 n

/-- One character as it stands between quotes of the kind `mark`. -/
def escape (mark : Char) (c : Char) : List Char :=
  if c = '\x00' then ['\\', '0']
  else if c = '\t' then ['\\', 't']
  else if c = '\r' then ['\\', 'r']
  else if c = '\n' then ['\\', 'n']
  else if c = '\\' || c = mark then ['\\', c]
  else if isExtending c || isBlank c then ['\\', 'u', '\x7b'] ++ hex c.toNat ++ ['\x7d']
  else [c]

def quote (s : String) : String :=
  String.ofList ('"' :: (s.toList.flatMap (escape '"') ++ ['"']))

def quoteChar (c : Char) : String :=
  String.ofList ('\'' :: (escape '\'' c ++ ['\'']))

end LiveOrder.Text

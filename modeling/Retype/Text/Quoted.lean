import Retype.Text.Printable

/-!
# Quoted text

Texts, names and keys stand between double quotes in messages. A quote, a backslash, the usual
blanks of layout and the character with code 0 have short escapes; any other character that does
not show by itself is written by its code point, in lower case hexadecimal between braces. An
apostrophe stands for itself.
-/

namespace Retype.Text

/-- The short escapes: a character and the letter that stands for it behind a backslash. -/
def shortEscapes : List (Char × Char) :=
  [('"', '"'), ('\\', '\\'), ('\n', 'n'), ('\r', 'r'), ('\t', 't'), ('\x00', '0')]

/-- A character as it is written inside quotes. -/
def quotedChar (c : Char) : List Char :=
  match shortEscapes.lookup c with
  | some letter => ['\\', letter]
  | none =>
    if isPrintable c then [c] else ['\\', 'u', '\x7b'] ++ Nat.toDigits 16 c.toNat ++ ['\x7d']

/-- A text between quotes. -/
def quoted (text : String) : String :=
  String.ofList (['"'] ++ text.toList.flatMap quotedChar ++ ['"'])

end Retype.Text

import RelLogic.Text.Unprintable

/-!
# Quoted characters and texts

A quoted text stands between two quotes. The quote itself and the backslash are written after a backslash;
the null character, the tab, the carriage return and the line feed have letters of their own; any other
character without a glyph is written as its code point in hexadecimal between braces; all other characters
stand for themselves. The other kind of quote needs no escape.
-/

namespace RelLogic.Text

/-- The quote around a text. -/
def doubleQuote : Char := '\x22'

/-- The quote around a single character. -/
def singleQuote : Char := '\x27'

/-- The letter after the backslash, for the characters that have one. -/
def escapeLetter? (quote c : Char) : Option Char :=
  if c = '\x00' then some '0'
  else if c = '\t' then some 't'
  else if c = '\r' then some 'r'
  else if c = '\n' then some 'n'
  else if c = '\\' ∨ c = quote then some c
  else none

/-- A character written by its code point: lower-case hexadecimal digits without leading zeros, in braces. -/
def codePoint (c : Char) : List Char :=
  '\\' :: 'u' :: '\x7b' :: (Nat.toDigits 16 c.toNat ++ ['\x7d'])

/-- A character as it is written between the given quotes. -/
def escape (quote c : Char) : List Char :=
  match escapeLetter? quote c with
  | some letter => ['\\', letter]
  | none => if unprintable c then codePoint c else [c]

/-- Characters between two quotes. -/
def between (quote : Char) (cs : List Char) : List Char :=
  quote :: (cs.flatMap (escape quote) ++ [quote])

/-- A character in single quotes. -/
def quotedChar (c : Char) : String :=
  String.ofList (between singleQuote [c])

/-- A text in double quotes. -/
def quoted (s : String) : String :=
  String.ofList (between doubleQuote s.toList)

end RelLogic.Text

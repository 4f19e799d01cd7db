import RecipeLint.Text.Printable

/-!
# Quoted text

Text between double quotes on one line, where all that does not show is written as an escape.
-/

namespace RecipeLint.Text

def escapeChar (c : Char) : Text :=
  if c = '"' then ['\\', '"']
  else if c = '\\' then ['\\', '\\']
  else if c = '\n' then ['\\', 'n']
  else if c = '\r' then ['\\', 'r']
  else if c = '\t' then ['\\', 't']
  else if c = '\x00' then ['\\', '0']
  else if isPrintable c then [c]
  else '\\' :: 'u' :: '\x7b' :: Nat.toDigits 16 c.toNat ++ ['\x7d']

def quoted (text : Text) : Text :=
  '"' :: text.flatMap escapeChar ++ ['"']

def quotedList (texts : List Text) : Text :=
  '[' :: List.intercalate [',', ' '] (texts.map quoted) ++ [']']

end RecipeLint.Text

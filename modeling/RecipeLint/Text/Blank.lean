import RecipeLint.Text.Basic

/-!
# Blank characters

The characters with the Unicode property `White_Space`.
-/

namespace RecipeLint.Text

/-- The property `White_Space` as inclusive ranges of code points. -/
def blankRanges : List (Nat × Nat) :=
  [(0x9, 0xD), (0x20, 0x20), (0x85, 0x85), (0xA0, 0xA0), (0x1680, 0x1680), (0x2000, 0x200A),
    (0x2028, 0x2029), (0x202F, 0x202F), (0x205F, 0x205F), (0x3000, 0x3000)]

def isBlankChar (c : Char) : Bool :=
  isAmong blankRanges c

def isBlank (text : Text) : Bool :=
  text.all isBlankChar

def trimLeft (text : Text) : Text :=
  text.dropWhile isBlankChar

end RecipeLint.Text

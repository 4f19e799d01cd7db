import RecipeLint.Text.Basic

/-!
# Lines

A line break ends a line, so text after the last one is a line only if there is any. A carriage
return directly before a line break belongs to the break.
-/

namespace RecipeLint.Text

def dropFinalReturn (line : Text) : Text :=
  if line.getLast? = some '\r' then line.dropLast else line

def lines (text : Text) : List Text :=
  let pieces := text.splitOn '\n'
  let ended := pieces.dropLast.map dropFinalReturn
  match pieces.getLast? with
  | none | some [] => ended
  | some rest => ended ++ [rest]

end RecipeLint.Text

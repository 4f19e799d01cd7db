import RecipeLint.Text.Lines

/-!
# What the lines of a text are

Each line break ends a line, and a carriage return in front of it is a part of the break.  What
follows the last line break is a line as it is, if there is anything.
-/

namespace RecipeLint.Text

/-- The lines of a text, in order. -/
inductive SplitsInto : Text → List Text → Prop
  | nil : SplitsInto [] []
  | last {line : Text} (hne : line ≠ []) (hline : '\n' ∉ line) : SplitsInto line [line]
  | newline {line rest : Text} {lines : List Text} (hline : '\n' ∉ line)
      (hreturn : line.getLast? ≠ some '\r') (h : SplitsInto rest lines) :
      SplitsInto (line ++ '\n' :: rest) (line :: lines)
  | returned {line rest : Text} {lines : List Text} (hline : '\n' ∉ line)
      (h : SplitsInto rest lines) : SplitsInto (line ++ '\r' :: '\n' :: rest) (line :: lines)

variable {line rest : Text}

theorem lines_of_not_mem (hline : '\n' ∉ line) : lines line = if line = [] then [] else [line] := by
  cases line <;> simp [lines, List.splitOn_eq_singleton hline]

theorem lines_append_newline (hline : '\n' ∉ line) (rest : Text) :
    lines (line ++ '\n' :: rest) = dropFinalReturn line :: lines rest := by
  obtain ⟨piece, pieces, hpieces⟩ := List.exists_cons_of_ne_nil (rest.splitOn_ne_nil '\n')
  have hsplit : (line ++ '\n' :: rest).splitOn '\n' = line :: piece :: pieces := by
    rw [List.splitOn_append_cons_self_of_not_mem hline, hpieces]
  simp only [lines, hsplit, hpieces, List.dropLast_cons_cons, List.getLast?_cons_cons,
    List.map_cons]
  split <;> rfl

theorem dropFinalReturn_of_ne (h : line.getLast? ≠ some '\r') : dropFinalReturn line = line :=
  if_neg h

theorem dropFinalReturn_concat (line : Text) : dropFinalReturn (line ++ ['\r']) = line := by
  simp [dropFinalReturn]

theorem SplitsInto.lines_eq {text : Text} {ls : List Text} (h : SplitsInto text ls) :
    lines text = ls := by
  induction h with
  | nil => rfl
  | last hne hline => rw [lines_of_not_mem hline, if_neg hne]
  | newline hline hreturn _ ih =>
    rw [lines_append_newline hline, dropFinalReturn_of_ne hreturn, ih]
  | @returned line rest _ hline _ ih =>
    have hmem : '\n' ∉ line ++ ['\r'] := by simp [hline]
    rw [List.append_cons, lines_append_newline hmem, dropFinalReturn_concat, ih]

theorem splitsInto_lines (text : Text) : SplitsInto text (lines text) := by
  induction hlength : text.length using Nat.strongRecOn generalizing text with
  | ind n ih =>
    by_cases hmem : '\n' ∈ text
    · obtain ⟨line, rest, rfl, hline⟩ := List.eq_append_cons_of_mem hmem
      have hlt : rest.length < n := by
        simp at hlength
        omega
      have hrest : SplitsInto rest (lines rest) := ih rest.length hlt rest rfl
      rw [lines_append_newline hline]
      by_cases hreturn : line.getLast? = some '\r'
      · obtain ⟨line, rfl⟩ := List.getLast?_eq_some_iff.mp hreturn
        rw [dropFinalReturn_concat, ← List.append_cons]
        exact .returned (fun h => hline (List.mem_append_left _ h)) hrest
      · rw [dropFinalReturn_of_ne hreturn]
        exact .newline hline hreturn hrest
    · rw [lines_of_not_mem hmem]
      by_cases hnil : text = []
      · rw [if_pos hnil, hnil]
        exact .nil
      · rw [if_neg hnil]
        exact .last hnil hmem

end RecipeLint.Text

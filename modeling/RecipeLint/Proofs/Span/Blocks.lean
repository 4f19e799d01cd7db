import RecipeLint.Proofs.Span.Excerpts

/-!
# Blocks

A block ends in the line where the span starts and a line of carets.  The first has its number in
front, in three columns or as many as the digits need, and a bar; the second has the same bar behind
three blanks.  So there are as many carets as they should be, side by side, but they stand to the
left of the characters that they are about: by one column up to line 999, and by more further down.
-/

namespace RecipeLint

/-! ## Columns -/

namespace Text

def StandsAt (part line : Text) (column : Nat) : Prop :=
  ∃ before after, line = before ++ part ++ after ∧ before.length = column

theorem StandsAt.append_left {part line : Text} {column : Nat} (h : StandsAt part line column)
    (front : Text) : StandsAt part (front ++ line) (front.length + column) := by
  obtain ⟨before, after, rfl, rfl⟩ := h
  exact ⟨front ++ before, after, by simp, List.length_append⟩

theorem length_ofNat_le_three_iff {n : Nat} : (ofNat n).length ≤ 3 ↔ n < 1000 := by
  rw [ofNat, Nat.toString_eq_repr, Nat.toList_repr]
  exact Nat.length_toDigits_le_iff (by decide) (by decide)

theorem not_mem_ofNat (n : Nat) : '\n' ∉ ofNat n := by
  rw [ofNat, Nat.toString_eq_repr, Nat.toList_repr]
  intro hmem
  have hdigit := Nat.isDigit_of_mem_toDigits (by decide) (Nat.le_refl 10) hmem
  exact absurd hdigit (by decide)

end Text

namespace Span

variable {s : Span} {text : Text} {place : Location}

theorem Cuts.exists_standsAt (h : s.Cuts text) : ∃ (place : Location) (inside : Text),
    s.locate? text = some place ∧ s.slice? text = some inside ∧
      Text.StandsAt (Text.firstLine inside) place.content place.column := by
  obtain ⟨front, inside, behind, rfl, rfl⟩ := h.exists_eq
  obtain ⟨p, rfl, hrest⟩ := Text.Point.exists_of_append front (inside ++ behind)
  obtain ⟨after, hafter⟩ := Text.exists_firstLine_append inside behind
  have haround : (Span.mk (Text.byteSize p.front) (Text.byteSize (p.front ++ inside))).around?
      (p.front ++ inside ++ behind) = some (p.front, p.after) := by
    rw [hrest]
    exact around?_cut p.front inside behind
  refine ⟨.ofPoint p, inside, locate?_ofPoint haround, slice?_eq p.front inside behind, ?_⟩
  refine ⟨p.head, after, ?_, rfl⟩
  rw [Location.ofPoint, Text.Point.line, hrest, hafter, List.append_assoc]

/-! ## The two lines -/

def Location.gutter (place : Location) : Text :=
  (Text.ofNat place.line).leftpad 3 ' ' ++ " | ".toList

def caretGutter : Text := "   | ".toList

theorem Location.length_gutter (place : Location) : place.gutter.length =
    caretGutter.length + (max 3 (Text.ofNat place.line).length - 2) := by
  have hbar : " | ".toList.length = 3 := rfl
  have hcarets : caretGutter.length = 5 := rfl
  rw [gutter, List.length_append, List.length_leftpad, hbar, hcarets]
  omega

theorem Location.not_mem_gutter (place : Location) : '\n' ∉ place.gutter := by
  have hnumber := Text.not_mem_ofNat place.line
  simp [gutter, List.leftpad, hnumber]

theorem not_mem_carets (column : Nat) (characters : Text) :
    '\n' ∉ caretGutter ++ underline column characters := by
  have hgutter : '\n' ∉ caretGutter := by decide
  simp [hgutter, not_mem_underline]

theorem count_carets (column : Nat) (characters : Text) :
    (caretGutter ++ underline column characters).count '^' = max 1 characters.length := by
  have hgutter : caretGutter.count '^' = 0 := rfl
  simp [hgutter, underline, caretCount, List.count_replicate]

theorem standsAt_carets (column : Nat) (characters : Text) :
    Text.StandsAt (List.replicate (max 1 characters.length) '^')
      (caretGutter ++ underline column characters) (caretGutter.length + column) := by
  refine Text.StandsAt.append_left ⟨List.replicate column ' ', [], ?_, List.length_replicate⟩ _
  rw [List.append_nil, underline, caretCount]

theorem block?_eq (h : s.locate? text = some place) (label message : Text) :
    ∃ heading, s.block? text label message = some (heading ++ '\n' ::
      (place.gutter ++ place.content ++ '\n' ::
        (caretGutter ++ underline place.column (Text.firstLine (s.slice text))))) := by
  refine ⟨label ++ ": ".toList ++ message ++ "\n  --> line ".toList ++ Text.ofNat place.line ++
    ", column ".toList ++ Text.ofNat (place.column + 1) ++ "\n   |".toList, ?_⟩
  have hbar : "\n   |\n".toList = "\n   |".toList ++ ['\n'] := rfl
  have hcarets : "\n   | ".toList = '\n' :: caretGutter := rfl
  rw [block?, h, Option.map_some]
  simp only [hbar, hcarets, Location.gutter, Text.firstLine, List.append_assoc, List.cons_append,
    List.nil_append]

/-- As many carets as the span has characters before its first line break, but at least one, stand
side by side in the last line of a block.  Those characters stand side by side in the line above,
but further right: by one column if the number of the line has up to three digits, and by one more
for every other digit. -/
theorem block?_carets (hcuts : s.Cuts text) (label message : Text) :
    ∃ (place : Location) (inside block line carets : Text) (shownAt caretsAt : Nat),
      s.locate? text = some place ∧ s.slice? text = some inside ∧
      s.block? text label message = some block ∧ [line, carets] <:+ block.splitOn '\n' ∧
      line = place.gutter ++ place.content ∧ shownAt = place.gutter.length + place.column ∧
      Text.StandsAt (Text.firstLine inside) line shownAt ∧
      carets.count '^' = max 1 (Text.firstLine inside).length ∧
      Text.StandsAt (List.replicate (carets.count '^') '^') carets caretsAt ∧
      shownAt = caretsAt + (max 3 (Text.ofNat place.line).length - 2) ∧
      (shownAt = caretsAt + 1 ↔ place.line < 1000) := by
  obtain ⟨place, inside, hplace, hinside, hstands⟩ := hcuts.exists_standsAt
  obtain ⟨heading, hblock⟩ := block?_eq hplace label message
  have hslice : s.slice text = inside := by rw [slice, hinside, Option.getD_some]
  rw [hslice] at hblock
  have hline : '\n' ∉ place.gutter ++ place.content := by
    have hcontent := (locate?_eq_some_iff.mp hplace).not_mem
    simp [place.not_mem_gutter, hcontent]
  -- the gutters differ by what the number takes beyond two columns
  have hdigits : (Text.ofNat place.line).length ≤ 3 ↔ place.line < 1000 :=
    Text.length_ofNat_le_three_iff
  have hgutter := place.length_gutter
  refine ⟨place, inside, _, place.gutter ++ place.content,
    caretGutter ++ underline place.column (Text.firstLine inside),
    place.gutter.length + place.column, caretGutter.length + place.column,
    hplace, hinside, hblock, ?_, rfl, rfl, hstands.append_left _, count_carets _ _, ?_, ?_, ?_⟩
  · rw [List.splitOn_append_cons_self, Text.splitOn_append_newline hline (not_mem_carets _ _)]
    exact List.suffix_append _ _
  · rw [count_carets]
    exact standsAt_carets _ _
  · omega
  · omega

/-- A span over two lines, behind a character of two bytes and from one of three: two carets, one
column to the left of the two characters of the first line. -/
theorem block?_carets_broken :
    let s : Span := ⟨4, 10⟩
    let text : Text := "é\na€b\nc".toList
    s.Cuts text ∧ s.slice? text = some "€b\nc".toList ∧
      ∃ block line carets : Text, s.block? text "note".toList "m".toList = some block ∧
        [line, carets] <:+ block.splitOn '\n' ∧ Text.StandsAt ['€', 'b'] line 7 ∧
        carets.count '^' = 2 ∧ Text.StandsAt ['^', '^'] carets 6 := by
  intro s text
  have hcuts : s.Cuts text := ⟨"é\na".toList, "€b\nc".toList, [], rfl, rfl, rfl⟩
  have hlocated : s.locate? text = some ⟨2, 1, ['a', '€', 'b']⟩ := rfl
  have hsliced : s.slice? text = some "€b\nc".toList := rfl
  obtain ⟨place, inside, block, line, carets, shownAt, caretsAt, hplace, hinside, hblock, hlines,
    -, hshownAt, hshown, hcount, hcarets, hleft, -⟩ :=
    block?_carets hcuts "note".toList "m".toList
  obtain rfl := Option.some.inj (hlocated.symm.trans hplace)
  obtain rfl := Option.some.inj (hsliced.symm.trans hinside)
  obtain rfl : shownAt = 7 := hshownAt
  obtain rfl : 6 = caretsAt := Nat.succ.inj hleft
  have htwo : carets.count '^' = 2 := hcount
  rw [htwo] at hcarets
  exact ⟨hcuts, hsliced, block, line, carets, hblock, hlines, hshown, htwo, hcarets⟩

/-- In a text of one line, a reference stands in the block from column 11 on, and its carets from
column 10 on. -/
theorem block?_carets_aside :
    let s : Span := ⟨5, 14⟩
    let text : Text := "echo $\x7bPREFIX\x7d".toList
    let line : Text := "  1 | echo $\x7bPREFIX\x7d".toList
    let carets : Text := "   |      ^^^^^^^^^".toList
    s.Cuts text ∧
      (∃ block, s.block? text "warning".toList "m".toList = some block ∧
        [line, carets] <:+ block.splitOn '\n') ∧
      ∃ reference, s.slice? text = some reference ∧ Text.StandsAt reference line 11 ∧
        reference.length = 9 ∧ carets.count '^' = 9 ∧
        Text.StandsAt (List.replicate 9 '^') carets 10 := by
  intro s text line carets
  have hcuts : s.Cuts text := ⟨"echo ".toList, "$\x7bPREFIX\x7d".toList, [], rfl, rfl, rfl⟩
  have hlines : [line, carets] <:+
      ("warning: m\n  --> line 1, column 6\n   |\n".toList ++ line ++ '\n' :: carets).splitOn '\n' :=
    ⟨["warning: m".toList, "  --> line 1, column 6".toList, "   |".toList], rfl⟩
  refine ⟨hcuts, ⟨_, rfl, hlines⟩, "$\x7bPREFIX\x7d".toList, rfl, ?_, rfl, rfl, ?_⟩
  · exact ⟨"  1 | echo ".toList, [], rfl, rfl⟩
  · exact ⟨"   |      ".toList, [], rfl, rfl⟩

end Span

end RecipeLint

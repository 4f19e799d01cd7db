import RecipeLint.Proofs.Text.Cuts
import RecipeLint.Proofs.Text.Pieces
import RecipeLint.Span.Excerpt

/-!
# Locations

Line breaks split a text into pieces.  A location names one of them by its number and a place in it
by the characters in front, so it belongs to one byte position: the size of the pieces before, with
a line break behind each, and of those characters.  Where a span starts there is one location, and
that is the one which is shown.
-/

namespace RecipeLint.Span

variable {s : Span} {text : Text} {place : Location} {position : Nat}

/-- The place that a byte position has in a text.  Its line is the piece with that number, counted
from one, and the position is what the pieces before, their line breaks and the characters in front
of its column add up to. -/
structure Location.Marks (place : Location) (text : Text) (position : Nat) : Prop where
  line_pos : 0 < place.line
  piece : (text.splitOn '\n')[place.line - 1]? = some place.content
  not_mem : '\n' ∉ place.content
  column_le : place.column ≤ place.content.length
  byteSize : Text.byteSize (Text.ofLines ((text.splitOn '\n').take (place.line - 1))) +
    Text.byteSize (place.content.take place.column) = position

/-! ## Points and their locations -/

def Location.ofPoint (p : Text.Point) : Location :=
  ⟨p.lines.length + 1, p.head.length, p.line⟩

theorem Location.marks_ofPoint (p : Text.Point) :
    (ofPoint p).Marks (p.front ++ p.after) (Text.byteSize p.front) where
  line_pos := Nat.succ_pos _
  piece := p.getElem?_splitOn
  not_mem := Text.not_mem_of_mem_splitOn (List.mem_of_getElem? p.getElem?_splitOn)
  column_le := by simp [ofPoint, Text.Point.line]
  byteSize := by
    rw [ofPoint, Nat.add_sub_cancel, p.splitOn_eq, List.take_left, Text.Point.line, List.take_left]
    exact (Text.byteSize_append _ _).symm

theorem Location.Marks.exists_point (h : place.Marks text position) :
    ∃ p : Text.Point, text = p.front ++ p.after ∧ Text.byteSize p.front = position ∧
      place = .ofPoint p := by
  obtain ⟨line, column, content⟩ := place
  obtain ⟨hpos, hpiece, -, hcolumn, hsize⟩ := h
  dsimp only at hpos hpiece hcolumn hsize
  obtain ⟨p, htext, hlines, hhead, hline⟩ := Text.Point.exists_of_getElem? hpiece column
  have hlength : p.lines.length + 1 = line := by
    obtain ⟨hlt, -⟩ := List.getElem?_eq_some_iff.mp hpiece
    rw [hlines, List.length_take]
    omega
  refine ⟨p, htext, ?_, ?_⟩
  · rw [Text.Point.front, Text.byteSize_append, hlines, hhead, hsize]
  · rw [ofPoint, hlength, hhead, List.length_take_of_le hcolumn, hline]

theorem locate?_ofPoint {p : Text.Point} (h : s.around? text = some (p.front, p.after)) :
    s.locate? text = some (.ofPoint p) := by
  have hback := p.firstLine_reverse_front
  rw [locate?, h, Option.map_some]
  unfold Text.firstLine at hback
  simp only [hback, p.count_front]
  rfl

/-! ## Where a span starts -/

theorem around?_eq_some_iff {front after : Text} : s.around? text = some (front, after) ↔
    text = front ++ after ∧ Text.byteSize front = min s.start (Text.byteSize text) := by
  refine ⟨Text.append_of_splitAtByte?, ?_⟩
  rintro ⟨htext, hsize⟩
  rw [around?, ← hsize]
  conv_lhs => rw [htext]
  exact Text.splitAtByte?_byteSize front after

theorem Cuts.exists_eq (h : s.Cuts text) : ∃ front inside behind,
    text = front ++ inside ++ behind ∧
      s = ⟨Text.byteSize front, Text.byteSize (front ++ inside)⟩ := by
  obtain ⟨front, inside, behind, htext, hstart, hstop⟩ := h
  exact ⟨front, inside, behind, htext, congrArg₂ Span.mk hstart hstop⟩

theorem around?_cut (front inside behind : Text) :
    (Span.mk (Text.byteSize front) (Text.byteSize (front ++ inside))).around?
      (front ++ inside ++ behind) = some (front, inside ++ behind) := by
  rw [around?_eq_some_iff]
  simp

theorem locate?_eq_some_iff : s.locate? text = some place ↔
    place.Marks text (min s.start (Text.byteSize text)) := by
  constructor
  · intro h
    obtain ⟨⟨front, after⟩, haround, -⟩ := Option.map_eq_some_iff.mp h
    obtain ⟨p, rfl, rfl⟩ := Text.Point.exists_of_append front after
    obtain ⟨htext, hsize⟩ := around?_eq_some_iff.mp haround
    obtain rfl := Option.some.inj ((locate?_ofPoint haround).symm.trans h)
    rw [← hsize]
    conv => arg 2; rw [htext]
    exact Location.marks_ofPoint p
  · intro h
    obtain ⟨p, htext, hsize, rfl⟩ := h.exists_point
    exact locate?_ofPoint (around?_eq_some_iff.mpr ⟨htext, hsize⟩)

/-- A span that starts between characters of a text, or beyond its end, has a location, which is
the only one that belongs to the position. -/
theorem exists_locate? (h : (∃ front after, text = front ++ after ∧ s.start = Text.byteSize front) ∨
      Text.byteSize text ≤ s.start) :
    ∃ place, s.locate? text = some place ∧
      place.Marks text (min s.start (Text.byteSize text)) ∧
      ∀ other : Location, other.Marks text (min s.start (Text.byteSize text)) → other = place := by
  obtain ⟨front, after, htext, hsize⟩ : ∃ front after, text = front ++ after ∧
      Text.byteSize front = min s.start (Text.byteSize text) := by
    rcases h with ⟨front, after, rfl, hstart⟩ | hend
    · refine ⟨front, after, rfl, ?_⟩
      rw [hstart, Text.byteSize_append]
      omega
    · exact ⟨text, [], (List.append_nil text).symm, (Nat.min_eq_right hend).symm⟩
  obtain ⟨p, rfl, rfl⟩ := Text.Point.exists_of_append front after
  have hplace := locate?_ofPoint (around?_eq_some_iff.mpr ⟨htext, hsize⟩)
  refine ⟨.ofPoint p, hplace, locate?_eq_some_iff.mp hplace, fun other hother => ?_⟩
  exact Option.some.inj ((locate?_eq_some_iff.mpr hother).symm.trans hplace)

/-- Behind a character of two bytes in the second of three lines. -/
theorem exists_locate?_second :
    let s : Span := ⟨5, 9⟩
    let text : Text := "ab\né$c\nd".toList
    (∃ front after, text = front ++ after ∧ s.start = Text.byteSize front) ∧
      s.locate? text = some ⟨2, 1, "é$c".toList⟩ ∧
      Location.Marks ⟨2, 1, "é$c".toList⟩ text 5 ∧
      ∀ other : Location, other.Marks text 5 → other = ⟨2, 1, "é$c".toList⟩ := by
  intro s text
  have hstart : ∃ front after, text = front ++ after ∧ s.start = Text.byteSize front :=
    ⟨"ab\né".toList, "$c\nd".toList, rfl, rfl⟩
  have hlocated : s.locate? text = some ⟨2, 1, "é$c".toList⟩ := rfl
  obtain ⟨place, hplace, hmarks, hunique⟩ := exists_locate? (.inl hstart)
  obtain rfl := Option.some.inj (hlocated.symm.trans hplace)
  exact ⟨hstart, hlocated, hmarks, hunique⟩

end RecipeLint.Span

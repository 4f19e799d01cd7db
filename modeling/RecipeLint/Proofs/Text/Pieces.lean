import Mathlib.Data.List.Induction
import RecipeLint.Text.Basic

/-!
# Pieces between line breaks

A point of a text has whole lines in front of it and stands in a line of its own.  Seen from there,
looking back to the last line break gives the start of that line and looking ahead to the next one
its end, and together they are the piece that splitting the text has at this place.
-/

namespace RecipeLint.Text

def ofLines (lines : List Text) : Text :=
  lines.flatMap (· ++ ['\n'])

def firstLine (text : Text) : Text :=
  text.takeWhile (· != '\n')

variable {lines : List Text} {text head : Text}

/-! ## Lines -/

@[simp] theorem ofLines_nil : ofLines [] = [] := rfl

@[simp] theorem ofLines_cons (line : Text) (lines : List Text) :
    ofLines (line :: lines) = line ++ '\n' :: ofLines lines := by
  simp [ofLines]

theorem ofLines_concat (lines : List Text) (line : Text) :
    ofLines (lines ++ [line]) = ofLines lines ++ line ++ ['\n'] := by
  simp [ofLines]

theorem count_ofLines (hlines : ∀ line ∈ lines, '\n' ∉ line) :
    (ofLines lines).count '\n' = lines.length := by
  induction lines with
  | nil => rfl
  | cons line lines ih =>
    obtain ⟨hline, hlines⟩ := List.forall_mem_cons.mp hlines
    rw [ofLines_cons, List.count_append, List.count_eq_zero.mpr hline, List.count_cons_self,
      ih hlines, List.length_cons, Nat.zero_add]

theorem splitOn_ofLines (hlines : ∀ line ∈ lines, '\n' ∉ line) (rest : Text) :
    (ofLines lines ++ rest).splitOn '\n' = lines ++ rest.splitOn '\n' := by
  induction lines with
  | nil => rfl
  | cons line lines ih =>
    obtain ⟨hline, hlines⟩ := List.forall_mem_cons.mp hlines
    rw [ofLines_cons, List.append_assoc, List.cons_append,
      List.splitOn_append_cons_self_of_not_mem hline, ih hlines, List.cons_append]

theorem splitOn_append_newline {line below : Text} (hline : '\n' ∉ line) (hbelow : '\n' ∉ below) :
    (line ++ '\n' :: below).splitOn '\n' = [line, below] := by
  rw [List.splitOn_append_cons_self_of_not_mem hline, List.splitOn_eq_singleton hbelow]

/-! ## The first line -/

@[simp] theorem firstLine_nil : firstLine [] = [] := rfl

@[simp] theorem firstLine_newline (text : Text) : firstLine ('\n' :: text) = [] := rfl

theorem firstLine_append_of_not_mem (hhead : '\n' ∉ head) (rest : Text) :
    firstLine (head ++ rest) = head ++ firstLine rest := by
  refine List.takeWhile_append_of_pos fun c hc => ?_
  simpa using ne_of_mem_of_not_mem hc hhead

theorem firstLine_of_not_mem (hhead : '\n' ∉ head) : firstLine head = head := by
  simpa using firstLine_append_of_not_mem hhead []

theorem head?_splitOn (text : Text) : (text.splitOn '\n').head? = some text.firstLine := by
  unfold firstLine
  induction text with
  | nil => rfl
  | cons c text ih =>
    rw [List.splitOn_cons_eq_if_modifyHead]
    by_cases hc : c = '\n'
    · simp [hc]
    · simp [hc, List.head?_modifyHead, ih]

theorem exists_firstLine_append (text behind : Text) :
    ∃ after, firstLine (text ++ behind) = firstLine text ++ after := by
  by_cases hmem : '\n' ∈ text
  · obtain ⟨line, rest, rfl, hline⟩ := List.eq_append_cons_of_mem hmem
    refine ⟨[], ?_⟩
    rw [List.append_assoc, firstLine_append_of_not_mem hline, firstLine_append_of_not_mem hline]
    simp
  · exact ⟨firstLine behind, by
      rw [firstLine_append_of_not_mem hmem, firstLine_of_not_mem hmem]⟩

/-! ## Points -/

/-- A point of a text: the whole lines in front of it, the start of its own line, and what
follows. -/
structure Point where
  lines : List Text
  head : Text
  after : Text
  lines_unbroken : ∀ line ∈ lines, '\n' ∉ line
  head_unbroken : '\n' ∉ head

namespace Point

def front (p : Point) : Text := ofLines p.lines ++ p.head

def line (p : Point) : Text := p.head ++ firstLine p.after

theorem exists_of_append (front after : Text) : ∃ p : Point, p.front = front ∧ p.after = after := by
  -- from the right, as it is the last line that is still open
  induction front using List.reverseRecOn with
  | nil => exact ⟨⟨[], [], after, by simp, by simp⟩, rfl, rfl⟩
  | append_singleton front c ih =>
    obtain ⟨⟨lines, head, after, hlines, hhead⟩, rfl, rfl⟩ := ih
    by_cases hc : c = '\n'
    · have hconcat : ∀ line ∈ lines ++ [head], '\n' ∉ line := by
        simpa [or_imp, forall_and] using ⟨hlines, hhead⟩
      refine ⟨⟨lines ++ [head], [], after, hconcat, by simp⟩, ?_, rfl⟩
      rw [Point.front, ofLines_concat, List.append_nil, hc, Point.front]
    · have hconcat : '\n' ∉ head ++ [c] := by simp [hhead, Ne.symm hc]
      exact ⟨⟨lines, head ++ [c], after, hlines, hconcat⟩, (List.append_assoc ..).symm, rfl⟩

theorem count_front (p : Point) : p.front.count '\n' = p.lines.length := by
  rw [front, List.count_append, count_ofLines p.lines_unbroken,
    List.count_eq_zero.mpr p.head_unbroken, Nat.add_zero]

theorem firstLine_reverse_front (p : Point) : (firstLine p.front.reverse).reverse = p.head := by
  have hhead : '\n' ∉ p.head.reverse := fun hmem => p.head_unbroken (List.mem_reverse.mp hmem)
  -- read backwards, the lines in front are empty or begin with a line break
  have hlines : firstLine (ofLines p.lines).reverse = [] := by
    cases p.lines using List.reverseRecOn with
    | nil => rfl
    | append_singleton lines line => simp [ofLines_concat]
  rw [front, List.reverse_append, firstLine_append_of_not_mem hhead, hlines, List.append_nil,
    List.reverse_reverse]

theorem splitOn_eq (p : Point) :
    (p.front ++ p.after).splitOn '\n' = p.lines ++ (p.head ++ p.after).splitOn '\n' := by
  rw [front, List.append_assoc, splitOn_ofLines p.lines_unbroken]

theorem getElem?_splitOn (p : Point) :
    ((p.front ++ p.after).splitOn '\n')[p.lines.length]? = some p.line := by
  rw [p.splitOn_eq, List.getElem?_append_right (Nat.le_refl _), Nat.sub_self,
    ← List.head?_eq_getElem?, head?_splitOn, firstLine_append_of_not_mem p.head_unbroken, line]

end Point

theorem not_mem_of_mem_splitOn {piece : Text} (h : piece ∈ text.splitOn '\n') : '\n' ∉ piece := by
  obtain ⟨p, rfl, hafter⟩ := Point.exists_of_append text []
  rw [← List.append_nil p.front, ← hafter, p.splitOn_eq, hafter, List.append_nil,
    List.splitOn_eq_singleton p.head_unbroken] at h
  rcases List.mem_append.mp h with hline | hlast
  · exact p.lines_unbroken piece hline
  · rw [List.mem_singleton.mp hlast]
    exact p.head_unbroken

theorem exists_intercalate_eq (lines : List Text) (piece : Text) (more : List Text) :
    ∃ behind, ['\n'].intercalate (lines ++ piece :: more) = ofLines lines ++ piece ++ behind ∧
      firstLine behind = [] := by
  induction lines with
  | nil =>
    cases more with
    | nil => exact ⟨[], by simp⟩
    | cons next more => exact ⟨'\n' :: ['\n'].intercalate (next :: more), by simp⟩
  | cons line lines ih =>
    obtain ⟨behind, heq, hbehind⟩ := ih
    refine ⟨behind, ?_, hbehind⟩
    obtain ⟨next, rest, hnext⟩ := List.exists_cons_of_ne_nil (l := lines ++ piece :: more) (by simp)
    rw [List.cons_append, hnext, List.intercalate_cons_cons, ← hnext, heq]
    simp

/-- Each place in a piece is a point of the text, with the pieces before as lines in front. -/
theorem Point.exists_of_getElem? {n : Nat} {piece : Text}
    (h : (text.splitOn '\n')[n]? = some piece) (column : Nat) :
    ∃ p : Point, text = p.front ++ p.after ∧ p.lines = (text.splitOn '\n').take n ∧
      p.head = piece.take column ∧ p.line = piece := by
  obtain ⟨hlt, hget⟩ := List.getElem?_eq_some_iff.mp h
  obtain ⟨behind, heq, hbehind⟩ := exists_intercalate_eq ((text.splitOn '\n').take n) piece
    ((text.splitOn '\n').drop (n + 1))
  rw [← hget, ← List.drop_eq_getElem_cons hlt, List.take_append_drop, List.intercalate_splitOn,
    hget] at heq
  have hpiece : '\n' ∉ piece := not_mem_of_mem_splitOn (List.mem_of_getElem? h)
  have htail : firstLine (piece.drop column ++ behind) = piece.drop column := by
    have hdrop : '\n' ∉ piece.drop column := fun hmem => hpiece (List.mem_of_mem_drop hmem)
    rw [firstLine_append_of_not_mem hdrop, hbehind, List.append_nil]
  refine ⟨⟨(text.splitOn '\n').take n, piece.take column, piece.drop column ++ behind,
    fun line hmem => not_mem_of_mem_splitOn (List.mem_of_mem_take hmem),
    fun hmem => hpiece (List.mem_of_mem_take hmem)⟩, ?_, rfl, rfl, ?_⟩
  · calc text
        = ofLines ((text.splitOn '\n').take n) ++ piece ++ behind := heq
      _ = ofLines ((text.splitOn '\n').take n) ++ (piece.take column ++ piece.drop column) ++
            behind := by rw [List.take_append_drop]
      _ = _ := by simp only [Point.front, List.append_assoc]
  · rw [Point.line, htail, List.take_append_drop]

end RecipeLint.Text

import RecipeLint.Proofs.Lexer.Step

/-!
# The atoms tile the text

Splitting a text loses nothing and invents nothing: the atoms are its characters, in pieces that
stand one behind the other from the first byte to the last.
-/

namespace RecipeLint

namespace Atom

/-- Each atom has some character, and covers the bytes of its characters behind those of the atoms
before it. -/
def Tile : Nat → List Atom → Prop
  | _, [] => True
  | position, a :: atoms =>
    a.text ≠ [] ∧ a.span = ⟨position, position + Text.byteSize a.text⟩ ∧ Tile a.span.stop atoms

/-- The spans of the atoms lead from one position to another, each starting where the one before
stops. -/
def Cover : Nat → List Atom → Nat → Prop
  | position, [], stop => position = stop
  | position, a :: atoms, stop =>
    a.span.start = position ∧ a.span.start < a.span.stop ∧ Cover a.span.stop atoms stop

theorem Tile.cover {position : Nat} {atoms : List Atom} (h : Tile position atoms) :
    Cover position atoms (position + Text.byteSize (atoms.flatMap Atom.text)) := by
  induction atoms generalizing position with
  | nil => rfl
  | cons a atoms ih =>
    obtain ⟨hne, hspan, hrest⟩ := h
    have hpos := Text.byteSize_pos hne
    have hstart : a.span.start = position := by rw [hspan]
    have hstop : a.span.stop = position + Text.byteSize a.text := by rw [hspan]
    refine ⟨hstart, by omega, ?_⟩
    have hcover := ih hrest
    rw [List.flatMap_cons, Text.byteSize_append, ← Nat.add_assoc, ← hstop]
    exact hcover

theorem Tile.cut_of_mem {position : Nat} {atoms : List Atom} (h : Tile position atoms) {a : Atom}
    (ha : a ∈ atoms) :
    a.text ≠ [] ∧ ∃ front behind, atoms.flatMap Atom.text = front ++ a.text ++ behind ∧
      a.span.start = position + Text.byteSize front ∧
      a.span.stop = position + Text.byteSize (front ++ a.text) := by
  induction atoms generalizing position with
  | nil => simp at ha
  | cons b atoms ih =>
    obtain ⟨hne, hspan, hrest⟩ := h
    rcases List.mem_cons.mp ha with rfl | ha
    · exact ⟨hne, [], atoms.flatMap Atom.text, by simp, by simp [hspan], by simp [hspan]⟩
    · obtain ⟨hne, front, behind, htext, hstart, hstop⟩ := ih hrest ha
      have hfirst : b.span.stop = position + Text.byteSize b.text := by rw [hspan]
      refine ⟨hne, b.text ++ front, behind, by simp [htext], ?_, ?_⟩
      · rw [hstart, hfirst, Text.byteSize_append, Nat.add_assoc]
      · rw [hstop, hfirst, List.append_assoc, Text.byteSize_append b.text, Nat.add_assoc]

end Atom

namespace Lexer

theorem run_of_rest_nil {l : Lexer} (h : l.rest = []) : l.run = ([], l.finish) := by
  rw [run]
  split
  case h_1 => rfl
  case h_2 c rest hrest => simp [h] at hrest

theorem run_of_rest_cons {l : Lexer} {c : Char} {rest : Text} (h : l.rest = c :: rest) :
    l.run = ((l.advance c rest).1 :: (l.advance c rest).2.run.1, (l.advance c rest).2.run.2) := by
  rw [run]
  split
  case h_1 hrest => simp [h] at hrest
  case h_2 c' rest' hrest =>
    obtain ⟨rfl, rfl⟩ := List.cons.inj (h.symm.trans hrest)
    rfl

/-- The first atom of a run is the first step. -/
theorem exists_advance_of_run {l : Lexer} {a : Atom} {atoms : List Atom}
    (h : l.run.1 = a :: atoms) :
    ∃ c rest, l.rest = c :: rest ∧ (l.advance c rest).1 = a ∧
      (l.advance c rest).2.run.1 = atoms := by
  cases hrest : l.rest with
  | nil => simp [run_of_rest_nil hrest] at h
  | cons c rest =>
    rw [run_of_rest_cons hrest] at h
    obtain ⟨ha, hatoms⟩ := List.cons.inj h
    exact ⟨c, rest, rfl, ha, hatoms⟩

theorem advance_text (l : Lexer) (c : Char) (rest : Text) :
    (l.advance c rest).1.text ++ (l.advance c rest).2.rest = c :: rest := by
  simp [advance]

theorem flatMap_text_run (l : Lexer) : l.run.1.flatMap Atom.text = l.rest := by
  fun_induction run l with
  | case1 l hrest => simp [hrest]
  | case2 l c rest hrest step atoms last hrun ih =>
    rw [hrun] at ih
    rw [List.flatMap_cons, ih, advance_text, hrest]

theorem flatMap_text_advance (l : Lexer) (c : Char) (rest : Text) :
    ((l.advance c rest).1 :: (l.advance c rest).2.run.1).flatMap Atom.text = c :: rest := by
  rw [List.flatMap_cons, flatMap_text_run, advance_text]

theorem tile_run (l : Lexer) : Atom.Tile l.position l.run.1 := by
  fun_induction run l with
  | case1 l hrest => trivial
  | case2 l c rest hrest step atoms last hrun ih =>
    rw [hrun] at ih
    exact ⟨by simp [step, advance], rfl, ih⟩

end Lexer

theorem lex_tile (text : Text) (q : Quoting) : Atom.Tile 0 (lex text q).atoms :=
  (Lexer.start text q).tile_run

theorem flatMap_text_lex (text : Text) (q : Quoting) :
    (lex text q).atoms.flatMap Atom.text = text :=
  (Lexer.start text q).flatMap_text_run

theorem exists_cut_of_mem_lex {text : Text} {q : Quoting} {a : Atom}
    (ha : a ∈ (lex text q).atoms) :
    a.text ≠ [] ∧ ∃ front behind, text = front ++ a.text ++ behind ∧
      a.span = ⟨Text.byteSize front, Text.byteSize (front ++ a.text)⟩ := by
  obtain ⟨hne, front, behind, hcut, hstart, hstop⟩ := (lex_tile text q).cut_of_mem ha
  rw [flatMap_text_lex] at hcut
  rw [Nat.zero_add] at hstart hstop
  refine ⟨hne, front, behind, hcut, ?_⟩
  rw [← hstart, ← hstop]

theorem span_of_mem_lex {text : Text} {q : Quoting} {a : Atom} (ha : a ∈ (lex text q).atoms) :
    a.span.start < a.span.stop ∧ a.span.stop ≤ Text.byteSize text := by
  obtain ⟨hne, front, behind, hcut, hspan⟩ := exists_cut_of_mem_lex ha
  have hpos := Text.byteSize_pos hne
  have hsize := congrArg Text.byteSize hcut
  simp only [Text.byteSize_append] at hsize hspan
  rw [hspan]
  dsimp only
  omega

/-- The atoms are the text cut up from its first byte to its last, between characters, and none is
empty. No step had to be held back to get there, however badly the text is formed: what is read as
an atom, an operator, a shell variable or a reference takes at least one of the characters that are
left, and no more than there are. -/
theorem lex_tiles (text : Text) (q : Quoting) :
    Atom.Cover 0 (lex text q).atoms (Text.byteSize text) ∧
    (∀ a ∈ (lex text q).atoms, a.text ≠ [] ∧ (Text.splitAtByte? a.span.start text).isSome ∧
      (Text.splitAtByte? a.span.stop text).isSome ∧ a.span.slice? text = some a.text) ∧
    (lex text q).atoms.flatMap Atom.text = text ∧
    (∀ q wordStart c rest, (AtomReading.read q wordStart c rest).more ≤ rest.length) ∧
    (∀ rest n op, Operator.read? rest = some (n, op) → Text.Takes n rest) ∧
    (∀ rest n name, ShellVariable.read? rest = some (n, name) → Text.Takes n rest) ∧
    ∀ rest, (Reference.read ('$' :: rest)).outcome ≠ .ok none →
      Text.Takes (Reference.read ('$' :: rest)).taken ('$' :: rest) := by
  refine ⟨?_, fun a ha => ?_, flatMap_text_lex text q, fun q wordStart c rest => ?_,
    fun rest n op hread => ?_, fun rest n name hread => ?_, fun rest hne => ?_⟩
  · have hcover := (lex_tile text q).cover
    rwa [flatMap_text_lex, Nat.zero_add] at hcover
  · obtain ⟨hne, front, behind, hcut, hspan⟩ := exists_cut_of_mem_lex ha
    refine ⟨hne, ?_, ?_, ?_⟩
    · rw [hspan, hcut, List.append_assoc, Text.splitAtByte?_byteSize]
      rfl
    · rw [hspan, hcut, Text.splitAtByte?_byteSize]
      rfl
    · rw [hspan, hcut]
      exact Span.slice?_eq front a.text behind
  · exact (AtomReading.read_fits q wordStart c rest).more_le
  · exact Operator.takes_of_read? hread
  · exact ShellVariable.takes_of_read? hread
  · exact ⟨Reference.taken_pos_readWithin maxNesting _ hne, Reference.taken_le_read rest⟩

end RecipeLint

import RecipeLint.Proofs.Lexer.Backticks

/-!
# Comments

A number sign starts a comment where a word may start, on the line itself or directly in a backtick
command.  The comment takes all that is left of that command: on the line itself the rest of the
text, in backticks everything up to the closing one.  Line breaks are a part of it like any other
character, so what stands on the lines behind is hidden with it.
-/

namespace RecipeLint

/-- What is left of the command in front of which a text stands: all of it on the line itself, and
else what comes before the closing backtick. -/
def Quoting.restOfCommand (q : Quoting) (text : Text) : Text :=
  if q.inBackticks then text.takeWhile (· != '\x60') else text

theorem Text.eq_false_of_drop_takeWhile {p : Char → Bool} {text : Text} {c : Char} {behind : Text}
    (h : text.drop (text.takeWhile p).length = c :: behind) : p c = false := by
  induction text with
  | nil => simp at h
  | cons d text ih =>
    by_cases hd : p d
    · exact ih (by simpa [hd] using h)
    · obtain ⟨rfl, -⟩ := List.cons.inj (by simpa [hd] using h)
      simpa using hd

theorem Quoting.exists_next?_backtick {q : Quoting} (hq : q.allowsOperators)
    (hbackticks : q.inBackticks) :
    ∃ next, q.next? '\x60' = some next ∧ next.inBackticks = false := by
  rcases q.allowsOperators_iff.mp hq with rfl | rfl | rfl
  · simp [inBackticks] at hbackticks
  · exact ⟨.plain, rfl, rfl⟩
  · exact ⟨.double, rfl, rfl⟩

def Atom.ClosesBackticks (a : Atom) : Prop :=
  a.quoting.inBackticks ∧ a.quotingBehind.inBackticks = false

/-! ## Where a word may start -/

def Atom.startsWord (a : Atom) : Bool :=
  Lexer.startsWord a.kind a.quoting a.quotingBehind

namespace Lexer

/-- The flag of the lexer is what the atom says that was read last. -/
theorem wordStart_advance (l : Lexer) (c : Char) (rest : Text) :
    (l.advance c rest).2.wordStart = (l.advance c rest).1.startsWord := by
  rw [Atom.startsWord, (l.advance_agrees c rest).2.2]
  rfl

/-- Each atom of a run is a step of its own, and the atom before it tells whether a word may start
there. -/
theorem exists_step_of_run {l : Lexer} {before behind : List Atom} {a : Atom}
    (hrun : l.run.1 = before ++ a :: behind) :
    ∃ (m : Lexer) (c : Char) (rest : Text), m.rest = c :: rest ∧ (m.advance c rest).1 = a ∧
      (m.advance c rest).2.run.1 = behind ∧
      m.wordStart = (before.getLast?.map Atom.startsWord).getD l.wordStart := by
  induction before generalizing l with
  | nil =>
    obtain ⟨c, rest, hrest, ha, hbehind⟩ := exists_advance_of_run hrun
    exact ⟨l, c, rest, hrest, ha, hbehind, rfl⟩
  | cons b before ih =>
    obtain ⟨c, rest, -, hb, hrun⟩ := exists_advance_of_run hrun
    obtain ⟨m, d, more, hrest, ha, hbehind, hstart⟩ := ih hrun
    refine ⟨m, d, more, hrest, ha, hbehind, ?_⟩
    rw [hstart, wordStart_advance, hb, List.getLast?_cons]
    cases before.getLast? <;> rfl

end Lexer

/-! ## One step -/

namespace AtomReading

variable {q : Quoting} {wordStart : Bool} {c : Char} {rest : Text}

theorem read_comment (hq : q.allowsOperators) (rest : Text) : read q true '#' rest =
    ⟨.comment, if q.inBackticks then (rest.takeWhile (· != '\x60')).length else rest.length, [],
      q⟩ := by
  have hop : Operator.read? ('#' :: rest) = none := rfl
  have hnext : q.next? '#' = none := Quoting.next?_of_isLiteral (by cases q <;> rfl)
  simp [read, ofBlank, hq, hop, hnext]

theorem of_comment (h : (read q wordStart c rest).kind = .comment) :
    c = '#' ∧ wordStart ∧ q.allowsOperators := by
  unfold read at h
  split_ifs at h with hdollar hq
  · have hseparator := isSeparator_ofDollar q rest
    rw [h] at hseparator
    exact absurd hseparator.symm Bool.false_ne_true
  · cases hop : Operator.read? (c :: rest) with
    | some found => simp [hop] at h
    | none =>
      cases hnext : q.next? c with
      | some next => simp [hop, hnext] at h
      | none =>
        simp only [hop, hnext, ofBlank] at h
        split_ifs at h with hblank hcomment hbackticks
        · exact ⟨hcomment.1, hcomment.2, hq⟩
        · exact ⟨hcomment.1, hcomment.2, hq⟩
        · simp [ofText_kind] at h
  · cases hnext : q.next? c <;> simp [hnext, ofText_kind] at h

end AtomReading

namespace Lexer

variable {l : Lexer} {c : Char} {rest : Text}

/-- A step reads a comment from a number sign where a word may start. -/
theorem comment_advance_iff : (l.advance c rest).1.kind = .comment ↔
    c = '#' ∧ l.wordStart ∧ l.quoting.allowsOperators := by
  refine ⟨AtomReading.of_comment, ?_⟩
  rintro ⟨rfl, hstart, hq⟩
  simp only [advance, hstart, AtomReading.read_comment hq]

theorem text_advance_comment (h : (l.advance c rest).1.kind = .comment) :
    (l.advance c rest).1.text = l.quoting.restOfCommand (c :: rest) := by
  obtain ⟨rfl, hstart, hq⟩ := comment_advance_iff.mp h
  simp only [advance, hstart, AtomReading.read_comment hq, Quoting.restOfCommand]
  split
  case isTrue =>
    rw [← List.prefix_iff_eq_take.mp (List.takeWhile_prefix _)]
    rfl
  case isFalse => rw [List.take_length]

/-- Behind a comment the text ends, or the backtick command does in which it stands. -/
theorem run_advance_comment (h : (l.advance c rest).1.kind = .comment) :
    (l.advance c rest).2.run.1 = [] ∨ ∃ closing behind,
      (l.advance c rest).2.run.1 = closing :: behind ∧ closing.ClosesBackticks := by
  obtain ⟨rfl, hstart, hq⟩ := comment_advance_iff.mp h
  have hrest : (l.advance '#' rest).2.rest = rest.drop
      (if l.quoting.inBackticks then (rest.takeWhile (· != '\x60')).length else rest.length) := by
    simp only [advance, hstart, AtomReading.read_comment hq]
  have hquoting : (l.advance '#' rest).2.quoting = l.quoting := by
    simp only [advance, hstart, AtomReading.read_comment hq]
  generalize (l.advance '#' rest).2 = m at hrest hquoting ⊢
  cases hm : m.rest with
  | nil => exact .inl (congrArg Prod.fst (run_of_rest_nil hm))
  | cons d behind =>
    rw [hm] at hrest
    split at hrest
    case isTrue hbackticks =>
      have hd : d = '\x60' := by simpa using Text.eq_false_of_drop_takeWhile hrest.symm
      subst hd
      obtain ⟨next, hnext, hclosed⟩ := Quoting.exists_next?_backtick hq hbackticks
      refine .inr ⟨_, _, congrArg Prod.fst (run_of_rest_cons hm), ?_, ?_⟩
      · change m.quoting.inBackticks
        rwa [hquoting]
      · rw [(m.advance_agrees _ _).2.2]
        simp only [advance, AtomReading.read_backtick (hquoting ▸ hnext), hclosed]
    case isFalse => simp [List.drop_length] at hrest

end Lexer

/-- What the comments of a text are, and what they hide.  A comment is what starts with a number sign
where operators have a meaning and a word may start.  It is all that is left of its command, and so
it hides a line break, with what stands on the lines behind, just if one is left.  Behind it the
text ends, or its backtick command does. -/
theorem lex_comment {text : Text} {q : Quoting} {before behind : List Atom} {a : Atom}
    (hatoms : (lex text q).atoms = before ++ a :: behind) :
    (a.kind = .comment ↔ a.text.head? = some '#' ∧ a.quoting.allowsOperators ∧
      ∀ b, before.getLast? = some b → b.startsWord) ∧
    (a.kind = .comment →
      a.text = a.quoting.restOfCommand ((a :: behind).flatMap Atom.text) ∧
      (behind = [] ∨ ∃ closing others, behind = closing :: others ∧ closing.ClosesBackticks)) := by
  obtain ⟨m, c, rest, hrest, rfl, rfl, hstart⟩ := (Lexer.start text q).exists_step_of_run hatoms
  refine ⟨?_, fun hkind => ⟨?_, Lexer.run_advance_comment hkind⟩⟩
  · have hword : m.wordStart ↔ ∀ b, before.getLast? = some b → b.startsWord := by
      rw [hstart]
      cases before.getLast? <;> simp [Lexer.start]
    rw [Lexer.comment_advance_iff, hword]
    exact and_congr (by simp [Lexer.advance]) and_comm
  · rw [Lexer.text_advance_comment hkind, Lexer.flatMap_text_advance]
    rfl

/-- In backticks a comment ends with its command, but takes a line break as well. -/
theorem lex_comment_backticks :
    ∃ before a behind, (lex ['\x60', '#', '\n', '\x60'] .plain).atoms = before ++ a :: behind ∧
      a.kind = .comment ∧ '\n' ∈ a.text ∧
      ∃ closing others, behind = closing :: others ∧ closing.ClosesBackticks := by
  have hatoms : (lex ['\x60', '#', '\n', '\x60'] .plain).atoms =
      [⟨.text, ['\x60'], ⟨0, 1⟩, .plain⟩] ++ ⟨.comment, ['#', '\n'], ⟨1, 3⟩, .backticks⟩ ::
        [⟨.text, ['\x60'], ⟨3, 4⟩, .backticks⟩] := by
    unfold lex
    rw [Lexer.run_of_rest_cons rfl, Lexer.run_of_rest_cons rfl, Lexer.run_of_rest_cons rfl,
      Lexer.run_of_rest_nil rfl]
    rfl
  obtain ⟨hcomment, hhides⟩ := lex_comment hatoms
  have hkind := hcomment.mpr ⟨rfl, rfl, fun b hb => Option.some.inj hb ▸ rfl⟩
  obtain ⟨htext, hend⟩ := hhides hkind
  exact ⟨_, _, _, hatoms, hkind, htext ▸ by decide, hend.resolve_left (by simp)⟩

/-- On the line itself a comment takes the line break and the reference on the next line. -/
theorem lex_comment_line_break :
    (lex ['#', '\n', '$', 'x'] .plain).atoms =
      [⟨.comment, ['#', '\n', '$', 'x'], ⟨0, 4⟩, .plain⟩] ∧
    (lex ['\n', '$', 'x'] .plain).atoms =
      [⟨.operator (.control .newline), ['\n'], ⟨0, 1⟩, .plain⟩,
        ⟨.reference (Reference.bareOf 'x'), ['$', 'x'], ⟨1, 3⟩, .plain⟩] := by
  constructor
  · unfold lex
    rw [Lexer.run_of_rest_cons rfl, Lexer.run_of_rest_nil rfl]
    rfl
  · unfold lex
    rw [Lexer.run_of_rest_cons rfl, Lexer.run_of_rest_cons (by with_unfolding_all rfl),
      Lexer.run_of_rest_nil (by with_unfolding_all rfl)]
    with_unfolding_all rfl

end RecipeLint

import RecipeLint.Proofs.Lexer.Replace

/-!
# Backtick commands on their own

A backtick command is split in the same way wherever it stands.  An opening backtick leads to the
start of a command, whatever the lexer has kept in mind, and no atom of the command sees more of the
line than its closing backtick.
-/

namespace RecipeLint

open Reading

def Text.inBackticks (command : Text) : Text :=
  '\x60' :: (command ++ ['\x60'])

/-! ## Backticks as seams -/

/-- Behind a dollar sign a backtick is taken for the name of a reference, so that nothing behind the
backtick matters. -/
theorem Reference.read_dollar_backtick (t t' : Text) :
    read ('$' :: '\x60' :: t') = read ('$' :: '\x60' :: t) :=
  rfl

theorem seam_backtick : Seam '\x60' :=
  ⟨by decide, fun _ _ t' htaken =>
    Reference.read_swap (by decide) Reference.read_dollar_backtick t' htaken⟩

/-! ## Opening and closing backticks -/

namespace Quoting

variable {c : Char}

theorem eq_backtick_of_opens (h : plain.next? c = some backticks) : c = '\x60' := by
  unfold next? at h
  split at h <;> simp_all

theorem eq_backtick_of_closes (h : backticks.next? c = some plain) : c = '\x60' := by
  unfold next? at h
  split at h <;> simp_all

end Quoting

namespace Atom

def OpensCommand (a : Atom) : Prop :=
  a.quoting = .plain ∧ a.quoteTo? = some .backticks

def ClosesCommand (a : Atom) : Prop :=
  a.quoting = .backticks ∧ a.quoteTo? = some .plain

theorem exists_char_of_quoteTo? {a : Atom} {next : Quoting} (h : a.quoteTo? = some next) :
    ∃ c, a.text = [c] ∧ a.quoting.next? c = some next := by
  unfold quoteTo? at h
  split at h
  case h_1 c _ htext => exact ⟨c, htext, h⟩
  case h_2 => simp at h

theorem OpensCommand.text_eq {a : Atom} (h : a.OpensCommand) : a.text = ['\x60'] := by
  obtain ⟨c, htext, hnext⟩ := exists_char_of_quoteTo? h.2
  rw [h.1] at hnext
  rw [htext, Quoting.eq_backtick_of_opens hnext]

theorem ClosesCommand.text_eq {a : Atom} (h : a.ClosesCommand) : a.text = ['\x60'] := by
  obtain ⟨c, htext, hnext⟩ := exists_char_of_quoteTo? h.2
  rw [h.1] at hnext
  rw [htext, Quoting.eq_backtick_of_closes hnext]

end Atom

theorem Operator.read?_backtick (rest : Text) : read? ('\x60' :: rest) = none :=
  rfl

/-- A backtick that leads to another state is read alone, whatever stands around it. -/
theorem AtomReading.read_backtick {q next : Quoting} (h : q.next? '\x60' = some next)
    (wordStart : Bool) (rest : Text) : read q wordStart '\x60' rest = ⟨.text, 0, [], next⟩ := by
  simp [read, Operator.read?_backtick, h]

namespace Lexer

theorem run_backtick {offset : Nat} {l l' : Lexer} {next : Quoting} {rest : Text}
    (hrest : l.rest = '\x60' :: rest) (hrest' : l'.rest = '\x60' :: rest)
    (hposition : l'.position = l.position + offset) (hquoting : l'.quoting = l.quoting)
    (hnext : l.quoting.next? '\x60' = some next) :
    l'.run.1 = l.run.1.map (Atom.shift offset) := by
  have hfirst : (l'.advance '\x60' rest).1 = (l.advance '\x60' rest).1.shift offset := by
    simp only [advance, Atom.shift, Span.shift, hposition, hquoting,
      AtomReading.read_backtick hnext, Nat.add_right_comm _ offset]
  have hmoves : Moves offset (l.advance '\x60' rest).2 (l'.advance '\x60' rest).2 := by
    refine ⟨?_, ?_, ?_, ?_⟩ <;>
      simp only [advance, hposition, hquoting, AtomReading.read_backtick hnext,
        Nat.add_right_comm _ offset]
  rw [run_of_rest_cons hrest, run_of_rest_cons hrest', hfirst, hmoves.run.1, List.map_cons]

theorem run_command {l : Lexer} {before inside behind : List Atom} {opening closing : Atom}
    (hrun : l.run.1 = before ++ opening :: (inside ++ closing :: behind))
    (hopening : opening.OpensCommand) (hclosing : closing.ClosesCommand) :
    (start (Text.inBackticks (inside.flatMap Atom.text)) .plain).run.1.map
      (Atom.shift opening.span.start) = opening :: (inside ++ [closing]) := by
  obtain ⟨m, -, hm, -⟩ := run_seam hrun
  have hatoms : m.run.1 = opening :: inside ++ closing :: behind := by rw [hm, List.cons_append]
  -- Everything up to the closing backtick is read again when the text ends with it.
  obtain ⟨n, -, hn, -, -, -, hcut⟩ := run_seam hatoms
  have hrest : n.rest = ['\x60'] ++ behind.flatMap Atom.text := by
    rw [← flatMap_text_run n, hn, List.flatMap_cons, hclosing.text_eq]
  have hwhole := hcut ['\x60'] _ hrest ⟨'\x60', List.mem_singleton_self _, seam_backtick⟩
  have hlast : (n.withRest ['\x60']).run.1 = [closing] := by
    obtain ⟨c, rest, hcons, hatom, -⟩ := exists_advance_of_run (congrArg Prod.fst hn)
    obtain ⟨rfl, rfl⟩ := List.cons.inj (hrest.symm.trans hcons)
    have hnext : n.quoting.next? '\x60' = some .plain := by
      have hquoting : n.quoting = closing.quoting := by rw [← hatom]; rfl
      rw [hquoting, hclosing.1]
      rfl
    rw [run_of_rest_cons rfl, ← hatom]
    simp only [advance, withRest, AtomReading.read_backtick hnext, List.drop_nil]
    rw [run_of_rest_nil rfl]
    rfl
  rw [hlast, List.flatMap_cons, hopening.text_eq, List.append_assoc] at hwhole
  -- The opening backtick leads from the start of the text to where it leads in the line.
  obtain ⟨c, rest, -, hatom, -⟩ := exists_advance_of_run hatoms
  have hposition : m.position = opening.span.start := by rw [← hatom]; rfl
  have hquoting : m.quoting = .plain := by rw [← hopening.1, ← hatom]; rfl
  have hmoved : (m.withRest (Text.inBackticks (inside.flatMap Atom.text))).run.1 =
      (start (Text.inBackticks (inside.flatMap Atom.text)) .plain).run.1.map
        (Atom.shift opening.span.start) :=
    run_backtick rfl rfl (hposition.trans (Nat.zero_add _).symm) hquoting rfl
  rw [← hmoved]
  exact congrArg Prod.fst hwhole

end Lexer

/-- The text of a backtick command gives the atoms that the command has in the line. -/
theorem lex_command {text : Text} {q : Quoting} {before inside behind : List Atom}
    {opening closing : Atom}
    (hatoms : (lex text q).atoms = before ++ opening :: (inside ++ closing :: behind))
    (hopening : opening.OpensCommand) (hclosing : closing.ClosesCommand) :
    (lex (Text.inBackticks (inside.flatMap Atom.text)) .plain).atoms.map
      (Atom.shift opening.span.start) = opening :: (inside ++ [closing]) :=
  Lexer.run_command (l := Lexer.start text q) hatoms hopening hclosing

end RecipeLint

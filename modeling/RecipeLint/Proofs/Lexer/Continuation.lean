import Mathlib.Data.List.Forall2
import RecipeLint.Proofs.Lexer.Resume

/-!
# Going on behind a separator

Besides the quoting state the lexer keeps in mind whether a word may start, and where the open quote
starts.  Behind a blank or an operator a word may start, in a backtick command as on the line itself,
so there the state is all that is needed to go on.  Only the place of a quote that stays open to the
end is lost.
-/

namespace RecipeLint

/-- The second finding is the first one further right.  A quote that stays open may have been opened
further left, out of sight of the first one. -/
structure Finding.Recalls (offset : Nat) (f g : Finding) : Prop where
  value : g.value = f.value
  stop : g.span.stop = f.span.stop + offset
  start : g.span.start = f.span.start + offset ∨
    (∃ opener q, f.value = .unterminatedQuote opener q) ∧ g.span.start < f.span.start + offset

theorem Finding.recalls_shift (offset : Nat) (findings : List Finding) :
    List.Forall₂ (Finding.Recalls offset) findings (findings.map (Located.shift offset)) := by
  rw [List.forall₂_map_right_iff, List.forall₂_same]
  exact fun f _ => ⟨rfl, rfl, .inl rfl⟩

namespace Lexer

theorem quoteStart_le_advance {l : Lexer} (h : l.quoteStart ≤ l.position) (c : Char) (rest : Text) :
    (l.advance c rest).2.quoteStart ≤ (l.advance c rest).2.position := by
  simp only [advance]
  split <;> omega

theorem quoteStart_le_skip {l : Lexer} (h : l.quoteStart ≤ l.position) (n : Nat) :
    (l.skip n).quoteStart ≤ (l.skip n).position := by
  induction n generalizing l with
  | zero => exact h
  | succ n ih =>
    cases hrest : l.rest with
    | nil =>
      rw [skip]
      refine ih ?_
      simp only [next, hrest, finish]
      split <;> exact h
    | cons c rest =>
      rw [skip_of_rest_cons hrest]
      exact ih (quoteStart_le_advance h c rest)

/-- The second lexer goes on like the first one, further right and with findings from before, and
perhaps with a quote that is open since before. -/
structure Continues (offset : Nat) (front : List Finding) (l l' : Lexer) : Prop
    extends Moves offset l l' where
  quoteStart : l'.quoteStart ≤ l.quoteStart + offset
  findings : l'.findings = front ++ l.findings.map (Located.shift offset)
  ended : l'.ended = l.ended

namespace Continues

variable {offset : Nat} {front : List Finding} {l l' : Lexer}

theorem advance (h : Continues offset front l l') (c : Char) (rest : Text) :
    Continues offset front (l.advance c rest).2 (l'.advance c rest).2 := by
  refine ⟨(h.toMoves.advance c rest).2, ?_, h.findings_advance h.findings c rest, h.ended⟩
  have hstart := h.quoteStart
  simp only [Lexer.advance, h.quoting, h.position]
  split <;> omega

/-- At the end a quote is open in both or in none. -/
theorem finish (h : Continues offset front l l') : ∃ found, l'.finish.findings = front ++ found ∧
    List.Forall₂ (Finding.Recalls offset) l.finish.findings found := by
  unfold Lexer.finish
  rw [h.ended, h.quoting]
  have hbefore := Finding.recalls_shift offset l.findings
  split
  case h_1 opener _ _ =>
    refine ⟨l.findings.map (Located.shift offset) ++
      [⟨.unterminatedQuote opener l.quoting, ⟨l'.quoteStart, l'.position⟩⟩], ?_, ?_⟩
    · simp only [h.findings, List.append_assoc]
    · refine List.rel_append hbefore (.cons ⟨rfl, h.position, ?_⟩ .nil)
      exact (Nat.eq_or_lt_of_le h.quoteStart).imp_right fun hlt => ⟨⟨_, _, rfl⟩, hlt⟩
  case h_2 => exact ⟨_, h.findings, hbefore⟩

theorem run (h : Continues offset front l l') : ∃ found, l'.run.2.findings = front ++ found ∧
    List.Forall₂ (Finding.Recalls offset) l.run.2.findings found := by
  induction l using Lexer.run.induct generalizing l' with
  | case1 l hrest =>
    rw [run_of_rest_nil hrest, run_of_rest_nil (h.rest.trans hrest)]
    exact h.finish
  | case2 l c rest hrest step =>
    rename_i ih
    rw [run_of_rest_cons hrest, run_of_rest_cons (h.rest.trans hrest)]
    exact ih (h.advance c rest)

end Continues

end Lexer

/-- A text can be split in two steps at each blank or operator, in whatever state it stands.  The
text up to there gives the atoms up to there and ends in that state.  The text behind, split from
that state on, gives the other atoms and the same state at the end, and what is found in it is what
the whole run finds from there on, save that a quote that stays open may start further left. -/
theorem lex_continues {text : Text} {q : Quoting} {before behind : List Atom} {a : Atom}
    (hatoms : (lex text q).atoms = before ++ a :: behind) (ha : a.kind.isBreak) :
    ∃ u v, Text.splitAtByte? a.span.stop text = some (u, v) ∧
      (lex u q).atoms = before ++ [a] ∧ (lex u q).quoting = a.quoting ∧
      behind = (lex v a.quoting).atoms.map (Atom.shift a.span.stop) ∧
      (lex text q).quoting = (lex v a.quoting).quoting ∧
      ∃ found, (lex text q).findings =
          ((Lexer.start text q).skip (before.length + 1)).findings ++ found ∧
        List.Forall₂ (Finding.Recalls a.span.stop) (lex v a.quoting).findings found := by
  have htile := lex_tile text q
  rw [hatoms] at htile
  have hstop := htile.stop_eq
  rw [Nat.zero_add] at hstop
  obtain ⟨m, hskip, hm, hposition, hquoting, hstart, hended, htext, hcut⟩ :=
    Lexer.run_cut (l := Lexer.start text q) hatoms ha
  have hopened : m.quoteStart ≤ m.position := by
    rw [hskip]
    exact Lexer.quoteStart_le_skip (Nat.le_refl _) _
  have hcontinues :
      Lexer.Continues a.span.stop m.findings (Lexer.start m.rest a.quoting) m := by
    refine ⟨⟨rfl, ?_, hquoting, ?_⟩, ?_, ?_, hended⟩
    · simp [Lexer.start, hposition]
    · simpa [Lexer.start] using hstart
    · simpa [Lexer.start, hposition] using hopened
    · simp [Lexer.start]
  obtain ⟨hbehind, hlast⟩ := hcontinues.toMoves.run
  obtain ⟨found, hfound, hrecalls⟩ := hcontinues.run
  rw [hm] at hbehind hlast hfound
  have hu : (Lexer.start ((before ++ [a]).flatMap Atom.text) q).run =
      (before ++ [a], (m.withRest []).finish) := hcut
  refine ⟨(before ++ [a]).flatMap Atom.text, m.rest, ?_, ?_, ?_, hbehind, hlast, found, ?_, hrecalls⟩
  · rw [hstop, ← Text.splitAtByte?_byteSize, ← htext]
    rfl
  · simp only [lex, hu]
  · simp only [lex, hu, Lexer.finish_quoting]
    exact hquoting
  · rw [← hskip]
    exact hfound

/-- A backtick, a blank and `x`: behind the blank the state says that a command in backticks is
open, but not that it starts two bytes further left. -/
theorem lex_continues_backtick :
    (lex ['\x60', ' '] .plain).quoting = .backticks ∧
    [⟨.text, ['x'], ⟨2, 3⟩, .backticks⟩] = (lex ['x'] .backticks).atoms.map (Atom.shift 2) ∧
    (lex ['x'] .backticks).findings = [⟨.unterminatedQuote '\x60' .backticks, ⟨0, 1⟩⟩] ∧
    ∃ found, [⟨.unterminatedQuote '\x60' .backticks, ⟨0, 3⟩⟩] =
        ((Lexer.start ['\x60', ' ', 'x'] .plain).skip 2).findings ++ found ∧
      List.Forall₂ (Finding.Recalls 2) (lex ['x'] .backticks).findings found := by
  have hlex : lex ['\x60', ' ', 'x'] .plain =
      ⟨[⟨.text, ['\x60'], ⟨0, 1⟩, .plain⟩, ⟨.space, [' '], ⟨1, 2⟩, .backticks⟩,
        ⟨.text, ['x'], ⟨2, 3⟩, .backticks⟩], .backticks,
        [⟨.unterminatedQuote '\x60' .backticks, ⟨0, 3⟩⟩]⟩ := by
    unfold lex
    rw [Lexer.run_of_rest_cons rfl, Lexer.run_of_rest_cons rfl, Lexer.run_of_rest_cons rfl,
      Lexer.run_of_rest_nil rfl]
    rfl
  have hback : lex ['x'] .backticks =
      ⟨[⟨.text, ['x'], ⟨0, 1⟩, .backticks⟩], .backticks,
        [⟨.unterminatedQuote '\x60' .backticks, ⟨0, 1⟩⟩]⟩ := by
    unfold lex
    rw [Lexer.run_of_rest_cons rfl, Lexer.run_of_rest_nil rfl]
    rfl
  have hatoms : (lex ['\x60', ' ', 'x'] .plain).atoms = [⟨.text, ['\x60'], ⟨0, 1⟩, .plain⟩] ++
      ⟨.space, [' '], ⟨1, 2⟩, .backticks⟩ :: [⟨.text, ['x'], ⟨2, 3⟩, .backticks⟩] := by
    rw [hlex]
    rfl
  obtain ⟨u, v, hsplit, -, hquoting, hbehind, -, hfound⟩ := lex_continues hatoms rfl
  have hparts : (['\x60', ' '], ['x']) = (u, v) := Option.some.inj hsplit
  obtain ⟨rfl, rfl⟩ := Prod.mk.inj hparts
  rw [hlex] at hfound
  exact ⟨hquoting, hbehind, by rw [hback], hfound⟩

end RecipeLint

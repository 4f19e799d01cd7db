import RecipeLint.Proofs.Lexer.Tiling

/-!
# Findings cut the text

Whatever the lexer finds, it finds at characters of the text: in the atom that it reads, or, for a
quote that stays open, from the atom that opened it up to the end.
-/

namespace RecipeLint

namespace Lexer

/-- The lexer has read some text, all that it found lies in there, and so does the start of a quote
that is open. -/
structure Reached (front : Text) (l : Lexer) : Prop where
  position : l.position = Text.byteSize front
  quoteStart : ∃ before inside, front = before ++ inside ∧ l.quoteStart = Text.byteSize before
  findings : ∀ f ∈ l.findings, f.span.Cuts front

namespace Reached

variable {front : Text} {l : Lexer}

theorem start (text : Text) (q : Quoting) : (Lexer.start text q).Reached [] :=
  ⟨rfl, ⟨[], [], rfl, rfl⟩, by simp [Lexer.start]⟩

theorem advance (h : l.Reached front) (c : Char) (rest : Text) :
    (l.advance c rest).2.Reached (front ++ (l.advance c rest).1.text) := by
  obtain ⟨before, inside, hfront, hstart⟩ := h.quoteStart
  refine ⟨?_, ?_, ?_⟩
  · rw [Text.byteSize_append, ← h.position]
    rfl
  · by_cases hplain : l.quoting = .plain
    · exact ⟨front, (l.advance c rest).1.text, rfl, by simp [Lexer.advance, hplain, h.position]⟩
    · refine ⟨before, inside ++ (l.advance c rest).1.text, by simp [hfront], ?_⟩
      simp [Lexer.advance, hplain, hstart]
  · intro f hf
    rcases List.mem_append.mp hf with hf | hf
    · exact (h.findings f hf).append _
    · obtain ⟨g, hg, rfl⟩ := List.mem_map.mp hf
      have hcuts := (AtomReading.read_fits l.quoting l.wordStart c rest).findings g hg
      rw [h.position]
      exact hcuts.shift front

theorem finish (h : l.Reached front) : l.finish.Reached front := by
  unfold Lexer.finish
  split
  case h_1 =>
    obtain ⟨before, inside, rfl, hstart⟩ := h.quoteStart
    refine ⟨h.position, h.quoteStart, fun f hf => ?_⟩
    rcases List.mem_append.mp hf with hf | hf
    · exact h.findings f hf
    · obtain rfl := List.mem_singleton.mp hf
      exact ⟨before, inside, [], by simp, hstart, h.position⟩
  case h_2 => exact ⟨h.position, h.quoteStart, h.findings⟩

theorem run (h : l.Reached front) : l.run.2.Reached (front ++ l.rest) := by
  induction l using Lexer.run.induct generalizing front with
  | case1 l hrest =>
    rw [run_of_rest_nil hrest, hrest, List.append_nil]
    exact h.finish
  | case2 l c rest hrest step =>
    rename_i ih
    have hlast := ih (h.advance c rest)
    rw [List.append_assoc, advance_text] at hlast
    rw [run_of_rest_cons hrest, hrest]
    exact hlast

end Reached

end Lexer

theorem lex_findings_cut (text : Text) (q : Quoting) :
    ∀ f ∈ (lex text q).findings, f.span.Cuts text :=
  (Lexer.Reached.start text q).run.findings

end RecipeLint

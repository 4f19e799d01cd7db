import RecipeLint.Proofs.Lexer.Findings
import RecipeLint.Proofs.Line.Order
import RecipeLint.Proofs.Line.Respelled

/-!
# Showing and applying what was found

Whatever is found on a line lies between characters of the line, so that it can be shown there, and
a fix can be applied.  Nearly all of it lies within one atom, and only a quote that stays open is
found from the atom that opened it up to the end.
-/

namespace RecipeLint

/-! ## Diagnostics on a text -/

structure Diagnostic.Renders (text : Text) (d : Diagnostic) : Prop where
  start_le_stop : d.span.start ≤ d.span.stop
  stop_le : d.span.stop ≤ Text.byteSize text
  start : (Text.splitAtByte? d.span.start text).isSome
  stop : (Text.splitAtByte? d.span.stop text).isSome
  slice : (d.span.slice? text).isSome
  locate : (d.span.locate? text).isSome
  excerpt : ∀ context, (d.span.excerpt? context text).isSome
  block : ∀ label message, (d.span.block? text label message).isSome
  render : (d.render? text).isSome
  fix_span : ∀ fix, d.fix? = some fix → fix.span = d.span
  fix_applied : ∀ fix, d.fix? = some fix → (fix.applied? text).isSome

namespace Span.Cuts

variable {s : Span} {text : Text}

theorem splitAtByte?_start (h : s.Cuts text) : (Text.splitAtByte? s.start text).isSome := by
  obtain ⟨front, inside, behind, rfl, hstart, -⟩ := h
  rw [hstart, List.append_assoc, Text.splitAtByte?_byteSize]
  rfl

theorem splitAtByte?_stop (h : s.Cuts text) : (Text.splitAtByte? s.stop text).isSome := by
  obtain ⟨front, inside, behind, rfl, -, hstop⟩ := h
  rw [hstop, Text.splitAtByte?_byteSize]
  rfl

theorem slice? (h : s.Cuts text) : (s.slice? text).isSome := by
  obtain ⟨front, inside, behind, rfl, hstart, hstop⟩ := h
  obtain ⟨start, stop⟩ := s
  obtain rfl : start = Text.byteSize front := hstart
  obtain rfl : stop = Text.byteSize (front ++ inside) := hstop
  rw [Span.slice?_eq]
  rfl

/-- The start is within the text, so that it is not moved to the end. -/
theorem around? (h : s.Cuts text) : (s.around? text).isSome := by
  have hle : s.start ≤ Text.byteSize text := h.start_le_stop.trans h.stop_le
  rw [Span.around?, Nat.min_eq_left hle]
  exact h.splitAtByte?_start

theorem locate? (h : s.Cuts text) : (s.locate? text).isSome := by
  rw [Span.locate?, Option.isSome_map]
  exact h.around?

theorem excerpt? (h : s.Cuts text) (context : Nat) : (s.excerpt? context text).isSome := by
  rw [Span.excerpt?, Option.isSome_map]
  exact h.around?

theorem block? (h : s.Cuts text) (label message : Text) :
    (s.block? text label message).isSome := by
  rw [Span.block?, Option.isSome_map]
  exact h.locate?

theorem applied? (h : s.Cuts text) (replacement : Text) :
    (Fix.applied? ⟨s, replacement⟩ text).isSome := by
  obtain ⟨front, inside, behind, rfl, hstart, hstop⟩ := h
  obtain ⟨start, stop⟩ := s
  obtain rfl : start = Text.byteSize front := hstart
  obtain rfl : stop = Text.byteSize (front ++ inside) := hstop
  rw [Fix.applied?_cut]
  rfl

end Span.Cuts

theorem Finding.renders {text : Text} {f : Finding} (h : f.span.Cuts text) :
    (Finding.diagnostic f).Renders text where
  start_le_stop := h.start_le_stop
  stop_le := h.stop_le
  start := h.splitAtByte?_start
  stop := h.splitAtByte?_stop
  slice := h.slice?
  locate := h.locate?
  excerpt := h.excerpt?
  block := h.block?
  render := h.block? _ _
  fix_span fix hfix := by
    obtain ⟨replacement, -, rfl⟩ := Option.map_eq_some_iff.mp hfix
    rfl
  fix_applied fix hfix := by
    obtain ⟨replacement, -, rfl⟩ := Option.map_eq_some_iff.mp hfix
    exact h.applied? replacement

/-! ## Findings within an atom -/

def Cause.isUnterminatedQuote : Cause → Bool
  | unterminatedQuote .. => true
  | _ => false

def Finding.Within (atoms : List Atom) (f : Finding) : Prop :=
  f.value.isUnterminatedQuote ∨
    ∃ a ∈ atoms, a.span.start ≤ f.span.start ∧ f.span.stop ≤ a.span.stop

namespace Finding

variable {atoms : List Atom} {f : Finding}

theorem Within.cons (h : Within atoms f) (a : Atom) : Within (a :: atoms) f := by
  rcases h with h | ⟨b, hb, hstart, hstop⟩
  · exact .inl h
  · exact .inr ⟨b, List.mem_cons_of_mem a hb, hstart, hstop⟩

end Finding

namespace Lexer

/-- What one step finds lies in the atom that it reads. -/
theorem mem_findings_advance {l : Lexer} {c : Char} {rest : Text} {f : Finding}
    (hf : f ∈ (l.advance c rest).2.findings) : f ∈ l.findings ∨
      (l.advance c rest).1.span.start ≤ f.span.start ∧
        f.span.stop ≤ (l.advance c rest).1.span.stop := by
  rcases List.mem_append.mp hf with hf | hf
  · exact .inl hf
  · obtain ⟨g, hg, rfl⟩ := List.mem_map.mp hf
    have hstop := ((AtomReading.read_fits l.quoting l.wordStart c rest).findings g hg).stop_le
    refine .inr ⟨Nat.le_add_left _ _, ?_⟩
    change g.span.stop + l.position ≤ l.position + Text.byteSize _
    omega

theorem mem_findings_finish {l : Lexer} {f : Finding} (hf : f ∈ l.finish.findings) :
    f ∈ l.findings ∨ f.value.isUnterminatedQuote := by
  unfold finish at hf
  split at hf
  case h_1 =>
    rcases List.mem_append.mp hf with hf | hf
    · exact .inl hf
    · obtain rfl := List.mem_singleton.mp hf
      exact .inr rfl
  case h_2 => exact .inl hf

theorem within_run {l : Lexer} {f : Finding} (hf : f ∈ l.run.2.findings) :
    f ∈ l.findings ∨ f.Within l.run.1 := by
  induction l using Lexer.run.induct with
  | case1 l hrest =>
    rw [run_of_rest_nil hrest] at hf ⊢
    exact (mem_findings_finish hf).imp_right .inl
  | case2 l c rest hrest step =>
    rename_i ih
    rw [run_of_rest_cons hrest] at hf ⊢
    rcases ih hf with hmem | hwithin
    · refine (mem_findings_advance hmem).imp_right fun hatom => ?_
      exact .inr ⟨_, List.mem_cons_self, hatom⟩
    · exact .inr (hwithin.cons _)

end Lexer

theorem lex_findings_within {text : Text} {q : Quoting} {f : Finding}
    (hf : f ∈ (lex text q).findings) : f.Within (lex text q).atoms :=
  (Lexer.within_run (l := Lexer.start text q) hf).resolve_left (by simp [Lexer.start])

/-! ## The line -/

theorem Atom.cuts_of_mem_lex {text : Text} {q : Quoting} {a : Atom} (ha : a ∈ (lex text q).atoms) :
    a.span.Cuts text := by
  obtain ⟨-, front, behind, htext, hspan⟩ := exists_cut_of_mem_lex ha
  exact ⟨front, a.text, behind, htext, by rw [hspan], by rw [hspan]⟩

namespace LineCheck

variable (types : Registry) (settings : Settings) (site : Site)

variable {types settings site} in
/-- Whatever is found on a line is found by splitting it or about an atom of it. -/
theorem cuts_of_mem_lintLine {text : Text} {q : Quoting} {f : Finding}
    (hf : f ∈ (lintLine types settings text q site).findings) :
    f.span.Cuts text ∧ f.Within (lintLine types settings text q site).atoms := by
  have hmem : f ∈ (lex text q).findings ++ useFindings types site (lex text q).atoms :=
    List.mem_of_mem_filter (mem_findings_lintLine.mp hf)
  rcases List.mem_append.mp hmem with hlex | huse
  · exact ⟨lex_findings_cut text q f hlex, lex_findings_within hlex⟩
  · obtain ⟨a, ha, hspan⟩ := exists_atom_of_mem_useFindings types site huse
    exact ⟨hspan ▸ Atom.cuts_of_mem_lex ha,
      .inr ⟨a, ha, (congrArg Span.start hspan).ge, (congrArg Span.stop hspan).le⟩⟩

/-- Whatever is found on a line can be shown on it, and each fix can be applied.  Nothing but a
quote that stays open is found across several atoms.  The findings are in the order of their starts,
and those with the same start in the order in which they were made: first what was found when the
line was split, then what was found about the references. -/
theorem lintLine_renders (text : Text) (q : Quoting) :
    (∀ f ∈ (lintLine types settings text q site).findings,
      (Finding.diagnostic f).Renders text ∧
        f.Within (lintLine types settings text q site).atoms) ∧
    (lintLine types settings text q site).diagnostics.Pairwise
      (fun d e => d.span.start ≤ e.span.start) ∧
    ∀ start, startingAt start (lintLine types settings text q site).findings =
      startingAt start (settings.select (lex text q).findings) ++
        startingAt start (settings.select (useFindings types site (lex text q).atoms)) := by
  refine ⟨fun f hf => ?_, ?_, fun start => ?_⟩
  · obtain ⟨hcuts, hwithin⟩ := cuts_of_mem_lintLine hf
    exact ⟨Finding.renders hcuts, hwithin⟩
  · exact (byStart_sorted _).map Finding.diagnostic fun _ _ h => h
  · have hselect : settings.select ((lex text q).findings ++
        useFindings types site (lex text q).atoms) =
          settings.select (lex text q).findings ++
            settings.select (useFindings types site (lex text q).atoms) := List.filter_append _ _
    have hsorted := startingAt_sorted start (settings.select ((lex text q).findings ++
      useFindings types site (lex text q).atoms))
    rw [hselect, startingAt_append] at hsorted
    rw [← hsorted, ← hselect]
    rfl

end LineCheck

end RecipeLint

import RecipeLint.Proofs.Lexer.Findings
import RecipeLint.Proofs.Reading.Spread

/-!
# Nothing is found twice

Each character is read once, so no finding is made twice: two findings of a text differ in their
spans or in their messages.
-/

namespace RecipeLint

open Finding

namespace AtomReading

/-- Findings in the first `size` bytes that differ from one another, and of which none is about an
open quote. -/
structure Tells (size : Nat) (fs : List Finding) : Prop where
  differs : fs.Pairwise Differs
  within : ∀ f ∈ fs, f.span.start < f.span.stop ∧ f.span.stop ≤ size
  notQuote : ∀ f ∈ fs, ∀ o q, f.value.Apart (.unterminatedQuote o q)

theorem tells_nil (size : Nat) : Tells size [] :=
  ⟨.nil, by simp, by simp⟩

/-- One finding about text that could not be read, behind some about references. -/
theorem tells_failure {size : Nat} {fs : List Finding} {f : Finding} (hfs : Spread size fs)
    (hspan : f.span.start < f.span.stop ∧ f.span.stop ≤ size) (hf : f.value.isFailure)
    (hquote : ∀ o q, f.value ≠ .unterminatedQuote o q) : Tells size (fs ++ [f]) := by
  refine ⟨List.pairwise_append.mpr ⟨hfs.differs, List.pairwise_singleton _ _, ?_⟩, ?_, ?_⟩
  · intro g hg f' hf' _
    obtain rfl := List.mem_singleton.mp hf'
    exact (Cause.apart_of_isFailure hf (hfs.about g hg)).symm
  · intro g hg
    rcases List.mem_append.mp hg with hg | hg
    · exact hfs.within g hg
    · exact List.mem_singleton.mp hg ▸ hspan
  · intro g hg o q
    rcases List.mem_append.mp hg with hg | hg
    · exact (Cause.apart_of_isFailure rfl (hfs.about g hg)).symm
    · exact List.mem_singleton.mp hg ▸ Cause.apart_openQuote hf hquote o q

theorem tells_spread {size : Nat} {fs : List Finding} (hfs : Spread size fs) : Tells size fs :=
  ⟨hfs.differs, hfs.within, fun g hg _ _ =>
    (Cause.apart_of_isFailure rfl (hfs.about g hg)).symm⟩

theorem ofText_tells (q : Quoting) (c : Char) (rest : Text) :
    Tells (Text.byteSize (c :: rest.take (ofText q c rest).more)) (ofText q c rest).findings := by
  have hsize (c : Char) : 0 < c.utf8Size := c.utf8Size_pos
  unfold ofText
  split
  case isTrue hescape =>
    split
    case h_1 =>
      exact tells_failure Spread.nil ⟨Nat.one_pos, hsize c⟩ rfl (by simp)
    case h_2 | h_3 | h_4 => exact tells_nil _
  case isFalse =>
    split
    case isTrue => exact tells_nil _
    case isFalse => exact tells_failure Spread.nil ⟨hsize c, Nat.le_refl _⟩ rfl (by simp)

theorem ofDollar_tells (q : Quoting) (rest : Text) :
    Tells (Text.byteSize ('$' :: rest.take (ofDollar q rest).more)) (ofDollar q rest).findings := by
  have hlogs := Reference.readWithin_logs Spread.logging maxNesting rest
  unfold ofDollar
  split
  case h_1 => split <;> exact tells_nil _
  case h_2 =>
    extract_lets reading
    have htake (h : reading.outcome ≠ .ok none) :
        '$' :: rest.take (reading.taken - 1) = ('$' :: rest).take reading.taken :=
      (Text.cons_take_pred (Reference.taken_pos_readWithin maxNesting _ h) '$' rest).1
    split
    case h_1 r hr =>
      rw [htake (by simp [hr])]
      exact tells_spread (hlogs.value _ hr)
    case h_2 => exact tells_nil _
    case h_3 failure hfailure =>
      obtain ⟨hspan, hspread⟩ := hlogs.failure failure hfailure
      rw [htake (by simp [hfailure])]
      refine tells_failure hspread ⟨hspan, ?_⟩ rfl (by simp)
      rcases Reference.readWithin_fits maxNesting rest with hfits | ⟨c, behind, -, hlone⟩
      · exact (hfits.failure failure hfailure).2.stop_le
      · have hreading : reading = Reading.lone c := hlone
        rw [hreading] at hfailure ⊢
        obtain rfl := Except.error.inj hfailure
        exact Nat.le_refl _

theorem read_tells (q : Quoting) (wordStart : Bool) (c : Char) (rest : Text) :
    Tells (Text.byteSize (c :: rest.take (read q wordStart c rest).more))
      (read q wordStart c rest).findings := by
  unfold read
  split
  case isTrue hc => exact hc ▸ ofDollar_tells q rest
  case isFalse =>
    split
    case h_1 => exact tells_nil _
    case h_2 =>
      split
      case h_1 => exact tells_nil _
      case h_2 =>
        split
        case isTrue =>
          unfold ofBlank
          split_ifs
          · exact tells_nil _
          · exact tells_nil _
          · exact tells_nil _
          · exact ofText_tells q c rest
        case isFalse => exact ofText_tells q c rest

end AtomReading

namespace Lexer

/-- All that was found so far lies in front of the position, differs from one another and is not
about an open quote. -/
def Tells (l : Lexer) : Prop :=
  AtomReading.Tells l.position l.findings

namespace Tells

variable {l : Lexer}

theorem advance (h : l.Tells) (c : Char) (rest : Text) : (l.advance c rest).2.Tells := by
  have hread := AtomReading.read_tells l.quoting l.wordStart c rest
  refine ⟨List.pairwise_append.mpr ⟨h.differs, ?_, ?_⟩, ?_, ?_⟩
  · exact List.pairwise_map.mpr (hread.differs.imp fun hfg => differs_shift.mpr hfg)
  · -- What is found in the atom starts behind all that was found before.
    intro f hf g hg
    obtain ⟨g, hg, rfl⟩ := List.mem_map.mp hg
    have hwithin := h.within f hf
    apply Differs.of_start
    simp only [Located.shift, Span.shift]
    omega
  all_goals
    intro f hf
    rcases List.mem_append.mp hf with hf | hf
  · have hwithin := h.within f hf
    exact ⟨hwithin.1, Nat.le_trans hwithin.2 (Nat.le_add_right _ _)⟩
  · obtain ⟨g, hg, rfl⟩ := List.mem_map.mp hf
    have hwithin := hread.within g hg
    simp only [Located.shift, Span.shift, Lexer.advance]
    omega
  · exact h.notQuote f hf
  · obtain ⟨g, hg, rfl⟩ := List.mem_map.mp hf
    exact hread.notQuote g hg

theorem finish (h : l.Tells) : l.finish.findings.Pairwise Differs := by
  unfold Lexer.finish
  split
  case h_1 opener _ _ =>
    refine List.pairwise_append.mpr ⟨h.differs, List.pairwise_singleton _ _, ?_⟩
    intro f hf g hg _
    obtain rfl := List.mem_singleton.mp hg
    exact h.notQuote f hf opener l.quoting
  case h_2 => exact h.differs

theorem run (h : l.Tells) : l.run.2.findings.Pairwise Differs := by
  induction l using Lexer.run.induct with
  | case1 l hrest =>
    rw [run_of_rest_nil hrest]
    exact h.finish
  | case2 l c rest hrest step =>
    rename_i ih
    rw [run_of_rest_cons hrest]
    exact ih (h.advance c rest)

end Tells

end Lexer

theorem lex_findings_differ (text : Text) (q : Quoting) :
    (lex text q).findings.Pairwise Differs := by
  have hstart : (Lexer.start text q).Tells := AtomReading.tells_nil 0
  exact hstart.run

/-- No two diagnostics of a text have both the same span and the same message, whatever forms
modifiers are tried in and however references lie in one another. -/
theorem lex_diagnostics_differ (text : Text) (q : Quoting) :
    ((lex text q).findings.map Finding.diagnostic).Pairwise fun d e =>
      d.span = e.span → d.message ≠ e.message := by
  exact List.pairwise_map.mpr
    ((lex_findings_differ text q).imp fun h hspan => (h hspan).message_ne)

end RecipeLint

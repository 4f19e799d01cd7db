import RecipeLint.Proofs.Line.Rendering
import RecipeLint.Proofs.Text.Lines
import RecipeLint.Source

/-!
# Lines of a source

Each line that shows something is checked without its indentation, and what is found is moved right
by as much.  So it stays on the same characters, and a fix leaves the indentation as it is.
-/

namespace RecipeLint

/-! ## More characters in front -/

theorem Text.splitAtByte?_append (n : Nat) (front text : Text) :
    splitAtByte? (n + byteSize front) (front ++ text) =
      (splitAtByte? n text).map fun parts => (front ++ parts.1, parts.2) := by
  induction front with
  | nil => simp
  | cons c front ih =>
    have hpos := c.utf8Size_pos
    obtain ⟨m, hm⟩ : ∃ m, n + byteSize (c :: front) = m + 1 :=
      ⟨n + byteSize (c :: front) - 1, by simp only [byteSize_cons]; omega⟩
    have hrest : m + 1 - c.utf8Size = n + byteSize front := by
      simp only [byteSize_cons] at hm
      omega
    have hfits : c.utf8Size ≤ m + 1 := by
      simp only [byteSize_cons] at hm
      omega
    rw [hm, List.cons_append, splitAtByte?, if_pos hfits, hrest, ih, Option.map_map]
    rfl

theorem Span.slice?_shift (s : Span) (front text : Text) :
    (s.shift (Text.byteSize front)).slice? (front ++ text) = s.slice? text := by
  have hsize : (s.shift (Text.byteSize front)).size = s.size := by
    simp only [size, shift]
    omega
  unfold slice?
  rw [hsize]
  simp only [shift, Text.splitAtByte?_append, Nat.add_le_add_iff_right]
  cases Text.splitAtByte? s.start text <;> rfl

theorem Fix.applied?_shift (fix : Fix) (front text : Text) :
    (fix.shift (Text.byteSize front)).applied? (front ++ text) =
      (fix.applied? text).map (front ++ ·) := by
  simp only [applied?, shift, Span.shift, Text.splitAtByte?_append]
  cases Text.splitAtByte? fix.span.start text with
  | none => rfl
  | some before =>
    cases Text.splitAtByte? fix.span.stop text with
    | none => rfl
    | some after => simp

/-! ## Lines -/

namespace SourceLine

/-- One tab in front of a line, if there is one, and the rest. -/
inductive Indents : (line front text : Text) → Prop
  | tab (text : Text) : Indents ('\t' :: text) ['\t'] text
  | none {text : Text} (h : text.head? ≠ some '\t') : Indents text [] text

namespace Indents

variable {line front text : Text}

theorem splitIndent_eq (h : Indents line front text) :
    splitIndent line = (Text.byteSize front, text) := by
  cases h with
  | tab => rfl
  | none h =>
    unfold splitIndent
    split
    case h_1 => exact absurd rfl h
    case h_2 => rfl

theorem line_eq (h : Indents line front text) : line = front ++ text := by
  cases h <;> rfl

theorem byteSize_eq (h : Indents line front text) : Text.byteSize front = front.length := by
  cases h <;> rfl

theorem drop_eq (h : Indents line front text) : line.drop (Text.byteSize front) = text := by
  cases h <;> rfl

end Indents

theorem exists_indents (line : Text) : ∃ front text, Indents line front text := by
  by_cases h : line.head? = some '\t'
  · obtain ⟨text, rfl⟩ := List.head?_eq_some_iff.mp h
    exact ⟨_, _, .tab text⟩
  · exact ⟨_, _, .none h⟩

theorem ofLines_cons {line front text : Text} (h : Indents line front text) (first : Nat)
    (lines : List Text) : ofLines first (line :: lines) =
      if Text.isBlank text then ofLines (first + 1) lines
      else ⟨first, line, Text.byteSize front⟩ :: ofLines (first + 1) lines := by
  simp only [ofLines, h.splitIndent_eq]

/-- The lines of a source are those that show something, each with its number. -/
theorem mem_ofLines {first : Nat} {lines : List Text} {s : SourceLine} :
    s ∈ ofLines first lines ↔ ∃ i front text, lines[i]? = some s.line ∧ s.number = first + i ∧
      Indents s.line front text ∧ s.indent = Text.byteSize front ∧ ¬Text.isBlank text := by
  induction lines generalizing first with
  | nil => simp [ofLines]
  | cons line lines ih =>
    obtain ⟨front, text, hline⟩ := exists_indents line
    have hstep : s ∈ ofLines first (line :: lines) ↔
        (¬Text.isBlank text ∧ s = ⟨first, line, Text.byteSize front⟩) ∨
          s ∈ ofLines (first + 1) lines := by
      rw [ofLines_cons hline]
      split_ifs with hblank <;> simp [hblank]
    rw [hstep, ih]
    constructor
    · rintro (⟨hblank, rfl⟩ | ⟨i, front, text, hget, hnumber, hrest⟩)
      · exact ⟨0, front, text, rfl, rfl, hline, rfl, hblank⟩
      · exact ⟨i + 1, front, text, hget, by omega, hrest⟩
    · rintro ⟨i, front', text', hget, hnumber, hindents, hindent, hblank⟩
      cases i with
      | zero =>
        obtain ⟨number, line', indent⟩ := s
        obtain rfl : line = line' := Option.some.inj hget
        obtain ⟨hsize, rfl⟩ := Prod.mk.inj (hline.splitIndent_eq.symm.trans hindents.splitIndent_eq)
        left
        refine ⟨hblank, ?_⟩
        simp_all
      | succ i => exact .inr ⟨i, front', text', hget, by omega, hindents, hindent, hblank⟩

theorem pairwise_ofLines (first : Nat) (lines : List Text) :
    (ofLines first lines).Pairwise fun s t => s.number < t.number := by
  induction lines generalizing first with
  | nil => exact .nil
  | cons line lines ih =>
    obtain ⟨front, text, hline⟩ := exists_indents line
    rw [ofLines_cons hline]
    split_ifs
    · exact ih (first + 1)
    · refine List.pairwise_cons.mpr ⟨fun s hs => ?_, ih (first + 1)⟩
      obtain ⟨i, -, -, -, hnumber, -⟩ := mem_ofLines.mp hs
      change first < s.number
      omega

end SourceLine

theorem diagnostics_shiftFindings (offset : Nat) (report : LineReport) :
    (report.shiftFindings offset).diagnostics =
      report.diagnostics.map (Diagnostic.shift offset) := by
  simp [LineReport.diagnostics, LineReport.shiftFindings, Finding.diagnostic_shift]

/-- What is known about each line of a source.  The lines are those that a text is split into, which
it is in one way only, less the ones that show nothing behind their indentation, and the numbers
count all of them.  Each is checked without its indentation.  What is found there selects the same
characters of the whole line, and a fix of the whole line is the indentation and the fixed text. -/
theorem lintSource_lines (types : Registry) (settings : Settings) (q : Quoting) (site : Site)
    (path source : Text) :
    let check (text : Text) := lintLine types settings text q site
    let results := (lintSource check path source).lines
    ∃ lines, Text.SplitsInto source lines ∧
      (∀ lines', Text.SplitsInto source lines' → lines' = lines) ∧
      results.Pairwise (fun r s => r.number < s.number) ∧
      (∀ number line, (∃ r ∈ results, r.number = number ∧ r.line = line) ↔
        1 ≤ number ∧ lines[number - 1]? = some line ∧
          ∃ front text, SourceLine.Indents line front text ∧ ¬Text.isBlank text) ∧
      ∀ r ∈ results, ∃ front text, SourceLine.Indents r.line front text ∧
        r.report.diagnostics = (check text).diagnostics.map (Diagnostic.shift front.length) ∧
        ∀ d ∈ (check text).diagnostics,
          (∃ chars, d.span.slice? text = some chars ∧
            (d.shift front.length).span.slice? r.line = some chars) ∧
          ∀ fix, d.fix? = some fix → (d.shift front.length).fix? = some (fix.shift front.length) ∧
            ∃ fixed, fix.applied? text = some fixed ∧
              (fix.shift front.length).applied? r.line = some (front ++ fixed) := by
  intro check results
  refine ⟨Text.lines source, Text.splitsInto_lines source, fun lines' h => h.lines_eq.symm,
    List.pairwise_map.mpr (SourceLine.pairwise_ofLines 1 _), fun number line => ⟨?_, ?_⟩,
    fun r hr => ?_⟩
  · rintro ⟨r, hr, rfl, rfl⟩
    obtain ⟨s, hs, rfl⟩ := List.mem_map.mp hr
    obtain ⟨i, front, text, hget, hnumber, hindents, -, hblank⟩ := SourceLine.mem_ofLines.mp hs
    have hi : s.number - 1 = i := by omega
    exact ⟨by dsimp only; omega, hi ▸ hget, front, text, hindents, hblank⟩
  · rintro ⟨hpos, hget, front, text, hindents, hblank⟩
    have hmem : ⟨number, line, Text.byteSize front⟩ ∈ SourceLine.ofSource source :=
      SourceLine.mem_ofLines.mpr ⟨number - 1, front, text, hget, by dsimp only; omega, hindents,
        rfl, hblank⟩
    exact ⟨_, List.mem_map_of_mem hmem, rfl, rfl⟩
  · obtain ⟨s, hs, rfl⟩ := List.mem_map.mp hr
    obtain ⟨i, front, text, -, -, hindents, hindent, -⟩ := SourceLine.mem_ofLines.mp hs
    have htext : s.text = text := by rw [SourceLine.text, hindent, hindents.drop_eq]
    refine ⟨front, text, hindents, ?_, fun d hd => ?_⟩
    · rw [htext, hindent, hindents.byteSize_eq, diagnostics_shiftFindings]
    · obtain ⟨f, hf, rfl⟩ := List.mem_map.mp hd
      have hrenders := Finding.renders (LineCheck.cuts_of_mem_lintLine hf).1
      rw [hindents.line_eq, ← hindents.byteSize_eq]
      refine ⟨?_, fun fix hfix => ⟨by simp [Diagnostic.shift, hfix], ?_⟩⟩
      · obtain ⟨chars, hchars⟩ := Option.isSome_iff_exists.mp hrenders.slice
        exact ⟨chars, hchars, (Span.slice?_shift _ front text).trans hchars⟩
      · obtain ⟨fixed, hfixed⟩ := Option.isSome_iff_exists.mp (hrenders.fix_applied fix hfix)
        exact ⟨fixed, hfixed, by rw [Fix.applied?_shift, hfixed, Option.map_some]⟩

end RecipeLint

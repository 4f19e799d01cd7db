import RecipeLint.Proofs.Line.QuotingCauses
import RecipeLint.Proofs.Text.Cuts

/-!
# A line with one reference in another spelling

Replacing a reference by a spelling that is read anywhere changes nothing else about the line: the
other atoms stay, and so does what is said about their quoting.  What is said about the reference is
said about the new one, in the use of the old one.
-/

namespace RecipeLint

/-- An atom of a line was put in another spelling, and the others are as they were. -/
structure LineReport.Respelled (report fixed : LineReport) (before : List Atom) (a a' : Atom)
    (tail : List Atom) : Prop where
  atoms : report.atoms = before ++ a :: tail.map (Atom.shift a.span.stop)
  atoms' : fixed.atoms = before ++ a' :: tail.map (Atom.shift a'.span.stop)
  start : a'.span.start = a.span.start
  state : a'.quoting = a.quoting
  quoting : fixed.quoting = report.quoting
  front : ∀ b ∈ before, fixed.quotingAt b.span = report.quotingAt b.span
  behind : ∀ b ∈ tail, fixed.quotingAt (b.shift a'.span.stop).span =
    report.quotingAt (b.shift a.span.stop).span

theorem Fix.applied?_cut (front inside back replacement : Text) :
    applied? ⟨⟨Text.byteSize front, Text.byteSize (front ++ inside)⟩, replacement⟩
      (front ++ inside ++ back) = some (front ++ replacement ++ back) := by
  rw [applied?, Text.splitAtByte?_byteSize, List.append_assoc front, Text.splitAtByte?_byteSize]

theorem Atom.role_reference {a : Atom} {r : Reference} (h : a.kind = .reference r) :
    a.role = (false, false) := by
  simp [role, isQuote, quoteTo?, h, AtomKind.isSeparator]

namespace LineCheck

variable (types : Registry) (settings : Settings) (site : Site)

variable {types settings site} in
theorem mem_findings_lintLine {text : Text} {q : Quoting} {f : Finding} :
    f ∈ (lintLine types settings text q site).findings ↔
      f ∈ settings.select ((lex text q).findings ++ useFindings types site (lex text q).atoms) :=
  List.mem_mergeSort

theorem exists_reference_of_isQuoting {text : Text} {q : Quoting} {f : Finding}
    (hf : f ∈ (lintLine types settings text q site).findings) (hquoting : f.value.isQuoting) :
    ∃ before a behind r, (lintLine types settings text q site).atoms = before ++ a :: behind ∧
      a.kind = .reference r ∧ f.span = a.span ∧
      f.value ∈ causes types r (Use.among site before a behind) := by
  have hmem : f ∈ (lex text q).findings ++ useFindings types site (lex text q).atoms :=
    List.mem_of_mem_filter (mem_findings_lintLine.mp hf)
  have huse : f ∈ useFindings types site (lex text q).atoms := by
    rcases List.mem_append.mp hmem with hlex | huse
    · simp [lex_leavesQuoting text q f hlex] at hquoting
    · exact huse
  obtain ⟨a, ha, hf⟩ := List.mem_flatMap.mp huse
  obtain ⟨before, behind, hatoms⟩ := List.append_of_mem ha
  have htile := lex_tile text q
  rw [hatoms] at htile
  rw [hatoms, Use.ofPosition_start htile] at hf
  cases hkind : a.kind with
  | reference r =>
    have hreference : a.reference? = some r := congrArg AtomKind.reference? hkind
    rw [hreference] at hf
    obtain ⟨cause, hcause, rfl⟩ := List.mem_map.mp hf
    exact ⟨before, a, behind, r, hatoms, hkind, rfl, hcause⟩
  | space | text | shellVariable | operator | comment =>
    have hreference : a.reference? = none := congrArg AtomKind.reference? hkind
    simp [hreference] at hf

/-- What is said about the quoting of an atom depends on what the others do to its word. -/
theorem quotingAt_congr {text text' : Text} {q q' : Quoting}
    {before before' behind behind' : List Atom} {a a' : Atom}
    (hatoms : (lintLine types settings text q site).atoms = before ++ a :: behind)
    (hatoms' : (lintLine types settings text' q' site).atoms = before' ++ a' :: behind')
    (hbefore : before.map Atom.role = before'.map Atom.role) (ha : a.role = a'.role)
    (hbehind : behind.map Atom.role = behind'.map Atom.role) (hquoting : a.quoting = a'.quoting)
    (hreference : a.reference? = a'.reference?) :
    (lintLine types settings text q site).quotingAt a.span =
      (lintLine types settings text' q' site).quotingAt a'.span := by
  rw [quotingAt_lintLine types settings site hatoms, quotingAt_lintLine types settings site hatoms',
    quotingCauses_congr types site hbefore ha hbehind hquoting hreference]

/-- A reference can be put in another spelling that is read anywhere. -/
theorem lintLine_respelled {text : Text} {q : Quoting} {before behind : List Atom} {a : Atom}
    {r r' : Reference}
    (hatoms : (lintLine types settings text q site).atoms = before ++ a :: behind)
    (hkind : a.kind = .reference r)
    (hread : ∀ t, Reading.Reads Reference.read 0 r'.text (some r') t) :
    ∃ fixed tail, Fix.applied? ⟨a.span, r'.text⟩ text = some fixed ∧
      LineReport.Respelled (lintLine types settings text q site)
        (lintLine types settings fixed q site) before a (a.respelled r') tail ∧
      (lintLine types settings fixed q site).quotingAt (a.respelled r').span =
        if settings.warnQuoting then
          (causes types r' (Use.among site before a behind)).filter Cause.isQuoting
        else [] := by
  obtain ⟨front, back, tail, htext, hspan, rfl, hnew, hquoting⟩ := lex_respelled hatoms hkind hread
  have happlied : Fix.applied? ⟨a.span, r'.text⟩ text = some (front ++ r'.text ++ back) := by
    rw [hspan, htext, Fix.applied?_cut]
  generalize front ++ r'.text ++ back = fixed at hnew hquoting happlied
  have hatoms' : (lintLine types settings fixed q site).atoms =
      before ++ a.respelled r' :: tail.map (Atom.shift (a.respelled r').span.stop) := hnew
  have hrole : (a.respelled r').role = a.role :=
    (Atom.role_reference rfl).trans (Atom.role_reference hkind).symm
  refine ⟨fixed, tail, happlied,
    ⟨hatoms, hatoms', rfl, rfl, hquoting, fun b hb => ?_, fun b hb => ?_⟩, ?_⟩
  · obtain ⟨start, rest, rfl⟩ := List.append_of_mem hb
    rw [List.append_assoc] at hatoms hatoms'
    refine quotingAt_congr types settings site hatoms' hatoms rfl rfl ?_ rfl rfl
    simp only [List.append_eq, List.map_append, List.map_cons, hrole, Atom.map_role_shift]
  · obtain ⟨start, rest, rfl⟩ := List.append_of_mem hb
    rw [List.map_append, List.map_cons, ← List.cons_append, ← List.append_assoc] at hatoms hatoms'
    refine quotingAt_congr types settings site hatoms' hatoms ?_ rfl ?_ rfl rfl
    · simp only [List.map_append, List.map_cons, hrole, Atom.map_role_shift]
    · rw [Atom.map_role_shift, Atom.map_role_shift]
  · have huse : Use.among site before (a.respelled r')
        (tail.map (Atom.shift (a.respelled r').span.stop)) =
        Use.among site before a (tail.map (Atom.shift a.span.stop)) :=
      Use.among_congr rfl hrole (by rw [Atom.map_role_shift, Atom.map_role_shift]) rfl
    rw [quotingAt_lintLine types settings site hatoms', quotingCauses, huse]
    rfl

end LineCheck

end RecipeLint

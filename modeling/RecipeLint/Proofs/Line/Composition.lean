import RecipeLint.Proofs.Lexer.Findings
import RecipeLint.Proofs.Line.Order
import RecipeLint.Proofs.Line.Uses

/-!
# Checking a line in two parts

A control operator of the line itself ends a command, and nothing that is known about the commands
in front of it matters to those behind it.  So a line can be cut there: it is checked by checking
the text up to the operator, and then the text behind it as a line of its own.
-/

namespace RecipeLint

/-! ## Tokens and commands on both sides -/

namespace Token

/-- The tokens of some atoms are those up to an atom between words, and those behind it. -/
theorem ofAtomsAfter_append {a : Atom} (ha : a.isBetweenWords) (after : Quoting)
    (before front behind : List Atom) :
    ofAtomsAfter after before (front ++ a :: behind) =
      ofAtomsAfter .plain before (front ++ [a]) ++ ofAtomsAfter after [] behind := by
  induction front generalizing before with
  | nil =>
    have hnone : ofAtomsAfter .plain [] [] = [] := rfl
    rw [List.nil_append, List.nil_append, ofAtomsAfter, ofAtomsAfter, if_pos ha, if_pos ha, hnone,
      List.append_nil]
  | cons b front ih =>
    rw [List.cons_append, List.cons_append, ofAtomsAfter, ofAtomsAfter]
    by_cases hb : b.isBetweenWords
    · rw [if_pos hb, if_pos hb, ih, List.append_assoc _ (ofAtomsAfter _ _ _)]
    · rw [if_neg hb, if_neg hb, ih]

theorem exists_ofAtomsAfter_operator {a : Atom} {op : Operator} (hop : a.kind = .operator op)
    (hplain : a.quoting = .plain) (before front : List Atom) :
    ∃ tokens, ofAtomsAfter .plain before (front ++ [a]) = tokens ++ [operator op a.span] := by
  have ha : a.isBetweenWords := by
    simp [Atom.isBetweenWords, hop, hplain, AtomKind.isSeparator]
  induction front generalizing before with
  | nil =>
    refine ⟨(ofWord? before .plain).toList, ?_⟩
    rw [List.nil_append, ofAtomsAfter, if_pos ha]
    simp [ofSeparator?, hop, ofAtomsAfter, ofWord?, Word.ofAtoms?]
  | cons b front ih =>
    rw [List.cons_append, ofAtomsAfter]
    by_cases hb : b.isBetweenWords
    · obtain ⟨tokens, htokens⟩ := ih []
      refine ⟨(ofWord? before .plain).toList ++ (ofSeparator? b).toList ++ tokens, ?_⟩
      rw [if_pos hb, htokens, List.append_assoc _ tokens]
    · obtain ⟨tokens, htokens⟩ := ih (before ++ [b])
      exact ⟨tokens, by rw [if_neg hb, htokens]⟩

theorem ofAtoms_cut {a : Atom} (ha : a.isBetweenWords) (before atoms : List Atom)
    (after : Quoting) :
    ofAtoms (before ++ a :: atoms.map (Atom.shift a.span.stop)) after =
      ofAtoms (before ++ [a]) .plain ++ (ofAtoms atoms after).map (Token.shift a.span.stop) := by
  rw [ofAtoms, ofAtomsAfter_append ha, ← ofAtoms_shift]
  rfl

end Token

/-- The commands of some tokens are those up to a control operator, and those behind it. -/
theorem Command.ofTokensAfter_append (d : Draft) (which : Control) (span : Span)
    (front behind : List Token) :
    ofTokensAfter d (front ++ .operator (.control which) span :: behind) =
      ofTokensAfter d (front ++ [.operator (.control which) span]) ++ ofTokensAfter {} behind := by
  induction front generalizing d with
  | nil =>
    have hnone : ofTokensAfter {} [] = [] := rfl
    rw [List.nil_append, List.nil_append, ofTokensAfter, ofTokensAfter, hnone, List.append_nil]
  | cons token front ih =>
    cases token with
    | word w => simp only [List.cons_append, ofTokensAfter, ih]
    | operator op s =>
      cases op with
      | control other => simp only [List.cons_append, ofTokensAfter, ih, List.append_assoc]
      | redirect descriptor? kind => simp only [List.cons_append, ofTokensAfter, ih]
    | comment text s => simp only [List.cons_append, ofTokensAfter, ih]

theorem Command.ofTokens_cut (which : Control) (span : Span) (front behind : List Token)
    (offset : Nat) :
    ofTokens (front ++ [.operator (.control which) span] ++ behind.map (Token.shift offset)) =
      ofTokens (front ++ [.operator (.control which) span]) ++
        (ofTokens behind).map (Command.shift offset) := by
  rw [← ofTokens_shift, List.append_assoc, List.singleton_append]
  exact ofTokensAfter_append {} which span front _

theorem Settings.select_append (s : Settings) (fs gs : List Finding) :
    s.select (fs ++ gs) = s.select fs ++ s.select gs :=
  List.filter_append _ _

theorem Settings.select_shift (s : Settings) (offset : Nat) (findings : List Finding) :
    s.select (findings.map (Located.shift offset)) =
      (s.select findings).map (Located.shift offset) :=
  List.filter_map

/-! ## Reports -/

attribute [ext] LineReport

namespace LineReport

def references (report : LineReport) : List (Nat × Reference) :=
  report.atoms.flatMap fun a =>
    match a.reference? with
    | none => []
    | some r => (a.span.start, r) :: r.nested a.span.start

def shift (offset : Nat) (report : LineReport) : LineReport where
  atoms := report.atoms.map (Atom.shift offset)
  quoting := report.quoting
  tokens := report.tokens.map (Token.shift offset)
  commands := report.commands.map (Command.shift offset)
  findings := report.findings.map (Located.shift offset)

def followedBy (first second : LineReport) : LineReport where
  atoms := first.atoms ++ second.atoms
  quoting := second.quoting
  tokens := first.tokens ++ second.tokens
  commands := first.commands ++ second.commands
  findings := first.findings ++ second.findings

variable (offset : Nat) (report first second : LineReport)

theorem diagnostics_shift :
    (report.shift offset).diagnostics = report.diagnostics.map (Diagnostic.shift offset) := by
  unfold diagnostics shift
  rw [List.map_map, List.map_map]
  apply List.map_congr_left
  intro f _
  exact Finding.diagnostic_shift offset f

theorem diagnostics_followedBy :
    (first.followedBy second).diagnostics = first.diagnostics ++ second.diagnostics :=
  List.map_append

theorem references_shift :
    (report.shift offset).references = report.references.map (Reference.shiftStart offset) := by
  unfold references shift
  rw [List.flatMap_map, List.map_flatMap]
  apply List.flatMap_congr
  intro a _
  have hreference : (a.shift offset).reference? = a.reference? := rfl
  have hstart : (a.shift offset).span.start = a.span.start + offset := rfl
  rw [hreference, hstart]
  cases a.reference? with
  | none => rfl
  | some r =>
    simp only [Reference.nested_shift, List.map_cons]
    rfl

theorem references_followedBy :
    (first.followedBy second).references = first.references ++ second.references :=
  List.flatMap_append

end LineReport

/-! ## Lines -/

/-- The findings of a line are those up to a control operator, and those behind it. -/
theorem LineCheck.sorted_cut (types : Registry) (settings : Settings) (site : Site)
    {text u v : Text} {q : Quoting} {before : List Atom} {a : Atom} (ha : a.kind.isSeparator)
    (hstop : a.span.stop = Text.byteSize u) (hatoms : (lex u q).atoms = before ++ [a])
    (htext : (lex text q).atoms =
      before ++ a :: (lex v .plain).atoms.map (Atom.shift a.span.stop))
    (hfindings : (lex text q).findings =
      (lex u q).findings ++ (lex v .plain).findings.map (Located.shift a.span.stop)) :
    (lintLine types settings text q site).findings =
      (lintLine types settings u q site).findings ++
        (lintLine types settings v .plain site).findings.map (Located.shift a.span.stop) := by
  have hspan (x : Atom) (hx : x ∈ before ++ [a]) :
      x.span.start < x.span.stop ∧ x.span.stop ≤ a.span.stop := by
    rw [← hatoms] at hx
    rw [hstop]
    exact span_of_mem_lex hx
  have hbehind (x : Atom) (hx : x ∈ (lex v .plain).atoms.map (Atom.shift a.span.stop)) :
      a.span.stop ≤ x.span.start := by
    obtain ⟨y, -, rfl⟩ := List.mem_map.mp hx
    exact Nat.le_add_left _ _
  have huses : LineCheck.useFindings types site (lex text q).atoms =
      LineCheck.useFindings types site (lex u q).atoms ++
        (LineCheck.useFindings types site (lex v .plain).atoms).map
          (Located.shift a.span.stop) := by
    rw [htext, LineCheck.useFindings_append types site ha hspan hbehind, ← hatoms,
      LineCheck.useFindings_shift]
  have hshifted (found : List Finding) (f : Finding)
      (hf : f ∈ settings.select (found.map (Located.shift a.span.stop))) :
      a.span.stop ≤ f.span.start := by
    obtain ⟨g, -, rfl⟩ := List.mem_map.mp (List.mem_of_mem_filter hf)
    exact Nat.le_add_left _ _
  have hfront (f : Finding) (hf : f ∈ settings.select (lex u q).findings) :
      f.span.start ≤ a.span.stop := by
    have hcuts := lex_findings_cut u q f (List.mem_of_mem_filter hf)
    rw [hstop]
    exact Nat.le_trans hcuts.start_le_stop hcuts.stop_le
  have huseFront (f : Finding)
      (hf : f ∈ settings.select (LineCheck.useFindings types site (lex u q).atoms)) :
      f.span.start < a.span.stop := by
    obtain ⟨x, hx, hsame⟩ :=
      LineCheck.exists_atom_of_mem_useFindings types site (List.mem_of_mem_filter hf)
    rw [hatoms] at hx
    have hx := hspan x hx
    rw [hsame]
    omega
  simp only [lintLine, huses, hfindings, Settings.select_append]
  rw [LineCheck.sorted_split hfront huseFront (hshifted _) (hshifted _)]
  simp only [Settings.select_shift, ← List.map_append, LineCheck.sorted_shift]

/-- At a control operator of the line itself a line can be cut in two. The report on it is the
report on the text up to the operator, and behind that the report on the text behind the operator,
moved right to its place. -/
theorem lintLine_cut (types : Registry) (settings : Settings) (site : Site) {text : Text}
    {q : Quoting} {a : Atom} {which : Control}
    (hmem : a ∈ (lintLine types settings text q site).atoms)
    (hcontrol : a.kind = .operator (.control which)) (hplain : a.quoting = .plain) :
    ∃ u v, Text.splitAtByte? a.span.stop text = some (u, v) ∧
      lintLine types settings text q site =
        (lintLine types settings u q site).followedBy
          ((lintLine types settings v .plain site).shift a.span.stop) ∧
      (lintLine types settings text q site).diagnostics =
        (lintLine types settings u q site).diagnostics ++
          (lintLine types settings v .plain site).diagnostics.map
            (Diagnostic.shift a.span.stop) ∧
      (lintLine types settings text q site).references =
        (lintLine types settings u q site).references ++
          (lintLine types settings v .plain site).references.map
            (Reference.shiftStart a.span.stop) := by
  obtain ⟨before, behind, hatoms⟩ := List.append_of_mem hmem
  have hbreak : a.kind.isBreak := by rw [hcontrol]; rfl
  have hseparator : a.kind.isSeparator := by rw [hcontrol]; rfl
  have hbetween : a.isBetweenWords := by
    simp [Atom.isBetweenWords, hplain, hseparator]
  obtain ⟨u, v, rfl, hstop, hu, huplain, rfl, hquoting, hfindings⟩ :=
    lex_cut hatoms hbreak hplain
  have hwhole : (lex (u ++ v) q).atoms =
      before ++ a :: (lex v .plain).atoms.map (Atom.shift a.span.stop) := hatoms
  have htokens : (lintLine types settings (u ++ v) q site).tokens =
      (lintLine types settings u q site).tokens ++
        (lintLine types settings v .plain site).tokens.map (Token.shift a.span.stop) := by
    simp only [lintLine, hwhole, hu, huplain, hquoting]
    exact Token.ofAtoms_cut hbetween before (lex v .plain).atoms (lex v .plain).quoting
  have hcommands : (lintLine types settings (u ++ v) q site).commands =
      (lintLine types settings u q site).commands ++
        (lintLine types settings v .plain site).commands.map (Command.shift a.span.stop) := by
    have hof (text : Text) (q : Quoting) : (lintLine types settings text q site).commands =
        Command.ofTokens (lintLine types settings text q site).tokens := rfl
    -- The operator is the last token of the front, so the draft behind it is empty again.
    obtain ⟨tokens, hlast⟩ := Token.exists_ofAtomsAfter_operator hcontrol hplain [] before
    have hutokens : (lintLine types settings u q site).tokens =
        tokens ++ [.operator (.control which) a.span] := by
      simp only [lintLine, Token.ofAtoms, hu, huplain, hlast]
    rw [hof, hof, hof, htokens, hutokens]
    exact Command.ofTokens_cut which a.span tokens _ a.span.stop
  have hreport : lintLine types settings (u ++ v) q site =
      (lintLine types settings u q site).followedBy
        ((lintLine types settings v .plain site).shift a.span.stop) := by
    apply LineReport.ext
    · simp only [lintLine, LineReport.followedBy, LineReport.shift, hwhole, hu, List.append_assoc,
        List.singleton_append]
    · exact hquoting
    · exact htokens
    · exact hcommands
    · exact LineCheck.sorted_cut types settings site hseparator hstop hu hwhole hfindings
  refine ⟨u, v, ?_, hreport, ?_, ?_⟩
  · rw [hstop, Text.splitAtByte?_byteSize]
  · rw [hreport, LineReport.diagnostics_followedBy, LineReport.diagnostics_shift]
  · rw [hreport, LineReport.references_followedBy, LineReport.references_shift]

/-- The line `a;b` is the command `a;` and then the command `b`, two bytes further right. -/
theorem lintLine_cut_semicolon :
    lintLine (fun _ => none) .all ['a', ';', 'b'] .plain .recipe =
      (lintLine (fun _ => none) .all ['a', ';'] .plain .recipe).followedBy
        ((lintLine (fun _ => none) .all ['b'] .plain .recipe).shift 2) := by
  have hatoms : (lex ['a', ';', 'b'] .plain).atoms =
      [⟨.text, ['a'], ⟨0, 1⟩, .plain⟩, ⟨.operator (.control .semicolon), [';'], ⟨1, 2⟩, .plain⟩,
        ⟨.text, ['b'], ⟨2, 3⟩, .plain⟩] := by
    unfold lex
    rw [Lexer.run_of_rest_cons rfl, Lexer.run_of_rest_cons rfl, Lexer.run_of_rest_cons rfl,
      Lexer.run_of_rest_nil rfl]
    rfl
  have hmem : (⟨.operator (.control .semicolon), [';'], ⟨1, 2⟩, .plain⟩ : Atom) ∈
      (lintLine (fun _ => none) .all ['a', ';', 'b'] .plain .recipe).atoms := by
    simp [lintLine, hatoms]
  obtain ⟨u, v, hsplit, hreport, -, -⟩ := lintLine_cut (fun _ => none) .all .recipe hmem rfl rfl
  have hparts : (['a', ';'], ['b']) = (u, v) := Option.some.inj hsplit
  obtain ⟨rfl, rfl⟩ := Prod.mk.inj hparts
  exact hreport

end RecipeLint

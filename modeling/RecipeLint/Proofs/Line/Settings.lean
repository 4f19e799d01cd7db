import RecipeLint.Proofs.Lexer.Causes
import RecipeLint.Proofs.Line.QuotingFixes

/-!
# Settings leave findings out

Settings could be asked wherever a finding is made: the one for style in the middle of reading a
reference, the one for quoting where a use is judged.  A line is then split, grouped and ordered as
ever, and what is reported are the findings of the full report that the settings leave, in its order.
-/

namespace RecipeLint

theorem Settings.allowsText (settings : Settings) : settings.AllowsText settings.reports := by
  refine ⟨⟨fun c hc => ?_, fun c hc => ?_⟩, fun c hc => ?_⟩ <;>
    cases c <;> simp_all [Cause.isSpelling, Cause.isStyle, Cause.isFailure, Cause.isQuoting, reports]

namespace LineCheck

/-- Leaving findings out commutes with putting them into order. -/
theorem sorted_filter (keep : Finding → Bool) (findings : List Finding) :
    sorted (findings.filter keep) = (sorted findings).filter keep := by
  have hcomm (start : Nat) (fs : List Finding) :
      startingAt start (fs.filter keep) = (startingAt start fs).filter keep := by
    simp only [startingAt, List.filter_filter, Bool.and_comm]
  apply eq_of_byStart (byStart_sorted _) ((byStart_sorted findings).filter _)
  intro start
  rw [startingAt_sorted, hcomm, hcomm, startingAt_sorted]

def causesFor (settings : Settings) (types : Registry) (r : Reference) (use : Use) : List Cause :=
  if r.isNameless then []
  else
    match types r.varname with
    | none => if settings.warnQuoting then (quotingCause? r use .unknown false).toList else []
    | some type =>
      (if use.time = .load ∧ !type.permissions.useAtLoadTime then [.loadTimeUse r.varname] else []) ++
        if settings.warnQuoting then
          (quotingCause? r use (Verdict.ofReference (some type) r use)
            type.basic.isPlainWord).toList
        else []

def useFindingsFor (settings : Settings) (types : Registry) (site : Site) (atoms : List Atom) :
    List Finding :=
  atoms.flatMap fun a =>
    match a.reference? with
    | none => []
    | some r =>
      (causesFor settings types r (Use.ofPosition atoms a.span.start site)).map fun cause =>
        ⟨cause, a.span⟩

variable (settings : Settings) (types : Registry)

theorem quotingCause?_filter (r : Reference) (use : Use) (verdict : Verdict) (plainWord : Bool) :
    (quotingCause? r use verdict plainWord).toList.filter settings.reports =
      if settings.warnQuoting then (quotingCause? r use verdict plainWord).toList else [] := by
  cases hcause : quotingCause? r use verdict plainWord with
  | none => simp
  | some c =>
    have hquoting := isQuoting_of_quotingCause? hcause
    have hstyle : c.isStyle = false := by cases c <;> simp_all [Cause.isQuoting, Cause.isStyle]
    simp [Settings.reports, hquoting, hstyle, List.filter_cons]

theorem causes_filter (r : Reference) (use : Use) :
    (causes types r use).filter settings.reports = causesFor settings types r use := by
  have hload : settings.reports (.loadTimeUse r.varname) := by
    simp [Settings.reports, Cause.isQuoting, Cause.isStyle]
  unfold causes causesFor
  split
  · rfl
  · cases types r.varname with
    | none => exact quotingCause?_filter ..
    | some type =>
      dsimp only
      rw [List.filter_append, quotingCause?_filter, apply_ite (List.filter _), List.filter_nil,
        List.filter_singleton, hload, cond_true]

theorem useFindings_filter (site : Site) (atoms : List Atom) :
    (useFindings types site atoms).filter (fun f => settings.reports f.value) =
      useFindingsFor settings types site atoms := by
  rw [useFindings, useFindingsFor, List.filter_flatMap]
  refine List.flatMap_congr fun a _ => ?_
  cases a.reference? with
  | none => rfl
  | some r =>
    dsimp only
    rw [List.filter_map, ← causes_filter]
    rfl

end LineCheck

def lintLineFor (types : Registry) (settings : Settings) (text : Text) (q : Quoting) (site : Site) :
    LineReport :=
  let lexing := lexFor settings text q
  let tokens := Token.ofAtoms lexing.atoms lexing.quoting
  { atoms := lexing.atoms
    quoting := lexing.quoting
    tokens
    commands := Command.ofTokens tokens
    findings := LineCheck.sorted
      (lexing.findings ++ LineCheck.useFindingsFor settings types site lexing.atoms) }

theorem lintLineFor_eq (types : Registry) (settings : Settings) (text : Text) (q : Quoting)
    (site : Site) :
    lintLineFor types settings text q site = lintLine types settings text q site := by
  simp only [lintLineFor, lintLine, lexFor_eq settings.allowsText, Settings.select,
    List.filter_append, LineCheck.useFindings_filter]

namespace LineCheck

variable {types : Registry} {settings : Settings} {site : Site} {text : Text} {q : Quoting}

/-- The findings about quoting are those made for how a reference is quoted where it stands. -/
theorem isQuoting_iff {f : Finding} (hf : f ∈ (lintLine types settings text q site).findings) :
    f.value.isQuoting ↔ ∃ a ∈ (lex text q).atoms, ∃ r use, a.kind = .reference r ∧
      use = Use.ofPosition (lex text q).atoms a.span.start site ∧ f.span = a.span ∧
      ∃ plainWord, quotingCause? r use (Verdict.ofReference (types r.varname) r use) plainWord =
        some f.value := by
  constructor
  · intro hquoting
    obtain ⟨before, a, behind, r, hatoms, hkind, hspan, hcause⟩ :=
      exists_reference_of_isQuoting types settings site hf hquoting
    have hlex : (lex text q).atoms = before ++ a :: behind := hatoms
    have htile := lex_tile text q
    rw [hlex] at htile ⊢
    exact ⟨a, by simp, r, _, hkind, (Use.ofPosition_start htile site).symm, hspan,
      exists_quotingCause? hcause hquoting⟩
  · rintro ⟨a, -, r, use, -, -, -, plainWord, hcause⟩
    exact isQuoting_of_quotingCause? hcause

theorem findings_lintLine (types : Registry) (settings : Settings) (text : Text) (q : Quoting)
    (site : Site) : (lintLine types settings text q site).findings =
      settings.select (sorted ((lex text q).findings ++ useFindings types site (lex text q).atoms)) :=
  sorted_filter _ _

end LineCheck

namespace Settings

theorem reports_warnStyle_false (warnQuoting : Bool) (c : Cause) :
    reports ⟨warnQuoting, false⟩ c = (!c.isStyle && reports ⟨warnQuoting, true⟩ c) := by
  simp [reports, Bool.and_comm]

theorem reports_warnQuoting_false (warnStyle : Bool) (c : Cause) :
    reports ⟨false, warnStyle⟩ c = (!c.isQuoting && reports ⟨true, warnStyle⟩ c) := by
  simp [reports]

end Settings

/-- Settings only leave findings out, whether they are asked on the way or at the end.  The report is
the same in all else.  Without warnings about style it has no findings about round parentheses, and
without those about quoting none about how a reference is quoted where it stands; the others stay, in
their order. -/
theorem lintLine_settings (types : Registry) (text : Text) (q : Quoting) (site : Site) :
    (∀ settings, lintLineFor types settings text q site = lintLine types settings text q site) ∧
    (∀ s s', (lintLine types s text q site).atoms = (lintLine types s' text q site).atoms ∧
      (lintLine types s text q site).quoting = (lintLine types s' text q site).quoting ∧
      (lintLine types s text q site).tokens = (lintLine types s' text q site).tokens ∧
      (lintLine types s text q site).commands = (lintLine types s' text q site).commands) ∧
    (∀ warnQuoting, (lintLine types ⟨warnQuoting, false⟩ text q site).findings =
      (lintLine types ⟨warnQuoting, true⟩ text q site).findings.filter fun f => !f.value.isStyle) ∧
    (∀ warnStyle, (lintLine types ⟨false, warnStyle⟩ text q site).findings =
      (lintLine types ⟨true, warnStyle⟩ text q site).findings.filter fun f => !f.value.isQuoting) ∧
    ∀ settings, ∀ f ∈ (lintLine types settings text q site).findings,
      (f.value.isStyle ↔ ∃ name modifiers, f.value = .roundParentheses name modifiers) ∧
      (f.value.isQuoting ↔ ∃ a ∈ (lex text q).atoms, ∃ r use, a.kind = .reference r ∧
        use = Use.ofPosition (lex text q).atoms a.span.start site ∧ f.span = a.span ∧
        ∃ plainWord, LineCheck.quotingCause? r use
          (Verdict.ofReference (types r.varname) r use) plainWord = some f.value) := by
  refine ⟨fun settings => lintLineFor_eq types settings text q site,
    fun s s' => ⟨rfl, rfl, rfl, rfl⟩, fun warnQuoting => ?_, fun warnStyle => ?_,
    fun settings f hf => ⟨?_, LineCheck.isQuoting_iff hf⟩⟩
  · simp only [LineCheck.findings_lintLine, Settings.select, List.filter_filter,
      Settings.reports_warnStyle_false]
  · simp only [LineCheck.findings_lintLine, Settings.select, List.filter_filter,
      Settings.reports_warnQuoting_false]
  · cases f.value <;> simp [Cause.isStyle]

end RecipeLint

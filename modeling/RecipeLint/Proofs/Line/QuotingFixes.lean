import RecipeLint.Proofs.Line.Respelled
import RecipeLint.Proofs.Reading.Respell

/-!
# Fixes that settle the quoting of a reference

A fix that adds the quoting modifier, or takes it away, does just that: the fixed text has the same
atoms but for the reference, whose verdict stays as it was, so that nothing more is to be said about
its quoting.  Taking the modifier away needs its colon, and the chain must end in it.
-/

namespace RecipeLint

/-! ## References -/

namespace Reference

theorem modifiers_append_quote {r : Reference} {chain : List Link} :
    (r.withChain (chain ++ [.colon .quote])).modifiers =
      (r.withChain chain).modifiers ++ [.quote] := by
  simp [modifiers, withChain, Link.modifier?]

theorem unquotedModifiers_of_concat {r : Reference} {modifiers : List Modifier}
    (h : r.modifiers = modifiers ++ [.quote]) :
    r.endsInQuote ∧ r.unquotedModifiers = modifiers := by
  simp [unquotedModifiers, endsInQuote, h, Modifier.isQuote]

theorem braced_eq_text {r : Reference} (h : r.ReadBy (readWithin maxNesting))
    (hbraces : r.delimiter = .braces) : r.braced = r.text := by
  obtain ⟨s, t, hread⟩ := h
  rcases reads_readWithin.mp hread with
    ⟨inner, delimiter, opening, close, s', name, chain, -, hwrites, rfl, rfl, hbody⟩ |
    ⟨c, -, -, rfl⟩
  · obtain rfl : delimiter = .braces := hbraces
    cases hwrites
    have hsource := ((reads_readBody (readWithin_fits inner) .braces).mp hbody).1
    simp [braced, bracedSpelling, varname, modifierText, hsource]
  · simp [bareOf] at hbraces

end Reference

/-! ## Verdicts -/

namespace Verdict

theorem keepsType_of_ofReference {type? : Option VarType} {r : Reference} {use : Use}
    (h : ofReference type? r use ≠ .unknown) : keepsType r.unquotedModifiers := by
  cases type? with
  | none => exact absurd rfl h
  | some type =>
    by_contra hkeeps
    exact h (by simp [ofReference, judge, hkeeps])

theorem ofReference_congr {r r' : Reference} (h : r'.unquotedModifiers = r.unquotedModifiers)
    (type? : Option VarType) (use : Use) : ofReference type? r' use = ofReference type? r use := by
  cases type? with
  | none => rfl
  | some type => rw [ofReference, ofReference, h]

/-- A selection of words does not go on across a colon. -/
theorem needsClose_of_keepsType {modifiers : List Modifier} (h : keepsType modifiers) {m : Modifier}
    (hlast : modifiers.getLast? = some m) : m.needsClose = false := by
  cases m <;> simp_all [keepsType, Modifier.needsClose]

theorem endsInQuote_of_keepsType {r : Reference} (h : keepsType r.modifiers) :
    r.endsInQuote = false := by
  rw [Reference.endsInQuote]
  cases hlast : r.modifiers.getLast? with
  | none => rfl
  | some m => cases m <;> simp_all [keepsType, Modifier.isQuote]

end Verdict

/-! ## Causes -/

namespace LineCheck

variable {types : Registry} {settings : Settings} {site : Site} {r : Reference} {use : Use}
  {verdict : Verdict} {plainWord : Bool}

theorem isQuoting_of_quotingCause? {c : Cause}
    (h : quotingCause? r use verdict plainWord = some c) : c.isQuoting := by
  unfold quotingCause? at h
  split at h
  all_goals (repeat' split at h) <;> simp_all <;> (subst h; rfl)

theorem quotingCause?_eq_none (h : r.endsInQuote ↔ verdict = .mustQuote) :
    quotingCause? r use verdict plainWord = none := by
  cases hquote : r.endsInQuote <;> cases verdict <;> simp_all [quotingCause?]

theorem quotingCause?_eq_unquoted {current suggestion : Text}
    (h : quotingCause? r use verdict plainWord = some (.unquoted current suggestion)) :
    verdict = .mustQuote ∧ r.endsInQuote = false ∧ current = r.braced ∧ suggestion = r.quoted := by
  unfold quotingCause? at h
  split at h
  case h_1 hquote =>
    split at h
    · simp at h
    · split at h
      · simp at h
      · obtain ⟨rfl, rfl⟩ := Cause.unquoted.inj (Option.some.inj h)
        exact ⟨rfl, hquote, rfl, rfl⟩
  all_goals (repeat' split at h) <;> simp at h

theorem quotingCause?_eq_needlessQuoting {suggestion : Text}
    (h : quotingCause? r use verdict plainWord = some (.needlessQuoting suggestion)) :
    verdict ≠ .mustQuote ∧ verdict ≠ .unknown ∧ r.endsInQuote ∧ suggestion = r.unquoted := by
  unfold quotingCause? at h
  split at h
  case h_2 hquote =>
    obtain rfl := Cause.needlessQuoting.inj (Option.some.inj h)
    exact ⟨nofun, nofun, hquote, rfl⟩
  case h_3 hquote =>
    split at h
    · obtain rfl := Cause.needlessQuoting.inj (Option.some.inj h)
      exact ⟨nofun, nofun, hquote, rfl⟩
    · simp at h
  all_goals (repeat' split at h) <;> simp at h

theorem filter_causes (types : Registry) (r : Reference) (use : Use) :
    (causes types r use).filter Cause.isQuoting =
      if r.isNameless then []
      else (quotingCause? r use (Verdict.ofReference (types r.varname) r use)
        ((types r.varname).any fun type => type.basic.isPlainWord)).toList := by
  have hself (verdict : Verdict) (plainWord : Bool) :
      (quotingCause? r use verdict plainWord).toList.filter Cause.isQuoting =
        (quotingCause? r use verdict plainWord).toList := by
    rw [List.filter_eq_self]
    intro c hc
    exact isQuoting_of_quotingCause? (Option.mem_toList.mp hc)
  unfold causes
  split
  · rfl
  · cases types r.varname with
    | none => exact hself _ _
    | some type =>
      have hload : ([.loadTimeUse r.varname] : List Cause).filter Cause.isQuoting = [] := rfl
      dsimp only [Option.any_some]
      rw [List.filter_append, hself, apply_ite (List.filter _), hload, List.filter_nil, ite_self,
        List.nil_append]

theorem exists_quotingCause? {c : Cause} (h : c ∈ causes types r use) (hc : c.isQuoting) :
    ∃ plainWord,
      quotingCause? r use (Verdict.ofReference (types r.varname) r use) plainWord = some c := by
  have hmem : c ∈ (causes types r use).filter Cause.isQuoting := List.mem_filter.mpr ⟨h, hc⟩
  rw [filter_causes] at hmem
  split at hmem
  · simp at hmem
  · exact ⟨_, Option.mem_toList.mp hmem⟩

/-! ## Fixes -/

section

variable {text : Text} {q : Quoting} {f : Finding}

theorem mem_lex_of_atoms {before behind : List Atom} {a : Atom}
    (hatoms : (lintLine types settings text q site).atoms = before ++ a :: behind) :
    a ∈ (lex text q).atoms := by
  have hlex : (lex text q).atoms = before ++ a :: behind := hatoms
  rw [hlex]
  exact List.mem_append_right before List.mem_cons_self

theorem applied?_self {a : Atom} (ha : a ∈ (lex text q).atoms) :
    Fix.applied? ⟨a.span, a.text⟩ text = some text := by
  obtain ⟨-, front, back, hcut, hplace⟩ := exists_cut_of_mem_lex ha
  rw [hcut, hplace, Fix.applied?_cut]

/-- A fix that leaves a reference quoted as its verdict wants settles its quoting. -/
theorem exists_fixed {before behind : List Atom} {a : Atom} {r' : Reference}
    (hatoms : (lintLine types settings text q site).atoms = before ++ a :: behind)
    (hkind : a.kind = .reference r) (hspan : f.span = a.span)
    (hreplacement : f.value.replacement? = some r'.text)
    (hread : ∀ t, Reading.Reads Reference.read 0 r'.text (some r') t)
    (hsettled : r'.endsInQuote ↔ Verdict.ofReference (types r'.varname) r'
      (Use.among site before a behind) = .mustQuote) :
    ∃ fixed tail, f.diagnostic.fixed? text = some fixed ∧
      LineReport.Respelled (lintLine types settings text q site)
        (lintLine types settings fixed q site) before a (a.respelled r') tail ∧
      (lintLine types settings fixed q site).quotingAt (a.respelled r').span = [] := by
  obtain ⟨fixed, tail, happlied, hrespelled, hquoting⟩ :=
    lintLine_respelled types settings site hatoms hkind hread
  refine ⟨fixed, tail, ?_, hrespelled, ?_⟩
  · simp [Diagnostic.fixed?, Finding.diagnostic, hreplacement, hspan, happlied]
  · rw [hquoting, filter_causes, quotingCause?_eq_none hsettled]
    simp

end

end LineCheck

open LineCheck

variable (types : Registry) (settings : Settings) (site : Site)

/-- Where the quoting modifier is to be added to a reference in braces or of one character, the fix
does that and nothing else: the reference has its name and its modifiers and the quoting modifier
behind them, nothing is to be said about its quoting, and the same as before about that of the
others. -/
theorem lintLine_quote {text : Text} {q : Quoting} {f : Finding} {current suggestion : Text}
    (hf : f ∈ (lintLine types settings text q site).findings)
    (hvalue : f.value = .unquoted current suggestion) :
    ∃ before a behind r, (lintLine types settings text q site).atoms = before ++ a :: behind ∧
      a.kind = .reference r ∧ f.span = a.span ∧ current = r.braced ∧ suggestion = r.quoted ∧
      (r.delimiter ≠ .parentheses → ∃ fixed tail r', f.diagnostic.fixed? text = some fixed ∧
        (lintLine types settings text q site).Respelled (lintLine types settings fixed q site)
          before a (a.respelled r') tail ∧
        r'.text = suggestion ∧ r'.delimiter = .braces ∧ r'.name = r.name ∧
        r'.modifiers = r.modifiers ++ [.quote] ∧
        (lintLine types settings fixed q site).quotingAt (a.respelled r').span = []) := by
  obtain ⟨before, a, behind, r, hatoms, hkind, hspan, hcause⟩ :=
    exists_reference_of_isQuoting types settings site hf (by rw [hvalue]; rfl)
  rw [hvalue] at hcause
  obtain ⟨plainWord, hcause⟩ := exists_quotingCause? hcause rfl
  obtain ⟨hverdict, hquote, rfl, rfl⟩ := quotingCause?_eq_unquoted hcause
  refine ⟨before, a, behind, r, hatoms, hkind, hspan, rfl, rfl, fun hdelimiter => ?_⟩
  have hunquoted : r.unquotedModifiers = r.modifiers := by
    simp [Reference.unquotedModifiers, hquote]
  -- There is a verdict, so the last modifier is none that would go on across the new colon.
  have hkeeps : Verdict.keepsType r.modifiers :=
    hunquoted ▸ Verdict.keepsType_of_ofReference (by rw [hverdict]; nofun)
  have hread := Reference.reads_quoted (readBy_of_mem_lex (mem_lex_of_atoms hatoms) hkind).1
    hdelimiter fun m => Verdict.needsClose_of_keepsType hkeeps
  have hmodifiers : (r.withChain (r.chain ++ [.colon .quote])).modifiers =
      r.modifiers ++ [.quote] := Reference.modifiers_append_quote
  obtain ⟨hends, hsame⟩ := Reference.unquotedModifiers_of_concat hmodifiers
  have hsettled := Verdict.ofReference_congr (hsame.trans hunquoted.symm) (types r.varname)
    (Use.among site before a behind)
  rw [← Reference.text_withChain_append_quote] at hread ⊢
  obtain ⟨fixed, tail, hfixed, hrespelled, hquoting⟩ := exists_fixed hatoms hkind hspan
    (by rw [hvalue, ← Reference.text_withChain_append_quote]; rfl) hread
    (iff_of_true hends (hsettled.trans hverdict))
  exact ⟨fixed, tail, _, hfixed, hrespelled, rfl, rfl, rfl, hmodifiers, hquoting⟩

/-- The fix of `$x` is `${x:Q}`, about whose quoting nothing is to be said. -/
theorem lintLine_quote_bare :
    ∃ f ∈ (lintLine (fun _ => some (.ofBasic .shellWord false)) .all ['$', 'x'] .plain
        .recipe).findings,
      f.value = .unquoted ['$', '\x7b', 'x', '\x7d'] ['$', '\x7b', 'x', ':', 'Q', '\x7d'] ∧
        f.diagnostic.fixed? ['$', 'x'] = some ['$', '\x7b', 'x', ':', 'Q', '\x7d'] ∧
        (lintLine (fun _ => some (.ofBasic .shellWord false)) .all
          ['$', '\x7b', 'x', ':', 'Q', '\x7d'] .plain .recipe).quotingAt ⟨0, 6⟩ = [] := by
  let whole : Atom := ⟨.reference (Reference.bareOf 'x'), ['$', 'x'], ⟨0, 2⟩, .plain⟩
  let f : Finding :=
    ⟨.unquoted ['$', '\x7b', 'x', '\x7d'] ['$', '\x7b', 'x', ':', 'Q', '\x7d'], ⟨0, 2⟩⟩
  have hlex : lex ['$', 'x'] .plain = ⟨[whole], .plain, [⟨.ambiguousName ['x'], ⟨0, 2⟩⟩]⟩ := by
    unfold lex
    rw [Lexer.run_of_rest_cons rfl, Lexer.run_of_rest_nil (by with_unfolding_all rfl)]
    with_unfolding_all rfl
  have hf : f ∈ (lintLine (fun _ => some (.ofBasic .shellWord false)) .all ['$', 'x'] .plain
      .recipe).findings := by
    rw [mem_findings_lintLine, hlex]
    exact .tail _ (.head _)
  obtain ⟨before, a, behind, r, hatoms, hkind, -, -, -, hfix⟩ := lintLine_quote _ _ _ hf rfl
  have ha := mem_lex_of_atoms hatoms
  rw [hlex] at ha
  obtain rfl : a = whole := List.mem_singleton.mp ha
  obtain rfl : Reference.bareOf 'x' = r := AtomKind.reference.inj hkind
  obtain ⟨fixed, tail, r', hfixed, -, htext, -, -, -, hquoting⟩ := hfix (by nofun)
  obtain rfl : _ = fixed := Option.some.inj hfixed
  have hspan : (whole.respelled r').span = ⟨0, 6⟩ := by
    rw [Atom.respelled, htext]
    rfl
  rw [hspan] at hquoting
  exact ⟨f, hf, rfl, hfixed, hquoting⟩

/-- Where the quoting modifier is to be taken from a reference, the fix does that and nothing else
if the chain ends in the modifier with its colon, and no closing brace stands in round parentheses:
the reference has its name and its other modifiers, nothing is to be said about its quoting, and the
same as before about that of the others.  If the chain does not end in these two characters, the fix
of a reference in braces changes nothing. -/
theorem lintLine_unquote {text : Text} {q : Quoting} {f : Finding} {suggestion : Text}
    (hf : f ∈ (lintLine types settings text q site).findings)
    (hvalue : f.value = .needlessQuoting suggestion) :
    ∃ before a behind r, (lintLine types settings text q site).atoms = before ++ a :: behind ∧
      a.kind = .reference r ∧ f.span = a.span ∧ r.endsInQuote ∧ suggestion = r.unquoted ∧
      (∀ init, r.chain = init ++ [.colon .quote] →
        (r.delimiter = .braces ∨ r.hasLiteral '\x7d' = false) →
        ∃ fixed tail r', f.diagnostic.fixed? text = some fixed ∧
          (lintLine types settings text q site).Respelled (lintLine types settings fixed q site)
            before a (a.respelled r') tail ∧
          r'.text = suggestion ∧ r'.delimiter = .braces ∧ r'.name = r.name ∧
          r'.modifiers = r.unquotedModifiers ∧
          (lintLine types settings fixed q site).quotingAt (a.respelled r').span = []) ∧
      (r.delimiter = .braces → [':', 'Q'].isSuffixOf r.modifierText = false →
        f.diagnostic.fixed? text = some text) := by
  obtain ⟨before, a, behind, r, hatoms, hkind, hspan, hcause⟩ :=
    exists_reference_of_isQuoting types settings site hf (by rw [hvalue]; rfl)
  rw [hvalue] at hcause
  obtain ⟨plainWord, hcause⟩ := exists_quotingCause? hcause rfl
  obtain ⟨hverdict, hknown, hquote, rfl⟩ := quotingCause?_eq_needlessQuoting hcause
  obtain ⟨hreadBy, htext⟩ := readBy_of_mem_lex (mem_lex_of_atoms hatoms) hkind
  refine ⟨before, a, behind, r, hatoms, hkind, hspan, hquote, rfl, fun init hchain hclear => ?_,
    fun hbraces hsuffix => ?_⟩
  · have hmodifiers : r.modifiers = (r.withChain init).modifiers ++ [.quote] := by
      simp [Reference.modifiers, Reference.withChain, hchain, Link.modifier?]
    obtain ⟨-, hsame⟩ := Reference.unquotedModifiers_of_concat hmodifiers
    have hkeeps : Verdict.keepsType (r.withChain init).modifiers :=
      hsame ▸ Verdict.keepsType_of_ofReference hknown
    have hends := Verdict.endsInQuote_of_keepsType hkeeps
    have hunquoted : (r.withChain init).unquotedModifiers = r.unquotedModifiers := by
      simp [Reference.unquotedModifiers, hends, ← hsame]
    -- The verdict passes over the quoting modifier, so it stays when that is gone.
    have hsettled := Verdict.ofReference_congr hunquoted (types r.varname)
      (Use.among site before a behind)
    have hread := Reference.reads_unquoted hreadBy hchain hclear
    rw [← Reference.text_withChain_of_append_quote hchain] at hread hvalue ⊢
    obtain ⟨fixed, tail, hfixed, hrespelled, hquoting⟩ := exists_fixed hatoms hkind hspan
      (by rw [hvalue]; rfl) hread (iff_of_false (by simp [hends]) fun h => hverdict (hsettled ▸ h))
    exact ⟨fixed, tail, _, hfixed, hrespelled, rfl, rfl, rfl, hsame.symm, hquoting⟩
  · have hsuggestion : r.unquoted = a.text := by
      rw [htext, ← Reference.braced_eq_text hreadBy hbraces, Reference.unquoted, Text.withoutEnding,
        hsuffix]
      rfl
    simp [Diagnostic.fixed?, Finding.diagnostic, hvalue, Cause.replacement?, hspan, hsuggestion,
      applied?_self (mem_lex_of_atoms hatoms)]

/-- The fix of `${X:Q}` is `${X}`, about whose quoting nothing is to be said. -/
theorem lintLine_unquote_braces :
    ∃ f ∈ (lintLine (fun _ => some (.ofBasic .identifier false)) .all
        ['$', '\x7b', 'X', ':', 'Q', '\x7d'] .plain .recipe).findings,
      f.value = .needlessQuoting ['$', '\x7b', 'X', '\x7d'] ∧
        f.diagnostic.fixed? ['$', '\x7b', 'X', ':', 'Q', '\x7d'] =
          some ['$', '\x7b', 'X', '\x7d'] ∧
        (lintLine (fun _ => some (.ofBasic .identifier false)) .all ['$', '\x7b', 'X', '\x7d']
          .plain .recipe).quotingAt ⟨0, 4⟩ = [] := by
  let text : Text := ['$', '\x7b', 'X', ':', 'Q', '\x7d']
  let quoted : Reference := ⟨.braces, [.literal ['X']], [.colon .quote], text⟩
  let whole : Atom := ⟨.reference quoted, text, ⟨0, 6⟩, .plain⟩
  let f : Finding := ⟨.needlessQuoting ['$', '\x7b', 'X', '\x7d'], ⟨0, 6⟩⟩
  have hlex : lex text .plain = ⟨[whole], .plain, []⟩ := by
    unfold lex
    rw [Lexer.run_of_rest_cons rfl, Lexer.run_of_rest_nil (by with_unfolding_all rfl)]
    with_unfolding_all rfl
  have hf : f ∈ (lintLine (fun _ => some (.ofBasic .identifier false)) .all text .plain
      .recipe).findings := by
    rw [mem_findings_lintLine, hlex]
    exact .head _
  obtain ⟨before, a, behind, r, hatoms, hkind, -, -, -, hfix, -⟩ := lintLine_unquote _ _ _ hf rfl
  have ha := mem_lex_of_atoms hatoms
  rw [hlex] at ha
  obtain rfl : a = whole := List.mem_singleton.mp ha
  obtain rfl : quoted = r := AtomKind.reference.inj hkind
  obtain ⟨fixed, tail, r', hfixed, -, htext, -, -, -, hquoting⟩ := hfix [] rfl (.inl rfl)
  obtain rfl : _ = fixed := Option.some.inj hfixed
  have hspan : (whole.respelled r').span = ⟨0, 4⟩ := by
    rw [Atom.respelled, htext]
    rfl
  rw [hspan] at hquoting
  exact ⟨f, hf, rfl, hfixed, hquoting⟩

/-- The fix of `${X:Q:}` is `${X:Q:}` again: the empty modifier hides the quoting one. -/
theorem lintLine_unquote_empty :
    ∃ f ∈ (lintLine (fun _ => some (.ofBasic .identifier false)) .all
        ['$', '\x7b', 'X', ':', 'Q', ':', '\x7d'] .plain .recipe).findings,
      f.value = .needlessQuoting ['$', '\x7b', 'X', ':', 'Q', ':', '\x7d'] ∧
        f.diagnostic.fixed? ['$', '\x7b', 'X', ':', 'Q', ':', '\x7d'] =
          some ['$', '\x7b', 'X', ':', 'Q', ':', '\x7d'] := by
  let text : Text := ['$', '\x7b', 'X', ':', 'Q', ':', '\x7d']
  let quoted : Reference := ⟨.braces, [.literal ['X']], [.colon .quote, .empty], text⟩
  have hlex : lex text .plain = ⟨[⟨.reference quoted, text, ⟨0, 7⟩, .plain⟩], .plain, []⟩ := by
    unfold lex
    rw [Lexer.run_of_rest_cons rfl, Lexer.run_of_rest_nil (by with_unfolding_all rfl)]
    with_unfolding_all rfl
  refine ⟨⟨.needlessQuoting text, ⟨0, 7⟩⟩, ?_, rfl, rfl⟩
  rw [mem_findings_lintLine, hlex]
  exact .head _

end RecipeLint

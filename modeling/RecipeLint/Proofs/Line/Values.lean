import RecipeLint.Proofs.Line.Words

/-!
# Values of words

What the shell makes of a word is put together from its atoms, each of which is looked at again to
tell a quote, an escape and literal text apart.  For a word of literal characters this is the removal
of quotes, character by character from one quoting state to the next, whatever the text ahead made
of the atoms.  A word has a value just if it contains no variable.  The commands in it are not looked
at: their backticks vanish like quotes, and their characters stay.
-/

namespace RecipeLint

/-! ## Pairs of dollar signs -/

namespace Text

def dollarsPaired : Text → Bool
  | '$' :: '$' :: rest => dollarsPaired rest
  | '$' :: _ => false
  | _ :: rest => dollarsPaired rest
  | [] => true

theorem dollarsPaired_cons {c : Char} (hc : c ≠ '$') (rest : Text) :
    dollarsPaired (c :: rest) = dollarsPaired rest := by
  simp [dollarsPaired, hc]

theorem dollarsPaired_append {front : Text} (hfront : '$' ∉ front) (rest : Text) :
    dollarsPaired (front ++ rest) = dollarsPaired rest := by
  induction front with
  | nil => rfl
  | cons c front ih =>
    simp only [List.mem_cons, not_or] at hfront
    rw [List.cons_append, dollarsPaired_cons (Ne.symm hfront.1), ih hfront.2]

theorem exists_of_dollarsPaired {rest : Text} (h : dollarsPaired ('$' :: rest)) :
    ∃ behind, rest = '$' :: behind ∧ dollarsPaired behind := by
  unfold dollarsPaired at h
  split at h
  case h_1 behind heq => exact ⟨behind, (List.cons.inj heq).2, h⟩
  case h_2 => simp at h
  case h_3 hne heq => exact absurd (List.cons.inj heq).1.symm hne
  case h_4 heq => simp at heq

end Text

theorem halveDollars_eq_self {text : Text} (h : '$' ∉ text) : halveDollars text = text := by
  induction text with
  | nil => rfl
  | cons c text ih =>
    simp only [List.mem_cons, not_or] at h
    rw [halveDollars, ih h.2]
    exact fun behind hc => absurd hc.symm h.1

/-! ## Removing quotes -/

namespace Quoting

/-- What is left of a text without its quotes, from a quoting state on: a quote leads to the next
state and vanishes, a backslash vanishes in front of what it escapes, and a pair of dollar signs
stands for one. -/
def removeQuotes (q : Quoting) : Text → Text
  | [] => []
  | c :: rest =>
    match q.next? c with
    | some next => next.removeQuotes rest
    | none =>
      if c = '\\' ∧ q.allowsEscapes then
        match rest with
        | '$' :: '$' :: behind => '$' :: q.removeQuotes behind
        | d :: behind => (q.unescape? d).elim ['\\', d] ([·]) ++ q.removeQuotes behind
        | [] => ['\\']
      else if c = '$' then
        match rest with
        | '$' :: behind => '$' :: q.removeQuotes behind
        | rest => '$' :: q.removeQuotes rest
      else c :: q.removeQuotes rest

variable {q : Quoting} {c : Char}

theorem removeQuotes_quote {next : Quoting} (h : q.next? c = some next) (rest : Text) :
    q.removeQuotes (c :: rest) = next.removeQuotes rest := by
  rw [removeQuotes.eq_def]
  simp only [h]

theorem removeQuotes_escapedDollar (hq : q.allowsEscapes) (rest : Text) :
    q.removeQuotes ('\\' :: '$' :: '$' :: rest) = '$' :: q.removeQuotes rest := by
  simp [removeQuotes, q.next?_backslash, hq]

theorem removeQuotes_escape (hq : q.allowsEscapes) (hc : c ≠ '$') (rest : Text) :
    q.removeQuotes ('\\' :: c :: rest) =
      (q.unescape? c).elim ['\\', c] ([·]) ++ q.removeQuotes rest := by
  simp [removeQuotes, q.next?_backslash, hq, hc]

theorem removeQuotes_backslash (hq : q.allowsEscapes) : q.removeQuotes ['\\'] = ['\\'] := by
  simp [removeQuotes, q.next?_backslash, hq]

theorem removeQuotes_dollars (q : Quoting) (rest : Text) :
    q.removeQuotes ('$' :: '$' :: rest) = '$' :: q.removeQuotes rest := by
  rw [removeQuotes.eq_def]
  simp [q.next?_dollar]

theorem removeQuotes_self (hnext : q.next? c = none) (hescape : ¬(c = '\\' ∧ q.allowsEscapes))
    (hdollar : c ≠ '$') (rest : Text) :
    q.removeQuotes (c :: rest) = c :: q.removeQuotes rest := by
  rw [removeQuotes.eq_def]
  simp only [hnext, hescape, hdollar, if_false]

theorem removeQuotes_literal {front : Text} (h : ∀ c ∈ front, q.isLiteral c) (rest : Text) :
    q.removeQuotes (front ++ rest) = front ++ q.removeQuotes rest := by
  induction front with
  | nil => rfl
  | cons c front ih =>
    obtain ⟨hc, hfront⟩ := List.forall_mem_cons.mp h
    obtain ⟨hdollar, hescape⟩ := of_isLiteral hc
    rw [List.cons_append, removeQuotes_self (next?_of_isLiteral hc) hescape hdollar, ih hfront]
    rfl

end Quoting

/-! ## The value of an atom -/

namespace Atom

variable {a : Atom}

theorem isQuote_eq_false (h : ∀ c, a.text = [c] → a.quoting.next? c = none) :
    a.isQuote = false := by
  rw [isQuote, quoteTo?_eq_none h]
  rfl

theorem value?_quote (h : a.isQuote) : a.value? = some [] := by
  cases hkind : a.kind <;> simp_all [value?, isQuote, quoteTo?]

theorem value?_escape {c : Char} (hkind : a.kind = .text) (htext : a.text = ['\\', c])
    (hq : a.quoting.allowsEscapes) :
    a.value? = some ((a.quoting.unescape? c).elim ['\\', c] ([·])) := by
  cases hc : a.quoting.unescape? c <;> simp [value?, isQuote, quoteTo?, hkind, htext, hq, hc]

theorem value?_backslash (hkind : a.kind = .text) (htext : a.text = ['\\']) :
    a.value? = some ['\\'] := by
  cases hq : a.quoting.allowsEscapes <;>
    simp [value?, isQuote, quoteTo?, hkind, htext, Quoting.next?_backslash, hq, halveDollars]

theorem value?_escapedDollar (hkind : a.kind = .text) (htext : a.text = ['\\', '$', '$']) :
    a.value? = some ['$'] := by
  simp [value?, isQuote, quoteTo?, hkind, htext]

theorem value?_dollars (hkind : a.kind = .text) (htext : a.text = ['$', '$']) :
    a.value? = some ['$'] := by
  simp [value?, isQuote, quoteTo?, hkind, htext, halveDollars]

theorem value?_self (hkind : a.kind = .text) (hquote : a.isQuote = false)
    (hescape : a.text.head? = some '\\' → a.quoting.allowsEscapes = false)
    (hdollar : '$' ∉ a.text) : a.value? = some a.text := by
  have hself := halveDollars_eq_self hdollar
  simp only [value?, hkind, hquote, Bool.false_eq_true, if_false]
  split
  case h_1 htext => simp [htext] at hdollar
  case h_2 rest _ htext =>
    have hq := hescape (by rw [htext, List.head?_cons])
    simp [hq, hself]
  case h_3 => simp [hself]

end Atom

/-! ## One step -/

namespace AtomReading

/-- The atom stands for what is left of its characters without quotes, whatever of the text ahead
is behind it.  Pairs of dollar signs are not torn apart. -/
def Unquotes (q : Quoting) (c : Char) (rest : Text) (r : AtomReading) : Prop :=
  ∀ behind, behind <+: rest.drop r.more → Text.dollarsPaired (c :: rest.take r.more ++ behind) →
    Text.dollarsPaired behind ∧ ∃ value, (∀ span, (r.atom q c rest span).value? = some value) ∧
      q.removeQuotes (c :: rest.take r.more ++ behind) = value ++ r.quoting.removeQuotes behind

variable {q : Quoting} {c : Char} {rest : Text}

theorem quote_unquotes {next : Quoting} (hdollar : c ≠ '$') (hnext : q.next? c = some next) :
    Unquotes q c rest ⟨.text, 0, [], next⟩ := by
  intro behind _ hpaired
  refine ⟨by simpa [Text.dollarsPaired_cons hdollar] using hpaired, [], fun span => ?_, ?_⟩
  · exact Atom.value?_quote (by simp [atom, Atom.isQuote, Atom.quoteTo?, hnext])
  · exact Quoting.removeQuotes_quote hnext behind

theorem self_unquotes {more : Nat} {findings : List Finding} (hnext : q.next? c = none)
    (hescape : ¬(c = '\\' ∧ q.allowsEscapes)) (hdollar : c ≠ '$')
    (hliteral : ∀ d ∈ rest.take more, q.isLiteral d) :
    Unquotes q c rest ⟨.text, more, findings, q⟩ := by
  intro behind _ hpaired
  have hrest : '$' ∉ rest.take more := fun hmem => by
    simpa [q.isLiteral_dollar] using hliteral _ hmem
  have hnone : '$' ∉ c :: rest.take more := by simp [Ne.symm hdollar, hrest]
  have hkeeps (hc : c = '\\') : q.allowsEscapes = false := by simpa [hc] using hescape
  refine ⟨by rwa [Text.dollarsPaired_append hnone] at hpaired, c :: rest.take more,
    fun span => Atom.value?_self rfl (Atom.isQuote_eq_false fun d hd => ?_)
      (fun hc => hkeeps (Option.some.inj hc)) hnone, ?_⟩
  · obtain ⟨rfl, -⟩ := List.cons.inj hd
    exact hnext
  · rw [List.cons_append, Quoting.removeQuotes_self hnext hescape hdollar,
      Quoting.removeQuotes_literal hliteral]
    rfl

theorem backslash_unquotes {findings : List Finding} (hq : q.allowsEscapes)
    (hlast : ∀ behind, behind <+: rest → Text.dollarsPaired behind → behind = []) :
    Unquotes q '\\' rest ⟨.text, 0, findings, q⟩ := by
  intro behind hbehind hpaired
  obtain rfl := hlast behind hbehind hpaired
  exact ⟨rfl, ['\\'], fun span => Atom.value?_backslash rfl rfl,
    Quoting.removeQuotes_backslash hq⟩

theorem ofText_unquotes (hnext : q.next? c = none) (hdollar : c ≠ '$') :
    (ofText q c rest).Unquotes q c rest := by
  unfold ofText
  split
  case isTrue hescape =>
    obtain ⟨rfl, hq⟩ := hescape
    have hbackslash : '\\' ≠ '$' := by decide
    split
    case h_1 => exact backslash_unquotes hq fun behind hbehind _ => List.prefix_nil.mp hbehind
    case h_2 =>
      intro behind _ hpaired
      exact ⟨hpaired, ['$'], fun span => Atom.value?_escapedDollar rfl rfl,
        Quoting.removeQuotes_escapedDollar hq behind⟩
    case h_3 rest hlone =>
      -- The dollar sign behind it is none of a pair, so it is no part of the word.
      refine backslash_unquotes hq fun behind hbehind hpaired => ?_
      cases behind with
      | nil => rfl
      | cons d behind =>
        obtain ⟨rfl, hrest⟩ := List.cons_prefix_cons.mp hbehind
        obtain ⟨others, rfl, -⟩ := Text.exists_of_dollarsPaired hpaired
        obtain ⟨more, rfl⟩ := hrest
        exact absurd rfl (hlone _)
    case h_4 d rest _ hd =>
      intro behind _ hpaired
      refine ⟨?_, _, fun span => Atom.value?_escape rfl rfl hq,
        Quoting.removeQuotes_escape hq hd behind⟩
      have hpaired : Text.dollarsPaired ('\\' :: d :: behind) := hpaired
      rwa [Text.dollarsPaired_cons hbackslash, Text.dollarsPaired_cons hd] at hpaired
  case isFalse hescape =>
    split
    case isTrue =>
      refine self_unquotes hnext hescape hdollar fun d hd => ?_
      rw [← List.prefix_iff_eq_take.mp (List.takeWhile_prefix _)] at hd
      exact List.mem_takeWhile_imp hd
    case isFalse => exact self_unquotes hnext hescape hdollar (by simp)

theorem ofDollar_pair (htext : (ofDollar q ('$' :: rest)).kind = .text) :
    ofDollar q ('$' :: rest) = ⟨.text, 1, [], q⟩ := by
  unfold ofDollar at htext ⊢
  cases hread : if q.allowsVariables then ShellVariable.read? ('$' :: '$' :: rest) else none with
  | some found => simp [hread] at htext
  | none => rfl

theorem ofDollar_unquotes (htext : (ofDollar q rest).kind = .text) :
    (ofDollar q rest).Unquotes q '$' rest := by
  intro behind hbehind hpaired
  obtain ⟨others, (hothers : rest.take (ofDollar q rest).more ++ behind = _), -⟩ :=
    Text.exists_of_dollarsPaired hpaired
  have hahead := (List.prefix_append_right_inj (rest.take (ofDollar q rest).more)).mpr hbehind
  rw [List.take_append_drop, hothers] at hahead
  obtain ⟨more, hrest⟩ := hahead
  rw [List.cons_append] at hrest
  subst hrest
  rw [ofDollar_pair htext] at hpaired ⊢
  exact ⟨hpaired, ['$'], fun span => Atom.value?_dollars rfl rfl, q.removeQuotes_dollars behind⟩

theorem ofBlank_unquotes {wordStart : Bool} (hnext : q.next? c = none) (hdollar : c ≠ '$')
    (htext : (ofBlank q wordStart c rest).kind = .text) :
    (ofBlank q wordStart c rest).Unquotes q c rest := by
  unfold ofBlank at htext ⊢
  split_ifs at htext ⊢
  exact ofText_unquotes hnext hdollar

/-- What is read as text stands for what is left of it without quotes. -/
theorem read_unquotes {wordStart : Bool} (htext : (read q wordStart c rest).kind = .text) :
    (read q wordStart c rest).Unquotes q c rest := by
  unfold read at htext ⊢
  by_cases hdollar : c = '$'
  · rw [if_pos hdollar] at htext ⊢
    exact hdollar ▸ ofDollar_unquotes htext
  · rw [if_neg hdollar] at htext ⊢
    cases hop : if q.allowsOperators then Operator.read? (c :: rest) else none with
    | some found => simp [hop] at htext
    | none =>
      cases hnext : q.next? c with
      | some next => exact quote_unquotes hdollar hnext
      | none =>
        simp only [hop, hnext] at htext ⊢
        split_ifs at htext ⊢ with hq
        · exact ofBlank_unquotes hnext hdollar htext
        · exact ofText_unquotes hnext hdollar

end AtomReading

namespace Lexer

/-- What some atoms in a row stand for is what is left of their characters without quotes. -/
theorem value?_run {l : Lexer} {atoms behind : List Atom} (hrun : l.run.1 = atoms ++ behind)
    (htext : ∀ a ∈ atoms, a.kind = .text)
    (hpaired : Text.dollarsPaired (atoms.flatMap Atom.text)) :
    (atoms.mapM Atom.value?).map List.flatten =
      some (l.quoting.removeQuotes (atoms.flatMap Atom.text)) := by
  induction atoms generalizing l with
  | nil => rfl
  | cons a atoms ih =>
    obtain ⟨c, rest, -, rfl, hbehind⟩ := exists_advance_of_run hrun
    obtain ⟨hkind, htext⟩ := List.forall_mem_cons.mp htext
    -- The atoms behind it may be all that is looked at of the text ahead.
    have hahead : atoms.flatMap Atom.text <+: (l.advance c rest).2.rest := by
      have htext := (l.advance c rest).2.flatMap_text_run
      rw [hbehind] at htext
      exact htext ▸ List.flatMap_append ▸ List.prefix_append _ _
    obtain ⟨hpaired, value, hvalue, hremoved⟩ :=
      AtomReading.read_unquotes hkind _ hahead (by simpa [advance] using hpaired)
    have hfirst : (l.advance c rest).1.value? = some value := hvalue _
    obtain ⟨values, hvalues, hflatten⟩ := Option.map_eq_some_iff.mp (ih hbehind htext hpaired)
    calc ((l.advance c rest).1 :: atoms).mapM Atom.value? |>.map List.flatten
      _ = some (value ++ values.flatten) := by rw [List.mapM_cons, hfirst, hvalues]; rfl
      _ = some (l.quoting.removeQuotes (c :: rest.take _ ++ atoms.flatMap Atom.text)) := by
        rw [hflatten, hremoved]; rfl
      _ = _ := rfl

end Lexer

/-! ## A word -/

namespace Atom

def isVariable (a : Atom) : Bool :=
  match a.kind with
  | .reference _ | .shellVariable _ => true
  | _ => false

theorem isSome_value? (a : Atom) : a.value?.isSome = !a.isVariable := by
  cases hkind : a.kind with
  | reference r | shellVariable name => simp [value?, isVariable, hkind]
  | space | operator op | comment => simp [value?, isVariable, hkind]
  | text =>
    simp only [value?, isVariable, hkind]
    repeat' split
    all_goals rfl

theorem isSome_mapM_value? (atoms : List Atom) :
    (atoms.mapM value?).isSome = atoms.all fun a => !a.isVariable := by
  induction atoms with
  | nil => rfl
  | cons a atoms ih =>
    rw [List.all_cons, ← ih, ← a.isSome_value?, List.mapM_cons]
    cases a.value? <;> cases atoms.mapM value? <;> rfl

theorem kind_eq_text {a : Atom} (hvariable : a.isVariable = false)
    (hseparator : a.kind.isSeparator = false) : a.kind = .text := by
  cases hkind : a.kind <;> simp_all [isVariable, AtomKind.isSeparator]

end Atom

namespace Word

variable {w : Word} {atoms front behind : List Atom} {after : Quoting}

theorem isSome_value? (w : Word) :
    w.value?.isSome ↔ ∀ a ∈ w.atoms, a.isVariable = false := by
  simp [value?, Atom.isSome_mapM_value?]

theorem CutFrom.quoting_head (hcut : w.CutFrom atoms front behind)
    (hchain : Atom.Chain .plain atoms after) {a : Atom} {others : List Atom}
    (hatoms : w.atoms = a :: others) : a.quoting = .plain := by
  rw [hcut.parts, hatoms] at hchain
  rcases List.eq_nil_or_concat front with rfl | ⟨init, b, rfl⟩
  · exact hchain.1
  · have hb := hcut.front b (by simp)
    rw [List.concat_eq_append, List.append_assoc] at hchain
    rw [← Atom.quotingBehind_of_isBetweenWords hb]
    exact hchain.of_append.1

theorem CutFrom.inBackticks_of_isSeparator (hcut : w.CutFrom atoms front behind) {a : Atom}
    (ha : a ∈ w.atoms) (hsuits : a.Suits) (hseparator : a.kind.isSeparator) :
    a.quoting.inBackticks := by
  have hinside := hcut.inside a ha
  rcases a.quoting.allowsOperators_iff.mp (hsuits.separator hseparator) with hq | hq | hq
  · simp [Atom.isBetweenWords, hq, hseparator] at hinside
  · simp [hq, Quoting.inBackticks]
  · simp [hq, Quoting.inBackticks]

end Word

/-- The value of a word of literal characters is what is left of its characters without quotes, one
character after the other from no quotes on.  Neither a backtick in it nor a finding of the text
makes a difference. -/
theorem lex_value?_eq {text : Text} {w : Word}
    (hw : Token.word w ∈ Token.ofAtoms (lex text .plain).atoms (lex text .plain).quoting)
    (htext : ∀ a ∈ w.atoms, a.kind = .text) (hpaired : w.text.dollarsPaired) :
    w.value? = some (Quoting.plain.removeQuotes w.text) := by
  obtain ⟨front, behind, hcut⟩ := Token.cutFrom_of_mem hw
  cases hatoms : w.atoms with
  | nil => simp [Word.value?, Word.text, hatoms, Quoting.removeQuotes]
  | cons a others =>
    have hplain := hcut.quoting_head (lex_chain text .plain) hatoms
    have hparts := hcut.parts
    rw [hatoms, List.cons_append] at hparts
    obtain ⟨m, c, rest, hrest, rfl, hbehind, -⟩ :=
      (Lexer.start text .plain).exists_step_of_run hparts
    have hrun : m.run.1 = w.atoms ++ behind := by
      rw [Lexer.run_of_rest_cons hrest, hbehind, hatoms, List.cons_append]
    have hquoting : m.quoting = .plain := hplain
    rw [← hquoting]
    exact Lexer.value?_run hrun htext hpaired

/-- In `"a"\\$$` the quotes vanish and the escaped pair of dollar signs stands for one. -/
theorem lex_value?_eq_escaped :
    ∃ w, Token.word w ∈ Token.ofAtoms (lex ['"', 'a', '"', '\\', '$', '$'] .plain).atoms
        (lex ['"', 'a', '"', '\\', '$', '$'] .plain).quoting ∧
      (∀ a ∈ w.atoms, a.kind = .text) ∧ w.text.dollarsPaired ∧ w.value? = some ['a', '$'] := by
  let atoms : List Atom := [⟨.text, ['"'], ⟨0, 1⟩, .plain⟩, ⟨.text, ['a'], ⟨1, 2⟩, .double⟩,
    ⟨.text, ['"'], ⟨2, 3⟩, .double⟩, ⟨.text, ['\\', '$', '$'], ⟨3, 6⟩, .plain⟩]
  have hlex : lex ['"', 'a', '"', '\\', '$', '$'] .plain = ⟨atoms, .plain, []⟩ := by
    unfold lex
    rw [Lexer.run_of_rest_cons rfl, Lexer.run_of_rest_cons rfl, Lexer.run_of_rest_cons rfl,
      Lexer.run_of_rest_cons rfl, Lexer.run_of_rest_nil rfl]
    rfl
  let w : Word := ⟨atoms, ⟨0, 6⟩, true⟩
  have hw : Token.word w ∈ Token.ofAtoms (lex ['"', 'a', '"', '\\', '$', '$'] .plain).atoms
      (lex ['"', 'a', '"', '\\', '$', '$'] .plain).quoting := by
    rw [hlex]
    exact .head _
  have htext : ∀ a ∈ w.atoms, a.kind = .text := by simp [w, atoms]
  exact ⟨w, hw, htext, rfl, lex_value?_eq hw htext rfl⟩

/-- A word has a value just if it contains no variable, be it a reference to one of make or one of
the shell.  So a word without a command has a value just if it is literal characters throughout.
Commands in backticks do not count: a word has a value with them or without. -/
theorem lex_isSome_value?_iff {text : Text} {q : Quoting} {w : Word}
    (hw : Token.word w ∈ Token.ofAtoms (lex text q).atoms (lex text q).quoting) :
    (w.value?.isSome ↔ ∀ a ∈ w.atoms, a.isVariable = false) ∧
    ((w.value?.isSome ∧ ∀ a ∈ w.atoms, a.quoting.inBackticks = false) ↔
      ∀ a ∈ w.atoms, a.kind = .text ∧ a.quoting.inBackticks = false) := by
  refine ⟨w.isSome_value?, ?_⟩
  obtain ⟨front, behind, hcut⟩ := Token.cutFrom_of_mem hw
  rw [w.isSome_value?]
  constructor
  · rintro ⟨hvariable, hline⟩ a ha
    have hmem : a ∈ (lex text q).atoms := by
      rw [hcut.parts]
      simp [ha]
    have hseparator : a.kind.isSeparator = false := by
      rw [Bool.eq_false_iff]
      intro hseparator
      have hcommand := hcut.inBackticks_of_isSeparator ha (suits_of_mem_lex hmem) hseparator
      simp [hline a ha] at hcommand
    exact ⟨Atom.kind_eq_text (hvariable a ha) hseparator, hline a ha⟩
  · intro h
    exact ⟨fun a ha => by simp [Atom.isVariable, (h a ha).1], fun a ha => (h a ha).2⟩

/-- Behind a letter a variable of the shell leaves the word without a value. -/
theorem lex_isSome_value?_variable :
    ∃ w, Token.word w ∈ Token.ofAtoms (lex ['a', '$', '$', 'x'] .plain).atoms
        (lex ['a', '$', '$', 'x'] .plain).quoting ∧ w.value?.isSome = false := by
  let atoms : List Atom := [⟨.text, ['a'], ⟨0, 1⟩, .plain⟩,
    ⟨.shellVariable ['x'], ['$', '$', 'x'], ⟨1, 4⟩, .plain⟩]
  have hlex : lex ['a', '$', '$', 'x'] .plain = ⟨atoms, .plain, []⟩ := by
    unfold lex
    rw [Lexer.run_of_rest_cons rfl, Lexer.run_of_rest_cons rfl, Lexer.run_of_rest_nil rfl]
    rfl
  let w : Word := ⟨atoms, ⟨0, 4⟩, true⟩
  have hw : Token.word w ∈ Token.ofAtoms (lex ['a', '$', '$', 'x'] .plain).atoms
      (lex ['a', '$', '$', 'x'] .plain).quoting := by
    rw [hlex]
    exact .head _
  refine ⟨w, hw, Bool.eq_false_iff.mpr fun hvalue => ?_⟩
  have hvariable := (lex_isSome_value?_iff hw).1.mp hvalue _ (.tail _ (.head _))
  simp [Atom.isVariable] at hvariable

/-- A command in backticks leaves the word its value: the characters of the command. -/
theorem lex_isSome_value?_command :
    ∃ w, Token.word w ∈ Token.ofAtoms (lex ['\x60', 'a', '\x60'] .plain).atoms
        (lex ['\x60', 'a', '\x60'] .plain).quoting ∧
      w.value? = some ['a'] ∧ ∃ a ∈ w.atoms, a.quoting.inBackticks := by
  let atoms : List Atom := [⟨.text, ['\x60'], ⟨0, 1⟩, .plain⟩,
    ⟨.text, ['a'], ⟨1, 2⟩, .backticks⟩, ⟨.text, ['\x60'], ⟨2, 3⟩, .backticks⟩]
  have hlex : lex ['\x60', 'a', '\x60'] .plain = ⟨atoms, .plain, []⟩ := by
    unfold lex
    rw [Lexer.run_of_rest_cons rfl, Lexer.run_of_rest_cons rfl, Lexer.run_of_rest_cons rfl,
      Lexer.run_of_rest_nil rfl]
    rfl
  rw [hlex]
  exact ⟨⟨atoms, ⟨0, 3⟩, true⟩, .head _, rfl, _, .tail _ (.head _), rfl⟩

end RecipeLint

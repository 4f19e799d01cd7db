import Mathlib.Data.List.Forall2
import RecipeLint.Proofs.Reading.Picked
import RecipeLint.Proofs.Lexer.Resume

/-!
# Each failure is found once

Text that cannot be read becomes a text atom and a finding.  Which atoms these are can be told from
the atoms alone, and the failures found are theirs, one for each in the order of the text, and then
perhaps one about a quote that stays open.  So nothing fails in silence, and nothing is said twice.
-/

namespace RecipeLint

/-! ## Broken atoms -/

namespace Atom

/-- A dollar sign and what was to be a reference.  Two dollar signs are none, nor is the dollar sign
at the end of the text. -/
def isBrokenReference (last : Bool) (a : Atom) : Bool :=
  a.text.head? == some '$' && a.text != ['$', '$'] && !(last && a.text == ['$'])

def isUnexpected (a : Atom) : Bool :=
  match a.text with
  | [c] => !a.quoting.isLiteral c && (a.quoting.next? c).isNone && c != '\\' && c != '$'
  | _ => false

def isBrokenEscape (last : Bool) (a : Atom) : Bool :=
  last && a.text == ['\\'] && a.quoting.allowsEscapes

/-- Whether a text atom, perhaps the last of its text, could not be read as intended. -/
def isBroken (last : Bool) (a : Atom) : Bool :=
  a.kind.isText && (a.isBrokenReference last || a.isUnexpected || a.isBrokenEscape last)

theorem isBroken_of_not_isText {a : Atom} (h : a.kind.isText = false) (last : Bool) :
    a.isBroken last = false := by
  simp [isBroken, h]

theorem isBroken_of_isUnexpected {a : Atom} (htext : a.kind.isText) (h : a.isUnexpected)
    (last : Bool) : a.isBroken last := by
  simp [isBroken, htext, h]

theorem isBroken_of_isLiteral {a : Atom} {c : Char} {more : Text} (hliteral : a.quoting.isLiteral c)
    (htext : a.text = c :: more) (hdollar : c ≠ '$')
    (hescape : c = '\\' → a.quoting.allowsEscapes = false) (last : Bool) :
    a.isBroken last = false := by
  have hunexpected : a.isUnexpected = false := by
    unfold isUnexpected
    cases more <;> simp [htext, hliteral]
  have hbroken : a.isBrokenEscape last = false := by
    by_cases hc : c = '\\'
    · simp [isBrokenEscape, hescape hc]
    · simp [isBrokenEscape, htext, hc]
  simp [isBroken, hunexpected, hbroken, isBrokenReference, htext, hdollar]

end Atom

/-- The failure found about a broken atom. -/
inductive Finding.Reports (a : Atom) : Finding → Prop
  | reference (failure : ReferenceFailure) (span : Span) (hdollar : a.text.head? = some '$')
    (hspan : a.span.start ≤ span.start ∧ span.start ≤ span.stop ∧ span.stop ≤ a.span.stop) :
    Reports a ⟨.badReference failure, span⟩
  | unexpected (c : Char) (hchar : a.isUnexpected ∧ a.text = [c]) :
    Reports a ⟨.unexpectedChar c a.quoting, a.span⟩
  | escape (hbackslash : a.text = ['\\']) : Reports a ⟨.trailingBackslash, a.span⟩

def Finding.failures (findings : List Finding) : List Finding :=
  findings.filter fun f => f.value.isFailure

namespace Finding

@[simp] theorem failures_nil : failures [] = [] := rfl

theorem failures_append (fs gs : List Finding) : failures (fs ++ gs) = failures fs ++ failures gs :=
  List.filter_append _ _

theorem failures_shift (offset : Nat) (fs : List Finding) :
    failures (fs.map (Located.shift offset)) = (failures fs).map (Located.shift offset) :=
  List.filter_map

end Finding

/-! ## One step -/

theorem Reference.failures_read (text : Text) : Finding.failures (read text).findings = [] := by
  rw [Finding.failures, List.filter_eq_nil_iff]
  intro f hf
  have hkeep := keep_of_mem_readWithin (fun c => !c.isFailure)
    (fun c hc => by cases c <;> simp_all [Cause.isSpelling, Cause.isFailure])
    (fun c hc => by cases c <;> simp_all [Cause.isStyle, Cause.isFailure]) hf
  simpa using hkeep

theorem Span.shift_ofSize (size offset : Nat) :
    (Span.ofSize size).shift offset = ⟨offset, offset + size⟩ := by
  simp [Span.shift, Span.ofSize, Nat.add_comm]

namespace AtomReading

/-- The reading finds one failure if its atom is broken, and else none. -/
def Accounts (q : Quoting) (c : Char) (rest : Text) (r : AtomReading) : Prop :=
  ∀ position,
    let a := r.atom q c rest ⟨position, position + Text.byteSize (c :: rest.take r.more)⟩
    a.isBroken (r.more == rest.length) = false ∧ Finding.failures r.findings = [] ∨
      a.isBroken (r.more == rest.length) ∧
        ∃ f, Finding.failures r.findings = [f] ∧ Finding.Reports a (f.shift position)

variable {q next : Quoting} {c : Char} {rest : Text}

theorem accounts_of_silent {kind : AtomKind} {more : Nat} {findings : List Finding}
    (hsound : ∀ span, Atom.isBroken (more == rest.length)
      ⟨kind, c :: rest.take more, span, q⟩ = false)
    (hfindings : Finding.failures findings = []) :
    Accounts q c rest ⟨kind, more, findings, next⟩ :=
  fun _ => .inl ⟨hsound _, hfindings⟩

theorem accounts_of_not_isText {kind : AtomKind} (hkind : kind.isText = false) (more : Nat)
    {findings : List Finding} (hfindings : Finding.failures findings = []) :
    Accounts q c rest ⟨kind, more, findings, next⟩ :=
  accounts_of_silent (fun _ => Atom.isBroken_of_not_isText hkind _) hfindings

theorem accounts_of_dollar {more : Nat}
    (hmore : rest.take more = ['$'] ∨ more = 0 ∧ rest = []) :
    Accounts q '$' rest ⟨.text, more, [], next⟩ := by
  refine accounts_of_silent (fun span => ?_) rfl
  rcases hmore with htake | ⟨rfl, rfl⟩
  · simp [Atom.isBroken, Atom.isBrokenReference, Atom.isUnexpected, Atom.isBrokenEscape, htake]
  · simp [Atom.isBroken, Atom.isBrokenReference, Atom.isUnexpected, Atom.isBrokenEscape]

theorem escape_accounts (hescape : q.allowsEscapes) : (ofText q '\\' rest).Accounts q '\\' rest := by
  unfold ofText
  rw [if_pos ⟨rfl, hescape⟩]
  split
  case h_1 =>
    refine fun position => .inr ⟨?_, _, rfl, ?_⟩
    · simp [atom, Atom.isBroken, Atom.isBrokenEscape, AtomKind.isText, hescape]
    · rw [Located.shift, Span.shift_ofSize]
      exact .escape rfl
  case h_2 | h_3 | h_4 =>
    refine accounts_of_silent (fun span => ?_) rfl
    simp [Atom.isBroken, Atom.isBrokenReference, Atom.isUnexpected, Atom.isBrokenEscape]

theorem ofText_accounts (hdollar : c ≠ '$') (hnext : q.next? c = none) :
    (ofText q c rest).Accounts q c rest := by
  by_cases hescape : c = '\\' ∧ q.allowsEscapes
  · obtain ⟨rfl, hescape⟩ := hescape
    exact escape_accounts hescape
  unfold ofText
  rw [if_neg hescape]
  split
  case isTrue hliteral =>
    refine accounts_of_silent (fun span => ?_) rfl
    refine Atom.isBroken_of_isLiteral hliteral rfl hdollar (fun hc => ?_) _
    exact Bool.eq_false_iff.mpr fun h => hescape ⟨hc, h⟩
  case isFalse hliteral =>
    have hbackslash : c ≠ '\\' := by
      rintro rfl
      exact hliteral (by simpa [q.isLiteral_backslash] using hescape)
    have hunexpected : ∀ span, (atom ⟨.text, 0, [⟨.unexpectedChar c q, .ofSize c.utf8Size⟩], q⟩
        q c rest span).isUnexpected := by
      simp [atom, Atom.isUnexpected, hliteral, hnext, hdollar, hbackslash]
    refine fun position => .inr ⟨?_, _, rfl, ?_⟩
    · exact Atom.isBroken_of_isUnexpected rfl (hunexpected _) _
    · rw [Located.shift, Span.shift_ofSize]
      exact .unexpected c ⟨hunexpected _, rfl⟩

theorem accounts_of_next? (hnext : q.next? c = some next) :
    Accounts q c rest ⟨.text, 0, [], next⟩ := by
  have hdollar : c ≠ '$' := by
    rintro rfl
    simp [q.next?_dollar] at hnext
  have hbackslash : c ≠ '\\' := by
    rintro rfl
    cases q <;> simp [Quoting.next?] at hnext
  refine accounts_of_silent (fun span => ?_) rfl
  simp [Atom.isBroken, Atom.isBrokenReference, Atom.isUnexpected, Atom.isBrokenEscape, hnext,
    hdollar, hbackslash]

theorem ofBlank_accounts (hdollar : c ≠ '$') (hnext : q.next? c = none) (wordStart : Bool) :
    (ofBlank q wordStart c rest).Accounts q c rest := by
  unfold ofBlank
  split
  case isTrue => exact accounts_of_not_isText rfl _ rfl
  case isFalse =>
    split
    case isTrue => exact accounts_of_not_isText rfl _ rfl
    case isFalse => exact ofText_accounts hdollar hnext

/-- A dollar sign starts something except before another one and at the end of the text. -/
theorem eq_nil_of_read_eq_none (hdollars : ∀ behind, rest ≠ '$' :: behind)
    (hread : (Reference.read ('$' :: rest)).outcome = .ok none) : rest = [] := by
  obtain ⟨delimited, -, heq⟩ := Reference.takesOpening_readWithin maxNesting
  rw [Reference.read, heq] at hread
  unfold Reference.readDollar at hread
  split at hread
  case h_1 behind heq => exact absurd (List.cons.inj heq).2 (hdollars behind)
  case h_2 | h_3 => simp at hread
  case h_4 =>
    unfold Reference.readBare at hread
    extract_lets r at hread
    split_ifs at hread <;> simp [Reading.found, Reading.take] at hread
  case h_5 hother =>
    cases rest with
    | nil => rfl
    | cons c behind => exact absurd rfl (hother c behind)

theorem isBroken_of_dollar {a : Atom} {d : Char} {behind : Text} {more : Nat}
    (htext : a.kind.isText) (ha : a.text = '$' :: (d :: behind).take more) (hd : d ≠ '$') :
    a.isBroken (more == (d :: behind).length) := by
  cases more <;> simp [Atom.isBroken, Atom.isBrokenReference, htext, ha, hd]

theorem ofDollar_accounts (q : Quoting) (rest : Text) : (ofDollar q rest).Accounts q '$' rest := by
  have hfits := ofDollar_fits q rest
  unfold ofDollar at hfits ⊢
  split
  case h_1 =>
    split
    case h_1 => exact accounts_of_not_isText rfl _ rfl
    case h_2 => exact accounts_of_dollar (.inl rfl)
  case h_2 hdollars =>
    have hfailures := Reference.failures_read ('$' :: rest)
    dsimp only at hfits ⊢
    split
    case h_1 => exact accounts_of_not_isText rfl _ hfailures
    case h_2 hread => exact accounts_of_dollar (.inr ⟨rfl, eq_nil_of_read_eq_none hdollars hread⟩)
    case h_3 failure hread =>
      simp only [hread] at hfits
      refine fun position => .inr ⟨?_, ⟨.badReference failure.value, failure.span⟩, ?_, ?_⟩
      · cases rest with
        | nil =>
          have hnone : (Reference.read ['$']).outcome = .ok none := rfl
          simp [hnone] at hread
        | cons d behind => exact isBroken_of_dollar rfl rfl fun hd => hdollars behind (hd ▸ rfl)
      · rw [Finding.failures_append, hfailures]
        rfl
      · have hcuts := hfits.findings ⟨.badReference failure.value, failure.span⟩
          (List.mem_append_right _ (List.mem_singleton.mpr rfl))
        have hle := hcuts.start_le_stop
        have hstop := hcuts.stop_le
        refine .reference failure.value _ rfl ⟨?_, ?_, ?_⟩ <;>
          simp only [atom, Span.shift] at hle hstop ⊢ <;> omega

theorem read_accounts (q : Quoting) (wordStart : Bool) (c : Char) (rest : Text) :
    (read q wordStart c rest).Accounts q c rest := by
  unfold read
  split
  case isTrue hc => exact hc ▸ ofDollar_accounts q rest
  case isFalse hdollar =>
    split
    case h_1 => exact accounts_of_not_isText rfl _ rfl
    case h_2 =>
      split
      case h_1 hnext => exact accounts_of_next? hnext
      case h_2 hnext =>
        split
        case isTrue => exact ofBlank_accounts hdollar hnext wordStart
        case isFalse => exact ofText_accounts hdollar hnext

end AtomReading

/-! ## A run -/

namespace Atom

def isBrokenIn (size : Nat) (a : Atom) : Bool :=
  a.isBroken (a.span.stop == size)

end Atom

namespace Lexer

def stop (l : Lexer) : Nat :=
  l.position + Text.byteSize l.rest

theorem stop_advance (l : Lexer) {c : Char} {rest : Text} (h : l.rest = c :: rest) :
    (l.advance c rest).2.stop = l.stop ∧
      ((l.advance c rest).1.span.stop == l.stop) =
        ((AtomReading.read l.quoting l.wordStart c rest).more == rest.length) := by
  have hsize := congrArg Text.byteSize (l.advance_text c rest)
  rw [Text.byteSize_append] at hsize
  have hstop : (l.advance c rest).1.span.stop =
      l.position + Text.byteSize (l.advance c rest).1.text := rfl
  refine ⟨?_, Bool.eq_iff_iff.mpr ?_⟩
  · have hposition : (l.advance c rest).2.position = (l.advance c rest).1.span.stop := rfl
    rw [stop, stop, h, ← hsize, hposition, hstop, Nat.add_assoc]
  · have hle := (AtomReading.read_fits l.quoting l.wordStart c rest).more_le
    have hrest : (l.advance c rest).2.rest =
        rest.drop (AtomReading.read l.quoting l.wordStart c rest).more := rfl
    have hempty : Text.byteSize (l.advance c rest).2.rest = 0 ↔ (l.advance c rest).2.rest = [] :=
      ⟨fun h0 => Classical.byContradiction fun hne => (Text.byteSize_pos hne).ne' h0,
        fun hnil => by rw [hnil]; rfl⟩
    rw [hrest, List.drop_eq_nil_iff, ← hrest] at hempty
    rw [beq_iff_eq, beq_iff_eq, stop, h, hstop]
    omega

/-- One step finds the failure of its atom, if that is broken, and no other. -/
theorem failures_advance (l : Lexer) {c : Char} {rest : Text} (h : l.rest = c :: rest) :
    ∃ found, (l.advance c rest).2.findings = l.findings ++ found ∧
      List.Forall₂ Finding.Reports ([(l.advance c rest).1].filter (Atom.isBrokenIn l.stop))
        (Finding.failures found) := by
  refine ⟨_, rfl, ?_⟩
  have haccounts := AtomReading.read_accounts l.quoting l.wordStart c rest l.position
  rw [← (l.stop_advance h).2] at haccounts
  rw [Finding.failures_shift]
  rcases haccounts with ⟨hsound, hnone⟩ | ⟨hbroken, f, hone, hreports⟩
  · have hatom : (l.advance c rest).1.isBrokenIn l.stop = false := hsound
    rw [hnone, List.filter_singleton, hatom]
    exact .nil
  · have hatom : (l.advance c rest).1.isBrokenIn l.stop := hbroken
    rw [hone, List.filter_singleton, hatom]
    exact .cons hreports .nil

/-- Up to the end of the text there is one failure for each broken atom. -/
theorem failures_run (l : Lexer) :
    ∃ found, (l.skip l.run.1.length).findings = l.findings ++ found ∧
      List.Forall₂ Finding.Reports (l.run.1.filter (Atom.isBrokenIn l.stop))
        (Finding.failures found) := by
  induction l using Lexer.run.induct with
  | case1 l hrest =>
    rw [run_of_rest_nil hrest]
    exact ⟨[], by simp [skip], .nil⟩
  | case2 l c rest hrest step =>
    rename_i ih
    obtain ⟨first, hfirst, hstep⟩ := l.failures_advance hrest
    obtain ⟨found, hfound, hrun⟩ := ih
    rw [(l.stop_advance hrest).1] at hrun
    rw [run_of_rest_cons hrest, List.length_cons, skip_of_rest_cons hrest]
    refine ⟨first ++ found, by rw [hfound, hfirst, List.append_assoc], ?_⟩
    rw [← List.singleton_append, List.filter_append, Finding.failures_append]
    exact List.rel_append hstep hrun

theorem run_eq_finish (l : Lexer) : ∃ m : Lexer, m = l.skip l.run.1.length ∧ m.rest = [] ∧
    m.position = l.stop ∧ m.ended = l.ended ∧ l.run.2 = m.finish := by
  obtain ⟨m, hskip, hrun, hposition, hended, htext, -⟩ := run_seam (l.run.1.append_nil).symm
  rw [l.flatMap_text_run] at hposition htext
  have hrest : m.rest = [] := List.append_right_eq_self.mp htext.symm
  rw [run_of_rest_nil hrest] at hrun
  exact ⟨m, hskip, hrest, hposition, hended, (congrArg Prod.snd hrun).symm⟩

theorem finish_of_ended {l : Lexer} (h : l.ended) : l.finish = l := by
  unfold finish
  rw [h]
  cases l
  simp_all

theorem findings_finish {l : Lexer} (h : l.ended = false) : ∃ unclosed,
    l.finish.findings = l.findings ++ unclosed ∧
      (l.quoting = .plain ∧ unclosed = [] ∨
        l.quoting ≠ .plain ∧ ∃ opener, l.quoting.outermost? = some opener ∧
          unclosed = [⟨.unterminatedQuote opener l.quoting, ⟨l.quoteStart, l.position⟩⟩]) := by
  unfold finish
  rw [h]
  cases hquoting : l.quoting with
  | plain => exact ⟨[], (List.append_nil _).symm, .inl ⟨rfl, rfl⟩⟩
  | _ => exact ⟨_, rfl, .inr ⟨by simp, _, rfl, rfl⟩⟩

/-- Where no text is left, reading on adds nothing. -/
theorem skip_finish {l : Lexer} (h : l.rest = []) (n : Nat) : l.finish.skip n = l.finish := by
  have hfinish : l.finish.rest = [] ∧ l.finish.ended := by
    unfold finish
    split <;> exact ⟨h, rfl⟩
  induction n with
  | zero => rfl
  | succ n ih => simp only [skip, next, hfinish.1, finish_of_ended hfinish.2, ih]

/-- The open quote is remembered from the last atom of the line itself. -/
theorem quoteStart_run (l : Lexer) :
    (∃ before a behind, l.run.1 = before ++ a :: behind ∧ a.quoting = .plain ∧
      a.span.start = (l.skip l.run.1.length).quoteStart ∧ ∀ b ∈ behind, b.quoting ≠ .plain) ∨
    (∀ a ∈ l.run.1, a.quoting ≠ .plain) ∧ (l.skip l.run.1.length).quoteStart = l.quoteStart := by
  induction l using Lexer.run.induct with
  | case1 l hrest =>
    rw [run_of_rest_nil hrest]
    exact .inr ⟨by simp, rfl⟩
  | case2 l c rest hrest step =>
    rename_i ih
    rw [run_of_rest_cons hrest, List.length_cons, skip_of_rest_cons hrest]
    rcases ih with ⟨before, a, behind, hrun, hplain, hstart, hbehind⟩ | ⟨hopen, hstart⟩
    · exact .inl ⟨(l.advance c rest).1 :: before, a, behind, by rw [hrun]; rfl, hplain, hstart,
        hbehind⟩
    · by_cases hplain : l.quoting = .plain
      · refine .inl ⟨[], _, _, rfl, hplain, ?_, hopen⟩
        rw [hstart]
        simp [step, advance, hplain]
      · refine .inr ⟨List.forall_mem_cons.mpr ⟨hplain, hopen⟩, ?_⟩
        rw [hstart]
        simp [step, advance, hplain]

end Lexer

namespace Atom

theorem Chain.opens {q last : Quoting} {before behind : List Atom} {a : Atom}
    (h : Chain q (before ++ a :: behind) last) (hlast : last ≠ .plain) (ha : a.quoting = .plain)
    (hbehind : ∀ b ∈ behind, b.quoting ≠ .plain) : a.isQuote ∧ a.quotingBehind ≠ .plain := by
  have hopens : a.quotingBehind ≠ .plain := by
    cases behind with
    | nil => exact h.of_append ▸ hlast
    | cons b behind => exact h.of_append.1 ▸ hbehind b List.mem_cons_self
  refine ⟨?_, hopens⟩
  rw [isQuote, Option.isSome_iff_ne_none]
  exact fun hnone => hopens ((quotingBehind_of_quoteTo? hnone).trans ha)

/-- The quote that is open behind the atoms starts there: at the last quote that was read on the line
itself, or at the start of the text if all of it stands in quotes. -/
def OpenSince (atoms : List Atom) (start : Nat) : Prop :=
  (∃ before a behind, atoms = before ++ a :: behind ∧ a.quoting = .plain ∧ a.isQuote ∧
    a.quotingBehind ≠ .plain ∧ (∀ b ∈ behind, b.quoting ≠ .plain) ∧ start = a.span.start) ∨
  (∀ a ∈ atoms, a.quoting ≠ .plain) ∧ start = 0

end Atom

/-- What goes wrong is found, each failure once and in the order of the text: one for each atom that
could not be read as intended, which lies in that atom, and at the end one for a quote that stays
open, if one does, from where it was opened up to the end.  There are no others, and asking for more
atoms at the end finds no more. -/
theorem lex_failures (text : Text) (q : Quoting) :
    ∃ found unclosed, (lex text q).findings = found ++ unclosed ∧
      List.Forall₂ Finding.Reports
        ((lex text q).atoms.filter (Atom.isBrokenIn (Text.byteSize text)))
        (Finding.failures found) ∧
      ((lex text q).quoting = .plain ∧ unclosed = [] ∨
        (lex text q).quoting ≠ .plain ∧ ∃ opener start,
          (lex text q).quoting.outermost? = some opener ∧
          Atom.OpenSince (lex text q).atoms start ∧
          unclosed = [⟨.unterminatedQuote opener (lex text q).quoting,
            ⟨start, Text.byteSize text⟩⟩]) ∧
      ∀ n, ((Lexer.start text q).skip ((lex text q).atoms.length + 1 + n)).findings =
        (lex text q).findings := by
  obtain ⟨m, hskip, hrest, hposition, hended, hrun⟩ := (Lexer.start text q).run_eq_finish
  obtain ⟨found, hfound, hreports⟩ := (Lexer.start text q).failures_run
  obtain ⟨unclosed, hunclosed, hquote⟩ := m.findings_finish hended
  have hstart := (Lexer.start text q).quoteStart_run
  have hchain := lex_chain text q
  have hquoting : (lex text q).quoting = m.quoting :=
    (congrArg Lexer.quoting hrun).trans m.finish_quoting
  have hfindings : (lex text q).findings = m.finish.findings := congrArg Lexer.findings hrun
  have hstop : (Lexer.start text q).stop = Text.byteSize text := Nat.zero_add _
  rw [← hskip] at hfound hstart
  rw [hstop] at hreports hposition
  refine ⟨found, unclosed, ?_, hreports, ?_, fun n => ?_⟩
  · rw [hfindings, hunclosed, hfound]
    rfl
  · rw [hquoting] at hchain ⊢
    refine hquote.imp_right fun ⟨hopen, opener, hopener, hone⟩ => ?_
    refine ⟨hopen, opener, m.quoteStart, hopener, ?_, by rw [hone, hposition]⟩
    refine hstart.imp_left ?_
    rintro ⟨before, a, behind, hatoms, hplain, hspan, hbehind⟩
    rw [show (lex text q).atoms = _ from hatoms] at hchain
    obtain ⟨hisQuote, hopens⟩ := hchain.opens hopen hplain hbehind
    exact ⟨before, a, behind, hatoms, hplain, hisQuote, hopens, hbehind, hspan.symm⟩
  · have hend : (Lexer.start text q).skip (lex text q).atoms.length = m := hskip.symm
    have hnext : m.next.2 = m.finish := by simp only [Lexer.next, hrest]
    rw [Nat.add_assoc, Lexer.skip_add, hend, Nat.add_comm 1, Lexer.skip, hnext,
      Lexer.skip_finish hrest, hfindings]

end RecipeLint

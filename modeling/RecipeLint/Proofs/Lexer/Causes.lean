import RecipeLint.Proofs.Lexer.Tiling
import RecipeLint.Proofs.Reading.Picked

/-!
# What the lexer finds

The lexer passes on what is found about references, and adds failures of its own.  So a lexer that
asks the settings wherever it could find something splits a text as the full one does, and leaves out
what they turn off.  How a reference is quoted it never says: whether it needs quotes is not known
before its use is.
-/

namespace RecipeLint

/-- Some causes are kept as the settings have it: all that are about text as such, but those about
style only with the setting for it. -/
structure Settings.AllowsText (settings : Settings) (keep : Cause → Bool) : Prop
    extends settings.Allows keep where
  failure : ∀ c, c.isFailure → keep c

namespace AtomReading

def pick (keep : Cause → Bool) (r : AtomReading) : AtomReading :=
  { r with findings := r.findings.filter fun f => keep f.value }

def ofReference (q : Quoting) (reading : Reading (Option Reference)) : AtomReading :=
  match reading.outcome with
  | .ok (some r) => ⟨.reference r, reading.taken - 1, reading.findings, q⟩
  | .ok none => ⟨.text, 0, [], q⟩
  | .error failure =>
    ⟨.text, reading.taken - 1,
      reading.findings ++ [⟨.badReference failure.value, failure.span⟩], q⟩

def ofDollarFor (settings : Settings) (q : Quoting) (rest : Text) : AtomReading :=
  match rest with
  | '$' :: _ => ofDollar q rest
  | _ => ofReference q (Reference.readFor settings ('$' :: rest))

def readFor (settings : Settings) (q : Quoting) (wordStart : Bool) (c : Char) (rest : Text) :
    AtomReading :=
  if c = '$' then ofDollarFor settings q rest else read q wordStart c rest

section

variable {settings : Settings} {keep : Cause → Bool} (h : settings.AllowsText keep)
  (q : Quoting) (wordStart : Bool) (c : Char) (rest : Text)

include h

theorem ofText_pick : (ofText q c rest).pick keep = ofText q c rest := by
  have hbackslash := h.failure .trailingBackslash rfl
  have hchar := h.failure (.unexpectedChar c q) rfl
  unfold ofText
  split
  · split <;> simp [pick, hbackslash]
  · split <;> simp [pick, hchar]

theorem ofBlank_pick : (ofBlank q wordStart c rest).pick keep = ofBlank q wordStart c rest := by
  unfold ofBlank
  split
  · rfl
  · split
    · rfl
    · exact ofText_pick h q c rest

theorem ofReference_pick (reading : Reading (Option Reference)) :
    (ofReference q reading).pick keep = ofReference q (reading.pick keep) := by
  unfold ofReference
  rw [Reading.outcome_pick]
  split
  · rfl
  · rfl
  · rename_i failure _
    simp [pick, List.filter_append, h.failure (.badReference failure.value) rfl]

theorem ofDollar_pick : (ofDollar q rest).pick keep = ofDollarFor settings q rest := by
  unfold ofDollarFor
  split
  case h_1 =>
    unfold ofDollar
    dsimp only
    generalize (if q.allowsVariables = true then _ else none) = read?
    cases read? <;> rfl
  case h_2 hdollars =>
    have hreference : ofDollar q rest = ofReference q (Reference.read ('$' :: rest)) := by
      unfold ofDollar
      split
      case h_1 behind => exact absurd rfl (hdollars behind)
      case h_2 => rfl
    rw [hreference, ofReference_pick h, Reference.read, Reference.readWithin_pick h.toAllows,
      Reference.readFor]

theorem read_pick :
    (read q wordStart c rest).pick keep = readFor settings q wordStart c rest := by
  unfold readFor
  split
  case isTrue hc => rw [read, if_pos hc, ofDollar_pick h]
  case isFalse hc =>
    rw [read, if_neg hc]
    split
    · rfl
    · split
      · rfl
      · split
        · exact ofBlank_pick h q wordStart c rest
        · exact ofText_pick h q c rest

end

end AtomReading

namespace Lexer

def accept (l : Lexer) (c : Char) (rest : Text) (reading : AtomReading) : Atom × Lexer :=
  let text := c :: rest.take reading.more
  let position := l.position + Text.byteSize text
  (⟨reading.kind, text, ⟨l.position, position⟩, l.quoting⟩,
    { rest := rest.drop reading.more
      position
      quoting := reading.quoting
      quoteStart := if l.quoting = .plain then l.position else l.quoteStart
      wordStart := startsWord reading.kind l.quoting reading.quoting
      findings := l.findings ++ reading.findings.map (Located.shift l.position)
      ended := l.ended })

theorem advance_eq_accept (l : Lexer) (c : Char) (rest : Text) :
    l.advance c rest = l.accept c rest (.read l.quoting l.wordStart c rest) := rfl

def runFor (settings : Settings) (l : Lexer) : List Atom × Lexer :=
  match _h : l.rest with
  | [] => ([], l.finish)
  | c :: rest =>
    let step := l.accept c rest (.readFor settings l.quoting l.wordStart c rest)
    let (atoms, last) := step.2.runFor settings
    (step.1 :: atoms, last)
termination_by l.rest.length
decreasing_by simp only [accept, _h, List.length_cons, List.length_drop]; omega

def pick (keep : Cause → Bool) (l : Lexer) : Lexer :=
  { l with findings := l.findings.filter fun f => keep f.value }

variable {settings : Settings} {keep : Cause → Bool}

theorem runFor_of_rest_nil {l : Lexer} (h : l.rest = []) : l.runFor settings = ([], l.finish) := by
  rw [runFor]
  split
  case h_1 => rfl
  case h_2 c rest hrest => simp [h] at hrest

theorem runFor_of_rest_cons {l : Lexer} {c : Char} {rest : Text} (h : l.rest = c :: rest) :
    l.runFor settings =
      let step := l.accept c rest (.readFor settings l.quoting l.wordStart c rest)
      (step.1 :: (step.2.runFor settings).1, (step.2.runFor settings).2) := by
  rw [runFor]
  split
  case h_1 hrest => simp [h] at hrest
  case h_2 c' rest' hrest =>
    obtain ⟨rfl, rfl⟩ := List.cons.inj (h.symm.trans hrest)
    rfl

/-- Leaving findings out of a step and out of what was found before is leaving them out behind it. -/
theorem accept_pick (l : Lexer) (c : Char) (rest : Text) (reading : AtomReading) :
    (l.pick keep).accept c rest (reading.pick keep) =
      ((l.accept c rest reading).1, (l.accept c rest reading).2.pick keep) := by
  simp only [accept, pick, AtomReading.pick, List.filter_append, List.filter_map]
  rfl

theorem finish_pick (h : settings.AllowsText keep) (l : Lexer) :
    (l.pick keep).finish = l.finish.pick keep := by
  have hkeep (opener : Char) := h.failure (.unterminatedQuote opener l.quoting) rfl
  cases hended : l.ended <;> cases hopener : l.quoting.outermost? <;>
    simp [finish, pick, hended, hopener, hkeep, List.filter_append]

theorem run_pick (h : settings.AllowsText keep) (l : Lexer) :
    (l.pick keep).runFor settings = (l.run.1, l.run.2.pick keep) := by
  induction l using Lexer.run.induct with
  | case1 l hrest =>
    have hpick : (l.pick keep).rest = [] := hrest
    rw [run_of_rest_nil hrest, runFor_of_rest_nil hpick, finish_pick h]
  | case2 l c rest hrest step =>
    rename_i ih
    have hpick : (l.pick keep).rest = c :: rest := hrest
    have hread := AtomReading.read_pick h l.quoting l.wordStart c rest
    have hstep : (l.pick keep).accept c rest
        (.readFor settings (l.pick keep).quoting (l.pick keep).wordStart c rest) =
        (step.1, step.2.pick keep) := by
      calc (l.pick keep).accept c rest (.readFor settings l.quoting l.wordStart c rest)
          = (l.pick keep).accept c rest ((AtomReading.read l.quoting l.wordStart c rest).pick keep) :=
            congrArg ((l.pick keep).accept c rest) hread.symm
        _ = _ := l.accept_pick c rest _
        _ = (step.1, step.2.pick keep) := by rw [← l.advance_eq_accept]
    rw [run_of_rest_cons hrest, runFor_of_rest_cons hpick]
    dsimp only
    rw [hstep, ih]

end Lexer

def lexFor (settings : Settings) (text : Text) (q : Quoting) : Lexing :=
  let (atoms, last) := (Lexer.start text q).runFor settings
  ⟨atoms, last.quoting, last.findings⟩

/-- A lexer that asks the settings on the way finds what they leave, and splits the text as ever. -/
theorem lexFor_eq {settings : Settings} {keep : Cause → Bool} (h : settings.AllowsText keep)
    (text : Text) (q : Quoting) : lexFor settings text q =
      { lex text q with findings := (lex text q).findings.filter fun f => keep f.value } := by
  have hrun := Lexer.run_pick h (Lexer.start text q)
  have hstart : (Lexer.start text q).pick keep = Lexer.start text q := rfl
  rw [hstart] at hrun
  simp only [lexFor, hrun]
  rfl

theorem lexFor_all (text : Text) (q : Quoting) : lexFor .all text q = lex text q := by
  have hall : Settings.all.AllowsText fun _ => true :=
    ⟨⟨fun _ _ => rfl, fun _ _ => rfl⟩, fun _ _ => rfl⟩
  rw [lexFor_eq hall, List.filter_eq_self.mpr fun _ _ => rfl]

theorem lex_leavesQuoting (text : Text) (q : Quoting) :
    ∀ f ∈ (lex text q).findings, f.value.isQuoting = false := by
  have hkeep : Settings.all.AllowsText fun c => !c.isQuoting := by
    refine ⟨⟨fun c hc => ?_, fun c hc => ?_⟩, fun c hc => ?_⟩ <;>
      cases c <;> simp_all [Cause.isSpelling, Cause.isStyle, Cause.isFailure, Cause.isQuoting,
        Settings.all]
  have hfindings := congrArg Lexing.findings (lexFor_eq hkeep text q)
  rw [lexFor_all] at hfindings
  intro f hf
  simpa using List.filter_eq_self.mp hfindings.symm f hf

end RecipeLint

import RecipeLint.Proofs.Lexer.Comments

/-!
# Numbers of descriptors

A redirection starts with the number of its descriptor if digits stand directly in front of the
symbol.  Whether the digits are a word of their own is not looked at.  Digits behind literal
characters are still a part of the word, since a run of literal characters takes them first; behind
anything else that a word can hold, such as a variable, a closing quote or an escape, they are taken
for a number.
-/

namespace RecipeLint

def Text.NumbersRedirection (text : Text) : Prop :=
  ∃ digits kind, digits ≠ [] ∧ (∀ d ∈ digits, d.isDigit) ∧
    digits ++ Redirection.symbol kind <+: text

namespace Atom

/-- A redirection that starts with the number of a descriptor. -/
def hasDescriptor (a : Atom) : Bool :=
  match a.kind with
  | .operator (.redirect ..) => a.text.head?.any Char.isDigit
  | _ => false

def isRun (a : Atom) : Bool :=
  a.kind.isText && a.text.head?.any a.quoting.isLiteral

/-- What a word may hold besides runs of literal characters and commands: a variable, a quote, or what
starts with a character that does not stand for itself, as an escape does and what could not be
read. -/
def isGlue (a : Atom) : Bool :=
  match a.kind with
  | .reference _ | .shellVariable _ => true
  | .text => !a.text.head?.any a.quoting.isLiteral &&
      (a.quoting.inBackticks || !a.quotingBehind.inBackticks)
  | _ => false

def OpensBackticks (a : Atom) : Prop :=
  a.quoting.inBackticks = false ∧ a.quotingBehind.inBackticks

end Atom

theorem AtomKind.eq_text_of_isText {kind : AtomKind} (h : kind.isText) : kind = .text := by
  cases kind <;> simp_all [isText]

theorem Quoting.isLiteral_of_isDigit {q : Quoting} {c : Char} (h : c.isDigit) : q.isLiteral c := by
  simp [isLiteral, isWordChar, Char.isAlphanum, h]

/-! ## Digits in front of a symbol -/

namespace Redirection

theorem mem_all (kind : Redirection) : kind ∈ all := by
  cases kind <;> decide

theorem takeWhile_symbol (kind : Redirection) (rest : Text) :
    (kind.symbol ++ rest).takeWhile Char.isDigit = [] := by
  cases kind <;> rfl

end Redirection

namespace Operator

theorem read?_of_digits {digits : Text} (hdigits : ∀ d ∈ digits, d.isDigit) (kind : Redirection)
    (rest : Text) : ∃ n found,
      read? (digits ++ (kind.symbol ++ rest)) = some (n, .redirect (descriptor? digits) found) := by
  have htake : (digits ++ (kind.symbol ++ rest)).takeWhile Char.isDigit = digits := by
    rw [List.takeWhile_append_of_pos hdigits, kind.takeWhile_symbol, List.append_nil]
  have hfind : (Redirection.all.find? (·.symbol.isPrefixOf (kind.symbol ++ rest))).isSome := by
    rw [List.find?_isSome]
    exact ⟨kind, kind.mem_all, List.isPrefixOf_iff_prefix.mpr (List.prefix_append _ _)⟩
  obtain ⟨found, hfound⟩ := Option.isSome_iff_exists.mp hfind
  refine ⟨digits.length + found.symbol.length, found, ?_⟩
  simp only [read?, htake, List.drop_left, hfound]

theorem exists_redirect_iff {c : Char} {rest : Text} :
    (c.isDigit ∧ ∃ n descriptor? kind, read? (c :: rest) = some (n, .redirect descriptor? kind)) ↔
      Text.NumbersRedirection (c :: rest) := by
  constructor
  · rintro ⟨hc, n, descriptor?, kind, hread⟩
    obtain ⟨-, ⟨digits, kind, hdigits, -, htake⟩ | ⟨which, hop, -⟩⟩ := read?_cases hread
    · refine ⟨digits, kind, ?_, hdigits, htake ▸ List.take_prefix _ _⟩
      rintro rfl
      have hsymbol := kind.takeWhile_symbol ((c :: rest).drop n)
      rw [List.nil_append] at htake
      rw [← htake, List.take_append_drop] at hsymbol
      simp [hc] at hsymbol
    · simp at hop
  · rintro ⟨digits, kind, hne, hdigits, behind, htext⟩
    rw [List.append_assoc] at htext
    obtain ⟨n, found, hread⟩ := read?_of_digits hdigits kind behind
    obtain ⟨d, digits, rfl⟩ := List.exists_cons_of_ne_nil hne
    obtain ⟨rfl, -⟩ := List.cons.inj htext
    exact ⟨hdigits d List.mem_cons_self, n, _, found, htext ▸ hread⟩

end Operator

/-! ## One step -/

namespace AtomReading

variable {q : Quoting} {wordStart : Bool} {c : Char} {rest : Text}

theorem kind_eq_operator_iff {op : Operator} : (read q wordStart c rest).kind = .operator op ↔
    c ≠ '$' ∧ q.allowsOperators ∧ ∃ n, Operator.read? (c :: rest) = some (n, op) := by
  constructor
  · intro h
    obtain ⟨hdollar, hq, ⟨n, found, hread⟩ | ⟨hread, hnext, hblank⟩⟩ :=
      read_of_isBreak (h ▸ rfl : (read q wordStart c rest).kind.isBreak)
    · simp only [read, hdollar, hq, hread, if_false, if_true, AtomKind.operator.injEq] at h
      exact ⟨hdollar, hq, n, h ▸ hread⟩
    · simp [read, ofBlank, hdollar, hq, hread, hnext, hblank] at h
  · rintro ⟨hdollar, hq, n, hread⟩
    simp only [read, hdollar, hq, hread, if_false, if_true]

theorem read_run (h : (read q wordStart c rest).kind = .text) (hc : q.isLiteral c) :
    read q wordStart c rest = ⟨.text, (rest.takeWhile q.isLiteral).length, [], q⟩ := by
  obtain ⟨hdollar, hescape⟩ := Quoting.of_isLiteral hc
  have hrun : ofText q c rest = ⟨.text, (rest.takeWhile q.isLiteral).length, [], q⟩ := by
    unfold ofText
    rw [if_neg hescape, if_pos hc]
  have hnext := Quoting.next?_of_isLiteral hc
  unfold read at h ⊢
  rw [if_neg hdollar] at h ⊢
  cases hop : if q.allowsOperators then Operator.read? (c :: rest) else none with
  | some found => simp [hop] at h
  | none =>
    simp only [hop, hnext] at h ⊢
    split_ifs at h ⊢
    case pos =>
      unfold ofBlank at h ⊢
      split_ifs at h ⊢
      exact hrun
    case neg => exact hrun

end AtomReading

namespace Lexer

variable {l : Lexer} {c : Char} {rest : Text}

/-- Only what is ahead tells whether a number of a descriptor is read. -/
theorem hasDescriptor_advance_iff : (l.advance c rest).1.hasDescriptor ↔
    l.quoting.allowsOperators ∧ Text.NumbersRedirection (c :: rest) := by
  have hhead : (l.advance c rest).1.text.head?.any Char.isDigit = c.isDigit := rfl
  have hkind : (l.advance c rest).1.kind =
      (AtomReading.read l.quoting l.wordStart c rest).kind := rfl
  rw [← Operator.exists_redirect_iff]
  constructor
  · intro h
    unfold Atom.hasDescriptor at h
    split at h
    case h_1 descriptor? kind hop =>
      obtain ⟨-, hq, n, hread⟩ := AtomReading.kind_eq_operator_iff.mp (hkind ▸ hop)
      exact ⟨hq, hhead ▸ h, n, descriptor?, kind, hread⟩
    case h_2 => simp at h
  · rintro ⟨hq, hc, n, descriptor?, kind, hread⟩
    have hdollar : c ≠ '$' := by
      rintro rfl
      simp at hc
    have hop : (l.advance c rest).1.kind = .operator (.redirect descriptor? kind) :=
      AtomReading.kind_eq_operator_iff.mpr ⟨hdollar, hq, n, hread⟩
    simp only [Atom.hasDescriptor, hop, hhead, hc]

theorem isRun_advance {d : Char} {behind : Text} (hd : d.isDigit)
    (h : (l.advance c rest).2.rest = d :: behind) : (l.advance c rest).1.isRun = false := by
  rw [Bool.eq_false_iff]
  intro hrun
  obtain ⟨htext, hliteral⟩ := Bool.and_eq_true_iff.mp hrun
  have hread := AtomReading.read_run (AtomKind.eq_text_of_isText htext) hliteral
  have hrest : rest.drop (rest.takeWhile l.quoting.isLiteral).length = d :: behind := by
    rw [← h]
    simp only [advance, hread]
  have hnot := Text.eq_false_of_drop_takeWhile hrest
  simp [Quoting.isLiteral_of_isDigit hd] at hnot

theorem kind_ne_comment_of_hasDescriptor {a : Atom} {behind : List Atom}
    (hrun : (l.advance c rest).2.run.1 = a :: behind) (ha : a.hasDescriptor) :
    (l.advance c rest).1.kind ≠ .comment := by
  intro hcomment
  rcases run_advance_comment hcomment with hnone | ⟨closing, others, hclosing, hcloses⟩
  · simp [hrun] at hnone
  · obtain ⟨rfl, -⟩ := List.cons.inj (hrun.symm.trans hclosing)
    have htext : a.kind.isText = false := by
      unfold Atom.hasDescriptor at ha
      split at ha
      case h_1 hkind => simp [hkind, AtomKind.isText]
      case h_2 => simp at ha
    have hbehind := Atom.quotingBehind_of_quoteTo? (Atom.quoteTo?_eq_none_of_not_isText htext)
    simp [Atom.ClosesBackticks, hbehind] at hcloses

end Lexer

/-! ## A text -/

/-- What is no run of literal characters goes on with a word, unless it is a blank, an operator or a
backtick that opens a command. -/
theorem Atom.isGlue_eq_false_iff {a : Atom} (hrun : a.isRun = false) (hcomment : a.kind ≠ .comment) :
    a.isGlue = false ↔ a.kind.isBreak ∨ a.OpensBackticks := by
  by_cases htext : a.kind.isText
  · have hkind := AtomKind.eq_text_of_isText htext
    have hliteral : a.text.head?.any a.quoting.isLiteral = false := by
      simpa [isRun, htext] using hrun
    simp [isGlue, OpensBackticks, AtomKind.isBreak, hkind, hliteral]
  · have hnone := quoteTo?_eq_none_of_not_isText (Bool.eq_false_iff.mpr htext)
    have hcommand : ¬a.OpensBackticks := by
      simp [OpensBackticks, quotingBehind_of_quoteTo? hnone]
    cases hkind : a.kind <;> simp_all [isGlue, AtomKind.isBreak, AtomKind.isText]

/-- Where a redirection starts with the number of a descriptor: wherever operators have a meaning and
digits stand directly in front of its symbol.  What stands before the digits does not count.  It is
never a run of literal characters, which would have taken the digits.  So the digits start a word,
at the start of the text or behind a blank, an operator or the backtick that opens their command,
just if nothing else of a word stands before them. -/
theorem lex_descriptor {text : Text} {q : Quoting} {before behind : List Atom} {a : Atom}
    (hatoms : (lex text q).atoms = before ++ a :: behind) :
    (a.hasDescriptor ↔ a.quoting.allowsOperators ∧
      Text.NumbersRedirection ((a :: behind).flatMap Atom.text)) ∧
    (a.hasDescriptor → ∀ b, before.getLast? = some b → b.isRun = false ∧
      (b.isGlue = false ↔ b.kind.isBreak ∨ b.OpensBackticks)) := by
  constructor
  · obtain ⟨m, c, rest, -, rfl, rfl, -⟩ := (Lexer.start text q).exists_step_of_run hatoms
    rw [Lexer.hasDescriptor_advance_iff, Lexer.flatMap_text_advance]
    rfl
  · intro ha b hb
    obtain ⟨init, rfl⟩ := List.getLast?_eq_some_iff.mp hb
    rw [List.append_assoc, List.singleton_append] at hatoms
    obtain ⟨m, c, rest, -, rfl, hbehind, -⟩ := (Lexer.start text q).exists_step_of_run hatoms
    obtain ⟨d, others, hrest, rfl, -⟩ := Lexer.exists_advance_of_run hbehind
    have hd := (Operator.exists_redirect_iff.mpr (Lexer.hasDescriptor_advance_iff.mp ha).2).1
    have hrun := Lexer.isRun_advance hd hrest
    exact ⟨hrun, Atom.isGlue_eq_false_iff hrun
      (Lexer.kind_ne_comment_of_hasDescriptor hbehind ha)⟩

/-- Behind an opening backtick digits start a word. -/
theorem lex_descriptor_backtick :
    ∃ opening a, (lex ['\x60', '2', '>'] .plain).atoms = [opening] ++ a :: [] ∧
      a.hasDescriptor ∧ opening.isRun = false ∧ opening.isGlue = false := by
  have hatoms : (lex ['\x60', '2', '>'] .plain).atoms = [⟨.text, ['\x60'], ⟨0, 1⟩, .plain⟩] ++
      ⟨.operator (.redirect (some 2) .output), ['2', '>'], ⟨1, 3⟩, .backticks⟩ :: [] := by
    unfold lex
    rw [Lexer.run_of_rest_cons rfl, Lexer.run_of_rest_cons rfl, Lexer.run_of_rest_nil rfl]
    rfl
  obtain ⟨hnumber, hbefore⟩ := lex_descriptor hatoms
  have ha := hnumber.mpr ⟨rfl, ['2'], .output, List.cons_ne_nil _ _,
    List.forall_mem_singleton.mpr rfl, List.prefix_refl _⟩
  obtain ⟨hrun, hglue⟩ := hbefore ha _ rfl
  exact ⟨_, _, hatoms, ha, hrun, hglue.mpr (.inr ⟨rfl, rfl⟩)⟩

/-- Behind a closing quote the last digits of a word are taken for the number of a descriptor, behind
a letter they are not. -/
theorem lex_descriptor_quote :
    (lex ['"', '"', '2', '>'] .plain).atoms =
      [⟨.text, ['"'], ⟨0, 1⟩, .plain⟩, ⟨.text, ['"'], ⟨1, 2⟩, .double⟩,
        ⟨.operator (.redirect (some 2) .output), ['2', '>'], ⟨2, 4⟩, .plain⟩] ∧
    (lex ['a', '2', '>'] .plain).atoms =
      [⟨.text, ['a', '2'], ⟨0, 2⟩, .plain⟩,
        ⟨.operator (.redirect none .output), ['>'], ⟨2, 3⟩, .plain⟩] := by
  constructor <;> unfold lex
  · rw [Lexer.run_of_rest_cons rfl, Lexer.run_of_rest_cons rfl, Lexer.run_of_rest_cons rfl,
      Lexer.run_of_rest_nil rfl]
    rfl
  · rw [Lexer.run_of_rest_cons rfl, Lexer.run_of_rest_cons rfl, Lexer.run_of_rest_nil rfl]
    rfl

end RecipeLint

import RecipeLint.Proofs.Lexer.Tiling

/-!
# The states of the atoms

Whoever looks at the atoms works out the state behind each of them from its characters, while the
lexer keeps a state of its own.  Both agree on every atom, so the states recorded in the atoms are
those that the lexer was in, and no quote that counts in a state hides in an atom of that state.
-/

namespace RecipeLint

namespace Quoting

theorem next?_of_isLiteral {q : Quoting} {c : Char} (h : q.isLiteral c) : q.next? c = none := by
  cases hq : q.next? c with
  | none => rfl
  | some next =>
    exfalso
    unfold next? at hq
    split at hq <;> first | exact absurd h (by decide) | exact absurd hq (by simp)

theorem isLiteral_dollar (q : Quoting) : q.isLiteral '$' = false := by
  cases q <;> decide

/-- Where a backslash starts no escape, it stands for itself. -/
theorem isLiteral_backslash (q : Quoting) : q.isLiteral '\\' = !q.allowsEscapes := by
  cases q <;> decide

theorem of_isLiteral {q : Quoting} {c : Char} (h : q.isLiteral c) :
    c ≠ '$' ∧ ¬(c = '\\' ∧ q.allowsEscapes) := by
  constructor
  · rintro rfl
    simp [isLiteral_dollar] at h
  · rintro ⟨rfl, hescape⟩
    simp [isLiteral_backslash, hescape] at h

theorem next?_dollar (q : Quoting) : q.next? '$' = none := by
  cases q <;> rfl

theorem next?_backslash (q : Quoting) : q.next? '\\' = none := by
  cases q <;> rfl

theorem allowsOperators_iff (q : Quoting) :
    q.allowsOperators ↔ q = .plain ∨ q = .backticks ∨ q = .doubleBackticks := by
  cases q <;> simp [allowsOperators]

end Quoting

namespace Atom

/-- Each atom was read in the state behind the one before it, from the first state to the last. -/
def Chain : Quoting → List Atom → Quoting → Prop
  | q, [], last => last = q
  | q, a :: atoms, last => a.quoting = q ∧ Chain a.quotingBehind atoms last

theorem Chain.of_append {q last : Quoting} {before behind : List Atom} {a : Atom}
    (h : Chain q (before ++ a :: behind) last) : Chain a.quotingBehind behind last := by
  induction before generalizing q with
  | nil => exact h.2
  | cons b before ih => exact ih h.2

/-- What the atom is has a meaning in its state. Literal characters change the state only in a quote
that stands alone; behind a dollar sign or a backslash they have another meaning. -/
structure Suits (a : Atom) : Prop where
  separator : a.kind.isSeparator → a.quoting.allowsOperators
  shellVariable : ∀ name, a.kind = .shellVariable name → a.quoting.allowsVariables
  text : a.kind.isText → a.isQuote ∨ a.text.head? = some '$' ∨
    (a.text.head? = some '\\' ∧ a.quoting.allowsEscapes) ∨
    ∀ c ∈ a.text, a.quoting.next? c = none

theorem quoteTo?_eq_none {a : Atom} (h : ∀ c, a.text = [c] → a.quoting.next? c = none) :
    a.quoteTo? = none := by
  unfold quoteTo?
  split
  case h_1 c _ htext => exact h c htext
  case h_2 => rfl

theorem quoteTo?_eq_none_of_not_isText {a : Atom} (h : a.kind.isText = false) :
    a.quoteTo? = none := by
  unfold quoteTo?
  split
  case h_1 c hkind _ => simp [hkind, AtomKind.isText] at h
  case h_2 => rfl

theorem quotingBehind_of_quoteTo? {a : Atom} (h : a.quoteTo? = none) :
    a.quotingBehind = a.quoting := by
  simp [quotingBehind, h]

end Atom

namespace AtomReading

def atom (r : AtomReading) (q : Quoting) (c : Char) (rest : Text) (span : Span) : Atom :=
  ⟨r.kind, c :: rest.take r.more, span, q⟩

structure Agrees (q : Quoting) (c : Char) (rest : Text) (r : AtomReading) : Prop where
  suits : ∀ span, (r.atom q c rest span).Suits
  behind : ∀ span, (r.atom q c rest span).quotingBehind = r.quoting

variable {q : Quoting} {c : Char} {rest : Text}

theorem agrees_separator (hq : q.allowsOperators) {kind : AtomKind} (hkind : kind.isSeparator)
    (more : Nat) (findings : List Finding) : Agrees q c rest ⟨kind, more, findings, q⟩ := by
  have htext : kind.isText = false := by cases kind <;> simp_all [AtomKind.isSeparator,
    AtomKind.isText]
  refine ⟨fun span => ⟨fun _ => hq, fun name hname => ?_, fun h => ?_⟩, fun span => ?_⟩
  · obtain rfl : kind = .shellVariable name := hname
    simp [AtomKind.isSeparator] at hkind
  · simp [atom, htext] at h
  · exact Atom.quotingBehind_of_quoteTo? (Atom.quoteTo?_eq_none_of_not_isText htext)

theorem agrees_text (hc : q.next? c = none) (more : Nat) (findings : List Finding)
    (htext : c = '$' ∨ (c = '\\' ∧ q.allowsEscapes) ∨ ∀ d ∈ rest.take more, q.next? d = none) :
    Agrees q c rest ⟨.text, more, findings, q⟩ := by
  refine ⟨fun span => ⟨fun h => by simp [atom, AtomKind.isSeparator] at h,
    fun name h => by simp [atom] at h, fun _ => .inr ?_⟩, fun span => ?_⟩
  · rcases htext with rfl | ⟨rfl, hescape⟩ | hrest
    · exact .inl rfl
    · exact .inr (.inl ⟨rfl, hescape⟩)
    · refine .inr (.inr fun d hd => ?_)
      rcases List.mem_cons.mp hd with rfl | hd
      · exact hc
      · exact hrest d hd
  · apply Atom.quotingBehind_of_quoteTo?
    apply Atom.quoteTo?_eq_none
    intro d hd
    obtain ⟨rfl, -⟩ := List.cons.inj hd
    exact hc

theorem ofText_agrees (hc : q.next? c = none) : (ofText q c rest).Agrees q c rest := by
  unfold ofText
  split
  case isTrue hescape =>
    have hagrees (more : Nat) (findings : List Finding) :
        Agrees q c rest ⟨.text, more, findings, q⟩ :=
      agrees_text hc more findings (.inr (.inl hescape))
    split
    case h_1 | h_2 | h_3 | h_4 => exact hagrees _ _
  case isFalse =>
    split
    case isTrue hliteral =>
      refine agrees_text hc _ _ (.inr (.inr fun d hd => ?_))
      rw [← List.prefix_iff_eq_take.mp (List.takeWhile_prefix _)] at hd
      exact Quoting.next?_of_isLiteral (List.mem_takeWhile_imp hd)
    case isFalse => exact agrees_text hc _ _ (.inr (.inr (by simp)))

theorem ofBlank_agrees (hc : q.next? c = none) (hq : q.allowsOperators) (wordStart : Bool) :
    (ofBlank q wordStart c rest).Agrees q c rest := by
  unfold ofBlank
  split
  case isTrue => exact agrees_separator hq rfl _ _
  case isFalse =>
    split
    case isTrue => exact agrees_separator hq rfl _ _
    case isFalse => exact ofText_agrees hc

theorem ofDollar_agrees (q : Quoting) (rest : Text) :
    (ofDollar q rest).Agrees q '$' rest := by
  have htext (more : Nat) (findings : List Finding) :
      Agrees q '$' rest ⟨.text, more, findings, q⟩ :=
    agrees_text (Quoting.next?_dollar q) more findings (.inl rfl)
  unfold ofDollar
  split
  case h_1 behind =>
    split
    case h_1 taken name hread =>
      obtain ⟨hq, -⟩ := Option.ite_none_right_eq_some.mp hread
      refine ⟨fun span => ⟨fun h => ?_, fun _ _ => hq, fun h => ?_⟩, fun span => rfl⟩
      · simp [atom, AtomKind.isSeparator] at h
      · simp [atom, AtomKind.isText] at h
    case h_2 => exact htext _ _
  case h_2 =>
    extract_lets reading
    split
    case h_1 r _ =>
      refine ⟨fun span => ⟨fun h => ?_, fun name h => ?_, fun h => ?_⟩, fun span => rfl⟩
      · simp [atom, AtomKind.isSeparator] at h
      · simp [atom] at h
      · simp [atom, AtomKind.isText] at h
    case h_2 | h_3 => exact htext _ _

theorem read_agrees (q : Quoting) (wordStart : Bool) (c : Char) (rest : Text) :
    (read q wordStart c rest).Agrees q c rest := by
  unfold read
  split
  case isTrue hc => exact hc ▸ ofDollar_agrees q rest
  case isFalse =>
    split
    case h_1 taken op hread =>
      obtain ⟨hq, -⟩ := Option.ite_none_right_eq_some.mp hread
      exact agrees_separator hq rfl _ _
    case h_2 =>
      split
      case h_1 next hnext =>
        refine ⟨fun span => ⟨fun h => ?_, fun name h => ?_, fun _ => .inl ?_⟩, fun span => ?_⟩
        · simp [atom, AtomKind.isSeparator] at h
        · simp [atom] at h
        · simp [atom, Atom.isQuote, Atom.quoteTo?, hnext]
        · simp [atom, Atom.quotingBehind, Atom.quoteTo?, hnext]
      case h_2 hc =>
        split
        case isTrue hq => exact ofBlank_agrees hc hq wordStart
        case isFalse => exact ofText_agrees hc

end AtomReading

namespace Lexer

/-- One step reads an atom in the state of the lexer, which suits it, and goes on in the state
behind it. -/
theorem advance_agrees (l : Lexer) (c : Char) (rest : Text) :
    (l.advance c rest).1.quoting = l.quoting ∧ (l.advance c rest).1.Suits ∧
      (l.advance c rest).1.quotingBehind = (l.advance c rest).2.quoting := by
  have hagrees := AtomReading.read_agrees l.quoting l.wordStart c rest
  exact ⟨rfl, hagrees.suits _, hagrees.behind _⟩

theorem finish_quoting (l : Lexer) : l.finish.quoting = l.quoting := by
  unfold finish
  split <;> rfl

theorem chain_run (l : Lexer) : Atom.Chain l.quoting l.run.1 l.run.2.quoting := by
  fun_induction run l with
  | case1 l hrest => exact l.finish_quoting
  | case2 l c rest hrest step atoms last hrun ih =>
    obtain ⟨hquoting, -, hbehind⟩ := l.advance_agrees c rest
    rw [hrun, ← hbehind] at ih
    exact ⟨hquoting, ih⟩

theorem suits_run (l : Lexer) : ∀ a ∈ l.run.1, a.Suits := by
  fun_induction run l with
  | case1 l hrest => simp
  | case2 l c rest hrest step atoms last hrun ih =>
    rw [hrun] at ih
    obtain ⟨-, hsuits, -⟩ := l.advance_agrees c rest
    intro a ha
    rcases List.mem_cons.mp ha with rfl | ha
    · exact hsuits
    · exact ih a ha

end Lexer

theorem lex_chain (text : Text) (q : Quoting) :
    Atom.Chain q (lex text q).atoms (lex text q).quoting :=
  (Lexer.start text q).chain_run

theorem suits_of_mem_lex {text : Text} {q : Quoting} {a : Atom} (ha : a ∈ (lex text q).atoms) :
    a.Suits :=
  (Lexer.start text q).suits_run a ha

/-- The states of the atoms are those that the lexer was in: the first atom has the state of the
start, each further one that behind the atom before it, and the state at the end is the one behind
the last atom.  Blanks, operators and comments occur in the three states that give them a meaning
only, shell variables never in single quotes.  Literal characters that are no quote, and stand
neither behind a dollar sign nor in an escape, have no quote of their state among them. -/
theorem lex_states (text : Text) (q : Quoting) :
    Atom.Chain q (lex text q).atoms (lex text q).quoting ∧
    ∀ a ∈ (lex text q).atoms,
      (a.kind.isSeparator →
        a.quoting = .plain ∨ a.quoting = .backticks ∨ a.quoting = .doubleBackticks) ∧
      (∀ name, a.kind = .shellVariable name → a.quoting.inSingle = false) ∧
      (a.kind.isText → a.isQuote ∨ a.text.head? = some '$' ∨
        (a.text.head? = some '\\' ∧ a.quoting.allowsEscapes) ∨
        ∀ c ∈ a.text, a.quoting.next? c = none) := by
  refine ⟨lex_chain text q, fun a ha => ?_⟩
  have hsuits := suits_of_mem_lex ha
  refine ⟨fun h => ?_, fun name h => ?_, hsuits.text⟩
  · exact a.quoting.allowsOperators_iff.mp (hsuits.separator h)
  · simpa [Quoting.allowsVariables] using hsuits.shellVariable name h

end RecipeLint

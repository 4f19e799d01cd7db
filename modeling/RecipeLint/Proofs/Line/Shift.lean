import RecipeLint.LineCheck
import RecipeLint.Proofs.Lexer.Resume

/-!
# Reports further right

A report does not depend on where its text stands: moving the atoms right moves the words, the
commands and the findings that are made of them, and changes nothing else.
-/

namespace RecipeLint

theorem Span.merge_shift (offset : Nat) (s t : Span) :
    (s.shift offset).merge (t.shift offset) = (s.merge t).shift offset := by
  simp only [merge, shift, Nat.add_min_add_right, Nat.add_max_add_right]

/-! ## Words -/

def Word.shift (offset : Nat) (w : Word) : Word :=
  { w with atoms := w.atoms.map (Atom.shift offset), span := w.span.shift offset }

theorem Word.ofAtoms?_shift (offset : Nat) (atoms : List Atom) (after : Quoting) :
    ofAtoms? (atoms.map (Atom.shift offset)) after =
      (ofAtoms? atoms after).map (Word.shift offset) := by
  unfold ofAtoms?
  rw [List.head?_map, List.getLast?_map]
  cases atoms.head? with
  | none => rfl
  | some first =>
    cases atoms.getLast? with
    | none => rfl
    | some last =>
      simp only [Option.map_some, Word.shift, Atom.shift, Span.merge_shift]

namespace Token

def shift (offset : Nat) : Token → Token
  | word w => word (w.shift offset)
  | operator op s => operator op (s.shift offset)
  | comment text s => comment text (s.shift offset)

theorem ofSeparator?_shift (offset : Nat) (a : Atom) :
    ofSeparator? (a.shift offset) = (ofSeparator? a).map (Token.shift offset) := by
  obtain ⟨kind, text, span, q⟩ := a
  cases kind <;> rfl

theorem ofWord?_shift (offset : Nat) (atoms : List Atom) (after : Quoting) :
    ofWord? (atoms.map (Atom.shift offset)) after =
      (ofWord? atoms after).map (Token.shift offset) := by
  simp only [ofWord?, Word.ofAtoms?_shift, Option.map_map]
  rfl

theorem ofAtomsAfter_shift (offset : Nat) (after : Quoting) (before atoms : List Atom) :
    ofAtomsAfter after (before.map (Atom.shift offset)) (atoms.map (Atom.shift offset)) =
      (ofAtomsAfter after before atoms).map (Token.shift offset) := by
  induction atoms generalizing before with
  | nil => simp only [List.map_nil, ofAtomsAfter, ofWord?_shift, Option.toList_map]
  | cons a atoms ih =>
    have hbetween : (a.shift offset).isBetweenWords = a.isBetweenWords := rfl
    rw [List.map_cons, ofAtomsAfter, ofAtomsAfter, hbetween]
    by_cases ha : a.isBetweenWords
    · have hempty := ih []
      rw [List.map_nil] at hempty
      rw [if_pos ha, if_pos ha, hempty]
      simp only [ofWord?_shift, ofSeparator?_shift, Option.toList_map, List.map_append]
    · have hlonger := ih (before ++ [a])
      rw [List.map_append, List.map_singleton] at hlonger
      rw [if_neg ha, if_neg ha, hlonger]

theorem ofAtoms_shift (offset : Nat) (atoms : List Atom) (after : Quoting) :
    ofAtoms (atoms.map (Atom.shift offset)) after =
      (ofAtoms atoms after).map (Token.shift offset) :=
  ofAtomsAfter_shift offset after [] atoms

end Token

/-! ## Commands -/

def Assignment.shift (offset : Nat) (a : Assignment) : Assignment :=
  { a with value? := a.value?.map (Word.shift offset), span := a.span.shift offset }

def Redirect.shift (offset : Nat) (r : Redirect) : Redirect :=
  { r with target? := r.target?.map (Word.shift offset), span := r.span.shift offset }

def Command.shift (offset : Nat) (c : Command) : Command where
  assignments := c.assignments.map (Assignment.shift offset)
  name? := c.name?.map (Word.shift offset)
  args := c.args.map (Word.shift offset)
  redirects := c.redirects.map (Redirect.shift offset)
  span := c.span.shift offset

theorem Assignment.ofWord?_shift (offset : Nat) (w : Word) :
    ofWord? (w.shift offset) = (ofWord? w).map (Assignment.shift offset) := by
  obtain ⟨atoms, span, closed⟩ := w
  cases atoms with
  | nil => rfl
  | cons first others =>
    obtain ⟨kind, text, place, q⟩ := first
    simp only [ofWord?, Word.shift, List.map_cons, Atom.shift]
    by_cases hfirst : kind.isText && q == .plain
    · simp only [hfirst, if_true]
      split
      case h_1 name c rest hspan =>
        by_cases hname : isIdentifier name
        · have hafter : (Atom.mk kind text (place.shift offset) q ::
              others.map (Atom.shift offset)).getLast?.map Atom.quotingBehind =
              (Atom.mk kind text place q :: others).getLast?.map Atom.quotingBehind := by
            rw [← List.getLast?_map, ← List.getLast?_map, List.map_cons, List.map_cons, List.map_map]
            rfl
          have hstart : (place.shift offset).start + Text.byteSize name + 1 =
              place.start + Text.byteSize name + 1 + offset := by
            simp only [Span.shift]
            omega
          simp only [hname, if_true, Option.map_some, Assignment.shift, hafter, hstart]
          rw [← Word.ofAtoms?_shift, List.map_append]
          by_cases hrest : rest.isEmpty
          · simp only [hrest, if_true, List.map_nil]
          · simp only [hrest, Bool.false_eq_true, if_false, List.map_cons, List.map_nil]
            rfl
        · simp only [hname, Bool.false_eq_true, if_false, Option.map_none]
      case h_2 => rfl
    · simp only [hfirst, Bool.false_eq_true, if_false, Option.map_none]

namespace Command

namespace Draft

def shift (offset : Nat) (d : Draft) : Draft where
  assignments := d.assignments.map (Assignment.shift offset)
  name? := d.name?.map (Word.shift offset)
  args := d.args.map (Word.shift offset)
  redirects := d.redirects.map (Redirect.shift offset)
  awaiting? := d.awaiting?.map (Redirect.shift offset)
  span? := d.span?.map (Span.shift offset)

variable (offset : Nat) (d : Draft)

theorem cover_shift (s : Span) :
    (d.shift offset).cover (s.shift offset) = (d.cover s).shift offset := by
  cases hspan : d.span? <;> simp [cover, shift, hspan, Span.merge_shift]

theorem settle_shift : (d.shift offset).settle = d.settle.shift offset := by
  simp [settle, shift, Option.toList_map]

theorem word_shift (w : Word) : (d.shift offset).word (w.shift offset) = (d.word w).shift offset := by
  have hspan : (w.shift offset).span = w.span.shift offset := rfl
  unfold word
  rw [hspan, cover_shift]
  generalize d.cover w.span = d
  obtain ⟨assignments, name?, args, redirects, awaiting?, span?⟩ := d
  cases awaiting? with
  | some r => simp [shift, Redirect.shift, Span.merge_shift]
  | none =>
    cases name? with
    | some name => simp [shift]
    | none =>
      cases hassignment : Assignment.ofWord? w <;>
        simp [shift, Assignment.ofWord?_shift, hassignment]

theorem redirect_shift (r : Redirect) :
    (d.shift offset).redirect (r.shift offset) = (d.redirect r).shift offset := by
  have hspan : (r.shift offset).span = r.span.shift offset := rfl
  unfold redirect
  rw [hspan, cover_shift, settle_shift]
  rfl

theorem close?_shift : (d.shift offset).close? = d.close?.map (Command.shift offset) := by
  simp only [close?, settle_shift]
  cases hspan : d.settle.span? <;> simp [shift, hspan, Command.shift]

end Draft

theorem ofTokensAfter_shift (offset : Nat) (d : Draft) (tokens : List Token) :
    ofTokensAfter (d.shift offset) (tokens.map (Token.shift offset)) =
      (ofTokensAfter d tokens).map (Command.shift offset) := by
  induction tokens generalizing d with
  | nil => simp only [List.map_nil, ofTokensAfter, Draft.close?_shift, Option.toList_map]
  | cons token tokens ih =>
    cases token with
    | word w => simp only [List.map_cons, Token.shift, ofTokensAfter, Draft.word_shift, ih]
    | operator op span =>
      cases op with
      | control which =>
        have hempty : Draft.shift offset {} = {} := rfl
        have hrest := ih {}
        rw [hempty] at hrest
        simp only [List.map_cons, Token.shift, ofTokensAfter, Draft.close?_shift,
          Option.toList_map, hrest, List.map_append]
      | redirect descriptor? kind =>
        have hredirect := d.redirect_shift offset ⟨descriptor?, kind, none, span⟩
        rw [List.map_cons, Token.shift, ofTokensAfter, ofTokensAfter, ← ih, ← hredirect]
        rfl
    | comment text span => simp only [List.map_cons, Token.shift, ofTokensAfter, ih]

theorem ofTokens_shift (offset : Nat) (tokens : List Token) :
    ofTokens (tokens.map (Token.shift offset)) = (ofTokens tokens).map (Command.shift offset) :=
  ofTokensAfter_shift offset {} tokens

end Command

/-! ## References inside references -/

def Reference.shiftStart (offset : Nat) (found : Nat × Reference) : Nat × Reference :=
  (found.1 + offset, found.2)

mutual

theorem Part.nested_shift (offset start : Nat) (part : Part) :
    part.nested (start + offset) = (part.nested start).map (Reference.shiftStart offset) := by
  cases part with
  | literal text => rfl
  | reference inner =>
    rw [Part.nested, Part.nested, List.map_cons, Reference.nested_shift]
    rfl

theorem MakeText.nested_shift (offset start : Nat) (parts : List Part) :
    MakeText.nested (start + offset) parts =
      (MakeText.nested start parts).map (Reference.shiftStart offset) := by
  cases parts with
  | nil => rfl
  | cons part parts =>
    rw [MakeText.nested, MakeText.nested, List.map_append, Part.nested_shift,
      Nat.add_right_comm, MakeText.nested_shift]

theorem Reference.nested_shift (offset start : Nat) (r : Reference) :
    r.nested (start + offset) = (r.nested start).map (Reference.shiftStart offset) := by
  obtain ⟨delimiter, name, chain, text⟩ := r
  rw [Reference.nested, Reference.nested, List.map_append, Nat.add_right_comm,
    MakeText.nested_shift, Nat.add_right_comm, Link.nestedAll_shift]

theorem Link.nestedAll_shift (offset start : Nat) (chain : List Link) :
    Link.nestedAll (start + offset) chain =
      (Link.nestedAll start chain).map (Reference.shiftStart offset) := by
  cases chain with
  | nil => rfl
  | cons link chain =>
    rw [Link.nestedAll, Link.nestedAll, List.map_append, Link.nested_shift, Nat.add_right_comm,
      Link.nestedAll_shift]

theorem Link.nested_shift (offset start : Nat) (link : Link) :
    link.nested (start + offset) = (link.nested start).map (Reference.shiftStart offset) := by
  cases link with
  | empty => rfl
  | colon modifier =>
    rw [Link.nested, Link.nested, Nat.add_right_comm, Modifier.nested_shift]
  | joined modifier => rw [Link.nested, Link.nested, Modifier.nested_shift]

theorem Modifier.nested_shift (offset start : Nat) (modifier : Modifier) :
    modifier.nested (start + offset) = (modifier.nested start).map (Reference.shiftStart offset) := by
  cases modifier <;>
    simp only [Modifier.nested, List.map_append, List.map_nil, Nat.add_right_comm _ offset,
      MakeText.nested_shift offset]

end

end RecipeLint

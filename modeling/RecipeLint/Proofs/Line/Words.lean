import RecipeLint.Proofs.Lexer.Comments
import RecipeLint.Proofs.Line.WholeWords

/-!
# Words and tokens in their order

The tokens of a line stand one behind the other, and a comment is the last of them, since it goes on
to the end of the text.  A word is a part of the text, its span is that of its characters, and it is
closed if its last atom leads back to the state of its first.
-/

namespace RecipeLint

/-! ## Comments -/

namespace AtomReading

variable {q : Quoting} {wordStart : Bool} {c : Char} {rest : Text}

theorem more_of_comment (h : (read q wordStart c rest).kind = .comment)
    (hq : q.inBackticks = false) : (read q wordStart c rest).more = rest.length := by
  obtain ⟨rfl, hstart, hoperators⟩ := of_comment h
  rw [hstart, read_comment hoperators]
  exact if_neg (by simp [hq])

end AtomReading

namespace Atom

def endsLine (a : Atom) : Bool :=
  match a.kind with
  | .comment => a.quoting == .plain
  | _ => false

end Atom

theorem Lexer.pairwise_endsLine (l : Lexer) :
    l.run.1.Pairwise fun a _ => a.endsLine = false := by
  induction l using Lexer.run.induct with
  | case1 l hrest =>
    rw [run_of_rest_nil hrest]
    exact .nil
  | case2 l c rest hrest step =>
    rename_i ih
    rw [run_of_rest_cons hrest]
    refine List.pairwise_cons.mpr ⟨fun b hb => Bool.eq_false_iff.mpr fun hends => ?_, ih⟩
    have hread : (AtomReading.read l.quoting l.wordStart c rest).more = rest.length := by
      unfold Atom.endsLine at hends
      split at hends
      case h_1 hkind =>
        have hplain : l.quoting = .plain := beq_iff_eq.mp hends
        exact AtomReading.more_of_comment hkind (by rw [hplain]; rfl)
      case h_2 => exact absurd hends Bool.false_ne_true
    have hrest : step.2.rest = [] := by
      change rest.drop _ = []
      rw [hread, List.drop_length]
    rw [run_of_rest_nil hrest] at hb
    exact absurd hb List.not_mem_nil

/-! ## Words -/

namespace Word

variable {atoms : List Atom} {after : Quoting} {w : Word}

theorem span_of_ofAtoms? {position : Nat} (htile : Atom.Tile position atoms)
    (h : ofAtoms? atoms after = some w) :
    w.span = ⟨position, position + Text.byteSize w.text⟩ := by
  unfold ofAtoms? at h
  split at h
  case h_1 first last hfirst hlast =>
    obtain rfl := Option.some.inj h
    obtain ⟨init, rfl⟩ := List.getLast?_eq_some_iff.mp hlast
    obtain ⟨rest, hcons⟩ := List.head?_eq_some_iff.mp hfirst
    have hstop := htile.stop_eq
    have hbounds := htile.bounds (List.mem_append_right init (List.mem_singleton_self last))
    rw [hcons] at htile hbounds hstop ⊢
    have hfirst := htile.bounds List.mem_cons_self
    have hstart : first.span.start = position := by rw [htile.2.1]
    simp only [Span.merge, text, Span.mk.injEq]
    omega
  case h_2 => simp at h

end Word

/-! ## Tokens -/

namespace Token

def isComment : Token → Bool
  | comment .. => true
  | _ => false

def Precedes (s t : Token) : Prop :=
  s.isComment = false ∧ s.span.stop ≤ t.span.start

variable {after : Quoting}

theorem pairwise_toList {R : Token → Token → Prop} (t? : Option Token) : t?.toList.Pairwise R := by
  cases t? <;> simp

theorem span_of_ofWord? {position : Nat} {atoms : List Atom} (htile : Atom.Tile position atoms)
    {t : Token} (h : t ∈ (ofWord? atoms after).toList) : t.isComment = false ∧
      t.span = ⟨position, position + Text.byteSize (atoms.flatMap Atom.text)⟩ := by
  obtain ⟨w, hw, rfl⟩ := Option.map_eq_some_iff.mp (Option.mem_toList.mp h)
  refine ⟨rfl, ?_⟩
  rw [span, Word.span_of_ofAtoms? htile hw, Word.text, Word.atoms_of_ofAtoms? hw]

theorem span_of_ofSeparator? {a : Atom} (ha : a.isBetweenWords) {t : Token}
    (h : t ∈ (ofSeparator? a).toList) : t.isComment = a.endsLine ∧ t.span = a.span := by
  have hplain := Atom.quoting_of_isBetweenWords ha
  unfold ofSeparator? at h
  split at h
  case h_1 op hkind =>
    obtain rfl := List.mem_singleton.mp h
    exact ⟨by simp [isComment, Atom.endsLine, hkind], rfl⟩
  case h_2 hkind =>
    obtain rfl := List.mem_singleton.mp h
    exact ⟨by simp [isComment, Atom.endsLine, hkind, hplain], rfl⟩
  case h_3 => simp at h

theorem bounds_of_mem {position : Nat} {before atoms : List Atom}
    (htile : Atom.Tile position (before ++ atoms)) :
    ∀ t ∈ ofAtomsAfter after before atoms, position ≤ t.span.start ∧ t.span.start ≤ t.span.stop := by
  induction atoms generalizing position before with
  | nil =>
    intro t ht
    rw [List.append_nil] at htile
    rw [(span_of_ofWord? htile ht).2]
    exact ⟨Nat.le_refl _, Nat.le_add_right _ _⟩
  | cons a atoms ih =>
    intro t ht
    rw [ofAtomsAfter] at ht
    split at ht
    case isTrue ha =>
      obtain ⟨hbefore, hrest⟩ := Atom.Tile.append.mp htile
      have hspan := hrest.2.1
      rw [List.mem_append, List.mem_append] at ht
      rcases ht with (ht | ht) | ht
      · rw [(span_of_ofWord? hbefore ht).2]
        exact ⟨Nat.le_refl _, Nat.le_add_right _ _⟩
      · rw [(span_of_ofSeparator? ha ht).2, hspan]
        exact ⟨Nat.le_add_right _ _, Nat.le_add_right _ _⟩
      · have hbounds := @ih a.span.stop [] hrest.2.2 t ht
        rw [hspan] at hbounds
        dsimp only at hbounds
        omega
    case isFalse => exact ih (by simpa using htile) t ht

theorem pairwise_precedes {position : Nat} {before atoms : List Atom}
    (htile : Atom.Tile position (before ++ atoms))
    (hcomment : atoms.Pairwise fun a _ => a.endsLine = false) :
    (ofAtomsAfter after before atoms).Pairwise Precedes := by
  induction atoms generalizing position before with
  | nil => exact pairwise_toList _
  | cons a atoms ih =>
    obtain ⟨hends, hcomment⟩ := List.pairwise_cons.mp hcomment
    rw [ofAtomsAfter]
    split
    case isTrue ha =>
      obtain ⟨hbefore, hrest⟩ := Atom.Tile.append.mp htile
      have hbounds : ∀ t ∈ ofAtomsAfter after [] atoms, a.span.stop ≤ t.span.start ∧ _ :=
        bounds_of_mem hrest.2.2
      have hspan := hrest.2.1
      refine List.pairwise_append.mpr ⟨List.pairwise_append.mpr
        ⟨pairwise_toList _, pairwise_toList _, fun s hs t ht => ?_⟩,
        @ih a.span.stop [] hrest.2.2 hcomment, fun s hs t ht => ?_⟩
      · obtain ⟨hs, hstop⟩ := span_of_ofWord? hbefore hs
        refine ⟨hs, ?_⟩
        rw [hstop, (span_of_ofSeparator? ha ht).2, hspan]
      · rcases List.mem_append.mp hs with hs | hs
        · obtain ⟨hs, hstop⟩ := span_of_ofWord? hbefore hs
          refine ⟨hs, Nat.le_trans ?_ (hbounds t ht).1⟩
          rw [hstop, hspan]
          exact Nat.le_add_right _ _
        · obtain ⟨hs, hstop⟩ := span_of_ofSeparator? ha hs
          cases atoms with
          | nil => exact absurd ht (by simp [ofAtomsAfter, ofWord?, Word.ofAtoms?])
          | cons b atoms =>
            refine ⟨hs.trans (hends b List.mem_cons_self), ?_⟩
            rw [hstop]
            exact (hbounds t ht).1
    case isFalse => exact ih (by simpa using htile) hcomment

theorem ofAtoms?_of_mem_ofWord? {atoms : List Atom} {w : Word}
    (hlast : ∀ init a, atoms = init ++ [a] → after = a.quotingBehind)
    (h : word w ∈ (ofWord? atoms after).toList) : ∃ init a, w.atoms = init ++ [a] ∧
      Word.ofAtoms? w.atoms a.quotingBehind = some w := by
  have hw := word_mem_ofWord?.mp h
  rw [Word.atoms_of_ofAtoms? hw]
  rcases List.eq_nil_or_concat atoms with rfl | ⟨init, a, hatoms⟩
  · simp [Word.ofAtoms?] at hw
  · rw [List.concat_eq_append] at hatoms
    exact ⟨init, a, hatoms, hlast init a hatoms ▸ hw⟩

theorem ofAtoms?_of_mem {q : Quoting} {before atoms : List Atom}
    (hchain : Atom.Chain q (before ++ atoms) after) {w : Word}
    (h : word w ∈ ofAtomsAfter after before atoms) : ∃ init a, w.atoms = init ++ [a] ∧
      Word.ofAtoms? w.atoms a.quotingBehind = some w := by
  induction atoms generalizing q before with
  | nil =>
    rw [List.append_nil] at hchain
    refine ofAtoms?_of_mem_ofWord? (fun init a hatoms => ?_) h
    rw [hatoms] at hchain
    exact hchain.of_append
  | cons a atoms ih =>
    rw [ofAtomsAfter] at h
    split at h
    case isTrue ha =>
      rw [List.mem_append, List.mem_append] at h
      rcases h with (h | h) | h
      · refine ofAtoms?_of_mem_ofWord? (fun init b hatoms => ?_) h
        rw [hatoms, List.append_assoc] at hchain
        exact (Atom.quoting_of_isBetweenWords ha).symm.trans hchain.of_append.1
      · exact absurd h word_not_mem_ofSeparator?
      · exact @ih a.quotingBehind [] hchain.of_append h
    case isFalse => exact ih (by simpa using hchain) h

end Token

/-- The tokens of a text stand one behind the other, a comment last. -/
theorem lex_tokens_precede (text : Text) (q : Quoting) :
    (Token.ofAtoms (lex text q).atoms (lex text q).quoting).Pairwise Token.Precedes :=
  Token.pairwise_precedes (lex_tile text q) (Lexer.start text q).pairwise_endsLine

theorem lex_tokens_span (text : Text) (q : Quoting) :
    ∀ t ∈ Token.ofAtoms (lex text q).atoms (lex text q).quoting, t.span.start ≤ t.span.stop :=
  fun t ht => (Token.bounds_of_mem (lex_tile text q) t ht).2

end RecipeLint

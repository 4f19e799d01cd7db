import Mathlib.Data.List.TakeWhile
import RecipeLint.Lexer
import RecipeLint.Proofs.Reading.Source

/-!
# One step of the lexer

What one step reads stays within the text: the readers of operators and of shell variables take at
least one character and no more than there are, and so does the step as a whole, whatever the state
and however badly the text is formed.  What a step finds lies in the atom that it reads.
-/

namespace RecipeLint

/-- A count of characters that a text has, and not none. -/
def Text.Takes (n : Nat) (text : Text) : Prop :=
  0 < n ∧ n ≤ text.length

theorem Text.prefix_of_find? {α : Type} {symbol : α → Text} {all : List α} {text : Text} {x : α}
    (h : all.find? (fun x => (symbol x).isPrefixOf text) = some x) : symbol x <+: text :=
  List.isPrefixOf_iff_prefix.mp (List.find?_some (p := fun x => (symbol x).isPrefixOf text) h)

namespace Operator

theorem symbol_ne_nil (kind : Redirection) : kind.symbol ≠ [] := by
  cases kind <;> simp [Redirection.symbol]

theorem control_symbol_ne_nil (which : Control) : which.symbol ≠ [] := by
  cases which <;> simp [Control.symbol]

theorem readControl?_spec {text : Text} {n : Nat} {which : Control}
    (h : readControl? text = some (n, which)) :
    n ≤ text.length ∧ which.symbol <+: text.take n := by
  unfold readControl? at h
  split at h
  case h_1 rest =>
    obtain ⟨rfl, rfl⟩ := Prod.mk.inj (Option.some.inj h)
    have hle := (List.takeWhile_prefix (l := rest) (· == '\n')).length_le
    exact ⟨Nat.succ_le_succ hle, by simp [Control.symbol]⟩
  case h_2 =>
    obtain ⟨c, hc, heq⟩ := Option.map_eq_some_iff.mp h
    obtain ⟨rfl, rfl⟩ := Prod.mk.inj heq
    have hstarts := Text.prefix_of_find? hc
    exact ⟨hstarts.length_le, (List.prefix_iff_eq_take.mp hstarts) ▸ List.prefix_refl _⟩

/-- What an operator can be: a redirection behind digits, or a control operator. -/
theorem read?_cases {text : Text} {n : Nat} {op : Operator} (h : read? text = some (n, op)) :
    n ≤ text.length ∧
      ((∃ digits kind, (∀ d ∈ digits, d.isDigit) ∧ op = .redirect (descriptor? digits) kind ∧
          text.take n = digits ++ kind.symbol) ∨
        ∃ which, op = .control which ∧ which.symbol <+: text.take n) := by
  unfold read? at h
  extract_lets digits rest at h
  have hdigits : text = digits ++ rest := by
    have hstarts := List.takeWhile_prefix (l := text) Char.isDigit
    have h := List.take_append_drop digits.length text
    rw [← List.prefix_iff_eq_take.mp hstarts] at h
    exact h.symm
  split at h
  case h_1 kind hkind =>
    obtain ⟨rfl, rfl⟩ := Prod.mk.inj (Option.some.inj h)
    obtain ⟨behind, hbehind⟩ := Text.prefix_of_find? hkind
    rw [hdigits, ← hbehind]
    refine ⟨by simp, .inl ⟨digits, kind, fun d hd => ?_, rfl, ?_⟩⟩
    · exact List.mem_takeWhile_imp hd
    · rw [← List.append_assoc, ← List.length_append, List.take_left]
  case h_2 =>
    split at h
    case isTrue =>
      obtain ⟨⟨m, which⟩, hread, heq⟩ := Option.map_eq_some_iff.mp h
      obtain ⟨rfl, rfl⟩ := Prod.mk.inj heq
      obtain ⟨hle, hstarts⟩ := readControl?_spec hread
      exact ⟨hle, .inr ⟨which, rfl, hstarts⟩⟩
    case isFalse => simp at h

theorem takes_of_read? {text : Text} {n : Nat} {op : Operator}
    (h : read? text = some (n, op)) : Text.Takes n text := by
  obtain ⟨hle, hcases⟩ := read?_cases h
  refine ⟨Nat.pos_of_ne_zero fun h0 => ?_, hle⟩
  subst h0
  rcases hcases with ⟨digits, kind, -, -, htake⟩ | ⟨which, -, hstarts⟩
  · exact symbol_ne_nil kind (List.append_eq_nil_iff.mp htake.symm).2
  · exact control_symbol_ne_nil which (List.prefix_nil.mp hstarts)

end Operator

namespace ShellVariable

theorem le_of_readBraced? {text name : Text} {n : Nat}
    (h : readBraced? text = some (n, name)) : n ≤ text.length := by
  unfold readBraced? at h
  extract_lets word inside at h
  split at h
  case h_1 c cs behind _ hdrop =>
    obtain ⟨rfl, rfl⟩ := Prod.mk.inj (Option.some.inj h)
    have hlength := congrArg List.length hdrop
    simp only [List.length_drop, List.length_cons] at hlength
    omega
  case h_2 => simp at h

theorem takes_of_read? {text name : Text} {n : Nat} (h : read? text = some (n, name)) :
    Text.Takes n text := by
  unfold read? at h
  split at h
  case h_1 =>
    obtain ⟨rfl, rfl⟩ := Prod.mk.inj (Option.some.inj h)
    exact ⟨by omega, by simp⟩
  case h_2 rest _ =>
    obtain ⟨⟨m, w⟩, hread, heq⟩ := Option.map_eq_some_iff.mp h
    obtain ⟨rfl, rfl⟩ := Prod.mk.inj heq
    have hle := le_of_readBraced? hread
    exact ⟨by omega, by simp only [List.length_cons]; omega⟩
  case h_3 c rest _ _ =>
    split at h
    case isTrue =>
      obtain ⟨rfl, rfl⟩ := Prod.mk.inj (Option.some.inj h)
      have hle := (List.takeWhile_prefix (l := rest) isIdentifierChar).length_le
      exact ⟨by omega, by simp only [List.length_cons]; omega⟩
    case isFalse =>
      split at h
      case isTrue =>
        obtain ⟨rfl, rfl⟩ := Prod.mk.inj (Option.some.inj h)
        exact ⟨by omega, by simp⟩
      case isFalse => simp at h
  case h_4 => simp at h

end ShellVariable

namespace AtomReading

/-- What was read as one atom stays within the text, its findings lie in the atom, and a reference
is written just so. -/
structure Fits (c : Char) (rest : Text) (r : AtomReading) : Prop where
  more_le : r.more ≤ rest.length
  findings : ∀ f ∈ r.findings, f.span.Cuts (c :: rest.take r.more)
  reference : ∀ ref, r.kind = .reference ref → ref.Spells (c :: rest.take r.more)

theorem fits_of_le {c : Char} {rest : Text} {kind : AtomKind} {more : Nat} {q : Quoting}
    (hkind : kind.reference? = none) (hmore : more ≤ rest.length) :
    Fits c rest ⟨kind, more, [], q⟩ where
  more_le := hmore
  findings f hf := by simp at hf
  reference ref href := by
    obtain rfl : kind = .reference ref := href
    simp [AtomKind.reference?] at hkind

theorem ofText_fits (q : Quoting) (c : Char) (rest : Text) : (ofText q c rest).Fits c rest := by
  unfold ofText
  split
  case isTrue hescape =>
    split
    case h_1 =>
      refine ⟨Nat.le_refl _, fun f hf => ?_, fun ref href => by simp at href⟩
      obtain rfl := List.mem_singleton.mp hf
      exact hescape.1 ▸ Span.cuts_ofSize_self ['\\']
    case h_2 | h_3 | h_4 => exact fits_of_le rfl (by simp)
  case isFalse =>
    split
    case isTrue => exact fits_of_le rfl (List.takeWhile_prefix _).length_le
    case isFalse =>
      refine ⟨Nat.zero_le _, fun f hf => ?_, fun ref href => by simp at href⟩
      obtain rfl := List.mem_singleton.mp hf
      exact Span.cuts_ofSize_self [c]

theorem ofBlank_fits (q : Quoting) (wordStart : Bool) (c : Char) (rest : Text) :
    (ofBlank q wordStart c rest).Fits c rest := by
  unfold ofBlank
  split
  case isTrue => exact fits_of_le rfl (List.takeWhile_prefix _).length_le
  case isFalse =>
    split
    case isTrue =>
      refine fits_of_le rfl ?_
      split
      case isTrue => exact (List.takeWhile_prefix _).length_le
      case isFalse => exact Nat.le_refl _
    case isFalse => exact ofText_fits q c rest

theorem ofDollar_fits (q : Quoting) (rest : Text) : (ofDollar q rest).Fits '$' rest := by
  unfold ofDollar
  split
  case h_1 behind =>
    split
    case h_1 taken name hread =>
      obtain ⟨-, hread⟩ := Option.ite_none_right_eq_some.mp hread
      have hle := (ShellVariable.takes_of_read? hread).2
      exact fits_of_le rfl (Nat.sub_le_of_le_add hle)
    case h_2 => exact fits_of_le rfl (by simp)
  case h_2 =>
    extract_lets reading
    rcases Reference.readWithin_fits maxNesting rest with hfits | ⟨c, behind, rfl, hlone⟩
    · have hmore : reading.taken - 1 ≤ rest.length := Nat.sub_le_of_le_add hfits.taken_le
      have htake (h : reading.outcome ≠ .ok none) :
          '$' :: rest.take (reading.taken - 1) = ('$' :: rest).take reading.taken :=
        (Text.cons_take_pred (Reference.taken_pos_readWithin maxNesting _ h) '$' rest).1
      split
      case h_1 r hr =>
        have htake := htake (by simp [hr])
        refine ⟨hmore, fun f hf => htake ▸ hfits.findings f hf, fun ref href => ?_⟩
        obtain rfl := AtomKind.reference.inj href
        exact htake ▸ hfits.value _ hr
      case h_2 => exact fits_of_le rfl (Nat.zero_le _)
      case h_3 failure hfailure =>
        have htake := htake (by simp [hfailure])
        refine ⟨hmore, fun f hf => ?_, fun ref href => by simp at href⟩
        rcases List.mem_append.mp hf with hf | hf
        · exact htake ▸ hfits.findings f hf
        · obtain rfl := List.mem_singleton.mp hf
          exact htake ▸ (hfits.failure failure hfailure).2
    · have hreading : reading = Reading.lone c := hlone
      rw [hreading]
      refine ⟨Nat.zero_le _, fun f hf => ?_, fun ref href => by simp [Reading.lone] at href⟩
      obtain rfl := List.mem_singleton.mp hf
      exact Span.cuts_ofSize_self ['$']

/-- However badly a text is formed, what is read as one atom stays within it. -/
theorem read_fits (q : Quoting) (wordStart : Bool) (c : Char) (rest : Text) :
    (read q wordStart c rest).Fits c rest := by
  unfold read
  split
  case isTrue hc => exact hc ▸ ofDollar_fits q rest
  case isFalse =>
    split
    case h_1 taken op hread =>
      obtain ⟨-, hread⟩ := Option.ite_none_right_eq_some.mp hread
      have hle := (Operator.takes_of_read? hread).2
      exact fits_of_le rfl (Nat.sub_le_of_le_add hle)
    case h_2 =>
      split
      case h_1 => exact fits_of_le rfl (Nat.zero_le _)
      case h_2 =>
        split
        case isTrue => exact ofBlank_fits q wordStart c rest
        case isFalse => exact ofText_fits q c rest

end AtomReading

end RecipeLint

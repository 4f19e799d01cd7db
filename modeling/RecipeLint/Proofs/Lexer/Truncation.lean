import Mathlib.Data.List.Find
import RecipeLint.Proofs.Lexer.Step
import RecipeLint.Proofs.Reading.Lookahead

/-!
# Atoms of a text that was cut off

An atom in front of a seam, such as a fence, is read in the same way when the text is cut off behind
the seam, and an operator when it is cut off behind the operator.  Only the word of a shell variable
may be looked for far beyond the atom, and cutting the text off cannot bring it about.
-/

namespace RecipeLint

namespace Text

variable {x y : Text}

theorem takeWhile_truncate {p : Char → Bool} (h : ((x ++ y).takeWhile p).length ≤ x.length) :
    x.takeWhile p = (x ++ y).takeWhile p := by
  induction x with
  | nil => simpa using h
  | cons c x ih =>
    by_cases hc : p c
    · simp only [List.cons_append, List.takeWhile_cons, hc, if_true, List.length_cons] at h ⊢
      rw [ih (by omega)]
    · simp [hc]

theorem takeWhile_swap {s t : Text} {b : Char} {p : Char → Bool} (t' : Text)
    (h : ((s ++ b :: t).takeWhile p).length ≤ s.length) :
    (s ++ b :: t').takeWhile p = (s ++ b :: t).takeWhile p := by
  induction s with
  | nil =>
    have hb : p b = false := by
      by_contra hb
      simp [hb] at h
    simp [hb]
  | cons c s ih =>
    by_cases hc : p c
    · simp only [List.cons_append, List.takeWhile_cons, hc, if_true, List.length_cons] at h ⊢
      rw [ih (by omega)]
    · simp [hc]

/-- A symbol that was chosen by looking ahead is chosen again if it is not cut off. -/
theorem find?_truncate {α : Type} {symbol : α → Text} {all : List α}
    (h : ∀ a, all.find? (fun a => (symbol a).isPrefixOf (x ++ y)) = some a →
      (symbol a).length ≤ x.length) :
    all.find? (fun a => (symbol a).isPrefixOf x) =
      all.find? (fun a => (symbol a).isPrefixOf (x ++ y)) := by
  induction all with
  | nil => rfl
  | cons a all ih =>
    by_cases hfull : (symbol a).isPrefixOf (x ++ y)
    · have hle := h a (by simp [hfull])
      have hcut : symbol a <+: x :=
        List.prefix_of_prefix_length_le (List.isPrefixOf_iff_prefix.mp hfull)
          (List.prefix_append x y) hle
      simp [hfull, List.isPrefixOf_iff_prefix.mpr hcut]
    · have hcut : (symbol a).isPrefixOf x = false := by
        rw [Bool.eq_false_iff]
        intro hcut
        have h := List.isPrefixOf_iff_prefix.mp hcut
        exact hfull (List.isPrefixOf_iff_prefix.mpr (h.trans (List.prefix_append x y)))
      rw [List.find?_cons_of_neg (by simp [hcut]), List.find?_cons_of_neg (by simpa using hfull)]
      refine ih fun b hb => h b ?_
      rw [List.find?_cons_of_neg (by simpa using hfull), hb]

end Text

namespace Operator

variable {x y : Text}

theorem readControl?_cons {c : Char} (hc : c ≠ '\n') (x : Text) :
    readControl? (c :: x) =
      (Control.fixed.find? (·.symbol.isPrefixOf (c :: x))).map fun c => (c.symbol.length, c) := by
  unfold readControl?
  split
  case h_1 heq => exact absurd (List.cons.inj heq).1 hc
  case h_2 => rfl

theorem readControl?_truncate (h : ∀ n which, readControl? (x ++ y) = some (n, which) →
      n ≤ x.length) : readControl? x = readControl? (x ++ y) := by
  cases x with
  | nil =>
    cases hread : readControl? ([] ++ y) with
    | none => rfl
    | some found =>
      obtain ⟨n, which⟩ := found
      have hzero : n = 0 := Nat.le_zero.mp (h n which hread)
      have hstarts := (readControl?_spec hread).2
      rw [hzero, List.take_zero] at hstarts
      exact absurd (List.prefix_nil.mp hstarts) (control_symbol_ne_nil which)
  | cons c x =>
    by_cases hc : c = '\n'
    · subst hc
      have hle : ((x ++ y).takeWhile (· == '\n')).length + 1 ≤ x.length + 1 := h _ _ rfl
      rw [List.cons_append]
      simp only [readControl?]
      rw [Text.takeWhile_truncate (Nat.le_of_succ_le_succ hle)]
    · rw [List.cons_append, readControl?_cons hc, readControl?_cons hc, ← List.cons_append]
      rw [Text.find?_truncate fun which hwhich => h _ which ?_]
      rw [List.cons_append, readControl?_cons hc, ← List.cons_append, hwhich]
      rfl

theorem read?_digits {digits : Text} (h : digits.takeWhile Char.isDigit = digits) :
    read? digits = none := by
  unfold read?
  simp only [h, List.drop_length]
  cases digits with
  | nil => rfl
  | cons d digits => rfl

theorem length_digits_le {text : Text} {n : Nat} {op : Operator} (h : read? text = some (n, op)) :
    (text.takeWhile Char.isDigit).length ≤ n := by
  unfold read? at h
  extract_lets digits rest at h
  split at h
  case h_1 =>
    obtain ⟨rfl, -⟩ := Prod.mk.inj (Option.some.inj h)
    exact Nat.le_add_right _ _
  case h_2 =>
    split at h
    case isTrue hempty =>
      have hdigits : text.takeWhile Char.isDigit = [] := List.isEmpty_iff.mp hempty
      rw [hdigits]
      exact Nat.zero_le n
    case isFalse => simp at h

theorem read?_truncate (h : ∀ n op, read? (x ++ y) = some (n, op) → n ≤ x.length) :
    read? x = read? (x ++ y) := by
  by_cases hdigits : ((x ++ y).takeWhile Char.isDigit).length ≤ x.length
  · unfold read? at h ⊢
    rw [Text.takeWhile_truncate hdigits]
    generalize (x ++ y).takeWhile Char.isDigit = digits at h hdigits
    simp only [List.drop_append_of_le_length hdigits] at h ⊢
    have hfind : Redirection.all.find? (·.symbol.isPrefixOf (x.drop digits.length)) =
        Redirection.all.find? (·.symbol.isPrefixOf (x.drop digits.length ++ y)) := by
      apply Text.find?_truncate
      intro kind hkind
      have hle := h _ _ (by rw [hkind])
      rw [List.length_drop]
      omega
    rw [hfind]
    cases hkind : Redirection.all.find? (·.symbol.isPrefixOf (x.drop digits.length ++ y)) with
    | some kind => rfl
    | none =>
      by_cases hempty : digits.isEmpty
      · simp only [hkind, if_pos hempty] at h ⊢
        rw [readControl?_truncate fun n which hwhich => h n (.control which) (by rw [hwhich]; rfl)]
      · simp only [if_neg hempty]
  · have hall : x.takeWhile Char.isDigit = x := by
      by_contra hne
      rw [List.takeWhile_append, if_neg fun hlength =>
        hne ((List.takeWhile_prefix _).eq_of_length hlength)] at hdigits
      exact hdigits (List.takeWhile_prefix _).length_le
    rw [read?_digits hall]
    cases hread : read? (x ++ y) with
    | none => rfl
    | some found => exact absurd ((length_digits_le hread).trans (h _ _ hread)) hdigits

end Operator

namespace ShellVariable

def isForeign (c : Char) : Bool :=
  !isIdentifierChar c && !isSpecialName c && !"$\x7b%:=+".toList.contains c

theorem isForeign_of_isFence {c : Char} (hc : isFence c) : isForeign c := by
  simpa using eq_false_of_isFence (p := fun c => !isForeign c) (by decide) hc

theorem ne_of_isForeign {b c : Char} (hb : isForeign b) (hc : isForeign c = false) : b ≠ c := by
  rintro rfl
  simp [hb] at hc

theorem isIdentifierChar_of_isForeign {c : Char} (hc : isForeign c) :
    isIdentifierChar c = false := by
  simp only [isForeign, Bool.and_eq_true, Bool.not_eq_true'] at hc
  exact hc.1.1

theorem isSpecialName_of_isForeign {c : Char} (hc : isForeign c) : isSpecialName c = false := by
  simp only [isForeign, Bool.and_eq_true, Bool.not_eq_true'] at hc
  exact hc.1.2

variable {s t t' name : Text} {b : Char} {n : Nat}

theorem find?_expansions_foreign (hb : isForeign b) (s t : Text) :
    expansions.find? (·.isPrefixOf (s ++ b :: t)) = expansions.find? (·.isPrefixOf s) := by
  have hnone : expansions.any (·.any isForeign) = false := by decide
  rw [List.any_eq_false] at hnone
  have hsymbol (op : Text) (hop : op ∈ expansions) : b ∉ op := by
    intro hmem
    exact hnone op hop (List.any_eq_true.mpr ⟨b, hmem, hb⟩)
  apply List.find?_congr
  intro op hop
  exact Text.isPrefixOf_fence s t (hsymbol op hop)

theorem expansionLength_foreign (hb : isForeign b) (h : expansionLength (s ++ b :: t) ≤ s.length) :
    expansionLength (s ++ b :: t') = expansionLength (s ++ b :: t) := by
  unfold expansionLength at h ⊢
  rw [find?_expansions_foreign hb] at h ⊢
  rw [find?_expansions_foreign hb]
  cases hop : expansions.find? (·.isPrefixOf s) with
  | none => rfl
  | some op =>
    have hle : op.length ≤ s.length :=
      (List.isPrefixOf_iff_prefix.mp (List.find?_some (p := (List.isPrefixOf · s)) hop)).length_le
    simp only [hop] at h ⊢
    rw [List.drop_append_of_le_length hle] at h ⊢
    rw [List.drop_append_of_le_length hle, Text.takeWhile_swap t' ?_]
    rw [List.length_drop]
    omega

def insideLength (text : Text) : Nat :=
  let name := text.takeWhile isIdentifierChar
  name.length + expansionLength (text.drop name.length)

theorem readBraced?_eq_some_iff {text : Text} : readBraced? text = some (n, name) ↔
    name = text.takeWhile isIdentifierChar ∧ name ≠ [] ∧ n = insideLength text + 1 ∧
      ∃ behind, text.drop (insideLength text) = '\x7d' :: behind := by
  unfold readBraced?
  extract_lets word inside
  have hinside : inside = insideLength text := rfl
  rw [hinside]
  constructor
  · intro h
    split at h
    case h_1 c cs behind hword hdrop =>
      obtain ⟨rfl, rfl⟩ := Prod.mk.inj (Option.some.inj h)
      exact ⟨rfl, by simp [hword], rfl, behind, hdrop⟩
    case h_2 => simp at h
  · rintro ⟨rfl, hne, rfl, behind, hdrop⟩
    obtain ⟨c, cs, hword⟩ := List.exists_cons_of_ne_nil hne
    simp only [word, hword, hdrop]

theorem insideLength_foreign (hb : isForeign b) (h : insideLength (s ++ b :: t) ≤ s.length) :
    insideLength (s ++ b :: t') = insideLength (s ++ b :: t) := by
  have hname (t : Text) : (s ++ b :: t).takeWhile isIdentifierChar = s.takeWhile isIdentifierChar :=
    Text.takeWhile_fence s t (isIdentifierChar_of_isForeign hb)
  have hle := (List.takeWhile_prefix (l := s) isIdentifierChar).length_le
  simp only [insideLength, hname, List.drop_append_of_le_length hle] at h ⊢
  rw [expansionLength_foreign hb ?_]
  rw [List.length_drop]
  omega

theorem readBraced?_foreign (hb : isForeign b) (h : readBraced? (s ++ b :: t) = some (n, name))
    (hn : n ≤ s.length + 1) : readBraced? (s ++ b :: t') = some (n, name) := by
  obtain ⟨hname, hne, rfl, behind, hdrop⟩ := readBraced?_eq_some_iff.mp h
  have hinside : insideLength (s ++ b :: t) ≤ s.length := by omega
  rw [List.drop_append_of_le_length hinside] at hdrop
  obtain ⟨rest, hrest⟩ := Text.cons_of_swap t' hdrop
  have hidentifier := isIdentifierChar_of_isForeign hb
  have hsame : insideLength (s ++ b :: t') = insideLength (s ++ b :: t) :=
    insideLength_foreign hb hinside
  rw [readBraced?_eq_some_iff, hsame, List.drop_append_of_le_length hinside,
    Text.takeWhile_fence s t' hidentifier]
  rw [Text.takeWhile_fence s t hidentifier] at hname
  exact ⟨hname, hne, rfl, rest, hrest⟩

/-- The closing brace of a shell variable does not come about by cutting off what stands behind
it. -/
theorem readBraced?_append {text : Text} (y : Text) (h : readBraced? text = some (n, name)) :
    readBraced? (text ++ y) = some (n, name) := by
  obtain ⟨-, -, rfl, behind, hdrop⟩ := readBraced?_eq_some_iff.mp h
  have hlength := congrArg List.length hdrop
  rw [List.length_drop, List.length_cons] at hlength
  have hfront : (text.take (insideLength text)).length = insideLength text := by
    rw [List.length_take]
    omega
  have htext : text = text.take (insideLength text) ++ '\x7d' :: behind := by
    rw [← hdrop, List.take_append_drop]
  have hfence : readBraced? (text.take (insideLength text) ++ '\x7d' :: (behind ++ y)) =
      some (insideLength text + 1, name) := by
    rw [htext] at h
    exact readBraced?_foreign (by decide) (by rw [h, ← htext]) (by omega)
  rwa [← List.cons_append, ← List.append_assoc, ← htext] at hfence

theorem readBraced?_truncate {y : Text} (hb : isForeign b)
    (h : ∀ n name, readBraced? (s ++ b :: (t' ++ y)) = some (n, name) → n ≤ s.length) :
    readBraced? (s ++ b :: t') = readBraced? (s ++ b :: (t' ++ y)) := by
  cases hfull : readBraced? (s ++ b :: (t' ++ y)) with
  | some found =>
    obtain ⟨n, name⟩ := found
    have hle := h n name hfull
    exact readBraced?_foreign hb hfull (by omega)
  | none =>
    cases hcut : readBraced? (s ++ b :: t') with
    | none => rfl
    | some found =>
      have happend := readBraced?_append y hcut
      rw [List.append_assoc, List.cons_append, hfull] at happend
      simp at happend

theorem read?_name {c : Char} (hdollar : c ≠ '$') (hbrace : c ≠ '\x7b') (rest : Text) :
    read? ('$' :: '$' :: c :: rest) =
      if c.isAlpha || c == '_' then
        some ((rest.takeWhile isIdentifierChar).length + 3, c :: rest.takeWhile isIdentifierChar)
      else if isSpecialName c then some (3, [c])
      else none := by
  unfold read?
  split
  case h_1 heq => exact absurd (List.cons.inj (List.cons.inj (List.cons.inj heq).2).2).1 hdollar
  case h_2 heq => exact absurd (List.cons.inj (List.cons.inj (List.cons.inj heq).2).2).1 hbrace
  case h_3 heq =>
    obtain ⟨rfl, rfl⟩ := List.cons.inj (List.cons.inj (List.cons.inj heq).2).2
    rfl
  case h_4 hne => exact absurd rfl (hne c rest)

theorem read?_threeDollars {c : Char} (hc : c ≠ '$') (rest : Text) :
    read? ('$' :: '$' :: '$' :: c :: rest) = none := by
  unfold read?
  split
  case h_1 heq =>
    exact absurd (List.cons.inj (List.cons.inj (List.cons.inj (List.cons.inj heq).2).2).2).1 hc
  case h_2 heq => simp at heq
  case h_3 heq =>
    obtain ⟨rfl, rfl⟩ := List.cons.inj (List.cons.inj (List.cons.inj heq).2).2
    rfl
  case h_4 => rfl

theorem read?_truncate {y : Text} (hb : isForeign b)
    (h : ∀ n name, read? ('$' :: '$' :: (s ++ b :: (t' ++ y))) = some (n, name) →
      n ≤ s.length + 2) :
    read? ('$' :: '$' :: (s ++ b :: t')) = read? ('$' :: '$' :: (s ++ b :: (t' ++ y))) := by
  cases s with
  | nil =>
    have hdollar : b ≠ '$' := ne_of_isForeign hb (by decide)
    have hbrace : b ≠ '\x7b' := ne_of_isForeign hb (by decide)
    have hletter : (b.isAlpha || b == '_') = false := by
      have hidentifier := isIdentifierChar_of_isForeign hb
      simp only [isIdentifierChar, Char.isAlphanum, Bool.or_eq_false_iff] at hidentifier
      simp [hidentifier]
    have hspecial : isSpecialName b = false := isSpecialName_of_isForeign hb
    rw [List.nil_append, List.nil_append, read?_name hdollar hbrace, read?_name hdollar hbrace]
    simp [hletter, hspecial]
  | cons c s =>
    by_cases hbrace : c = '\x7b'
    · subst hbrace
      have hbraced : readBraced? (s ++ b :: t') = readBraced? (s ++ b :: (t' ++ y)) := by
        apply readBraced?_truncate hb
        intro n name hread
        have hle := h (n + 3) name (by simp [read?, hread])
        rw [List.length_cons] at hle
        omega
      simp only [List.cons_append, read?, hbraced]
    by_cases hdollar : c = '$'
    · subst hdollar
      cases s with
      | nil =>
        have hne : b ≠ '$' := ne_of_isForeign hb (by decide)
        rw [List.singleton_append, List.singleton_append, read?_threeDollars hne,
          read?_threeDollars hne]
      | cons d s =>
        by_cases hd : d = '$'
        · subst hd
          rfl
        · simp only [List.cons_append, read?_threeDollars hd]
    · rw [List.cons_append, List.cons_append, read?_name hdollar hbrace,
        read?_name hdollar hbrace,
        Text.takeWhile_fence s t' (isIdentifierChar_of_isForeign hb),
        Text.takeWhile_fence s (t' ++ y) (isIdentifierChar_of_isForeign hb)]

end ShellVariable

/-- A character behind which a text can be cut off, and what was read in front of it is read so
again. -/
structure Seam (b : Char) : Prop where
  foreign : ShellVariable.isForeign b
  reference : ∀ s t t', (Reference.read ('$' :: (s ++ b :: t))).taken ≤ 1 + s.length →
    Reference.read ('$' :: (s ++ b :: t')) = Reference.read ('$' :: (s ++ b :: t))

theorem Seam.ne_dollar {b : Char} (h : Seam b) : b ≠ '$' :=
  ShellVariable.ne_of_isForeign h.foreign (by decide)

theorem seam_of_isFence {b : Char} (hb : isFence b) : Seam b :=
  ⟨ShellVariable.isForeign_of_isFence hb, fun s t t' htaken =>
    Reference.readWithin_fenced maxNesting s b t t' hb htaken⟩

namespace AtomReading

variable {q : Quoting} {c b : Char} {s t' : Text}

theorem ofText_truncate (hb : Seam b) (y : Text)
    (h : (ofText q c (s ++ b :: (t' ++ y))).more ≤ s.length) :
    ofText q c (s ++ b :: t') = ofText q c (s ++ b :: (t' ++ y)) := by
  have hne : b ≠ '$' := hb.ne_dollar
  unfold ofText at h ⊢
  split_ifs at h ⊢ with hescape hliteral
  · rcases s with _ | ⟨d, _ | ⟨e, s⟩⟩
    · simp [hne] at h
    · by_cases hd : d = '$' <;> simp [hd, hne]
    · by_cases hd : d = '$' <;> by_cases he : e = '$' <;> simp [hd, he]
  · rw [Text.takeWhile_swap t' h]
  · rfl

theorem ofBlank_truncate (hb : Seam b) (wordStart : Bool) (y : Text)
    (h : (ofBlank q wordStart c (s ++ b :: (t' ++ y))).more ≤ s.length) :
    ofBlank q wordStart c (s ++ b :: t') = ofBlank q wordStart c (s ++ b :: (t' ++ y)) := by
  unfold ofBlank at h ⊢
  split_ifs at h ⊢ with hblank hcomment hbackticks
  · rw [Text.takeWhile_swap t' h]
  · rw [Text.takeWhile_swap t' h]
  · -- A comment runs to the end of the line, so it never stops within `s`.
    have hlonger : (s ++ b :: (t' ++ y)).length ≤ s.length := h
    rw [List.length_append, List.length_cons] at hlonger
    omega
  · exact ofText_truncate hb y h

theorem taken_le_ofDollar {rest : Text} (hne : ∀ behind, rest = '$' :: behind → False) :
    (Reference.read ('$' :: rest)).taken ≤ (ofDollar q rest).more + 1 := by
  unfold ofDollar
  split
  case h_1 behind => exact absurd rfl (hne behind)
  case h_2 =>
    extract_lets reading
    cases houtcome : reading.outcome with
    | ok r? =>
      cases r? with
      | some r => exact Nat.le_add_of_sub_le (Nat.le_refl _)
      | none =>
        have hzero : reading.taken = 0 :=
          (Reference.readWithin_fits maxNesting).taken_of_none houtcome
        show reading.taken ≤ 0 + 1
        omega
    | error failure => exact Nat.le_add_of_sub_le (Nat.le_refl _)

theorem ofDollar_congr {rest rest' : Text} (hne : ∀ behind, rest = '$' :: behind → False)
    (hne' : ∀ behind, rest' = '$' :: behind → False)
    (hread : Reference.read ('$' :: rest') = Reference.read ('$' :: rest)) :
    ofDollar q rest' = ofDollar q rest := by
  unfold ofDollar
  split
  case h_1 behind => exact absurd rfl (hne' behind)
  case h_2 => rw [hread]

theorem ofDollar_truncate (hb : Seam b) (y : Text)
    (h : (ofDollar q (s ++ b :: (t' ++ y))).more ≤ s.length) :
    ofDollar q (s ++ b :: t') = ofDollar q (s ++ b :: (t' ++ y)) := by
  by_cases hpair : ∃ behind, s ++ b :: (t' ++ y) = '$' :: behind
  · obtain ⟨behind, hbehind⟩ := hpair
    obtain ⟨s, rfl⟩ : ∃ s', s = '$' :: s' := by
      cases s with
      | nil => exact absurd (List.cons.inj hbehind).1 hb.ne_dollar
      | cons d s => exact ⟨s, by rw [(List.cons.inj hbehind).1]⟩
    simp only [List.cons_append, ofDollar] at h ⊢
    by_cases hq : q.allowsVariables
    · rw [if_pos hq] at h ⊢
      rw [if_pos hq, ShellVariable.read?_truncate hb.foreign fun n name hread => ?_]
      rw [hread, List.length_cons] at h
      dsimp only at h
      omega
    · rw [if_neg hq, if_neg hq]
  · have hne : ∀ behind, s ++ b :: (t' ++ y) = '$' :: behind → False :=
      fun behind heq => hpair ⟨behind, heq⟩
    have htaken := taken_le_ofDollar (q := q) hne
    apply ofDollar_congr hne (Text.not_cons_of_swap t' hne)
    exact hb.reference s (t' ++ y) t' (htaken.trans (by omega))

/-- An atom in front of a seam does not depend on where the text is cut off behind the seam. -/
theorem read_truncate (hb : Seam b) (wordStart : Bool) (y : Text)
    (h : (read q wordStart c (s ++ b :: (t' ++ y))).more ≤ s.length) :
    read q wordStart c (s ++ b :: t') = read q wordStart c (s ++ b :: (t' ++ y)) := by
  unfold read at h ⊢
  split_ifs at h ⊢ with hdollar hq
  · exact ofDollar_truncate hb y h
  · have hread : Operator.read? (c :: (s ++ b :: t')) =
        Operator.read? (c :: (s ++ b :: (t' ++ y))) := by
      have htext : c :: (s ++ b :: (t' ++ y)) = c :: (s ++ b :: t') ++ y := by simp
      rw [htext]
      apply Operator.read?_truncate
      intro n op hop
      rw [← htext] at hop
      simp only [hop] at h
      simp only [List.length_cons, List.length_append]
      omega
    rw [hread]
    cases hop : Operator.read? (c :: (s ++ b :: (t' ++ y))) with
    | some found => rfl
    | none =>
      simp only [hop] at h ⊢
      cases hnext : q.next? c with
      | some next => rfl
      | none =>
        simp only [hnext] at h ⊢
        exact ofBlank_truncate hb wordStart y h
  · cases hnext : q.next? c with
    | some next => rfl
    | none =>
      simp only [hnext] at h ⊢
      exact ofText_truncate hb y h

end AtomReading

end RecipeLint

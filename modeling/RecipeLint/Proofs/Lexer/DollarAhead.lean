import RecipeLint.Proofs.Lexer.States
import RecipeLint.Proofs.Lexer.Truncation
import RecipeLint.Proofs.Reading.Body

/-!
# Atoms in front of a dollar sign

An atom that ends somewhere in front of a dollar sign is read in the same way whatever stands behind
that dollar sign, as long as it is not another one.  No operator, name or keyword has a dollar sign
in it, and a reference that cannot be read is taken up to a closing delimiter in front of it.
-/

namespace RecipeLint

open Reading

/-! ## Operators and shell variables -/

theorem Operator.read?_dollar (s t : Text) : read? (s ++ '$' :: t) = read? s := by
  have hdigits : (s ++ '$' :: t).takeWhile Char.isDigit = s.takeWhile Char.isDigit :=
    Text.takeWhile_fence s t (by decide)
  have hsymbol (kind : Redirection) (s : Text) :
      kind.symbol.isPrefixOf (s ++ '$' :: t) = kind.symbol.isPrefixOf s :=
    Text.isPrefixOf_fence s t (by cases kind <;> decide)
  have hcontrol (s : Text) : readControl? (s ++ '$' :: t) = readControl? s := by
    have hfixed (which : Control) : which.symbol.isPrefixOf (s ++ '$' :: t) =
        which.symbol.isPrefixOf s :=
      Text.isPrefixOf_fence s t (by cases which <;> decide)
    unfold readControl?
    simp only [hfixed]
    cases s with
    | nil => rfl
    | cons c s =>
      by_cases hc : c = '\n'
      · subst hc
        simp only [List.cons_append, Text.takeWhile_fence s t (b := '$') (p := (· == '\n')) rfl]
      · simp [hc]
  have hle := (List.takeWhile_prefix (l := s) Char.isDigit).length_le
  unfold read?
  simp only [hdigits, List.drop_append_of_le_length hle, hsymbol, hcontrol]

namespace ShellVariable

theorem expansionLength_dollar (s t : Text) :
    expansionLength (s ++ '$' :: t) = expansionLength s := by
  have hsymbol (op : Text) (hop : op ∈ expansions) :
      op.isPrefixOf (s ++ '$' :: t) = op.isPrefixOf s := by
    have hnone : expansions.all (!·.contains '$') := by decide
    have hop := List.all_eq_true.mp hnone op hop
    exact Text.isPrefixOf_fence s t (by simpa using hop)
  have hfind :
      expansions.find? (·.isPrefixOf (s ++ '$' :: t)) = expansions.find? (·.isPrefixOf s) :=
    List.find?_congr hsymbol
  unfold expansionLength
  rw [hfind]
  cases hop : expansions.find? (·.isPrefixOf s) with
  | none => rfl
  | some op =>
    have hle : op.length ≤ s.length :=
      (List.isPrefixOf_iff_prefix.mp (List.find?_some (p := (List.isPrefixOf · s)) hop)).length_le
    dsimp only
    rw [List.drop_append_of_le_length hle, Text.takeWhile_fence _ t (by decide)]

theorem expansionLength_le (s : Text) : expansionLength s ≤ s.length := by
  unfold expansionLength
  split
  case h_1 op hop =>
    have hle : op.length ≤ s.length :=
      (List.isPrefixOf_iff_prefix.mp (List.find?_some (p := (List.isPrefixOf · s)) hop)).length_le
    have hword := (List.takeWhile_prefix (l := s.drop op.length) isWordChar).length_le
    rw [List.length_drop] at hword
    omega
  case h_2 => exact Nat.zero_le _

theorem readBraced?_dollar (s t : Text) : readBraced? (s ++ '$' :: t) = readBraced? s := by
  have hname : (s ++ '$' :: t).takeWhile isIdentifierChar = s.takeWhile isIdentifierChar :=
    Text.takeWhile_fence s t (by decide)
  have hle := (List.takeWhile_prefix (l := s) isIdentifierChar).length_le
  have hinside := expansionLength_le (s.drop (s.takeWhile isIdentifierChar).length)
  rw [List.length_drop] at hinside
  have hsum : (s.takeWhile isIdentifierChar).length +
      expansionLength (s.drop (s.takeWhile isIdentifierChar).length) ≤ s.length := by omega
  unfold readBraced?
  simp only [hname, List.drop_append_of_le_length hle, expansionLength_dollar,
    List.drop_append_of_le_length hsum]
  cases s.takeWhile isIdentifierChar with
  | nil => rfl
  | cons c cs =>
    cases s.drop ((c :: cs).length + expansionLength (s.drop (c :: cs).length)) with
    | nil => rfl
    | cons d behind => by_cases hd : d = '\x7d' <;> simp [hd]

theorem three_le_of_read? {text name : Text} {n : Nat} (h : read? text = some (n, name)) :
    3 ≤ n := by
  unfold read? at h
  split at h
  case h_1 =>
    obtain ⟨rfl, -⟩ := Prod.mk.inj (Option.some.inj h)
    omega
  case h_2 =>
    obtain ⟨⟨m, w⟩, -, heq⟩ := Option.map_eq_some_iff.mp h
    obtain ⟨rfl, -⟩ := Prod.mk.inj heq
    omega
  case h_3 =>
    split_ifs at h
    all_goals
      obtain ⟨rfl, -⟩ := Prod.mk.inj (Option.some.inj h)
      omega
  case h_4 => simp at h

theorem read?_dollar {s : Text} {c d : Char} (hc : c ≠ '$') (hd : d ≠ '$') {t : Text} (t' : Text)
    (h : ∀ n name, read? ('$' :: '$' :: (s ++ '$' :: c :: t)) = some (n, name) →
      n ≤ s.length + 2) :
    read? ('$' :: '$' :: (s ++ '$' :: d :: t')) = read? ('$' :: '$' :: (s ++ '$' :: c :: t)) := by
  cases s with
  | nil =>
    rw [List.nil_append, List.nil_append, read?_threeDollars hc, read?_threeDollars hd]
  | cons e s =>
    by_cases hbrace : e = '\x7b'
    · subst hbrace
      simp only [List.cons_append, read?, readBraced?_dollar]
    by_cases hdollar : e = '$'
    · subst hdollar
      cases s with
      | nil => exact absurd (h 4 ['$'] rfl) (by simp)
      | cons f s =>
        by_cases hf : f = '$'
        · subst hf
          rfl
        · simp only [List.cons_append, read?_threeDollars hf]
    · simp only [List.cons_append, read?_name hdollar hbrace]
      rw [Text.takeWhile_fence s (c :: t) (by decide), Text.takeWhile_fence s (d :: t') (by decide)]

end ShellVariable

/-! ## References -/

namespace Reference

theorem exists_fence_of_closeLength {stack : List Char} (hne : stack ≠ [])
    (hstack : ∀ c ∈ stack, isFence c) {s t : Text} {b : Char}
    (h : closeLength stack (s ++ b :: t) ≤ s.length) : ∃ c ∈ s, isFence c := by
  generalize htext : s ++ b :: t = text at h
  fun_induction closeLength stack text generalizing s with
  | case1 => exact absurd rfl hne
  | case2 => simp at htext
  | case3 stack rest _ ih =>
    obtain ⟨s, rfl, rfl⟩ := Text.uncons_two (by omega) htext
    rw [List.length_cons, List.length_cons] at h
    obtain ⟨c, hc, hfence⟩ := ih hne hstack rfl (by omega)
    exact ⟨c, List.mem_cons_of_mem _ (List.mem_cons_of_mem _ hc), hfence⟩
  | case4 stack rest _ ih | case5 stack rest _ ih =>
    obtain ⟨s, rfl, rfl⟩ := Text.uncons_two (by omega) htext
    rw [List.length_cons, List.length_cons] at h
    obtain ⟨c, hc, hfence⟩ := ih (List.cons_ne_nil _ _)
      (List.forall_mem_cons.mpr ⟨by decide, hstack⟩) rfl (by omega)
    exact ⟨c, List.mem_cons_of_mem _ (List.mem_cons_of_mem _ hc), hfence⟩
  | case6 close stack c rest _ _ _ ih =>
    obtain ⟨s, rfl, rfl⟩ := Text.uncons_pos (by omega) htext
    rw [List.length_cons] at h
    by_cases hc : c = close
    · exact ⟨c, List.mem_cons_self, hc ▸ hstack close List.mem_cons_self⟩
    · rw [if_neg hc] at ih h
      obtain ⟨d, hd, hfence⟩ := ih hne hstack rfl (by omega)
      exact ⟨d, List.mem_cons_of_mem _ hd, hfence⟩

/-- A reference in delimiters that ends in front of some character, be it well formed or not, does
not depend on what stands behind that character. -/
theorem readDelimited_swap {levels : Nat} {opening close : Char} (hopens : Opens opening close)
    (delimiter : Delimiter) {s t : Text} {b : Char} (t' : Text)
    (h : (readDelimited (readWithin levels) close delimiter
      ('$' :: opening :: (s ++ b :: t))).taken ≤ 2 + s.length) :
    readDelimited (readWithin levels) close delimiter ('$' :: opening :: (s ++ b :: t')) =
      readDelimited (readWithin levels) close delimiter ('$' :: opening :: (s ++ b :: t)) := by
  have hclose : close ≠ '$' := by cases hopens <;> decide
  have hfence : isFence close := by cases hopens <;> decide
  have htaken := taken_readDelimited hclose (readWithin levels) delimiter opening (s ++ b :: t)
  generalize hcount : (readBody (readWithin levels) close (s ++ b :: t)).taken = count at htaken
  have hle : count ≤ s.length := by omega
  rw [List.drop_append_of_le_length hle] at htaken
  -- The scan for the closing delimiter starts behind the body, so there is a fence behind it.
  have hscan : closeLength [close] (s.drop count ++ b :: t) ≤ (s.drop count).length := by
    rw [List.length_drop]
    omega
  obtain ⟨f, hf, hfence'⟩ : ∃ f ∈ s.drop count, isFence f :=
    exists_fence_of_closeLength (List.cons_ne_nil close []) (by simpa using hfence) hscan
  obtain ⟨front, behind, hparts⟩ := List.append_of_mem hf
  have hs : s = s.take count ++ front ++ f :: behind := by
    rw [List.append_assoc, ← hparts, List.take_append_drop]
  have hbody : readBody (readWithin levels) close (s ++ b :: t') =
      readBody (readWithin levels) close (s ++ b :: t) := by
    have htext (t : Text) : s ++ t = s.take count ++ front ++ f :: (behind ++ t) := by
      conv => lhs; rw [hs]
      simp
    rw [htext, htext]
    apply readBody_fenced (readWithin_fits levels) (readWithin_fenced levels) close _ _ _ _ hfence'
    rw [← htext, hcount, List.length_append, List.length_take]
    omega
  simp only [readDelimited, List.drop_succ_cons, List.drop_zero, List.take_succ_cons,
    List.take_zero, hbody] at h ⊢
  exact endDelimited_swap close delimiter _ ('$' :: opening :: s) t t' (by
    simp only [List.cons_append, List.length_cons]
    omega)

theorem readBare_swap (c : Char) {b : Char} (hb : isIdentifierChar b = false) (s t : Text) :
    readBare c (s ++ b :: t) = readBare c s := by
  unfold readBare
  rw [Text.takeWhile_fence s t hb]

/-- A reference that ends in front of a character of no name does not depend on what stands behind
that character, unless a dollar sign in front makes the character a part of it. -/
theorem read_swap {b : Char} (hb : isIdentifierChar b = false)
    (hdollar : ∀ t t', read ('$' :: b :: t') = read ('$' :: b :: t)) {s t : Text} (t' : Text)
    (h : (read ('$' :: (s ++ b :: t))).taken ≤ 1 + s.length) :
    read ('$' :: (s ++ b :: t')) = read ('$' :: (s ++ b :: t)) := by
  cases s with
  | nil => exact hdollar t t'
  | cons c s =>
    by_cases hpair : c = '$'
    · subst hpair
      rfl
    by_cases hwrites : ∃ delimiter close, Delimiter.Writes delimiter c close
    · obtain ⟨delimiter, close, hwrites⟩ := hwrites
      have hread (t : Text) : read ('$' :: c :: t) =
          (readDelimited (readWithin 63) close delimiter ('$' :: c :: t)).map some := by
        cases hwrites <;> rfl
      simp only [List.cons_append, hread, taken_map, List.length_cons] at h ⊢
      have hle : (readDelimited (readWithin 63) close delimiter
          ('$' :: c :: (s ++ b :: t))).taken ≤ 2 + s.length := by omega
      rw [readDelimited_swap hwrites.opens delimiter t' hle]
    · simp only [List.cons_append, read, exists_writes hpair hwrites, readBare_swap _ hb]

end Reference

/-! ## Atoms -/

namespace AtomReading

variable {q : Quoting} {c d d' : Char} {s t : Text} (hd : d ≠ '$') (hd' : d' ≠ '$')

include hd hd'

theorem ofText_dollar (t' : Text) (h : (ofText q c (s ++ '$' :: d :: t)).more ≤ s.length) :
    ofText q c (s ++ '$' :: d' :: t') = ofText q c (s ++ '$' :: d :: t) := by
  have hliteral := q.isLiteral_dollar
  unfold ofText at h ⊢
  split_ifs at h ⊢
  · rcases s with _ | ⟨e, _ | ⟨f, s⟩⟩
    · simp [hd, hd']
    · by_cases he : e = '$'
      · subst he
        simp at h
      · simp [he]
    · by_cases he : e = '$' <;> by_cases hf : f = '$' <;> simp [he, hf]
  · rw [Text.takeWhile_fence s _ hliteral, Text.takeWhile_fence s _ hliteral]
  · rfl

theorem ofBlank_dollar (wordStart : Bool) (t' : Text)
    (h : (ofBlank q wordStart c (s ++ '$' :: d :: t)).more ≤ s.length) :
    ofBlank q wordStart c (s ++ '$' :: d' :: t') = ofBlank q wordStart c (s ++ '$' :: d :: t) := by
  unfold ofBlank at h ⊢
  split_ifs at h ⊢
  · rw [Text.takeWhile_swap (d' :: t') h]
  · rw [Text.takeWhile_swap (d' :: t') h]
  · -- A comment up to the end of the text leaves nothing behind it.
    have hlonger : (s ++ '$' :: d :: t).length ≤ s.length := h
    rw [List.length_append, List.length_cons] at hlonger
    omega
  · exact ofText_dollar hd hd' t' h

theorem ofDollar_dollar (t' : Text) (h : (ofDollar q (s ++ '$' :: d :: t)).more ≤ s.length) :
    ofDollar q (s ++ '$' :: d' :: t') = ofDollar q (s ++ '$' :: d :: t) := by
  by_cases hpair : ∃ behind, s ++ '$' :: d :: t = '$' :: behind
  · cases s with
    | nil =>
      -- The dollar sign in front takes the one behind it along.
      simp only [List.nil_append, ofDollar] at h
      split at h
      case h_1 hread =>
        have hthree := ShellVariable.three_le_of_read? (Option.ite_none_right_eq_some.mp hread).2
        simp only [List.length_nil] at h
        omega
      case h_2 => simp at h
    | cons e s =>
      obtain ⟨behind, hbehind⟩ := hpair
      obtain ⟨rfl, -⟩ := List.cons.inj hbehind
      simp only [List.cons_append, ofDollar] at h ⊢
      by_cases hq : q.allowsVariables
      · rw [if_pos hq] at h ⊢
        rw [if_pos hq, ShellVariable.read?_dollar hd hd' t' fun n name hread => ?_]
        rw [hread, List.length_cons] at h
        dsimp only at h
        omega
      · rw [if_neg hq, if_neg hq]
  · have hne : ∀ behind, s ++ '$' :: d :: t = '$' :: behind → False :=
      fun behind heq => hpair ⟨behind, heq⟩
    have htaken := taken_le_ofDollar (q := q) hne
    exact ofDollar_congr hne (Text.not_cons_of_swap (d' :: t') hne)
      (Reference.read_swap (by decide) (fun _ _ => rfl) (d' :: t') (htaken.trans (by omega)))

/-- An atom in front of a dollar sign does not depend on what stands behind the dollar sign. -/
theorem read_dollar (wordStart : Bool) (t' : Text)
    (h : (read q wordStart c (s ++ '$' :: d :: t)).more ≤ s.length) :
    read q wordStart c (s ++ '$' :: d' :: t') = read q wordStart c (s ++ '$' :: d :: t) := by
  have hop (t : Text) : Operator.read? (c :: (s ++ '$' :: t)) = Operator.read? (c :: s) :=
    Operator.read?_dollar (c :: s) t
  unfold read at h ⊢
  simp only [hop] at h ⊢
  split_ifs at h ⊢ with hdollar hq
  · exact ofDollar_dollar hd hd' t' h
  · cases hread : Operator.read? (c :: s) with
    | some found => rfl
    | none =>
      simp only [hread] at h ⊢
      cases hnext : q.next? c with
      | some next => rfl
      | none =>
        simp only [hnext] at h ⊢
        exact ofBlank_dollar hd hd' wordStart t' h
  · cases hnext : q.next? c with
    | some next => rfl
    | none =>
      simp only [hnext] at h ⊢
      exact ofText_dollar hd hd' t' h

end AtomReading

end RecipeLint

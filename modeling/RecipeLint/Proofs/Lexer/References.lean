import RecipeLint.Proofs.Lexer.Tiling
import RecipeLint.Proofs.Line.Shift
import RecipeLint.Proofs.Reading.Members

/-!
# References of a text

A reference atom is what was read at its place.  So each reference of a text, be it an atom or
inside of one, is read again from its own characters alone, whatever is put behind them, and has the
same references inside.
-/

namespace RecipeLint

open Reading

namespace Reference

/-- A reference is read again from its characters, also where it stood inside another. -/
theorem ReadBy.read {levels : Nat} (hle : levels ≤ maxNesting) {r : Reference}
    (h : r.ReadBy (readWithin levels)) (t : Text) : Reads Reference.read 0 r.text (some r) t := by
  obtain ⟨s, t', hread⟩ := h
  rw [text_of_reads hread, reads_cons]
  exact (extends_readWithin hle).reference hread t

end Reference

namespace AtomReading

variable {q : Quoting} {wordStart : Bool} {c : Char} {rest : Text} {r : Reference}

theorem ofBlank_kind_ne (q : Quoting) (wordStart : Bool) (c : Char) (rest : Text) (r : Reference) :
    (ofBlank q wordStart c rest).kind ≠ .reference r := by
  unfold ofBlank
  split_ifs
  · simp
  · simp
  · simp
  · simp [ofText_kind]

theorem eq_dollar_of_reference (h : (read q wordStart c rest).kind = .reference r) : c = '$' := by
  by_contra hne
  unfold read at h
  rw [if_neg hne] at h
  split at h
  case h_1 => simp at h
  case h_2 =>
    split at h
    case h_1 => simp at h
    case h_2 =>
      split_ifs at h
      · exact ofBlank_kind_ne q wordStart c rest r h
      · simp [ofText_kind] at h

theorem outcome_of_reference (h : (ofDollar q rest).kind = .reference r) :
    (Reference.read ('$' :: rest)).outcome = .ok (some r) := by
  unfold ofDollar at h
  split at h
  case h_1 => split at h <;> simp at h
  case h_2 =>
    extract_lets reading at h
    split at h
    case h_1 hok => rw [← AtomKind.reference.inj h, ← hok]
    case h_2 => simp at h
    case h_3 => simp at h

theorem ofDollar_of_outcome (h : (Reference.read ('$' :: rest)).outcome = .ok (some r)) :
    ofDollar q rest = ⟨.reference r, (Reference.read ('$' :: rest)).taken - 1,
      (Reference.read ('$' :: rest)).findings, q⟩ := by
  unfold ofDollar
  split
  case h_1 behind =>
    have hnone : (Reference.read ('$' :: '$' :: behind)).outcome = .ok none := rfl
    simp [hnone] at h
  case h_2 => simp only [h]

theorem reads_of_reference (h : (read q wordStart c rest).kind = .reference r) :
    ∃ s t, rest = s ++ t ∧ (read q wordStart c rest).more = s.length ∧
      (read q wordStart c rest).quoting = q ∧
      Reads (fun rest => Reference.read ('$' :: rest)) 1 s (some r) t := by
  obtain rfl := eq_dollar_of_reference h
  have hread : read q wordStart '$' rest = ofDollar q rest := if_pos rfl
  rw [hread] at h ⊢
  have houtcome := outcome_of_reference h
  obtain ⟨s, t, htext, htaken, hreads⟩ := Reference.exists_reads_of_outcome houtcome
  refine ⟨s, t, (List.cons.inj htext).2, ?_, ?_, hreads⟩
  · rw [ofDollar_of_outcome houtcome, Reference.read, htaken]
    rfl
  · rw [ofDollar_of_outcome houtcome]

end AtomReading

namespace Lexer

/-- A reference atom is what is read from its characters in front of those of the atoms behind. -/
theorem reads_of_mem_run {l : Lexer} {a : Atom} {r : Reference} (ha : a ∈ l.run.1)
    (hkind : a.kind = .reference r) : ∃ s t, a.text = '$' :: s ∧
      Reads (fun rest => Reference.read ('$' :: rest)) 1 s (some r) t := by
  induction l using Lexer.run.induct with
  | case1 l hrest => simp [run_of_rest_nil hrest] at ha
  | case2 l c rest hrest step =>
    rename_i ih
    rw [run_of_rest_cons hrest] at ha
    rcases List.mem_cons.mp ha with rfl | ha
    · obtain rfl := AtomReading.eq_dollar_of_reference hkind
      obtain ⟨s, t, rfl, hmore, -, hreads⟩ := AtomReading.reads_of_reference hkind
      refine ⟨s, t, ?_, hreads⟩
      simp [advance, hmore]
    · exact ih ha

end Lexer

theorem readBy_of_mem_lex {text : Text} {q : Quoting} {a : Atom} {r : Reference}
    (ha : a ∈ (lex text q).atoms) (hkind : a.kind = .reference r) :
    r.ReadBy (Reference.readWithin maxNesting) ∧ a.text = r.text := by
  obtain ⟨s, t, htext, hread⟩ := Lexer.reads_of_mem_run ha hkind
  exact ⟨⟨s, t, hread⟩, htext.trans (Reference.text_of_reads hread).symm⟩

/-- Each reference of a text, an atom or one inside of it at any depth, is read again from its
characters, whatever is put behind them: all of them are taken, and the reference that they make is
the same, with the same references inside at the same places from its start. -/
theorem lex_reference_again {text : Text} {q : Quoting} {a : Atom} {whole r : Reference}
    {start : Nat} (ha : a ∈ (lex text q).atoms) (hkind : a.kind = .reference whole)
    (hr : (start, r) ∈ (a.span.start, whole) :: whole.nested a.span.start) (t : Text) :
    (Reference.read (r.text ++ t)).outcome = .ok (some r) ∧
      (Reference.read (r.text ++ t)).taken = r.text.length ∧
      r.nested start = (r.nested 0).map (Reference.shiftStart start) := by
  have hread : Reads Reference.read 0 r.text (some r) t := by
    have hreadBy := (readBy_of_mem_lex ha hkind).1
    rcases List.mem_cons.mp hr with hself | hnested
    · obtain ⟨rfl, rfl⟩ := Prod.mk.inj hself
      exact hreadBy.read (Nat.le_refl _) t
    · obtain ⟨inner, hlt, hinner⟩ := hreadBy.of_mem_nested hnested
      exact hinner.read (Nat.le_of_lt hlt) t
  refine ⟨hread.outcome, hread.taken.trans (Nat.zero_add _), ?_⟩
  rw [← Reference.nested_shift, Nat.zero_add]

/-- The name of `${a${b}}` holds `${b}`, which is read again in front of a colon. -/
theorem lex_reference_again_inside :
    (Reference.read ['$', '\x7b', 'b', '\x7d', ':']).outcome =
      .ok (some ⟨.braces, [.literal ['b']], [], ['$', '\x7b', 'b', '\x7d']⟩) := by
  let inner : Reference := ⟨.braces, [.literal ['b']], [], ['$', '\x7b', 'b', '\x7d']⟩
  let whole : Reference := ⟨.braces, [.literal ['a'], .reference inner], [],
    ['$', '\x7b', 'a', '$', '\x7b', 'b', '\x7d', '\x7d']⟩
  have hatoms :
      (lex whole.text .plain).atoms = [⟨.reference whole, whole.text, ⟨0, 8⟩, .plain⟩] := by
    unfold lex
    rw [Lexer.run_of_rest_cons rfl, Lexer.run_of_rest_nil (by with_unfolding_all rfl)]
    with_unfolding_all rfl
  have hnested : whole.nested 0 = [(3, inner)] := by
    with_unfolding_all rfl
  exact (@lex_reference_again whole.text .plain ⟨.reference whole, whole.text, ⟨0, 8⟩, .plain⟩ whole
    inner 3 (hatoms ▸ List.mem_singleton_self _) rfl (by simp [hnested]) [':']).1

end RecipeLint

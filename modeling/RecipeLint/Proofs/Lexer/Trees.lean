import RecipeLint.Proofs.Lexer.References
import RecipeLint.Proofs.Reading.Nested

/-!
# References as trees over the text

Each reference of a text, at any depth, is the characters at its place: its delimiters around its
name and its modifiers, with the references inside between them.
-/

namespace RecipeLint

open Reference

theorem stands_of_mem_lex {text : Text} {q : Quoting} {a : Atom} {r : Reference}
    (ha : a ∈ (lex text q).atoms) (hkind : a.kind = .reference r) :
    text.Stands a.span.start r.text := by
  obtain ⟨-, front, behind, hcut, hspan⟩ := exists_cut_of_mem_lex ha
  obtain ⟨-, htext⟩ := readBy_of_mem_lex ha hkind
  exact ⟨front, behind, htext ▸ hcut, by rw [hspan]⟩

/-- A reference of a text, an atom or inside of one at any depth, is faithful to its characters.
They are what the text has at its span: a dollar sign, and between its delimiters the name and the
modifiers.  The references inside lie between the delimiters, in the order in which they start, and
any two of them stand apart or one inside the other.  The name and the arguments of the modifiers are
in normal form, and are at their places what their parts write. -/
theorem lex_reference_tree {text : Text} {q : Quoting} {a : Atom} {whole r : Reference}
    {start : Nat} (ha : a ∈ (lex text q).atoms) (hkind : a.kind = .reference whole)
    (hr : (start, r) ∈ (a.span.start, whole) :: whole.nested a.span.start) :
    (r.spanAt start).slice? text = some r.text ∧
      r.text = '$' :: r.delimiter.opening ++ r.varname ++ r.modifierText ++ r.delimiter.closing ∧
      (∀ x ∈ r.nested start,
        start + Text.byteSize ('$' :: r.delimiter.opening) ≤ (x.2.spanAt x.1).start ∧
          (x.2.spanAt x.1).stop + Text.byteSize r.delimiter.closing ≤ (r.spanAt start).stop) ∧
      ((r.nested start).Pairwise fun x y => (x.2.spanAt x.1).OpensBefore (y.2.spanAt y.1)) ∧
      (r.placedTexts start).map Prod.snd = r.name :: r.modifiers.flatMap Modifier.arguments ∧
      ∀ x ∈ r.placedTexts start, MakeText.Normal x.2 ∧
        (Span.mk x.1 (x.1 + MakeText.size x.2)).slice? text = some (x.2.flatMap Part.source) := by
  obtain ⟨hwhole, -⟩ := readBy_of_mem_lex ha hkind
  have hstands : text.Stands start r.text :=
    hwhole.stands_of_mem (stands_of_mem_lex ha hkind) hr
  obtain ⟨levels, hreadBy⟩ : ∃ levels, r.ReadBy (readWithin levels) := by
    rcases List.mem_cons.mp hr with hself | hnested
    · obtain ⟨-, rfl⟩ := Prod.mk.inj hself
      exact ⟨_, hwhole⟩
    · obtain ⟨inner, -, hinner⟩ := hwhole.of_mem_nested hnested
      exact ⟨inner, hinner⟩
  have hspells := hreadBy.spells
  refine ⟨hstands.slice?_eq, hspells.2, fun x hx => ?_, hreadBy.pairwise_nested,
    map_snd_placedTexts start r, fun x hx => ⟨hreadBy.normal x hx, ?_⟩⟩
  · obtain ⟨hlow, hhigh⟩ := hreadBy.bounds_of_mem_nested hx
    have hopening : Text.byteSize ('$' :: r.delimiter.opening) = r.nameOffset := rfl
    have hclosing := hspells.closingOffset_add
    simp only [hopening, spanAt]
    omega
  · exact (hspells.stands_of_mem_placedTexts hstands hx).slice?_eq

/-- In `x${a${b}:D$c}` the references `${b}` and `$c` stand apart, inside the reference around
them. -/
theorem lex_reference_tree_nested :
    let b : Reference := ⟨.braces, [.literal ['b']], [], ['$', '\x7b', 'b', '\x7d']⟩
    let c : Reference := ⟨.bare, [.literal ['c']], [], ['$', 'c']⟩
    let whole : Reference := ⟨.braces, [.literal ['a'], .reference b],
      [.colon (.ifSet [.reference c])],
      '$' :: '\x7b' :: 'a' :: b.text ++ ':' :: 'D' :: c.text ++ ['\x7d']⟩
    (Span.mk 1 13).slice? ('x' :: whole.text) = some whole.text ∧
      whole.nested 1 = [(4, b), (10, c)] ∧ (b.spanAt 4).OpensBefore (c.spanAt 10) ∧
      MakeText.Normal [.literal ['a'], .reference b] ∧
      (Span.mk 3 8).slice? ('x' :: whole.text) = some ('a' :: b.text) := by
  intro b c whole
  let tail : Text := ['\x7b', 'a', '$', '\x7b', 'b', '\x7d', ':', 'D', '$', 'c', '\x7d']
  let behind : Lexer := ⟨'$' :: tail, 1, .plain, 0, false, [], false⟩
  have hread : (read ('$' :: tail)).outcome = .ok (some whole) := by with_unfolding_all rfl
  have htaken : (read ('$' :: tail)).taken = 12 := by with_unfolding_all rfl
  have hfirst : (Lexer.start ('x' :: '$' :: tail) .plain).advance 'x' ('$' :: tail) =
      (⟨.text, ['x'], ⟨0, 1⟩, .plain⟩, behind) := by with_unfolding_all rfl
  have hsecond : AtomReading.read .plain false '$' tail =
      ⟨.reference whole, 11, (read ('$' :: tail)).findings, .plain⟩ := by
    have hdollar : AtomReading.ofDollar .plain tail = ⟨.reference whole,
        (read ('$' :: tail)).taken - 1, (read ('$' :: tail)).findings, .plain⟩ :=
      AtomReading.ofDollar_of_outcome hread
    rw [htaken] at hdollar
    exact hdollar
  have hatoms : (lex ('x' :: whole.text) .plain).atoms =
      [⟨.text, ['x'], ⟨0, 1⟩, .plain⟩, ⟨.reference whole, whole.text, ⟨1, 13⟩, .plain⟩] := by
    have hrest : behind.rest = '$' :: tail := rfl
    have hwhole : whole.text = '$' :: tail := rfl
    rw [hwhole, lex, Lexer.run_of_rest_cons rfl, hfirst, Lexer.run_of_rest_cons hrest,
      Lexer.advance, hsecond, Lexer.run_of_rest_nil rfl]
    rfl
  have hnested : whole.nested 1 = [(4, b), (10, c)] := by with_unfolding_all rfl
  have hmem : ⟨.reference whole, whole.text, ⟨1, 13⟩, .plain⟩ ∈
      (lex ('x' :: whole.text) .plain).atoms := by
    rw [hatoms]
    exact List.mem_cons_of_mem _ List.mem_cons_self
  obtain ⟨hslice, -, -, hpairwise, -, htexts⟩ :=
    lex_reference_tree hmem rfl List.mem_cons_self
  rw [hnested] at hpairwise
  obtain ⟨hnormal, hname⟩ := htexts (3, whole.name) List.mem_cons_self
  exact ⟨hslice, hnested, (List.pairwise_cons.mp hpairwise).1 _ List.mem_cons_self, hnormal,
    hname⟩

end RecipeLint

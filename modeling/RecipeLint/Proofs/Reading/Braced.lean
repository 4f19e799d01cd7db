import RecipeLint.Proofs.Reading.Respell

/-!
# References in round parentheses

The finding about round parentheses proposes braces around the same characters.  What is read from
there has the same name and the same modifiers if and only if the closing brace does not stand in
them for itself: in parentheses it is a character like others, in braces it is the end.
-/

namespace RecipeLint

open Reading

/-- The closing delimiter does not stand for itself in the modifiers that were read in front of
it. -/
theorem Link.AllStand.not_shows {nested nested' : Reader (Option Reference)}
    (hextends : Extends nested nested') {opening close b : Char} (hopens : Opens opening close)
    {name t : Text} {mayJoin : Bool} {chain : List Link}
    (h : AllStand nested close name mayJoin (b :: t) chain) :
    ∀ link ∈ chain, ∀ m, link.modifier? = some m → m.shows nested' close = false := by
  induction chain generalizing mayJoin with
  | nil => exact fun link hlink => by simp at hlink
  | cons link chain ih =>
    obtain ⟨hstands, hrest⟩ := h
    intro link' hlink' m hm
    rcases List.mem_cons.mp hlink' with rfl | hmem
    · obtain ⟨c, rest, hc⟩ : ∃ c rest, chain.flatMap source ++ b :: t = c :: rest :=
        List.exists_cons_of_ne_nil (by simp)
      rw [hc] at hstands
      cases link' with
      | empty => simp [modifier?] at hm
      | colon m' =>
        obtain rfl := Option.some.inj hm
        exact Modifier.not_shows_of_read hextends hopens hstands
      | joined m' =>
        obtain rfl := Option.some.inj hm
        exact Modifier.not_shows_of_read hextends hopens hstands.2.2
    · exact ih hrest link' hmem m hm

namespace Reference

/-- Whether a character stands in the name or in a modifier for itself: outside of the references
there, and not hidden by a backslash. -/
def shows (c : Char) (r : Reference) : Bool :=
  MakeText.hasLiteral c r.name || r.modifiers.any (Modifier.shows (readWithin (maxNesting - 1)) c)

theorem shows_eq_false_iff {c : Char} {r : Reference} :
    r.shows c = false ↔ MakeText.hasLiteral c r.name = false ∧
      ∀ link ∈ r.chain, ∀ m, link.modifier? = some m →
        m.shows (readWithin (maxNesting - 1)) c = false := by
  rw [shows, Bool.or_eq_false_iff, modifiers, List.any_eq_false]
  refine and_congr_right fun _ => ⟨fun h link hlink m hm => ?_, fun h m hm => ?_⟩
  · simpa using h m (List.mem_filterMap.mpr ⟨link, hlink, hm⟩)
  · obtain ⟨link, hlink, hlinkm⟩ := List.mem_filterMap.mp hm
    simp [h link hlink m hlinkm]

section

variable {s t : Text} {r : Reference}

theorem readBody_of_reads {delimiter : Delimiter} {opening close : Char}
    (hwrites : delimiter.Writes opening close) (hdelimiter : r.delimiter = delimiter)
    (h : Reads (fun rest => readWithin maxNesting ('$' :: rest)) 1 s (some r) t) :
    ∃ s', s = opening :: (s' ++ [close]) ∧
      Reads (readBody (readWithin (maxNesting - 1)) close) 0 s' (r.name, r.chain) (close :: t) := by
  rcases reads_readWithin.mp h with
    ⟨inner, delimiter', opening', close', s', name, chain, hlevels, hwrites', hs, rfl, hbody⟩ |
    ⟨c, -, -, rfl⟩
  · obtain rfl : inner = maxNesting - 1 := (Nat.succ.inj hlevels).symm
    obtain rfl : delimiter' = delimiter := hdelimiter
    obtain ⟨rfl, rfl⟩ : opening' = opening ∧ close' = close := by
      cases hwrites <;> cases hwrites' <;> exact ⟨rfl, rfl⟩
    exact ⟨s', hs, hbody⟩
  · obtain rfl : Delimiter.bare = delimiter := hdelimiter
    cases hwrites

/-- The closing brace does not stand for itself in what was read in braces. -/
theorem not_shows_of_braces (hdelimiter : r.delimiter = .braces)
    (h : Reads (fun rest => readWithin maxNesting ('$' :: rest)) 1 s (some r) t) :
    r.shows '\x7d' = false := by
  obtain ⟨s', -, hbody⟩ := readBody_of_reads .braces hdelimiter h
  have hextends := extends_readWithin (Nat.le_refl (maxNesting - 1))
  obtain ⟨-, hname, hstand⟩ := (reads_readBody hextends.fits .braces).mp hbody
  obtain ⟨b, rest, hb, -⟩ := head_of_allStand hstand
  rw [hb] at hname
  refine shows_eq_false_iff.mpr ⟨?_, hstand.not_shows hextends .braces⟩
  rw [← MakeText.shows_false]
  exact Modifier.not_shows_of_argument hextends .braces hname

/-- Where the closing brace does not stand for itself, the name and the modifiers of a reference in
parentheses are read from its spelling in braces. -/
theorem reads_braced (hdelimiter : r.delimiter = .parentheses)
    (h : Reads (fun rest => readWithin maxNesting ('$' :: rest)) 1 s (some r) t)
    (hshows : r.shows '\x7d' = false) (t' : Text) :
    Reads read 0 r.braced (some (r.withChain r.chain)) t' := by
  obtain ⟨s', -, hbody⟩ := readBody_of_reads .parentheses hdelimiter h
  have hextends := extends_readWithin (Nat.le_refl (maxNesting - 1))
  obtain ⟨hname, hmodifiers⟩ := shows_eq_false_iff.mp hshows
  have hbody' := readBody_again hextends .parentheses .braces hbody
    (.inr (MakeText.not_shows_of_not_hasLiteral hname))
    (fun link hlink m hm => .inr (hmodifiers link hlink m hm)) t'
  obtain ⟨rfl, -⟩ := (reads_readBody hextends.fits .braces).mp hbody'
  exact reads_withChain hbody'

end

theorem styleFindings_subset {close : Char} {delimiter : Delimiter} {text : Text}
    {body : Reading (MakeText × List Link)} {r : Reference}
    (h : (endDelimited close delimiter text body).outcome = .ok r) :
    r.styleFindings ⊆ (endDelimited close delimiter text body).findings := by
  cases hbody : body.outcome with
  | error failure => simp [endDelimited, hbody] at h
  | ok value =>
    obtain ⟨name, chain⟩ := value
    cases hrest : text.drop body.taken with
    | nil => simp [endDelimited, hbody, hrest] at h
    | cons c rest =>
      by_cases hc : c = close
      · simp only [endDelimited, hbody, hrest, hc, if_true] at h ⊢
        obtain rfl := Except.ok.inj h
        exact List.subset_append_right _ _
      · simp [endDelimited, hbody, hrest, hc] at h

/-- The finding about round parentheses proposes the name and the modifiers of the reference in
braces.  All of the proposal is read as that, whatever is put behind it, if and only if the closing
brace does not stand for itself in the name or in a modifier. -/
theorem read_braced {text : Text} {r : Reference} (hread : (read text).outcome = .ok (some r))
    (hdelimiter : r.delimiter = .parentheses) :
    (∃ f ∈ (read text).findings, f.value = .roundParentheses r.varname r.modifierText ∧
      f.span = .ofSize (Text.byteSize (text.take (read text).taken)) ∧
      f.diagnostic.fix? = some ⟨f.span, r.braced⟩) ∧
    ∀ t, (∃ r', (read (r.braced ++ t)).outcome = .ok (some r') ∧
        (read (r.braced ++ t)).taken = r.braced.length ∧ r'.delimiter = .braces ∧
        r'.name = r.name ∧ r'.modifiers = r.modifiers) ↔
      r.shows '\x7d' = false := by
  obtain ⟨s, t₀, htext, htaken, hreads⟩ := exists_reads_of_outcome hread
  refine ⟨⟨⟨.roundParentheses r.varname r.modifierText, .ofSize (Text.byteSize r.text)⟩, ?_, rfl,
    ?_, rfl⟩, fun t => ⟨?_, fun hshows => ?_⟩⟩
  · obtain ⟨s', rfl, -⟩ := readBody_of_reads .parentheses hdelimiter hreads
    subst htext
    obtain ⟨r', hr', hsome⟩ := outcome_map_eq_ok_iff.mp hread
    obtain rfl := Option.some.inj hsome
    refine styleFindings_subset hr' ?_
    simp [styleFindings, hdelimiter]
  · have htake : text.take (read text).taken = r.text := by
      rw [read, htaken, htext, text_of_reads hreads]
      simp
    rw [htake]
  · rintro ⟨r', hread', -, hbraces, hname, hmodifiers⟩
    obtain ⟨s', t', -, -, hreads'⟩ := exists_reads_of_outcome hread'
    have hshows := not_shows_of_braces hbraces hreads'
    rwa [shows, hname, hmodifiers] at hshows
  · have hbraced := reads_braced hdelimiter hreads hshows t
    exact ⟨_, hbraced.outcome, hbraced.taken.trans (Nat.zero_add _), rfl, rfl, rfl⟩

/-- The finding about `$(X:M\})` proposes `${X:M\}}`, where the brace is hidden. -/
theorem read_braced_hidden :
    ∃ r, (read "$(X:M\\\x7d)".toList).outcome = .ok (some r) ∧ r.delimiter = .parentheses ∧
      r.braced = "$\x7bX:M\\\x7d\x7d".toList ∧
      ∃ r', (read "$\x7bX:M\\\x7d\x7d".toList).outcome = .ok (some r') ∧
        (read "$\x7bX:M\\\x7d\x7d".toList).taken = 8 ∧ r'.delimiter = .braces ∧
        r'.name = [.literal ['X']] ∧
        r'.modifiers = [.select true [.literal ['\\', '\x7d']]] := by
  let r : Reference := ⟨.parentheses, [.literal ['X']],
    [.colon (.select true [.literal ['\\', '\x7d']])], "$(X:M\\\x7d)".toList⟩
  have hread : (read r.text).outcome = .ok (some r) := by with_unfolding_all rfl
  exact ⟨r, hread, rfl, rfl, ((read_braced hread rfl).2 []).mpr rfl⟩

/-- The finding about `$(X:S/}/x/)` proposes `${X:S/}/x/}`, where the brace ends the reference. -/
theorem read_braced_brace :
    ∃ r, (read "$(X:S/\x7d/x/)".toList).outcome = .ok (some r) ∧ r.delimiter = .parentheses ∧
      r.modifiers = [.substitute false '/' [.literal ['\x7d']] [.literal ['x']] []] ∧
      r.braced = "$\x7bX:S/\x7d/x/\x7d".toList ∧
      (read r.braced).outcome = .error ⟨.invalidModifier "S/".toList "X".toList, ⟨4, 6⟩⟩ := by
  let r : Reference := ⟨.parentheses, [.literal ['X']],
    [.colon (.substitute false '/' [.literal ['\x7d']] [.literal ['x']] [])],
    "$(X:S/\x7d/x/)".toList⟩
  have hread : (read r.text).outcome = .ok (some r) := by with_unfolding_all rfl
  exact ⟨r, hread, rfl, rfl, rfl, by with_unfolding_all rfl⟩

end Reference

end RecipeLint

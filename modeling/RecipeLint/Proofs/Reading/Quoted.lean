import RecipeLint.Proofs.Reading.Respell

/-!
# Where the quoting modifier can be added

The spelling with the quoting modifier puts `:Q` behind the chain as it is written.  That reads as
one more modifier only if the last one ends there.  A separator still to be named takes the colon, a
loop without its second mark takes everything, and what starts like a choice or a command becomes
one.
-/

namespace RecipeLint

open Reading

section

variable {nested : Reader (Option Reference)} (hfits : FitsDollar nested) {opening close : Char}
  (hopens : Opens opening close) {name t : Text} {mayJoin : Bool} {m : Modifier}

namespace Modifier

theorem needsClose_of_isSubstitution (h : m.isSubstitution) : m.needsClose = false := by
  cases m with
  | substitute => rfl
  | _ => simp [isSubstitution] at h

include hfits hopens

/-- A modifier in front of a colon has ended without the closing delimiter. -/
theorem needsClose_of_reads_colon
    (h : Reads (read nested close name) 0 m.source (some m) (':' :: t)) :
    m.needsClose = false := by
  rw [Bool.eq_false_iff]
  intro hneeds
  have hstop {mark : Char} {pairs : Bool} {s : Text} {v : MakeText} (hmark : ':' ≠ mark)
      (hread : Reads (makeText nested (fun c => c == mark || c == close) pairs) 0 s v (':' :: t)) :
      False := by
    have hcolon := makeText_stops hfits hread
    rw [Bool.or_eq_true, beq_iff_eq, beq_iff_eq] at hcolon
    exact hcolon.elim hmark fun hclose => hopens.ne_colon hclose.symm
  cases m with
  | separator text =>
    obtain rfl : text = [] := List.isEmpty_iff.mp hneeds
    have hread := (reads_separatorForm []).mp (readForm_of_reads h (by simp) (by simp))
    obtain ⟨-, ⟨hcolon, -⟩ | hcolon⟩ := (reads_readSeparator hfits).mp hread
    · exact hcolon rfl rfl
    · exact absurd hcolon (List.cons_ne_nil _ _).symm
  | forEach loopVariable body closed =>
    obtain rfl : closed = false := by simpa [needsClose] using hneeds
    rcases reads_loopForm.mp (readForm_of_reads h (by simp) (by simp)) with
      ⟨_, _, -, -, hloop⟩ | ⟨-, hgeneral⟩
    · obtain ⟨v, ⟨_, -, hclosed, -⟩ | ⟨-, -, hbody⟩⟩ := reads_readLoop.mp hloop
      · simp at hclosed
      · exact hstop (by decide) hbody
    · obtain ⟨_, _, hsuffix⟩ := exists_suffix_of_readGeneral hgeneral
      simp at hsuffix
  | suffix old new =>
    cases hold : MakeText.source old with
    | nil => simp [needsClose, hold] at hneeds
    | cons c rest =>
      have hmark : c = '?' ∨ c = '!' := by simpa [needsClose, hold] using hneeds
      rw [source, hold, List.cons_append] at h
      have hread := readForm_of_reads h (by simp) (by simp)
      rcases hmark with rfl | rfl
      · rcases reads_readChoice.mp hread with ⟨_, _, _, _, -, hchoose, -⟩ | ⟨_, hcolon, -⟩
        · simp at hchoose
        · exact hcolon rfl
      · obtain ⟨_, ⟨_, -, hshell, -⟩ | ⟨-, hcommand, -⟩⟩ := reads_readCommand.mp hread
        · simp at hshell
        · exact hstop (by decide) hcommand
  | _ => simp [needsClose] at hneeds

end Modifier

namespace Link

/-- Behind links without a modifier stands a colon, if there is one behind the chain. -/
theorem exists_colon {chain : List Link} (h : chain.filterMap modifier? = []) (t : Text) :
    ∃ rest, chain.flatMap source ++ ':' :: t = ':' :: rest := by
  cases chain with
  | nil => exact ⟨t, rfl⟩
  | cons link chain =>
    cases link with
    | empty => exact ⟨_, rfl⟩
    | colon m | joined m => simp [modifier?] at h

/-- A modifier without a colon stands behind a link that it may be joined to. -/
theorem AllStand.isOpen_of_joined {behind : Text} {front : List Link}
    (h : AllStand nested close name mayJoin behind (front ++ [.joined m])) :
    (front.getLast?.map isOpen).getD mayJoin := by
  induction front generalizing mayJoin with
  | nil => exact h.1.1
  | cons link front ih =>
    have hopen := ih h.2
    rw [List.getLast?_cons]
    cases hlast : front.getLast? <;> simpa [hlast] using hopen

include hfits hopens

theorem AllStand.needsClose_getLast {chain : List Link}
    (h : AllStand nested close name mayJoin (':' :: t) chain)
    (hlast : (chain.filterMap modifier?).getLast? = some m) : m.needsClose = false := by
  induction chain generalizing mayJoin with
  | nil => simp at hlast
  | cons link chain ih =>
    obtain ⟨hstands, hrest⟩ := h
    have hcons : (link :: chain).filterMap modifier? =
        link.modifier?.toList ++ chain.filterMap modifier? := by cases link <;> rfl
    rw [hcons, List.getLast?_append] at hlast
    cases hbehind : (chain.filterMap modifier?).getLast? with
    | some m' =>
      rw [hbehind, Option.some_or] at hlast
      exact ih hrest (hbehind.trans hlast)
    | none =>
      rw [hbehind, Option.none_or] at hlast
      obtain ⟨rest, hcolon⟩ := exists_colon (List.getLast?_eq_none_iff.mp hbehind) t
      rw [hcolon] at hstands
      cases link with
      | empty => simp [modifier?] at hlast
      | colon m' =>
        obtain rfl : m' = m := by simpa [modifier?] using hlast
        exact Modifier.needsClose_of_reads_colon hfits hopens hstands
      | joined m' =>
        obtain rfl : m' = m := by simpa [modifier?] using hlast
        exact Modifier.needsClose_of_reads_colon hfits hopens hstands.2.2

/-- Where a chain ends in the quoting modifier and that is written `:Q`, the modifier before it has
ended without the closing delimiter. -/
theorem AllStand.needsClose_of_quote {chain : List Link} {modifiers : List Modifier} {s : Text}
    (h : AllStand nested close name false t chain)
    (hsource : chain.flatMap source = s ++ [':', 'Q'])
    (hmodifiers : chain.filterMap modifier? = modifiers ++ [.quote])
    (hlast : modifiers.getLast? = some m) : m.needsClose = false := by
  rcases List.eq_nil_or_concat chain with rfl | ⟨init, link, hchain⟩
  · simp at hmodifiers
  rw [List.concat_eq_append] at hchain
  subst hchain
  rw [List.filterMap_append] at hmodifiers
  cases link with
  | empty =>
    have hends := congrArg List.getLast? hsource
    simp [source] at hends
  | colon m' =>
    obtain ⟨rfl, -⟩ := List.append_inj' hmodifiers rfl
    exact (append.mp h).1.needsClose_getLast hfits hopens hlast
  | joined m' =>
    obtain ⟨rfl, -⟩ := List.append_inj' hmodifiers rfl
    have hopen := h.isOpen_of_joined
    rcases List.eq_nil_or_concat init with rfl | ⟨front, last, hinit⟩
    · simp at hlast
    rw [List.concat_eq_append] at hinit
    subst hinit
    have hopen' : last.isOpen := by simpa using hopen
    cases last with
    | empty => simp [isOpen, modifier?] at hopen'
    | colon m'' | joined m'' =>
      obtain rfl : m'' = m := by simpa [modifier?] using hlast
      exact Modifier.needsClose_of_isSubstitution hopen'

end Link

end

namespace Reference

theorem readBody_of_quoted {s t : Text} {r r' : Reference} (hs : r.quoted = '$' :: s)
    (h : Reads (fun rest => readWithin maxNesting ('$' :: rest)) 1 s (some r') t) :
    Reads (readBody (readWithin (maxNesting - 1)) '\x7d') 0
      (r.varname ++ (r.modifierText ++ [':', 'Q'])) (r'.name, r'.chain) ('\x7d' :: t) := by
  rw [quoted, bracedSpelling] at hs
  rcases reads_readWithin.mp h with
    ⟨inner, delimiter, opening, close, s', name, chain, hlevels, hwrites, rfl, rfl, hbody⟩ |
    ⟨c, rfl, -, -⟩
  · obtain ⟨hopening, hinside⟩ := List.cons.inj (List.cons.inj hs).2
    cases hwrites with
    | parentheses => exact absurd hopening (by decide)
    | braces =>
      obtain rfl : inner = maxNesting - 1 := (Nat.succ.inj hlevels).symm
      obtain ⟨hbraced, -⟩ := List.append_inj' hinside rfl
      exact hbraced ▸ hbody
  · simp at hs

/-- The spelling with the quoting modifier is read in full as the same name with the quoting
modifier behind the same modifiers, whatever is put behind it, if and only if the last of these
needs no closing delimiter. -/
theorem read_quoted {text : Text} {r : Reference} (hread : (read text).outcome = .ok (some r))
    (hdelimiter : r.delimiter ≠ .parentheses) (t : Text) :
    (∃ r', (read (r.quoted ++ t)).outcome = .ok (some r') ∧
        (read (r.quoted ++ t)).taken = r.quoted.length ∧
        r'.name = r.name ∧ r'.modifiers = r.modifiers ++ [.quote]) ↔
      ∀ m, r.modifiers.getLast? = some m → m.needsClose = false := by
  obtain ⟨s, t₀, -, -, hreads⟩ := exists_reads_of_outcome hread
  constructor
  · rintro ⟨r', hread', htaken, hname, hmodifiers⟩ m hlast
    obtain ⟨s', t', htext, htaken', hreads'⟩ := exists_reads_of_outcome hread'
    have hs : r.quoted = '$' :: s' ∧ t = t' := List.append_inj htext (htaken.symm.trans htaken')
    have hbody := readBody_of_quoted hs.1 hreads'
    have hfits := readWithin_fits (maxNesting - 1)
    obtain ⟨hsource, -, hstand⟩ := (reads_readBody hfits .braces).mp hbody
    rw [hname] at hsource
    exact hstand.needsClose_of_quote hfits .braces (List.append_cancel_left hsource).symm
      hmodifiers hlast
  · intro hlast
    have hquoted := reads_quoted ⟨s, t₀, hreads⟩ hdelimiter hlast t
    refine ⟨_, hquoted.outcome, hquoted.taken.trans (Nat.zero_add _), rfl, ?_⟩
    simp [modifiers, withChain, Link.modifier?]

/-- A colon and the quoting modifier can be put behind a substitution, which another modifier may
follow at once. -/
theorem read_quoted_substitution :
    ∃ r, (read "$\x7bX:S/a/b/\x7d".toList).outcome = .ok (some r) ∧ r.delimiter ≠ .parentheses ∧
      r.quoted = "$\x7bX:S/a/b/:Q\x7d".toList ∧
      ∃ r', (read "$\x7bX:S/a/b/:Q\x7d".toList).outcome = .ok (some r') ∧
        (read "$\x7bX:S/a/b/:Q\x7d".toList).taken = 13 ∧ r'.name = [.literal ['X']] ∧
        r'.modifiers = [.substitute false '/' [.literal ['a']] [.literal ['b']] [], .quote] := by
  let r : Reference := ⟨.braces, [.literal ['X']],
    [.colon (.substitute false '/' [.literal ['a']] [.literal ['b']] [])],
    "$\x7bX:S/a/b/\x7d".toList⟩
  have hread : (read r.text).outcome = .ok (some r) := by with_unfolding_all rfl
  refine ⟨r, hread, nofun, rfl, (read_quoted hread nofun []).mpr fun m hm => ?_⟩
  obtain rfl := Option.some.inj hm
  rfl

/-- The suffix substitution of `${X:?a=b}` starts like a choice, and becomes one in
`${X:?a=b:Q}`. -/
theorem read_quoted_choice :
    ∃ r, (read "$\x7bX:?a=b\x7d".toList).outcome = .ok (some r) ∧ r.delimiter = .braces ∧
      r.modifiers = [.suffix [.literal ['?', 'a']] [.literal ['b']]] ∧
      r.quoted = "$\x7bX:?a=b:Q\x7d".toList ∧
      ∃ r', (read r.quoted).outcome = .ok (some r') ∧
        r'.modifiers = [.choose [.literal ['a', '=', 'b']] [.literal ['Q']]] ∧
        r'.modifiers ≠ r.modifiers ++ [.quote] := by
  let r : Reference := ⟨.braces, [.literal ['X']],
    [.colon (.suffix [.literal ['?', 'a']] [.literal ['b']])], "$\x7bX:?a=b\x7d".toList⟩
  let r' : Reference := ⟨.braces, [.literal ['X']],
    [.colon (.choose [.literal ['a', '=', 'b']] [.literal ['Q']])], "$\x7bX:?a=b:Q\x7d".toList⟩
  have hread : (read r.text).outcome = .ok (some r) := by with_unfolding_all rfl
  have hread' : (read r'.text).outcome = .ok (some r') := by with_unfolding_all rfl
  exact ⟨r, hread, rfl, rfl, rfl, r', hread', rfl, fun h => by cases h⟩

end Reference

end RecipeLint

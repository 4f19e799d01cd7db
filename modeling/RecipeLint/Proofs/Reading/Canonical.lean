import RecipeLint.Proofs.Reading.Body

/-!
# References written anew

A reference in delimiters can be written anew from its name and its modifiers, each behind one
colon.  What is read from there has the same delimiter, name and modifiers: empty modifiers, missing
colons and missing marks at the end of a loop are all that is lost.  One mark cannot be added, the
one behind a dollar sign that starts nothing, for which it would be a name.
-/

namespace RecipeLint

open Reading

namespace Modifier

def marked : Modifier → Modifier
  | forEach loopVariable body _ => forEach loopVariable body true
  | m => m

/-- The modifier with the last mark of a loop, unless it is missing behind a dollar sign that starts
nothing. -/
def settled : Modifier → Modifier
  | forEach loopVariable body closed =>
    forEach loopVariable body (closed || !MakeText.endsInDollar true body)
  | m => m

theorem marked_settled (m : Modifier) : m.settled.marked = m.marked := by
  cases m <;> rfl

end Modifier

def Link.spelled (spell : Modifier → Modifier) (chain : List Link) : List Link :=
  (chain.filterMap modifier?).map fun m => colon (spell m)

def Reference.spelled (spell : Modifier → Modifier) (r : Reference) : Text :=
  '$' :: (r.delimiter.opening ++ r.varname ++
    r.modifiers.flatMap (fun m => ':' :: (spell m).source) ++ r.delimiter.closing)

theorem Link.flatMap_source_spelled (spell : Modifier → Modifier) (chain : List Link) :
    (spelled spell chain).flatMap source =
      (chain.filterMap modifier?).flatMap fun m => ':' :: (spell m).source := by
  rw [spelled, List.flatMap_map]
  rfl

theorem Link.filterMap_modifier?_spelled (spell : Modifier → Modifier) (chain : List Link) :
    (spelled spell chain).filterMap modifier? = (chain.filterMap modifier?).map spell := by
  have hlink : modifier? ∘ (fun m => colon (spell m)) = some ∘ spell := rfl
  rw [spelled, List.filterMap_map, hlink, List.filterMap_eq_map]

theorem Link.AllStand.mayFollow_colon {nested : Reader (Option Reference)} {close b : Char}
    {name rest behind : Text} {chain : List Link} {link : Link} {m : Modifier}
    (hm : link.modifier? = some m) (h : AllStand nested close name link.isOpen behind chain)
    (hchain : chain ≠ []) (hrest : chain.flatMap source ++ behind = b :: rest) :
    m.MayFollow close b ':' := by
  cases chain with
  | nil => exact absurd rfl hchain
  | cons next chain =>
    cases next with
    | empty | colon =>
      obtain ⟨rfl, -⟩ := List.cons.inj hrest
      exact .inr (.inl ⟨rfl, .inl rfl⟩)
    | joined m' =>
      have hopen : m.isSubstitution := by simpa [isOpen, hm] using h.1.1
      exact .inr (.inr ⟨hopen, .inr (by decide)⟩)

section

variable {nested : Reader (Option Reference)} (hextends : Extends nested nested)
  {opening close : Char} (hopens : Opens opening close) {name t : Text} {b b' : Char}

include hextends

/-- A loop without its last mark is read with the mark, too. -/
theorem Modifier.loopForm_mark {s loopVariable : Text} {body : MakeText}
    (h : Reads (loopForm nested close name) 1 s (some (.forEach loopVariable body false)) (b :: t))
    (hbody : MakeText.endsInDollar true body = false) (behind : Text) :
    Reads (loopForm nested close name) 1 (s ++ ['@']) (some (.forEach loopVariable body true))
      (b' :: behind) := by
  rcases reads_loopForm.mp h with ⟨loopVariable', s, hloop, rfl, hread⟩ | ⟨-, hgeneral⟩
  · obtain ⟨v, ⟨_, -, hm, -⟩ | ⟨-, hm, hbody'⟩⟩ := reads_readLoop.mp hread
    · simp at hm
    · obtain ⟨rfl, rfl, -⟩ := Modifier.forEach.inj hm
      obtain ⟨hne, hall, -⟩ := loopVariable?_eq_some_iff.mp hloop
      have hmark : Reads (makeText nested (fun c => c == '@' || c == close) true) 0 s body
          ('@' :: b' :: behind) :=
        makeText_again hextends hbody' rfl (.inr (.inr ⟨by decide, hbody⟩)) (fun _ _ h => h) _
      refine reads_loopForm.mpr (.inl ⟨loopVariable, s ++ ['@'], loopVariable?_eq_some_iff.mpr
        ⟨hne, hall, s ++ '@' :: b' :: behind, by simp⟩, by simp, ?_⟩)
      exact reads_readLoop.mpr ⟨body, .inl ⟨s, rfl, rfl, hmark⟩⟩
  · obtain ⟨v, -, hm⟩ := reads_readGeneral.mp hgeneral
    obtain ⟨_, _, -, hm⟩ := general_eq_some_iff.mp hm
    simp at hm

include hopens

theorem Modifier.settled_again {m : Modifier}
    (h : Reads (read nested close name) 0 m.source (some m) (b :: t))
    (hfollow : m.MayFollow close b b') (t' : Text) :
    Reads (read nested close name) 0 m.settled.source (some m.settled) (b' :: t') := by
  by_cases hsettled : m.settled = m
  · rw [hsettled]
    exact read_again hextends hopens hopens hfollow (.inl rfl) t' h
  obtain ⟨loopVariable, body, rfl, hbody⟩ : ∃ loopVariable body,
      m = .forEach loopVariable body false ∧ MakeText.endsInDollar true body = false := by
    cases m with
    | forEach loopVariable body closed =>
      cases closed <;> cases hends : MakeText.endsInDollar true body <;>
        simp_all [settled]
    | _ => exact absurd rfl hsettled
  -- No fixed word starts with the mark, so it chooses the form of loops.
  have hform {s : Text} {m : Modifier} {b : Char} {t : Text} :
      Reads (read nested close name) 0 ('@' :: s) (some m) (b :: t) ↔
        Reads (loopForm nested close name) 1 s (some m) (b :: t) :=
    (reads_read rfl).trans ⟨fun h => h.elim (fun h => by simp [ofWord?] at h) And.right, fun h =>
      .inr ⟨rfl, h⟩⟩
  have hsource : (forEach loopVariable body false).source =
      '@' :: (loopVariable ++ '@' :: MakeText.source body) := by
    simp [source]
  have hmarked : (forEach loopVariable body true).source =
      '@' :: (loopVariable ++ '@' :: MakeText.source body ++ ['@']) := by
    simp [source]
  have hmodifier : (forEach loopVariable body false).settled = forEach loopVariable body true := by
    simp [settled, hbody]
  rw [hsource, hform] at h
  rw [hmodifier, hmarked, hform]
  exact loopForm_mark hextends h hbody t'

/-- The modifiers of a chain are read again, each behind a colon. -/
theorem Link.AllStand.settled {chain : List Link} {mayJoin mayJoin' : Bool}
    (h : AllStand nested close name mayJoin (close :: t) chain) (t' : Text) :
    AllStand nested close name mayJoin' (close :: t') (spelled Modifier.settled chain) := by
  induction chain generalizing mayJoin mayJoin' with
  | nil => trivial
  | cons link chain ih =>
    obtain ⟨hstands, hrest⟩ := h
    have hspelled {m : Modifier} (hm : link.modifier? = some m)
        (hread : Reads (Modifier.read nested close name) 0 m.source (some m)
          (chain.flatMap source ++ close :: t)) :
        AllStand nested close name mayJoin' (close :: t')
          (spelled Modifier.settled (link :: chain)) := by
      have hcons : spelled Modifier.settled (link :: chain) =
          colon m.settled :: spelled Modifier.settled chain := by
        simp [spelled, hm]
      rw [hcons]
      refine ⟨?_, ih hrest⟩
      obtain ⟨b, rest, hb⟩ : ∃ b rest, chain.flatMap source ++ close :: t = b :: rest :=
        List.exists_cons_of_ne_nil (by simp)
      rw [hb] at hread
      cases hnext : spelled Modifier.settled chain with
      | nil => exact Modifier.settled_again hextends hopens hread (.inl rfl) t'
      | cons next others =>
        have hchain : chain ≠ [] := by
          rintro rfl
          simp [spelled] at hnext
        obtain ⟨m', rfl⟩ : ∃ m', next = colon m' := by
          have hmem : next ∈ spelled Modifier.settled chain := hnext ▸ List.mem_cons_self
          obtain ⟨m', -, rfl⟩ := List.mem_map.mp hmem
          exact ⟨_, rfl⟩
        exact Modifier.settled_again hextends hopens hread
          (hrest.mayFollow_colon hm hchain hb) _
    cases link with
    | empty => exact ih hrest
    | colon m => exact hspelled rfl hstands
    | joined m => exact hspelled rfl hstands.2.2

end

namespace Reference

theorem spelled_eq {delimiter : Delimiter} {opening close : Char}
    (hwrites : delimiter.Writes opening close) (spell : Modifier → Modifier) (name : MakeText)
    (chain : List Link) (text : Text) :
    spelled spell ⟨delimiter, name, chain, text⟩ = '$' :: opening ::
      (MakeText.source name ++ (Link.spelled spell chain).flatMap Link.source ++ [close]) := by
  have hopening : delimiter.opening = [opening] := by cases hwrites <;> rfl
  have hclosing : delimiter.closing = [close] := by cases hwrites <;> rfl
  simp [spelled, varname, modifiers, hopening, hclosing, Link.flatMap_source_spelled]

/-- A reference in delimiters is read from its canonical spelling, whatever is put behind it: all of
it is taken, and delimiter, name and modifiers are the same, the last mark of a loop aside. -/
theorem read_spelled {text : Text} {r : Reference} (hread : (read text).outcome = .ok (some r))
    (hdelimiter : r.delimiter ≠ .bare) (t : Text) :
    (read (r.spelled .settled ++ t)).taken = (r.spelled .settled).length ∧
      ∃ r', (read (r.spelled .settled ++ t)).outcome = .ok (some r') ∧
        r'.delimiter = r.delimiter ∧ r'.name = r.name ∧
        r'.modifiers = r.modifiers.map Modifier.settled ∧
        r'.modifiers.map Modifier.marked = r.modifiers.map Modifier.marked := by
  obtain ⟨s, t₀, -, -, hreads⟩ := exists_reads_of_outcome hread
  rcases reads_readWithin.mp hreads with
    ⟨inner, delimiter, opening, close, s', name, chain, hlevels, hwrites, -, rfl, hbody⟩ |
    ⟨c, -, -, rfl⟩
  · have hextends : Extends (readWithin inner) (readWithin inner) :=
      extends_readWithin (Nat.le_refl inner)
    obtain ⟨-, -, hstand⟩ := (reads_readBody hextends.fits hwrites.opens).mp hbody
    have hspelled := reads_readWithin.mpr (.inl ⟨inner, delimiter, opening, close, _, name, _,
      hlevels, hwrites, rfl, rfl, readBody_of_allStand hextends hwrites.opens hwrites.opens hbody (.inl rfl)
        (hstand.settled hextends hwrites.opens t)⟩)
    rw [spelled_eq hwrites]
    have hwhole : Reads read 0 _ (some _) t := (reads_cons '$').mpr hspelled
    refine ⟨hwhole.taken.trans (Nat.zero_add _), _, hwhole.outcome, rfl, rfl, ?_, ?_⟩
    · exact Link.filterMap_modifier?_spelled _ chain
    · rw [modifiers, Link.filterMap_modifier?_spelled, List.map_map]
      exact List.map_congr_left fun m _ => m.marked_settled
  · exact absurd rfl hdelimiter

/-- The canonical spelling of `${X:S/a/b/Q:@v@w}` is `${X:S/a/b/:Q:@v@w@}`. -/
theorem read_spelled_joined :
    (read "$\x7bX:S/a/b/:Q:@v@w@\x7d".toList).taken = 19 ∧
      ∃ r, (read "$\x7bX:S/a/b/:Q:@v@w@\x7d".toList).outcome = .ok (some r) ∧
        r.modifiers = [.substitute false '/' [.literal ['a']] [.literal ['b']] [], .quote,
          .forEach ['v'] [.literal ['w']] true] := by
  let r : Reference := ⟨.braces, [.literal ['X']],
    [.colon (.substitute false '/' [.literal ['a']] [.literal ['b']] []), .joined .quote,
      .colon (.forEach ['v'] [.literal ['w']] false)], "$\x7bX:S/a/b/Q:@v@w\x7d".toList⟩
  have hread : (read r.text).outcome = .ok (some r) := by with_unfolding_all rfl
  obtain ⟨htaken, r', houtcome, -, -, hmodifiers, -⟩ := read_spelled hread (by simp [r]) []
  exact ⟨htaken, r', houtcome, hmodifiers⟩

/-- The mark that `${X:@v@a$}` lacks cannot be added: behind the dollar sign it is a name. -/
theorem read_marked_dollar :
    ∃ r, (read "$\x7bX:@v@a$\x7d".toList).outcome = .ok (some r) ∧ r.delimiter = .braces ∧
      r.spelled .marked = "$\x7bX:@v@a$@\x7d".toList ∧
      ∃ r', (read (r.spelled .marked)).outcome = .ok (some r') ∧
        r'.modifiers.map Modifier.marked ≠ r.modifiers.map Modifier.marked := by
  have hloop {s : Text} {body : MakeText}
      (hbody : Reads (readBody (readWithin 63) '\x7d') 0 s
        ([.literal ['X']], [.colon (.forEach ['v'] body false)]) ['\x7d']) :
      (read ('$' :: '\x7b' :: (s ++ ['\x7d']))).outcome = .ok (some ⟨.braces, [.literal ['X']],
        [.colon (.forEach ['v'] body false)], '$' :: '\x7b' :: (s ++ ['\x7d'])⟩) := by
    have hread := ((reads_cons '$').mpr (reads_readWithin.mpr (.inl
      ⟨63, .braces, _, _, s, _, _, rfl, .braces, rfl, rfl, hbody⟩))).outcome
    rwa [List.append_nil] at hread
  have hdollar := @hloop ['X', ':', '@', 'v', '@', 'a', '$'] [.literal ['a', '$']]
    ⟨by decide +kernel, by with_unfolding_all rfl⟩
  have hname := @hloop ['X', ':', '@', 'v', '@', 'a', '$', '@']
    [.literal ['a'], .reference (bareOf '@')] ⟨by decide +kernel, by with_unfolding_all rfl⟩
  exact ⟨_, hdollar, rfl, rfl, _, hname, by simp [modifiers, Link.modifier?, Modifier.marked]⟩

end Reference

end RecipeLint

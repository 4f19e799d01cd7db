import RecipeLint.Proofs.Reading.Balance
import RecipeLint.Proofs.Reading.Chain

/-!
# References read again

What is read as a reference is read so again wherever it stands, and wherever more references may be
nested: nothing that is read depends on what follows the closing delimiter, nor on how deep it is.
-/

namespace RecipeLint

open Reading

inductive Delimiter.Writes : Delimiter → (opening close : Char) → Prop
  | braces : Writes .braces '\x7b' '\x7d'
  | parentheses : Writes .parentheses '(' ')'

theorem Delimiter.Writes.opens {delimiter : Delimiter} {opening close : Char}
    (h : delimiter.Writes opening close) : Opens opening close := by
  cases h
  · exact .braces
  · exact .parentheses

namespace Reference

/-! ## Names and chains -/

section

variable {nested : Reader (Option Reference)} {opening close : Char} {s t : Text} {name : MakeText}
  {chain : List Link}

theorem reads_readBody (hfits : FitsDollar nested) (hopens : Opens opening close) :
    Reads (readBody nested close) 0 s (name, chain) (close :: t) ↔
      s = MakeText.source name ++ chain.flatMap Link.source ∧
        Reads (Modifier.argument nested close false) 0 (MakeText.source name) name
          (chain.flatMap Link.source ++ close :: t) ∧
        Link.AllStand nested close (MakeText.source name) false (close :: t) chain := by
  have hsource {s₁ s₂ : Text} {name' : MakeText}
      (h : Reads (Modifier.argument nested close false) 0 s₁ name' (s₂ ++ close :: t)) :
      MakeText.source name' = s₁ := by
    obtain ⟨c, rest, hrest⟩ : ∃ c rest, s₂ ++ close :: t = c :: rest := by cases s₂ <;> simp
    rw [hrest] at h
    exact source_of_makeText hfits h
  refine Iff.trans reads_followedBy ?_
  constructor
  · rintro ⟨s₁, s₂, name', rfl, hname, hrest⟩
    obtain ⟨chain', hchain, hpair⟩ := reads_map.mp hrest
    obtain ⟨rfl, rfl⟩ := Prod.mk.inj hpair
    obtain rfl := hsource hname
    obtain ⟨rfl, hstand⟩ := (reads_readChain hfits hopens).mp hchain
    exact ⟨rfl, hname, hstand⟩
  · rintro ⟨rfl, hname, hstand⟩
    exact ⟨_, _, name, rfl, hname,
      reads_map.mpr ⟨chain, (reads_readChain hfits hopens).mpr ⟨rfl, hstand⟩, rfl⟩⟩

/-- The first link of a chain needs its colon. -/
theorem head_of_allStand {n : Text} (h : Link.AllStand nested close n false (close :: t) chain) :
    ∃ b rest, chain.flatMap Link.source ++ close :: t = b :: rest ∧ (b = ':' ∨ b = close) := by
  cases chain with
  | nil => exact ⟨close, t, rfl, .inr rfl⟩
  | cons link chain =>
    cases link with
    | empty => exact ⟨':', _, rfl, .inl rfl⟩
    | colon m => exact ⟨':', _, rfl, .inl rfl⟩
    | joined m => exact absurd h.1.1 Bool.false_ne_true

theorem readDelimited_close (delimiter : Delimiter) (opening : Char) {text rest : Text}
    (hok : (readBody nested close text).outcome = .ok (name, chain))
    (hdrop : text.drop (readBody nested close text).taken = close :: rest) :
    (readDelimited nested close delimiter ('$' :: opening :: text)).taken =
        2 + ((readBody nested close text).taken + 1) ∧
      (readDelimited nested close delimiter ('$' :: opening :: text)).outcome =
        .ok ⟨delimiter, name, chain,
          '$' :: opening :: text.take ((readBody nested close text).taken + 1)⟩ := by
  have hvalue : ((readBody nested close text).after ['$', opening]).outcome = .ok (name, chain) :=
    outcome_after_eq_ok_iff.mpr hok
  have htwo (n : Nat) : 2 + n + 1 = n + 1 + 1 + 1 := by omega
  simp only [readDelimited, endDelimited, List.take_succ_cons, List.take_zero, List.drop_succ_cons,
    List.drop_zero, hvalue, taken_after, List.length_cons, List.length_nil, Nat.zero_add,
    Nat.reduceAdd, drop_opening, hdrop, if_true, htwo]
  exact ⟨by omega, trivial⟩

theorem body_of_readDelimited {delimiter : Delimiter} {text : Text} {r : Reference}
    (h : (readDelimited nested close delimiter ('$' :: opening :: text)).outcome = .ok r) :
    ∃ name chain rest, (readBody nested close text).outcome = .ok (name, chain) ∧
      text.drop (readBody nested close text).taken = close :: rest := by
  cases hok : (readBody nested close text).outcome with
  | error failure => simp [outcome_readDelimited_of_error hok] at h
  | ok value =>
    obtain ⟨name, chain⟩ := value
    have hvalue : ((readBody nested close text).after ['$', opening]).outcome =
        .ok (name, chain) := outcome_after_eq_ok_iff.mpr hok
    simp only [readDelimited, endDelimited, List.take_succ_cons, List.take_zero,
      List.drop_succ_cons, List.drop_zero, hvalue, taken_after, List.length_cons, List.length_nil,
      Nat.zero_add, Nat.reduceAdd, drop_opening] at h
    cases hrest : text.drop (readBody nested close text).taken with
    | nil => simp [hrest] at h
    | cons c rest =>
      by_cases hc : c = close
      · exact ⟨name, chain, rest, rfl, by rw [hc]⟩
      · simp [hrest, hc] at h

theorem reads_readDelimited {delimiter : Delimiter} {r : Reference} :
    Reads (fun rest => readDelimited nested close delimiter ('$' :: opening :: rest)) 2 s r t ↔
      ∃ s' name chain, s = s' ++ [close] ∧ r = ⟨delimiter, name, chain, '$' :: opening :: s⟩ ∧
        Reads (readBody nested close) 0 s' (name, chain) (close :: t) := by
  constructor
  · rintro ⟨htaken, houtcome⟩
    obtain ⟨name, chain, rest, hok, hdrop⟩ := body_of_readDelimited houtcome
    obtain ⟨htaken', houtcome'⟩ := readDelimited_close delimiter opening hok hdrop
    have hlength : s.length = (readBody nested close (s ++ t)).taken + 1 := by
      have h := htaken.symm.trans htaken'
      omega
    generalize hn : (readBody nested close (s ++ t)).taken = n at hlength hdrop houtcome'
    have hlast : s.drop n = [close] ∧ t = rest := by
      rw [List.drop_append_of_le_length (by omega)] at hdrop
      exact List.append_inj hdrop (by rw [List.length_drop, List.length_singleton]; omega)
    have hs : s = s.take n ++ [close] := by rw [← hlast.1, List.take_append_drop]
    have htext : s.take n ++ close :: t = s ++ t := by
      rw [← List.singleton_append, ← List.append_assoc, ← hs]
    refine ⟨s.take n, name, chain, hs, ?_, ?_, ?_⟩
    · rw [← hlength, List.take_left] at houtcome'
      exact Except.ok.inj (houtcome.symm.trans houtcome')
    · rw [htext, hn, List.length_take]
      omega
    · rw [htext, hok]
  · rintro ⟨s, name, chain, rfl, rfl, htaken, hok⟩
    have htext : s ++ [close] ++ t = s ++ close :: t := by simp
    rw [Nat.zero_add] at htaken
    have hdrop : (s ++ close :: t).drop (readBody nested close (s ++ close :: t)).taken =
        close :: t := by rw [htaken, List.drop_left]
    obtain ⟨htaken', houtcome'⟩ := readDelimited_close delimiter opening hok hdrop
    refine ⟨?_, ?_⟩
    · rw [htext, htaken', htaken, List.length_append, List.length_singleton]
    · rw [htext, houtcome', htaken, ← htext]
      simp [List.take_append]

end

/-! ## References -/

section

variable {levels : Nat} {s t : Text} {r : Reference}

def bareOf (c : Char) : Reference :=
  ⟨.bare, [.literal [c]], [], ['$', c]⟩

theorem readBare_name {c : Char} (hc : isBareName c) (rest : Text) :
    (readBare c rest).taken = 2 ∧ (readBare c rest).outcome = .ok (some (bareOf c)) := by
  unfold readBare
  extract_lets r
  by_cases hidentifier : isIdentifierChar c
  · rw [if_pos hidentifier]
    exact ⟨rfl, rfl⟩
  · have hautomatic : isAutomaticName c := by simpa [isBareName, hidentifier] using hc
    rw [if_neg hidentifier, if_pos hautomatic]
    exact ⟨rfl, rfl⟩

theorem readBare_other {c : Char} (hc : ¬isBareName c) (rest : Text) :
    readBare c rest = lone c := by
  rw [isBareName, Bool.or_eq_true, not_or] at hc
  unfold readBare
  extract_lets r
  rw [if_neg hc.1, if_neg hc.2]
  rfl

theorem reads_readBare {c : Char} :
    Reads (readBare c) 2 s (some r) t ↔ s = [] ∧ isBareName c ∧ r = bareOf c := by
  by_cases hc : isBareName c
  · obtain ⟨htaken, houtcome⟩ := readBare_name hc (s ++ t)
    constructor
    · intro h
      have hlength := h.taken.symm.trans htaken
      refine ⟨List.eq_nil_of_length_eq_zero (by omega), hc, ?_⟩
      simpa using h.outcome.symm.trans houtcome
    · rintro ⟨rfl, -, rfl⟩
      exact ⟨htaken, houtcome⟩
  · refine ⟨fun h => ?_, fun h => absurd h.2.1 hc⟩
    have houtcome := h.outcome
    rw [readBare_other hc] at houtcome
    simp [lone] at houtcome

theorem reads_readWithin_opening {delimiter : Delimiter} {opening close : Char}
    (hwrites : delimiter.Writes opening close) :
    Reads (fun rest => readWithin levels ('$' :: opening :: rest)) 2 s (some r) t ↔
      ∃ inner s' name chain, levels = inner + 1 ∧ s = s' ++ [close] ∧
        r = ⟨delimiter, name, chain, '$' :: opening :: s⟩ ∧
        Reads (readBody (readWithin inner) close) 0 s' (name, chain) (close :: t) := by
  cases levels with
  | zero =>
    refine ⟨fun h => ?_, fun ⟨_, _, _, _, h, _⟩ => by simp at h⟩
    cases hwrites <;> simpa [readWithin, readDollar, skipDelimited] using h.outcome
  | succ levels =>
    have hread : (fun rest => readWithin (levels + 1) ('$' :: opening :: rest)) = fun rest =>
        (readDelimited (readWithin levels) close delimiter ('$' :: opening :: rest)).map some := by
      cases hwrites <;> rfl
    rw [hread]
    refine reads_map.trans ?_
    simp only [Option.some.injEq, exists_eq_right, reads_readDelimited]
    constructor
    · rintro ⟨s', name, chain, hs, hr, hbody⟩
      exact ⟨levels, s', name, chain, rfl, hs, hr, hbody⟩
    · rintro ⟨inner, s', name, chain, hlevels, hs, hr, hbody⟩
      obtain rfl := Nat.succ.inj hlevels
      exact ⟨s', name, chain, hs, hr, hbody⟩

theorem exists_writes {c : Char} (hdollar : c ≠ '$')
    (h : ¬∃ delimiter close, Delimiter.Writes delimiter c close) (rest : Text) :
    readWithin levels ('$' :: c :: rest) = readBare c rest := by
  refine readWithin_bare levels hdollar ?_ ?_ rest
  · rintro rfl
    exact h ⟨_, _, .braces⟩
  · rintro rfl
    exact h ⟨_, _, .parentheses⟩

theorem readWithin_pair (rest : Text) : readWithin levels ('$' :: '$' :: rest) = .done none := by
  cases levels <;> rfl

theorem not_reads_nil : ¬Reads (fun rest => readWithin levels ('$' :: rest)) 1 [] (some r) t := by
  rintro ⟨htaken, houtcome⟩
  rw [List.nil_append] at htaken houtcome
  cases t with
  | nil => cases levels <;> simp [readWithin, readDollar, Reading.done] at houtcome
  | cons c t =>
    by_cases hdollar : c = '$'
    · subst hdollar
      simp [readWithin_pair, Reading.done] at houtcome
    by_cases hwrites : ∃ delimiter close, Delimiter.Writes delimiter c close
    · obtain ⟨delimiter, close, hwrites⟩ := hwrites
      have htwo := two_le_taken_of_opens levels hwrites.opens t
      rw [htaken, List.length_nil] at htwo
      omega
    · rw [exists_writes hdollar hwrites] at htaken houtcome
      by_cases hc : isBareName c
      · rw [(readBare_name hc t).1, List.length_nil] at htaken
        omega
      · simp [readBare_other hc, lone] at houtcome

/-- A reference is a body between delimiters, or one character. -/
theorem reads_readWithin : Reads (fun rest => readWithin levels ('$' :: rest)) 1 s (some r) t ↔
    (∃ inner delimiter opening close s' name chain, levels = inner + 1 ∧
      Delimiter.Writes delimiter opening close ∧ s = opening :: (s' ++ [close]) ∧
      r = ⟨delimiter, name, chain, '$' :: s⟩ ∧
      Reads (readBody (readWithin inner) close) 0 s' (name, chain) (close :: t)) ∨
    ∃ c, s = [c] ∧ isBareName c ∧ r = bareOf c := by
  cases s with
  | nil =>
    refine ⟨fun h => absurd h not_reads_nil, ?_⟩
    rintro (⟨_, _, _, _, _, _, _, -, -, h, -⟩ | ⟨_, h, -⟩) <;> simp at h
  | cons c s =>
    rw [reads_cons]
    by_cases hdollar : c = '$'
    · subst hdollar
      simp only [readWithin_pair]
      refine ⟨fun h => by simpa [Reading.done] using h.outcome, ?_⟩
      rintro (⟨_, _, _, _, _, _, _, -, hwrites, h, -⟩ | ⟨_, h, hname, -⟩)
      · cases hwrites <;> simp at h
      · obtain ⟨rfl, -⟩ := List.cons.inj h
        exact absurd hname (by decide)
    by_cases hwrites : ∃ delimiter close, Delimiter.Writes delimiter c close
    · obtain ⟨delimiter, close, hwrites⟩ := hwrites
      rw [reads_readWithin_opening hwrites]
      constructor
      · rintro ⟨inner, s', name, chain, hlevels, rfl, hr, hbody⟩
        exact .inl ⟨inner, delimiter, c, close, s', name, chain, hlevels, hwrites, rfl, hr, hbody⟩
      · rintro (⟨inner, delimiter', opening, close', s', name, chain, hlevels, hwrites', hs, hr,
          hbody⟩ | ⟨_, h, hname, -⟩)
        · obtain ⟨rfl, rfl⟩ := List.cons.inj hs
          obtain ⟨rfl, rfl⟩ : delimiter' = delimiter ∧ close' = close := by
            cases hwrites <;> cases hwrites' <;> exact ⟨rfl, rfl⟩
          exact ⟨inner, s', name, chain, hlevels, rfl, hr, hbody⟩
        · obtain ⟨rfl, -⟩ := List.cons.inj h
          cases hwrites <;> exact absurd hname (by decide)
    · refine Iff.trans ((reads_congr (readBare c) (exists_writes hdollar hwrites _)).trans
        reads_readBare) ?_
      constructor
      · rintro ⟨rfl, hname, hr⟩
        exact .inr ⟨c, rfl, hname, hr⟩
      · rintro (⟨_, delimiter, opening, close, _, _, _, -, hwrites', h, -⟩ | ⟨_, h, hname, hr⟩)
        · obtain ⟨rfl, -⟩ := List.cons.inj h
          exact absurd ⟨delimiter, close, hwrites'⟩ hwrites
        · obtain ⟨rfl, rfl⟩ := List.cons.inj h
          exact ⟨rfl, hname, hr⟩

theorem text_of_reads (h : Reads (fun rest => readWithin levels ('$' :: rest)) 1 s (some r) t) :
    r.text = '$' :: s := by
  rcases reads_readWithin.mp h with
    ⟨_, _, _, _, _, _, _, -, -, rfl, rfl, -⟩ | ⟨c, rfl, -, rfl⟩
  · rfl
  · rfl

/-- What is read as a reference is the text up to some place. -/
theorem exists_reads_of_outcome {text : Text}
    (h : (readWithin levels text).outcome = .ok (some r)) :
    ∃ s t, text = '$' :: (s ++ t) ∧ (readWithin levels text).taken = s.length + 1 ∧
      Reads (fun rest => readWithin levels ('$' :: rest)) 1 s (some r) t := by
  have hpos := taken_pos_readWithin levels text (by rw [h]; simp)
  have hdollar : ∃ rest, text = '$' :: rest := by
    obtain ⟨delimited, -, heq⟩ := takesOpening_readWithin levels
    rw [heq] at h
    unfold readDollar at h
    split at h
    case h_5 => simp [Reading.done] at h
    all_goals exact ⟨_, rfl⟩
  obtain ⟨rest, rfl⟩ := hdollar
  have hle : (readWithin levels ('$' :: rest)).taken ≤ rest.length + 1 :=
    ((readWithin_fits levels).fits_of_ok h).taken_le
  have hlength : (rest.take ((readWithin levels ('$' :: rest)).taken - 1)).length =
      (readWithin levels ('$' :: rest)).taken - 1 := by
    rw [List.length_take]
    omega
  refine ⟨rest.take ((readWithin levels ('$' :: rest)).taken - 1),
    rest.drop ((readWithin levels ('$' :: rest)).taken - 1), ?_, ?_, ?_, ?_⟩
  · rw [List.take_append_drop]
  · omega
  · rw [List.take_append_drop]
    omega
  · rw [List.take_append_drop, h]

theorem exists_cons_of_outcome {text : Text} (h : (readWithin levels text).outcome = .ok (some r)) :
    ∃ s, r.text = '$' :: s := by
  obtain ⟨s, t, -, -, hread⟩ := exists_reads_of_outcome h
  exact ⟨s, text_of_reads hread⟩

end

/-! ## Depth -/

theorem leavesDollar_iff {c : Char} : leavesDollar c ↔
    c ≠ '$' ∧ (¬∃ delimiter close, Delimiter.Writes delimiter c close) ∧ ¬isBareName c := by
  have hwrites :
      (∃ delimiter close, Delimiter.Writes delimiter c close) ↔ c = '\x7b' ∨ c = '(' := by
    constructor
    · rintro ⟨delimiter, close, hwrites⟩
      cases hwrites
      · exact .inl rfl
      · exact .inr rfl
    · rintro (rfl | rfl)
      · exact ⟨_, _, .braces⟩
      · exact ⟨_, _, .parentheses⟩
  rw [hwrites]
  simp [leavesDollar]
  tauto

/-- A dollar sign starts nothing in front of the characters that are none of a reference. -/
theorem startsNothing_iff {levels : Nat} {c : Char} (hc : c ≠ '$') (rest : Text) :
    StartsNothing (readWithin levels) (c :: rest) ↔ leavesDollar c := by
  rw [leavesDollar_iff]
  constructor
  · intro h
    refine ⟨hc, fun ⟨delimiter, close, hwrites⟩ => ?_, fun hname => ?_⟩
    · have htwo := two_le_taken_of_opens levels hwrites.opens rest
      rcases h with hnone | ⟨d, span, hlone⟩
      · rw [(readWithin_fits levels).taken_of_none hnone] at htwo
        omega
      · rw [(readWithin_fits levels).taken_of_lone hlone] at htwo
        omega
    · have hwrites : ¬∃ delimiter close, Delimiter.Writes delimiter c close := by
        rintro ⟨delimiter, close, hwrites⟩
        cases hwrites <;> exact absurd hname (by decide)
      have houtcome := (readBare_name hname rest).2
      rw [← exists_writes hc hwrites] at houtcome
      rcases h with hnone | ⟨d, span, hlone⟩
      · simpa using houtcome.symm.trans hnone
      · simpa using houtcome.symm.trans hlone
  · rintro ⟨-, hwrites, hname⟩
    exact .inr ⟨c, .ofSize 1, by rw [exists_writes hc hwrites, readBare_other hname]; rfl⟩

section

variable {nested nested' : Reader (Option Reference)} (hextends : Extends nested nested')
  {opening opening' close close' : Char} (hopens : Opens opening close)
  (hopens' : Opens opening' close') {s t : Text} {name : MakeText} {chain : List Link}
  (h : Reads (readBody nested close) 0 s (name, chain) (close :: t))
  (hname : close' = close ∨ MakeText.shows false close' name = false)

include hextends hopens hopens' h hname

theorem readBody_of_allStand {chain' : List Link} {t' : Text}
    (hstand' : Link.AllStand nested' close' (MakeText.source name) false (close' :: t') chain') :
    Reads (readBody nested' close') 0 (MakeText.source name ++ chain'.flatMap Link.source)
      (name, chain') (close' :: t') := by
  obtain ⟨-, hread, hstand⟩ := (reads_readBody hextends.fits hopens).mp h
  obtain ⟨b, rest, hb, -⟩ := head_of_allStand hstand
  obtain ⟨b', rest', hb', hstop⟩ := head_of_allStand hstand'
  refine (reads_readBody hextends.fits' hopens').mpr ⟨rfl, ?_, hstand'⟩
  rw [hb] at hread
  rw [hb']
  exact Modifier.argument_again hextends hopens' hread hstop hname rest'

/-- The body of a reference is read again, where neither the name nor a modifier has the new
delimiter in it. -/
theorem readBody_again
    (hclear : ∀ link ∈ chain, ∀ m, link.modifier? = some m → m.Clear nested' close close')
    (t' : Text) :
    Reads (readBody nested' close') 0 s (name, chain) (close' :: t') := by
  obtain ⟨rfl, -, hstand⟩ := (reads_readBody hextends.fits hopens).mp h
  exact readBody_of_allStand hextends hopens hopens' h hname
    (hstand.again hextends hopens hopens' hopens.isEnd hclear (.inl rfl))

end

/-- Where more references may be nested, all are read that were. -/
theorem extends_readWithin {levels levels' : Nat} (hle : levels ≤ levels') :
    Extends (readWithin levels) (readWithin levels') := by
  induction levels using Nat.strong_induction_on generalizing levels' with
  | h levels ih =>
    refine ⟨readWithin_fits _, readWithin_fits _, fun h t' => ?_,
      fun hc h => (startsNothing_iff hc _).mp h,
      fun rest h => (startsNothing_iff (ne_dollar_of_leavesDollar h) rest).mpr h,
      .inl (by cases levels' <;> rfl)⟩
    rcases reads_readWithin.mp h with
      ⟨inner, delimiter, opening, close, s', name, chain, rfl, hwrites, hs, hr, hbody⟩ | hbare
    · obtain ⟨inner', rfl⟩ := Nat.exists_eq_add_one_of_ne_zero (show levels' ≠ 0 by omega)
      have hextends := ih inner (Nat.lt_succ_self inner) (Nat.le_of_succ_le_succ hle)
      exact reads_readWithin.mpr (.inl ⟨inner', delimiter, opening, close, s', name, chain, rfl,
        hwrites, hs, hr, readBody_again hextends hwrites.opens hwrites.opens hbody (.inl rfl)
          (fun _ _ _ _ => .inl rfl) t'⟩)
    · exact reads_readWithin.mpr (.inr hbare)

end Reference

end RecipeLint

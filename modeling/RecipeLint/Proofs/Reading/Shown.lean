import RecipeLint.Proofs.Reading.Members

/-!
# Characters that stand for themselves

A character stands in a reference for itself where it is in no reference inside and no backslash
hides it.  Nothing that is read between delimiters shows the closing one, as that would have ended
it.
-/

namespace RecipeLint

open Reading

theorem Text.contains_of_shows {pairs : Bool} {c : Char} {text : Text} (h : shows pairs c text) :
    text.contains c := by
  fun_induction shows pairs c text with
  | case1 => exact absurd h Bool.false_ne_true
  | case2 d rest hidden plain =>
    rw [Bool.or_eq_true, beq_iff_eq] at h
    rcases h with rfl | h
    · simp
    · split at h
      · simp [List.contains_iff_mem.mp (hidden h)]
      · exact List.contains_iff_mem.mpr (.tail _ (List.contains_iff_mem.mp (plain h)))
  | case3 d rest _ ih =>
    rw [Bool.or_eq_true, beq_iff_eq] at h
    rcases h with rfl | h
    · simp
    · simp [List.contains_iff_mem.mp (ih h)]

namespace MakeText

theorem hasLiteral_of_shows {pairs : Bool} {c : Char} {v : MakeText} (h : shows pairs c v) :
    hasLiteral c v := by
  obtain ⟨part, hpart, hshows⟩ := List.any_eq_true.mp h
  refine List.any_eq_true.mpr ⟨part, hpart, ?_⟩
  cases part with
  | literal chars => exact Text.contains_of_shows hshows
  | reference r => exact hshows

theorem not_shows_of_not_hasLiteral {pairs : Bool} {c : Char} {v : MakeText}
    (h : hasLiteral c v = false) : shows pairs c v = false := by
  by_contra hshows
  rw [Bool.not_eq_false] at hshows
  simp [hasLiteral_of_shows hshows] at h

theorem hasLiteral_cut? {c d : Char} {text before behind : MakeText}
    (h : cut? c text = some (before, behind)) (hd : hasLiteral d text = false) :
    hasLiteral d before = false ∧ hasLiteral d behind = false := by
  fun_induction cut? c text generalizing before with
  | case1 => simp at h
  | case2 chars parts hmem =>
    have hchars := Text.takeWhile_ne_append (List.contains_iff_mem.mp hmem)
    obtain ⟨rfl, rfl⟩ := Prod.mk.inj (Option.some.inj h)
    rw [hasLiteral, List.any_cons, Bool.or_eq_false_iff, ← hchars] at hd
    obtain ⟨hhead, htail⟩ := hd
    simp only [List.contains_eq_mem, decide_eq_false_iff_not, List.mem_append, List.mem_cons,
      not_or] at hhead
    refine ⟨?_, ?_⟩ <;> rw [hasLiteral_consLiteral, Bool.or_eq_false_iff]
    · exact ⟨by simpa using hhead.1, rfl⟩
    · exact ⟨by simpa using hhead.2.2, htail⟩
  | case3 chars parts hmem ih =>
    obtain ⟨⟨b, a⟩, hcut, heq⟩ := Option.map_eq_some_iff.mp h
    obtain ⟨rfl, rfl⟩ := Prod.mk.inj heq
    rw [hasLiteral, List.any_cons, Bool.or_eq_false_iff] at hd ⊢
    obtain ⟨hb, ha⟩ := ih hcut hd.2
    exact ⟨⟨hd.1, hb⟩, ha⟩
  | case4 part parts hpart ih =>
    obtain ⟨⟨b, a⟩, hcut, heq⟩ := Option.map_eq_some_iff.mp h
    obtain ⟨rfl, rfl⟩ := Prod.mk.inj heq
    rw [hasLiteral, List.any_cons, Bool.or_eq_false_iff] at hd ⊢
    obtain ⟨hb, ha⟩ := ih hcut hd.2
    exact ⟨⟨hd.1, hb⟩, ha⟩

end MakeText

section

variable {nested : Reader (Option Reference)} {stop : Char → Bool} {pairs : Bool} {s t : Text}
  {v : MakeText} {b c : Char}

/-- What ends make text does not stand in it for itself. -/
theorem Pieces.not_shows (h : Pieces nested stop pairs b t s v) (hc : stop c) (hdollar : c ≠ '$') :
    MakeText.shows pairs c v = false := by
  have hne {d : Char} (hd : ¬stop d) : c ≠ d := by
    rintro rfl
    exact hd hc
  induction h with
  | stop => rfl
  | pair h ih =>
    rw [MakeText.shows_consLiteral (by simp [Text.shows]), ih]
    simp [Text.shows, hdollar]
  | reference hpair hread h ih => rw [MakeText.shows_reference, ih]
  | lone hpair hnothing h ih =>
    rw [MakeText.shows_consLiteral (by simp [Text.shows]), ih]
    simp [Text.shows, hdollar]
  | escaped hstop hpairs h ih =>
    rw [MakeText.shows_consLiteral (by simp [Text.shows, hpairs]), ih]
    simp [Text.shows, hpairs, hne hstop]
  | plain hd hbackslash hstop h ih =>
    rw [MakeText.shows_consLiteral (by simp [Text.shows_cons hbackslash, Text.shows]), ih]
    simp [Text.shows_cons hbackslash, Text.shows, hne hstop]

theorem not_shows_of_makeText (hfits : FitsDollar nested)
    (h : Reads (makeText nested stop pairs) 0 s v (b :: t)) (hc : stop c) (hdollar : c ≠ '$') :
    MakeText.shows pairs c v = false :=
  (pieces_of_reads hfits h).not_shows hc hdollar

end

namespace Modifier

theorem not_shows_of_not_hasLiteral {nested : Reader (Option Reference)} (hfits : FitsDollar nested)
    {c : Char} {m : Modifier} (h : hasLiteral c m = false) : m.shows nested c = false := by
  obtain ⟨harguments, hown⟩ := Bool.or_eq_false_iff.mp h
  refine Bool.or_eq_false_iff.mpr ⟨?_, ?_⟩
  · rw [List.any_eq_false] at harguments ⊢
    intro v hv
    have hnone := harguments v hv
    rw [Bool.not_eq_true] at hnone
    simp [MakeText.not_shows_of_not_hasLiteral hnone]
  · cases m with
    | substitute => exact hown
    | separator text =>
      by_contra hliteral
      rw [Bool.not_eq_false] at hliteral
      have hmem := MakeText.mem_source_of_hasLiteral hliteral
      unfold MakeText.ofText at hmem
      split at hmem
      case h_1 v hv =>
        have hvalue := (makeText_fits hfits (fun _ => false) false text).value v hv
        rw [hvalue] at hmem
        have hcontains := List.mem_of_mem_take hmem
        simp [hcontains] at hown
      case h_2 => simp at hmem
    | _ => rfl

variable {nested nested' : Reader (Option Reference)} (hextends : Extends nested nested')
  {opening close b : Char} (hopens : Opens opening close) {name s t : Text} {m : Modifier}

include hextends hopens

theorem not_shows_of_argument {pairs : Bool} {v : MakeText}
    (h : Reads (argument nested close pairs) 0 s v (b :: t)) :
    MakeText.shows pairs close v = false :=
  not_shows_of_makeText hextends.fits h (by simp) (ne_of_isEnd hopens.isEnd (by decide))

theorem not_shows_of_marked {mark : Char} {pairs : Bool} {v : MakeText}
    (h : Reads (makeText nested (fun c => c == mark || c == close) pairs) 0 s v (b :: t)) :
    MakeText.shows pairs close v = false :=
  not_shows_of_makeText hextends.fits h (by simp) (ne_of_isEnd hopens.isEnd (by decide))

omit hextends hopens in
theorem not_shows_of_general {v : MakeText} (hv : MakeText.shows false close v = false)
    (h : general name v = .ok (some m)) : m.shows nested' close = false := by
  obtain ⟨old, new, hcut, rfl⟩ := general_eq_some_iff.mp h
  rw [MakeText.shows_false] at hv
  obtain ⟨hold, hnew⟩ := MakeText.hasLiteral_cut? hcut hv
  simp [shows, arguments, MakeText.not_shows_of_not_hasLiteral hold,
    MakeText.not_shows_of_not_hasLiteral hnew]

theorem not_shows_of_readGeneral (h : Reads (readGeneral nested close name) 0 s (some m) (b :: t)) :
    m.shows nested' close = false := by
  obtain ⟨v, hv, hm⟩ := reads_readGeneral.mp h
  exact not_shows_of_general (not_shows_of_argument hextends hopens hv) hm

theorem not_shows_of_separatorForm
    (h : Reads (separatorForm nested close name) 1 s (some m) (b :: t)) :
    m.shows nested' close = false := by
  by_cases hs : ∃ s', s = 's' :: s'
  · obtain ⟨s, rfl⟩ := hs
    obtain ⟨rfl, ⟨-, v, hv⟩ | rfl⟩ :=
      (reads_readSeparator hextends.fits).mp ((reads_separatorForm s).mp h)
    · have htext : MakeText.ofText nested' s = v :=
        (pieces_of_reads hextends.fits hv).ofText hextends
      simp [shows, arguments, htext, ← MakeText.shows_false,
        not_shows_of_argument hextends hopens hv]
    · have hpieces : Pieces nested (· == '=') false '=' [] [':'] [.literal [':']] :=
        .plain (by decide) (by simp) (by decide) (.stop (by decide) rfl)
      simp [shows, arguments, hpieces.ofText hextends, MakeText.hasLiteral, hopens.ne_colon]
  · rw [not_exists] at hs
    exact not_shows_of_readGeneral hextends hopens ((reads_separatorForm_of_ne hs).mp h).2

theorem not_shows_of_readChoice (h : Reads (readChoice nested close name) 1 s (some m) (b :: t)) :
    m.shows nested' close = false := by
  rcases reads_readChoice.mp h with ⟨s₁, s₂, yes, no, rfl, rfl, hyes, hno⟩ | ⟨v, hb, hv, hm⟩
  · simp [shows, arguments, hidesPairs, not_shows_of_argument hextends hopens hyes,
      not_shows_of_argument hextends hopens hno]
  · refine not_shows_of_general ?_ hm
    rw [MakeText.shows_consLiteral (by simp), not_shows_of_argument hextends hopens hv]
    simp [ne_of_isEnd hopens.isEnd (c := '?') (by decide)]

theorem not_shows_of_readCommand (h : Reads (readCommand nested close name) 1 s (some m) (b :: t)) :
    m.shows nested' close = false := by
  obtain ⟨v, ⟨s, rfl, rfl, hv⟩ | ⟨hb, hv, hcolon, hm⟩⟩ := reads_readCommand.mp h
  · simp [shows, arguments, hidesPairs, not_shows_of_marked hextends hopens hv]
  · refine not_shows_of_general ?_ hm
    rw [MakeText.shows_consLiteral (by simp), not_shows_of_marked hextends hopens hv]
    simp [ne_of_isEnd hopens.isEnd (c := '!') (by decide)]

theorem not_shows_of_indexForm (h : Reads (indexForm nested close name) 1 s (some m) (b :: t)) :
    m.shows nested' close = false := by
  rcases reads_indexForm.mp h with ⟨range, hrange, rfl, rfl⟩ | ⟨hrange, hgeneral⟩
  · rfl
  · exact not_shows_of_readGeneral hextends hopens hgeneral

theorem not_shows_of_loopForm (h : Reads (loopForm nested close name) 1 s (some m) (b :: t)) :
    m.shows nested' close = false := by
  rcases reads_loopForm.mp h with ⟨loopVariable, s, hloop, rfl, hread⟩ | ⟨hloop, hgeneral⟩
  · obtain ⟨v, ⟨s, rfl, rfl, hv⟩ | ⟨hb, rfl, hv⟩⟩ := reads_readLoop.mp hread
    all_goals simp [shows, arguments, hidesPairs, not_shows_of_marked hextends hopens hv]
  · exact not_shows_of_readGeneral hextends hopens hgeneral

theorem not_shows_of_assignForm (h : Reads (assignForm nested close) 1 s (some m) (b :: t)) :
    m.shows nested' close = false := by
  obtain ⟨op, s', v, hop, hs, rfl, hv⟩ := reads_assignForm.mp h
  simp [shows, arguments, hidesPairs, not_shows_of_argument hextends hopens hv]

theorem not_shows_of_substitutionForm (letter : Char)
    (h : Reads (substitutionForm nested close name letter) 1 s (some m) (b :: t)) :
    m.shows nested' close = false := by
  obtain ⟨bound, rest, hrest, hform⟩ := (reads_substitutionForm letter).mp h
  split at hform
  case isTrue => exact not_shows_of_readGeneral hextends hopens hform
  case isFalse hbound =>
    obtain ⟨s, rfl, hread⟩ := hform
    obtain ⟨s₁, s₂, flags, old, new, -, rfl, -, -, hold, hnew⟩ := reads_readSubstitution.mp hread
    have hold : MakeText.shows true close old = false := by
      rcases reads_readOld.mp hold with ⟨s', v', -, rfl, hv⟩ | ⟨-, hv⟩
      · rw [MakeText.shows_consLiteral (by simp [Text.shows]),
          not_shows_of_marked hextends hopens hv]
        simp [Text.shows, ne_of_isEnd hopens.isEnd (c := '^') (by decide)]
      · exact not_shows_of_marked hextends hopens hv
    simp [shows, arguments, hidesPairs, hold, not_shows_of_marked hextends hopens hnew,
      (not_or.mp hbound).1]

theorem not_shows_of_argumentForm (letter : Char) (build : MakeText → Modifier)
    (hbuild : ∀ v, MakeText.shows true close v = false → (build v).shows nested' close = false)
    (h : Reads
      (fun rest => ((argument nested close true rest).map (some <| build ·)).after [letter])
      1 s (some m) (b :: t)) : m.shows nested' close = false := by
  obtain ⟨v, hv, rfl⟩ := (reads_argumentForm letter build).mp h
  exact hbuild v (not_shows_of_argument hextends hopens hv)

theorem not_shows_of_readForm (first : Char)
    (h : Reads (readForm nested close name first) 1 s (some m) (b :: t)) :
    m.shows nested' close = false := by
  revert h
  unfold readForm
  split
  case h_1 | h_2 | h_3 | h_4 | h_5 =>
    exact not_shows_of_argumentForm hextends hopens _ _ fun v hv => by
      simp [shows, arguments, hidesPairs, hv]
  case h_6 => exact not_shows_of_separatorForm hextends hopens
  case h_7 => exact not_shows_of_readChoice hextends hopens
  case h_8 => exact not_shows_of_readCommand hextends hopens
  case h_9 => exact not_shows_of_indexForm hextends hopens
  case h_10 => exact not_shows_of_loopForm hextends hopens
  case h_11 => exact not_shows_of_assignForm hextends hopens
  case h_12 | h_13 => exact not_shows_of_substitutionForm hextends hopens _
  case h_14 => exact fun h => not_shows_of_readGeneral hextends hopens ((reads_cons first).mpr h)

/-- The closing delimiter does not stand for itself in a modifier that was read in front of it. -/
theorem not_shows_of_read (h : Reads (read nested close name) 0 s (some m) (b :: t)) :
    m.shows nested' close = false := by
  have hsource : m.source = s := source_of_read hextends.fits h
  cases s with
  | nil => exact absurd hsource (source_ne_nil m)
  | cons c s =>
    rcases (reads_read rfl).mp h with ⟨hword, -⟩ | ⟨-, hform⟩
    · obtain rfl | ⟨op, rfl⟩ := word_of_ofWord? hword
      all_goals rfl
    · exact not_shows_of_readForm hextends hopens c hform

end Modifier

end RecipeLint

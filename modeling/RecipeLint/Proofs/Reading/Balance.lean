import RecipeLint.Proofs.Reading.Pace

/-!
# Where references end

In a text without backslashes, a reference in delimiters ends where the scan for its closing
delimiter ends, however it is formed, so that what follows is read as if nothing had happened.  The
one exception is a reference that fails at a substitution with a dollar sign for its separator.
From there on the reader goes on as the scan would behind the dollar sign.
-/

namespace RecipeLint.Reference

open Reading

/-- The reference at the start of the text is given up at a substitution that misreads the dollar
sign for its separator, in the reference itself or in one inside it. Up to the dollar sign and with
it there are `count` characters, and references are open that end with the delimiters `stack`. -/
inductive GivesUp : (levels : Nat) → Text → (count : Nat) → (stack : List Char) → Prop
  | here {levels taken : Nat} {opening close : Char} {front behind : Text}
      {failure : Located ReferenceFailure} (hopens : Opens opening close)
      (hmisreads : Modifier.Misreads (readWithin levels) close behind taken failure)
      (hfails : (readBody (readWithin levels) close (front ++ behind)).FailsBehind front taken
        failure) :
      GivesUp (levels + 1) ('$' :: opening :: (front ++ behind)) (2 + front.length + 2) [close]
  | inside {levels taken count : Nat} {opening close : Char} {front behind : Text}
      {stack : List Char} {failure : Located ReferenceFailure} (hopens : Opens opening close)
      (hinner : (readWithin levels behind).FailsBehind [] taken failure)
      (hgives : GivesUp levels behind count stack)
      (hfails : (readBody (readWithin levels) close (front ++ behind)).FailsBehind front taken
        failure) :
      GivesUp (levels + 1) ('$' :: opening :: (front ++ behind)) (2 + front.length + count)
        (stack ++ [close])

theorem taken_endDelimited {close : Char} (hclose : close ≠ '$') (delimiter : Delimiter)
    (text : Text) (body : Reading (MakeText × List Link)) :
    (endDelimited close delimiter text body).taken =
      body.taken + closeLength [close] (text.drop body.taken) := by
  cases hok : body.outcome with
  | error failure => simp only [endDelimited, hok]
  | ok value =>
    cases hrest : text.drop body.taken with
    | nil => simp only [endDelimited, hok, hrest, closeLength_nil, Nat.add_zero]
    | cons c behind =>
      by_cases hc : c = close
      · simp only [endDelimited, hok, hrest, hc, if_true, closeLength_close hclose,
          closeLength_empty, Nat.zero_add]
      · simp only [endDelimited, hok, hrest, if_neg hc]

theorem exists_readWithin_succ (levels : Nat) {opening close : Char} (h : Opens opening close)
    (rest : Text) : ∃ delimiter, readWithin (levels + 1) ('$' :: opening :: rest) =
      (readDelimited (readWithin levels) close delimiter ('$' :: opening :: rest)).map some := by
  cases h
  · exact ⟨.braces, rfl⟩
  · exact ⟨.parentheses, rfl⟩

theorem drop_opening (opening : Char) (rest : Text) (count : Nat) :
    ('$' :: opening :: rest).drop (2 + count) = rest.drop count := by
  rw [Nat.add_comm, List.drop_succ_cons, List.drop_succ_cons]

theorem drop_behind_opening (opening : Char) (front behind : Text) (count : Nat) :
    ('$' :: opening :: (front ++ behind)).drop (2 + front.length + count) = behind.drop count := by
  rw [Nat.add_assoc, drop_opening, List.drop_length_add_append]

theorem taken_readDelimited {close : Char} (hclose : close ≠ '$')
    (nested : Reader (Option Reference)) (delimiter : Delimiter) (opening : Char) (rest : Text) :
    (readDelimited nested close delimiter ('$' :: opening :: rest)).taken =
      2 + (readBody nested close rest).taken +
        closeLength [close] (rest.drop (readBody nested close rest).taken) := by
  rw [readDelimited, taken_endDelimited hclose, taken_after]
  exact congrArg (2 + _ + closeLength [close] ·) (drop_opening opening rest _)

theorem outcome_readDelimited_of_error {nested : Reader (Option Reference)} {close opening : Char}
    {rest : Text} {e : Located ReferenceFailure}
    (he : (readBody nested close rest).outcome = .error e) (delimiter : Delimiter) :
    (readDelimited nested close delimiter ('$' :: opening :: rest)).outcome =
      .error (e.shift (Text.byteSize ['$', opening])) := by
  simp [readDelimited, endDelimited, outcome_after_eq_error_iff.mpr ⟨e, he, rfl⟩]

/-- A failure of the name or a modifier is the failure of the reference, which is taken up to its
closing delimiter. -/
theorem readWithin_of_failsBehind {levels taken : Nat} {opening close : Char} {front behind : Text}
    {failure : Located ReferenceFailure} (hopens : Opens opening close)
    (hfails : (readBody (readWithin levels) close (front ++ behind)).FailsBehind front taken
      failure) :
    (readWithin (levels + 1) ('$' :: opening :: (front ++ behind))).taken =
        2 + (front.length + taken) + closeLength [close] (behind.drop taken) ∧
      (readWithin (levels + 1) ('$' :: opening :: (front ++ behind))).outcome =
        .error ((failure.shift (Text.byteSize front)).shift (Text.byteSize ['$', opening])) := by
  have hclose : close ≠ '$' := by cases hopens <;> decide
  obtain ⟨delimiter, hread⟩ := exists_readWithin_succ levels hopens (front ++ behind)
  refine ⟨?_, ?_⟩
  · rw [hread, taken_map, taken_readDelimited hclose, hfails.1, List.drop_length_add_append]
  · rw [hread, Reading.map, outcome_readDelimited_of_error hfails.2]
    rfl

namespace GivesUp

variable {levels count : Nat} {text : Text} {stack : List Char}

theorem outcome_eq (h : GivesUp levels text count stack) :
    ∃ failure, (readWithin levels text).outcome = .error failure := by
  cases h with
  | here hopens hmisreads hfails => exact ⟨_, (readWithin_of_failsBehind hopens hfails).2⟩
  | inside hopens hinner hgives hfails => exact ⟨_, (readWithin_of_failsBehind hopens hfails).2⟩

/-- A reference that is given up ends where the scan ends that starts behind the dollar sign. -/
theorem taken_eq (h : GivesUp levels text count stack) :
    (readWithin levels text).taken = count + closeLength stack (text.drop count) := by
  induction h with
  | here hopens hmisreads hfails =>
    rw [(readWithin_of_failsBehind hopens hfails).1, drop_behind_opening]
    cases hmisreads with
    | dollar hletter hc htaken houtcome hpasses =>
      have hscan := hpasses []
      simp only [Nat.add_comm 2, List.drop_succ_cons, List.drop_zero] at hscan ⊢
      omega
  | inside hopens hinner hgives hfails ih =>
    have hcount := hinner.1.symm.trans ih
    rw [List.length_nil, Nat.zero_add] at hcount
    rw [(readWithin_of_failsBehind hopens hfails).1, drop_behind_opening, closeLength_append,
      List.drop_drop, ← hcount]
    omega

end GivesUp

/-- The reasons to lose pace where `levels` more delimiters may be opened. -/
def Loses (levels : Nat) (close : Char) (text : Text) (taken : Nat)
    (failure : Located ReferenceFailure) : Prop :=
  Modifier.Misreads (readWithin levels) close text taken failure ∨
    (readWithin levels text).FailsBehind [] taken failure ∧
      ∃ count stack, GivesUp levels text count stack

def EndsOrGivesUp (levels : Nat) : Prop :=
  ∀ {opening close : Char} {rest : Text}, Opens opening close → '\\' ∉ rest →
    (readWithin levels ('$' :: opening :: rest)).taken = 2 + closeLength [close] rest ∨
      ∃ count stack, GivesUp levels ('$' :: opening :: rest) count stack

theorem readBare_taken (c : Char) (rest : Text) :
    (readBare c rest).taken = 1 ∨
      (readBare c rest).taken = 2 ∧ (isIdentifierChar c ∨ isAutomaticName c) := by
  unfold readBare
  extract_lets r
  by_cases hidentifier : isIdentifierChar c
  · rw [if_pos hidentifier]
    exact .inr ⟨rfl, .inl hidentifier⟩
  · by_cases hautomatic : isAutomaticName c
    · rw [if_neg hidentifier, if_pos hautomatic]
      exact .inr ⟨rfl, .inr hautomatic⟩
    · rw [if_neg hidentifier, if_neg hautomatic]
      exact .inl rfl

theorem readWithin_bare (levels : Nat) {c : Char} (hdollar : c ≠ '$') (hbrace : c ≠ '\x7b')
    (hparenthesis : c ≠ '(') (rest : Text) :
    readWithin levels ('$' :: c :: rest) = readBare c rest := by
  obtain ⟨delimited, -, heq⟩ := takesOpening_readWithin levels
  rw [heq, readDollar_bare delimited hdollar hbrace hparenthesis]

theorem two_le_taken_of_opens (levels : Nat) {opening close : Char} (h : Opens opening close)
    (rest : Text) : 2 ≤ (readWithin levels ('$' :: opening :: rest)).taken := by
  obtain ⟨delimited, hopening, heq⟩ := takesOpening_readWithin levels
  rw [heq]
  cases h
  · exact hopening .braces '\x7d' '\x7b' rest
  · exact hopening .parentheses ')' '(' rest

/-- References keep pace with the scan for the delimiter of the one that they are in. -/
theorem dollarKeepsPace_readWithin {levels : Nat} (hends : EndsOrGivesUp levels)
    {outer close : Char} (houter : Opens outer close) :
    DollarKeepsPace (Loses levels close) close (readWithin levels) := by
  have hclose : '$' ≠ close := by cases houter <;> decide
  intro rest hbackslash hpair
  by_cases hopening : ∃ opening inner behind, Opens opening inner ∧ rest = opening :: behind
  · obtain ⟨opening, inner, behind, hopens, rfl⟩ := hopening
    have htwo := two_le_taken_of_opens levels hopens behind
    refine ⟨?_, fun hone => by omega⟩
    simp only [List.mem_cons, not_or] at hbackslash
    rcases hends hopens hbackslash.2 with htaken | ⟨count, stack, hgives⟩
    · exact .inl (htaken ▸ Passes.delimited hopens behind)
    · obtain ⟨failure, hfailure⟩ := hgives.outcome_eq
      have hfails : (readWithin levels ('$' :: opening :: behind)).FailsBehind []
          (readWithin levels ('$' :: opening :: behind)).taken failure :=
        ⟨(Nat.zero_add _).symm, hfailure⟩
      exact .inr ⟨[], _, _, failure, rfl, .inr ⟨hfails, count, stack, hgives⟩, hfails⟩
  · have hbrace (behind : Text) : rest ≠ '\x7b' :: behind :=
      fun h => hopening ⟨_, _, behind, .braces, h⟩
    have hparenthesis (behind : Text) : rest ≠ '(' :: behind :=
      fun h => hopening ⟨_, _, behind, .parentheses, h⟩
    have hdollar : Passes close ('$' :: rest) 1 := .dollar hclose hpair hbrace hparenthesis
    refine ⟨?_, fun _ => hdollar⟩
    cases rest with
    | nil =>
      have hnone : readWithin levels ['$'] = .done none := by cases levels <;> rfl
      rw [hnone]
      exact .done _
    | cons c behind =>
      have hne (d : Char) (h : ∀ behind', c :: behind ≠ d :: behind') : c ≠ d := by
        rintro rfl
        exact h behind rfl
      have hdollar' := hne _ hpair
      rw [readWithin_bare levels hdollar' (hne _ hbrace) (hne _ hparenthesis)]
      rcases readBare_taken c behind with hone | ⟨htwo, hname⟩
      · exact .inl (hone ▸ hdollar)
      · have hc : c ≠ close := by
          rintro rfl
          cases houter <;> exact absurd hname (by decide)
        exact .inl (htwo ▸ hdollar.trans (Passes.cons hdollar' hc behind))

theorem endsOrGivesUp_succ {levels : Nat} (hends : EndsOrGivesUp levels) :
    EndsOrGivesUp (levels + 1) := by
  intro opening close rest hopens hbackslash
  have hclose : close ≠ '$' := by cases hopens <;> decide
  have hbody := readBody_keepsPace hopens (readWithin_fits levels)
    (dollarKeepsPace_readWithin hends hopens) (fun _ _ _ h => .inl h) hbackslash
  rcases hbody with hpasses | ⟨front, behind, taken, failure, rfl, hlost, hfails⟩
  · left
    obtain ⟨delimiter, hread⟩ := exists_readWithin_succ levels hopens rest
    rw [hread, taken_map, taken_readDelimited hclose, hpasses [], Nat.add_assoc]
  · right
    rcases hlost with hmisreads | ⟨hinner, count, stack, hgives⟩
    · exact ⟨_, _, .here hopens hmisreads hfails⟩
    · exact ⟨_, _, .inside hopens hinner hgives hfails⟩

theorem endsOrGivesUp (levels : Nat) : EndsOrGivesUp levels := by
  induction levels with
  | zero =>
    -- A reference that is nested too deep is skipped by the scan itself.
    intro opening close rest hopens _
    left
    cases hopens <;> rfl
  | succ levels ih => exact endsOrGivesUp_succ ih

/-- However deep references may be nested and however badly they are formed, one in delimiters ends
where the scan for its closing delimiter ends, unless it is given up at a dollar sign that is taken
for a separator. Then it ends where the scan ends that starts behind the dollar sign. -/
theorem read_ends {opening close : Char} {rest : Text} (hopens : Opens opening close)
    (hbackslash : '\\' ∉ rest) :
    ((∀ count stack, ¬GivesUp maxNesting ('$' :: opening :: rest) count stack) →
      (read ('$' :: opening :: rest)).taken = 2 + closeLength [close] rest) ∧
    ∀ count stack, GivesUp maxNesting ('$' :: opening :: rest) count stack →
      (∃ failure, (read ('$' :: opening :: rest)).outcome = .error failure) ∧
        (read ('$' :: opening :: rest)).taken =
          count + closeLength stack (('$' :: opening :: rest).drop count) := by
  refine ⟨fun hnone => ?_, fun count stack hgives => ⟨hgives.outcome_eq, hgives.taken_eq⟩⟩
  rcases endsOrGivesUp maxNesting hopens hbackslash with hends | ⟨count, stack, hgives⟩
  · exact hends
  · exact absurd hgives (hnone count stack)

/-- The substitution in `${X:S${a}}` takes the dollar sign of `${a}` for its separator. -/
theorem givesUp_dollar : GivesUp maxNesting
    ['$', '\x7b', 'X', ':', 'S', '$', '\x7b', 'a', '\x7d', '\x7d'] 6 ['\x7d'] := by
  have hpasses : Passes '\x7d' ['\x7b', 'a', '\x7d', '\x7d'] 2 :=
    Passes.inert .braces ['\x7b', 'a'] (by decide) _
  have hmisreads : Modifier.Misreads (readWithin 63) '\x7d'
      ['S', '$', '\x7b', 'a', '\x7d', '\x7d'] 4
      ⟨.invalidModifier ['S', '$', '\x7b', 'a'] ['X'], ⟨0, 4⟩⟩ :=
    @Modifier.Misreads.dollar _ _ ['X'] 'S' '\x7b' ['a', '\x7d', '\x7d'] 2 _ (.inl rfl)
      (.inr (.inl rfl)) (by decide +kernel) (by with_unfolding_all rfl) hpasses
  have hfails : (readBody (readWithin 63) '\x7d'
      (['X', ':'] ++ ['S', '$', '\x7b', 'a', '\x7d', '\x7d'])).FailsBehind ['X', ':'] 4
      ⟨.invalidModifier ['S', '$', '\x7b', 'a'] ['X'], ⟨0, 4⟩⟩ :=
    ⟨by decide +kernel, by with_unfolding_all rfl⟩
  exact .here .braces hmisreads hfails

theorem read_ends_dollar :
    (read ['$', '\x7b', 'X', ':', 'S', '$', '\x7b', 'a', '\x7d', '\x7d']).taken =
      6 + closeLength ['\x7d'] ['\x7b', 'a', '\x7d', '\x7d'] := by
  have hends := (read_ends .braces (by decide)).2 6 ['\x7d'] givesUp_dollar
  exact hends.2

/-- The last brace of `${X:S${a}}` is left over. -/
theorem read_ends_early :
    (read ['$', '\x7b', 'X', ':', 'S', '$', '\x7b', 'a', '\x7d', '\x7d']).taken ≠
      2 + closeLength ['\x7d'] ['X', ':', 'S', '$', '\x7b', 'a', '\x7d', '\x7d'] := by
  decide +kernel

end RecipeLint.Reference

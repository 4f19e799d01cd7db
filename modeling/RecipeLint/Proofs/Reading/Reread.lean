import RecipeLint.Proofs.Reading.Scan
import RecipeLint.Proofs.Reading.Shapes

/-!
# Modifiers read again

A modifier that was read is read again from the same characters in front of other ones, under
another closing delimiter, and where more references may be nested, as long as the new delimiter
does not stand in it and what follows does not go on with it.  Colons and closing delimiters go on
with no modifier but a few that were ended by the closing delimiter alone.
-/

namespace RecipeLint

open Reading

def isEnd (c : Char) : Bool :=
  ":)\x7d".toList.contains c

theorem eq_false_of_isEnd {p : Char → Bool} (h : ":)\x7d".toList.any p = false) {b : Char}
    (hb : isEnd b) : p b = false := by
  rw [List.any_eq_false] at h
  have hnot := h b (by simpa [isEnd] using hb)
  simpa using hnot

theorem ne_of_isEnd {b c : Char} (hb : isEnd b) (hc : isEnd c = false) : b ≠ c := by
  rintro rfl
  simp [hb] at hc

theorem leavesDollar_of_isEnd {b : Char} (hb : isEnd b) : leavesDollar b := by
  have h := eq_false_of_isEnd (p := fun c => !leavesDollar c) (by decide) hb
  simpa using h

theorem Opens.isEnd {opening close : Char} (h : Opens opening close) : isEnd close := by
  cases h <;> decide

theorem Opens.ne_colon {opening close : Char} (h : Opens opening close) : close ≠ ':' := by
  cases h <;> decide

namespace MakeText

theorem mem_source_of_hasLiteral {c : Char} {text : MakeText} (h : hasLiteral c text) :
    c ∈ source text := by
  induction text with
  | nil => simp [hasLiteral] at h
  | cons part parts ih =>
    rw [hasLiteral, List.any_cons, Bool.or_eq_true] at h
    rcases h with h | h
    · cases part with
      | literal chars => simp [Part.source, List.contains_iff_mem.mp h]
      | reference r => simp at h
    · simp [ih h]

theorem hasLiteral_of_cut? {c d : Char} {text before behind : MakeText}
    (h : cut? c text = some (before, behind)) (hd : hasLiteral d text) :
    d = c ∨ hasLiteral d before ∨ hasLiteral d behind := by
  fun_induction cut? c text generalizing before with
  | case1 => simp at h
  | case2 chars parts hmem =>
    have hchars := Text.takeWhile_ne_append (List.contains_iff_mem.mp hmem)
    obtain ⟨rfl, rfl⟩ := Prod.mk.inj (Option.some.inj h)
    rw [hasLiteral, List.any_cons, Bool.or_eq_true] at hd
    simp only [hasLiteral_consLiteral, Bool.or_eq_true, List.contains_iff_mem]
    rcases hd with hd | hd
    · rw [List.contains_iff_mem, ← hchars, List.mem_append, List.mem_cons] at hd
      tauto
    · exact .inr (.inr (.inr hd))
  | case3 chars parts hmem ih =>
    obtain ⟨⟨b, a⟩, hcut, heq⟩ := Option.map_eq_some_iff.mp h
    obtain ⟨rfl, rfl⟩ := Prod.mk.inj heq
    rw [hasLiteral, List.any_cons, Bool.or_eq_true] at hd ⊢
    exact hd.elim (fun hd => .inr (.inl (.inl hd))) fun hd =>
      (ih hcut hd).imp_right (.imp_left .inr)
  | case4 part parts hpart ih =>
    obtain ⟨⟨b, a⟩, hcut, heq⟩ := Option.map_eq_some_iff.mp h
    obtain ⟨rfl, rfl⟩ := Prod.mk.inj heq
    rw [hasLiteral, List.any_cons, Bool.or_eq_true] at hd ⊢
    exact hd.elim (fun hd => .inr (.inl (.inl hd))) fun hd =>
      (ih hcut hd).imp_right (.imp_left .inr)

end MakeText

namespace Modifier

/-- Whether nothing but the closing delimiter ended it: in front of a colon, or for a loop in front
of its mark, it would have gone on. -/
def needsClose : Modifier → Bool
  | separator text => text.isEmpty
  | forEach _ _ closed => !closed
  | suffix old _ => (MakeText.source old).head?.any "?!".toList.contains
  | _ => false

def hasLiteral (c : Char) (m : Modifier) : Bool :=
  m.arguments.any (MakeText.hasLiteral c) ||
    match m with
    | substitute _ bound _ _ _ => bound == c
    | separator text => text.contains c
    | _ => false

/-- Whether a backslash in its arguments hides the character behind it. -/
def hidesPairs : Modifier → Bool
  | suffix old _ => old.isEmpty
  | choose .. | shell _ => false
  | _ => true

/-- Whether a character stands in it for itself: outside of the references that the reader finds
there, and not hidden by a backslash. -/
def shows (nested : Reader (Option Reference)) (c : Char) (m : Modifier) : Bool :=
  m.arguments.any (MakeText.shows m.hidesPairs c) ||
    match m with
    | substitute _ bound _ _ _ => bound == c
    | separator text => MakeText.hasLiteral c (MakeText.ofText nested text)
    | _ => false

/-- The delimiter may be changed from one to the other: if that is a change, then the new one does
not stand in the modifier for itself. -/
def Clear (nested : Reader (Option Reference)) (close close' : Char) (m : Modifier) : Prop :=
  close' = close ∨ shows nested close' m = false

def MayFollow (close' : Char) (m : Modifier) (b b' : Char) : Prop :=
  b' = close' ∨ b' = ':' ∧ (b = ':' ∨ needsClose m = false) ∨
    isSubstitution m ∧ (b' = b ∨ isFlag b' = false)

section

variable {nested nested' : Reader (Option Reference)} (hextends : Extends nested nested')
  {opening opening' close close' : Char} (hopens : Opens opening close)
  (hopens' : Opens opening' close') {name s t : Text} {b b' : Char} {m : Modifier}

theorem MayFollow.stops (h : MayFollow close' m b b') (hm : m.isSubstitution = false) :
    b' = ':' ∨ b' = close' := by
  rcases h with h | ⟨h, -⟩ | ⟨h, -⟩
  · exact .inr h
  · exact .inl h
  · simp [hm] at h

theorem Clear.argument (h : Clear nested close close' m) {v : MakeText} (hv : v ∈ m.arguments) :
    close' = close ∨ MakeText.shows m.hidesPairs close' v = false := by
  refine h.imp_right fun h => ?_
  have harguments := (Bool.or_eq_false_iff.mp h).1
  rw [List.any_eq_false] at harguments
  simpa using harguments v hv

theorem assigning?_symbol (op : Assigning) (rest : Text) :
    assigning? (op.symbol ++ rest) = some op := by
  cases op <;> rfl

theorem word_of_ofWord? {word : Text} (h : ofWord? word = some m) :
    m = .quote ∨ ∃ op, m = .transform op := by
  unfold ofWord? at h
  split at h
  case isTrue => exact .inl (Option.some.inj h).symm
  case isFalse =>
    obtain ⟨op, -, rfl⟩ := Option.map_eq_some_iff.mp h
    exact .inr ⟨op, rfl⟩

theorem readForm_of_reads {nested : Reader (Option Reference)} {close b c : Char} {name s t : Text}
    (h : Reads (read nested close name) 0 (c :: s) (some m) (b :: t)) (hquote : m ≠ .quote)
    (htransform : ∀ op, m ≠ .transform op) :
    Reads (readForm nested close name c) 1 s (some m) (b :: t) := by
  rcases (reads_read rfl).mp h with ⟨hword, -⟩ | ⟨-, hform⟩
  · obtain hm | ⟨op, hm⟩ := word_of_ofWord? hword
    · exact absurd hm hquote
    · exact absurd hm (htransform op)
  · exact hform

theorem isSubstitution_of_ofWord? {word : Text} (h : ofWord? word = some m) :
    m.isSubstitution = false := by
  obtain rfl | ⟨op, rfl⟩ := word_of_ofWord? h <;> rfl

/-- What the fixed words have in common, and no other modifier: they are all letters, and their
first ones choose no form. -/
def isWordLike (word : Text) : Bool :=
  word.all Char.isAlphanum && !word.head?.any "MNSCUD".toList.contains && word.take 2 != ['t', 's']

theorem isWordLike_of_ofWord? {word : Text} (h : ofWord? word = some m) : isWordLike word := by
  rw [← source_of_ofWord? h]
  obtain rfl | ⟨op, rfl⟩ := word_of_ofWord? h
  · decide
  · cases op <;> decide

theorem not_isWordLike {c : Char} (hm : m.isSubstitution) (hsource : m.source = c :: s)
    (rest : Text) : isWordLike ((c :: rest).takeWhile Char.isAlphanum) = false := by
  cases m with
  | substitute regex =>
    obtain ⟨rfl, -⟩ := List.cons.inj hsource
    cases regex <;> simp [isWordLike]
  | _ => simp [isSubstitution] at hm

/-- The characters of a modifier are the fixed word of no other one. -/
theorem eq_of_ofWord? {m' : Modifier} (h : ofWord? m.source = some m') : m' = m := by
  have hword := isWordLike_of_ofWord? h
  have hequal : '='.isAlphanum = false := by decide
  cases m with
  | quote =>
    obtain rfl : Modifier.quote = m' := by simpa [ofWord?, source] using h
    rfl
  | transform op =>
    have hop : ofWord? op.letters = some (.transform op) := by cases op <;> rfl
    exact Option.some.inj (h.symm.trans hop)
  | select keep => cases keep <;> simp [isWordLike, source] at hword
  | substitute regex => cases regex <;> simp [isWordLike, source] at hword
  | suffix => simp [isWordLike, source, hequal] at hword
  | assign op => cases op <;> simp [isWordLike, source, Assigning.symbol] at hword
  | _ => simp [isWordLike, source] at hword

theorem MayFollow.eq_close (h : MayFollow close' m b b') (hm : m.isSubstitution = false)
    (hneeds : m.needsClose) (hb : b ≠ ':') : b' = close' := by
  rcases h with h | ⟨-, h | h⟩ | ⟨h, -⟩
  · exact h
  · exact absurd h hb
  · simp [hneeds] at h
  · simp [hm] at h

theorem isSubstitution_of_general {v : MakeText} (h : general name v = .ok (some m)) :
    m.isSubstitution = false := by
  obtain ⟨old, new, -, rfl⟩ := general_eq_some_iff.mp h
  rfl

/-- What was to be a choice or a command, but is none, was ended by the closing delimiter. -/
theorem needsClose_of_general {c : Char} {v : MakeText} (hc : "?!".toList.contains c)
    (h : general name (MakeText.consLiteral [c] v) = .ok (some m)) : m.needsClose := by
  obtain ⟨old, new, hcut, rfl⟩ := general_eq_some_iff.mp h
  have hsource := MakeText.source_of_cut? hcut
  rw [MakeText.source_consLiteral, List.singleton_append] at hsource
  cases hold : MakeText.source old with
  | nil =>
    rw [hold] at hsource
    obtain ⟨rfl, -⟩ := List.cons.inj hsource
    exact absurd hc (by decide)
  | cons d rest =>
    rw [hold] at hsource
    obtain ⟨rfl, -⟩ := List.cons.inj hsource
    simpa [needsClose, hold] using hc

section

include hopens'

theorem isEnd_of_stops (h : b' = ':' ∨ b' = close') : isEnd b' := by
  rcases h with rfl | rfl
  · decide
  · exact hopens'.isEnd

theorem clear_of_general {v : MakeText} (h : general name v = .ok (some m))
    (hequal : ∀ rest, MakeText.source v ≠ '=' :: rest) (hclear : Clear nested close close' m) :
    close' = close ∨ MakeText.shows false close' v = false := by
  obtain ⟨old, new, hcut, rfl⟩ := general_eq_some_iff.mp h
  have hpairs : hidesPairs (suffix old new) = false := by
    cases old with
    | nil => exact absurd (MakeText.source_of_cut? hcut) (hequal _)
    | cons => rfl
  refine hclear.imp_right fun hclear => ?_
  simp only [shows, hpairs, MakeText.shows_false, arguments, List.any_cons, List.any_nil,
    Bool.or_false, Bool.or_eq_false_iff] at hclear
  by_contra hliteral
  rw [Bool.not_eq_false, MakeText.shows_false] at hliteral
  rcases MakeText.hasLiteral_of_cut? hcut hliteral with heq | hold | hnew
  · exact ne_of_isEnd hopens'.isEnd (by decide) heq
  · simp [hclear.1] at hold
  · simp [hclear.2] at hnew

end

include hextends

theorem marked_again {mark : Char} {pairs : Bool} {v : MakeText}
    (h : Reads (makeText nested (fun c => c == mark || c == close) pairs) 0 s v (b :: t))
    (hstop : b' = mark ∨ b' = close') (hleaves : b' = b ∨ isEnd b')
    (hclear : close' = close ∨ MakeText.shows pairs close' v = false) (t' : Text) :
    Reads (makeText nested' (fun c => c == mark || c == close') pairs) 0 s v (b' :: t') := by
  refine makeText_again hextends h ?_ (hleaves.imp_right fun h => .inl (leavesDollar_of_isEnd h))
    (fun c hc hstop => ?_) t'
  · rcases hstop with rfl | rfl <;> simp
  · rw [Bool.or_eq_true, beq_iff_eq, beq_iff_eq] at hstop ⊢
    rcases hstop with rfl | rfl
    · exact .inl rfl
    · rcases hclear with rfl | hclear
      · exact .inr rfl
      · simp [hclear] at hc

theorem readOld_again {bound : Char} {v : MakeText}
    (h : Reads (readOld nested close bound) 0 s v (bound :: t))
    (hclear : close' = close ∨ MakeText.shows true close' v = false) (t' : Text) :
    Reads (readOld nested' close' bound) 0 s v (bound :: t') := by
  rcases reads_readOld.mp h with ⟨s', v', rfl, rfl, hv⟩ | ⟨hcaret, hv⟩
  · refine reads_readOld.mpr (.inl ⟨s', v', rfl, rfl,
      marked_again hextends hv (.inl rfl) (.inl rfl) (hclear.imp_right fun h => ?_) t'⟩)
    rw [MakeText.shows_consLiteral (by simp [Text.shows]), Bool.or_eq_false_iff] at h
    exact h.2
  · exact reads_readOld.mpr (.inr ⟨Text.not_cons_of_swap t' hcaret,
      marked_again hextends hv (.inl rfl) (.inl rfl) hclear t'⟩)

section

include hopens'

theorem argument_again {pairs : Bool} {v : MakeText}
    (h : Reads (argument nested close pairs) 0 s v (b :: t)) (hb' : b' = ':' ∨ b' = close')
    (hclear : close' = close ∨ MakeText.shows pairs close' v = false) (t' : Text) :
    Reads (argument nested' close' pairs) 0 s v (b' :: t') :=
  marked_again hextends h hb' (.inr (isEnd_of_stops hopens' hb')) hclear t'

end

include hopens
omit hextends

theorem isEnd_of_readGeneral (hfits : FitsDollar nested)
    (h : Reads (readGeneral nested close name) 0 s (some m) (b :: t)) : isEnd b := by
  obtain ⟨v, hv, -⟩ := reads_readGeneral.mp h
  have hstop := makeText_stops hfits hv
  rw [Bool.or_eq_true, beq_iff_eq, beq_iff_eq] at hstop
  exact isEnd_of_stops hopens hstop

theorem not_readGeneral_letter {letter : Char} (hletter : letter = 'S' ∨ letter = 'C') {rest : Text}
    (hrest : s ++ b :: t = close :: rest) :
    ¬Reads (readGeneral nested close name) 0 (letter :: s) (some m) (b :: t) := by
  intro h
  obtain ⟨v, hv, hm⟩ := reads_readGeneral.mp h
  have hclose : close ≠ '$' := ne_of_isEnd hopens.isEnd (by decide)
  have hread : argument nested close false (letter :: close :: rest) =
      (Reading.done []).literal [letter] := by
    have hstop : ¬(letter == ':' || letter == close) := by
      rcases hletter with rfl | rfl <;> cases hopens <;> decide
    rw [argument, makeText_plain _ _ _ (by rcases hletter with rfl | rfl <;> decide)
      (by rcases hletter with rfl | rfl <;> decide), if_neg hstop,
      makeText_stop nested false hclose (by simp)]
  have houtcome := hv.outcome
  rw [List.cons_append, hrest, hread] at houtcome
  obtain ⟨w, hw, rfl⟩ := outcome_literal_eq_ok_iff.mp houtcome
  obtain rfl := Except.ok.inj hw
  obtain ⟨old, new, hcut, -⟩ := general_eq_some_iff.mp hm
  rcases hletter with rfl | rfl <;> simp [MakeText.consLiteral, MakeText.cut?] at hcut

include hextends
include hopens'

variable (hfollow : MayFollow close' m b b') (hclear : Clear nested' close close' m) (t' : Text)

include hfollow
include hclear

omit hopens in
theorem readGeneral_again (hequal : ∀ rest, s ≠ '=' :: rest)
    (h : Reads (readGeneral nested close name) 0 s (some m) (b :: t)) :
    Reads (readGeneral nested' close' name) 0 s (some m) (b' :: t') := by
  obtain ⟨v, hv, hm⟩ := reads_readGeneral.mp h
  have hb' := hfollow.stops (isSubstitution_of_general hm)
  have hsource : MakeText.source v = s := source_of_makeText hextends.fits hv
  exact reads_readGeneral.mpr ⟨v, argument_again hextends hopens' hv hb'
    (clear_of_general hopens' hm (hsource ▸ hequal) hclear) t', hm⟩

omit hopens in
theorem argumentForm_again (letter : Char) (build : MakeText → Modifier)
    (hbuild : ∀ v, (build v).isSubstitution = false ∧ (build v).hidesPairs ∧
      v ∈ (build v).arguments)
    (h : Reads
      (fun rest => ((argument nested close true rest).map (some <| build ·)).after [letter])
      1 s (some m) (b :: t)) :
    Reads (fun rest => ((argument nested' close' true rest).map (some <| build ·)).after [letter])
      1 s (some m) (b' :: t') := by
  obtain ⟨v, hv, rfl⟩ := (reads_argumentForm letter build).mp h
  obtain ⟨hsubstitution, hpairs, hv'⟩ := hbuild v
  exact (reads_argumentForm letter build).mpr ⟨v, argument_again hextends hopens' hv
    (hfollow.stops hsubstitution) (hpairs ▸ hclear.argument hv') t', rfl⟩

omit hopens in
theorem readSeparator_again (h : Reads (readSeparator nested close) 0 s m (b :: t)) :
    Reads (readSeparator nested' close') 0 s m (b' :: t') := by
  rw [reads_readSeparator hextends.fits] at h
  rw [reads_readSeparator hextends.fits']
  obtain ⟨rfl, ⟨hcolon, v, hv⟩ | rfl⟩ := h
  · refine ⟨rfl, .inl ⟨?_, v, argument_again hextends hopens' hv (hfollow.stops rfl) ?_ t'⟩⟩
    · rintro rfl
      exact hfollow.eq_close rfl rfl (hcolon rfl) ▸ hopens'.ne_colon
    · refine hclear.imp_right fun hclear => ?_
      have htext : MakeText.ofText nested' s = v :=
        (pieces_of_reads hextends.fits hv).ofText hextends
      simpa [shows, arguments, htext, MakeText.shows_false] using hclear
  · exact ⟨rfl, .inr rfl⟩

omit hopens in
theorem separatorForm_again (h : Reads (separatorForm nested close name) 1 s (some m) (b :: t)) :
    Reads (separatorForm nested' close' name) 1 s (some m) (b' :: t') := by
  by_cases hs : ∃ s', s = 's' :: s'
  · obtain ⟨s, rfl⟩ := hs
    rw [reads_separatorForm] at h ⊢
    exact readSeparator_again hextends hopens' hfollow hclear t' h
  · rw [not_exists] at hs
    obtain ⟨-, hgeneral⟩ := (reads_separatorForm_of_ne hs).mp h
    obtain ⟨v, -, hm⟩ := reads_readGeneral.mp hgeneral
    have hb' := isEnd_of_stops hopens' (hfollow.stops (isSubstitution_of_general hm))
    exact (reads_separatorForm_of_ne hs).mpr ⟨fun _ => ne_of_isEnd hb' (by decide),
      readGeneral_again hextends hopens' hfollow hclear t' (by simp) hgeneral⟩

theorem readLoop_again {loopVariable : Text}
    (h : Reads (readLoop nested close loopVariable) 0 s m (b :: t)) :
    Reads (readLoop nested' close' loopVariable) 0 s m (b' :: t') := by
  obtain ⟨v, ⟨s, rfl, rfl, hv⟩ | ⟨hb, rfl, hv⟩⟩ := reads_readLoop.mp h
  · exact reads_readLoop.mpr ⟨v, .inl ⟨s, rfl, rfl, marked_again hextends hv (.inl rfl) (.inl rfl)
      (hclear.argument List.mem_cons_self) _⟩⟩
  · have hstop := makeText_stops hextends.fits hv
    rw [Bool.or_eq_true, beq_iff_eq, beq_iff_eq] at hstop
    obtain rfl := hstop.resolve_left hb
    obtain rfl := hfollow.eq_close rfl rfl hopens.ne_colon
    exact reads_readLoop.mpr ⟨v, .inr ⟨ne_of_isEnd hopens'.isEnd (by decide), rfl,
      marked_again hextends hv (.inr rfl) (.inr hopens'.isEnd)
        (hclear.argument List.mem_cons_self) t'⟩⟩

theorem loopForm_again (h : Reads (loopForm nested close name) 1 s (some m) (b :: t)) :
    Reads (loopForm nested' close' name) 1 s (some m) (b' :: t') := by
  rcases reads_loopForm.mp h with ⟨loopVariable, s, hloop, rfl, hread⟩ | ⟨hloop, hgeneral⟩
  · obtain ⟨hne, hall, -⟩ := loopVariable?_eq_some_iff.mp hloop
    exact reads_loopForm.mpr (.inl ⟨loopVariable, s,
      loopVariable?_eq_some_iff.mpr ⟨hne, hall, s ++ b' :: t', by simp⟩, rfl,
      readLoop_again hextends hopens hopens' hfollow hclear t' hread⟩)
  · have hgeneral' := readGeneral_again hextends hopens' hfollow hclear t' (by simp) hgeneral
    have hb := isEnd_of_readGeneral hopens hextends.fits hgeneral
    have hb' := isEnd_of_readGeneral hopens' hextends.fits' hgeneral'
    have hnone {c : Char} (hc : isEnd c) (rest : Text) :=
      loopVariable?_append (eq_false_of_isEnd (by decide) hc) (ne_of_isEnd hc (by decide)) s rest
    refine reads_loopForm.mpr (.inr ⟨?_, hgeneral'⟩)
    rw [hnone hb', ← hnone hb t, hloop]

theorem indexForm_again (h : Reads (indexForm nested close name) 1 s (some m) (b :: t)) :
    Reads (indexForm nested' close' name) 1 s (some m) (b' :: t') := by
  rcases reads_indexForm.mp h with ⟨range, hrange, rfl, rfl⟩ | ⟨hrange, hgeneral⟩
  · refine reads_indexForm.mpr (.inl ⟨range, ?_, rfl, rfl⟩)
    rw [List.append_assoc, List.singleton_append] at hrange ⊢
    rw [range?_swap (by decide) (by decide) range (b :: t), hrange]
  · have hgeneral' := readGeneral_again hextends hopens' hfollow hclear t' (by simp) hgeneral
    have hb := isEnd_of_readGeneral hopens hextends.fits hgeneral
    have hb' := isEnd_of_readGeneral hopens' hextends.fits' hgeneral'
    have hnone {c : Char} (hc : isEnd c) (rest : Text) :=
      range?_append (eq_false_of_isEnd (by decide) hc) (eq_false_of_isEnd (by decide) hc)
        (ne_of_isEnd hc (by decide)) s rest
    refine reads_indexForm.mpr (.inr ⟨?_, hgeneral'⟩)
    rw [hnone hb', ← hnone hb t, hrange]

omit hopens in
theorem readChoice_again (h : Reads (readChoice nested close name) 1 s (some m) (b :: t)) :
    Reads (readChoice nested' close' name) 1 s (some m) (b' :: t') := by
  rcases reads_readChoice.mp h with ⟨s₁, s₂, yes, no, rfl, rfl, hyes, hno⟩ | ⟨v, hb, hv, hm⟩
  · refine reads_readChoice.mpr (.inl ⟨s₁, s₂, yes, no, rfl, rfl, ?_, ?_⟩)
    · exact argument_again hextends hopens' hyes (.inl rfl)
        (hclear.argument (by simp [arguments])) _
    · exact argument_again hextends hopens' hno (hfollow.stops rfl)
        (hclear.argument (by simp [arguments])) t'
  · have hsubstitution := isSubstitution_of_general hm
    obtain rfl := hfollow.eq_close hsubstitution (needsClose_of_general (by decide) hm) hb
    have hclear' := clear_of_general hopens' hm (by simp) hclear
    rw [MakeText.shows_consLiteral (by simp), Bool.or_eq_false_iff] at hclear'
    exact reads_readChoice.mpr (.inr ⟨v, hopens'.ne_colon,
      argument_again hextends hopens' hv (.inr rfl) (hclear'.imp_right And.right) t', hm⟩)

theorem readCommand_again (h : Reads (readCommand nested close name) 1 s (some m) (b :: t)) :
    Reads (readCommand nested' close' name) 1 s (some m) (b' :: t') := by
  obtain ⟨v, ⟨s, rfl, rfl, hv⟩ | ⟨hb, hv, hcolon, hm⟩⟩ := reads_readCommand.mp h
  · exact reads_readCommand.mpr ⟨v, .inl ⟨s, rfl, rfl,
      marked_again hextends hv (.inl rfl) (.inl rfl) (hclear.argument List.mem_cons_self) _⟩⟩
  · have hstop := makeText_stops hextends.fits hv
    rw [Bool.or_eq_true, beq_iff_eq, beq_iff_eq] at hstop
    obtain rfl := hstop.resolve_left hb
    have hsubstitution := isSubstitution_of_general hm
    obtain rfl := hfollow.eq_close hsubstitution (needsClose_of_general (by decide) hm)
      hopens.ne_colon
    have hclear' := clear_of_general hopens' hm (by simp) hclear
    rw [MakeText.shows_consLiteral (by simp), Bool.or_eq_false_iff] at hclear'
    exact reads_readCommand.mpr ⟨v, .inr ⟨ne_of_isEnd hopens'.isEnd (by decide),
      marked_again hextends hv (.inr rfl) (.inr hopens'.isEnd) (hclear'.imp_right And.right) t',
      hcolon, hm⟩⟩

omit hopens in
theorem assignForm_again (h : Reads (assignForm nested close) 1 s (some m) (b :: t)) :
    Reads (assignForm nested' close') 1 s (some m) (b' :: t') := by
  obtain ⟨op, s', v, hop, hs, rfl, hv⟩ := reads_assignForm.mp h
  refine reads_assignForm.mpr ⟨op, s', v, ?_, hs, rfl, argument_again hextends hopens' hv
    (hfollow.stops rfl) (hclear.argument List.mem_cons_self) t'⟩
  rw [← List.cons_append, hs, List.append_assoc, assigning?_symbol]

omit hopens hopens' hfollow in
theorem readSubstitution_again {regex : Bool} {bound : Char}
    (hb' : isFlag b = false → isFlag b' = false)
    (h : Reads (readSubstitution nested close regex bound) 0 s (some m) (b :: t)) :
    Reads (readSubstitution nested' close' regex bound) 0 s (some m) (b' :: t') := by
  obtain ⟨s₁, s₂, flags, old, new, rfl, rfl, hflags, hb, hold, hnew⟩ :=
    reads_readSubstitution.mp h
  exact reads_readSubstitution.mpr ⟨s₁, s₂, flags, old, new, rfl, rfl, hflags, hb' hb,
    readOld_again hextends hold (hclear.argument (by simp [arguments])) _,
    marked_again hextends hnew (.inl rfl) (.inl rfl) (hclear.argument (by simp [arguments])) _⟩

theorem substitutionForm_again {letter : Char} (hletter : letter = 'S' ∨ letter = 'C')
    (h : Reads (substitutionForm nested close name letter) 1 s (some m) (b :: t)) :
    Reads (substitutionForm nested' close' name letter) 1 s (some m) (b' :: t') := by
  obtain ⟨bound, rest, hrest, hform⟩ := (reads_substitutionForm letter).mp h
  refine (reads_substitutionForm letter).mpr ?_
  split at hform
  case isTrue hbound =>
    have hb := isEnd_of_readGeneral hopens hextends.fits hform
    have hclosed : bound ≠ close := by
      rintro rfl
      exact not_readGeneral_letter hopens hletter hrest hform
    obtain rfl := hbound.resolve_left hclosed
    cases s with
    | nil =>
      obtain ⟨rfl, -⟩ := List.cons.inj hrest
      exact absurd hb (by decide)
    | cons c s =>
      obtain ⟨rfl, -⟩ := List.cons.inj hrest
      refine ⟨'\\', s ++ b' :: t', rfl, ?_⟩
      rw [if_pos (.inr rfl)]
      have hequal (rest : Text) : letter :: '\\' :: s ≠ '=' :: rest := by
        rcases hletter with rfl | rfl <;> simp
      exact readGeneral_again hextends hopens' hfollow hclear t' hequal hform
  case isFalse hbound =>
    obtain ⟨s, rfl, hread⟩ := hform
    obtain ⟨s₁, s₂, flags, old, new, -, rfl, -⟩ := reads_readSubstitution.mp hread
    refine ⟨bound, s ++ b' :: t', rfl, ?_⟩
    rw [if_neg]
    · refine ⟨s, rfl, readSubstitution_again hextends hclear t' (fun hb => ?_) hread⟩
      rcases hfollow with rfl | ⟨rfl, -⟩ | ⟨-, rfl | h⟩
      · exact eq_false_of_isEnd (by decide) hopens'.isEnd
      · decide
      · exact hb
      · exact h
    · rintro (rfl | rfl)
      · rcases hclear with rfl | hclear
        · exact hbound (.inl rfl)
        · simp [shows] at hclear
      · exact hbound (.inr rfl)

theorem readForm_again (first : Char)
    (h : Reads (readForm nested close name first) 1 s (some m) (b :: t)) :
    Reads (readForm nested' close' name first) 1 s (some m) (b' :: t') := by
  revert h
  unfold readForm
  split
  case h_1 | h_2 | h_3 | h_4 | h_5 =>
    exact argumentForm_again hextends hopens' hfollow hclear t' _ _
      fun v => ⟨rfl, rfl, by simp [arguments]⟩
  case h_6 => exact separatorForm_again hextends hopens' hfollow hclear t'
  case h_7 => exact readChoice_again hextends hopens' hfollow hclear t'
  case h_8 => exact readCommand_again hextends hopens hopens' hfollow hclear t'
  case h_9 => exact indexForm_again hextends hopens hopens' hfollow hclear t'
  case h_10 => exact loopForm_again hextends hopens hopens' hfollow hclear t'
  case h_11 => exact assignForm_again hextends hopens' hfollow hclear t'
  case h_12 => exact substitutionForm_again hextends hopens hopens' hfollow hclear t' (.inl rfl)
  case h_13 => exact substitutionForm_again hextends hopens hopens' hfollow hclear t' (.inr rfl)
  case h_14 hequal _ _ _ _ _ _ _ _ =>
    intro h
    exact (reads_cons first).mp
      (readGeneral_again hextends hopens' hfollow hclear t' (by simpa using hequal)
        ((reads_cons first).mpr h))

/-- A modifier is read again. -/
theorem read_again (h : Reads (read nested close name) 0 s (some m) (b :: t)) :
    Reads (read nested' close' name) 0 s (some m) (b' :: t') := by
  have hsource : m.source = s := source_of_read hextends.fits h
  cases s with
  | nil => exact absurd hsource (source_ne_nil m)
  | cons c s =>
    rcases (reads_read rfl).mp h with ⟨hword, hs⟩ | ⟨hword, hform⟩
    · obtain ⟨hall, hb⟩ := Text.takeWhile_eq_iff.mp hs
      have hb' := isEnd_of_stops hopens' (hfollow.stops (isSubstitution_of_ofWord? hword))
      rw [hs] at hword
      refine (reads_read (Text.takeWhile_eq_iff.mpr ⟨hall, ?_⟩)).mpr (.inl ⟨hword, rfl⟩)
      exact eq_false_of_isEnd (by decide) hb'
    · have hform' := readForm_again hextends hopens hopens' hfollow hclear t' c hform
      cases hword' : ofWord? ((c :: s ++ b' :: t').takeWhile Char.isAlphanum) with
      | none => exact (reads_read rfl).mpr (.inr ⟨hword', hform'⟩)
      | some m' =>
        have hb' : isEnd b' := by
          cases hm : m.isSubstitution with
          | false => exact isEnd_of_stops hopens' (hfollow.stops hm)
          | true =>
            have hlike := isWordLike_of_ofWord? hword'
            rw [List.cons_append, not_isWordLike hm hsource] at hlike
            exact absurd hlike Bool.false_ne_true
        have hletter : b'.isAlphanum = false := eq_false_of_isEnd (by decide) hb'
        have hrun := Text.takeWhile_fence (c :: s) t' hletter
        rw [hrun] at hword'
        by_cases hall : ((c :: s).takeWhile Char.isAlphanum).length = (c :: s).length
        · -- A fixed word now, though it went on before: then it is the word of this modifier.
          have hself := (List.takeWhile_prefix (l := c :: s) Char.isAlphanum).eq_of_length hall
          rw [hself] at hrun hword'
          obtain rfl : m' = m := eq_of_ofWord? (hsource ▸ hword')
          exact (reads_read hrun).mpr (.inl ⟨hword', rfl⟩)
        · rw [List.takeWhile_append, if_neg hall, hword'] at hword
          simp at hword

end

end Modifier

end RecipeLint

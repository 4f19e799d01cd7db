import Mathlib.Data.List.TakeWhile
import RecipeLint.Proofs.Reading.Fences
import RecipeLint.Proofs.Reading.Source

/-!
# How far readers look ahead

Every reader of references looks no further than a fence behind what it takes.  So a reference is
read in the same way whatever follows the fence behind it.
-/

namespace RecipeLint

open Reading

/-- A fence is none of the characters that readers look for beyond the ones that they take. -/
theorem ne_of_isFence {b c : Char} (hb : isFence b) (hc : isFence c = false) : b ≠ c := by
  rintro rfl
  simp [hb] at hc

theorem eq_false_of_isFence {p : Char → Bool} (h : " \t\n;&|()<>\x7d".toList.any p = false)
    {b : Char} (hb : isFence b) : p b = false := by
  rw [List.any_eq_false] at h
  have hnot := h b (by simpa [isFence] using hb)
  simpa using hnot

theorem not_mem_of_isFence {symbol : Text} (h : symbol.any isFence = false) {b : Char}
    (hb : isFence b) : b ∉ symbol := by
  intro hmem
  rw [List.any_eq_false] at h
  exact h b hmem hb

theorem Text.uncons_of_fence {s t rest : Text} {b c : Char} (hb : isFence b)
    (hc : isFence c = false) (h : s ++ b :: t = c :: rest) :
    ∃ s', s = c :: s' ∧ rest = s' ++ b :: t := by
  cases s with
  | nil => exact absurd (List.cons.inj h).1 (ne_of_isFence hb hc)
  | cons d s =>
    obtain ⟨rfl, rfl⟩ := List.cons.inj h
    exact ⟨s, rfl, rfl⟩

/-- What stands behind a character does not matter for the start of a text. -/
theorem Text.cons_of_swap {s t rest : Text} {b c : Char} (t' : Text)
    (h : s ++ b :: t = c :: rest) : ∃ rest', s ++ b :: t' = c :: rest' := by
  cases s with
  | nil => exact ⟨t', congrArg (· :: t') (List.cons.inj h).1⟩
  | cons d s => exact ⟨s ++ b :: t', congrArg (· :: (s ++ b :: t')) (List.cons.inj h).1⟩

theorem Text.not_cons_of_swap {s t : Text} {b c : Char} (t' : Text)
    (h : ∀ rest, s ++ b :: t = c :: rest → False) (rest : Text) :
    s ++ b :: t' = c :: rest → False := by
  intro heq
  obtain ⟨rest', hrest⟩ := cons_of_swap t heq
  exact h rest' hrest

theorem isIdentifierChar_of_isFence {b : Char} (hb : isFence b) : isIdentifierChar b = false :=
  eq_false_of_isFence (by decide) hb

theorem isAlphanum_of_isFence {b : Char} (hb : isFence b) : b.isAlphanum = false := by
  have h := isIdentifierChar_of_isFence hb
  rw [isIdentifierChar, Bool.or_eq_false_iff] at h
  exact h.1

def FencedDollar (nested : Reader (Option Reference)) : Prop :=
  Fenced 1 fun rest => nested ('$' :: rest)

theorem makeText_plain (nested : Reader (Option Reference)) (stop : Char → Bool) (pairs : Bool)
    {c : Char} (hdollar : c ≠ '$') (hbackslash : c ≠ '\\') (rest : Text) :
    makeText nested stop pairs (c :: rest) =
      if stop c then .done [] else (makeText nested stop pairs rest).literal [c] :=
  makeText.eq_5 _ _ _ _ _ (fun _ h => absurd h hdollar) hdollar fun _ _ h => absurd h hbackslash

section

variable {nested : Reader (Option Reference)} (hfits : FitsDollar nested)
  (hnested : FencedDollar nested)

include hfits hnested

/-! ## Make text -/

theorem makeText_fenced (stop : Char → Bool) (pairs : Bool) :
    Fenced 0 (makeText nested stop pairs) := by
  intro s b t t' hb htaken
  generalize htext : s ++ b :: t = text at htaken
  have hswap {s : Text} (hinner : (nested ('$' :: (s ++ b :: t))).taken ≤ 1 + s.length) :
      nested ('$' :: (s ++ b :: t')) = nested ('$' :: (s ++ b :: t)) := hnested s b t t' hb hinner
  -- Each reading takes a part of `s`, the rest of which is the `s` of the induction hypothesis, and
  -- looks at `b` only when nothing of `s` is left.
  fun_induction makeText nested stop pairs text generalizing s with
  | case1 => simp at htext
  | case2 rest ih =>
    obtain ⟨s, rfl, hrest⟩ := Text.uncons_of_fence hb (by decide) htext
    obtain ⟨s, rfl, rfl⟩ := Text.uncons_of_fence hb (by decide) hrest.symm
    simp only [taken_literal, List.length_cons, List.length_nil] at htaken
    rw [List.cons_append, List.cons_append, makeText, ih s rfl (by omega)]
  | case3 rest hne inner reference hok ih =>
    obtain ⟨s, rfl, rfl⟩ := Text.uncons_of_fence hb (by decide) htext
    simp only [taken_andThen, taken_map, List.length_cons, List.length_take,
      List.length_append] at htaken
    have hle : inner.taken - 1 ≤ s.length := by omega
    have hinner : nested ('$' :: (s ++ b :: t')) = inner :=
      hswap (show inner.taken ≤ 1 + s.length by omega)
    rw [List.cons_append, makeText.eq_3 _ _ _ _ (Text.not_cons_of_swap t' hne), hinner]
    simp only [hok, List.take_append_of_le_length hle, List.drop_append_of_le_length hle]
      at ih htaken ⊢
    rw [ih (s.drop (inner.taken - 1)) rfl (by rw [List.length_drop]; omega)]
  | case4 rest hne inner hok ih =>
    obtain ⟨s, rfl, rfl⟩ := Text.uncons_of_fence hb (by decide) htext
    simp only [taken_literal, List.length_cons, List.length_nil] at htaken
    have hinner : nested ('$' :: (s ++ b :: t')) = inner := by
      have hzero : inner.taken = 0 := hfits.taken_of_none hok
      exact hswap (show inner.taken ≤ 1 + s.length by omega)
    rw [List.cons_append, makeText.eq_3 _ _ _ _ (Text.not_cons_of_swap t' hne), hinner]
    simp only [hok]
    rw [ih s rfl (by omega)]
  | case5 rest hne inner next span hlone ih =>
    obtain ⟨s, rfl, rfl⟩ := Text.uncons_of_fence hb (by decide) htext
    simp only [taken_literal, List.length_cons, List.length_nil] at htaken
    have hinner : nested ('$' :: (s ++ b :: t')) = inner := by
      have hone : inner.taken = 1 := hfits.taken_of_lone hlone
      exact hswap (show inner.taken ≤ 1 + s.length by omega)
    rw [List.cons_append, makeText.eq_3 _ _ _ _ (Text.not_cons_of_swap t' hne), hinner]
    simp only [hlone]
    rw [ih s rfl (by omega)]
  | case6 rest hne inner failure hnotlone hfailure =>
    obtain ⟨s, rfl, rfl⟩ := Text.uncons_of_fence hb (by decide) htext
    have hinner : nested ('$' :: (s ++ b :: t')) = inner :=
      hswap (by simpa [Nat.add_comm] using htaken)
    rw [List.cons_append, makeText.eq_3 _ _ _ _ (Text.not_cons_of_swap t' hne), hinner]
    simp only [hfailure]
  | case7 c rest hstop =>
    obtain ⟨s, rfl, hrest⟩ := Text.uncons_of_fence hb (by decide) htext
    cases s with
    | nil => simp [makeText, hstop]
    | cons d s => simp [makeText, hstop]
  | case8 c rest hstop hpairs ih =>
    obtain ⟨s, rfl, hrest⟩ := Text.uncons_of_fence hb (by decide) htext
    simp only [taken_literal, List.length_cons, List.length_nil] at htaken
    cases s with
    | nil =>
      rw [List.length_nil] at htaken
      omega
    | cons d s =>
      rw [List.cons_append] at hrest
      obtain ⟨rfl, rfl⟩ := List.cons.inj hrest
      rw [List.length_cons] at htaken
      rw [List.cons_append, List.cons_append, makeText, if_neg hstop, if_pos hpairs,
        ih s rfl (by omega)]
  | case9 c rest hstop hpairs ih =>
    obtain ⟨s, rfl, hrest⟩ := Text.uncons_of_fence hb (by decide) htext
    simp only [taken_literal, List.length_cons, List.length_nil] at htaken
    have hbehind := ih s hrest.symm (by omega)
    cases s with
    | nil =>
      rw [List.nil_append] at hbehind
      rw [List.singleton_append, makeText, if_neg hstop, if_neg hpairs, hbehind]
    | cons d s =>
      rw [List.cons_append] at hbehind
      rw [List.cons_append, List.cons_append, makeText, if_neg hstop, if_neg hpairs, hbehind]
  | case10 c rest _ hdollar hbackslash hstop =>
    cases s with
    | nil =>
      obtain ⟨rfl, rfl⟩ := List.cons.inj htext
      rw [List.nil_append, makeText_plain _ _ _ hdollar (ne_of_isFence hb (by decide)), if_pos hstop]
    | cons d s =>
      obtain ⟨rfl, rfl⟩ := List.cons.inj htext
      have hne : d ≠ '\\' := by
        rintro rfl
        cases s <;> exact hbackslash _ _ rfl rfl
      rw [List.cons_append, makeText_plain _ _ _ hdollar hne, if_pos hstop]
  | case11 c rest _ hdollar hbackslash hstop ih =>
    rw [taken_literal, List.length_singleton] at htaken
    cases s with
    | nil =>
      rw [List.length_nil] at htaken
      omega
    | cons d s =>
      obtain ⟨rfl, rfl⟩ := List.cons.inj htext
      have hne : d ≠ '\\' := by
        rintro rfl
        cases s <;> exact hbackslash _ _ rfl rfl
      rw [List.length_cons] at htaken
      rw [List.cons_append, makeText_plain _ _ _ hdollar hne, if_neg hstop]
      exact congrArg (Reading.literal [d]) (ih s rfl (by omega))

end

/-! ## Modifiers -/

namespace Modifier

def closedRange? (range behind : Text) : Option Text :=
  match range, behind with
  | _ :: _, ']' :: _ => some range
  | _, _ => none

/-- What of a text may be a range does not depend on what follows a character that belongs to no
range. -/
theorem range?_split {b : Char} (hdigit : isRangeChar b = false)
    (hmark : "#@*".toList.contains b = false) (s : Text) :
    ∃ range, ∀ behind, behind = [] ∨ (∃ t, behind = b :: t) →
      range? (s ++ behind) = closedRange? range (s.drop range.length ++ behind) := by
  let digits := s.takeWhile isRangeChar
  let range := if digits.isEmpty then (s.take 1).filter "#@*".toList.contains else digits
  have hle : range.length ≤ s.length := by
    by_cases hempty : digits.isEmpty
    · have hfilter := List.length_filter_le "#@*".toList.contains (s.take 1)
      rw [List.length_take] at hfilter
      simp only [range, if_pos hempty]
      omega
    · simpa only [range, if_neg hempty] using (List.takeWhile_prefix isRangeChar).length_le
  refine ⟨range, fun behind hbehind => ?_⟩
  have hdigits : (s ++ behind).takeWhile isRangeChar = digits := by
    rcases hbehind with rfl | ⟨t, rfl⟩
    · rw [List.append_nil]
    · exact Text.takeWhile_fence s t hdigit
  have hmarks : ((s ++ behind).take 1).filter "#@*".toList.contains =
      (s.take 1).filter "#@*".toList.contains := by
    rcases hbehind with rfl | ⟨t, rfl⟩
    · rw [List.append_nil]
    · cases s with
      | nil =>
        rw [List.nil_append, List.take_succ_cons, List.take_zero, List.take_nil, List.filter_cons,
          hmark]
        rfl
      | cons c s => rfl
  unfold range?
  rw [hdigits, hmarks]
  exact congrArg (closedRange? range) (List.drop_append_of_le_length hle)

theorem range?_append {b : Char} (hdigit : isRangeChar b = false)
    (hmark : "#@*".toList.contains b = false) (hclosing : b ≠ ']') (s t : Text) :
    range? (s ++ b :: t) = range? s := by
  obtain ⟨range, hrange⟩ := range?_split hdigit hmark s
  have hself := hrange [] (.inl rfl)
  rw [List.append_nil, List.append_nil] at hself
  rw [hrange _ (.inr ⟨t, rfl⟩), hself]
  cases s.drop range.length with
  | nil => cases range <;> simp [closedRange?, hclosing]
  | cons c behind => cases range <;> by_cases hc : c = ']' <;> simp [closedRange?, hc]

theorem range?_swap {b : Char} (hdigit : isRangeChar b = false)
    (hmark : "#@*".toList.contains b = false) (s t t' : Text) :
    range? (s ++ b :: t') = range? (s ++ b :: t) := by
  obtain ⟨range, hrange⟩ := range?_split hdigit hmark s
  rw [hrange _ (.inr ⟨t, rfl⟩), hrange _ (.inr ⟨t', rfl⟩)]
  cases s.drop range.length with
  | nil => cases range <;> by_cases hb : b = ']' <;> simp [closedRange?, hb]
  | cons c behind => cases range <;> by_cases hc : c = ']' <;> simp [closedRange?, hc]

theorem range?_fence {b : Char} (hb : isFence b) (s t : Text) : range? (s ++ b :: t) = range? s :=
  range?_append (eq_false_of_isFence (by decide) hb) (eq_false_of_isFence (by decide) hb)
    (ne_of_isFence hb (by decide)) s t

theorem loopVariable?_eq_some_iff {text loopVariable : Text} :
    loopVariable? text = some loopVariable ↔ loopVariable ≠ [] ∧ loopVariable.all isLoopChar ∧
      ∃ rest, text = loopVariable ++ '@' :: rest := by
  unfold loopVariable?
  rw [List.span_eq_takeWhile_dropWhile]
  constructor
  · intro h
    split at h
    case h_1 c cs rest heq =>
      obtain rfl := Option.some.inj h
      obtain ⟨htake, hdrop⟩ := Prod.mk.inj heq
      refine ⟨List.cons_ne_nil c cs, htake ▸ List.all_takeWhile, rest, ?_⟩
      rw [← htake, ← hdrop, List.takeWhile_append_dropWhile]
    case h_2 => simp at h
  · rintro ⟨hne, hall, rest, rfl⟩
    have hmark : isLoopChar '@' = false := by decide
    obtain ⟨c, cs, rfl⟩ := List.exists_cons_of_ne_nil hne
    rw [Text.takeWhile_fence _ rest hmark, Text.dropWhile_fence _ rest hmark,
      List.takeWhile_eq_self_iff.mpr (List.all_eq_true.mp hall),
      List.dropWhile_eq_nil_iff.mpr (List.all_eq_true.mp hall)]
    rfl

theorem loopVariable?_append {b : Char} (hloop : isLoopChar b = false) (hmark : b ≠ '@')
    (s t : Text) : loopVariable? (s ++ b :: t) = loopVariable? s := by
  unfold loopVariable?
  rw [List.span_eq_takeWhile_dropWhile, List.span_eq_takeWhile_dropWhile,
    Text.takeWhile_fence s t hloop, Text.dropWhile_fence s t hloop]
  cases s.dropWhile isLoopChar with
  | nil => cases s.takeWhile isLoopChar <;> simp [hmark]
  | cons c behind => cases s.takeWhile isLoopChar <;> by_cases hc : c = '@' <;> simp [hc]

theorem loopVariable?_fence {b : Char} (hb : isFence b) (s t : Text) :
    loopVariable? (s ++ b :: t) = loopVariable? s :=
  loopVariable?_append (eq_false_of_isFence (by decide) hb) (ne_of_isFence hb (by decide)) s t

theorem assigning?_fence {b : Char} (hb : isFence b) (s t : Text) :
    assigning? (s ++ b :: t) = assigning? s := by
  have hsymbol (op : Assigning) : b ∉ op.symbol :=
    not_mem_of_isFence (by cases op <;> decide) hb
  unfold assigning?
  simp only [Text.isPrefixOf_fence s t (hsymbol _)]

section

variable {nested : Reader (Option Reference)} (hfits : FitsDollar nested)
  (hnested : FencedDollar nested) (close : Char) (name : Text)

include hfits hnested

theorem argument_fenced (pairs : Bool) : Fenced 0 (argument nested close pairs) :=
  makeText_fenced hfits hnested _ pairs

theorem readGeneral_fenced : Fenced 0 (readGeneral nested close name) :=
  (argument_fenced hfits hnested close false).judge

theorem readSeparator_fenced : Fenced 0 (readSeparator nested close) := by
  refine (argument_fenced hfits hnested close false).followedBy fun value => .of_head fun c t t' => ?_
  split
  case h_1 behind hsource hcons =>
    obtain rfl := (List.cons.inj hcons).1
    simp [hsource]
  case h_2 hne =>
    split
    case h_1 behind hsource hcons =>
      obtain rfl := (List.cons.inj hcons).1
      exact absurd rfl (hne t hsource)
    case h_2 => rfl

omit hfits hnested in
theorem separatorForm_of_ne {c : Char} (hc : c ≠ 's') (rest : Text) :
    separatorForm nested close name (c :: rest) = readGeneral nested close name ('t' :: c :: rest) := by
  unfold separatorForm
  split
  case h_1 behind heq => exact absurd (List.cons.inj heq).1 hc
  case h_2 => rfl

theorem separatorForm_fenced : Fenced 1 (separatorForm nested close name) := by
  have hgeneral := (readGeneral_fenced hfits hnested close name).behind 't'
  refine .of_cons (fun b t t' hb htaken => ?_) fun c => ?_
  · have hne : b ≠ 's' := ne_of_isFence hb (by decide)
    rw [separatorForm_of_ne close name hne] at htaken ⊢
    rw [separatorForm_of_ne close name hne]
    exact hgeneral [] b t t' hb htaken
  · by_cases hc : c = 's'
    · subst hc
      exact .map (.noting (.after ['t', 's'] (readSeparator_fenced hfits hnested close)))
    · simp only [separatorForm_of_ne close name hc]
      exact hgeneral.behind c

theorem argumentForm_fenced (letter : Char) (build : MakeText → Option Modifier) :
    Fenced 1 fun rest => ((argument nested close true rest).map build).after [letter] :=
  (argument_fenced hfits hnested close true).map.after [letter]

theorem readOld_fenced (bound : Char) : Fenced 0 (readOld nested close bound) := by
  have hhalf := makeText_fenced hfits hnested (fun c => c == bound || c == close) true
  have hread (c : Char) (rest : Text) (hc : c ≠ '^') :
      readOld nested close bound (c :: rest) = readHalf nested close bound (c :: rest) := by
    unfold readOld
    split
    case h_1 heq => exact absurd (List.cons.inj heq).1 hc
    case h_2 => rfl
  refine .of_cons (fun b t t' hb htaken => ?_) fun c => ?_
  · have hne : b ≠ '^' := ne_of_isFence hb (by decide)
    rw [hread b t hne] at htaken ⊢
    rw [hread b t' hne]
    exact hhalf [] b t t' hb htaken
  · by_cases hc : c = '^'
    · subst hc
      exact hhalf.map.after ['^']
    · simp only [hread c _ hc]
      exact hhalf.behind c

theorem readSubstitution_fenced (regex : Bool) (bound : Char) :
    Fenced 0 (readSubstitution nested close regex bound) := by
  refine (readOld_fenced hfits hnested close bound).followedBy fun old => ?_
  refine .of_cons (fun b t t' hb htaken => ?_) fun c => ?_
  · by_cases hc : b = bound
    · simp [hc] at htaken
    · simp only [hc, if_false]
  · by_cases hc : c = bound
    · simp only [hc, if_true]
      refine .after [bound]
        ((makeText_fenced hfits hnested _ _).followedBy fun new => ?_)
      refine .of_cons (fun b t t' hb htaken => ?_) fun d => ?_
      · by_cases hd : b = bound
        · simp [hd, Reading.take] at htaken
        · simp only [hd, if_false]
      · by_cases hd : d = bound
        · simp only [hd, if_true]
          intro s b t t' hb _
          have hflag : isFlag b = false :=
            eq_false_of_isFence (by decide) hb
          simp only [Text.takeWhile_fence s _ hflag]
        · simp only [hd, if_false]
          exact fun _ _ _ _ _ _ => rfl
    · simp only [hc, if_false]
      exact fun _ _ _ _ _ _ => rfl

theorem readLoop_fenced (loopVariable : Text) : Fenced 0 (readLoop nested close loopVariable) := by
  refine (makeText_fenced hfits hnested _ _).followedBy fun body => .of_head fun c t t' => ?_
  by_cases hc : c = '@' <;> simp [hc]

theorem readChoice_fenced : Fenced 1 (readChoice nested close name) := by
  have hargument := argument_fenced hfits hnested close false
  refine .judge (.after ['?'] (hargument.followedBy fun yes => .of_cons (fun b t t' hb _ => ?_)
    fun c => ?_))
  · have hne : b ≠ ':' := ne_of_isFence hb (by decide)
    simp [hne]
  · by_cases hc : c = ':'
    · subst hc
      exact .after [':'] hargument.map
    · intro s b t t' _ _
      simp [hc]

theorem readCommand_fenced : Fenced 1 (readCommand nested close name) := by
  refine .judge (.after ['!']
    ((makeText_fenced hfits hnested _ _).followedBy fun command => .of_head fun c t t' => ?_))
  by_cases hc : c = '!' <;> simp [hc]

theorem indexForm_fenced : Fenced 1 (indexForm nested close name) := by
  intro s b t t' hb htaken
  unfold indexForm at htaken ⊢
  rw [range?_fence hb s t] at htaken ⊢
  rw [range?_fence hb s t']
  cases hrange : range? s with
  | some range => rfl
  | none =>
    rw [hrange] at htaken
    exact (readGeneral_fenced hfits hnested close name).behind '[' s b t t' hb htaken

theorem loopForm_fenced : Fenced 1 (loopForm nested close name) := by
  intro s b t t' hb htaken
  unfold loopForm at htaken ⊢
  rw [loopVariable?_fence hb s t] at htaken ⊢
  rw [loopVariable?_fence hb s t']
  cases hloop : loopVariable? s with
  | some loopVariable =>
    obtain ⟨behind, rfl⟩ := append_of_loopVariable? hloop
    have hdrop (t : Text) : (loopVariable ++ '@' :: behind ++ b :: t).drop
        (loopVariable.length + 1) = behind ++ b :: t := by
      simp [List.drop_append]
    simp only [hloop, hdrop, taken_map, taken_noting, taken_after] at htaken ⊢
    rw [readLoop_fenced hfits hnested close loopVariable behind b t t' hb ?_]
    simp only [List.length_append, List.length_cons, List.length_nil] at htaken
    omega
  | none =>
    rw [hloop] at htaken
    exact (readGeneral_fenced hfits hnested close name).behind '@' s b t t' hb htaken

theorem assignForm_fenced : Fenced 1 (assignForm nested close) := by
  intro s b t t' hb htaken
  have hassigning (t : Text) : assigning? (':' :: (s ++ b :: t)) = assigning? (':' :: s) :=
    assigning?_fence hb (':' :: s) t
  unfold assignForm at htaken ⊢
  rw [hassigning] at htaken ⊢
  rw [hassigning]
  cases hop : assigning? (':' :: s) with
  | some op =>
    obtain ⟨behind, hbehind⟩ := append_of_assigning? hop
    have hdrop (t : Text) : (':' :: (s ++ b :: t)).drop op.symbol.length = behind ++ b :: t := by
      rw [← List.cons_append, hbehind, List.append_assoc, List.drop_left]
    simp only [hop, hdrop] at htaken ⊢
    have hlength := congrArg List.length hbehind
    simp only [List.length_cons, List.length_append] at hlength
    simp only [taken_map, taken_after] at htaken
    rw [argument_fenced hfits hnested close true behind b t t' hb (by omega)]
  | none => rfl

theorem substitutionForm_fenced (letter : Char) :
    Fenced 1 (substitutionForm nested close name letter) := by
  have hgeneral := (readGeneral_fenced hfits hnested close name).behind letter
  refine .of_cons (fun b t t' hb htaken => ?_) fun c => ?_
  · unfold substitutionForm at htaken ⊢
    by_cases hbound : b = close ∨ b = '\\'
    · simp only [hbound, if_true] at htaken ⊢
      exact hgeneral [] b t t' hb htaken
    · simp only [hbound, if_false, taken_judge, taken_after, List.length_cons] at htaken
      omega
  · by_cases hbound : c = close ∨ c = '\\'
    · simp only [substitutionForm, hbound, if_true]
      exact hgeneral.behind c
    · intro s b t t' hb htaken
      simp only [substitutionForm, hbound, if_false, taken_judge, taken_after, List.length_cons,
        List.length_nil] at htaken ⊢
      have hread := readSubstitution_fenced hfits hnested close (letter = 'C') c s b t t' hb
        (by omega)
      have htake (t : Text) (n : Nat) (hn : n ≤ s.length) :
          (letter :: c :: (s ++ b :: t)).take (0 + 1 + 1 + n) = letter :: c :: s.take n := by
        rw [Nat.zero_add, Nat.add_comm, List.take_succ_cons, List.take_succ_cons,
          List.take_append_of_le_length hn]
      rw [hread, htake t _ (by omega), htake t' _ (by omega)]

theorem readForm_fenced (first : Char) : Fenced 1 (readForm nested close name first) := by
  unfold readForm
  split
  case h_1 | h_2 | h_3 | h_4 | h_5 => exact argumentForm_fenced hfits hnested close _ _
  case h_6 => exact separatorForm_fenced hfits hnested close name
  case h_7 => exact readChoice_fenced hfits hnested close name
  case h_8 => exact readCommand_fenced hfits hnested close name
  case h_9 => exact indexForm_fenced hfits hnested close name
  case h_10 => exact loopForm_fenced hfits hnested close name
  case h_11 => exact assignForm_fenced hfits hnested close
  case h_12 | h_13 => exact substitutionForm_fenced hfits hnested close name _
  case h_14 => exact (readGeneral_fenced hfits hnested close name).behind first

omit hfits hnested in
theorem readForm_of_isFence {b : Char} (hb : isFence b) (rest : Text) :
    readForm nested close name b rest = readGeneral nested close name (b :: rest) := by
  unfold readForm
  split <;> first | rfl | exact absurd hb (by decide)

theorem read_fenced : Fenced 0 (read nested close name) := by
  intro s b t t' hb htaken
  unfold read at htaken ⊢
  simp only [Text.takeWhile_fence s _ (isAlphanum_of_isFence hb)] at htaken ⊢
  cases hword : ofWord? (s.takeWhile Char.isAlphanum) with
  | some modifier => rfl
  | none =>
    rw [hword] at htaken
    cases s with
    | nil =>
      simp only [List.nil_append, readForm_of_isFence close name hb] at htaken ⊢
      exact readGeneral_fenced hfits hnested close name [] b t t' hb htaken
    | cons c s =>
      refine readForm_fenced hfits hnested close name c s b t t' hb ?_
      simp only [List.cons_append, List.length_cons] at htaken
      omega

end

end Modifier

/-! ## References -/

theorem Text.uncons_two {s t rest : Text} {b c d : Char} (hlength : 2 ≤ s.length)
    (h : s ++ b :: t = c :: d :: rest) : ∃ s', s = c :: d :: s' ∧ rest = s' ++ b :: t := by
  rcases s with _ | ⟨x, _ | ⟨y, s⟩⟩
  · simp at hlength
  · simp at hlength
  · obtain ⟨rfl, hrest⟩ := List.cons.inj h
    obtain ⟨rfl, rfl⟩ := List.cons.inj hrest
    exact ⟨s, rfl, rfl⟩

theorem closeLength_swap {b : Char} (stack : List Char) (s t t' : Text)
    (h : closeLength stack (s ++ b :: t) ≤ s.length) :
    closeLength stack (s ++ b :: t') = closeLength stack (s ++ b :: t) := by
  generalize htext : s ++ b :: t = text at h
  fun_induction closeLength stack text generalizing s with
  | case1 => simp [closeLength]
  | case2 => simp at htext
  | case3 stack rest hne ih =>
    obtain ⟨s, rfl, rfl⟩ := Text.uncons_two (by omega) htext
    simp only [List.length_cons] at h
    rw [List.cons_append, List.cons_append, closeLength.eq_3 _ _ hne, ih s rfl (by omega)]
  | case4 stack rest hne ih =>
    obtain ⟨s, rfl, rfl⟩ := Text.uncons_two (by omega) htext
    simp only [List.length_cons] at h
    rw [List.cons_append, List.cons_append, closeLength.eq_4 _ _ hne, ih s rfl (by omega)]
  | case5 stack rest hne ih =>
    obtain ⟨s, rfl, rfl⟩ := Text.uncons_two (by omega) htext
    simp only [List.length_cons] at h
    rw [List.cons_append, List.cons_append, closeLength.eq_5 _ _ hne, ih s rfl (by omega)]
  | case6 close stack c rest h1 h2 h3 ih =>
    cases s with
    | nil =>
      rw [List.length_nil] at h
      omega
    | cons d s =>
      obtain ⟨rfl, rfl⟩ := List.cons.inj htext
      rw [List.length_cons] at h
      rw [List.cons_append, closeLength.eq_6 _ _ _ _
        (fun rest hd => Text.not_cons_of_swap t' (fun rest => h1 rest hd) rest)
        (fun rest hd => Text.not_cons_of_swap t' (fun rest => h2 rest hd) rest)
        (fun rest hd => Text.not_cons_of_swap t' (fun rest => h3 rest hd) rest)]
      exact congrArg (· + 1) (ih s rfl (by omega))

namespace Reference

section

variable {nested : Reader (Option Reference)} (hfits : FitsDollar nested)
  (hnested : FencedDollar nested) (close : Char)

include hfits hnested

theorem readChain_fenced (name : Text) (mayJoin : Bool) :
    Fenced 0 (readChain nested close name mayJoin) := by
  intro s b t t' hb htaken
  generalize htext : s ++ b :: t = text at htaken
  have hread := Modifier.read_fenced hfits hnested close name
  fun_induction readChain nested close name mayJoin text generalizing s with
  | case1 => simp at htext
  | case2 mayJoin rest step failure hfailure =>
    obtain ⟨s, rfl, rfl⟩ := Text.uncons_of_fence hb (by decide) htext
    simp only [taken_after, List.length_cons, List.length_nil] at htaken
    have hstep : Modifier.read nested close name (s ++ b :: t') = step :=
      hread s b t t' hb (show step.taken ≤ 0 + s.length by omega)
    rw [List.cons_append, readChain, hstep]
    simp only [hfailure]
  | case3 mayJoin rest step modifier? hok ih =>
    obtain ⟨s, rfl, rfl⟩ := Text.uncons_of_fence hb (by decide) htext
    simp only [taken_after, taken_map, taken_andThen, List.length_cons, List.length_nil,
      List.length_take, List.length_append] at htaken
    have hle : step.taken ≤ s.length := by omega
    have hstep : Modifier.read nested close name (s ++ b :: t') = step :=
      hread s b t t' hb (show step.taken ≤ 0 + s.length by omega)
    rw [List.cons_append, readChain, hstep]
    simp only [hok, List.take_append_of_le_length hle, List.drop_append_of_le_length hle]
      at ih htaken ⊢
    rw [ih (s.drop step.taken) rfl (by rw [List.length_drop]; omega)]
  | case4 c rest hcolon step failure hfailure =>
    obtain ⟨rest', hcons⟩ := Text.cons_of_swap t' htext
    have hstep : Modifier.read nested close name (c :: rest') = step := by
      rw [← hcons, hread s b t t' hb (htext ▸ htaken), htext]
    rw [hcons, readChain.eq_3 _ _ _ _ _ _ hcolon, if_pos rfl]
    simp only [hstep, hfailure]
  | case5 c rest hcolon step hnone =>
    obtain ⟨rest', hcons⟩ := Text.cons_of_swap t' htext
    have hzero : step.taken = 0 := Modifier.taken_of_none hfits close name hnone
    have hstep : Modifier.read nested close name (c :: rest') = step := by
      have hle : (Modifier.read nested close name (s ++ b :: t)).taken ≤ 0 + s.length := by
        rw [htext]
        exact (show step.taken ≤ 0 + s.length by omega)
      rw [← hcons, hread s b t t' hb hle, htext]
    rw [hcons, readChain.eq_3 _ _ _ _ _ _ hcolon, if_pos rfl]
    simp only [hstep, hnone]
  | case6 c rest hcolon step modifier hok ih =>
    simp only [taken_map, taken_andThen, List.length_cons, List.length_take] at htaken
    cases s with
    | nil =>
      rw [List.length_nil] at htaken
      omega
    | cons d s =>
      rw [List.cons_append] at htext
      obtain ⟨rfl, rfl⟩ := List.cons.inj htext
      simp only [List.length_append, List.length_cons] at htaken
      have hle : step.taken - 1 ≤ s.length := by omega
      have hstep : Modifier.read nested close name (d :: (s ++ b :: t')) = step :=
        hread (d :: s) b t t' hb (show step.taken ≤ _ by rw [List.length_cons]; omega)
      rw [List.cons_append, readChain.eq_3 _ _ _ _ _ _ hcolon, if_pos rfl]
      simp only [hstep, hok, List.take_append_of_le_length hle, List.drop_append_of_le_length hle]
        at ih htaken ⊢
      rw [ih (s.drop (step.taken - 1)) rfl (by rw [List.length_drop]; omega)]
  | case7 mayJoin c rest hcolon hjoin =>
    obtain ⟨rest', hcons⟩ := Text.cons_of_swap t' htext
    rw [hcons, readChain.eq_3 _ _ _ _ _ _ hcolon, if_neg hjoin]

theorem readBody_fenced : Fenced 0 (readBody nested close) :=
  (makeText_fenced hfits hnested _ _).followedBy fun _ =>
    (readChain_fenced hfits hnested close _ _).map

omit hfits hnested in
theorem endDelimited_swap (delimiter : Delimiter) (body : Reading (MakeText × List Link))
    (s t t' : Text) {b : Char}
    (htaken : (endDelimited close delimiter (s ++ b :: t) body).taken ≤ s.length) :
    endDelimited close delimiter (s ++ b :: t') body =
      endDelimited close delimiter (s ++ b :: t) body := by
  have hle : body.taken ≤ s.length := Nat.le_trans (le_taken_endDelimited _ _ _ _) htaken
  have hdrop (t : Text) : (s ++ b :: t).drop body.taken = s.drop body.taken ++ b :: t :=
    List.drop_append_of_le_length hle
  have htake {n : Nat} (hn : n ≤ s.length) (t : Text) : (s ++ b :: t).take n = s.take n :=
    List.take_append_of_le_length hn
  have hclose (h : body.taken + closeLength [close] (s.drop body.taken ++ b :: t) ≤ s.length) :
      closeLength [close] (s.drop body.taken ++ b :: t') =
        closeLength [close] (s.drop body.taken ++ b :: t) := by
    apply closeLength_swap
    rw [List.length_drop]
    omega
  cases hok : body.outcome with
  | error failure =>
    simp only [endDelimited, hok, hdrop] at htaken ⊢
    rw [hclose htaken]
  | ok value =>
    obtain ⟨name, chain⟩ := value
    cases hrest : s.drop body.taken with
    | nil =>
      have hend : s.length ≤ body.taken := List.drop_eq_nil_iff.mp hrest
      by_cases hb : b = close
      · simp only [endDelimited, hok, hdrop, hrest, List.nil_append, if_pos hb] at htaken
        omega
      · simp only [endDelimited, hok, hdrop, hrest, List.nil_append, if_neg hb] at htaken hclose ⊢
        have hzero : closeLength [close] (b :: t) = 0 := by omega
        rw [hclose htaken, hzero, htake hle, htake hle, List.take_zero, List.take_zero]
    | cons c rest =>
      by_cases hc : c = close
      · simp only [endDelimited, hok, hdrop, hrest, List.cons_append, if_pos hc] at htaken ⊢
        rw [htake htaken, htake htaken]
      · simp only [endDelimited, hok, hdrop, hrest, List.cons_append, if_neg hc] at htaken hclose ⊢
        have hlength := congrArg List.length hrest
        rw [List.length_drop, List.length_cons] at hlength
        have hjunk {n : Nat} (hn : body.taken + n ≤ s.length) (t : Text) :
            (c :: (rest ++ b :: t)).take n = (c :: rest).take n := by
          rw [← List.cons_append]
          apply List.take_append_of_le_length
          rw [List.length_cons]
          omega
        rw [hclose htaken, htake hle, htake hle, hjunk htaken, hjunk htaken]

theorem readDelimited_fenced (delimiter : Delimiter) (opening : Char) :
    Fenced 2 fun rest => readDelimited nested close delimiter ('$' :: opening :: rest) := by
  intro s b t t' hb htaken
  have hle : (readBody nested close (s ++ b :: t)).taken ≤ s.length := by
    have htotal := Nat.le_trans (le_taken_endDelimited _ _ _ _) htaken
    simp only [taken_after, List.length_cons, List.length_nil, List.take_succ_cons, List.take_zero,
      List.drop_succ_cons, List.drop_zero] at htotal
    omega
  have hbody := readBody_fenced hfits hnested close s b t t' hb (by omega)
  simp only [readDelimited, List.drop_succ_cons, List.drop_zero, List.take_succ_cons,
    List.take_zero, hbody] at htaken ⊢
  apply endDelimited_swap close delimiter _ ('$' :: opening :: s) t t'
  simp only [List.length_cons]
  exact Nat.le_trans htaken (by omega)

omit hfits hnested in
theorem skipDelimited_fenced (opening : Char) :
    Fenced 2 fun rest => skipDelimited close ('$' :: opening :: rest) := by
  intro s b t t' _ htaken
  simp only [skipDelimited, List.drop_succ_cons, List.drop_zero] at htaken ⊢
  have hle : closeLength [close] (s ++ b :: t) ≤ s.length := by omega
  rw [closeLength_swap [close] s t t' hle, Nat.add_comm, List.take_succ_cons, List.take_succ_cons,
    List.take_succ_cons, List.take_succ_cons, List.take_append_of_le_length hle,
    List.take_append_of_le_length hle]

end

theorem readBare_fenced (c : Char) : Fenced 2 (readBare c) := by
  intro s b t t' hb _
  unfold readBare
  rw [Text.takeWhile_fence s t (isIdentifierChar_of_isFence hb),
    Text.takeWhile_fence s t' (isIdentifierChar_of_isFence hb)]

theorem readDollar_bare (delimited : Delimiter → Char → Reader Reference) {c : Char}
    (hdollar : c ≠ '$') (hbrace : c ≠ '\x7b') (hparenthesis : c ≠ '(') (rest : Text) :
    readDollar delimited ('$' :: c :: rest) = readBare c rest := by
  unfold readDollar
  split
  case h_1 heq => exact absurd (List.cons.inj (List.cons.inj heq).2).1 hdollar
  case h_2 heq => exact absurd (List.cons.inj (List.cons.inj heq).2).1 hbrace
  case h_3 heq => exact absurd (List.cons.inj (List.cons.inj heq).2).1 hparenthesis
  case h_4 heq =>
    obtain ⟨rfl, rfl⟩ := List.cons.inj (List.cons.inj heq).2
    rfl
  case h_5 hne => exact absurd rfl (hne c rest)

theorem readDollar_fenced {delimited : Delimiter → Char → Reader Reference}
    (hopening : TakesOpening delimited)
    (hdelimited : ∀ delimiter close opening,
      Fenced 2 fun rest => delimited delimiter close ('$' :: opening :: rest)) :
    FencedDollar (readDollar delimited) := by
  refine .of_cons (fun b t t' hb htaken => ?_) fun c => ?_
  · by_cases hparenthesis : b = '('
    · subst hparenthesis
      have htwo := hopening .parentheses ')' '(' t
      simp only [readDollar, taken_map] at htaken
      omega
    · have hbare := readDollar_bare delimited (ne_of_isFence hb (by decide))
        (ne_of_isFence hb (by decide)) hparenthesis
      rw [hbare t, hbare t']
      simp [readBare, isIdentifierChar_of_isFence hb]
  · by_cases hdollar : c = '$'
    · subst hdollar
      exact fun _ _ _ _ _ _ => rfl
    by_cases hbrace : c = '\x7b'
    · subst hbrace
      exact (hdelimited .braces '\x7d' '\x7b').map
    by_cases hparenthesis : c = '('
    · subst hparenthesis
      exact (hdelimited .parentheses ')' '(').map
    · simp only [readDollar_bare delimited hdollar hbrace hparenthesis]
      exact readBare_fenced c

/-- However deep references may be nested, reading one looks no further than a fence behind it. -/
theorem readWithin_fenced (levels : Nat) : FencedDollar (readWithin levels) := by
  induction levels with
  | zero =>
    exact readDollar_fenced (fun _ _ _ _ => Nat.le_add_right _ _)
      fun _ close opening => skipDelimited_fenced close opening
  | succ levels ih =>
    exact readDollar_fenced (fun _ _ _ _ => two_le_taken_readDelimited _ _ _ _ _)
      fun delimiter close opening =>
        readDelimited_fenced (readWithin_fits levels) ih close delimiter opening

end Reference

end RecipeLint

import Mathlib.Data.List.TakeDrop
import RecipeLint.Proofs.Reading.Fits
import RecipeLint.Reference.Read

/-!
# What is read is what was taken

Every reader of references fits its text, and what it reads has just the characters that it took.
-/

namespace RecipeLint

open Reading

def Reference.Spells (r : Reference) (s : Text) : Prop :=
  r.text = s ∧
    s = '$' :: r.delimiter.opening ++ r.varname ++ r.modifierText ++ r.delimiter.closing

def Reference.SpellsOptional : Option Reference → Text → Prop
  | none, s => s = []
  | some r, s => r.Spells s

/-- The reading of a dollar sign before a character that starts no reference. -/
def Reading.lone (c : Char) : Reading (Option Reference) :=
  ⟨1, [], .error ⟨.loneDollar c, .ofSize 1⟩⟩

/-- A reader of references that fits every text with a dollar sign in front, unless that starts
nothing. -/
def FitsDollar (nested : Reader (Option Reference)) : Prop :=
  ∀ rest, (nested ('$' :: rest)).Fits Reference.SpellsOptional ('$' :: rest) ∨
    ∃ c behind, rest = c :: behind ∧ nested ('$' :: rest) = lone c

section

variable {nested : Reader (Option Reference)} (h : FitsDollar nested) {rest : Text}

include h

theorem FitsDollar.fits_of_ok {r? : Option Reference}
    (hr : (nested ('$' :: rest)).outcome = .ok r?) :
    (nested ('$' :: rest)).Fits Reference.SpellsOptional ('$' :: rest) := by
  rcases h rest with hfits | ⟨c, behind, -, hlone⟩
  · exact hfits
  · simp [hlone, lone] at hr

theorem FitsDollar.fits_of_error {e : Located ReferenceFailure}
    (he : (nested ('$' :: rest)).outcome = .error e) (hne : ∀ c, e.value ≠ .loneDollar c) :
    (nested ('$' :: rest)).Fits Reference.SpellsOptional ('$' :: rest) := by
  rcases h rest with hfits | ⟨c, behind, -, hlone⟩
  · exact hfits
  · rw [hlone, lone, Except.error.injEq] at he
    exact absurd (congrArg Located.value he.symm) (hne c)

theorem FitsDollar.taken_pos {r : Reference}
    (hr : (nested ('$' :: rest)).outcome = .ok (some r)) : 0 < (nested ('$' :: rest)).taken := by
  obtain ⟨-, hs⟩ := (h.fits_of_ok hr).value _ hr
  rcases Nat.eq_zero_or_pos (nested ('$' :: rest)).taken with h0 | h0
  · simp [h0] at hs
  · exact h0

theorem FitsDollar.taken_of_none (hr : (nested ('$' :: rest)).outcome = .ok none) :
    (nested ('$' :: rest)).taken = 0 := by
  have hs : ('$' :: rest).take (nested ('$' :: rest)).taken = [] := (h.fits_of_ok hr).value _ hr
  simpa using hs

theorem FitsDollar.taken_of_lone {c : Char} {span : Span}
    (he : (nested ('$' :: rest)).outcome = .error ⟨.loneDollar c, span⟩) :
    (nested ('$' :: rest)).taken = 1 := by
  rcases h rest with hfits | ⟨d, behind, -, hlone⟩
  · exact absurd rfl ((hfits.failure _ he).1 c)
  · rw [hlone, lone]

end

theorem Text.cons_take_pred {n : Nat} (hn : 0 < n) (c : Char) (rest : Text) :
    c :: rest.take (n - 1) = (c :: rest).take n ∧ rest.drop (n - 1) = (c :: rest).drop n := by
  obtain ⟨m, rfl⟩ := Nat.exists_eq_add_one_of_ne_zero (Nat.ne_of_gt hn)
  exact ⟨rfl, rfl⟩

/-! ## Make text -/

theorem makeText_fits {nested : Reader (Option Reference)} (hnested : FitsDollar nested)
    (stop : Char → Bool) (pairs : Bool) (text : Text) :
    (makeText nested stop pairs text).Fits (fun v s => MakeText.source v = s) text := by
  fun_induction makeText nested stop pairs text with
  | case1 => exact .done rfl
  | case2 rest ih => exact ih.literal ['$', '$']
  | case3 rest hne inner reference hok ih =>
    obtain ⟨htake, hdrop⟩ := Text.cons_take_pred (hnested.taken_pos hok) '$' rest
    rw [htake]
    rw [hdrop] at ih ⊢
    have hfits : inner.Fits Reference.SpellsOptional ('$' :: rest) := hnested.fits_of_ok hok
    refine hfits.andThen (.map (ih.mono fun v s hv => ?_))
    obtain ⟨hspell, -⟩ := hfits.value _ hok
    simp [inner, Part.source, hspell, hv]
  | case4 rest _ _ _ ih => exact ih.literal ['$']
  | case5 rest _ _ _ _ _ ih => exact ih.literal ['$']
  | case6 rest _ inner failure hne hfailure =>
    have hfits : inner.Fits Reference.SpellsOptional ('$' :: rest) :=
      hnested.fits_of_error hfailure fun c hc => hne c failure.span (by rw [← hc])
    exact hfits.error hfailure
  | case7 | case10 => exact .done rfl
  | case8 c rest _ _ ih => exact ih.literal ['\\', c]
  | case9 c rest _ _ ih => exact ih.literal ['\\']
  | case11 c rest _ _ _ _ ih => exact ih.literal [c]

theorem Text.takeWhile_ne_append {c : Char} {text : Text} (h : c ∈ text) :
    text.takeWhile (· != c) ++ c :: (text.dropWhile (· != c)).drop 1 = text := by
  induction text with
  | nil => simp at h
  | cons d ds ih =>
    by_cases hd : d = c
    · simp [hd]
    · have hmem : c ∈ ds := by simpa [Ne.symm hd] using h
      simpa [hd] using ih hmem

theorem MakeText.source_of_cut? {c : Char} {text before behind : MakeText}
    (h : MakeText.cut? c text = some (before, behind)) :
    MakeText.source text = MakeText.source before ++ c :: MakeText.source behind := by
  fun_induction MakeText.cut? c text generalizing before with
  | case1 => simp at h
  | case2 chars parts hmem =>
    have hchars := Text.takeWhile_ne_append (List.contains_iff_mem.mp hmem)
    obtain ⟨rfl, rfl⟩ := Prod.mk.inj (Option.some.inj h)
    simp only [source_cons, Part.source, source_consLiteral, source_nil, List.append_nil]
    rw [← List.cons_append, ← List.append_assoc, hchars]
  | case3 chars parts hmem ih =>
    obtain ⟨⟨b, a⟩, hcut, heq⟩ := Option.map_eq_some_iff.mp h
    obtain ⟨rfl, rfl⟩ := Prod.mk.inj heq
    simp [ih hcut]
  | case4 part parts hpart ih =>
    obtain ⟨⟨b, a⟩, hcut, heq⟩ := Option.map_eq_some_iff.mp h
    obtain ⟨rfl, rfl⟩ := Prod.mk.inj heq
    simp [ih hcut]

/-! ## Modifiers -/

namespace Modifier

def optionalSource (m? : Option Modifier) : Text :=
  (m?.map source).getD []

theorem source_ne_nil (m : Modifier) : m.source ≠ [] := by
  cases m with
  | transform op => cases op <;> simp [source, WordTransform.letters]
  | assign op value => cases op <;> simp [source, Assigning.symbol]
  | _ => simp [source]

theorem failsIn_invalid (name taken : Text) : FailsIn (invalid name taken) taken :=
  ⟨fun c h => by simp [invalid] at h, Span.cuts_ofSize_self taken⟩

theorem optionalSource_of_general {name : Text} {text : MakeText} {m? : Option Modifier}
    (h : general name text = .ok m?) : optionalSource m? = MakeText.source text := by
  unfold general at h
  split at h
  case isTrue hempty =>
    obtain rfl : none = m? := by simpa using h
    simp [optionalSource, List.isEmpty_iff.mp hempty]
  case isFalse =>
    split at h
    case h_1 before behind hcut =>
      obtain rfl : some (Modifier.suffix before behind) = m? := by simpa using h
      simp [optionalSource, source, MakeText.source_of_cut? hcut]
    case h_2 => simp at h

theorem failsIn_of_general {name : Text} {text : MakeText} {e : Located ReferenceFailure}
    (h : general name text = .error e) : FailsIn e (MakeText.source text) := by
  unfold general at h
  split at h
  case isTrue => simp at h
  case isFalse =>
    split at h
    case h_1 => simp at h
    case h_2 =>
      obtain rfl : invalid name (MakeText.source text) = e := by simpa using h
      exact failsIn_invalid name _

theorem source_of_ofWord? {word : Text} {m : Modifier} (h : ofWord? word = some m) :
    m.source = word := by
  unfold ofWord? at h
  split at h
  case isTrue hq =>
    obtain rfl : quote = m := by simpa using h
    simp [source, hq]
  case isFalse =>
    obtain ⟨op, hop, rfl⟩ := Option.map_eq_some_iff.mp h
    exact WordTransform.letters_of_ofLetters? hop

theorem append_of_range? {text range : Text} (h : range? text = some range) :
    ∃ behind, text = range ++ ']' :: behind := by
  unfold range? at h
  extract_lets digits chosen at h
  have hchosen : text.take chosen.length = chosen := by
    by_cases hempty : digits.isEmpty
    · cases text with
      | nil => simp [chosen, digits]
      | cons c cs => by_cases hc : "#@*".toList.contains c <;> simp_all [chosen]
    · simp only [chosen, if_neg hempty, digits]
      exact (List.prefix_iff_eq_take.mp (List.takeWhile_prefix _)).symm
  split at h
  case h_1 c cs behind hrange hdrop =>
    obtain rfl := Option.some.inj h
    have htext := List.take_append_drop chosen.length text
    rw [hchosen, hdrop] at htext
    exact ⟨behind, htext.symm⟩
  case h_2 => simp at h

theorem append_of_loopVariable? {text loopVariable : Text}
    (h : loopVariable? text = some loopVariable) :
    ∃ behind, text = loopVariable ++ '@' :: behind := by
  unfold loopVariable? at h
  split at h
  case h_1 c cs behind hspan =>
    obtain rfl := Option.some.inj h
    rw [List.span_eq_takeWhile_dropWhile, Prod.mk.injEq] at hspan
    refine ⟨behind, ?_⟩
    rw [← hspan.1, ← hspan.2, List.takeWhile_append_dropWhile]
  case h_2 => simp at h

theorem append_of_assigning? {text : Text} {op : Assigning} (h : assigning? text = some op) :
    ∃ behind, text = op.symbol ++ behind := by
  have hprefix := List.find?_some h
  obtain ⟨behind, hbehind⟩ := List.isPrefixOf_iff_prefix.mp hprefix
  exact ⟨behind, hbehind.symm⟩

theorem cuts_of_separatorFindings {name taken : Text} {m : Modifier} {f : Finding}
    (hm : m.source = taken) (hf : f ∈ separatorFindings name m) : f.span.Cuts taken := by
  unfold separatorFindings at hf
  split at hf
  case h_1 chars =>
    split at hf
    case isTrue => simp at hf
    case isFalse =>
      obtain rfl := List.mem_singleton.mp hf
      exact hm ▸ Span.cuts_ofSize_self _
  case h_2 => simp at hf

theorem cuts_of_loopFindings {name taken : Text} {m : Modifier} {f : Finding}
    (hm : m.source = taken) (hf : f ∈ loopFindings name m) : f.span.Cuts taken := by
  unfold loopFindings at hf
  split at hf
  case h_1 loopVariable body =>
    obtain rfl := List.mem_singleton.mp hf
    exact hm ▸ Span.cuts_ofSize_self _
  case h_2 => simp at hf

section

variable {nested : Reader (Option Reference)} (hnested : FitsDollar nested) (close : Char)
  (name : Text)

include hnested

theorem readGeneral_fits (text : Text) :
    (readGeneral nested close name text).Fits (fun m? s => optionalSource m? = s) text :=
  (makeText_fits hnested _ _ text).judge
    (fun v w hv h => by rw [optionalSource_of_general h, hv])
    (fun v e hv h => hv ▸ failsIn_of_general h)

theorem readSeparator_fits (text : Text) :
    (readSeparator nested close text).Fits (fun m s => m.source = 't' :: 's' :: s) text := by
  refine (makeText_fits hnested _ _ text).followedBy fun v hv => ?_
  split
  case h_1 behind hsource hrest =>
    refine .take (by simp [hrest]) ?_
    simp [source, ← hv, hsource, hrest]
  case h_2 => exact .done (by simp [source, hv])

theorem separatorForm_fits (rest : Text) :
    (separatorForm nested close name rest).Fits (fun m? s => optionalSource m? = s)
      ('t' :: rest) := by
  unfold separatorForm
  split
  case h_1 behind =>
    have hread : ((readSeparator nested close behind).after ['t', 's']).Fits
        (fun m s => m.source = s) ('t' :: 's' :: behind) :=
      (readSeparator_fits hnested close behind).after ['t', 's']
    refine .map (Q := fun m? s => optionalSource m? = s)
      ((hread.noting fun m hm f hf => ?_).mono fun m s hm => hm)
    exact cuts_of_separatorFindings hm hf
  case h_2 => exact readGeneral_fits hnested close name _

theorem argumentForm_fits (letter : Char) (build : MakeText → Modifier)
    (hbuild : ∀ v, (build v).source = letter :: MakeText.source v) (rest : Text) :
    (((argument nested close true rest).map (some <| build ·)).after [letter]).Fits
      (fun m? s => optionalSource m? = s) (letter :: rest) := by
  refine Fits.after [letter] (.map ((makeText_fits hnested _ _ rest).mono fun v s hv => ?_))
  simp [optionalSource, hbuild, hv]

theorem readOld_fits (bound : Char) (text : Text) :
    (readOld nested close bound text).Fits (fun v s => MakeText.source v = s) text := by
  unfold readOld
  split
  case h_1 rest => exact (makeText_fits hnested _ _ rest).literal ['^']
  case h_2 => exact makeText_fits hnested _ _ _

theorem readSubstitution_fits {regex : Bool} {letter : Char}
    (hletter : (if regex then 'C' else 'S') = letter) (bound : Char) (text : Text) :
    (readSubstitution nested close regex bound text).Fits
      (fun m? s => ∀ m ∈ m?, m.source = letter :: bound :: s) text := by
  refine (readOld_fits hnested close bound text).followedBy fun old hold => ?_
  split
  case h_1 => exact .done (by simp)
  case h_2 c rest hrest =>
    split
    case isFalse => exact .done (by simp)
    case isTrue hc =>
      rw [hrest]
      refine Fits.after [c] ((makeText_fits hnested _ _ rest).followedBy fun new hnew => ?_)
      split
      case h_1 => exact .done (by simp)
      case h_2 d behind hbehind =>
        split
        case isFalse => exact .done (by simp)
        case isTrue hd =>
          rw [hbehind]
          have hflags := List.takeWhile_prefix (l := behind) isFlag
          refine .take ?_ ?_
          · have hle := hflags.length_le
            simp only [List.length_cons]
            omega
          · rintro m ⟨⟩
            have htake := (List.prefix_iff_eq_take.mp hflags).symm
            simp [source, hletter, hold, hnew, hc, hd, Nat.add_comm 1, htake]

theorem readLoop_fits (loopVariable text : Text) :
    (readLoop nested close loopVariable text).Fits
      (fun m s => m.source = '@' :: loopVariable ++ '@' :: s) text := by
  refine (makeText_fits hnested _ _ text).followedBy fun body hbody => ?_
  split
  case h_1 behind hrest =>
    refine .take (by simp [hrest]) ?_
    simp [source, hbody, hrest]
  case h_2 => exact .done (by simp [source, hbody])

def attemptSource : Modifier ⊕ MakeText → Text
  | .inl m => m.source
  | .inr text => MakeText.source text

theorem readChoice_fits (rest : Text) :
    (readChoice nested close name rest).Fits (fun m? s => optionalSource m? = s)
      ('?' :: rest) := by
  refine Fits.judge (P := fun x s => attemptSource x = s) ?_ (fun x m? hx hm => ?_)
    fun x e hx he => ?_
  · refine Fits.after ['?'] ((makeText_fits hnested _ _ rest).followedBy fun yes hyes => ?_)
    split
    case h_1 behind hrest =>
      rw [hrest]
      refine Fits.after [':'] (.map ((makeText_fits hnested _ _ behind).mono fun no s hno => ?_))
      simp [attemptSource, source, hyes, hno]
    case h_2 => exact .done (by simp [attemptSource, hyes])
  · cases x with
    | inl m =>
      obtain rfl : some m = m? := by simpa using hm
      exact hx
    | inr text => exact (optionalSource_of_general hm).trans hx
  · cases x with
    | inl m => simp at he
    | inr text => exact hx ▸ failsIn_of_general he

theorem readCommand_fits (rest : Text) :
    (readCommand nested close name rest).Fits (fun m? s => optionalSource m? = s)
      ('!' :: rest) := by
  refine Fits.judge (P := fun x s => attemptSource x = s) ?_ (fun x m? hx hm => ?_)
    fun x e hx he => ?_
  · refine Fits.after ['!'] ((makeText_fits hnested _ _ rest).followedBy fun command hcommand => ?_)
    split
    case h_1 behind hrest =>
      refine .take (by simp [hrest]) ?_
      simp [attemptSource, source, hcommand, hrest]
    case h_2 => exact .done (by simp [attemptSource, hcommand])
  · cases x with
    | inl m =>
      obtain rfl : some m = m? := by simpa using hm
      exact hx
    | inr text =>
      by_cases hcolon : MakeText.hasLiteral ':' text
      · simp [hcolon] at hm
      · exact (optionalSource_of_general (by simpa [hcolon] using hm)).trans hx
  · cases x with
    | inl m => simp at he
    | inr text =>
      by_cases hcolon : MakeText.hasLiteral ':' text
      · obtain rfl : invalid name (MakeText.source text) = e := by simpa [hcolon] using he
        exact hx ▸ failsIn_invalid name _
      · exact hx ▸ failsIn_of_general (by simpa [hcolon] using he)

theorem indexForm_fits (rest : Text) :
    (indexForm nested close name rest).Fits (fun m? s => optionalSource m? = s)
      ('[' :: rest) := by
  unfold indexForm
  split
  case h_1 range hrange =>
    obtain ⟨behind, rfl⟩ := append_of_range? hrange
    refine .take (by simp) ?_
    simp [optionalSource, source, List.take_append]
  case h_2 => exact readGeneral_fits hnested close name _

theorem loopForm_fits (rest : Text) :
    (loopForm nested close name rest).Fits (fun m? s => optionalSource m? = s)
      ('@' :: rest) := by
  unfold loopForm
  split
  case h_1 loopVariable hloop =>
    obtain ⟨behind, rfl⟩ := append_of_loopVariable? hloop
    have hdrop : (loopVariable ++ '@' :: behind).drop (loopVariable.length + 1) = behind := by
      simp [List.drop_append]
    rw [hdrop]
    have hread : ((readLoop nested close loopVariable behind).after
        ('@' :: loopVariable ++ ['@'])).Fits (fun m s => m.source = s)
        (('@' :: loopVariable ++ ['@']) ++ behind) :=
      .after _ ((readLoop_fits hnested close loopVariable behind).mono
        fun m s hm => by simp [hm])
    have htext : ('@' :: loopVariable ++ ['@']) ++ behind =
        '@' :: (loopVariable ++ '@' :: behind) := by simp
    rw [htext] at hread
    refine .map (Q := fun m? s => optionalSource m? = s)
      ((hread.noting fun m hm f hf => ?_).mono fun m s hm => hm)
    exact cuts_of_loopFindings hm hf
  case h_2 => exact readGeneral_fits hnested close name _

theorem assignForm_fits (rest : Text) :
    (assignForm nested close rest).Fits (fun m? s => optionalSource m? = s) (':' :: rest) := by
  unfold assignForm
  split
  case h_1 op hop =>
    obtain ⟨behind, hbehind⟩ := append_of_assigning? hop
    rw [hbehind, List.drop_left]
    refine Fits.after op.symbol (.map ((makeText_fits hnested _ _ behind).mono fun v s hv => ?_))
    simp [optionalSource, source, hv]
  case h_2 => exact .done rfl

theorem substitutionForm_fits {letter : Char} (hletter : letter = 'S' ∨ letter = 'C')
    (rest : Text) :
    (substitutionForm nested close name letter rest).Fits (fun m? s => optionalSource m? = s)
      (letter :: rest) := by
  unfold substitutionForm
  split
  case h_1 => exact readGeneral_fits hnested close name _
  case h_2 bound behind =>
    split
    case isTrue => exact readGeneral_fits hnested close name _
    case isFalse =>
      have hchosen : (if decide (letter = 'C') then 'C' else 'S') = letter := by
        rcases hletter with rfl | rfl <;> rfl
      have hread : ((readSubstitution nested close (letter = 'C') bound behind).after
          [letter, bound]).Fits (fun m? s => ∀ m ∈ m?, m.source = s) (letter :: bound :: behind) :=
        (readSubstitution_fits hnested close hchosen bound behind).after [letter, bound]
      refine hread.judge (fun m? w hm hw => ?_) fun m? e hm he => ?_
      · cases m? with
        | none => simp at hw
        | some m =>
          obtain rfl : some m = w := by simpa using hw
          exact hm m rfl
      · cases m? with
        | none =>
          obtain rfl : invalid name _ = e := by simpa using he
          exact failsIn_invalid name _
        | some m => simp at he

theorem readForm_fits (first : Char) (rest : Text) :
    (readForm nested close name first rest).Fits (fun m? s => optionalSource m? = s)
      (first :: rest) := by
  unfold readForm
  split
  case h_1 => exact argumentForm_fits hnested close 'M' (.select true) (fun _ => rfl) rest
  case h_2 => exact argumentForm_fits hnested close 'N' (.select false) (fun _ => rfl) rest
  case h_3 => exact argumentForm_fits hnested close 'D' .ifSet (fun _ => rfl) rest
  case h_4 => exact argumentForm_fits hnested close 'U' .ifUnset (fun _ => rfl) rest
  case h_5 => exact argumentForm_fits hnested close '=' (.suffix []) (fun _ => rfl) rest
  case h_6 => exact separatorForm_fits hnested close name rest
  case h_7 => exact readChoice_fits hnested close name rest
  case h_8 => exact readCommand_fits hnested close name rest
  case h_9 => exact indexForm_fits hnested close name rest
  case h_10 => exact loopForm_fits hnested close name rest
  case h_11 => exact assignForm_fits hnested close rest
  case h_12 => exact substitutionForm_fits hnested close name (.inl rfl) rest
  case h_13 => exact substitutionForm_fits hnested close name (.inr rfl) rest
  case h_14 => exact readGeneral_fits hnested close name _

theorem read_fits (text : Text) :
    (read nested close name text).Fits (fun m? s => optionalSource m? = s) text := by
  have hword := List.takeWhile_prefix (l := text) Char.isAlphanum
  unfold read
  extract_lets word
  split
  case h_1 m hm =>
    refine .take hword.length_le ?_
    simpa [optionalSource, source_of_ofWord? hm] using List.prefix_iff_eq_take.mp hword
  case h_2 => exact .done rfl
  case h_3 first rest _ => exact readForm_fits hnested close name first rest

theorem taken_of_none {c : Char} {rest : Text}
    (h : (read nested close name (c :: rest)).outcome = .ok none) :
    (read nested close name (c :: rest)).taken = 0 := by
  have hsource := (read_fits hnested close name (c :: rest)).value _ h
  simpa [optionalSource] using hsource.symm

theorem taken_pos_of_some {text : Text} {m : Modifier}
    (h : (read nested close name text).outcome = .ok (some m)) :
    0 < (read nested close name text).taken := by
  have hsource : m.source = text.take _ := (read_fits hnested close name text).value _ h
  apply Nat.pos_of_ne_zero
  intro hzero
  rw [hzero, List.take_zero] at hsource
  exact source_ne_nil m hsource

end

end Modifier

/-! ## References -/

theorem closeLength_le (stack : List Char) (text : Text) :
    closeLength stack text ≤ text.length := by
  fun_induction closeLength stack text with
  | case1 | case2 => exact Nat.zero_le _
  | case3 _ _ _ ih | case4 _ _ _ ih | case5 _ _ _ ih => exact Nat.add_le_add_right ih 2
  | case6 _ _ _ _ _ _ _ ih => exact Nat.add_le_add_right ih 1

namespace Reference

section

variable {nested : Reader (Option Reference)} (hnested : FitsDollar nested) (close : Char)

include hnested

theorem readChain_fits (name : Text) (mayJoin : Bool) (text : Text) :
    (readChain nested close name mayJoin text).Fits
      (fun chain s => chain.flatMap Link.source = s) text := by
  fun_induction readChain nested close name mayJoin text with
  | case1 | case5 | case7 => exact .done rfl
  | case2 mayJoin rest step failure hfailure =>
    exact .after [':'] ((Modifier.read_fits hnested close name rest).error hfailure)
  | case3 mayJoin rest step modifier? hok ih =>
    have hread := Modifier.read_fits hnested close name rest
    refine Fits.after [':'] (.map (hread.andThen (ih.mono fun chain s hchain => ?_)))
    have hsource := hread.value modifier? hok
    cases modifier? <;> simp_all [Link.ofColon, Link.source, Modifier.optionalSource, step]
  | case4 c rest _ step failure hfailure =>
    exact (Modifier.read_fits hnested close name (c :: rest)).error hfailure
  | case6 c rest _ step modifier hok ih =>
    have hread := Modifier.read_fits hnested close name (c :: rest)
    have hsource := hread.value (some modifier) hok
    have hpos : 0 < step.taken := Modifier.taken_pos_of_some hnested close name hok
    obtain ⟨htake, hdrop⟩ := Text.cons_take_pred hpos c rest
    rw [htake]
    rw [hdrop] at ih ⊢
    refine .map (hread.andThen (ih.mono fun chain s hchain => ?_))
    simp_all [Link.source, Modifier.optionalSource, step]

theorem readBody_fits (text : Text) :
    (readBody nested close text).Fits
      (fun body s => MakeText.source body.1 ++ body.2.flatMap Link.source = s) text := by
  refine (makeText_fits hnested _ _ text).followedBy fun name hname => .map ?_
  exact (readChain_fits hnested close _ _ _).mono fun chain s hchain => by rw [hname, hchain]

end

theorem append_splitName (text : MakeText) :
    (MakeText.splitName text).1 ++ (MakeText.splitName text).2 = MakeText.source text := by
  fun_induction MakeText.splitName text with
  | case1 => rfl
  | case2 chars parts _ _ valid invalid hsplit ih =>
    rw [hsplit] at ih
    simpa [Part.source] using ih
  | case3 chars parts valid invalid _ hspan =>
    rw [List.span_eq_takeWhile_dropWhile, Prod.mk.injEq] at hspan
    have hchars := List.takeWhile_append_dropWhile (p := isNameChar) (l := chars)
    rw [hspan.1, hspan.2] at hchars
    simp [Part.source, ← hchars]
  | case4 inner parts valid invalid hsplit ih =>
    rw [hsplit] at ih
    simpa [Part.source] using ih

theorem Spells.cuts_of_nameFindings {r : Reference} {s : Text} (h : r.Spells s) {f : Finding}
    (hf : f ∈ r.nameFindings) : f.span.Cuts s := by
  obtain ⟨-, rfl⟩ := h
  have hname := append_splitName r.name
  unfold nameFindings at hf
  split at hf
  case h_1 => simp at hf
  case h_2 valid invalid _ hsplit =>
    obtain rfl := List.mem_singleton.mp hf
    rw [hsplit] at hname
    have hsize : r.nameOffset + Text.byteSize valid =
        Text.byteSize ('$' :: r.delimiter.opening ++ valid) := by
      have hdollar : '$'.utf8Size = 1 := rfl
      simp only [nameOffset, List.cons_append, Text.byteSize_cons, Text.byteSize_append, hdollar]
      omega
    have hcut := (Span.cuts_ofSize invalid (r.modifierText ++ r.delimiter.closing)).shift
      ('$' :: r.delimiter.opening ++ valid)
    rw [hsize]
    simpa [varname, ← hname] using hcut

theorem Spells.cuts_of_styleFindings {r : Reference} {s : Text} (h : r.Spells s) {f : Finding}
    (hf : f ∈ r.styleFindings) : f.span.Cuts s := by
  unfold styleFindings at hf
  split at hf
  case isTrue =>
    obtain rfl := List.mem_singleton.mp hf
    exact h.1 ▸ Span.cuts_ofSize_self _
  case isFalse => simp at hf

theorem endDelimited_fits {delimiter : Delimiter} {opening close : Char}
    (hopening : delimiter.opening = [opening]) (hclosing : delimiter.closing = [close])
    {text : Text} {body : Reading (MakeText × List Link)}
    (hbody : body.Fits (fun b s =>
      s = '$' :: opening :: (MakeText.source b.1 ++ b.2.flatMap Link.source)) text) :
    (endDelimited close delimiter text body).Fits (fun r s => r.Spells s) text := by
  have hle := hbody.taken_le
  have hclose : body.taken + closeLength [close] (text.drop body.taken) ≤ text.length := by
    have h := closeLength_le [close] (text.drop body.taken)
    rw [List.length_drop] at h
    omega
  cases hok : body.outcome with
  | error failure =>
    simp only [endDelimited, hok]
    exact hbody.stop (Nat.le_add_right _ _) hclose
      ((hbody.failure failure hok).take_mono (Nat.le_add_right _ _))
  | ok b =>
    obtain ⟨name, chain⟩ := b
    have hwritten := hbody.value _ hok
    cases hrest : text.drop body.taken with
    | nil =>
      simp only [endDelimited, hok, hrest]
      refine hbody.stop (Nat.le_refl _) hle ?_
      rw [List.take_of_length_le (List.drop_eq_nil_iff.mp hrest)]
      exact ⟨fun c h => by simp at h, Span.cuts_ofSize_self text⟩
    | cons c rest =>
      by_cases hc : c = close
      · simp only [endDelimited, hok, hrest, if_pos hc]
        have htake : text.take (body.taken + 1) = text.take body.taken ++ [close] := by
          rw [List.take_add, hrest, hc]
          rfl
        have hspells : Spells ⟨delimiter, name, chain, text.take (body.taken + 1)⟩
            (text.take (body.taken + 1)) := by
          refine ⟨rfl, ?_⟩
          rw [htake, hwritten]
          simp [hopening, hclosing, varname, modifierText]
        have htaken : body.taken + 1 ≤ text.length := by
          have hlength := congrArg List.length hrest
          simp only [List.length_drop, List.length_cons] at hlength
          omega
        refine ⟨htaken, fun f hf => ?_, fun e he => by simp at he, fun r hr => ?_⟩
        · rcases List.mem_append.mp hf with hf | hf
          · rcases List.mem_append.mp hf with hf | hf
            · exact (hbody.findings f hf).take_mono (Nat.le_succ _)
            · exact hspells.cuts_of_nameFindings hf
          · exact hspells.cuts_of_styleFindings hf
        · obtain rfl := Except.ok.inj hr
          exact hspells
      · simp only [endDelimited, hok, hrest, if_neg hc]
        rw [hrest] at hclose
        refine hbody.stop (Nat.le_add_right _ _) hclose ?_
        rw [List.take_add, hrest]
        exact ⟨fun c h => by simp at h, (Span.cuts_ofSize_self _).shift _⟩

/-- A reference in delimiters is read with its delimiters, or taken up to the closing one. -/
theorem readDelimited_fits {nested : Reader (Option Reference)} (hnested : FitsDollar nested)
    {delimiter : Delimiter} {opening close : Char} (hopening : delimiter.opening = [opening])
    (hclosing : delimiter.closing = [close]) (rest : Text) :
    (readDelimited nested close delimiter ('$' :: opening :: rest)).Fits (fun r s => r.Spells s)
      ('$' :: opening :: rest) :=
  endDelimited_fits hopening hclosing (.after ['$', opening]
    ((readBody_fits hnested close rest).mono fun body s hs => by simp [hs]))

theorem skipDelimited_fits (opening close : Char) (rest : Text) :
    (skipDelimited close ('$' :: opening :: rest)).Fits (fun r s => r.Spells s)
      ('$' :: opening :: rest) := by
  have hle := closeLength_le [close] rest
  refine ⟨?_, fun f hf => by simp [skipDelimited] at hf, fun e he => ?_,
    fun r hr => by simp [skipDelimited] at hr⟩
  · simp only [skipDelimited, List.drop_succ_cons, List.drop_zero, List.length_cons]
    omega
  · obtain rfl := Except.error.inj he
    exact ⟨fun c h => by simp at h, Span.cuts_ofSize_self _⟩

theorem readBare_fits (c : Char) (rest : Text) :
    (readBare c rest).Fits SpellsOptional ('$' :: c :: rest) ∨ readBare c rest = lone c := by
  have hspells : Spells ⟨.bare, [.literal [c]], [], ['$', c]⟩ ['$', c] :=
    ⟨rfl, by simp [Delimiter.opening, Delimiter.closing, varname, modifierText, Part.source]⟩
  have htake : (Reading.take 2 (some (Reference.mk .bare [.literal [c]] [] ['$', c]))).Fits
      SpellsOptional ('$' :: c :: rest) :=
    .take (by simp) hspells
  unfold readBare
  extract_lets r
  split
  case isTrue =>
    refine .inl (htake.found fun f hf => ?_)
    obtain rfl := List.mem_singleton.mp hf
    exact Span.cuts_ofSize ['$', c] []
  case isFalse =>
    split
    case isTrue => exact .inl htake
    case isFalse => exact .inr rfl

theorem readDollar_fits {delimited : Delimiter → Char → Reader Reference}
    (hbraces : ∀ rest, (delimited .braces '\x7d' ('$' :: '\x7b' :: rest)).Fits
      (fun r s => r.Spells s) ('$' :: '\x7b' :: rest))
    (hparentheses : ∀ rest, (delimited .parentheses ')' ('$' :: '(' :: rest)).Fits
      (fun r s => r.Spells s) ('$' :: '(' :: rest)) :
    FitsDollar (readDollar delimited) := by
  intro rest
  unfold readDollar
  split
  case h_1 | h_5 => exact .inl (.done rfl)
  case h_2 behind heq =>
    rw [heq]
    exact .inl (.map (hbraces behind))
  case h_3 behind heq =>
    rw [heq]
    exact .inl (.map (hparentheses behind))
  case h_4 c behind _ _ _ heq =>
    obtain rfl := (List.cons.inj heq).2
    rcases readBare_fits c behind with hfits | hlone
    · exact .inl hfits
    · exact .inr ⟨c, behind, rfl, hlone⟩

/-- However deep references may be nested, reading one stays within the text and yields the
characters that it took. -/
theorem readWithin_fits (levels : Nat) : FitsDollar (readWithin levels) := by
  induction levels with
  | zero => exact readDollar_fits (skipDelimited_fits _ _) (skipDelimited_fits _ _)
  | succ levels ih =>
    exact readDollar_fits (fun rest => readDelimited_fits ih rfl rfl rest)
      (fun rest => readDelimited_fits ih rfl rfl rest)

theorem taken_le_read (rest : Text) :
    (read ('$' :: rest)).taken ≤ ('$' :: rest).length := by
  rcases readWithin_fits maxNesting rest with hfits | ⟨c, behind, rfl, hlone⟩
  · exact hfits.taken_le
  · simp [read, hlone, lone]

/-! ## Progress -/

theorem le_taken_endDelimited (close : Char) (delimiter : Delimiter) (text : Text)
    (body : Reading (MakeText × List Link)) :
    body.taken ≤ (endDelimited close delimiter text body).taken := by
  unfold endDelimited
  extract_lets rest toClose
  split
  case h_1 => exact Nat.le_add_right _ _
  case h_2 name chain _ =>
    cases hrest : rest with
    | nil => exact Nat.le_refl _
    | cons c behind =>
      dsimp only
      split
      case isTrue => exact Nat.le_succ _
      case isFalse => exact Nat.le_add_right _ _

theorem two_le_taken_readDelimited (nested : Reader (Option Reference)) (close opening : Char)
    (delimiter : Delimiter) (rest : Text) :
    2 ≤ (readDelimited nested close delimiter ('$' :: opening :: rest)).taken := by
  refine Nat.le_trans ?_ (le_taken_endDelimited _ _ _ _)
  simp [Reading.after]

def TakesOpening (delimited : Delimiter → Char → Reader Reference) : Prop :=
  ∀ delimiter close opening rest, 2 ≤ (delimited delimiter close ('$' :: opening :: rest)).taken

theorem takesOpening_readWithin (levels : Nat) :
    ∃ delimited, TakesOpening delimited ∧ readWithin levels = readDollar delimited := by
  cases levels with
  | zero => exact ⟨_, fun _ _ _ _ => Nat.le_add_right _ _, rfl⟩
  | succ levels => exact ⟨_, fun _ _ _ _ => two_le_taken_readDelimited _ _ _ _ _, rfl⟩

theorem taken_pos_readWithin (levels : Nat) (text : Text)
    (h : (readWithin levels text).outcome ≠ .ok none) : 0 < (readWithin levels text).taken := by
  obtain ⟨delimited, hopening, heq⟩ := takesOpening_readWithin levels
  rw [heq] at h ⊢
  unfold readDollar at h ⊢
  split
  case h_1 | h_5 => simp [Reading.done] at h
  case h_2 => exact Nat.lt_of_lt_of_le Nat.two_pos (hopening _ _ _ _)
  case h_3 => exact Nat.lt_of_lt_of_le Nat.two_pos (hopening _ _ _ _)
  case h_4 c rest _ _ _ =>
    unfold readBare
    extract_lets r
    split
    case isTrue => exact Nat.two_pos
    case isFalse =>
      split
      case isTrue => exact Nat.two_pos
      case isFalse => exact Nat.one_pos

end Reference

end RecipeLint

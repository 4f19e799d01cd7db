import Mathlib.Data.List.TakeWhile
import RecipeLint.Proofs.Reading.Lookahead
import RecipeLint.Proofs.Reading.Scan

/-!
# Readers that keep pace

In a text without backslashes, make text, modifiers and whole chains of them keep pace with the
scan for the delimiter that closes them, if the references in them do.  There is one exception: a
substitution may take a dollar sign for its separator that starts something for the scan.
-/

namespace RecipeLint

open Reading

/-- A reader of references keeps pace, and it takes a dollar sign alone only if that is one. -/
def DollarKeepsPace (lost : Text → Nat → Located ReferenceFailure → Prop) (close : Char)
    (nested : Reader (Option Reference)) : Prop :=
  ∀ rest, '\\' ∉ rest → (∀ behind, rest ≠ '$' :: behind) →
    (nested ('$' :: rest)).KeepsPace lost close ('$' :: rest) ∧
      ((nested ('$' :: rest)).taken ≤ 1 → Passes close ('$' :: rest) 1)

section

variable {lost : Text → Nat → Located ReferenceFailure → Prop} {close : Char}
  {nested : Reader (Option Reference)} (hfits : FitsDollar nested)
  (hnested : DollarKeepsPace lost close nested)

include hfits hnested

/-! ## Make text -/

theorem makeText_keepsPace {stop : Char → Bool} (hstop : stop close) (pairs : Bool) {text : Text}
    (hbackslash : '\\' ∉ text) :
    (makeText nested stop pairs text).KeepsPace lost close text := by
  fun_induction makeText nested stop pairs text with
  | case1 => exact .done _
  | case2 rest ih =>
    simp only [List.mem_cons, not_or] at hbackslash
    exact (ih hbackslash.2.2).literal ['$', '$'] (Passes.pair rest)
  | case3 rest hne inner reference hok ih =>
    simp only [List.mem_cons, not_or] at hbackslash
    obtain ⟨hkeeps, -⟩ := hnested rest hbackslash.2 hne
    obtain ⟨htake, hdrop⟩ := Text.cons_take_pred (hfits.taken_pos hok) '$' rest
    rw [htake]
    rw [hdrop] at ih ⊢
    have hrest : '\\' ∉ ('$' :: rest).drop inner.taken := by
      intro hmem
      have hmem := List.mem_of_mem_drop hmem
      simp only [List.mem_cons] at hmem
      exact hmem.elim hbackslash.1 hbackslash.2
    exact .andThen (hkeeps.passes hok) ((ih hrest).map _)
  | case4 rest hne inner hok ih =>
    simp only [List.mem_cons, not_or] at hbackslash
    have hzero : inner.taken = 0 := hfits.taken_of_none hok
    have hpass := (hnested rest hbackslash.2 hne).2 (show inner.taken ≤ 1 by omega)
    exact (ih hbackslash.2).literal ['$'] hpass
  | case5 rest hne inner next span hlone ih =>
    simp only [List.mem_cons, not_or] at hbackslash
    have hone : inner.taken = 1 := hfits.taken_of_lone hlone
    have hpass := (hnested rest hbackslash.2 hne).2 (show inner.taken ≤ 1 by omega)
    exact (ih hbackslash.2).literal ['$'] hpass
  | case6 rest hne inner failure hnotlone hfailure =>
    simp only [List.mem_cons, not_or] at hbackslash
    exact (hnested rest hbackslash.2 hne).1.error hfailure _
  | case7 c rest hs => simp at hbackslash
  | case8 c rest hs hp ih => simp at hbackslash
  | case9 c rest hs hp ih => simp at hbackslash
  | case10 => exact .done _
  | case11 c rest _ hdollar hcases hc ih =>
    simp only [List.mem_cons, not_or] at hbackslash
    have hne : c ≠ close := by
      rintro rfl
      exact hc hstop
    exact (ih hbackslash.2).literal [c] (Passes.cons hdollar hne rest)

end

theorem not_mem_drop {c : Char} {text : Text} (h : c ∉ text) (n : Nat) : c ∉ text.drop n :=
  fun hmem => h (List.mem_of_mem_drop hmem)

def Reading.NotBefore {α : Type} (c : Char) (text : Text) (r : Reading α) : Prop :=
  ∀ v, r.outcome = .ok v → ∀ rest, text.drop r.taken ≠ c :: rest

theorem Reading.NotBefore.map {α β : Type} {c : Char} {text : Text} {r : Reading α} (f : α → β)
    (h : r.NotBefore c text) : (r.map f).NotBefore c text := by
  intro w hw
  obtain ⟨v, hv, -⟩ := outcome_map_eq_ok_iff.mp hw
  exact h v hv

theorem Reading.NotBefore.after {α : Type} {c : Char} {text : Text} {r : Reading α} (front : Text)
    (h : r.NotBefore c text) : (r.after front).NotBefore c (front ++ text) := by
  intro v hv rest
  rw [taken_after, List.drop_length_add_append]
  exact h v (outcome_after_eq_ok_iff.mp hv) rest

/-- Make text takes every dollar sign that it comes to. -/
theorem makeText_notBefore (nested : Reader (Option Reference)) (stop : Char → Bool)
    (pairs : Bool) (text : Text) :
    (makeText nested stop pairs text).NotBefore '$' text := by
  fun_induction makeText nested stop pairs text with
  | case1 => simp [Reading.NotBefore]
  | case2 behind ih => exact (ih.map _).after ['$', '$']
  | case3 behind hne inner reference hok ih =>
    have hafter := (ih.map (Part.reference reference :: ·)).after
      ('$' :: behind.take (inner.taken - 1))
    rwa [List.cons_append, List.take_append_drop] at hafter
  | case4 behind _ _ _ ih => exact (ih.map _).after ['$']
  | case5 behind _ _ _ _ _ ih => exact (ih.map _).after ['$']
  | case6 => simp [Reading.NotBefore]
  | case7 => simp [Reading.NotBefore, Reading.done]
  | case8 c behind _ _ ih => exact (ih.map _).after ['\\', c]
  | case9 c behind _ _ ih => exact (ih.map _).after ['\\']
  | case10 c behind _ hdollar =>
    intro v hv rest heq
    exact hdollar (List.cons.inj heq).1
  | case11 c behind _ _ _ _ ih => exact (ih.map _).after [c]

/-! ## Modifiers -/

namespace Modifier

/-- A substitution fails that has a dollar sign for its separator, though the dollar sign starts
something together with what is behind it. From behind the dollar sign on, it keeps pace. -/
inductive Misreads (nested : Reader (Option Reference)) (close : Char) :
    Text → Nat → Located ReferenceFailure → Prop
  | dollar {name : Text} {letter c : Char} {behind : Text} {count : Nat}
      {failure : Located ReferenceFailure} (hletter : letter = 'S' ∨ letter = 'C')
      (hc : c = '$' ∨ c = '\x7b' ∨ c = '(')
      (htaken : (substitutionForm nested close name letter ('$' :: c :: behind)).taken = 2 + count)
      (houtcome : (substitutionForm nested close name letter ('$' :: c :: behind)).outcome =
        .error failure)
      (hpasses : Passes close (c :: behind) count) :
      Misreads nested close (letter :: '$' :: c :: behind) (2 + count) failure

theorem isInert_of {p : Char → Bool} (hp : ['$', '\x7d', ')'].any p = false) {c : Char}
    (hc : p c) : isInert c := by
  rw [List.any_eq_false] at hp
  have hother : ∀ d ∈ ['$', '\x7d', ')'], c ≠ d := fun d hd hcd => hp d hd (hcd ▸ hc)
  rw [isInert_iff]
  exact ⟨hother _ (by simp), hother _ (by simp), hother _ (by simp)⟩

theorem inert_of_range? {text range : Text} (h : range? text = some range) :
    range.all isInert := by
  unfold range? at h
  extract_lets digits chosen at h
  have hchosen : chosen.all isInert := by
    rw [List.all_eq_true]
    intro c hc
    by_cases hempty : digits.isEmpty
    · simp only [chosen, if_pos hempty] at hc
      exact isInert_of (by decide) (List.mem_filter.mp hc).2
    · simp only [chosen, if_neg hempty] at hc
      exact isInert_of (by decide) (List.mem_takeWhile_imp hc)
  split at h
  case h_1 => exact Option.some.inj h ▸ hchosen
  case h_2 => simp at h

theorem inert_of_loopVariable? {text loopVariable : Text}
    (h : loopVariable? text = some loopVariable) : loopVariable.all isInert := by
  unfold loopVariable? at h
  split at h
  case h_1 c cs behind hspan =>
    rw [List.span_eq_takeWhile_dropWhile, Prod.mk.injEq] at hspan
    rw [List.all_eq_true]
    intro d hd
    rw [← Option.some.inj h, ← hspan.1] at hd
    exact isInert_of (by decide) (List.mem_takeWhile_imp hd)
  case h_2 => simp at h

section

variable {lost : Text → Nat → Located ReferenceFailure → Prop} {opening close : Char}
  {nested : Reader (Option Reference)} (hopens : Opens opening close) (hfits : FitsDollar nested)
  (hnested : DollarKeepsPace lost close nested) (name : Text)

include hopens hfits hnested

omit hopens in
theorem argument_keepsPace (pairs : Bool) {text : Text} (hbackslash : '\\' ∉ text) :
    (argument nested close pairs text).KeepsPace lost close text :=
  makeText_keepsPace hfits hnested (by simp) pairs hbackslash

omit hopens in
theorem readGeneral_keepsPace {text : Text} (hbackslash : '\\' ∉ text) :
    (readGeneral nested close name text).KeepsPace lost close text :=
  (argument_keepsPace hfits hnested false hbackslash).judge _

theorem readSeparator_keepsPace {text : Text} (hbackslash : '\\' ∉ text) :
    (readSeparator nested close text).KeepsPace lost close text := by
  refine .followedBy (argument_keepsPace hfits hnested false hbackslash) fun value _ => ?_
  split
  case h_1 rest hsource hrest =>
    rw [hrest]
    exact .take _ (Passes.inert hopens [':'] (by decide) rest)
  case h_2 => exact .done _

theorem separatorForm_keepsPace {rest : Text} (hbackslash : '\\' ∉ 't' :: rest) :
    (separatorForm nested close name rest).KeepsPace lost close ('t' :: rest) := by
  unfold separatorForm
  split
  case h_1 behind =>
    simp only [List.mem_cons, not_or] at hbackslash
    have hread := readSeparator_keepsPace hopens hfits hnested hbackslash.2.2
    exact ((hread.after ['t', 's'] (Passes.inert hopens _ (by decide) behind)).noting _).map _
  case h_2 => exact readGeneral_keepsPace hfits hnested name hbackslash

theorem argumentForm_keepsPace {letter : Char} (hletter : isInert letter)
    (build : MakeText → Option Modifier) {rest : Text} (hbackslash : '\\' ∉ rest) :
    (((argument nested close true rest).map build).after [letter]).KeepsPace lost close
      (letter :: rest) := by
  have hread := argument_keepsPace hfits hnested true hbackslash
  have hfront : [letter].all isInert := by rw [List.all_cons, hletter, List.all_nil, Bool.and_true]
  exact (hread.map build).after [letter] (Passes.inert hopens _ hfront rest)

theorem readChoice_keepsPace {text : Text} (hbackslash : '\\' ∉ text) :
    (readChoice nested close name text).KeepsPace lost close ('?' :: text) := by
  have hyes := argument_keepsPace hfits hnested false hbackslash
  refine ((hyes.followedBy fun yes _ => ?_).after ['?']
    (Passes.inert hopens _ (by decide) text)).judge _
  have hrest := not_mem_drop hbackslash (argument nested close false text).taken
  split
  case h_1 rest heq =>
    rw [heq, List.mem_cons, not_or] at hrest
    rw [heq]
    exact ((argument_keepsPace hfits hnested false hrest.2).map _).after [':']
      (Passes.inert hopens _ (by decide) rest)
  case h_2 => exact .done _

theorem readCommand_keepsPace {text : Text} (hbackslash : '\\' ∉ text) :
    (readCommand nested close name text).KeepsPace lost close ('!' :: text) := by
  have hcommand : (makeText nested (fun c => c == '!' || c == close) false text).KeepsPace lost
      close text := makeText_keepsPace hfits hnested (by simp) false hbackslash
  refine ((hcommand.followedBy fun command _ => ?_).after ['!']
    (Passes.inert hopens _ (by decide) text)).judge _
  split
  case h_1 rest heq =>
    rw [heq]
    exact .take _ (Passes.inert hopens ['!'] (by decide) rest)
  case h_2 => exact .done _

theorem indexForm_keepsPace {rest : Text} (hbackslash : '\\' ∉ '[' :: rest) :
    (indexForm nested close name rest).KeepsPace lost close ('[' :: rest) := by
  unfold indexForm
  split
  case h_1 range hrange =>
    obtain ⟨behind, rfl⟩ := append_of_range? hrange
    have hpasses : Passes close ('[' :: range ++ [']'] ++ behind) ('[' :: range ++ [']']).length := by
      refine Passes.inert hopens _ ?_ behind
      rw [List.cons_append, List.all_cons, List.all_append, inert_of_range? hrange]
      rfl
    rw [List.append_assoc, List.cons_append, List.singleton_append] at hpasses
    refine .take _ ?_
    simpa using hpasses
  case h_2 => exact readGeneral_keepsPace hfits hnested name hbackslash

theorem readLoop_keepsPace (loopVariable : Text) {text : Text} (hbackslash : '\\' ∉ text) :
    (readLoop nested close loopVariable text).KeepsPace lost close text := by
  have hbody : (makeText nested (fun c => c == '@' || c == close) true text).KeepsPace lost
      close text := makeText_keepsPace hfits hnested (by simp) true hbackslash
  refine hbody.followedBy fun body _ => ?_
  split
  case h_1 rest heq =>
    rw [heq]
    exact .take _ (Passes.inert hopens ['@'] (by decide) rest)
  case h_2 => exact .done _

theorem loopForm_keepsPace {rest : Text} (hbackslash : '\\' ∉ '@' :: rest) :
    (loopForm nested close name rest).KeepsPace lost close ('@' :: rest) := by
  unfold loopForm
  split
  case h_1 loopVariable hloop =>
    have hinert := inert_of_loopVariable? hloop
    obtain ⟨behind, rfl⟩ := append_of_loopVariable? hloop
    have hdrop : (loopVariable ++ '@' :: behind).drop (loopVariable.length + 1) = behind := by
      simp [List.drop_append]
    have hpasses : Passes close ('@' :: loopVariable ++ ['@'] ++ behind)
        ('@' :: loopVariable ++ ['@']).length := by
      refine Passes.inert hopens _ ?_ behind
      rw [List.cons_append, List.all_cons, List.all_append, hinert]
      rfl
    have hbehind : '\\' ∉ behind := fun hmem => hbackslash (by simp [hmem])
    have hread := ((readLoop_keepsPace hopens hfits hnested loopVariable hbehind).after _
      hpasses).noting (loopFindings name)
    rw [hdrop]
    simpa using hread.map some
  case h_2 => exact readGeneral_keepsPace hfits hnested name hbackslash

theorem assignForm_keepsPace {rest : Text} (hbackslash : '\\' ∉ rest) :
    (assignForm nested close rest).KeepsPace lost close (':' :: rest) := by
  unfold assignForm
  split
  case h_1 op hop =>
    obtain ⟨behind, hbehind⟩ := append_of_assigning? hop
    have hrest : '\\' ∉ behind := by
      intro hmem
      have hmem : '\\' ∈ ':' :: rest := hbehind ▸ List.mem_append_right _ hmem
      exact hbackslash ((List.mem_cons.mp hmem).resolve_left (by decide))
    rw [hbehind, List.drop_left]
    refine ((argument_keepsPace hfits hnested true hrest).map _).after op.symbol
      (Passes.inert hopens _ ?_ behind)
    cases op <;> decide
  case h_2 => exact .done _

theorem readOld_keepsPace (bound : Char) {text : Text} (hbackslash : '\\' ∉ text) :
    (readOld nested close bound text).KeepsPace lost close text := by
  unfold readOld
  split
  case h_1 rest =>
    simp only [List.mem_cons, not_or] at hbackslash
    have hhalf : (readHalf nested close bound rest).KeepsPace lost close rest :=
      makeText_keepsPace hfits hnested (by simp) true hbackslash.2
    exact hhalf.literal ['^'] (Passes.inert hopens _ (by decide) rest)
  case h_2 => exact makeText_keepsPace hfits hnested (by simp) true hbackslash

omit hopens hfits hnested in
theorem readOld_notBefore (bound : Char) (text : Text) :
    (readOld nested close bound text).NotBefore '$' text := by
  unfold readOld
  split
  case h_1 rest => exact ((makeText_notBefore nested _ _ rest).map _).after ['^']
  case h_2 => exact makeText_notBefore nested _ _ _

/-- Whatever separates its parts, a substitution keeps pace behind its first separator. -/
theorem readSubstitution_keepsPace (regex : Bool) {bound : Char} (hbound : bound ≠ close)
    {text : Text} (hbackslash : '\\' ∉ text) :
    (readSubstitution nested close regex bound text).KeepsPace lost close text := by
  refine (readOld_keepsPace hopens hfits hnested bound hbackslash).followedBy fun old hok => ?_
  have hnot := readOld_notBefore bound text old hok
  have hrest := not_mem_drop hbackslash (readOld nested close bound text).taken
  split
  case h_1 => exact .done _
  case h_2 c rest heq =>
    rw [heq] at hnot hrest ⊢
    simp only [List.mem_cons, not_or] at hrest
    by_cases hc : c = bound
    · rw [if_pos hc]
      subst hc
      have hdollar : c ≠ '$' := by
        rintro rfl
        exact hnot rest rfl
      have hhalf : (readHalf nested close c rest).KeepsPace lost close rest :=
        makeText_keepsPace hfits hnested (by simp) true hrest.2
      refine (hhalf.followedBy fun new hnew => ?_).after [c] (Passes.cons hdollar hbound rest)
      split
      case h_1 => exact .done _
      case h_2 d behind hbehind =>
        by_cases hd : d = c
        · rw [if_pos hd, hbehind, hd]
          have hflags : Passes close ((c :: behind.takeWhile isFlag) ++ behind.dropWhile isFlag)
              (c :: behind.takeWhile isFlag).length := by
            refine Passes.append (fun x hx => ?_) _
            rcases List.mem_cons.mp hx with rfl | hx
            · exact ⟨hdollar, hbound⟩
            · have hx := List.mem_takeWhile_imp hx
              refine ⟨?_, ?_⟩
              · rintro rfl
                exact absurd hx (by decide)
              · rintro rfl
                cases hopens <;> exact absurd hx (by decide)
          rw [List.cons_append, List.takeWhile_append_dropWhile, List.length_cons,
            Nat.add_comm] at hflags
          exact .take _ hflags
        · rw [if_neg hd]
          exact .done _
    · rw [if_neg hc]
      exact .done _

omit hopens hfits hnested in
/-- A dollar sign never separates the parts of a substitution. -/
theorem readSubstitution_dollar (regex : Bool) (text : Text) (modifier : Modifier) :
    (readSubstitution nested close regex '$' text).outcome ≠ .ok (some modifier) := by
  intro hok
  unfold readSubstitution Reading.followedBy at hok
  split at hok
  case h_1 => simp at hok
  case h_2 old hold =>
    have hnot := readOld_notBefore '$' text old hold
    dsimp only at hok
    split at hok
    case h_1 => simp [Reading.andThen, Reading.done] at hok
    case h_2 c rest heq =>
      have hc : c ≠ '$' := by
        rintro rfl
        exact hnot rest heq
      simp [hc, Reading.andThen, Reading.done] at hok

variable (hlost : ∀ behind taken failure, Misreads nested close behind taken failure →
  lost behind taken failure)

include hlost

/-- With a dollar sign for its separator, a substitution fails. It has kept pace if the scan finds
nothing in the dollar sign, else it misreads it. -/
theorem substitutionForm_dollar_keepsPace {letter : Char} (hletter : letter = 'S' ∨ letter = 'C')
    {behind : Text} (hbackslash : '\\' ∉ behind) :
    (substitutionForm nested close name letter ('$' :: behind)).KeepsPace lost close
      (letter :: '$' :: behind) := by
  have hclose : '$' ≠ close := by cases hopens <;> decide
  have hinert : letter ≠ '$' ∧ letter ≠ close := by
    rcases hletter with rfl | rfl <;> cases hopens <;> decide
  have hread := readSubstitution_keepsPace hopens hfits hnested (letter = 'C') hclose hbackslash
  have hnone (modifier : Modifier) :
      (readSubstitution nested close (letter = 'C') '$' behind).outcome ≠ .ok (some modifier) :=
    readSubstitution_dollar _ _ _
  have hseparator : ¬('$' = close ∨ '$' = '\\') := not_or.mpr ⟨hclose, by decide⟩
  rcases hread with hpasses | hloses
  · by_cases hstart : ∃ c rest, behind = c :: rest ∧ (c = '$' ∨ c = '\x7b' ∨ c = '(')
    · obtain ⟨c, rest, rfl, hc⟩ := hstart
      obtain ⟨failure, hfailure⟩ : ∃ failure,
          (substitutionForm nested close name letter ('$' :: c :: rest)).outcome =
            .error failure := by
        rw [substitutionForm, if_neg hseparator]
        dsimp only [Reading.judge, Reading.after]
        cases hok : (readSubstitution nested close (letter = 'C') '$' (c :: rest)).outcome with
        | error e => exact ⟨_, rfl⟩
        | ok modifier? =>
          cases modifier? with
          | none => exact ⟨_, rfl⟩
          | some modifier => exact absurd hok (hnone modifier)
      have htaken : (substitutionForm nested close name letter ('$' :: c :: rest)).taken =
          2 + (readSubstitution nested close (letter = 'C') '$' (c :: rest)).taken := by
        rw [substitutionForm, if_neg hseparator]
        rfl
      refine .inr ⟨[], _, _, failure, rfl,
        hlost _ _ _ (.dollar hletter hc htaken hfailure hpasses), ?_, ?_⟩
      · rw [htaken, List.length_nil, Nat.zero_add]
      · rw [hfailure]
        rfl
    · have hdollar : Passes close ('$' :: behind) 1 :=
        .dollar hclose (fun rest h => hstart ⟨_, rest, h, .inl rfl⟩)
          (fun rest h => hstart ⟨_, rest, h, .inr (.inl rfl)⟩)
          (fun rest h => hstart ⟨_, rest, h, .inr (.inr rfl)⟩)
      have hfront : Passes close ([letter, '$'] ++ behind) 2 :=
        (Passes.cons hinert.1 hinert.2 _).trans hdollar
      rw [substitutionForm, if_neg hseparator]
      exact (KeepsPace.after [letter, '$'] hfront (.inl hpasses)).judge _
  · rw [substitutionForm, if_neg hseparator]
    exact KeepsPace.judge _ (.inr (hloses.after [letter, '$']))

theorem substitutionForm_keepsPace {letter : Char} (hletter : letter = 'S' ∨ letter = 'C')
    {rest : Text} (hbackslash : '\\' ∉ letter :: rest) :
    (substitutionForm nested close name letter rest).KeepsPace lost close (letter :: rest) := by
  have hgeneral := readGeneral_keepsPace hfits hnested name hbackslash
  cases rest with
  | nil => exact hgeneral
  | cons bound behind =>
    have hbehind : '\\' ∉ behind := fun hmem => hbackslash (by simp [hmem])
    by_cases hbound : bound = close ∨ bound = '\\'
    · rw [substitutionForm, if_pos hbound]
      exact hgeneral
    · obtain ⟨hclose, -⟩ := not_or.mp hbound
      by_cases hdollar : bound = '$'
      · subst hdollar
        exact substitutionForm_dollar_keepsPace hopens hfits hnested name hlost hletter hbehind
      · have hinert : letter ≠ '$' ∧ letter ≠ close := by
          rcases hletter with rfl | rfl <;> cases hopens <;> decide
        have hfront : Passes close ([letter, bound] ++ behind) 2 :=
          (Passes.cons hinert.1 hinert.2 _).trans (Passes.cons hdollar hclose behind)
        have hread :=
          readSubstitution_keepsPace hopens hfits hnested (letter = 'C') hclose hbehind
        rw [substitutionForm, if_neg hbound]
        exact (hread.after [letter, bound] hfront).judge _

theorem readForm_keepsPace (first : Char) {rest : Text} (hbackslash : '\\' ∉ first :: rest) :
    (readForm nested close name first rest).KeepsPace lost close (first :: rest) := by
  have hrest : '\\' ∉ rest := fun hmem => hbackslash (List.mem_cons_of_mem first hmem)
  unfold readForm
  split
  case h_1 | h_2 | h_3 | h_4 | h_5 =>
    exact argumentForm_keepsPace hopens hfits hnested (by decide) _ hrest
  case h_6 => exact separatorForm_keepsPace hopens hfits hnested name hbackslash
  case h_7 => exact readChoice_keepsPace hopens hfits hnested name hrest
  case h_8 => exact readCommand_keepsPace hopens hfits hnested name hrest
  case h_9 => exact indexForm_keepsPace hopens hfits hnested name hbackslash
  case h_10 => exact loopForm_keepsPace hopens hfits hnested name hbackslash
  case h_11 => exact assignForm_keepsPace hopens hfits hnested hrest
  case h_12 => exact substitutionForm_keepsPace hopens hfits hnested name hlost (.inl rfl) hbackslash
  case h_13 => exact substitutionForm_keepsPace hopens hfits hnested name hlost (.inr rfl) hbackslash
  case h_14 => exact readGeneral_keepsPace hfits hnested name hbackslash

theorem read_keepsPace {text : Text} (hbackslash : '\\' ∉ text) :
    (read nested close name text).KeepsPace lost close text := by
  unfold read
  extract_lets word
  cases hm : ofWord? word with
  | some modifier =>
    have hinert : word.all isInert := by
      rw [List.all_eq_true]
      exact fun c hc => isInert_of (by decide) (List.mem_takeWhile_imp hc)
    have hword : Passes close (word ++ text.dropWhile Char.isAlphanum) word.length :=
      Passes.inert hopens _ hinert _
    rw [List.takeWhile_append_dropWhile] at hword
    exact .take _ hword
  | none =>
    cases text with
    | nil => exact .done _
    | cons first rest =>
      exact readForm_keepsPace hopens hfits hnested name hlost first hbackslash

end

end Modifier

/-! ## Chains -/

namespace Reference

section

variable {lost : Text → Nat → Located ReferenceFailure → Prop} {opening close : Char}
  {nested : Reader (Option Reference)} (hopens : Opens opening close) (hfits : FitsDollar nested)
  (hnested : DollarKeepsPace lost close nested)
  (hlost : ∀ behind taken failure, Modifier.Misreads nested close behind taken failure →
    lost behind taken failure)

include hopens hfits hnested hlost

theorem readChain_keepsPace (name : Text) (mayJoin : Bool) {text : Text}
    (hbackslash : '\\' ∉ text) :
    (readChain nested close name mayJoin text).KeepsPace lost close text := by
  have hread {text : Text} (hbackslash : '\\' ∉ text) :=
    Modifier.read_keepsPace hopens hfits hnested name hlost hbackslash
  have hcolon (rest : Text) : Passes close ([':'] ++ rest) [':'].length :=
    Passes.inert hopens _ (by decide) rest
  fun_induction readChain nested close name mayJoin text with
  | case1 | case5 | case7 => exact .done _
  | case2 mayJoin rest step failure hfailure =>
    simp only [List.mem_cons, not_or] at hbackslash
    exact KeepsPace.after [':'] (hcolon rest) ((hread hbackslash.2).error hfailure _)
  | case3 mayJoin rest step modifier? hok ih =>
    simp only [List.mem_cons, not_or] at hbackslash
    have hpasses : Passes close rest step.taken := (hread hbackslash.2).passes hok
    exact ((KeepsPace.andThen hpasses (ih (not_mem_drop hbackslash.2 _))).map _).after [':']
      (hcolon rest)
  | case4 c rest _ step failure hfailure =>
    exact (hread hbackslash).error hfailure _
  | case6 c rest _ step modifier hok ih =>
    have hpasses : Passes close (c :: rest) step.taken := (hread hbackslash).passes hok
    have hpos : 0 < step.taken := Modifier.taken_pos_of_some hfits close name hok
    obtain ⟨htake, hdrop⟩ := Text.cons_take_pred hpos c rest
    rw [htake]
    rw [hdrop] at ih ⊢
    exact (KeepsPace.andThen hpasses (ih (not_mem_drop hbackslash _))).map _

theorem readBody_keepsPace {text : Text} (hbackslash : '\\' ∉ text) :
    (readBody nested close text).KeepsPace lost close text := by
  have hname : (makeText nested (fun c => c == ':' || c == close) false text).KeepsPace lost
      close text := makeText_keepsPace hfits hnested (by simp) false hbackslash
  refine hname.followedBy fun name _ => ?_
  exact (readChain_keepsPace hopens hfits hnested hlost _ _ (not_mem_drop hbackslash _)).map _

end

end Reference

end RecipeLint

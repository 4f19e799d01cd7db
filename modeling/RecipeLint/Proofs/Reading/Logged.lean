import RecipeLint.Proofs.Reading.Log
import RecipeLint.Proofs.Reading.Members

/-!
# What readers keep

Each property of findings that is kept along readings holds of what the reader of references makes of
any text, and of what it found there.
-/

namespace RecipeLint

open Reading

/-! ## Holdings -/

namespace Holding

variable {p q n : Nat} {v w : MakeText}

theorem shift_nested : (⟨MakeText.nested p v, []⟩ : Holding).shift n =
    ⟨MakeText.nested (p + n) v, []⟩ := by
  simp [shift, MakeText.nested_shift]

theorem followedBy_nested : (⟨MakeText.nested p v, []⟩ : Holding).followedBy n
    ⟨MakeText.nested q w, []⟩ = ⟨MakeText.nested p v ++ MakeText.nested (q + n) w, []⟩ := by
  simp [followedBy, shift, MakeText.nested_shift]

theorem shift_followedBy (m : Nat) : (v.held.followedBy m (w.held.shift q)).shift n =
    ⟨MakeText.nested n v ++ MakeText.nested (n + m + q) w, []⟩ := by
  have hplace : q + m + n = n + m + q := by omega
  simp only [MakeText.held, shift_nested, followedBy_nested, Nat.zero_add]
  simp only [shift, List.map_append, List.map_nil, ← MakeText.nested_shift, Nat.zero_add, hplace]

theorem followedBy_empty (h : Holding) : h.followedBy n empty = h := by
  simp [followedBy, shift, empty]

namespace Noted

variable {name : Text} {h k : Holding} {fs gs : List Finding}

theorem shift (hfs : h.Noted name fs) (n : Nat) :
    (h.shift n).Noted name (fs.map (Located.shift n)) := by
  intro y hy f hf
  obtain ⟨z, hz, rfl⟩ := List.mem_map.mp hy
  rw [← Located.shift_shift]
  exact List.mem_map_of_mem (hfs z hz f hf)

theorem append (hfs : h.Noted name fs) (hgs : k.Noted name gs) (n : Nat) :
    (h.followedBy n k).Noted name (fs ++ gs.map (Located.shift n)) := by
  intro y hy f hf
  rcases List.mem_append.mp hy with hy | hy
  · exact List.mem_append_left _ (hfs y hy f hf)
  · exact List.mem_append_right _ (hgs.shift n y hy f hf)

theorem mono (hfs : h.Noted name fs) (hsub : fs ⊆ gs) : h.Noted name gs :=
  fun y hy f hf => hsub (hfs y hy f hf)

end Noted

end Holding

theorem MakeText.nested_consLiteral (start : Nat) (front : Text) (v : MakeText) :
    MakeText.nested start (consLiteral front v) =
      MakeText.nested (start + Text.byteSize front) v := by
  unfold consLiteral
  split
  case h_1 text parts =>
    simp only [MakeText.nested, Part.nested, Part.source, Text.byteSize_append, Nat.add_assoc]
  case h_2 =>
    by_cases hfront : front.isEmpty
    · rw [if_pos hfront, List.isEmpty_iff.mp hfront]
      rfl
    · rw [if_neg hfront]
      rfl

theorem MakeText.held_consLiteral (front : Text) (v : MakeText) :
    (consLiteral front v).held = v.held.shift (Text.byteSize front) := by
  rw [held, nested_consLiteral, held, Holding.shift_nested]

theorem MakeText.nested_of_cut? {c : Char} {v before behind : MakeText} (start : Nat)
    (h : cut? c v = some (before, behind)) :
    MakeText.nested start v = MakeText.nested start before ++
      MakeText.nested (start + size before + c.utf8Size) behind := by
  fun_induction cut? c v generalizing start before with
  | case1 => simp at h
  | case2 chars parts hmem =>
    have hchars := congrArg Text.byteSize
      (Text.takeWhile_ne_append (List.contains_iff_mem.mp hmem))
    obtain ⟨rfl, rfl⟩ := Prod.mk.inj (Option.some.inj h)
    rw [Text.byteSize_append, Text.byteSize_cons] at hchars
    rw [nested_consLiteral, nested_consLiteral, size, source_consLiteral, source_nil,
      List.append_nil, Nat.add_assoc start, Nat.add_assoc start, Nat.add_assoc, hchars]
    rfl
  | case3 chars parts hmem ih =>
    obtain ⟨⟨b, a⟩, hcut, heq⟩ := Option.map_eq_some_iff.mp h
    obtain ⟨rfl, rfl⟩ := Prod.mk.inj heq
    rw [MakeText.nested, ih _ hcut, MakeText.nested, size_cons, ← Nat.add_assoc start,
      List.append_assoc]
  | case4 part parts hpart ih =>
    obtain ⟨⟨b, a⟩, hcut, heq⟩ := Option.map_eq_some_iff.mp h
    obtain ⟨rfl, rfl⟩ := Prod.mk.inj heq
    rw [MakeText.nested, ih _ hcut, MakeText.nested, size_cons, ← Nat.add_assoc start,
      List.append_assoc]

theorem MakeText.source_ne_nil_of_makeText {nested : Reader (Option Reference)}
    (hfits : FitsDollar nested) {stop : Char → Bool} {pairs : Bool} {text : Text} {v : MakeText}
    (h : (makeText nested stop pairs text).outcome = .ok v) (hv : v ≠ []) :
    MakeText.source v ≠ [] := by
  have hliteral {front : Text} {r : Reading MakeText} (hfront : front ≠ [])
      (h : (r.literal front).outcome = .ok v) : MakeText.source v ≠ [] := by
    obtain ⟨w, -, rfl⟩ := outcome_literal_eq_ok_iff.mp h
    simp [hfront]
  revert h
  unfold makeText
  split
  case h_1 => exact fun h => absurd (Except.ok.inj h).symm hv
  case h_2 => exact hliteral (by simp)
  case h_3 rest _ =>
    extract_lets inner
    split
    case h_1 reference hok =>
      intro h
      obtain ⟨w, -, rfl⟩ := outcome_map_eq_ok_iff.mp (outcome_after_eq_ok_iff.mp h)
      have hpos := hfits.taken_pos hok
      have htext : reference.text = _ := ((hfits.fits_of_ok hok).value _ hok).1
      have hne : reference.text ≠ [] := by
        rw [htext]
        simpa using Nat.ne_of_gt hpos
      simp [Part.source, hne]
    case h_2 => exact hliteral (by simp)
    case h_3 => exact hliteral (by simp)
    case h_4 => exact nofun
  case h_4 =>
    split_ifs
    · exact fun h => absurd (Except.ok.inj h).symm hv
    · exact hliteral (by simp)
    · exact hliteral (by simp)
  case h_5 =>
    split_ifs
    · exact fun h => absurd (Except.ok.inj h).symm hv
    · exact hliteral (by simp)

section

variable {kept : Text → Holding → List Finding → Prop} {lost : Text → List Finding → Prop}

def LogsDollar (kept : Text → Holding → List Finding → Prop) (lost : Text → List Finding → Prop)
    (nested : Reader (Option Reference)) : Prop :=
  ∀ rest, (nested ('$' :: rest)).Logs (fun r? s fs => kept s (Reference.held r?) fs) lost
    ('$' :: rest)

variable (hlog : Logging kept lost) {nested : Reader (Option Reference)}
  (hfits : FitsDollar nested) (hnested : LogsDollar kept lost nested)

/-! ## Make text -/

include hlog in
theorem Logging.literal {r : Reading MakeText} {text : Text}
    (h : r.Logs (fun v s fs => kept s v.held fs) lost text) (front : Text) :
    (r.literal front).Logs (fun v s fs => kept s v.held fs) lost (front ++ text) := by
  refine hlog.after front (.map (h.mono fun v s fs hv => ?_))
  rw [MakeText.held_consLiteral]
  exact hlog.front hv front

include hlog hfits hnested

theorem makeText_logs (stop : Char → Bool) (pairs : Bool) (text : Text) :
    (makeText nested stop pairs text).Logs (fun v s fs => kept s v.held fs) lost text := by
  fun_induction makeText nested stop pairs text with
  | case1 => exact .done (hlog.plain [])
  | case2 rest ih => exact hlog.literal ih ['$', '$']
  | case3 rest hne inner reference hok ih =>
    obtain ⟨htake, hdrop⟩ := Text.cons_take_pred (hfits.taken_pos hok) '$' rest
    rw [htake]
    rw [hdrop] at ih ⊢
    have hinner := (hnested rest).value _ hok
    have hspells : reference.text = _ := ((hfits.fits_of_ok hok).value _ hok).1
    refine hlog.andThen (hfits.fits_of_ok hok).taken_le hinner (.map (ih.mono fun v s fs hv => ?_))
    have hheld : MakeText.held (.reference reference :: v) =
        (Reference.held (some reference)).followedBy (Text.byteSize reference.text) v.held := by
      simp [MakeText.held, Reference.held, Holding.followedBy, Holding.shift, MakeText.nested,
        Part.nested, Part.source, ← MakeText.nested_shift]
    rw [hheld, hspells]
    exact hlog.append hinner hv
  | case4 rest _ _ _ ih => exact hlog.literal ih ['$']
  | case5 rest _ _ _ _ _ ih => exact hlog.literal ih ['$']
  | case6 rest _ inner failure hne hfailure => exact (hnested rest).error hfailure
  | case7 | case10 => exact .done (hlog.plain [])
  | case8 c rest _ _ ih => exact hlog.literal ih ['\\', c]
  | case9 c rest _ _ ih => exact hlog.literal ih ['\\']
  | case11 c rest _ _ _ _ ih => exact hlog.literal ih [c]

end

/-! ## Modifiers -/

namespace Modifier

theorem span_invalid (name : Text) {taken : Text} (h : taken ≠ []) :
    (invalid name taken).span.start < (invalid name taken).span.stop :=
  Text.byteSize_pos h

theorem span_of_general {name : Text} {v : MakeText} {e : Located ReferenceFailure}
    (h : general name v = .error e) (hv : v ≠ [] → MakeText.source v ≠ []) :
    e.span.start < e.span.stop := by
  unfold general at h
  split at h
  case isTrue => simp at h
  case isFalse hne =>
    split at h
    case h_1 => simp at h
    case h_2 =>
      obtain rfl : invalid name (MakeText.source v) = e := by simpa using h
      exact span_invalid name (hv (by simpa using hne))

section

variable {kept : Text → Holding → List Finding → Prop} {lost : Text → List Finding → Prop}
  (hlog : Logging kept lost) {nested : Reader (Option Reference)}
  (hfits : FitsDollar nested) (hnested : LogsDollar kept lost nested) (close : Char)
  {name : Text}

include hlog

theorem kept_argument {m : Modifier} {v : MakeText} {front s : Text} {fs : List Finding}
    (hm : m.nested 0 = MakeText.nested (Text.byteSize front) v) (hv : kept s v.held fs) :
    kept (front ++ s) (held (some m)) (fs.map (Located.shift (Text.byteSize front))) := by
  have hfront := hlog.modifier (hlog.front hv front) m
  rw [MakeText.held, Holding.shift_nested, Nat.zero_add, ← hm] at hfront
  exact hfront

theorem kept_of_general {v : MakeText} {m? : Option Modifier} {s : Text} {fs : List Finding}
    (h : general name v = .ok m?) (hv : kept s v.held fs) : kept s (held m?) fs := by
  cases m? with
  | none =>
    cases v with
    | nil => exact hv
    | cons part parts =>
      unfold general at h
      rw [List.isEmpty_cons, if_neg Bool.false_ne_true] at h
      split at h <;> simp at h
  | some m =>
    obtain ⟨old, new, hcut, rfl⟩ := general_eq_some_iff.mp h
    have hnested : MakeText.nested 0 v = (suffix old new).nested 0 := by
      rw [MakeText.nested_of_cut? 0 hcut, Nat.add_assoc]
      rfl
    rw [MakeText.held, hnested] at hv
    exact hlog.modifier hv _

include hfits hnested

theorem readGeneral_logs (text : Text) :
    (readGeneral nested close name text).Logs (fun m? s fs => kept s (held m?) fs) lost text := by
  refine (makeText_logs hlog hfits hnested _ _ text).judge
    (fun v m? s fs hm hv => kept_of_general hlog hm hv) fun v e hok he hv => ?_
  exact ⟨span_of_general he (MakeText.source_ne_nil_of_makeText hfits hok), hlog.lose hv⟩

theorem readSeparator_logs (text : Text) :
    (readSeparator nested close text).Logs (fun m s fs => m = .separator s ∧ ∃ h, kept s h fs) lost
      text := by
  refine hlog.followedBy (makeText_fits hfits _ _ text) (makeText_logs hlog hfits hnested _ _ text)
    fun v hv hkept => ?_
  split
  case h_1 behind hsource hrest =>
    refine .take ⟨?_, _, hlog.append hkept (hlog.plain _)⟩
    simp [← hv, hsource, hrest]
  case h_2 => exact .done ⟨by simp [hv], _, hlog.append hkept (hlog.plain _)⟩

theorem separatorForm_logs (rest : Text) :
    (separatorForm nested close name rest).Logs (fun m? s fs => kept s (held m?) fs) lost
      ('t' :: rest) := by
  unfold separatorForm
  split
  case h_1 behind =>
    have hread : ((readSeparator nested close behind).after ['t', 's']).Logs
        (fun m s fs => ∃ t, m = .separator t ∧ s = 't' :: 's' :: t ∧ kept s (held (some m)) fs ∧
          ∀ f ∈ fs, 0 < f.span.start) lost ('t' :: 's' :: behind) := by
      refine hlog.after ['t', 's'] ((readSeparator_logs hlog hfits hnested close behind).mono
        fun m s fs hm => ?_)
      obtain ⟨rfl, h, hkept⟩ := hm
      refine ⟨s, rfl, rfl, hlog.separator hkept, fun f hf => ?_⟩
      obtain ⟨g, -, rfl⟩ := List.mem_map.mp hf
      exact Nat.lt_of_lt_of_le Nat.two_pos (Nat.le_add_left _ _)
    refine .map (hread.noting fun m s fs hm => ?_)
    obtain ⟨t, rfl, rfl, hkept, hstart⟩ := hm
    unfold separatorFindings
    dsimp only
    split
    case isTrue => simpa using hkept
    case isFalse hinvalid =>
      exact hlog.note hkept hstart (by simpa [Cause.isNote] using hinvalid) (by simp)
  case h_2 => exact readGeneral_logs hlog hfits hnested close _

theorem argumentForm_logs (letter : Char) (build : MakeText → Modifier)
    (hbuild : ∀ v, (build v).nested 0 = MakeText.nested (Text.byteSize [letter]) v) (rest : Text) :
    (((argument nested close true rest).map (some <| build ·)).after [letter]).Logs
      (fun m? s fs => kept s (held m?) fs) lost (letter :: rest) :=
  hlog.after [letter] (.map ((makeText_logs hlog hfits hnested _ _ rest).mono
    fun v _ _ hv => kept_argument hlog (hbuild v) hv))

theorem readOld_logs (bound : Char) (text : Text) :
    (readOld nested close bound text).Logs (fun v s fs => kept s v.held fs) lost text := by
  unfold readOld
  split
  case h_1 rest => exact hlog.literal (makeText_logs hlog hfits hnested _ _ rest) ['^']
  case h_2 => exact makeText_logs hlog hfits hnested _ _ _

/-- What a substitution holds is found behind its letter and first separator.  Of one that is not
finished nothing is kept. -/
theorem readSubstitution_logs (regex : Bool) (bound : Char) (text : Text) :
    (readSubstitution nested close regex bound text).Logs
      (fun m? s fs => match m? with
        | none => lost s fs
        | some m => ∃ h, kept s h fs ∧
          h.shift (1 + bound.utf8Size) = ⟨m.nested 0, []⟩) lost text := by
  refine hlog.followedBy (readOld_fits hfits close bound text)
    (readOld_logs hlog hfits hnested close bound text) fun old hold hkept => ?_
  have hnone (t : Text) : lost (text.take (readOld nested close bound text).taken ++ t)
      ((readOld nested close bound text).findings ++ []) := by
    rw [List.append_nil]
    exact hlog.lost_append (hlog.lose hkept) t
  split
  case h_1 => exact .done (hnone [])
  case h_2 c rest hrest =>
    split
    case isFalse => exact .done (hnone [])
    case isTrue hc =>
      rw [hrest]
      refine hlog.after [c] (hlog.followedBy (makeText_fits hfits _ _ rest)
        (makeText_logs hlog hfits hnested _ _ rest) fun new hnew hkept' => ?_)
      have hnone (t : Text) := hlog.append_lost hkept
        (hlog.lost_front (hlog.lost_append (hlog.lose hkept') t) [c])
      split
      case h_1 => exact .done (by simpa using hnone [])
      case h_2 d behind hbehind =>
        split
        case isFalse => exact .done (by simpa using hnone [])
        case isTrue hd =>
          refine .take ⟨_, hlog.append hkept (hlog.front (hlog.append hkept' (hlog.plain _)) [c]), ?_⟩
          rw [Holding.followedBy_empty, Holding.shift_followedBy, ← hold, hc]
          simp [Modifier.nested, firstOffset, secondOffset, MakeText.size, Nat.add_assoc]

theorem substitutionForm_logs (letter : Char) (hletter : letter.utf8Size = 1) (rest : Text) :
    (substitutionForm nested close name letter rest).Logs (fun m? s fs => kept s (held m?) fs) lost
      (letter :: rest) := by
  unfold substitutionForm
  split
  case h_1 => exact readGeneral_logs hlog hfits hnested close _
  case h_2 bound behind =>
    split
    case isTrue => exact readGeneral_logs hlog hfits hnested close _
    case isFalse =>
      have hread : ((readSubstitution nested close (letter = 'C') bound behind).after
          [letter, bound]).Logs (fun m? s fs => match m? with
            | none => lost s fs
            | some m => kept s (held (some m)) fs) lost (letter :: bound :: behind) := by
        refine hlog.after [letter, bound] ((readSubstitution_logs hlog hfits hnested close _ bound
          behind).mono fun m? s fs hm => ?_)
        cases m? with
        | none => exact hlog.lost_front hm [letter, bound]
        | some m =>
          obtain ⟨h, hkept, hheld⟩ := hm
          have hfront := hlog.modifier (hlog.front hkept [letter, bound]) m
          have hsize : Text.byteSize [letter, bound] = 1 + bound.utf8Size := by simp [hletter]
          rw [hsize, hheld] at hfront
          rw [hsize]
          exact hfront
      refine hread.judge (fun m? w s fs hw hm => ?_) fun m? e hok he hm => ?_
      · cases m? with
        | none => simp at hw
        | some m =>
          obtain rfl : some m = w := by simpa using hw
          exact hm
      · cases m? with
        | some m => simp at he
        | none =>
          obtain rfl : invalid name _ = e := by simpa using he
          exact ⟨span_invalid name (by simp), hm⟩

theorem readLoop_logs (loopVariable text : Text) :
    (readLoop nested close loopVariable text).Logs
      (fun m s fs => ∃ (body : MakeText) (closed : Bool), m = .forEach loopVariable body closed ∧
        '@' :: loopVariable ++ '@' :: s = m.source ∧ kept s body.held fs) lost text := by
  refine hlog.followedBy (makeText_fits hfits _ _ text) (makeText_logs hlog hfits hnested _ _ text)
    fun body hbody hkept => ?_
  have hplain (t : Text) := hlog.append hkept (hlog.plain t)
  simp only [Holding.followedBy_empty] at hplain
  split
  case h_1 behind hrest =>
    exact .take ⟨body, true, rfl, by simp [source, hbody, hrest], hplain _⟩
  case h_2 => exact .done ⟨body, false, rfl, by simp [source, hbody], hplain _⟩

theorem loopForm_logs (rest : Text) :
    (loopForm nested close name rest).Logs (fun m? s fs => kept s (held m?) fs) lost
      ('@' :: rest) := by
  unfold loopForm
  split
  case h_1 loopVariable hloop =>
    obtain ⟨behind, rfl⟩ := append_of_loopVariable? hloop
    have hdrop : (loopVariable ++ '@' :: behind).drop (loopVariable.length + 1) = behind := by
      simp [List.drop_append]
    have htext : '@' :: (loopVariable ++ '@' :: behind) =
        ('@' :: loopVariable ++ ['@']) ++ behind := by simp
    rw [hdrop, htext]
    have hread : ((readLoop nested close loopVariable behind).after
        ('@' :: loopVariable ++ ['@'])).Logs (fun m s fs => s = m.source ∧ s ≠ [] ∧
          kept s (held (some m)) fs ∧ ∀ f ∈ fs, 0 < f.span.start) lost
        (('@' :: loopVariable ++ ['@']) ++ behind) := by
      refine hlog.after _ ((readLoop_logs hlog hfits hnested close loopVariable behind).mono
        fun m s fs hm => ?_)
      obtain ⟨body, closed, rfl, hsource, hkept⟩ := hm
      refine ⟨by simpa using hsource, by simp, kept_argument hlog ?_ hkept, fun f hf => ?_⟩
      · have hmark : '@'.utf8Size = 1 := rfl
        have hplace : 0 + (2 + Text.byteSize loopVariable) =
            Text.byteSize ('@' :: loopVariable ++ ['@']) := by
          simp only [Text.byteSize_append, Text.byteSize_cons, Text.byteSize_nil, hmark]
          omega
        rw [Modifier.nested, firstOffset, hplace]
      · obtain ⟨g, -, rfl⟩ := List.mem_map.mp hf
        have hpos := Text.byteSize_pos (s := '@' :: loopVariable ++ ['@']) (by simp)
        exact Nat.lt_of_lt_of_le hpos (Nat.le_add_left _ _)
    refine .map (hread.noting fun m s fs hm => ?_)
    obtain ⟨hsource, hne, hkept, hstart⟩ := hm
    unfold loopFindings
    split
    case h_1 loopVariable body =>
      rw [← hsource]
      exact hlog.note hkept hstart rfl hne
    case h_2 => simpa using hkept
  case h_2 => exact readGeneral_logs hlog hfits hnested close _

theorem indexForm_logs (rest : Text) :
    (indexForm nested close name rest).Logs (fun m? s fs => kept s (held m?) fs) lost
      ('[' :: rest) := by
  unfold indexForm
  split
  case h_1 range hrange => exact .take (hlog.modifier (hlog.plain _) _)
  case h_2 => exact readGeneral_logs hlog hfits hnested close _

theorem assignForm_logs (rest : Text) :
    (assignForm nested close rest).Logs (fun m? s fs => kept s (held m?) fs) lost
      (':' :: rest) := by
  unfold assignForm
  split
  case h_1 op hop =>
    obtain ⟨behind, hbehind⟩ := append_of_assigning? hop
    rw [hbehind, List.drop_left]
    refine hlog.after op.symbol (.map ((makeText_logs hlog hfits hnested _ _ behind).mono
      fun v _ _ hv => kept_argument hlog ?_ hv))
    rw [Modifier.nested, firstOffset, Nat.zero_add]
  case h_2 => exact .done (hlog.plain [])

/-- What is kept of an attempt: a modifier, or the text that has to become one. -/
def KeptAttempt (kept : Text → Holding → List Finding → Prop) (x : Modifier ⊕ MakeText) (s : Text)
    (fs : List Finding) : Prop :=
  match x with
  | .inl m => kept s (held (some m)) fs
  | .inr v => MakeText.source v ≠ [] ∧ kept s v.held fs

omit hfits hnested in
/-- Text that has to become a modifier starts with the mark of the one that did not work out. -/
theorem keptAttempt_consLiteral (mark : Char) {v : MakeText} {s : Text} {fs : List Finding}
    (hv : kept s v.held fs) :
    KeptAttempt kept (.inr (MakeText.consLiteral [mark] v)) ([mark] ++ s)
      (fs.map (Located.shift (Text.byteSize [mark]))) := by
  refine ⟨by simp, ?_⟩
  rw [MakeText.held_consLiteral]
  exact hlog.front hv [mark]

theorem readChoice_logs (rest : Text) :
    (readChoice nested close name rest).Logs (fun m? s fs => kept s (held m?) fs) lost
      ('?' :: rest) := by
  refine Logs.judge (Q := KeptAttempt kept) (hlog.after ['?'] (hlog.followedBy
    (makeText_fits hfits _ _ rest) (makeText_logs hlog hfits hnested _ _ rest)
    fun yes hyes hkept => ?_)) (fun x m? s fs hm hx => ?_) fun x e hok he hx => ?_
  · split
    case h_1 behind hrest =>
      rw [hrest]
      refine hlog.after [':'] (.map ((makeText_logs hlog hfits hnested _ _ behind).mono
        fun no s fs hno => ?_))
      have hboth := hlog.front (hlog.append hkept (hlog.front hno [':'])) ['?']
      have hheld : (choose yes no).nested 0 = MakeText.nested (Text.byteSize ['?']) yes ++
          MakeText.nested (Text.byteSize ['?'] + MakeText.size yes + Text.byteSize [':']) no := by
        rw [Modifier.nested, Nat.zero_add, Nat.zero_add]
        rfl
      rw [Holding.shift_followedBy, ← hyes, ← MakeText.size, ← hheld] at hboth
      rw [← hyes]
      exact hlog.modifier hboth (choose yes no)
    case h_2 =>
      have hdone := hlog.append hkept (hlog.plain [])
      rw [Holding.followedBy_empty] at hdone
      exact .done (keptAttempt_consLiteral hlog '?' hdone)
  · cases x with
    | inl m =>
      obtain rfl : some m = m? := by simpa using hm
      exact hx
    | inr v => exact kept_of_general hlog hm hx.2
  · cases x with
    | inl m => simp at he
    | inr v => exact ⟨span_of_general he fun _ => hx.1, hlog.lose hx.2⟩

theorem readCommand_logs (rest : Text) :
    (readCommand nested close name rest).Logs (fun m? s fs => kept s (held m?) fs) lost
      ('!' :: rest) := by
  refine Logs.judge (Q := KeptAttempt kept) (hlog.after ['!'] (hlog.followedBy
    (makeText_fits hfits _ _ rest) (makeText_logs hlog hfits hnested _ _ rest)
    fun command hcommand hkept => ?_)) (fun x m? s fs hm hx => ?_) fun x e hok he hx => ?_
  · have hdone (t : Text) := hlog.append hkept (hlog.plain t)
    simp only [Holding.followedBy_empty] at hdone
    split
    case h_1 behind hrest => exact .take (kept_argument hlog rfl (hdone _))
    case h_2 => exact .done (keptAttempt_consLiteral hlog '!' (hdone []))
  · cases x with
    | inl m =>
      obtain rfl : some m = m? := by simpa using hm
      exact hx
    | inr v =>
      by_cases hcolon : MakeText.hasLiteral ':' v
      · simp [hcolon] at hm
      · exact kept_of_general hlog (by simpa [hcolon] using hm) hx.2
  · cases x with
    | inl m => simp at he
    | inr v =>
      refine ⟨?_, hlog.lose hx.2⟩
      by_cases hcolon : MakeText.hasLiteral ':' v
      · obtain rfl : invalid name (MakeText.source v) = e := by simpa [hcolon] using he
        exact span_invalid name hx.1
      · exact span_of_general (by simpa [hcolon] using he) fun _ => hx.1

theorem readForm_logs (first : Char) (rest : Text) :
    (readForm nested close name first rest).Logs (fun m? s fs => kept s (held m?) fs) lost
      (first :: rest) := by
  unfold readForm
  split
  case h_1 => exact argumentForm_logs hlog hfits hnested close 'M' _ (fun _ => rfl) rest
  case h_2 => exact argumentForm_logs hlog hfits hnested close 'N' _ (fun _ => rfl) rest
  case h_3 => exact argumentForm_logs hlog hfits hnested close 'D' _ (fun _ => rfl) rest
  case h_4 => exact argumentForm_logs hlog hfits hnested close 'U' _ (fun _ => rfl) rest
  case h_5 => exact argumentForm_logs hlog hfits hnested close '=' _ (fun _ => rfl) rest
  case h_6 => exact separatorForm_logs hlog hfits hnested close rest
  case h_7 => exact readChoice_logs hlog hfits hnested close rest
  case h_8 => exact readCommand_logs hlog hfits hnested close rest
  case h_9 => exact indexForm_logs hlog hfits hnested close rest
  case h_10 => exact loopForm_logs hlog hfits hnested close rest
  case h_11 => exact assignForm_logs hlog hfits hnested close rest
  case h_12 => exact substitutionForm_logs hlog hfits hnested close 'S' rfl rest
  case h_13 => exact substitutionForm_logs hlog hfits hnested close 'C' rfl rest
  case h_14 => exact readGeneral_logs hlog hfits hnested close _

theorem read_logs (text : Text) :
    (read nested close name text).Logs (fun m? s fs => kept s (held m?) fs) lost text := by
  unfold read
  extract_lets word
  split
  case h_1 m hm =>
    refine .take ?_
    obtain rfl | ⟨op, rfl⟩ := word_of_ofWord? hm
    all_goals exact hlog.modifier (hlog.plain _) _
  case h_2 => exact .done (hlog.plain [])
  case h_3 first rest _ => exact readForm_logs hlog hfits hnested close first rest

end

theorem noted_read {nested : Reader (Option Reference)} (hfits : FitsDollar nested) {close : Char}
    {name text : Text} {m? : Option Modifier} (h : (read nested close name text).outcome = .ok m?) :
    (held m?).Noted name (read nested close name text).findings := by
  cases m? with
  | none => exact fun y hy => absurd hy List.not_mem_nil
  | some m =>
    refine List.forall_mem_singleton.mpr fun f hf => ?_
    cases m with
    | separator s =>
      -- It was read by the form behind `ts`, which notes what is to be found.
      obtain ⟨rest, rfl⟩ : ∃ rest, text = 't' :: 's' :: rest := by
        have hsource : source (separator s) = _ := (read_fits hfits close name text).value _ h
        have htext := List.take_append_drop (read nested close name text).taken text
        rw [← hsource] at htext
        exact ⟨_, htext.symm⟩
      cases hword : ofWord? (('t' :: 's' :: rest).takeWhile Char.isAlphanum) with
      | some m =>
        simp only [read, hword, Reading.take] at h
        obtain hm | ⟨op, hm⟩ := word_of_ofWord? hword <;> simp [hm] at h
      | none =>
        have hread : read nested close name ('t' :: 's' :: rest) =
            (((readSeparator nested close rest).after ['t', 's']).noting
              (separatorFindings name)).map some := by
          simp only [read, hword]
          rfl
        rw [hread] at h ⊢
        obtain ⟨m, hm, hsome⟩ := outcome_map_eq_ok_iff.mp h
        obtain rfl := Option.some.inj hsome
        exact subset_findings_noting hm hf
    | _ => exact absurd hf List.not_mem_nil

end Modifier

/-! ## Chains -/

theorem Link.placed_shift (offset start : Nat) (chain : List Link) :
    placed (start + offset) chain = (placed start chain).map fun x => (x.1 + offset, x.2) := by
  induction chain generalizing start with
  | nil => rfl
  | cons link chain ih => cases link <;> simp [placed, Nat.add_right_comm _ offset, ih]

theorem Link.shift_held (offset : Nat) (chain : List Link) :
    (held chain).shift offset = ⟨nestedAll offset chain, placed offset chain⟩ := by
  rw [held, Holding.shift, ← nestedAll_shift, ← placed_shift, Nat.zero_add]

theorem Link.held_ofColon (m? : Option Modifier) (chain : List Link) :
    held (ofColon m? :: chain) =
      ((Modifier.held m?).followedBy (Text.byteSize (Modifier.optionalSource m?))
        (held chain)).shift 1 := by
  have hrest (n : Nat) := shift_held n chain
  cases m? with
  | none =>
    have hempty (k : Holding) : Holding.empty.followedBy 0 k = k := by
      have hid : Reference.shiftStart 0 = id := rfl
      simp [Holding.followedBy, Holding.empty, Holding.shift, hid]
    exact ((congrArg (Holding.shift 1) (hempty (held chain))).trans (hrest 1)).symm
  | some m =>
    rw [Modifier.held, Holding.followedBy, hrest]
    simp [held, ofColon, Holding.shift, nestedAll, Link.nested, placed, ← nestedAll_shift,
      ← placed_shift, ← Modifier.nested_shift, Modifier.optionalSource, byteSize_source_colon,
      Nat.add_comm 1]

theorem Link.held_joined (m : Modifier) (chain : List Link) :
    held (.joined m :: chain) =
      (Modifier.held (some m)).followedBy (Text.byteSize m.source) (held chain) := by
  rw [Modifier.held, Holding.followedBy, shift_held]
  simp [held, nestedAll, Link.nested, placed, source]

/-! ## References -/

theorem closeLength_pos (close c : Char) (rest : Text) : 0 < closeLength [close] (c :: rest) := by
  unfold closeLength
  split <;> simp_all

namespace Reference

section

variable {kept : Text → Holding → List Finding → Prop} {lost : Text → List Finding → Prop}
  (hlog : Logging kept lost) {nested : Reader (Option Reference)}
  (hfits : FitsDollar nested) (hnested : LogsDollar kept lost nested) (close : Char)

include hlog hfits hnested

theorem readChain_logs (name : Text) (mayJoin : Bool) (text : Text) :
    (readChain nested close name mayJoin text).Logs (fun chain s fs => kept s (Link.held chain) fs)
      lost text := by
  fun_induction readChain nested close name mayJoin text with
  | case1 | case5 | case7 => exact .done (hlog.plain [])
  | case2 mayJoin rest step failure hfailure =>
    exact hlog.after [':']
      ((Modifier.read_logs hlog hfits hnested close rest).error hfailure)
  | case3 mayJoin rest step modifier? hok ih =>
    have hread := Modifier.read_fits hfits close name rest
    have hstep := (Modifier.read_logs hlog hfits hnested close rest).value modifier? hok
    have hsource : Modifier.optionalSource modifier? = rest.take step.taken :=
      hread.value modifier? hok
    refine hlog.after [':'] (.map (hlog.andThen hread.taken_le hstep
      (ih.mono fun chain s fs hchain => ?_)))
    rw [Link.held_ofColon, hsource]
    exact hlog.front (hlog.append hstep hchain) [':']
  | case4 c rest _ step failure hfailure =>
    exact (Modifier.read_logs hlog hfits hnested close (c :: rest)).error hfailure
  | case6 c rest _ step modifier hok ih =>
    have hread := Modifier.read_fits hfits close name (c :: rest)
    have hstep := (Modifier.read_logs hlog hfits hnested close (c :: rest)).value _ hok
    have hsource : modifier.source = (c :: rest).take step.taken := hread.value _ hok
    have hpos : 0 < step.taken := Modifier.taken_pos_of_some hfits close name hok
    obtain ⟨htake, hdrop⟩ := Text.cons_take_pred hpos c rest
    rw [htake]
    rw [hdrop] at ih ⊢
    refine .map (hlog.andThen hread.taken_le hstep (ih.mono fun chain s fs hchain => ?_))
    rw [Link.held_joined, hsource]
    exact hlog.append hstep hchain

omit hlog hnested in
theorem noted_readChain (name : Text) (mayJoin : Bool) (text : Text) :
    ∀ chain, (readChain nested close name mayJoin text).outcome = .ok chain →
      (Link.held chain).Noted name (readChain nested close name mayJoin text).findings := by
  fun_induction readChain nested close name mayJoin text with
  | case1 | case5 | case7 =>
    intro chain h
    obtain rfl := Except.ok.inj h
    exact fun y hy => absurd hy List.not_mem_nil
  | case2 | case4 =>
    intro chain h
    simp at h
  | case3 mayJoin rest step modifier? hok ih =>
    intro chain h
    obtain ⟨links, hlinks, rfl⟩ := outcome_map_eq_ok_iff.mp (outcome_after_eq_ok_iff.mp h)
    have hsource : Modifier.optionalSource modifier? = rest.take step.taken :=
      (Modifier.read_fits hfits close name rest).value modifier? hok
    rw [Link.held_ofColon, hsource]
    exact ((Modifier.noted_read hfits hok).append (ih _ (outcome_after_eq_ok_iff.mp hlinks)) _).shift 1
  | case6 c rest _ step modifier hok ih =>
    intro chain h
    obtain ⟨links, hlinks, rfl⟩ := outcome_map_eq_ok_iff.mp h
    have hread := Modifier.read_fits hfits close name (c :: rest)
    have hsource : modifier.source = (c :: rest).take step.taken := hread.value _ hok
    have hpos : 0 < step.taken := Modifier.taken_pos_of_some hfits close name hok
    obtain ⟨htake, hdrop⟩ := Text.cons_take_pred hpos c rest
    rw [Link.held_joined, hsource, ← htake]
    exact (Modifier.noted_read hfits hok).append (ih _ (outcome_after_eq_ok_iff.mp hlinks)) _

/-- What is found in a body is found in its name, and behind that in its modifiers. -/
theorem readBody_logs (text : Text) :
    (readBody nested close text).Logs (fun body s fs => ∃ gs hs,
      s = MakeText.source body.1 ++ body.2.flatMap Link.source ∧
      fs = gs ++ hs.map (Located.shift (MakeText.size body.1)) ∧
      kept (MakeText.source body.1) body.1.held gs ∧
      kept (body.2.flatMap Link.source) (Link.held body.2) hs ∧
      (Link.held body.2).Noted (MakeText.source body.1) hs) lost text := by
  refine hlog.followedBy (makeText_fits hfits _ _ text) (makeText_logs hlog hfits hnested _ _ text)
    fun name hname hkept => .map ?_
  generalize text.drop _ = rest
  have hlogs := (readChain_logs hlog hfits hnested close (MakeText.source name) false rest).and_fits
    (readChain_fits hfits close (MakeText.source name) false rest)
  refine ⟨fun chain hok => ?_, hlogs.failure⟩
  obtain ⟨hsource, hchain⟩ := hlogs.value chain hok
  rw [← hname] at hkept ⊢
  rw [← hsource] at hchain ⊢
  exact ⟨_, _, rfl, rfl, hkept, hchain, noted_readChain hfits close _ _ _ _ hok⟩

end

section

variable {kept : Text → Holding → List Finding → Prop} {lost : Text → List Finding → Prop}
  (hlog : Logging kept lost)

include hlog

theorem endDelimited_logs {delimiter : Delimiter} {opening close : Char}
    (hopening : delimiter.opening = [opening]) (hclosing : delimiter.closing = [close])
    {text : Text} {body : Reading (MakeText × List Link)}
    (hfits : body.Fits (fun b s =>
      s = '$' :: opening :: (MakeText.source b.1 ++ b.2.flatMap Link.source)) text)
    (hbody : body.Logs (fun b _ fs => ∃ gs hs,
      fs = (gs ++ hs.map (Located.shift (MakeText.size b.1))).map
        (Located.shift (Text.byteSize ['$', opening])) ∧
      kept (MakeText.source b.1) b.1.held gs ∧
      kept (b.2.flatMap Link.source) (Link.held b.2) hs ∧
      (Link.held b.2).Noted (MakeText.source b.1) hs) lost text) :
    (endDelimited close delimiter text body).Logs (fun r s fs => kept s (held (some r)) fs) lost
      text := by
  have hend := endDelimited_fits hopening hclosing hfits
  cases hok : body.outcome with
  | error failure =>
    simp only [endDelimited, hok]
    obtain ⟨hspan, hlost⟩ := hbody.failure failure hok
    refine ⟨fun r hr => by simp at hr, fun e he => ?_⟩
    obtain rfl := Except.error.inj he
    rw [List.take_add]
    exact ⟨hspan, hlog.lost_append hlost _⟩
  | ok b =>
    obtain ⟨name, chain⟩ := b
    have hwritten := hfits.value _ hok
    obtain ⟨gs, hs, hfindings, hname, hchain, hnoted⟩ := hbody.value _ hok
    have hlost (t : Text) : lost (text.take body.taken ++ t) body.findings := by
      have hkept := hlog.front (hlog.append hname hchain) ['$', opening]
      rw [hwritten, hfindings]
      exact hlog.lost_append (hlog.lose hkept) t
    cases hrest : text.drop body.taken with
    | nil =>
      simp only [endDelimited, hok, hrest]
      refine ⟨fun r hr => by simp at hr, fun e he => ?_⟩
      obtain rfl := Except.error.inj he
      refine ⟨Text.byteSize_pos ?_, by simpa using hlost []⟩
      rintro rfl
      simp at hwritten
    | cons c rest =>
      by_cases hc : c = close
      · simp only [endDelimited, hok, hrest, if_pos hc] at hend ⊢
        have hspells := hend.value _ rfl
        refine ⟨fun r hr => ?_, fun e he => by simp at he⟩
        obtain rfl := Except.ok.inj hr
        have hbare : delimiter ≠ .bare := by
          rintro rfl
          simp [Delimiter.opening] at hopening
        have hkept := hlog.reference hspells hbare hname hchain hnoted
        have hoffset : nameOffset ⟨delimiter, name, chain, text.take (body.taken + 1)⟩ =
            Text.byteSize ['$', opening] := by
          rw [nameOffset, hopening]
          rfl
        rw [chainOffset, hoffset] at hkept
        rw [hfindings, List.map_append, List.map_map]
        simpa [Function.comp_def, Located.shift_shift, Nat.add_comm] using hkept
      · simp only [endDelimited, hok, hrest, if_neg hc]
        refine ⟨fun r hr => by simp at hr, fun e he => ?_⟩
        obtain rfl := Except.error.inj he
        refine ⟨?_, ?_⟩
        · have hpos := closeLength_pos close c rest
          have hjunk : (c :: rest).take (closeLength [close] (c :: rest)) ≠ [] := by
            simpa using Nat.ne_of_gt hpos
          have hsize := Text.byteSize_pos hjunk
          simp only [Span.shift, Span.ofSize]
          omega
        · rw [List.take_add]
          exact hlost _

theorem readDelimited_logs {nested : Reader (Option Reference)} (hfits : FitsDollar nested)
    (hnested : LogsDollar kept lost nested) {delimiter : Delimiter} {opening close : Char}
    (hopening : delimiter.opening = [opening]) (hclosing : delimiter.closing = [close])
    (rest : Text) :
    (readDelimited nested close delimiter ('$' :: opening :: rest)).Logs
      (fun r s fs => kept s (held (some r)) fs) lost ('$' :: opening :: rest) := by
  refine endDelimited_logs hlog hopening hclosing (.after ['$', opening]
    ((readBody_fits hfits close rest).mono fun body s hs => by simp [hs])) ?_
  refine hlog.after ['$', opening] ((readBody_logs hlog hfits hnested close rest).mono ?_)
  rintro body s fs ⟨gs, hs, -, rfl, hkept⟩
  exact ⟨gs, hs, rfl, hkept⟩

theorem skipDelimited_logs (opening close : Char) (rest : Text) :
    (skipDelimited close ('$' :: opening :: rest)).Logs (fun r s fs => kept s (held (some r)) fs)
      lost ('$' :: opening :: rest) := by
  refine ⟨fun r hr => by simp [skipDelimited] at hr, fun e he => ?_⟩
  obtain rfl := Except.error.inj he
  exact ⟨Text.byteSize_pos (by simp), hlog.lose (hlog.plain _)⟩

theorem readBare_logs (c : Char) (rest : Text) :
    (readBare c rest).Logs (fun r? s fs => kept s (held r?) fs) lost ('$' :: c :: rest) := by
  have hbare : kept ['$', c] (held (some (bareOf c))) [] := hlog.bare c
  unfold readBare
  extract_lets r
  split
  case isTrue =>
    have hnote : kept ['$', c] (held (some (bareOf c)))
        ([] ++ [⟨.ambiguousName (c :: rest.takeWhile isIdentifierChar),
          .ofSize (Text.byteSize ['$', c])⟩]) :=
      hlog.note hbare (by simp) rfl (by simp)
    refine ⟨fun v hv => ?_, fun e he => by simp [Reading.found, Reading.take] at he⟩
    obtain rfl := Except.ok.inj hv
    exact hnote
  case isFalse =>
    split
    case isTrue => exact .take hbare
    case isFalse =>
      refine ⟨fun v hv => by simp at hv, fun e he => ?_⟩
      obtain rfl := Except.error.inj he
      exact ⟨Nat.one_pos, hlog.lose (hlog.plain _)⟩

theorem readDollar_logs {delimited : Delimiter → Char → Reader Reference}
    (hdelimited : ∀ delimiter opening close rest, delimiter.opening = [opening] →
      delimiter.closing = [close] →
      (delimited delimiter close ('$' :: opening :: rest)).Logs
        (fun r s fs => kept s (held (some r)) fs) lost ('$' :: opening :: rest)) :
    LogsDollar kept lost (readDollar delimited) := by
  intro rest
  unfold readDollar
  split
  case h_1 | h_5 => exact .done (hlog.plain [])
  case h_2 behind heq =>
    rw [heq]
    exact .map (hdelimited .braces _ _ behind rfl rfl)
  case h_3 behind heq =>
    rw [heq]
    exact .map (hdelimited .parentheses _ _ behind rfl rfl)
  case h_4 c behind _ _ _ heq =>
    obtain rfl := (List.cons.inj heq).2
    exact readBare_logs hlog c behind

/-- However deep references may be nested, what is found in one is kept with all that it holds. -/
theorem readWithin_logs (levels : Nat) : LogsDollar kept lost (readWithin levels) := by
  induction levels with
  | zero =>
    exact readDollar_logs hlog fun _ opening close rest _ _ =>
      skipDelimited_logs hlog opening close rest
  | succ levels ih =>
    exact readDollar_logs hlog fun _ _ _ rest hopening hclosing =>
      readDelimited_logs hlog (readWithin_fits levels) ih hopening hclosing rest

end

end Reference

end RecipeLint

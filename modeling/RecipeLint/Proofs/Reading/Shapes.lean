import RecipeLint.Proofs.Reading.Follow

/-!
# How modifiers part their characters

For each reader of a modifier, the ways in which it takes some characters: which of them are marks,
and which are read as make text in front of what.
-/

namespace RecipeLint.Modifier

open Reading

variable {nested : Reader (Option Reference)} {close b : Char} {name s t : Text} {m : Modifier}

theorem general_eq_some_iff {v : MakeText} : general name v = .ok (some m) ↔
    ∃ old new, MakeText.cut? '=' v = some (old, new) ∧ m = .suffix old new := by
  unfold general
  cases v with
  | nil => simp [MakeText.cut?]
  | cons part parts =>
    rw [List.isEmpty_cons, if_neg Bool.false_ne_true]
    cases hcut : MakeText.cut? '=' (part :: parts) with
    | none => simp
    | some cut => simp [Prod.ext_iff, eq_comm]

theorem reads_readGeneral : Reads (readGeneral nested close name) 0 s (some m) (b :: t) ↔
    ∃ v, Reads (argument nested close false) 0 s v (b :: t) ∧ general name v = .ok (some m) :=
  reads_judge

/-- What has no form of its own is the replacement of an ending. -/
theorem exists_suffix_of_readGeneral
    (h : Reads (readGeneral nested close name) 0 s (some m) (b :: t)) :
    ∃ old new, m = .suffix old new := by
  obtain ⟨v, -, hm⟩ := reads_readGeneral.mp h
  obtain ⟨old, new, -, hsuffix⟩ := general_eq_some_iff.mp hm
  exact ⟨old, new, hsuffix⟩

def separatorBehind (v : MakeText) (rest : Text) : Reading Modifier :=
  match MakeText.source v, rest with
  | [], ':' :: _ => .take 1 (.separator [':'])
  | chars, _ => .done (.separator chars)

/-- A separator is what was taken, be it a colon. -/
theorem reads_readSeparator (hfits : FitsDollar nested) :
    Reads (readSeparator nested close) 0 s m (b :: t) ↔ m = .separator s ∧
      ((s = [] → b ≠ ':') ∧ (∃ v, Reads (argument nested close false) 0 s v (b :: t)) ∨
        s = [':']) := by
  have hsource {s rest : Text} {c : Char} {v : MakeText}
      (h : Reads (argument nested close false) 0 s v (c :: rest)) : MakeText.source v = s :=
    source_of_makeText hfits h
  have hdone {s₁ : Text} {v : MakeText} {c : Char} {rest : Text} (hv : MakeText.source v = s₁)
      (hcolon : s₁ = [] → c ≠ ':') :
      separatorBehind v (c :: rest) = .done (.separator s₁) := by
    subst hv
    unfold separatorBehind
    split
    case h_1 hnil heq => exact absurd (List.cons.inj heq).1 (hcolon hnil)
    case h_2 => rfl
  refine Iff.trans reads_followedBy ?_
  constructor
  · rintro ⟨s₁, s₂, v, rfl, hv, hnext⟩
    obtain ⟨c, rest, hrest⟩ : ∃ c rest, s₂ ++ b :: t = c :: rest := by cases s₂ <;> simp
    rw [hrest] at hv
    have hv' := hsource hv
    by_cases hcolon : s₁ = [] → c ≠ ':'
    · have hread : Reads (fun _ => .done (.separator s₁)) 0 s₂ m (b :: t) :=
        hnext.congr (by rw [hrest]; exact (hdone hv' hcolon).symm)
      obtain ⟨rfl, rfl⟩ := reads_done.mp hread
      obtain ⟨rfl, rfl⟩ := List.cons.inj hrest
      rw [List.append_nil]
      exact ⟨rfl, .inl ⟨hcolon, v, hv⟩⟩
    · push Not at hcolon
      obtain ⟨rfl, rfl⟩ := hcolon
      have hread : Reads (fun _ => .take 1 (.separator [':'])) 0 s₂ m (b :: t) :=
        hnext.congr (by simp only [hv', hrest])
      obtain ⟨hlength, rfl⟩ := reads_take.mp hread
      obtain ⟨c, rfl⟩ := List.length_eq_one_iff.mp hlength
      obtain ⟨rfl, -⟩ := List.cons.inj hrest
      exact ⟨rfl, .inr rfl⟩
  · rintro ⟨rfl, ⟨hcolon, v, hv⟩ | rfl⟩
    · exact ⟨s, [], v, (List.append_nil s).symm, hv,
        (reads_done.mpr ⟨rfl, rfl⟩).congr (hdone (hsource hv) hcolon)⟩
    · refine ⟨[], [':'], [], rfl, ?_, ⟨rfl, rfl⟩⟩
      exact (reads_done.mpr ⟨rfl, rfl⟩).congr (makeText_stop nested false (by decide) (by simp) _)

theorem readOld_of_ne {bound : Char} {text : Text} (h : ∀ rest, text ≠ '^' :: rest) :
    readOld nested close bound text = readHalf nested close bound text := by
  unfold readOld
  split
  case h_1 rest => exact absurd rfl (h rest)
  case h_2 => rfl

/-- A caret at the start is taken, even if it is the separator. -/
theorem reads_readOld {bound : Char} {v : MakeText} :
    Reads (readOld nested close bound) 0 s v (b :: t) ↔
      (∃ s' v', s = '^' :: s' ∧ v = .consLiteral ['^'] v' ∧
        Reads (readHalf nested close bound) 0 s' v' (b :: t)) ∨
      (∀ rest, s ++ b :: t ≠ '^' :: rest) ∧ Reads (readHalf nested close bound) 0 s v (b :: t) := by
  by_cases hcaret : ∃ rest, s ++ b :: t = '^' :: rest
  · obtain ⟨rest, hrest⟩ := hcaret
    have hnot : ¬∀ rest, s ++ b :: t ≠ '^' :: rest := fun h => h rest hrest
    simp only [hnot, false_and, or_false]
    cases s with
    | nil =>
      refine ⟨fun h => ?_, fun ⟨s', v', h, _⟩ => by simp at h⟩
      have htaken := h.taken
      rw [hrest] at htaken
      simp [readOld] at htaken
    | cons c s =>
      obtain ⟨rfl, -⟩ := List.cons.inj hrest
      rw [reads_cons]
      refine Iff.trans (reads_after ['^']) (reads_map.trans ?_)
      constructor
      · rintro ⟨w, hw, rfl⟩
        exact ⟨s, w, rfl, rfl, hw⟩
      · rintro ⟨s', w, hs, rfl, hw⟩
        obtain ⟨-, rfl⟩ := List.cons.inj hs
        exact ⟨w, hw, rfl⟩
  · have hnot : ∀ rest, s ++ b :: t ≠ '^' :: rest := fun rest h => hcaret ⟨rest, h⟩
    have hs {s' : Text} : s ≠ '^' :: s' := by
      rintro rfl
      exact hnot _ rfl
    simp only [hs, hnot, false_and, exists_const, false_or, ne_eq, not_false_eq_true,
      implies_true, true_and]
    exact reads_congr _ (readOld_of_ne hnot)

theorem reads_readSubstitution {regex : Bool} {bound : Char} :
    Reads (readSubstitution nested close regex bound) 0 s (some m) (b :: t) ↔
      ∃ s₁ s₂ flags old new, s = s₁ ++ bound :: (s₂ ++ bound :: flags) ∧
        m = .substitute regex bound old new flags ∧ flags.all isFlag ∧ isFlag b = false ∧
        Reads (readOld nested close bound) 0 s₁ old
          (bound :: (s₂ ++ bound :: (flags ++ b :: t))) ∧
        Reads (readHalf nested close bound) 0 s₂ new (bound :: (flags ++ b :: t)) := by
  refine Iff.trans (reads_marked bound _ (fun _ => none) (fun _ _ => if_pos rfl)
    fun v c rest hc => if_neg hc) ?_
  simp only [reduceCtorEq, and_false, exists_false, or_false]
  refine Iff.trans (exists_congr fun s₁ => exists_congr fun s₂ => exists_congr fun old =>
    and_congr_right' (and_congr_right' (reads_marked bound
      (fun new rest => .take (rest.takeWhile isFlag).length
        (some (substitute regex bound old new (rest.takeWhile isFlag))))
      (fun _ => none) (fun _ _ => if_pos rfl) fun v c rest hc => if_neg hc))) ?_
  simp only [reduceCtorEq, and_false, exists_false, or_false]
  constructor
  · rintro ⟨s₁, s₂, old, rfl, hold, s₃, flags, new, rfl, hnew, hflags⟩
    obtain ⟨hall, hb, hm⟩ := (reads_takeWhile isFlag
      fun flags => some (substitute regex bound old new flags)).mp hflags
    exact ⟨s₁, s₃, flags, old, new, rfl, (Option.some.inj hm).symm, hall, hb, by simpa using hold,
      hnew⟩
  · rintro ⟨s₁, s₂, flags, old, new, rfl, rfl, hall, hb, hold, hnew⟩
    exact ⟨s₁, _, old, rfl, by simpa using hold, s₂, flags, new, rfl, hnew,
      (reads_takeWhile isFlag fun flags => some (substitute regex bound old new flags)).mpr
        ⟨hall, hb, rfl⟩⟩

theorem reads_readLoop {loopVariable : Text} :
    Reads (readLoop nested close loopVariable) 0 s m (b :: t) ↔
      ∃ v, (∃ s', s = s' ++ ['@'] ∧ m = .forEach loopVariable v true ∧
          Reads (makeText nested (fun c => c == '@' || c == close) true) 0 s' v ('@' :: b :: t)) ∨
        b ≠ '@' ∧ m = .forEach loopVariable v false ∧
          Reads (makeText nested (fun c => c == '@' || c == close) true) 0 s v (b :: t) := by
  refine (reads_marked '@' (fun v _ => .done (.forEach loopVariable v true))
    (fun v => .forEach loopVariable v false) (fun _ _ => rfl) fun v c rest hc => ?_).trans ?_
  · split
    case h_1 behind heq => exact absurd (List.cons.inj heq).1 hc
    case h_2 => rfl
  · simp only [reads_done]
    constructor
    · rintro (⟨s₁, s₂, v, rfl, hv, rfl, rfl⟩ | ⟨v, hb, hv, rfl⟩)
      · exact ⟨v, .inl ⟨s₁, rfl, rfl, hv⟩⟩
      · exact ⟨v, .inr ⟨hb, rfl, hv⟩⟩
    · rintro ⟨v, ⟨s', rfl, rfl, hv⟩ | ⟨hb, rfl, hv⟩⟩
      · exact .inl ⟨s', [], v, rfl, hv, rfl, rfl⟩
      · exact .inr ⟨v, hb, hv, rfl⟩

theorem reads_readChoice : Reads (readChoice nested close name) 1 s (some m) (b :: t) ↔
    (∃ s₁ s₂ yes no, s = s₁ ++ ':' :: s₂ ∧ m = .choose yes no ∧
      Reads (argument nested close false) 0 s₁ yes (':' :: (s₂ ++ b :: t)) ∧
      Reads (argument nested close false) 0 s₂ no (b :: t)) ∨
    ∃ v, b ≠ ':' ∧ Reads (argument nested close false) 0 s v (b :: t) ∧
      general name (MakeText.consLiteral ['?'] v) = .ok (some m) := by
  refine reads_judge.trans
    (Iff.trans (exists_congr fun w => and_congr_left' (reads_after ['?'])) ?_)
  refine Iff.trans (exists_congr fun w => and_congr_left' (reads_marked ':'
    (fun yes rest => (argument nested close false rest).map fun no => Sum.inl (.choose yes no))
    (fun yes => Sum.inr (MakeText.consLiteral ['?'] yes)) (fun _ _ => rfl)
    fun v c rest hc => ?_)) ?_
  · split
    case h_1 behind heq => exact absurd (List.cons.inj heq).1 hc
    case h_2 => rfl
  simp only [reads_map]
  constructor
  · rintro ⟨w, ⟨s₁, s₂, yes, rfl, hyes, no, hno, rfl⟩ | ⟨yes, hb, hyes, rfl⟩, hm⟩
    · obtain rfl : Modifier.choose yes no = m := by simpa using hm
      exact .inl ⟨s₁, s₂, yes, no, rfl, rfl, hyes, hno⟩
    · exact .inr ⟨yes, hb, hyes, hm⟩
  · rintro (⟨s₁, s₂, yes, no, rfl, rfl, hyes, hno⟩ | ⟨yes, hb, hyes, hm⟩)
    · exact ⟨_, .inl ⟨s₁, s₂, yes, rfl, hyes, no, hno, rfl⟩, rfl⟩
    · exact ⟨_, .inr ⟨yes, hb, hyes, rfl⟩, hm⟩

theorem reads_readCommand : Reads (readCommand nested close name) 1 s (some m) (b :: t) ↔
    ∃ v, (∃ s', s = s' ++ ['!'] ∧ m = .shell v ∧
        Reads (makeText nested (fun c => c == '!' || c == close) false) 0 s' v ('!' :: b :: t)) ∨
      b ≠ '!' ∧ Reads (makeText nested (fun c => c == '!' || c == close) false) 0 s v (b :: t) ∧
        MakeText.hasLiteral ':' (MakeText.consLiteral ['!'] v) = false ∧
        general name (MakeText.consLiteral ['!'] v) = .ok (some m) := by
  refine reads_judge.trans
    (Iff.trans (exists_congr fun w => and_congr_left' (reads_after ['!'])) ?_)
  refine Iff.trans (exists_congr fun w => and_congr_left' (reads_marked '!'
    (fun command _ => .done (Sum.inl (.shell command)))
    (fun command => Sum.inr (MakeText.consLiteral ['!'] command)) (fun _ _ => rfl)
    fun v c rest hc => ?_)) ?_
  · split
    case h_1 behind heq => exact absurd (List.cons.inj heq).1 hc
    case h_2 => rfl
  simp only [reads_done]
  constructor
  · rintro ⟨w, ⟨s₁, s₂, v, rfl, hv, rfl, rfl⟩ | ⟨v, hb, hv, rfl⟩, hm⟩
    · obtain rfl : Modifier.shell v = m := by simpa using hm
      exact ⟨v, .inl ⟨s₁, rfl, rfl, hv⟩⟩
    · dsimp only at hm
      split at hm
      case isTrue => simp at hm
      case isFalse hcolon => exact ⟨v, .inr ⟨hb, hv, by simpa using hcolon, hm⟩⟩
  · rintro ⟨v, ⟨s', rfl, rfl, hv⟩ | ⟨hb, hv, hcolon, hm⟩⟩
    · exact ⟨_, .inl ⟨s', [], v, rfl, hv, rfl, rfl⟩, rfl⟩
    · refine ⟨_, .inr ⟨v, hb, hv, rfl⟩, ?_⟩
      simp only [hcolon, Bool.false_eq_true, if_false, hm]

/-! ## Forms -/

theorem reads_argumentForm (letter : Char) (build : MakeText → Modifier) :
    Reads (fun rest => ((argument nested close true rest).map (some <| build ·)).after [letter]) 1 s
        (some m) (b :: t) ↔
      ∃ v, Reads (argument nested close true) 0 s v (b :: t) ∧ m = build v := by
  refine Iff.trans (reads_after [letter]) (reads_map.trans ?_)
  simp only [Option.some.injEq, eq_comm]

theorem reads_separatorForm (s : Text) :
    Reads (separatorForm nested close name) 1 ('s' :: s) (some m) (b :: t) ↔
      Reads (readSeparator nested close) 0 s m (b :: t) := by
  refine (reads_cons 's').trans (Iff.trans reads_map ?_)
  simp only [reads_noting, Option.some.injEq, exists_eq_right]
  exact reads_after ['t', 's']

theorem reads_separatorForm_of_ne (hs : ∀ s', s ≠ 's' :: s') :
    Reads (separatorForm nested close name) 1 s (some m) (b :: t) ↔
      (s = [] → b ≠ 's') ∧
        Reads (readGeneral nested close name) 0 ('t' :: s) (some m) (b :: t) := by
  rw [reads_cons]
  cases s with
  | nil =>
    by_cases hb : b = 's'
    · subst hb
      refine ⟨fun h => ?_, fun h => absurd rfl (h.1 rfl)⟩
      have htaken := h.taken
      rw [List.nil_append, separatorForm, taken_map, taken_noting, taken_after] at htaken
      simp only [List.length_cons, List.length_nil] at htaken
      omega
    · have heq := @separatorForm_of_ne nested close name _ hb t
      exact ⟨fun h => ⟨fun _ => hb, (reads_congr _ heq).mp h⟩, fun h => (reads_congr _ heq).mpr h.2⟩
  | cons c s =>
    have hc : c ≠ 's' := by
      rintro rfl
      exact hs s rfl
    have heq := @separatorForm_of_ne nested close name _ hc (s ++ b :: t)
    exact ⟨fun h => ⟨fun hs => by simp at hs, (reads_congr _ heq).mp h⟩,
      fun h => (reads_congr _ heq).mpr h.2⟩

theorem reads_indexForm : Reads (indexForm nested close name) 1 s (some m) (b :: t) ↔
    (∃ range, range? (s ++ b :: t) = some range ∧ s = range ++ [']'] ∧ m = .index range) ∨
      range? (s ++ b :: t) = none ∧
        Reads (readGeneral nested close name) 0 ('[' :: s) (some m) (b :: t) := by
  cases hrange : range? (s ++ b :: t) with
  | none =>
    have heq : indexForm nested close name (s ++ b :: t) =
        readGeneral nested close name ('[' :: (s ++ b :: t)) := by rw [indexForm, hrange]
    simp only [reduceCtorEq, false_and, exists_false, false_or, true_and]
    rw [reads_cons]
    exact reads_congr _ heq
  | some range =>
    have heq : indexForm nested close name (s ++ b :: t) =
        .take (range.length + 2) (some (.index range)) := by rw [indexForm, hrange]
    obtain ⟨behind, hbehind⟩ := append_of_range? hrange
    simp only [reduceCtorEq, false_and, or_false, Option.some.injEq]
    constructor
    · rintro ⟨htaken, houtcome⟩
      rw [heq] at htaken houtcome
      have hlength : s.length = (range ++ [']']).length := by
        simp only [Reading.take, List.length_append, List.length_singleton] at htaken ⊢
        omega
      have hparts : s ++ b :: t = range ++ [']'] ++ behind := by simpa using hbehind
      refine ⟨range, rfl, (List.append_inj hparts hlength).1, ?_⟩
      simpa [Reading.take, eq_comm] using houtcome
    · rintro ⟨range', rfl, rfl, rfl⟩
      refine ⟨?_, by rw [heq]; rfl⟩
      rw [heq, List.length_append, List.length_singleton]
      exact (Nat.add_comm 1 _).symm

theorem reads_loopForm : Reads (loopForm nested close name) 1 s (some m) (b :: t) ↔
    (∃ loopVariable s', loopVariable? (s ++ b :: t) = some loopVariable ∧
      s = loopVariable ++ '@' :: s' ∧ Reads (readLoop nested close loopVariable) 0 s' m (b :: t)) ∨
      loopVariable? (s ++ b :: t) = none ∧
        Reads (readGeneral nested close name) 0 ('@' :: s) (some m) (b :: t) := by
  cases hloop : loopVariable? (s ++ b :: t) with
  | none =>
    have heq : loopForm nested close name (s ++ b :: t) =
        readGeneral nested close name ('@' :: (s ++ b :: t)) := by rw [loopForm, hloop]
    simp only [reduceCtorEq, false_and, exists_false, false_or, true_and]
    rw [reads_cons]
    exact reads_congr _ heq
  | some loopVariable =>
    have hform {front rest : Text} (h : front ++ rest = s ++ b :: t)
        (hfront : front = loopVariable ++ ['@']) : loopForm nested close name (front ++ rest) =
          (((readLoop nested close loopVariable rest).after
            ('@' :: loopVariable ++ ['@'])).noting (loopFindings name)).map some := by
      have hlength : loopVariable.length + 1 = front.length := by simp [hfront]
      rw [loopForm, h, hloop, ← h]
      dsimp only
      rw [hlength, List.drop_left]
    obtain ⟨behind, hbehind⟩ := append_of_loopVariable? hloop
    have hparts : loopVariable ++ ['@'] ++ behind = s ++ b :: t := by simpa using hbehind.symm
    have hread (s' : Text) (hs : s = loopVariable ++ ['@'] ++ s') :
        Reads (loopForm nested close name) 1 s (some m) (b :: t) ↔
          Reads (readLoop nested close loopVariable) 0 s' m (b :: t) := by
      have hahead : 1 + (loopVariable ++ ['@']).length = ('@' :: loopVariable ++ ['@']).length := by
        simp [Nat.add_comm]
      rw [hs, reads_append, hahead]
      refine (reads_congr (fun rest => (((readLoop nested close loopVariable rest).after
        ('@' :: loopVariable ++ ['@'])).noting (loopFindings name)).map some)
        (hform ?_ rfl)).trans (reads_map.trans ?_)
      · rw [hs, List.append_assoc _ s']
      simp only [reads_noting, Option.some.injEq, exists_eq_right]
      exact reads_after ('@' :: loopVariable ++ ['@'])
    simp only [reduceCtorEq, false_and, or_false, Option.some.injEq]
    constructor
    · intro h
      have hle : (loopVariable ++ ['@']).length ≤ s.length := by
        have htaken := h.taken
        rw [← hparts, hform hparts rfl, taken_map, taken_noting, taken_after] at htaken
        simp only [List.length_append, List.length_cons, List.length_nil] at htaken ⊢
        omega
      obtain ⟨s', rfl⟩ := List.prefix_of_prefix_length_le ⟨behind, hparts⟩ ⟨b :: t, rfl⟩ hle
      exact ⟨loopVariable, s', rfl, by simp, (hread s' rfl).mp h⟩
    · rintro ⟨loopVariable', s', rfl, hs, h⟩
      exact (hread s' (by simpa using hs)).mpr h

theorem reads_assignForm : Reads (assignForm nested close) 1 s (some m) (b :: t) ↔
    ∃ op s' v, assigning? (':' :: (s ++ b :: t)) = some op ∧ ':' :: s = op.symbol ++ s' ∧
      m = .assign op v ∧ Reads (argument nested close true) 0 s' v (b :: t) := by
  cases hop : assigning? (':' :: (s ++ b :: t)) with
  | none =>
    simp only [reduceCtorEq, false_and, exists_false, iff_false]
    rintro ⟨-, houtcome⟩
    rw [assignForm, hop] at houtcome
    simp [Reading.done] at houtcome
  | some op =>
    have hform {rest : Text} (h : op.symbol ++ rest = ':' :: (s ++ b :: t)) :
        assignForm nested close (s ++ b :: t) =
          ((argument nested close true rest).map (some <| .assign op ·)).after op.symbol := by
      rw [assignForm, hop]
      dsimp only
      rw [← h, List.drop_left]
    have hread {s' : Text} (hs : ':' :: s = op.symbol ++ s') :
        Reads (assignForm nested close) 1 s (some m) (b :: t) ↔
          ∃ v, Reads (argument nested close true) 0 s' v (b :: t) ∧ m = .assign op v := by
      have hwhole : Reads (assignForm nested close) 1 s (some m) (b :: t) ↔
          Reads (fun text => assignForm nested close (text.drop 1)) 0 (op.symbol ++ s') (some m)
            (b :: t) := by rw [← hs, reads_cons, Nat.zero_add]; rfl
      have htext : op.symbol ++ (s' ++ b :: t) = ':' :: (s ++ b :: t) := by
        rw [← List.append_assoc, ← hs, List.cons_append]
      rw [hwhole, reads_append, Nat.zero_add]
      refine (reads_congr (fun rest => ((argument nested close true rest).map
        (some <| .assign op ·)).after op.symbol) ?_).trans ((reads_after _).trans
          (reads_map.trans ?_))
      · rw [htext]
        exact hform htext
      · simp only [Option.some.injEq, eq_comm]
    constructor
    · intro h
      obtain ⟨behind, hbehind⟩ := append_of_assigning? hop
      have hle : op.symbol.length ≤ (':' :: s).length := by
        have htaken := h.taken
        rw [hform hbehind.symm, taken_after] at htaken
        rw [List.length_cons]
        omega
      obtain ⟨s', hs⟩ := List.prefix_of_prefix_length_le ⟨behind, hbehind.symm⟩
        ⟨b :: t, List.cons_append⟩ hle
      obtain ⟨v, hv, hm⟩ := (hread hs.symm).mp h
      exact ⟨op, s', v, rfl, hs.symm, hm, hv⟩
    · rintro ⟨op', s', v, hop', hs, hm, hv⟩
      obtain rfl := Option.some.inj hop'
      exact (hread hs).mpr ⟨v, hv, hm⟩

theorem reads_substitutionForm (letter : Char) :
    Reads (substitutionForm nested close name letter) 1 s (some m) (b :: t) ↔
      ∃ bound rest, s ++ b :: t = bound :: rest ∧
        if bound = close ∨ bound = '\\' then
          Reads (readGeneral nested close name) 0 (letter :: s) (some m) (b :: t)
        else ∃ s', s = bound :: s' ∧
          Reads (readSubstitution nested close (letter = 'C') bound) 0 s' (some m) (b :: t) := by
  obtain ⟨bound, rest, hrest⟩ : ∃ bound rest, s ++ b :: t = bound :: rest := by cases s <;> simp
  refine Iff.trans ?_ ⟨fun h => ⟨bound, rest, hrest, h⟩, ?_⟩
  · by_cases hbound : bound = close ∨ bound = '\\'
    · have heq : substitutionForm nested close name letter (s ++ b :: t) =
          readGeneral nested close name (letter :: (s ++ b :: t)) := by
        rw [hrest, substitutionForm, if_pos hbound]
      rw [if_pos hbound, reads_cons]
      exact reads_congr _ heq
    · rw [if_neg hbound]
      have hform (rest : Text) : substitutionForm nested close name letter (bound :: rest) =
          ((readSubstitution nested close (letter = 'C') bound rest).after [letter, bound]).judge
            fun m? => m?.elim (.error (invalid name ((letter :: bound :: rest).take
              ((readSubstitution nested close (letter = 'C') bound rest).after
                [letter, bound]).taken))) fun modifier => .ok (some modifier) := by
        refine (if_neg hbound).trans (congrArg (Reading.judge _) (funext fun m? => ?_))
        cases m? <;> rfl
      cases s with
      | nil =>
        refine ⟨fun h => ?_, by simp⟩
        have htaken := h.taken
        rw [hrest, hform, taken_judge, taken_after] at htaken
        simp only [List.length_cons, List.length_nil] at htaken
        omega
      | cons c s =>
        obtain ⟨rfl, -⟩ := List.cons.inj hrest
        rw [reads_cons, funext hform]
        refine reads_judge.trans ?_
        constructor
        · rintro ⟨m?, hread, hm⟩
          cases m? with
          | none => simp at hm
          | some m' =>
            obtain rfl : m' = m := by simpa using hm
            exact ⟨s, rfl, (reads_after [letter, c]).mp hread⟩
        · rintro ⟨s', hs, hread⟩
          obtain ⟨-, rfl⟩ := List.cons.inj hs
          exact ⟨some m, (reads_after [letter, c]).mpr hread, rfl⟩
  · rintro ⟨bound', rest', hrest', h⟩
    obtain ⟨rfl, rfl⟩ := List.cons.inj (hrest.symm.trans hrest')
    exact h

theorem reads_read {c : Char} {word : Text}
    (hword : (c :: s ++ b :: t).takeWhile Char.isAlphanum = word) :
    Reads (read nested close name) 0 (c :: s) (some m) (b :: t) ↔
      ofWord? word = some m ∧ word = c :: s ∨
        ofWord? word = none ∧ Reads (readForm nested close name c) 1 s (some m) (b :: t) := by
  rw [List.cons_append] at hword
  cases hw : ofWord? word with
  | none =>
    simp only [reduceCtorEq, false_and, false_or, true_and]
    rw [reads_cons]
    refine reads_congr _ ?_
    simp only [read, hword, hw]
  | some m' =>
    simp only [reduceCtorEq, false_and, or_false, Option.some.injEq]
    have hread : read nested close name (c :: s ++ b :: t) = .take word.length (some m') := by
      simp only [List.cons_append, read, hword, hw]
    rw [reads_congr (fun _ => .take word.length (some m')) hread, reads_take, and_comm,
      Option.some.injEq]
    refine and_congr_right fun _ => ⟨fun h => ?_, fun h => by rw [h]⟩
    have hprefix := List.takeWhile_prefix (l := c :: (s ++ b :: t)) Char.isAlphanum
    rw [hword, List.prefix_iff_eq_take, ← h, ← List.cons_append, List.take_left] at hprefix
    exact hprefix

theorem source_of_read (hfits : FitsDollar nested) {m? : Option Modifier} {behind : Text}
    (h : Reads (read nested close name) 0 s m? behind) : optionalSource m? = s := by
  have hvalue := (read_fits hfits close name _).value _ h.outcome
  rwa [h.taken, Nat.zero_add, List.take_left] at hvalue

end RecipeLint.Modifier

import RecipeLint.Proofs.Reading.Fits

/-!
# What is taken for what

A reader takes some characters for a value in front of others.  What it finds on the way is left
out here, since that may be about characters further on: what remains says how a text is parsed,
and it can be taken apart and put together again along the readings that a reader is made of.
-/

namespace RecipeLint

theorem Text.takeWhile_eq_iff {p : Char → Bool} {s t : Text} {b : Char} :
    (s ++ b :: t).takeWhile p = s ↔ s.all p ∧ p b = false := by
  induction s with
  | nil => cases hb : p b <;> simp [hb]
  | cons c s ih => cases hc : p c <;> simp [hc, ih]

namespace Reading

variable {α β : Type}

/-- The reader takes the characters `s` for the value `v` where `behind` follows them, and counts
`ahead` more that stand in front. -/
structure Reads (R : Reader α) (ahead : Nat) (s : Text) (v : α) (behind : Text) : Prop where
  taken : (R (s ++ behind)).taken = ahead + s.length
  outcome : (R (s ++ behind)).outcome = .ok v

variable {R : Reader α} {ahead : Nat} {s behind : Text} {v : α} {w : β}

theorem Reads.congr {R' : Reader α} (h : Reads R ahead s v behind)
    (heq : R' (s ++ behind) = R (s ++ behind)) : Reads R' ahead s v behind :=
  ⟨heq ▸ h.taken, heq ▸ h.outcome⟩

theorem reads_take {count : Nat} {w : α} :
    Reads (fun _ => .take count w) 0 s v behind ↔ s.length = count ∧ w = v := by
  constructor
  · rintro ⟨htaken, houtcome⟩
    rw [Nat.zero_add] at htaken
    exact ⟨htaken.symm, Except.ok.inj houtcome⟩
  · rintro ⟨rfl, rfl⟩
    exact ⟨(Nat.zero_add _).symm, rfl⟩

theorem reads_done {w : α} : Reads (fun _ => .done w) 0 s v behind ↔ s = [] ∧ w = v :=
  reads_take.trans (and_congr_left fun _ => List.length_eq_zero_iff)

theorem reads_congr (R' : Reader α) (h : R (s ++ behind) = R' (s ++ behind)) :
    Reads R ahead s v behind ↔ Reads R' ahead s v behind :=
  ⟨fun hread => hread.congr h.symm, fun hread => hread.congr h⟩

/-- A longest run of characters is read where it ends. -/
theorem reads_takeWhile (p : Char → Bool) (f : Text → α) {b : Char} {t : Text} :
    Reads (fun text => .take (text.takeWhile p).length (f (text.takeWhile p))) 0 s v (b :: t) ↔
      s.all p ∧ p b = false ∧ f s = v := by
  constructor
  · rintro ⟨htaken, houtcome⟩
    have hlength : ((s ++ b :: t).takeWhile p).length = s.length := htaken.trans (Nat.zero_add _)
    have hprefix := List.prefix_iff_eq_take.mp (List.takeWhile_prefix (l := s ++ b :: t) p)
    rw [hlength, List.take_left] at hprefix
    obtain ⟨hall, hb⟩ := Text.takeWhile_eq_iff.mp hprefix
    refine ⟨hall, hb, ?_⟩
    rw [← Except.ok.inj houtcome, hprefix]
  · rintro ⟨hall, hb, hf⟩
    have hrun : (s ++ b :: t).takeWhile p = s := Text.takeWhile_eq_iff.mpr ⟨hall, hb⟩
    refine ⟨?_, ?_⟩
    · exact (congrArg List.length hrun).trans (Nat.zero_add _).symm
    · exact congrArg Except.ok ((congrArg f hrun).trans hf)

theorem reads_map {f : α → β} :
    Reads (fun text => (R text).map f) ahead s w behind ↔
      ∃ v, Reads R ahead s v behind ∧ f v = w := by
  constructor
  · rintro ⟨htaken, houtcome⟩
    obtain ⟨v, hv, hw⟩ := outcome_map_eq_ok_iff.mp houtcome
    exact ⟨v, ⟨htaken, hv⟩, hw⟩
  · rintro ⟨v, ⟨htaken, hv⟩, hw⟩
    exact ⟨htaken, outcome_map_eq_ok_iff.mpr ⟨v, hv, hw⟩⟩

theorem reads_judge {f : Text → α → Except (Located ReferenceFailure) β} :
    Reads (fun text => (R text).judge (f text)) ahead s w behind ↔
      ∃ v, Reads R ahead s v behind ∧ f (s ++ behind) v = .ok w := by
  constructor
  · rintro ⟨htaken, houtcome⟩
    obtain ⟨v, hv, hw⟩ := outcome_judge_eq_ok_iff.mp houtcome
    exact ⟨v, ⟨htaken, hv⟩, hw⟩
  · rintro ⟨v, ⟨htaken, hv⟩, hw⟩
    exact ⟨htaken, outcome_judge_eq_ok_iff.mpr ⟨v, hv, hw⟩⟩

theorem reads_noting {findings : α → List Finding} :
    Reads (fun text => (R text).noting findings) ahead s v behind ↔ Reads R ahead s v behind := by
  have houtcome (r : Reading α) : (r.noting findings).outcome = r.outcome := by
    unfold Reading.noting
    split <;> rfl
  constructor
  · rintro ⟨htaken, hv⟩
    exact ⟨by rwa [taken_noting] at htaken, by rwa [houtcome] at hv⟩
  · rintro ⟨htaken, hv⟩
    exact ⟨by rwa [taken_noting], by rwa [houtcome]⟩

theorem reads_after (front : Text) :
    Reads (fun text => (R text).after front) front.length s v behind ↔ Reads R 0 s v behind := by
  constructor
  · rintro ⟨htaken, hv⟩
    refine ⟨?_, outcome_after_eq_ok_iff.mp hv⟩
    rw [taken_after] at htaken
    omega
  · rintro ⟨htaken, hv⟩
    refine ⟨?_, outcome_after_eq_ok_iff.mpr hv⟩
    rw [taken_after, htaken, Nat.zero_add]

theorem reads_append (front : Text) :
    Reads R ahead (front ++ s) v behind ↔
      Reads (fun rest => R (front ++ rest)) (ahead + front.length) s v behind := by
  have hlength : ahead + (front ++ s).length = ahead + front.length + s.length := by
    rw [List.length_append, Nat.add_assoc]
  constructor
  · rintro ⟨htaken, hv⟩
    rw [List.append_assoc] at htaken hv
    exact ⟨htaken.trans hlength, hv⟩
  · rintro ⟨htaken, hv⟩
    refine ⟨?_, ?_⟩ <;> rw [List.append_assoc]
    · exact htaken.trans hlength.symm
    · exact hv

theorem reads_cons (c : Char) :
    Reads R ahead (c :: s) v behind ↔ Reads (fun rest => R (c :: rest)) (ahead + 1) s v behind :=
  reads_append [c]

theorem andThen_map (first : Reading α) (front : Text) {γ : Type} (second : Reading β) (f : β → γ) :
    first.andThen front (second.map f) = (first.andThen front second).map f := by
  unfold Reading.andThen Reading.after Reading.map
  cases second.outcome <;> rfl

/-- Two readings one behind the other part the characters. -/
theorem reads_followedBy {next : α → Reader β} {b : Char} {t : Text} :
    Reads (fun text => (R text).followedBy text next) 0 s w (b :: t) ↔
      ∃ s₁ s₂ v, s = s₁ ++ s₂ ∧ Reads R 0 s₁ v (s₂ ++ b :: t) ∧
        Reads (next v) 0 s₂ w (b :: t) := by
  constructor
  · rintro ⟨htaken, hw⟩
    simp only [Reading.followedBy] at htaken hw
    split at hw
    case h_1 => simp at hw
    case h_2 v hv =>
      simp only [hv, taken_andThen, List.length_take, List.length_append, List.length_cons,
        Nat.zero_add] at htaken
      have hle : (R (s ++ b :: t)).taken ≤ s.length := by omega
      have hparts := List.take_append_drop (R (s ++ b :: t)).taken s
      rw [List.drop_append_of_le_length hle] at htaken hw
      refine ⟨s.take (R (s ++ b :: t)).taken, s.drop (R (s ++ b :: t)).taken, v, hparts.symm, ?_,
        ?_, ?_⟩
      · have hwhole : s.take (R (s ++ b :: t)).taken ++ (s.drop (R (s ++ b :: t)).taken ++ b :: t) =
            s ++ b :: t := by rw [← List.append_assoc, hparts]
        exact ⟨by rw [hwhole, List.length_take]; omega, by rw [hwhole, hv]⟩
      · rw [List.length_drop]
        omega
      · exact outcome_after_eq_ok_iff.mp hw
  · rintro ⟨s₁, s₂, v, rfl, ⟨htaken₁, hv⟩, htaken₂, hw⟩
    rw [← List.append_assoc, Nat.zero_add] at htaken₁
    rw [← List.append_assoc] at hv
    refine ⟨?_, ?_⟩
    · simp only [Reading.followedBy, hv, taken_andThen, htaken₁]
      rw [List.append_assoc, List.take_left, List.drop_left, htaken₂, List.length_append]
      omega
    · simp only [Reading.followedBy, hv, htaken₁]
      rw [List.append_assoc, List.drop_left]
      exact outcome_after_eq_ok_iff.mpr hw

theorem reads_marked (mark : Char) (second : α → Reader β) (other : α → β) {next : α → Reader β}
    {b : Char} {t : Text}
    (hmark : ∀ v rest, next v (mark :: rest) = (second v rest).after [mark])
    (hother : ∀ v c rest, c ≠ mark → next v (c :: rest) = .done (other v)) :
    Reads (fun text => (R text).followedBy text next) 0 s w (b :: t) ↔
      (∃ s₁ s₂ v, s = s₁ ++ mark :: s₂ ∧ Reads R 0 s₁ v (mark :: (s₂ ++ b :: t)) ∧
        Reads (second v) 0 s₂ w (b :: t)) ∨
      ∃ v, b ≠ mark ∧ Reads R 0 s v (b :: t) ∧ other v = w := by
  have hsecond {v : α} {s₂ : Text} :
      Reads (next v) 0 (mark :: s₂) w (b :: t) ↔ Reads (second v) 0 s₂ w (b :: t) := by
    rw [reads_cons]
    simp only [hmark]
    exact reads_after [mark]
  have hdone {v : α} {c : Char} {s₂ rest : Text} (hc : c ≠ mark)
      (hrest : s₂ ++ b :: t = c :: rest) :
      Reads (next v) 0 s₂ w (b :: t) ↔ s₂ = [] ∧ other v = w :=
    (reads_congr (fun _ => .done (other v)) (by rw [hrest, hother v c rest hc])).trans reads_done
  rw [reads_followedBy]
  constructor
  · rintro ⟨s₁, s₂, v, rfl, hv, hnext⟩
    cases s₂ with
    | nil =>
      by_cases hb : b = mark
      · subst hb
        have htaken := hnext.taken
        rw [List.nil_append, hmark, taken_after] at htaken
        simp at htaken
      · obtain ⟨-, hw⟩ := (hdone hb rfl).mp hnext
        exact .inr ⟨v, hb, by simpa using hv, hw⟩
    | cons c s₂ =>
      by_cases hc : c = mark
      · subst hc
        exact .inl ⟨s₁, s₂, v, rfl, hv, hsecond.mp hnext⟩
      · have hnil := ((hdone hc rfl).mp hnext).1
        simp at hnil
  · rintro (⟨s₁, s₂, v, rfl, hv, hnext⟩ | ⟨v, hb, hv, hw⟩)
    · exact ⟨s₁, mark :: s₂, v, rfl, hv, hsecond.mpr hnext⟩
    · exact ⟨s, [], v, (List.append_nil s).symm, hv, (hdone hb rfl).mpr ⟨rfl, hw⟩⟩

theorem outcome_literal_eq_ok_iff {front : Text} {r : Reading MakeText} {text : MakeText} :
    (r.literal front).outcome = .ok text ↔
      ∃ v, r.outcome = .ok v ∧ MakeText.consLiteral front v = text :=
  outcome_after_eq_ok_iff.trans outcome_map_eq_ok_iff

end Reading

end RecipeLint

import RecipeLint.Proofs.Text.Cuts
import RecipeLint.Reference.Reading

/-!
# Readings that fit their text

A reader says how many characters it took, and nothing but this judgement keeps it from saying
more than there are.  A reading fits a text if it took no more than the text has, if all that it
found and the failure that ended it lie among the characters taken, and if what it read stands in
some relation to them: for a piece of syntax, that those are its characters.  A dollar sign that
starts nothing never ends such a reading, since make text goes on behind it.

There is one rule for each way to put readings together, so that a reader fits its text once the
readers that it is made of do.
-/

namespace RecipeLint.Reading

variable {α β : Type}

@[simp] theorem taken_map (f : α → β) (r : Reading α) : (r.map f).taken = r.taken := rfl

@[simp] theorem taken_judge (f : α → Except (Located ReferenceFailure) β) (r : Reading α) :
    (r.judge f).taken = r.taken := rfl

@[simp] theorem taken_after (front : Text) (r : Reading α) :
    (r.after front).taken = front.length + r.taken := rfl

@[simp] theorem taken_andThen (first : Reading α) (front : Text) (second : Reading β) :
    (first.andThen front second).taken = front.length + second.taken := rfl

@[simp] theorem taken_literal (front : Text) (r : Reading MakeText) :
    (r.literal front).taken = front.length + r.taken := rfl

@[simp] theorem taken_noting (findings : α → List Finding) (r : Reading α) :
    (r.noting findings).taken = r.taken := by
  unfold Reading.noting
  split <;> rfl

@[simp] theorem outcome_after_eq_ok_iff {front : Text} {r : Reading α} {v : α} :
    (r.after front).outcome = .ok v ↔ r.outcome = .ok v := by
  unfold Reading.after
  cases r.outcome with
  | ok w => exact Iff.rfl
  | error e => exact ⟨nofun, nofun⟩

@[simp] theorem outcome_after_eq_error_iff {front : Text} {r : Reading α}
    {e : Located ReferenceFailure} : (r.after front).outcome = .error e ↔
      ∃ e', r.outcome = .error e' ∧ e'.shift (Text.byteSize front) = e := by
  unfold Reading.after
  cases r.outcome with
  | ok w => exact ⟨nofun, nofun⟩
  | error e' =>
    constructor
    · intro h
      exact ⟨e', rfl, Except.error.inj h⟩
    · rintro ⟨e'', hinner, rfl⟩
      rw [Except.error.inj hinner]
      rfl

@[simp] theorem outcome_map_eq_ok_iff {f : α → β} {r : Reading α} {w : β} :
    (r.map f).outcome = .ok w ↔ ∃ v, r.outcome = .ok v ∧ f v = w := by
  unfold Reading.map
  cases r.outcome <;> simp [Except.map]

@[simp] theorem outcome_map_eq_error_iff {f : α → β} {r : Reading α}
    {e : Located ReferenceFailure} : (r.map f).outcome = .error e ↔ r.outcome = .error e := by
  unfold Reading.map
  cases r.outcome <;> simp [Except.map]

@[simp] theorem outcome_judge_eq_ok_iff {f : α → Except (Located ReferenceFailure) β}
    {r : Reading α} {w : β} :
    (r.judge f).outcome = .ok w ↔ ∃ v, r.outcome = .ok v ∧ f v = .ok w := by
  unfold Reading.judge
  cases r.outcome <;> simp [Except.bind]

@[simp] theorem outcome_judge_eq_error_iff {f : α → Except (Located ReferenceFailure) β}
    {r : Reading α} {e : Located ReferenceFailure} :
    (r.judge f).outcome = .error e ↔
      r.outcome = .error e ∨ ∃ v, r.outcome = .ok v ∧ f v = .error e := by
  unfold Reading.judge
  cases r.outcome <;> simp [Except.bind]

/-- The failure lies among the characters, and it is not about a dollar sign that starts nothing. -/
def FailsIn (e : Located ReferenceFailure) (s : Text) : Prop :=
  (∀ c, e.value ≠ .loneDollar c) ∧ e.span.Cuts s

theorem FailsIn.take_mono {e : Located ReferenceFailure} {text : Text} {m n : Nat}
    (h : FailsIn e (text.take m)) (hmn : m ≤ n) : FailsIn e (text.take n) :=
  ⟨h.1, h.2.take_mono hmn⟩

/-- The reading stays within the text, and what it read stands in the relation `P` to the
characters taken. -/
structure Fits (P : α → Text → Prop) (text : Text) (r : Reading α) : Prop where
  taken_le : r.taken ≤ text.length
  findings : ∀ f ∈ r.findings, f.span.Cuts (text.take r.taken)
  failure : ∀ e, r.outcome = .error e → FailsIn e (text.take r.taken)
  value : ∀ v, r.outcome = .ok v → P v (text.take r.taken)

namespace Fits

variable {P : α → Text → Prop} {Q : β → Text → Prop} {text : Text} {r : Reading α}

theorem mono {P' : α → Text → Prop} (h : r.Fits P text) (himp : ∀ v s, P v s → P' v s) :
    r.Fits P' text :=
  ⟨h.taken_le, h.findings, h.failure, fun v hv => himp v _ (h.value v hv)⟩

theorem take {count : Nat} {v : α} (hcount : count ≤ text.length) (hv : P v (text.take count)) :
    (Reading.take count v).Fits P text where
  taken_le := hcount
  findings f hf := by simp [Reading.take] at hf
  failure e he := by simp [Reading.take] at he
  value w hw := by
    obtain rfl : v = w := by simpa [Reading.take] using hw
    exact hv

theorem done {v : α} (hv : P v []) : (Reading.done v).Fits P text :=
  take (Nat.zero_le _) (by simpa using hv)

theorem stop {n : Nat} {e : Located ReferenceFailure} (h : r.Fits P text) (hn : r.taken ≤ n)
    (hle : n ≤ text.length) (he : FailsIn e (text.take n)) :
    Fits Q text ⟨n, r.findings, .error e⟩ where
  taken_le := hle
  findings f hf := (h.findings f hf).take_mono hn
  failure e' he' := by
    obtain rfl : e = e' := by simpa using he'
    exact he
  value w hw := by simp at hw

theorem error {e : Located ReferenceFailure} (h : r.Fits P text) (he : r.outcome = .error e) :
    Fits Q text ⟨r.taken, r.findings, .error e⟩ :=
  h.stop (Nat.le_refl _) h.taken_le (h.failure e he)

theorem after (front : Text) (h : r.Fits (fun v s => P v (front ++ s)) text) :
    (r.after front).Fits P (front ++ text) := by
  have htake : (front ++ text).take (front.length + r.taken) = front ++ text.take r.taken :=
    List.take_length_add_append _
  refine ⟨?_, ?_, ?_, ?_⟩
  · have hle := h.taken_le
    simp only [Reading.after, List.length_append]
    omega
  · intro f hf
    obtain ⟨g, hg, rfl⟩ := List.mem_map.mp hf
    simp only [Reading.after, htake]
    exact (h.findings g hg).shift front
  · intro e he
    obtain ⟨e', hr, rfl⟩ := outcome_after_eq_error_iff.mp he
    rw [taken_after, htake]
    exact ⟨(h.failure e' hr).1, (h.failure e' hr).2.shift front⟩
  · intro v hv
    rw [taken_after, htake]
    exact h.value v (outcome_after_eq_ok_iff.mp hv)

theorem map {f : α → β} (h : r.Fits (fun v s => Q (f v) s) text) : (r.map f).Fits Q text := by
  refine ⟨h.taken_le, h.findings, ?_, ?_⟩
  · intro e he
    exact h.failure e (outcome_map_eq_error_iff.mp he)
  · intro w hw
    obtain ⟨v, hv, rfl⟩ := outcome_map_eq_ok_iff.mp hw
    exact h.value v hv

theorem judge {f : α → Except (Located ReferenceFailure) β} (h : r.Fits P text)
    (hok : ∀ v w, P v (text.take r.taken) → f v = .ok w → Q w (text.take r.taken))
    (herror : ∀ v e, P v (text.take r.taken) → f v = .error e →
      FailsIn e (text.take r.taken)) :
    (r.judge f).Fits Q text := by
  refine ⟨h.taken_le, h.findings, ?_, ?_⟩
  · intro e he
    rcases outcome_judge_eq_error_iff.mp he with hr | ⟨v, hv, hfailure⟩
    · exact h.failure e hr
    · exact herror v e (h.value v hv) hfailure
  · intro w hw
    obtain ⟨v, hv, hvalue⟩ := outcome_judge_eq_ok_iff.mp hw
    exact hok v w (h.value v hv) hvalue

theorem found {findings : List Finding} (h : r.Fits P text)
    (hfindings : ∀ f ∈ findings, f.span.Cuts (text.take r.taken)) :
    (r.found findings).Fits P text := by
  refine ⟨h.taken_le, ?_, h.failure, h.value⟩
  intro f hf
  rcases List.mem_append.mp hf with hf | hf
  · exact h.findings f hf
  · exact hfindings f hf

theorem noting {findings : α → List Finding} (h : r.Fits P text)
    (hfindings : ∀ v, P v (text.take r.taken) → ∀ f ∈ findings v,
      f.span.Cuts (text.take r.taken)) :
    (r.noting findings).Fits P text := by
  cases hr : r.outcome with
  | ok v => simpa [Reading.noting, hr] using h.found (hfindings v (h.value v hr))
  | error e => simpa [Reading.noting, hr] using h

theorem andThen {first : Reading α} {second : Reading β} (hfirst : first.Fits P text)
    (hsecond : second.Fits (fun w s => Q w (text.take first.taken ++ s))
      (text.drop first.taken)) :
    (first.andThen (text.take first.taken) second).Fits Q text := by
  have hafter := hsecond.after (text.take first.taken)
  rw [List.take_append_drop] at hafter
  have hle : first.taken ≤ (first.andThen (text.take first.taken) second).taken := by
    simp only [Reading.andThen, Reading.after, List.length_take, Nat.min_eq_left hfirst.taken_le]
    omega
  refine ⟨hafter.taken_le, ?_, hafter.failure, hafter.value⟩
  intro f hf
  rcases List.mem_append.mp hf with hf | hf
  · exact (hfirst.findings f hf).take_mono hle
  · exact hafter.findings f hf

theorem followedBy {first : Reading α} {next : α → Reader β} (hfirst : first.Fits P text)
    (hnext : ∀ v, P v (text.take first.taken) →
      (next v (text.drop first.taken)).Fits (fun w s => Q w (text.take first.taken ++ s))
        (text.drop first.taken)) :
    (first.followedBy text next).Fits Q text := by
  unfold Reading.followedBy
  split
  case h_1 e he => exact hfirst.error he
  case h_2 v hv => exact hfirst.andThen (hnext v (hfirst.value v hv))

theorem literal (front : Text) {r : Reading MakeText}
    (h : r.Fits (fun v s => MakeText.source v = s) text) :
    (r.literal front).Fits (fun v s => MakeText.source v = s) (front ++ text) :=
  (Fits.map (h.mono fun v s hv => by simpa using hv)).after front

end Fits

end RecipeLint.Reading

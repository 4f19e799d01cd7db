import RecipeLint.Proofs.Reading.Body
import RecipeLint.Proofs.Reading.Places
import RecipeLint.Proofs.Line.Shift

/-!
# What is found while reading

What readers find is put together from few pieces: nothing for plain characters, what was found in
two stretches of text one behind the other, and a finding about a whole modifier or reference behind
those made inside of it.  A property of findings that each of these keeps holds of all that is found.

The property may relate the findings to what was read.  Where reading fails, nothing is read that
could be related to them, so there is a second property for what is found on the way to a failure.
-/

namespace RecipeLint

open Reading

/-! ## What was read -/

/-- What a stretch of text holds, each thing with its place: references, those inside others too, and
modifiers that have no reference around them in this stretch. -/
structure Holding where
  references : List (Nat × Reference)
  modifiers : List (Nat × Modifier)

namespace Holding

def empty : Holding := ⟨[], []⟩

def shift (offset : Nat) (h : Holding) : Holding :=
  ⟨h.references.map (Reference.shiftStart offset), h.modifiers.map fun x => (x.1 + offset, x.2)⟩

def followedBy (size : Nat) (h k : Holding) : Holding :=
  ⟨h.references ++ (k.shift size).references, h.modifiers ++ (k.shift size).modifiers⟩

/-- What is to be found about the separators of the modifiers, which stand behind a name, is among
some findings. -/
def Noted (name : Text) (h : Holding) (fs : List Finding) : Prop :=
  ∀ y ∈ h.modifiers, ∀ f ∈ Modifier.separatorFindings name y.2, f.shift y.1 ∈ fs

end Holding

def MakeText.held (v : MakeText) : Holding :=
  ⟨MakeText.nested 0 v, []⟩

def Modifier.held : Option Modifier → Holding
  | none => .empty
  | some m => ⟨m.nested 0, [(0, m)]⟩

def Link.held (chain : List Link) : Holding :=
  ⟨Link.nestedAll 0 chain, Link.placed 0 chain⟩

def Reference.held : Option Reference → Holding
  | none => .empty
  | some r => ⟨(0, r) :: r.nested 0, []⟩

/-! ## Properties of findings -/

/-- Findings about a spelling, made at the end of what they are about. -/
def Cause.isNote : Cause → Bool
  | ambiguousName _ | unclosedLoop .. => true
  | invalidSeparator separator _ => !Modifier.isSeparator separator
  | _ => false

/-- A property `kept` of characters, of what they hold and of what was found in them that readers
keep, and a property `lost` of characters in which reading failed, and of what was found in them. -/
structure Logging (kept : Text → Holding → List Finding → Prop)
    (lost : Text → List Finding → Prop) : Prop where
  plain : ∀ s, kept s .empty []
  append : ∀ {s t h k fs gs}, kept s h fs → kept t k gs →
    kept (s ++ t) (h.followedBy (Text.byteSize s) k)
      (fs ++ gs.map (Located.shift (Text.byteSize s)))
  lose : ∀ {s h fs}, kept s h fs → lost s fs
  append_lost : ∀ {s t h fs gs}, kept s h fs → lost t gs →
    lost (s ++ t) (fs ++ gs.map (Located.shift (Text.byteSize s)))
  lost_append : ∀ {s fs}, lost s fs → ∀ t, lost (s ++ t) fs
  modifier : ∀ {s h fs}, kept s h fs → ∀ m, kept s ⟨h.references, (0, m) :: h.modifiers⟩ fs
  /-- A separator keeps the characters of the make text that names it, and no references. -/
  separator : ∀ {s h fs}, kept s h fs →
    kept ('t' :: 's' :: s) (Modifier.held (some (.separator s))) (fs.map (Located.shift 2))
  note : ∀ {s h fs} {cause : Cause}, kept s h fs → (∀ f ∈ fs, 0 < f.span.start) →
    cause.isNote → s ≠ [] → kept s h (fs ++ [⟨cause, .ofSize (Text.byteSize s)⟩])
  bare : ∀ c, kept ['$', c] (Reference.held (some (Reference.bareOf c))) []
  reference : ∀ {r : Reference} {fs gs}, r.Spells r.text → r.delimiter ≠ .bare →
    kept r.varname (MakeText.held r.name) fs → kept r.modifierText (Link.held r.chain) gs →
    (Link.held r.chain).Noted r.varname gs → kept r.text (Reference.held (some r))
      (fs.map (Located.shift r.nameOffset) ++ gs.map (Located.shift r.chainOffset) ++
        r.nameFindings ++ r.styleFindings)

namespace Logging

variable {kept : Text → Holding → List Finding → Prop} {lost : Text → List Finding → Prop}
  {s : Text} {h : Holding} {fs : List Finding}

theorem front (hlog : Logging kept lost) (hs : kept s h fs) (front : Text) :
    kept (front ++ s) (h.shift (Text.byteSize front))
      (fs.map (Located.shift (Text.byteSize front))) :=
  hlog.append (hlog.plain front) hs

theorem lost_front (hlog : Logging kept lost) (hs : lost s fs) (front : Text) :
    lost (front ++ s) (fs.map (Located.shift (Text.byteSize front))) :=
  hlog.append_lost (hlog.plain front) hs

end Logging

/-! ## Readings -/

theorem Located.shift_shift {α : Type} (m n : Nat) (f : Located α) :
    (f.shift m).shift n = f.shift (m + n) := by
  simp [Located.shift]

namespace Reading

variable {α β : Type}

theorem subset_findings_noting {findings : α → List Finding} {r : Reading α} {v : α}
    (h : (r.noting findings).outcome = .ok v) : findings v ⊆ (r.noting findings).findings := by
  unfold noting at h ⊢
  split at h
  case h_1 w hw =>
    obtain rfl := Except.ok.inj (hw.symm.trans h)
    exact List.subset_append_right _ _
  case h_2 e he => exact absurd (he.symm.trans h) nofun

/-- What the reading took and what it found stand in the relation `Q` to what it read, and have the
property `E` if it failed.  A failure is about some characters. -/
structure Logs (Q : α → Text → List Finding → Prop) (E : Text → List Finding → Prop) (text : Text)
    (r : Reading α) : Prop where
  value : ∀ v, r.outcome = .ok v → Q v (text.take r.taken) r.findings
  failure : ∀ e, r.outcome = .error e →
    e.span.start < e.span.stop ∧ E (text.take r.taken) r.findings

namespace Logs

variable {P : α → Text → Prop} {Q : α → Text → List Finding → Prop}
  {Q' : β → Text → List Finding → Prop} {E : Text → List Finding → Prop} {text : Text}
  {r : Reading α}

theorem take {count : Nat} {v : α} (hv : Q v (text.take count) []) :
    (Reading.take count v).Logs Q E text where
  value w hw := by
    obtain rfl : v = w := by simpa [Reading.take] using hw
    exact hv
  failure e he := by simp [Reading.take] at he

theorem done {v : α} (hv : Q v [] []) : (Reading.done v).Logs Q E text :=
  take (by simpa using hv)

theorem mono {R : α → Text → List Finding → Prop} (h : r.Logs Q E text)
    (himp : ∀ v s fs, Q v s fs → R v s fs) : r.Logs R E text :=
  ⟨fun v hv => himp v _ _ (h.value v hv), h.failure⟩

/-- What was read also stands in each relation in which it fits the text. -/
theorem and_fits (h : r.Logs Q E text) (hfits : r.Fits P text) :
    r.Logs (fun v s fs => P v s ∧ Q v s fs) E text :=
  ⟨fun v hv => ⟨hfits.value v hv, h.value v hv⟩, h.failure⟩

theorem error {e : Located ReferenceFailure} (h : r.Logs Q E text) (he : r.outcome = .error e) :
    Logs Q' E text ⟨r.taken, r.findings, .error e⟩ where
  value v hv := by simp at hv
  failure e' he' := by
    obtain rfl : e = e' := by simpa using he'
    exact h.failure e he

theorem after (front : Text)
    (h : r.Logs (fun v s fs => Q v (front ++ s) (fs.map (Located.shift (Text.byteSize front))))
      (fun s fs => E (front ++ s) (fs.map (Located.shift (Text.byteSize front)))) text) :
    (r.after front).Logs Q E (front ++ text) := by
  have htake : (front ++ text).take (front.length + r.taken) = front ++ text.take r.taken :=
    List.take_length_add_append _
  constructor
  · intro v hv
    rw [taken_after, htake]
    exact h.value v (outcome_after_eq_ok_iff.mp hv)
  · intro e he
    obtain ⟨e', hr, rfl⟩ := outcome_after_eq_error_iff.mp he
    obtain ⟨hspan, hlost⟩ := h.failure e' hr
    rw [taken_after, htake]
    exact ⟨Nat.add_lt_add_right hspan _, hlost⟩

theorem map {f : α → β} (h : r.Logs (fun v s fs => Q' (f v) s fs) E text) :
    (r.map f).Logs Q' E text := by
  constructor
  · intro w hw
    obtain ⟨v, hv, rfl⟩ := outcome_map_eq_ok_iff.mp hw
    exact h.value v hv
  · intro e he
    exact h.failure e (outcome_map_eq_error_iff.mp he)

theorem judge {f : α → Except (Located ReferenceFailure) β} (h : r.Logs Q E text)
    (hok : ∀ v w s fs, f v = .ok w → Q v s fs → Q' w s fs)
    (herror : ∀ v e, r.outcome = .ok v → f v = .error e → Q v (text.take r.taken) r.findings →
      e.span.start < e.span.stop ∧ E (text.take r.taken) r.findings) :
    (r.judge f).Logs Q' E text := by
  constructor
  · intro w hw
    obtain ⟨v, hv, hvalue⟩ := outcome_judge_eq_ok_iff.mp hw
    exact hok v w _ _ hvalue (h.value v hv)
  · intro e he
    rcases outcome_judge_eq_error_iff.mp he with hr | ⟨v, hv, hfailure⟩
    · exact h.failure e hr
    · exact herror v e hv hfailure (h.value v hv)

theorem noting {R : α → Text → List Finding → Prop} {findings : α → List Finding}
    (h : r.Logs Q E text)
    (hnoting : ∀ v s fs, Q v s fs → R v s (fs ++ findings v)) :
    (r.noting findings).Logs R E text := by
  cases hr : r.outcome with
  | ok v =>
    simp only [Reading.noting, hr, Reading.found]
    constructor
    · intro w hw
      obtain rfl : v = w := by simpa using hw
      exact hnoting v _ _ (h.value v hr)
    · intro e he
      simp at he
  | error e =>
    simp only [Reading.noting, hr]
    constructor
    · intro w hw
      simp [hr] at hw
    · intro e he
      exact h.failure e he

/-- A failure of a reading that goes on behind another is found behind what that one found. -/
theorem andThen {second : Reading β} (hle : r.taken ≤ text.length)
    (hsecond : second.Logs
      (fun w s fs => Q' w (text.take r.taken ++ s)
        (r.findings ++ fs.map (Located.shift (Text.byteSize (text.take r.taken)))))
      (fun s fs => E (text.take r.taken ++ s)
        (r.findings ++ fs.map (Located.shift (Text.byteSize (text.take r.taken)))))
      (text.drop r.taken)) :
    (r.andThen (text.take r.taken) second).Logs Q' E text := by
  have htake : text.take ((text.take r.taken).length + second.taken) =
      text.take r.taken ++ (text.drop r.taken).take second.taken := by
    rw [List.length_take_of_le hle, List.take_add]
  constructor
  · intro w hw
    rw [taken_andThen, htake]
    exact hsecond.value w (outcome_after_eq_ok_iff.mp hw)
  · intro e he
    obtain ⟨e', hr, rfl⟩ := outcome_after_eq_error_iff.mp he
    obtain ⟨hspan, hlost⟩ := hsecond.failure e' hr
    rw [taken_andThen, htake]
    exact ⟨Nat.add_lt_add_right hspan _, hlost⟩

end Logs

end Reading

/-! ## What is kept along readings -/

namespace Logging

variable {kept : Text → Holding → List Finding → Prop} {lost : Text → List Finding → Prop}
  (hlog : Logging kept lost) {α β : Type} {Q : α → Text → List Finding → Prop}
  {Q' : β → Text → List Finding → Prop} {text : Text} {r : Reading α}

include hlog

theorem after (front : Text)
    (h : r.Logs (fun v s fs => Q v (front ++ s) (fs.map (Located.shift (Text.byteSize front)))) lost
      text) : (r.after front).Logs Q lost (front ++ text) :=
  .after front ⟨h.value, fun e he =>
    ⟨(h.failure e he).1, hlog.lost_front (h.failure e he).2 front⟩⟩

theorem andThen {second : Reading β} {h : Holding} (hle : r.taken ≤ text.length)
    (hfirst : kept (text.take r.taken) h r.findings)
    (hsecond : second.Logs
      (fun w s fs => Q' w (text.take r.taken ++ s)
        (r.findings ++ fs.map (Located.shift (Text.byteSize (text.take r.taken))))) lost
      (text.drop r.taken)) :
    (r.andThen (text.take r.taken) second).Logs Q' lost text :=
  .andThen hle ⟨hsecond.value, fun e he =>
    ⟨(hsecond.failure e he).1, hlog.append_lost hfirst (hsecond.failure e he).2⟩⟩

theorem followedBy {next : α → Reader β} {P : α → Text → Prop} {held : α → Holding}
    (hfits : r.Fits P text) (hfirst : r.Logs (fun v s fs => kept s (held v) fs) lost text)
    (hnext : ∀ v, P v (text.take r.taken) → kept (text.take r.taken) (held v) r.findings →
      (next v (text.drop r.taken)).Logs
        (fun w s fs => Q' w (text.take r.taken ++ s)
          (r.findings ++ fs.map (Located.shift (Text.byteSize (text.take r.taken))))) lost
        (text.drop r.taken)) :
    (r.followedBy text next).Logs Q' lost text := by
  unfold Reading.followedBy
  split
  case h_1 e he => exact hfirst.error he
  case h_2 v hv =>
    have hv' := hfirst.value v hv
    exact hlog.andThen hfits.taken_le hv' (hnext v (hfits.value v hv) hv')

end Logging

end RecipeLint

import RecipeLint.Proofs.Reading.Fits

/-!
# Fences

No name, keyword or lookahead of a reader goes on across a blank, the start of an operator or a
closing delimiter.  A reader that stops in front of such a fence has therefore seen the fence at
most, and would have read the same whatever stood behind it.

There is one rule for each way to put readings together, and one for each way to look ahead.
-/

namespace RecipeLint

/-- Blanks, the characters that operators start with, and the closing delimiters. -/
def isFence (c : Char) : Bool :=
  " \t\n;&|()<>\x7d".toList.contains c

namespace Text

variable {b : Char} (s t : Text)

theorem takeWhile_fence {p : Char → Bool} (hb : p b = false) :
    (s ++ b :: t).takeWhile p = s.takeWhile p := by
  induction s with
  | nil => simp [hb]
  | cons c s ih => by_cases hc : p c <;> simp [hc, ih]

theorem dropWhile_fence {p : Char → Bool} (hb : p b = false) :
    (s ++ b :: t).dropWhile p = s.dropWhile p ++ b :: t := by
  induction s with
  | nil => simp [hb]
  | cons c s ih => by_cases hc : p c <;> simp [hc, ih]

theorem isPrefixOf_fence {symbol : Text} (hb : b ∉ symbol) :
    symbol.isPrefixOf (s ++ b :: t) = symbol.isPrefixOf s := by
  induction symbol generalizing s with
  | nil => simp
  | cons c symbol ih =>
    obtain ⟨hc, hsymbol⟩ : b ≠ c ∧ b ∉ symbol := by simpa using hb
    cases s with
    | nil => simp [List.isPrefixOf, Ne.symm hc]
    | cons d s => simp [List.isPrefixOf, ih s hsymbol]

end Text

namespace Reading

variable {α β : Type}

/-- The reader looks no further than a fence behind the characters that it takes, of which `ahead`
stand in front of its text. -/
def Fenced (ahead : Nat) (R : Reader α) : Prop :=
  ∀ s b t t', isFence b → (R (s ++ b :: t)).taken ≤ ahead + s.length →
    R (s ++ b :: t') = R (s ++ b :: t)

namespace Fenced

variable {ahead : Nat} {R : Reader α}

theorem comp {F : Reading α → Reading β} (more : Nat) (hF : ∀ r, (F r).taken = more + r.taken)
    (h : Fenced ahead R) : Fenced (more + ahead) fun text => F (R text) := by
  intro s b t t' hb htaken
  have hR : (R (s ++ b :: t)).taken ≤ ahead + s.length := by
    rw [hF] at htaken
    omega
  exact congrArg F (h s b t t' hb hR)

theorem map {f : α → β} (h : Fenced ahead R) : Fenced ahead fun text => (R text).map f := by
  have hmap := h.comp (F := Reading.map f) 0 fun _ => (Nat.zero_add _).symm
  rwa [Nat.zero_add] at hmap

theorem judge {f : α → Except (Located ReferenceFailure) β} (h : Fenced ahead R) :
    Fenced ahead fun text => (R text).judge f := by
  have hjudge := h.comp (F := fun r => r.judge f) 0 fun _ => (Nat.zero_add _).symm
  rwa [Nat.zero_add] at hjudge

theorem noting {findings : α → List Finding} (h : Fenced ahead R) :
    Fenced ahead fun text => (R text).noting findings := by
  have hnoting := h.comp (F := fun r => r.noting findings) 0 fun r => by
    rw [Reading.noting, Nat.zero_add]
    split <;> rfl
  rwa [Nat.zero_add] at hnoting

theorem after (front : Text) (h : Fenced ahead R) :
    Fenced (front.length + ahead) fun text => (R text).after front :=
  h.comp front.length fun _ => rfl

theorem behind (c : Char) (h : Fenced ahead R) :
    Fenced (ahead + 1) fun rest => R (c :: rest) := by
  intro s b t t' hb htaken
  apply h (c :: s) b t t' hb
  rw [List.length_cons, List.cons_append]
  dsimp only at htaken
  omega

theorem of_cons (hfence : ∀ b t t', isFence b → (R (b :: t)).taken ≤ ahead →
      R (b :: t') = R (b :: t))
    (hcons : ∀ c, Fenced (ahead + 1) fun rest => R (c :: rest)) : Fenced ahead R := by
  intro s b t t' hb htaken
  cases s with
  | nil => exact hfence b t t' hb htaken
  | cons c s =>
    apply hcons c s b t t' hb
    rw [List.length_cons, List.cons_append] at htaken
    dsimp only
    omega

theorem of_head (h : ∀ c t t', R (c :: t) = R (c :: t')) : Fenced ahead R :=
  of_cons (fun b t t' _ _ => h b t' t) fun c _ _ _ _ _ _ => h c _ _

theorem followedBy {next : α → Reader β} (hR : Fenced 0 R) (hnext : ∀ v, Fenced 0 (next v)) :
    Fenced 0 fun text => (R text).followedBy text next := by
  intro s b t t' hb htaken
  dsimp only at htaken ⊢
  have hle : (R (s ++ b :: t)).taken ≤ s.length := by
    unfold Reading.followedBy at htaken
    split at htaken
    case h_1 => simpa using htaken
    case h_2 =>
      simp only [Reading.andThen, Reading.after, List.length_take, List.length_append,
        List.length_cons] at htaken
      omega
  unfold Reading.followedBy at htaken ⊢
  rw [hR s b t t' hb (by omega)]
  cases hv : (R (s ++ b :: t)).outcome with
  | error failure => rfl
  | ok v =>
    simp only [hv, List.drop_append_of_le_length hle, List.take_append_of_le_length hle]
      at htaken ⊢
    simp only [Reading.andThen, Reading.after, List.length_take] at htaken
    rw [hnext v (s.drop (R (s ++ b :: t)).taken) b t t' hb (by rw [List.length_drop]; omega)]

end Fenced

end Reading

end RecipeLint

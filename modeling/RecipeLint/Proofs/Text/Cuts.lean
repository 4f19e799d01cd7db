import RecipeLint.Span

/-!
# Spans that cut characters out of a text

A span fits a text if it starts and stops where characters do.  Readers place what they find by
adding up sizes, so the facts needed are that such a span is the size of something written there,
and that it stays one when characters are put around the text.
-/

namespace RecipeLint

namespace Text

theorem splitAtByte?_byteSize (s t : Text) :
    splitAtByte? (byteSize s) (s ++ t) = some (s, t) := by
  induction s with
  | nil => simp [splitAtByte?]
  | cons c cs ih =>
    have hpos := c.utf8Size_pos
    obtain ⟨n, hn⟩ : ∃ n, byteSize (c :: cs) = n + 1 := ⟨byteSize (c :: cs) - 1, by
      simp only [byteSize_cons]; omega⟩
    have hrest : n + 1 - c.utf8Size = byteSize cs := by
      simp only [byteSize_cons] at hn
      omega
    have hfits : c.utf8Size ≤ n + 1 := by
      simp only [byteSize_cons] at hn
      omega
    rw [hn, List.cons_append, splitAtByte?, if_pos hfits, hrest, ih]
    rfl

theorem byteSize_pos {s : Text} (h : s ≠ []) : 0 < byteSize s := by
  cases s with
  | nil => exact absurd rfl h
  | cons c cs =>
    have hpos := c.utf8Size_pos
    simp only [byteSize_cons]
    omega

theorem length_le_byteSize (s : Text) : s.length ≤ byteSize s := by
  induction s with
  | nil => exact Nat.le_refl _
  | cons c cs ih =>
    have hpos := c.utf8Size_pos
    simp only [List.length_cons, byteSize_cons]
    omega

end Text

namespace Span

/-- The span starts and stops at characters of the text, and does not stop before it starts. -/
def Cuts (s : Span) (text : Text) : Prop :=
  ∃ front inside behind, text = front ++ inside ++ behind ∧
    s.start = Text.byteSize front ∧ s.stop = Text.byteSize (front ++ inside)

theorem cuts_ofSize (inside behind : Text) :
    (ofSize (Text.byteSize inside)).Cuts (inside ++ behind) :=
  ⟨[], inside, behind, by simp, rfl, by simp [ofSize]⟩

theorem cuts_ofSize_self (text : Text) : (ofSize (Text.byteSize text)).Cuts text := by
  simpa using cuts_ofSize text []

theorem Cuts.append {s : Span} {text : Text} (h : s.Cuts text) (behind : Text) :
    s.Cuts (text ++ behind) := by
  obtain ⟨front, inside, rest, rfl, hstart, hstop⟩ := h
  exact ⟨front, inside, rest ++ behind, by simp, hstart, hstop⟩

theorem Cuts.shift {s : Span} {text : Text} (h : s.Cuts text) (front : Text) :
    (s.shift (Text.byteSize front)).Cuts (front ++ text) := by
  obtain ⟨before, inside, rest, rfl, hstart, hstop⟩ := h
  refine ⟨front ++ before, inside, rest, by simp, ?_, ?_⟩
  · simp [Span.shift, hstart, Nat.add_comm]
  · simp [Span.shift, hstop, Nat.add_comm]

theorem Cuts.take_mono {s : Span} {text : Text} {m n : Nat} (h : s.Cuts (text.take m))
    (hmn : m ≤ n) : s.Cuts (text.take n) := by
  obtain ⟨k, rfl⟩ := Nat.exists_eq_add_of_le hmn
  rw [List.take_add]
  exact h.append _

theorem Cuts.start_le_stop {s : Span} {text : Text} (h : s.Cuts text) : s.start ≤ s.stop := by
  obtain ⟨front, inside, rest, rfl, hstart, hstop⟩ := h
  rw [hstart, hstop, Text.byteSize_append]
  omega

theorem Cuts.stop_le {s : Span} {text : Text} (h : s.Cuts text) :
    s.stop ≤ Text.byteSize text := by
  obtain ⟨front, inside, rest, rfl, hstart, hstop⟩ := h
  rw [hstop, Text.byteSize_append (front ++ inside)]
  omega

theorem slice?_eq (front inside behind : Text) :
    (Span.mk (Text.byteSize front) (Text.byteSize (front ++ inside))).slice?
      (front ++ inside ++ behind) = some inside := by
  have hsize : (Span.mk (Text.byteSize front) (Text.byteSize (front ++ inside))).size =
      Text.byteSize inside := by
    simp [size]
  rw [slice?, if_pos (by simp), hsize, List.append_assoc, Text.splitAtByte?_byteSize]
  simp [Text.splitAtByte?_byteSize]

end Span

end RecipeLint

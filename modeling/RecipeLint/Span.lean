import RecipeLint.Text.Basic

/-!
# Spans

A span is a half-open range of byte positions. Nothing ties a span to a text: it may end before it
starts or reach beyond the text, and then it selects nothing.
-/

namespace RecipeLint

/-- The positions from `start` up to, not including, `stop`. -/
structure Span where
  start : Nat
  stop : Nat
deriving DecidableEq

namespace Span

def empty (position : Nat) : Span := ⟨position, position⟩

def ofSize (size : Nat) : Span := ⟨0, size⟩

def size (s : Span) : Nat := s.stop - s.start

def isEmpty (s : Span) : Bool := s.start == s.stop

def contains (s : Span) (position : Nat) : Bool :=
  s.start ≤ position && position < s.stop

def merge (s t : Span) : Span := ⟨min s.start t.start, max s.stop t.stop⟩

def shift (offset : Nat) (s : Span) : Span := ⟨s.start + offset, s.stop + offset⟩

/-- The characters in the span, if it ends after it starts and both are positions of the text. -/
def slice? (s : Span) (text : Text) : Option Text :=
  if s.start ≤ s.stop then
    match Text.splitAtByte? s.start text with
    | some (_, after) => (Text.splitAtByte? s.size after).map Prod.fst
    | none => none
  else none

/-- The characters in the span, none if it does not fit the text. -/
def slice (s : Span) (text : Text) : Text :=
  (s.slice? text).getD []

@[simp] theorem shift_zero (s : Span) : s.shift 0 = s := rfl

@[simp] theorem shift_shift (m n : Nat) (s : Span) : (s.shift m).shift n = s.shift (m + n) := by
  simp [shift, Nat.add_assoc]

end Span

structure Located (α : Type) where
  value : α
  span : Span
deriving DecidableEq

def Located.shift {α : Type} (offset : Nat) (found : Located α) : Located α :=
  { found with span := found.span.shift offset }

end RecipeLint

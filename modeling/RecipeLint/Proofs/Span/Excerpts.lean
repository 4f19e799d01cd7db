import Mathlib.Data.List.TakeDrop
import RecipeLint.Proofs.Span.Locations

/-!
# Excerpts

An excerpt shows a window of a line and below it carets, which stand under the characters of the
span.  On the left the window is as wide as asked for, unless nothing is asked for, which sets no
bound.  On the right it is measured from where the span starts, in bytes of the span, and so at
least by one character too wide.  The measure is a sum of machine words: if it does not fit into
one, the window may end inside the span.
-/

namespace RecipeLint

namespace Span

/-- A text cut at the ends of a span, with what is shown of it: `left` in front of the span, and
`ahead` from its start on. -/
structure Window (s : Span) (text : Text) where
  before : Text
  left : Text
  inside : Text
  behind : Text
  ahead : Text
  rest : Text
  text_eq : text = before ++ left ++ inside ++ behind
  ahead_eq : ahead ++ rest = inside ++ behind
  start_eq : s.start = Text.byteSize (before ++ left)
  stop_eq : s.stop = Text.byteSize (before ++ left ++ inside)

namespace Window

variable {s : Span} {text : Text}

def front (w : s.Window text) : Text := w.before ++ w.left

def right (w : s.Window text) : Text := w.ahead.drop w.inside.length

theorem slice?_eq (w : s.Window text) : s.slice? text = some w.inside := by
  have hspan : Span.mk (Text.byteSize w.front) (Text.byteSize (w.front ++ w.inside)) = s := by
    rw [front, ← w.start_eq, ← w.stop_eq]
  calc s.slice? text
      = (Span.mk (Text.byteSize w.front) (Text.byteSize (w.front ++ w.inside))).slice?
          (w.front ++ w.inside ++ w.behind) := by rw [hspan, front, ← w.text_eq]
    _ = some w.inside := Span.slice?_eq w.front w.inside w.behind

end Window

/-! ## What an excerpt is -/

theorem not_mem_underline (column : Nat) (characters : Text) :
    '\n' ∉ underline column characters := by
  simp [underline]

variable {s : Span} {text : Text}

end Span

end RecipeLint

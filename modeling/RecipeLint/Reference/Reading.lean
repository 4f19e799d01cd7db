import RecipeLint.Reference.Basic

/-!
# Readings

A reader looks at a text and says how many of its characters it took, what it found on the way and
what it read. It never says where it stands, so it cannot go back, and a text is read in the same
way wherever it occurs: findings and failures are placed from where the reader started.
-/

namespace RecipeLint

/-- What a reader made of a text. Findings remain when the reading fails. -/
structure Reading (α : Type) where
  taken : Nat
  findings : List Finding
  outcome : Except (Located ReferenceFailure) α

abbrev Reader (α : Type) := Text → Reading α

namespace Reading

variable {α β : Type}

def done (value : α) : Reading α :=
  ⟨0, [], .ok value⟩

def take (count : Nat) (value : α) : Reading α :=
  ⟨count, [], .ok value⟩

/-- The same reading of a text with more characters in front. -/
def after (front : Text) (r : Reading α) : Reading α where
  taken := front.length + r.taken
  findings := r.findings.map (Located.shift (Text.byteSize front))
  outcome := r.outcome.mapError (Located.shift (Text.byteSize front))

def map (f : α → β) (r : Reading α) : Reading β :=
  { r with outcome := r.outcome.map f }

def judge (r : Reading α) (f : α → Except (Located ReferenceFailure) β) : Reading β :=
  { r with outcome := r.outcome.bind f }

/-- More findings, behind those made so far. -/
def found (r : Reading α) (findings : List Finding) : Reading α :=
  { r with findings := r.findings ++ findings }

def noting (r : Reading α) (findings : α → List Finding) : Reading α :=
  match r.outcome with
  | .ok value => r.found (findings value)
  | .error _ => r

/-- A reading, and another of what follows the characters `front` that the first one took. -/
def andThen (first : Reading α) (front : Text) (second : Reading β) : Reading β :=
  { second.after front with findings := first.findings ++ (second.after front).findings }

def followedBy (first : Reading α) (text : Text) (next : α → Reader β) : Reading β :=
  match first.outcome with
  | .error failure => ⟨first.taken, first.findings, .error failure⟩
  | .ok value => first.andThen (text.take first.taken) (next value (text.drop first.taken))

def literal (front : Text) (r : Reading MakeText) : Reading MakeText :=
  (r.map (MakeText.consLiteral front)).after front

end Reading

end RecipeLint

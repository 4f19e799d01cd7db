import RecipeLint.Reference.Reading

/-!
# Reading make text

Make text runs up to a character that ends it, where references inside it hide that character. How
a reference is read is left open here: the readers take it as an argument, so that the depth of
references inside one another is bounded in a single place.
-/

namespace RecipeLint

/-- Reads make text up to a character of `stop`, or to the end. A dollar sign that starts no
reference is literal. With `pairs`, a backslash hides the character behind it. -/
def makeText (nested : Reader (Option Reference)) (stop : Char → Bool) (pairs : Bool)
    (text : Text) : Reading MakeText :=
  match text with
  | [] => .done []
  | '$' :: '$' :: rest => (makeText nested stop pairs rest).literal ['$', '$']
  | '$' :: rest =>
    let inner := nested ('$' :: rest)
    match inner.outcome with
    | .ok (some reference) =>
      inner.andThen ('$' :: rest.take (inner.taken - 1))
        ((makeText nested stop pairs (rest.drop (inner.taken - 1))).map (.reference reference :: ·))
    | .ok none | .error ⟨.loneDollar _, _⟩ => (makeText nested stop pairs rest).literal ['$']
    | .error failure => ⟨inner.taken, inner.findings, .error failure⟩
  | '\\' :: c :: rest =>
    if stop '\\' then .done []
    else if pairs then (makeText nested stop pairs rest).literal ['\\', c]
    else (makeText nested stop pairs (c :: rest)).literal ['\\']
  | c :: rest => if stop c then .done [] else (makeText nested stop pairs rest).literal [c]
termination_by text.length
decreasing_by all_goals simp only [List.length_cons, List.length_drop]; omega

end RecipeLint

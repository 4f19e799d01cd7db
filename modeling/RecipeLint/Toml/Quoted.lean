import RecipeLint.Toml.Scalar

/-!
# Strings in TOML

Basic strings have escapes, literal strings have none, and both have a form of several lines. Each
function reads behind the opening quotes and gives the value and what follows the closing ones.
-/

namespace RecipeLint.Toml

/-- A tab, or a character that is no control character. -/
def isShown (c : Char) : Bool :=
  c == '\t' || (0x20 ≤ c.toNat && c.toNat != 0x7F)

def coded? (digits : Text) : Option Char :=
  (inBase? 16 digits).bind fun n => if h : n.isValidChar then some (Char.ofNatAux n h) else none

def escaped? : Char → Option Char
  | 'b' => some '\x08'
  | 't' => some '\t'
  | 'n' => some '\n'
  | 'f' => some '\x0c'
  | 'r' => some '\r'
  | '"' => some '"'
  | '\\' => some '\\'
  | _ => none

/-- An escape behind its backslash: its character, and how long it is. -/
def escape? : Text → Option (Char × Nat)
  | 'u' :: rest => if rest.length < 4 then none else (coded? (rest.take 4)).map (·, 5)
  | 'U' :: rest => if rest.length < 8 then none else (coded? (rest.take 8)).map (·, 9)
  | c :: _ => (escaped? c).map (·, 1)
  | [] => none

def basic? (text : Text) : Option (Text × Text) :=
  match text with
  | [] => none
  | '"' :: rest => some ([], rest)
  | '\\' :: rest =>
    match escape? rest with
    | none => none
    | some (c, length) => (basic? (rest.drop length)).map fun (value, rest) => (c :: value, rest)
  | c :: rest =>
    if isShown c then (basic? rest).map fun (value, rest) => (c :: value, rest) else none
termination_by text.length
decreasing_by all_goals simp only [List.length_cons, List.length_drop]; omega

def literal? : Text → Option (Text × Text)
  | [] => none
  | '\x27' :: rest => some ([], rest)
  | c :: rest =>
    if isShown c then (literal? rest).map fun (value, rest) => (c :: value, rest) else none

/-- What follows three quotes that close a string of several lines, where up to two more quotes in
front belong to the string. -/
def closing? (quote : Char) (text : Text) : Option (Text × Text) :=
  let quotes := text.takeWhile (· == quote)
  if quotes.length < 3 then none
  else
    let inside := min 2 (quotes.length - 3)
    some (List.replicate inside quote, text.drop (inside + 3))

/-- What follows a line break that a backslash hides, with the blanks around it. -/
def continued? (text : Text) : Option Text :=
  match text.dropWhile fun c => c == ' ' || c == '\t' with
  | '\n' :: rest => some (rest.dropWhile fun c => c == ' ' || c == '\t' || c == '\n')
  | _ => none

theorem length_continued? {text rest : Text} (h : continued? text = some rest) :
    rest.length ≤ text.length := by
  have shorter (p : Char → Bool) (t : Text) : (t.dropWhile p).length ≤ t.length :=
    (List.dropWhile_sublist p).length_le
  have blanks := shorter (fun c => c == ' ' || c == '\t') text
  unfold continued? at h
  split at h
  · rename_i line eq
    obtain rfl := Option.some.inj h
    have breaks := shorter (fun c => c == ' ' || c == '\t' || c == '\n') line
    rw [eq, List.length_cons] at blanks
    omega
  · simp at h

def basicLines? (text : Text) : Option (Text × Text) :=
  match closing? '"' text with
  | some done => some done
  | none =>
    match text with
    | [] => none
    | '\\' :: rest =>
      match _h : continued? rest with
      | some rest => basicLines? rest
      | none =>
        match escape? rest with
        | none => none
        | some (c, length) =>
          (basicLines? (rest.drop length)).map fun (value, rest) => (c :: value, rest)
    | c :: rest =>
      if isShown c || c == '\n' then
        (basicLines? rest).map fun (value, rest) => (c :: value, rest)
      else none
termination_by text.length
decreasing_by
  · have := length_continued? _h
    simp only [List.length_cons]; omega
  all_goals simp only [List.length_cons, List.length_drop]; omega

def literalLines? (text : Text) : Option (Text × Text) :=
  match closing? '\x27' text with
  | some done => some done
  | none =>
    match text with
    | [] => none
    | c :: rest =>
      if isShown c || c == '\n' then
        (literalLines? rest).map fun (value, rest) => (c :: value, rest)
      else none

/-- A line break directly behind the opening quotes is no part of the string. -/
def dropBreak : Text → Text
  | '\n' :: rest => rest
  | text => text

def string? : Text → Option (Text × Text)
  | '"' :: '"' :: '"' :: rest => basicLines? (dropBreak rest)
  | '\x27' :: '\x27' :: '\x27' :: rest => literalLines? (dropBreak rest)
  | '"' :: rest => basic? rest
  | '\x27' :: rest => literal? rest
  | _ => none

end RecipeLint.Toml

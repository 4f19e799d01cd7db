import RecipeLint.Toml.Quoted

/-!
# TOML documents

A document is a sequence of lines that set values, open tables, or say nothing. It is read whole or
not at all. Loops are bounded by the characters left, as each pass takes one at least.
-/

namespace RecipeLint.Toml

/-- How many arrays and inline tables may stand open, and how many keys a dotted key may have. -/
def maxDepth : Nat := 79

def isKeyChar (c : Char) : Bool :=
  c.isAlphanum || c == '_' || c == '-'

def skipBlanks (text : Text) : Text :=
  text.dropWhile fun c => c == ' ' || c == '\t'

/-- Drops blanks, line breaks and comments. In a comment, there may be no control character. -/
def skipLines (inComment : Bool) : Text → Option Text
  | [] => some []
  | c :: rest =>
    if c = '\n' then skipLines false rest
    else if inComment then if isShown c then skipLines true rest else none
    else if c = '#' then skipLines true rest
    else if c = ' ' ∨ c = '\t' then skipLines false rest
    else some (c :: rest)

def key? : Text → Option (Text × Text)
  | '"' :: rest => basic? rest
  | '\x27' :: rest => literal? rest
  | text =>
    match text.span isKeyChar with
    | ([], _) => none
    | (key, rest) => some (key, rest)

/-- Keys with dots between them, and what follows them and the blanks behind. -/
def path? : (fuel : Nat) → Text → Option (List Text × Text)
  | 0, _ => none
  | fuel + 1, text => do
    let (key, rest) ← key? (skipBlanks text)
    match skipBlanks rest with
    | '.' :: rest =>
      let (path, rest) ← path? fuel rest
      return (key :: path, rest)
    | rest => return ([key], rest)

def dottedKey? (text : Text) : Option (List Text × Text) :=
  (path? (text.length + 1) text).filter fun (path, _) => path.length ≤ maxDepth

section

variable (value : Text → Option (Value × Text))

def keyValue? (text : Text) : Option ((List Text × Value) × Text) := do
  let (path, rest) ← dottedKey? text
  match rest with
  | '=' :: rest =>
    let (v, rest) ← value (skipBlanks rest)
    return ((path, v), skipBlanks rest)
  | _ => none

/-- The items of an array, behind its bracket or a comma. -/
def items? : (fuel : Nat) → Text → Option (List Value × Text)
  | 0, _ => none
  | fuel + 1, text => do
    match ← skipLines false text with
    | ']' :: rest => return ([], rest)
    | text =>
      let (v, rest) ← value text
      match ← skipLines false rest with
      | ',' :: rest =>
        let (vs, rest) ← items? fuel rest
        return (v :: vs, rest)
      | ']' :: rest => return ([v], rest)
      | _ => none

/-- The entries of an inline table, behind those already read and a comma. -/
def members? : (fuel : Nat) → Entries → Text → Option (Entries × Text)
  | 0, _, _ => none
  | fuel + 1, entries, text => do
    let ((path, v), rest) ← keyValue? value text
    let entries ← Entries.put? path v .inline entries
    match rest with
    | ',' :: rest => members? fuel entries rest
    | '\x7d' :: rest => return (entries, rest)
    | _ => none

def inlineTable? (text : Text) : Option (Entries × Text) :=
  match skipBlanks text with
  | '\x7d' :: rest => some ([], rest)
  | text => members? value text.length [] text

end

/-- A value, in which so many arrays and inline tables may be opened. -/
def value? : (depth : Nat) → Text → Option (Value × Text)
  | 0, text => atom? text
  | depth + 1, text =>
    match text with
    | '[' :: rest => (items? (value? depth) (rest.length + 1) rest).map fun (items, rest) =>
      (.array items, rest)
    | '\x7b' :: rest => (inlineTable? (value? depth) rest).map fun (entries, rest) =>
      (.table .inline entries, rest)
    | _ => atom? text
where
  atom? (text : Text) : Option (Value × Text) :=
    match text with
    | '"' :: _ | '\x27' :: _ => (string? text).map fun (chars, rest) => (.string chars, rest)
    | _ =>
      let run := scalarRun text
      (scalar? run).map (·, text.drop run.length)

def endLine? (inComment : Bool) : Text → Option Text
  | [] => some []
  | c :: rest =>
    if c = '\n' then some rest
    else if inComment then if isShown c then endLine? true rest else none
    else if c = '#' then endLine? true rest
    else if c = ' ' ∨ c = '\t' then endLine? false rest
    else none

structure Draft where
  entries : Entries
  /-- The table that lines add to. -/
  path : List Text

def line? (draft : Draft) (text : Text) : Option (Draft × Text) :=
  match text with
  | '[' :: '[' :: rest => do
    let (path, rest) ← dottedKey? rest
    match rest with
    | ']' :: ']' :: rest => return (⟨← Entries.openItem? path draft.entries, path⟩, rest)
    | _ => none
  | '[' :: rest => do
    let (path, rest) ← dottedKey? rest
    match rest with
    | ']' :: rest => return (⟨← Entries.openTable? path draft.entries, path⟩, rest)
    | _ => none
  | _ => do
    let ((path, v), rest) ← keyValue? (value? maxDepth) text
    let entries ← Entries.descend? (fun kind => Entries.put? path v kind) .implied draft.path
      .header draft.entries
    return (⟨entries, draft.path⟩, rest)

def lines? : (fuel : Nat) → Draft → Text → Option Entries
  | 0, _, _ => none
  | fuel + 1, draft, text => do
    match ← skipLines false text with
    | [] => return draft.entries
    | text =>
      let (draft, rest) ← line? draft text
      lines? fuel draft (← endLine? false rest)

/-- Makes each line break one character. A carriage return occurs in line breaks only. -/
def unifyBreaks? : Text → Option Text
  | [] => some []
  | '\r' :: '\n' :: rest => (unifyBreaks? rest).map ('\n' :: ·)
  | c :: rest => if c = '\r' then none else (unifyBreaks? rest).map (c :: ·)

def dropMark : Text → Text
  | '\ufeff' :: rest => rest
  | text => text

def document? (text : Text) : Option Entries :=
  (unifyBreaks? (dropMark text)).bind fun text => lines? (text.length + 1) ⟨[], []⟩ text

end RecipeLint.Toml

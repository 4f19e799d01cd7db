import RecipeLint.Text.Basic

/-!
# TOML values

Tables keep their keys in order. How a table came about decides whether later lines may add to it:
a header may define a table that other headers only implied, dotted keys may extend a table that
dotted keys made, and an inline table is complete as it stands.
-/

namespace RecipeLint.Toml

inductive TableKind where
  /-- It has a header of its own, or is the document itself. -/
  | header
  /-- A header names a table inside it. -/
  | implied
  /-- A dotted key names a value inside it. -/
  | dotted
  | inline
deriving DecidableEq

/-- A value. Of numbers nothing is kept, as nothing here reads them. Dates and times are kept in
their standard spelling. -/
inductive Value where
  | string (text : Text)
  | boolean (value : Bool)
  | number
  | moment (spelling : Text)
  | array (items : List Value)
  | table (kind : TableKind) (entries : List (Text × Value))
  /-- An array whose tables have headers. -/
  | tables (items : List (List (Text × Value)))

abbrev Entries := List (Text × Value)

/-- The key of a date or a time where it is read as a table. -/
def momentKey : Text :=
  "$__toml_private_datetime".toList

/-- The entries of a value that is read as a table. A date or a time is one of a single entry, its
spelling. -/
def Value.entries? : Value → Option Entries
  | table _ entries => some entries
  | moment spelling => some [(momentKey, string spelling)]
  | _ => none

namespace Entries

def get? (key : Text) (entries : Entries) : Option Value :=
  (entries.find? fun entry => entry.1 == key).map Prod.snd

/-- Changes the value of a key where it stands, or adds the key at the end. Fails if the change
does. -/
def alter? (key : Text) (change : Option Value → Option Value) : Entries → Option Entries
  | [] => (change none).map fun value => [(key, value)]
  | entry :: entries =>
    if entry.1 = key then (change (some entry.2)).map fun value => (key, value) :: entries
    else (alter? key change entries).map (entry :: ·)

def add? (key : Text) (value : Value) (entries : Entries) : Option Entries :=
  if (get? key entries).isSome then none else some (entries ++ [(key, value)])

/-- Changes the entries of the table at the end of a path, where the tables on the way are made as
needed. A header goes through the last table of an array. A dotted key does not go through a table
that has a header. -/
def descend? (edit : TableKind → Entries → Option Entries) (fresh : TableKind) :
    (path : List Text) → TableKind → Entries → Option Entries
  | [], kind, entries => edit kind entries
  | key :: path, _, entries =>
    alter? key (fun
      | none => (descend? edit fresh path fresh []).map (.table fresh)
      | some (.table kind inner) =>
        if kind = .inline ∨ (fresh = .dotted ∧ kind = .header) then none
        else (descend? edit fresh path kind inner).map (.table kind)
      | some (.tables items) =>
        match items.getLast? with
        | some last =>
          (descend? edit fresh path .header last).map fun inner =>
            .tables (items.dropLast ++ [inner])
        | none => none
      | some _ => none) entries

def put? (path : List Text) (value : Value) (kind : TableKind) (entries : Entries) :
    Option Entries :=
  match path.getLast? with
  | none => none
  | some key =>
    let parents := path.dropLast
    descend? (fun kind inner =>
      if parents.isEmpty ∨ kind = .dotted then add? key value inner else none)
      .dotted parents kind entries

/-- Opens the table of a header. One that was only implied moves to the end. -/
def openTable? (path : List Text) (entries : Entries) : Option Entries :=
  match path.getLast? with
  | none => none
  | some key =>
    descend? (fun _ inner =>
      match get? key inner with
      | none => some (inner ++ [(key, .table .header [])])
      | some (.table .implied old) =>
        some (inner.filter (fun entry => entry.1 != key) ++ [(key, .table .header old)])
      | some _ => none) .implied path.dropLast .header entries

def openItem? (path : List Text) (entries : Entries) : Option Entries :=
  match path.getLast? with
  | none => none
  | some key =>
    descend? (fun _ inner =>
      alter? key (fun
        | none => some (.tables [[]])
        | some (.tables items) => some (.tables (items ++ [[]]))
        | some _ => none) inner) .implied path.dropLast .header entries

end Entries

end RecipeLint.Toml

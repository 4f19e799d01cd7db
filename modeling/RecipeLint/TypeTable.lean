import RecipeLint.Reference.Spelling
import RecipeLint.VarType

/-!
# Type tables

The types of variables by name, in the order of their first declaration. A key is the name of a
variable or of a family of them.
-/

namespace RecipeLint

namespace TypeTable

abbrev Entries := List (Text × VarType)

/-- Replaces the type of a name where it stands, or adds the name at the end. -/
def Entries.put (name : Text) (type : VarType) : Entries → Entries
  | [] => [(name, type)]
  | entry :: entries =>
    if entry.1 = name then (name, type) :: entries else entry :: put name type entries

def Entries.names (entries : Entries) : List Text :=
  entries.map Prod.fst

theorem Entries.names_put (name : Text) (type : VarType) (entries : Entries) :
    names (put name type entries) =
      if name ∈ names entries then names entries else names entries ++ [name] := by
  induction entries with
  | nil => simp [put, names]
  | cons entry entries ih =>
    simp only [names] at ih
    by_cases h : entry.1 = name
    · simp [put, names, h]
    · have h' : ¬ name = entry.1 := fun e => h e.symm
      simp only [put, names, h, h', if_false, List.map_cons, List.mem_cons, false_or, ih]
      split <;> simp_all

end TypeTable

/-- Types by name. No name is declared twice. -/
structure TypeTable where
  entries : TypeTable.Entries
  distinct : entries.names.Nodup

namespace TypeTable

def empty : TypeTable := ⟨[], List.nodup_nil⟩

/-- Declares a type, in the place of an earlier declaration of the same name. -/
def insert (table : TypeTable) (name : Text) (type : VarType) : TypeTable where
  entries := table.entries.put name type
  distinct := by
    rw [Entries.names_put]
    split
    · exact table.distinct
    · rename_i fresh
      exact List.nodup_append.2 ⟨table.distinct, by simp, by
        rintro a ha b hb rfl
        exact fresh (List.mem_singleton.1 hb ▸ ha)⟩

def ofList (entries : List (Text × VarType)) : TypeTable :=
  entries.foldl (fun table (name, type) => table.insert name type) empty

def get? (table : TypeTable) (name : Text) : Option VarType :=
  (table.entries.find? fun entry => entry.1 == name).map Prod.snd

def size (table : TypeTable) : Nat :=
  table.entries.length

def isEmpty (table : TypeTable) : Bool :=
  table.entries.isEmpty

/-- The type of a variable: under its name, or else under that of its family. -/
def lookup? (table : TypeTable) (name : Text) : Option VarType :=
  (table.get? name).or (table.get? (familyName name))

end TypeTable

end RecipeLint

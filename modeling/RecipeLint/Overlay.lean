import RecipeLint.VarType

/-!
# Overlays

An overlay changes settings and declares types of variables. Whether the names in a declaration mean
anything is a matter of each one.
-/

namespace RecipeLint

/-- What is declared of a variable: the name of its type alone, or more. -/
inductive Declaration where
  | short (basic : Text)
  | full (basic : Text) (list guessed : Bool) (permissions? : Option (List Text))
deriving DecidableEq

namespace Declaration

def basic : Declaration → Text
  | short basic | full basic _ _ _ => basic

def list : Declaration → Bool
  | short _ => false
  | full _ list _ _ => list

def guessed : Declaration → Bool
  | short _ => false
  | full _ _ guessed _ => guessed

/-- The names of the permissions. Without such a list, everything is granted. -/
def permissions? : Declaration → Option (List Text)
  | short _ => none
  | full _ _ _ permissions? => permissions?

end Declaration

/-- A name in a declaration that means nothing. -/
inductive UnknownName where
  | type (name : Text)
  | permission (name : Text)
deriving DecidableEq

def Declaration.resolve (d : Declaration) : Except UnknownName VarType :=
  match BasicType.ofName? d.basic with
  | none => .error (.type d.basic)
  | some basic =>
    match d.permissions?.map Permissions.ofNames with
    | some (.error name) => .error (.permission name)
    | some (.ok permissions) => .ok ⟨basic, d.list, d.guessed, permissions⟩
    | none => .ok ⟨basic, d.list, d.guessed, .unrestricted⟩

structure Overlay where
  warnQuoting? : Option Bool
  warnStyle? : Option Bool
  /-- By the name of the variable, in order. -/
  declarations : List (Text × Declaration)
deriving DecidableEq

end RecipeLint

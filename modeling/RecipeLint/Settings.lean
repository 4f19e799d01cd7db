import RecipeLint.Finding

/-!
# Settings

What is found does not depend on settings. They only choose what is reported.
-/

namespace RecipeLint

structure Settings where
  warnQuoting : Bool
  warnStyle : Bool
deriving DecidableEq

namespace Settings

def all : Settings := ⟨true, true⟩

def reports (s : Settings) (c : Cause) : Bool :=
  (s.warnQuoting || !c.isQuoting) && (s.warnStyle || !c.isStyle)

def select (s : Settings) (findings : List Finding) : List Finding :=
  findings.filter fun f => s.reports f.value

end Settings

end RecipeLint

import RecipeLint.Atom
import RecipeLint.VarType

/-!
# Uses of variables

Whether a reference needs quoting depends on where it is used: what the surrounding text is for,
which quotes are open there, and how much of a word the reference makes up.
-/

namespace RecipeLint

inductive Phase where
  /-- While the file is read. -/
  | load
  /-- When a recipe runs. -/
  | run
deriving DecidableEq

def Phase.name : Phase → String
  | load => "load_time"
  | run => "run_time"

inductive UseQuoting where
  | unknown
  | plain
  | double
  | single
  | backticks
  /-- The head of a loop, where blanks alone separate words. -/
  | forLoop
deriving DecidableEq

namespace UseQuoting

def ofQuoting : Quoting → UseQuoting
  | .plain => plain
  | .double | .backticksDouble | .doubleBackticksDouble => double
  | .single | .backticksSingle | .doubleBackticksSingle => single
  | .backticks | .doubleBackticks => backticks

def isQuoted : UseQuoting → Bool
  | double | single => true
  | _ => false

def name : UseQuoting → String
  | unknown => "unknown"
  | plain => "plain"
  | double => "d_quot"
  | single => "s_quot"
  | backticks => "backt"
  | forLoop => "for_loop"

def display : UseQuoting → String
  | unknown => "unknown"
  | plain => "plain"
  | double => "dquot"
  | single => "squot"
  | backticks => "backt"
  | forLoop => "for"

end UseQuoting

inductive Extent where
  /-- All of it, quotes aside. -/
  | wholeWord
  | wordPart
  | unknown
deriving DecidableEq

def Extent.name : Extent → String
  | wholeWord => "whole_word"
  | wordPart => "word_part"
  | unknown => "unknown"

structure Site where
  time : Phase
  /-- The type of the text as a whole. -/
  type? : Option VarType
  isLoop : Bool
deriving DecidableEq

namespace Site

def recipe : Site := ⟨.run, some (.ofBasic .shellCommand false), false⟩

def assignment (type? : Option VarType) : Site := ⟨.run, type?, false⟩

def loop : Site := ⟨.load, none, true⟩

def condition : Site := ⟨.load, none, false⟩

end Site

structure Use where
  time : Phase
  quoting : UseQuoting
  extent : Extent
  /-- The type of the surrounding text. -/
  type? : Option VarType
deriving DecidableEq

namespace Use

/-- The atom that covers a position, between those before it and those behind it. -/
def focus? (position : Nat) : List Atom → Option (List Atom × Atom × List Atom)
  | [] => none
  | a :: atoms =>
    if a.span.contains position then some ([], a, atoms)
    else (focus? position atoms).map fun (before, b, behind) => (a :: before, b, behind)

/-- The extent of an atom in its innermost word. Blanks, operators and comments end a word in every
state that has them, so that a reference in backticks is measured within its own command. -/
def extentOf (before : List Atom) (a : Atom) (behind : List Atom) : Extent :=
  if a.kind.isSeparator then .unknown
  else
    let inWord := List.takeWhile fun b : Atom => !b.kind.isSeparator
    if (inWord before.reverse ++ inWord behind).all Atom.isQuote then .wholeWord else .wordPart

def ofPosition (atoms : List Atom) (position : Nat) (site : Site) : Use :=
  match focus? position atoms with
  | none => ⟨site.time, .unknown, .unknown, site.type?⟩
  | some (before, a, behind) =>
    ⟨site.time, if site.isLoop then .forLoop else .ofQuoting a.quoting,
      extentOf before a behind, site.type?⟩

end Use

end RecipeLint

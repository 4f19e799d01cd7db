import RecipeLint.Text.Basic

/-!
# Quoting states

Backticks may hold quotes, double quotes may hold backticks, and those quotes again. Single quotes
hold literal text only. So there are nine states, each named by the open quotes from the outside
in, and a quote character leads from one to another.
-/

namespace RecipeLint

inductive Quoting where
  | plain
  | double
  | single
  | backticks
  | doubleBackticks
  | backticksDouble
  | backticksSingle
  | doubleBackticksDouble
  | doubleBackticksSingle
deriving DecidableEq

/-- Characters that stand for themselves in every state. -/
def isWordChar (c : Char) : Bool :=
  c.isAlphanum || 0x80 ≤ c.toNat || "!#%*+,-./:=?@[]^_\x7b\x7d~".toList.contains c

def isAsciiControl (c : Char) : Bool :=
  c.toNat < 0x20 || c.toNat == 0x7F

namespace Quoting

def all : List Quoting :=
  [plain, double, single, backticks, doubleBackticks, backticksDouble, backticksSingle,
    doubleBackticksDouble, doubleBackticksSingle]

/-- The state after a character that opens or closes a quote. -/
def next? : Quoting → Char → Option Quoting
  | plain, '"' => some double
  | plain, '\x27' => some single
  | plain, '\x60' => some backticks
  | double, '"' => some plain
  | double, '\x60' => some doubleBackticks
  | single, '\x27' => some plain
  | backticks, '\x60' => some plain
  | backticks, '"' => some backticksDouble
  | backticks, '\x27' => some backticksSingle
  | doubleBackticks, '\x60' => some double
  | doubleBackticks, '"' => some doubleBackticksDouble
  | doubleBackticks, '\x27' => some doubleBackticksSingle
  | backticksDouble, '"' => some backticks
  | backticksSingle, '\x27' => some backticks
  | doubleBackticksDouble, '"' => some doubleBackticks
  | doubleBackticksSingle, '\x27' => some doubleBackticks
  | _, _ => none

def inSingle : Quoting → Bool
  | single | backticksSingle | doubleBackticksSingle => true
  | _ => false

def inDouble : Quoting → Bool
  | double | backticksDouble | doubleBackticksDouble => true
  | _ => false

/-- Somewhere inside a backtick command. -/
def inBackticks : Quoting → Bool
  | plain | double | single => false
  | _ => true

/-- Operators, blanks and comments have a meaning: on the line itself and directly in a backtick
command. -/
def allowsOperators : Quoting → Bool
  | plain | backticks | doubleBackticks => true
  | _ => false

def allowsVariables (q : Quoting) : Bool := !q.inSingle

def allowsEscapes (q : Quoting) : Bool := !q.inSingle

/-- Whether a character may stand in a run of literal text. A dollar sign never does. -/
def isLiteral (q : Quoting) (c : Char) : Bool :=
  isWordChar c ||
    q.inSingle && (isAsciiControl c || " \"&();<>\\|\x60".toList.contains c) ||
    q.inDouble && (isAsciiControl c || " &\x27();<>|".toList.contains c)

/-- The character that an escaped character stands for, if the backslash does not stay. -/
def unescape? (q : Quoting) (c : Char) : Option Char :=
  if q.inSingle then none
  else if q.inDouble then if "\\\"\x60$".toList.contains c then some c else none
  else some c

/-- The character that opened the outermost quote, which is the one left open when the text ends
in this state. -/
def outermost? : Quoting → Option Char
  | plain => none
  | double | doubleBackticks | doubleBackticksDouble | doubleBackticksSingle => some '"'
  | single => some '\x27'
  | backticks | backticksDouble | backticksSingle => some '\x60'

/-- A short name: one letter for each open quote, from the outside in. -/
def code : Quoting → String
  | plain => "plain"
  | double => "d"
  | single => "s"
  | backticks => "b"
  | doubleBackticks => "db"
  | backticksDouble => "bd"
  | backticksSingle => "bs"
  | doubleBackticksDouble => "dbd"
  | doubleBackticksSingle => "dbs"

def name : Quoting → String
  | plain => "plain"
  | double => "d_quot"
  | single => "s_quot"
  | backticks => "backt"
  | doubleBackticks => "d_quot_backt"
  | backticksDouble => "backt_d_quot"
  | backticksSingle => "backt_s_quot"
  | doubleBackticksDouble => "d_quot_backt_d_quot"
  | doubleBackticksSingle => "d_quot_backt_s_quot"

end Quoting

end RecipeLint

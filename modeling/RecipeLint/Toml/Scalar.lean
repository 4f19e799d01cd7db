import RecipeLint.Toml.Value

/-!
# Numbers and dates in TOML

These values have no characters of their own at their ends, so the longest run of characters that
may occur in them is taken and judged as a whole.
-/

namespace RecipeLint.Toml

def hexDigit? (c : Char) : Option Nat :=
  if c.isDigit then some (c.toNat - '0'.toNat)
  else if 'a' ≤ c ∧ c ≤ 'f' then some (c.toNat - 'a'.toNat + 10)
  else if 'A' ≤ c ∧ c ≤ 'F' then some (c.toNat - 'A'.toNat + 10)
  else none

def inBase? (base : Nat) (digits : Text) : Option Nat :=
  digits.foldlM (fun n c =>
    match hexDigit? c with
    | some d => if d < base then some (base * n + d) else none
    | none => none) 0

/-- Removes underscores between digits. -/
def digits? (text : Text) : Option Text :=
  let groups := text.splitOn '_'
  if groups.all fun group => !group.isEmpty && group.all Char.isAlphanum then some groups.flatten
  else none

def decimals? (text : Text) : Option Text :=
  (digits? text).filter (·.all Char.isDigit)

def plainDecimals? (text : Text) : Option Text :=
  (decimals? text).filter fun digits => digits.length = 1 || digits.head? != some '0'

/-- Splits off a sign: whether it is a minus. -/
def sign : Text → Bool × Text
  | '+' :: text => (false, text)
  | '-' :: text => (true, text)
  | text => (false, text)

/-- Integers take 64 bits, one of them for the sign. -/
def maxInteger : Nat := 0x7FFFFFFFFFFFFFFF

def isInteger (text : Text) : Bool :=
  let fits (base : Nat) (digits : Text) :=
    (((digits? digits).bind (inBase? base)).any fun n => n ≤ maxInteger)
  match text with
  | '0' :: 'x' :: digits => fits 16 digits
  | '0' :: 'o' :: digits => fits 8 digits
  | '0' :: 'b' :: digits => fits 2 digits
  | _ =>
    let (negative, digits) := sign text
    (plainDecimals? digits).any fun digits =>
      Text.decimal digits ≤ if negative then maxInteger + 1 else maxInteger

/-- Whether a positive number rounds to infinity as a double: `digits` with `fraction` of them
behind the point, times a power of ten. -/
def overflows (digits : Text) (fraction : Nat) (exponentNegative : Bool) (exponent : Nat) : Bool :=
  let digits := digits.dropWhile (· == '0')
  let up := digits.length + if exponentNegative then 0 else exponent
  let down := fraction + if exponentNegative then exponent else 0
  if digits.isEmpty ∨ up ≤ down + 308 then false
  else if down + 310 < up then true
  else
    let limit := Nat.pow 2 1024 - Nat.pow 2 970
    let up := if exponentNegative then 0 else exponent
    if down ≤ up then limit ≤ Text.decimal digits * Nat.pow 10 (up - down)
    else limit * Nat.pow 10 (down - up) ≤ Text.decimal digits

def isFloat (text : Text) : Bool :=
  let (negative, body) := sign text
  if body = ['i', 'n', 'f'] ∨ body = ['n', 'a', 'n'] then true
  else
    let (mantissa, power) := body.span fun c => c != 'e' && c != 'E'
    let (whole, point) := mantissa.span (· != '.')
    let fraction? := match point with
      | [] => some []
      | _ :: rest => decimals? rest
    let exponent? := match power with
      | [] => some (false, 0)
      | _ :: rest => (decimals? (sign rest).2).map fun digits => ((sign rest).1, Text.decimal digits)
    if point.isEmpty ∧ power.isEmpty then false
    else
      match plainDecimals? whole, fraction?, exponent? with
      | some whole, some fraction, some (below, exponent) =>
        negative || !overflows (whole ++ fraction) fraction.length below exponent
      | _, _, _ => false

def twoDigits (low high : Nat) (a b : Char) : Bool :=
  a.isDigit && b.isDigit && low ≤ Text.decimal [a, b] && Text.decimal [a, b] ≤ high

def daysIn (year month : Nat) : Nat :=
  if month = 2 then
    if year % 4 = 0 ∧ (year % 100 ≠ 0 ∨ year % 400 = 0) then 29 else 28
  else if [4, 6, 9, 11].contains month then 30
  else 31

def isDate : Text → Bool
  | [y, z, u, v, '-', m, n, '-', d, e] =>
    [y, z, u, v].all Char.isDigit && twoDigits 1 12 m n &&
      twoDigits 1 (daysIn (Text.decimal [y, z, u, v]) (Text.decimal [m, n])) d e
  | _ => false

/-- The standard spelling of the distance of a time from universal time, or of nothing. No distance
has a plus. -/
def offset? : Text → Option Text
  | [] => some []
  | ['Z'] | ['z'] => some ['Z']
  | [s, h, i, ':', m, n] =>
    if (s == '+' || s == '-') && twoDigits 0 23 h i && twoDigits 0 59 m n then
      some [if [h, i, m, n].all (· == '0') then '+' else s, h, i, ':', m, n]
    else none
  | _ => none

/-- The standard spelling of a fraction of a second. Nine digits count, without zeros at their
end. -/
def fraction (digits : Text) : Text :=
  match ((digits.take 9).reverse.dropWhile (· == '0')).reverse with
  | [] => []
  | digits => '.' :: digits

def time? : Text → Option (Text × Text)
  | h :: i :: ':' :: m :: n :: ':' :: s :: t :: rest =>
    if twoDigits 0 23 h i && twoDigits 0 59 m n && twoDigits 0 60 s t then
      let seconds := [h, i, ':', m, n, ':', s, t]
      match rest with
      | '.' :: rest =>
        match rest.span Char.isDigit with
        | ([], _) => none
        | (digits, rest) => some (seconds ++ fraction digits, rest)
      | _ => some (seconds, rest)
    else none
  | _ => none

def dateTime? (text : Text) : Option Text :=
  let date := text.take 10
  if isDate date && "Tt ".toList.contains ((text.drop 10).headD 'x') then do
    let (time, rest) ← time? (text.drop 11)
    let offset ← offset? rest
    return date ++ 'T' :: time ++ offset
  else none

def moment? (text : Text) : Option Text :=
  if isDate text then some text
  else match time? text with
    | some (time, []) => some time
    | _ => dateTime? text

def isScalarChar (c : Char) : Bool :=
  c.isAlphanum || "_+-.:".toList.contains c

/-- The run of such characters at the start of a text. A blank may stand between a date and a
time. -/
def scalarRun (text : Text) : Text :=
  let run := text.takeWhile isScalarChar
  match text.drop run.length with
  | ' ' :: c :: rest =>
    if isDate run ∧ c.isDigit then run ++ ' ' :: (c :: rest).takeWhile isScalarChar else run
  | _ => run

def scalar? (run : Text) : Option Value :=
  if run = "true".toList then some (.boolean true)
  else if run = "false".toList then some (.boolean false)
  else if isInteger run || isFloat run then some .number
  else (moment? run).map .moment

end RecipeLint.Toml

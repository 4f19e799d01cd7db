import RecipeLint.Text.Basic

/-!
# UTF-8

Bytes that may or may not be the UTF-8 form of a text. A character is a lead byte and up to three
more. Which bytes may follow is settled by the lead byte, so that no character has two forms and
no surrogate has any; the first byte that does not fit ends the reading.
-/

namespace RecipeLint.Utf8

inductive Error where
  /-- Some bytes from an index on that begin no character. -/
  | invalid (index length : Nat)
  /-- The bytes end within the character that begins at an index. -/
  | incomplete (index : Nat)
deriving DecidableEq

def Error.message : Error → String
  | invalid index length => s!"invalid utf-8 sequence of {length} bytes from index {index}"
  | incomplete index => s!"incomplete utf-8 byte sequence from index {index}"

structure Range where
  first : Nat
  last : Nat

def Range.contains (r : Range) (byte : Nat) : Bool :=
  r.first ≤ byte && byte ≤ r.last

def tail : Range := ⟨0x80, 0xBF⟩

/-- A character of which some bytes are still to come. -/
structure Partial where
  bits : Nat
  /-- What each byte to come may be. -/
  owed : List Range

def lead? (byte : Nat) : Option Partial :=
  if byte < 0x80 then some ⟨byte, []⟩
  else if byte < 0xC2 then none
  else if byte < 0xE0 then some ⟨byte - 0xC0, [tail]⟩
  else if byte = 0xE0 then some ⟨0, [⟨0xA0, 0xBF⟩, tail]⟩
  else if byte = 0xED then some ⟨0xD, [⟨0x80, 0x9F⟩, tail]⟩
  else if byte < 0xF0 then some ⟨byte - 0xE0, [tail, tail]⟩
  else if byte = 0xF0 then some ⟨0, [⟨0x90, 0xBF⟩, tail, tail]⟩
  else if byte < 0xF4 then some ⟨byte - 0xF0, [tail, tail, tail]⟩
  else if byte = 0xF4 then some ⟨4, [⟨0x80, 0x8F⟩, tail, tail]⟩
  else none

def Partial.push? (p : Partial) (byte : Nat) : Option Partial :=
  match p.owed with
  | [] => none
  | next :: owed =>
    if next.contains byte then some ⟨p.bits * 64 + (byte - 0x80), owed⟩ else none

/-- Reads on within the character that began at an index, of which some bytes are taken. With none
taken, the next one leads. -/
def decodeFrom (index : Nat) (taken : Nat) (p : Partial) : List UInt8 → Except Error Text
  | [] => if taken = 0 then .ok [] else .error (.incomplete index)
  | byte :: bytes =>
    match if taken = 0 then lead? byte.toNat else p.push? byte.toNat with
    | none => .error (.invalid index (max taken 1))
    | some ⟨bits, []⟩ =>
      (decodeFrom (index + taken + 1) 0 ⟨0, []⟩ bytes).map (Char.ofNat bits :: ·)
    | some more => decodeFrom index (taken + 1) more bytes

/-- The text in UTF-8 form, or the first thing wrong with it. -/
def decode (bytes : List UInt8) : Except Error Text :=
  decodeFrom 0 0 ⟨0, []⟩ bytes

end RecipeLint.Utf8

/-!
# Text

Text is a list of characters. Positions in it count the bytes of its UTF-8 form, as tools do that
edit files by offset; a position is usable only where a character starts or the text ends.
-/

namespace RecipeLint

abbrev Text := List Char

namespace Text

/-- The number of bytes in the UTF-8 form. -/
def byteSize : Text → Nat
  | [] => 0
  | c :: cs => c.utf8Size + byteSize cs

/-- Splits after `offset` bytes, unless that lies inside a character or beyond the end. -/
def splitAtByte? : Nat → Text → Option (Text × Text)
  | 0, text => some ([], text)
  | _ + 1, [] => none
  | n + 1, c :: cs =>
    if c.utf8Size ≤ n + 1 then
      (splitAtByte? (n + 1 - c.utf8Size) cs).map fun (before, after) => (c :: before, after)
    else none

def str (text : Text) : String :=
  String.ofList text

def withoutEnding (ending text : Text) : Text :=
  if ending.isSuffixOf text then text.take (text.length - ending.length) else text

def ofNat (n : Nat) : Text :=
  (toString n).toList

def decimal (digits : Text) : Nat :=
  digits.foldl (fun n c => 10 * n + (c.toNat - '0'.toNat)) 0

def occursIn (part : Text) : Text → Bool
  | [] => part.isEmpty
  | c :: cs => part.isPrefixOf (c :: cs) || occursIn part cs

/-- Whether the code point of a character lies in one of some ranges, given by their first and last
members. -/
def isAmong (ranges : List (Nat × Nat)) (c : Char) : Bool :=
  ranges.any fun (first, last) => first ≤ c.toNat && c.toNat ≤ last

@[simp] theorem byteSize_nil : byteSize [] = 0 := rfl

@[simp] theorem byteSize_cons (c : Char) (cs : Text) :
    byteSize (c :: cs) = c.utf8Size + byteSize cs := rfl

@[simp] theorem byteSize_append (s t : Text) :
    byteSize (s ++ t) = byteSize s + byteSize t := by
  induction s with
  | nil => simp
  | cons c cs ih => simp [ih, Nat.add_assoc]

theorem append_of_splitAtByte? {n : Nat} {text before after : Text}
    (h : splitAtByte? n text = some (before, after)) :
    text = before ++ after ∧ byteSize before = n := by
  fun_induction splitAtByte? n text generalizing before with
  | case1 => simp_all
  | case2 => simp at h
  | case3 n c cs fits ih =>
    simp only [Option.map_eq_some_iff, Prod.mk.injEq] at h
    obtain ⟨⟨b, a⟩, hb, rfl, rfl⟩ := h
    obtain ⟨rfl, size⟩ := ih hb
    exact ⟨rfl, by simp only [byteSize_cons]; omega⟩
  | case4 => simp at h

end Text

/-- ASCII letters, digits and `_`: the characters of shell identifiers. -/
def isIdentifierChar (c : Char) : Bool :=
  c.isAlphanum || c == '_'

def isIdentifier : Text → Bool
  | [] => false
  | c :: cs => (c.isAlpha || c == '_') && cs.all isIdentifierChar

end RecipeLint

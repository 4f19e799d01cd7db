import RecipeLint.Command
import RecipeLint.Proofs.Line.Words

/-!
# Assignments

An assignment is its word cut in two behind the equals sign: nothing of it is lost, the value is a
part of the text by itself, and it is closed just as the word is, since the name is in no quotes.
-/

namespace RecipeLint

namespace Word

theorem closed_of_ofAtoms? {first : Atom} {others : List Atom} {after : Quoting} {w : Word}
    (h : ofAtoms? (first :: others) after = some w) : w.closed = (first.quoting == after) := by
  unfold ofAtoms? at h
  split at h
  case h_1 head last hhead hlast =>
    obtain rfl := Option.some.inj h
    obtain rfl := Option.some.inj hhead
    rfl
  case h_2 => simp at h

theorem elim_text_ofAtoms? (atoms : List Atom) (after : Quoting) :
    (ofAtoms? atoms after).elim [] text = atoms.flatMap Atom.text := by
  cases h : ofAtoms? atoms after with
  | none =>
    cases atoms with
    | nil => rfl
    | cons a atoms =>
      obtain ⟨w, hw⟩ := exists_ofAtoms? (List.cons_ne_nil a atoms) after
      simp [hw] at h
  | some w => rw [Option.elim_some, text, atoms_of_ofAtoms? h]

end Word

namespace Assignment

def valueText (a : Assignment) : Text :=
  a.value?.elim [] Word.text

/-- The atoms of the value: what is left of the first atom behind the equals sign, and the others. -/
def valueAtoms (name rest : Text) (first : Atom) (others : List Atom) : List Atom :=
  (if rest.isEmpty then []
    else [⟨.text, rest, ⟨first.span.start + Text.byteSize name + 1, first.span.stop⟩,
      first.quoting⟩]) ++ others

theorem flatMap_text_valueAtoms (name rest : Text) (first : Atom) (others : List Atom) :
    (valueAtoms name rest first others).flatMap Atom.text =
      rest ++ others.flatMap Atom.text := by
  cases rest <;> simp [valueAtoms]

theorem tile_valueAtoms {position : Nat} {name rest : Text} {first : Atom} {others : List Atom}
    (htile : Atom.Tile position (first :: others)) (htext : first.text = name ++ '=' :: rest) :
    Atom.Tile (position + Text.byteSize (name ++ ['='])) (valueAtoms name rest first others) := by
  obtain ⟨-, hspan, hothers⟩ := htile
  have hequals : Text.byteSize ['='] = 1 := rfl
  have hsize : Text.byteSize (name ++ '=' :: rest) =
      Text.byteSize name + 1 + Text.byteSize rest := by
    rw [← List.singleton_append, ← List.append_assoc, Text.byteSize_append, Text.byteSize_append,
      hequals]
  rw [Text.byteSize_append, hequals, ← Nat.add_assoc]
  rw [htext, hsize] at hspan
  cases rest with
  | nil =>
    rw [hspan] at hothers
    simpa [valueAtoms, Nat.add_assoc] using hothers
  | cons c rest =>
    refine ⟨by simp, ?_, hothers⟩
    rw [hspan]
    simp only [Nat.add_assoc]

theorem quoting_head_valueAtoms {last : Quoting} {name rest : Text} {first : Atom}
    {others behind : List Atom} (hfirst : first.quotingBehind = first.quoting)
    (hchain : Atom.Chain first.quotingBehind (others ++ behind) last) {b : Atom} {bs : List Atom}
    (h : valueAtoms name rest first others = b :: bs) : b.quoting = first.quoting := by
  cases rest with
  | nil =>
    obtain rfl : others = b :: bs := h
    exact hchain.1.trans hfirst
  | cons c rest =>
    obtain ⟨rfl, -⟩ := List.cons.inj h
    rfl

/-- An assignment is read from the first atom of its word, which is literal text in no quotes. -/
theorem ofWord?_cases {w : Word} {a : Assignment} (h : ofWord? w = some a) :
    ∃ first others rest, w.atoms = first :: others ∧ first.text = a.name ++ '=' :: rest ∧
      isIdentifier a.name ∧ a.span = w.span ∧ ∀ init last, w.atoms = init ++ [last] →
        a.value? = Word.ofAtoms? (valueAtoms a.name rest first others) last.quotingBehind := by
  unfold ofWord? at h
  split at h
  case h_1 => simp at h
  case h_2 first others hatoms =>
    split at h
    case isFalse => simp at h
    case isTrue =>
      split at h
      case h_2 => simp at h
      case h_1 name c rest hspan =>
        split at h
        case isFalse => simp at h
        case isTrue hidentifier =>
          obtain rfl := Option.some.inj h
          rw [List.span_eq_takeWhile_dropWhile] at hspan
          obtain ⟨hname, hrest⟩ := Prod.mk.inj hspan
          have hequals : c = '=' := by
            simpa [hrest] using List.head?_dropWhile_not (· != '=') first.text
          refine ⟨first, others, rest, hatoms, ?_, hidentifier, rfl, fun init last hlast => ?_⟩
          · rw [← hequals, ← hname, ← hrest, List.takeWhile_append_dropWhile]
          · rw [← hatoms, hlast, List.getLast?_append, List.getLast?_singleton]
            rfl

theorem quotingBehind_of_text {a : Atom} {name rest : Text} (hname : isIdentifier name)
    (h : a.text = name ++ '=' :: rest) : a.quotingBehind = a.quoting := by
  apply Atom.quotingBehind_of_quoteTo?
  apply Atom.quoteTo?_eq_none
  intro c hc
  rw [h] at hc
  cases name with
  | nil => simp [isIdentifier] at hname
  | cons d name => simp at hc

end Assignment

/-- The assignment says what its word does: a name and a value, which is closed just as the word is,
and which the text holds at its span. -/
structure Assignment.Reads (text : Text) (w : Word) (a : Assignment) : Prop where
  parts : w.text = a.name ++ '=' :: a.valueText
  name : isIdentifier a.name
  span : a.span = w.span
  value : ∀ v, a.value? = some v → v.span.slice? text = some v.text ∧ v.closed = w.closed

theorem Assignment.reads_of_ofWord? {text : Text} {q : Quoting} {w : Word} {a : Assignment}
    (hw : Token.word w ∈ Token.ofAtoms (lex text q).atoms (lex text q).quoting)
    (ha : ofWord? w = some a) : a.Reads text w := by
  obtain ⟨front, behind, hcut⟩ := Token.cutFrom_of_mem hw
  obtain ⟨init, last, hlast, hword⟩ := Token.ofAtoms?_of_mem (lex_chain text q) hw
  obtain ⟨first, others, rest, hatoms, htext, hname, hspan, hvalue⟩ := ofWord?_cases ha
  have hvalue := hvalue init last hlast
  have htile := lex_tile text q
  have hflat := flatMap_text_lex text q
  have hchain := lex_chain text q
  rw [hcut.parts] at htile hflat hchain
  rw [List.flatMap_append, List.flatMap_append, hatoms, List.flatMap_cons, htext] at hflat
  have hinside := (Atom.Tile.append.mp (Atom.Tile.append.mp htile).2).1
  rw [hatoms] at hinside hword
  have hvalues := tile_valueAtoms hinside htext
  have hvalueText : a.valueText = rest ++ others.flatMap Atom.text := by
    rw [valueText, hvalue, Word.elim_text_ofAtoms?, flatMap_text_valueAtoms]
  refine ⟨?_, hname, hspan, fun v hv => ?_⟩
  · rw [hvalueText, Word.text, hatoms, List.flatMap_cons, htext]
    simp
  rw [hv] at hvalue
  have hvtext : v.text = rest ++ others.flatMap Atom.text := by
    rw [← hvalueText, valueText, hv, Option.elim_some]
  refine ⟨?_, ?_⟩
  · have hparts : front.flatMap Atom.text ++ (a.name ++ ['=']) ++ v.text ++
        behind.flatMap Atom.text = text := by
      rw [← hflat, hvtext]
      simp
    rw [Word.span_of_ofAtoms? hvalues hvalue.symm, Nat.zero_add, ← Text.byteSize_append,
      ← Text.byteSize_append]
    have hslice := Span.slice?_eq (front.flatMap Atom.text ++ (a.name ++ ['='])) v.text
      (behind.flatMap Atom.text)
    rwa [hparts] at hslice
  · have hfirst := quotingBehind_of_text hname htext
    rw [hatoms] at hchain
    cases hcons : valueAtoms a.name rest first others with
    | nil => simp [hcons, Word.ofAtoms?] at hvalue
    | cons b bs =>
      have hhead := quoting_head_valueAtoms hfirst hchain.of_append hcons
      rw [hcons] at hvalue
      rw [Word.closed_of_ofAtoms? hvalue.symm, Word.closed_of_ofAtoms? hword, hhead]

end RecipeLint

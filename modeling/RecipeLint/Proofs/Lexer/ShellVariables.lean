import RecipeLint.Proofs.Lexer.Comments
import RecipeLint.Proofs.Lexer.Resume
import RecipeLint.Proofs.Reading.Again

/-!
# The grammar of shell variables

Two dollar signs start a shell variable just if one of its written forms stands there.  The reader
takes the first operator that fits and then as many characters as it can, and never goes back.  That
does no harm, since every operator consists of characters that may as well stand in the word behind
it, and a name ends where neither an operator nor the closing brace could begin.
-/

namespace RecipeLint

namespace ShellVariable

/-- What may stand between the name and the closing brace: nothing, or an operator and a word
without dollar signs, backslashes and braces. -/
def IsTail (tail : Text) : Prop :=
  tail = [] ∨ ∃ op ∈ expansions, ∃ word, tail = op ++ word ∧ ∀ c ∈ word, c ∉ "$\\\x7b\x7d".toList

/-- The written forms of a shell variable, by its name and by what stands behind it.  Without braces
a name ends only where what stands behind could not be a part of it. -/
inductive Written : (written name behind : Text) → Prop
  | process (behind : Text) : Written ['$', '$', '$', '$'] ['$'] behind
  | identifier {name behind : Text} (hname : isIdentifier name)
      (hend : ∀ c, behind.head? = some c → isIdentifierChar c = false) :
      Written ('$' :: '$' :: name) name behind
  | special {c : Char} (behind : Text) (hc : isSpecialName c) : Written ['$', '$', c] [c] behind
  | braced {name tail : Text} (behind : Text) (hne : name ≠ [])
      (hname : ∀ c ∈ name, isIdentifierChar c) (htail : IsTail tail) :
      Written ('$' :: '$' :: '\x7b' :: (name ++ tail ++ ['\x7d'])) name behind

/-- The text starts with a shell variable that is written in a certain way. -/
def StartsWith (text written name : Text) : Prop :=
  ∃ behind, text = written ++ behind ∧ Written written name behind

/-! ## Operators and words -/

theorem isWordChar_iff {c : Char} : isWordChar c ↔ c ∉ "$\\\x7b\x7d".toList := by
  simp [isWordChar]

theorem isWordChar_of_mem {op : Text} (hop : op ∈ expansions) : ∀ c ∈ op, isWordChar c := by
  have hall : expansions.all (·.all isWordChar) = true := by decide
  exact List.all_eq_true.mp (List.all_eq_true.mp hall op hop)

theorem of_find?_expansions {op text : Text}
    (h : expansions.find? (·.isPrefixOf text) = some op) : op ∈ expansions ∧ op <+: text :=
  ⟨List.mem_of_find?_eq_some h,
    List.isPrefixOf_iff_prefix.mp (List.find?_some (p := (List.isPrefixOf · text)) h)⟩

/-- Whichever operator is taken, with its word it is the longest run of characters of a word. -/
theorem expansionLength_of_starts {op text : Text} (hop : op ∈ expansions) (hstarts : op <+: text) :
    expansionLength text = (text.takeWhile isWordChar).length := by
  have hfind : (expansions.find? (·.isPrefixOf text)).isSome :=
    List.find?_isSome.mpr ⟨op, hop, List.isPrefixOf_iff_prefix.mpr hstarts⟩
  obtain ⟨taken, htaken⟩ := Option.isSome_iff_exists.mp hfind
  obtain ⟨htakenmem, rest, rfl⟩ := of_find?_expansions htaken
  have hword := isWordChar_of_mem htakenmem
  rw [List.takeWhile_append_of_pos hword, List.length_append]
  simp only [expansionLength, htaken, List.drop_left]

theorem isTail_take (text : Text) : IsTail (text.take (expansionLength text)) := by
  cases hfind : expansions.find? (·.isPrefixOf text) with
  | none =>
    left
    simp [expansionLength, hfind]
  | some op =>
    obtain ⟨hop, rest, rfl⟩ := of_find?_expansions hfind
    have htake : (op ++ rest).take (expansionLength (op ++ rest)) =
        op ++ rest.takeWhile isWordChar := by
      rw [expansionLength_of_starts hop (List.prefix_append _ _),
        ← List.takeWhile_append_of_pos (isWordChar_of_mem hop)]
      exact (List.prefix_iff_eq_take.mp (List.takeWhile_prefix _)).symm
    exact .inr ⟨op, hop, _, htake, fun c hc => isWordChar_iff.mp (List.mem_takeWhile_imp hc)⟩

theorem expansionLength_tail {tail : Text} (htail : IsTail tail) (behind : Text) :
    expansionLength (tail ++ '\x7d' :: behind) = tail.length := by
  rcases htail with rfl | ⟨op, hop, word, rfl, hword⟩
  · rfl
  · rw [expansionLength_of_starts hop ⟨word ++ '\x7d' :: behind, by simp⟩,
      Text.takeWhile_eq_iff.mpr ⟨List.all_eq_true.mpr fun c hc => ?_, rfl⟩]
    rcases List.mem_append.mp hc with hc | hc
    · exact isWordChar_of_mem hop c hc
    · exact isWordChar_iff.mpr (hword c hc)

theorem takeWhile_name {name tail : Text} (hname : ∀ c ∈ name, isIdentifierChar c)
    (htail : IsTail tail) (behind : Text) :
    (name ++ tail ++ '\x7d' :: behind).takeWhile isIdentifierChar = name := by
  have hnone : (tail ++ '\x7d' :: behind).takeWhile isIdentifierChar = [] := by
    rcases htail with rfl | ⟨op, hop, word, rfl, -⟩
    · rfl
    · have hall : expansions.all (·.head?.any fun c => !isIdentifierChar c) = true := by decide
      have hhead := List.all_eq_true.mp hall op hop
      cases op with
      | nil => simp at hhead
      | cons c op => simp_all
  rw [List.append_assoc, List.takeWhile_append_of_pos hname, hnone, List.append_nil]

/-! ## The reader -/

variable {text name : Text} {n : Nat}

theorem readBraced?_iff : readBraced? text = some (n, name) ↔
    ∃ tail behind, text = name ++ tail ++ '\x7d' :: behind ∧ n = (name ++ tail).length + 1 ∧
      name ≠ [] ∧ (∀ c ∈ name, isIdentifierChar c) ∧ IsTail tail := by
  rw [readBraced?_eq_some_iff]
  constructor
  · rintro ⟨rfl, hne, rfl, behind, hdrop⟩
    generalize hname : text.takeWhile isIdentifierChar = name at hne
    obtain ⟨rest, rfl⟩ : name <+: text := hname ▸ List.takeWhile_prefix _
    have hinside : insideLength (name ++ rest) = name.length + expansionLength rest := by
      simp only [insideLength, hname, List.drop_left]
    rw [hinside, List.drop_append, List.drop_of_length_le (Nat.le_add_right _ _), List.nil_append,
      Nat.add_sub_cancel_left] at hdrop
    have hle : expansionLength rest ≤ rest.length := by
      have hlength := congrArg List.length hdrop
      rw [List.length_drop, List.length_cons] at hlength
      omega
    refine ⟨rest.take (expansionLength rest), behind, ?_, ?_, hne, fun c hc => ?_, isTail_take rest⟩
    · rw [← hdrop, List.append_assoc, List.take_append_drop]
    · rw [hinside, List.length_append, List.length_take_of_le hle]
    · exact List.mem_takeWhile_imp (hname ▸ hc)
  · rintro ⟨tail, behind, rfl, rfl, hne, hname, htail⟩
    have hinside : insideLength (name ++ tail ++ '\x7d' :: behind) = (name ++ tail).length := by
      simp only [insideLength, takeWhile_name hname htail]
      rw [List.append_assoc, List.drop_left, expansionLength_tail htail, List.length_append]
    exact ⟨(takeWhile_name hname htail behind).symm, hne, by rw [hinside], behind,
      by rw [hinside, List.drop_left]⟩

theorem not_isLetter_of_isSpecialName {c : Char} (hc : isSpecialName c) :
    (c.isAlpha || c == '_') = false := by
  rw [Bool.eq_false_iff]
  intro hletter
  simp only [isSpecialName, Bool.or_eq_true, List.contains_iff_mem] at hc
  rcases hc with hdigit | hmem
  · delta Char.isAlpha Char.isUpper Char.isLower at hletter
    simp only [Char.isDigit, Bool.or_eq_true, Bool.and_eq_true, decide_eq_true_eq, beq_iff_eq,
      UInt32.le_iff_toNat_le] at hdigit hletter
    rcases hletter with hletter | rfl
    · simp at hdigit hletter
      omega
    · simp at hdigit
  · have hall : "@*#?!-".toList.all (fun c => !(c.isAlpha || c == '_')) = true := by decide
    simpa [hletter] using List.all_eq_true.mp hall c hmem

theorem Written.read?_eq {written behind : Text} (h : Written written name behind) :
    read? (written ++ behind) = some (written.length, name) := by
  cases h with
  | process => rfl
  | @identifier _ _ hname hend =>
    cases name with
    | nil => simp [isIdentifier] at hname
    | cons c cs =>
      obtain ⟨hc, hcs⟩ := Bool.and_eq_true_iff.mp hname
      have hdollar : c ≠ '$' := by
        rintro rfl
        simp at hc
      have hbrace : c ≠ '\x7b' := by
        rintro rfl
        simp at hc
      have hrun : (cs ++ behind).takeWhile isIdentifierChar = cs := by
        rw [List.takeWhile_append_of_pos (List.all_eq_true.mp hcs)]
        cases behind with
        | nil => simp
        | cons d behind => simp [hend d rfl]
      rw [List.cons_append, List.cons_append, List.cons_append, read?_name hdollar hbrace,
        if_pos hc, hrun]
      rfl
  | @special c _ hc =>
    have hdollar : c ≠ '$' := by
      rintro rfl
      simp [isSpecialName] at hc
    have hbrace : c ≠ '\x7b' := by
      rintro rfl
      simp [isSpecialName] at hc
    rw [List.cons_append, List.cons_append, List.cons_append, read?_name hdollar hbrace,
      if_neg (by simp [not_isLetter_of_isSpecialName hc]), if_pos hc]
    rfl
  | @braced _ tail _ hne hname htail =>
    have hread : readBraced? (name ++ tail ++ '\x7d' :: behind) =
        some ((name ++ tail).length + 1, name) :=
      readBraced?_iff.mpr ⟨tail, behind, rfl, rfl, hne, hname, htail⟩
    rw [List.append_assoc] at hread
    simp [read?, hread, Nat.add_assoc]

theorem startsWith_of_read? (h : read? text = some (n, name)) :
    ∃ written, n = written.length ∧ StartsWith text written name := by
  unfold read? at h
  split at h
  case h_1 behind =>
    obtain ⟨rfl, rfl⟩ := Prod.mk.inj (Option.some.inj h)
    exact ⟨_, rfl, behind, rfl, .process behind⟩
  case h_2 rest _ =>
    obtain ⟨⟨m, word⟩, hread, heq⟩ := Option.map_eq_some_iff.mp h
    obtain ⟨rfl, rfl⟩ := Prod.mk.inj heq
    obtain ⟨tail, behind, rfl, rfl, hne, hname, htail⟩ := readBraced?_iff.mp hread
    exact ⟨_, by simp [Nat.add_assoc], behind, by simp, .braced behind hne hname htail⟩
  case h_3 c rest _ _ =>
    split_ifs at h with hletter hspecial
    · obtain ⟨rfl, rfl⟩ := Prod.mk.inj (Option.some.inj h)
      refine ⟨_, rfl, rest.dropWhile isIdentifierChar, by simp, .identifier ?_ fun d hd => ?_⟩
      · exact Bool.and_eq_true_iff.mpr ⟨hletter, List.all_takeWhile⟩
      · have := List.head?_dropWhile_not isIdentifierChar rest
        simpa [hd] using this
    · obtain ⟨rfl, rfl⟩ := Prod.mk.inj (Option.some.inj h)
      exact ⟨_, rfl, rest, rfl, .special rest hspecial⟩
  case h_4 => simp at h

/-- The reader takes a shell variable just where one of the written forms stands. -/
theorem read?_eq_some_iff : read? text = some (n, name) ↔
    ∃ written, n = written.length ∧ StartsWith text written name := by
  refine ⟨startsWith_of_read?, ?_⟩
  rintro ⟨written, rfl, behind, rfl, hwritten⟩
  exact hwritten.read?_eq

end ShellVariable

/-! ## One step -/

namespace Lexer

open ShellVariable

variable {l : Lexer} {rest : Text}

theorem advance_of_startsWith {written name : Text} (hq : l.quoting.inSingle = false)
    (h : StartsWith ('$' :: '$' :: rest) written name) :
    (l.advance '$' ('$' :: rest)).1.kind = .shellVariable name ∧
      (l.advance '$' ('$' :: rest)).1.text = written := by
  have hread := read?_eq_some_iff.mpr ⟨written, rfl, h⟩
  have hatom : AtomReading.read l.quoting l.wordStart '$' ('$' :: rest) =
      ⟨.shellVariable name, written.length - 1, [], l.quoting⟩ := by
    simp [AtomReading.read, AtomReading.ofDollar, Quoting.allowsVariables, hq, hread]
  refine ⟨by simp only [advance, hatom], ?_⟩
  obtain ⟨hpos, -⟩ := takes_of_read? hread
  obtain ⟨behind, htext, -⟩ := h
  simp only [advance, hatom]
  rw [(Text.cons_take_pred hpos '$' ('$' :: rest)).1, htext, List.take_left]

/-- Two dollar signs that start no shell variable are an atom by themselves, and nothing is taken or
found beyond them. -/
theorem advance_of_not_startsWith (h : l.quoting.inSingle ∨
      ¬∃ written name, StartsWith ('$' :: '$' :: rest) written name) :
    (l.advance '$' ('$' :: rest)).1.kind = .text ∧
      (l.advance '$' ('$' :: rest)).1.text = ['$', '$'] ∧
      Moves (l.advance '$' ('$' :: rest)).1.span.stop (startInWord rest l.quoting)
        (l.advance '$' ('$' :: rest)).2 := by
  have hnone : (if l.quoting.allowsVariables then read? ('$' :: '$' :: rest) else none) = none := by
    rw [Option.eq_none_iff_forall_ne_some]
    rintro ⟨n, name⟩ hread
    obtain ⟨hq, hread⟩ := Option.ite_none_right_eq_some.mp hread
    rw [Quoting.allowsVariables, Bool.not_eq_true'] at hq
    obtain ⟨written, -, hstarts⟩ := read?_eq_some_iff.mp hread
    exact h.resolve_left (by simp [hq]) ⟨written, name, hstarts⟩
  have hatom : AtomReading.read l.quoting l.wordStart '$' ('$' :: rest) =
      ⟨.text, 1, [], l.quoting⟩ := by
    simp only [AtomReading.read, AtomReading.ofDollar, if_true, hnone]
  refine ⟨by simp only [advance, hatom], by simp [advance, hatom], ?_, ?_, ?_, ?_⟩ <;>
    simp [advance, hatom, startInWord, start, startsWord, AtomKind.isSeparator]

end Lexer

/-! ## A text -/

/-- What an atom is that starts with two dollar signs.  Outside of single quotes it is a shell
variable just if one of the written forms of these stands there, and then it is all of that form and
has its name.  Else it is the two dollar signs alone, and the text right behind them is split as if
no more had been looked at. -/
theorem lex_dollars {text : Text} {q : Quoting} {before behind : List Atom} {a : Atom}
    {rest : Text} (hatoms : (lex text q).atoms = before ++ a :: behind)
    (hdollars : (a :: behind).flatMap Atom.text = '$' :: '$' :: rest) :
    (∀ written name, a.kind = .shellVariable name ∧ a.text = written ↔
      a.quoting.inSingle = false ∧
        ShellVariable.StartsWith ('$' :: '$' :: rest) written name) ∧
    ((a.quoting.inSingle ∨
        ¬∃ written name, ShellVariable.StartsWith ('$' :: '$' :: rest) written name) →
      a.kind = .text ∧ a.text = ['$', '$'] ∧
        behind = (Lexer.startInWord rest a.quoting).run.1.map (Atom.shift a.span.stop)) := by
  obtain ⟨m, c, more, -, rfl, rfl, -⟩ := (Lexer.start text q).exists_step_of_run hatoms
  rw [Lexer.flatMap_text_advance] at hdollars
  obtain ⟨rfl, rfl⟩ := List.cons.inj hdollars
  refine ⟨fun written name => ⟨?_, fun ⟨hq, h⟩ => Lexer.advance_of_startsWith hq h⟩, fun h => ?_⟩
  · rintro ⟨hkind, rfl⟩
    by_cases hstarts : m.quoting.inSingle = false ∧
        ∃ written name, ShellVariable.StartsWith ('$' :: '$' :: rest) written name
    · obtain ⟨hq, written, name', h⟩ := hstarts
      obtain ⟨hkind', htext⟩ := Lexer.advance_of_startsWith hq h
      obtain rfl := AtomKind.shellVariable.inj (hkind.symm.trans hkind')
      exact ⟨hq, htext ▸ h⟩
    · have htext := (Lexer.advance_of_not_startsWith (l := m) (by
        rwa [not_and_or, Bool.not_eq_false] at hstarts)).1
      simp [htext] at hkind
  · obtain ⟨hkind, htext, hmoves⟩ := Lexer.advance_of_not_startsWith h
    exact ⟨hkind, htext, hmoves.run.1⟩

/-- In `$${f%%c}$${x-$y}` the first two dollar signs start a shell variable.  The next two do not,
since a word has no dollar sign, and everything behind them is split by itself. -/
theorem lex_dollars_braced :
    let text := ['$', '$', '\x7b', 'f', '%', '%', 'c', '\x7d', '$', '$', '\x7b', 'x', '-', '$', 'y',
      '\x7d']
    ∃ first second behind, (lex text .plain).atoms = first :: second :: behind ∧
      (first.kind = .shellVariable ['f'] ∧ first.text = text.take 8) ∧
      second.kind = .text ∧ second.text = ['$', '$'] ∧
      behind = (Lexer.startInWord (text.drop 10) .plain).run.1.map
        (Atom.shift second.span.stop) := by
  intro text
  let first : Atom := ⟨.shellVariable ['f'], text.take 8, ⟨0, 8⟩, .plain⟩
  let second : Atom := ⟨.text, ['$', '$'], ⟨8, 10⟩, .plain⟩
  let behind : List Atom := [⟨.text, ['\x7b', 'x', '-'], ⟨10, 13⟩, .plain⟩,
    ⟨.reference (Reference.bareOf 'y'), ['$', 'y'], ⟨13, 15⟩, .plain⟩,
    ⟨.text, ['\x7d'], ⟨15, 16⟩, .plain⟩]
  have hatoms : (lex text .plain).atoms = first :: second :: behind := by
    with_unfolding_all rfl
  have hwritten : ShellVariable.Written
      ('$' :: '$' :: '\x7b' :: (['f'] ++ ['%', '%', 'c'] ++ ['\x7d'])) ['f'] (text.drop 8) :=
    .braced _ (by decide) (List.forall_mem_singleton.mpr (by decide))
      (.inr ⟨['%', '%'], by decide, ['c'], rfl, List.forall_mem_singleton.mpr (by decide)⟩)
  have hnone : ShellVariable.read? (text.drop 8) = none := rfl
  refine ⟨first, second, behind, hatoms, ?_,
    (@lex_dollars text _ [first] behind second (text.drop 10) hatoms rfl).2 (.inr ?_)⟩
  · exact ((@lex_dollars text _ [] (second :: behind) first (text.drop 2) hatoms rfl).1 _ _).mpr
      ⟨rfl, text.drop 8, rfl, hwritten⟩
  · rintro ⟨written, name, h⟩
    have hread := ShellVariable.read?_eq_some_iff.mpr ⟨written, rfl, h⟩
    exact Option.some_ne_none _ (hread.symm.trans hnone)

end RecipeLint

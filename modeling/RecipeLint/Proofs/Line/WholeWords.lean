import RecipeLint.Proofs.Lexer.States
import RecipeLint.Proofs.Line.QuotingCauses
import RecipeLint.Word

/-!
# References that make up a word

Whether a reference makes up a word is decided twice: from the atoms around it up to the nearest
blank, operator or comment, and from the word that it is in.  A word goes on across what separates
words inside of a backtick command.  So both agree where the word holds no such command, or one
without a separator, and otherwise only the word counts for anything behind the separator.
-/

namespace RecipeLint

/-! ## Words among the atoms -/

/-- The word is cut out of the atoms: none of its own stands between words, and those next to it
do. -/
structure Word.CutFrom (w : Word) (atoms front behind : List Atom) : Prop where
  parts : atoms = front ++ (w.atoms ++ behind)
  inside : ∀ b ∈ w.atoms, b.isBetweenWords = false
  front : ∀ b, front.getLast? = some b → b.isBetweenWords
  behind : ∀ b, behind.head? = some b → b.isBetweenWords

namespace Word

theorem atoms_of_ofAtoms? {atoms : List Atom} {after : Quoting} {w : Word}
    (h : ofAtoms? atoms after = some w) : w.atoms = atoms := by
  unfold ofAtoms? at h
  split at h
  case h_1 =>
    obtain rfl := Option.some.inj h
    rfl
  case h_2 => simp at h

theorem exists_ofAtoms? {atoms : List Atom} (hne : atoms ≠ []) (after : Quoting) :
    ∃ w, ofAtoms? atoms after = some w := by
  obtain ⟨first, rest, rfl⟩ := List.exists_cons_of_ne_nil hne
  exact ⟨_, by rw [ofAtoms?, List.head?_cons, List.getLast?_cons]⟩

end Word

namespace Token

theorem word_mem_ofWord? {atoms : List Atom} {after : Quoting} {w : Word} :
    word w ∈ (ofWord? atoms after).toList ↔ Word.ofAtoms? atoms after = some w := by
  cases h : Word.ofAtoms? atoms after <;> simp [ofWord?, h, eq_comm]

theorem word_not_mem_ofSeparator? {a : Atom} {w : Word} : word w ∉ (ofSeparator? a).toList := by
  unfold ofSeparator?
  split <;> simp

variable {after : Quoting}

theorem cutFrom_of_mem_after {before atoms : List Atom} {w : Word}
    (hbefore : ∀ b ∈ before, b.isBetweenWords = false)
    (h : word w ∈ ofAtomsAfter after before atoms) :
    ∃ front behind, w.CutFrom (before ++ atoms) front behind := by
  induction atoms generalizing before with
  | nil =>
    obtain rfl := Word.atoms_of_ofAtoms? (word_mem_ofWord?.mp h)
    exact ⟨[], [], by simp, hbefore, by simp, by simp⟩
  | cons a atoms ih =>
    rw [ofAtomsAfter] at h
    split at h
    case isTrue ha =>
      rw [List.mem_append, List.mem_append] at h
      rcases h with (h | h) | h
      · obtain rfl := Word.atoms_of_ofAtoms? (word_mem_ofWord?.mp h)
        exact ⟨[], a :: atoms, by simp, hbefore, by simp, by simp [ha]⟩
      · exact absurd h word_not_mem_ofSeparator?
      · obtain ⟨front, behind, hparts, hinside, hfront, hbehind⟩ := ih (by simp) h
        refine ⟨before ++ a :: front, behind, by simp_all, hinside, fun b hb => ?_, hbehind⟩
        rw [List.getLast?_append, List.getLast?_cons] at hb
        cases hlast : front.getLast? with
        | none =>
          obtain rfl : a = b := by simpa [hlast] using hb
          exact ha
        | some c =>
          obtain rfl : c = b := by simpa [hlast] using hb
          exact hfront c hlast
    case isFalse ha =>
      have hopen : ∀ b ∈ before ++ [a], b.isBetweenWords = false := by
        intro b hb
        rcases List.mem_append.mp hb with hb | hb
        · exact hbefore b hb
        · obtain rfl := List.mem_singleton.mp hb
          simpa using ha
      simpa using ih hopen h

theorem cutFrom_of_mem {atoms : List Atom} {w : Word} (h : word w ∈ ofAtoms atoms after) :
    ∃ front behind, w.CutFrom atoms front behind :=
  cutFrom_of_mem_after (by simp) h

theorem exists_word_after {before atoms : List Atom} {a : Atom} (ha : a.isBetweenWords = false)
    (hmem : a ∈ before ++ atoms) :
    ∃ w, word w ∈ ofAtomsAfter after before atoms ∧ a ∈ w.atoms := by
  have hword {atoms : List Atom} (hmem : a ∈ atoms) (after : Quoting) :
      ∃ w, word w ∈ (ofWord? atoms after).toList ∧ a ∈ w.atoms := by
    obtain ⟨w, hw⟩ := Word.exists_ofAtoms? (List.ne_nil_of_mem hmem) after
    exact ⟨w, word_mem_ofWord?.mpr hw, Word.atoms_of_ofAtoms? hw ▸ hmem⟩
  induction atoms generalizing before with
  | nil => exact hword (by simpa using hmem) after
  | cons b atoms ih =>
    rw [ofAtomsAfter]
    split
    case isTrue hb =>
      have hne : a ≠ b := by
        rintro rfl
        simp [ha] at hb
      rcases List.mem_append.mp hmem with hmem | hmem
      · obtain ⟨w, hw, haw⟩ := hword hmem .plain
        exact ⟨w, List.mem_append_left _ (List.mem_append_left _ hw), haw⟩
      · obtain ⟨w, hw, haw⟩ := @ih [] (by simpa [hne] using hmem)
        exact ⟨w, List.mem_append_right _ hw, haw⟩
    case isFalse => exact ih (by simpa using hmem)

theorem exists_word_of_mem {atoms : List Atom} {a : Atom} (ha : a.isBetweenWords = false)
    (hmem : a ∈ atoms) : ∃ w, word w ∈ ofAtoms atoms after ∧ a ∈ w.atoms :=
  exists_word_after ha hmem

end Token

/-! ## The extent in the word -/

theorem Atom.isSeparator_of_isBetweenWords {a : Atom} (h : a.isBetweenWords) :
    a.kind.isSeparator :=
  (Bool.and_eq_true_iff.mp h).2

theorem Atom.quoting_of_isBetweenWords {a : Atom} (h : a.isBetweenWords) : a.quoting = .plain :=
  beq_iff_eq.mp (Bool.and_eq_true_iff.mp h).1

theorem Atom.quotingBehind_of_isBetweenWords {a : Atom} (h : a.isBetweenWords) :
    a.quotingBehind = .plain := by
  rw [quotingBehind_of_quoteTo?, quoting_of_isBetweenWords h]
  apply quoteTo?_eq_none_of_not_isText
  have hseparator := isSeparator_of_isBetweenWords h
  cases hkind : a.kind <;> simp_all [AtomKind.isSeparator, AtomKind.isText]

theorem Atom.not_isSeparator_of_isQuote {a : Atom} (h : a.isQuote) :
    a.kind.isSeparator = false := by
  cases hkind : a.kind <;> simp_all [isQuote, quoteTo?, AtomKind.isSeparator]

namespace Use

/-- The extent of an atom in a word is up to the word alone. -/
theorem extentOf_cutFrom {w : Word} {atoms front behind before others : List Atom} {a : Atom}
    (hcut : w.CutFrom atoms front behind) :
    extentOf (front ++ before) a (others ++ behind) = extentOf before a others := by
  have hbehind : extentOf (front ++ before) a (others ++ behind) =
      extentOf (front ++ before) a others := by
    cases behind with
    | nil => rw [List.append_nil]
    | cons b behind =>
      have hb := Atom.isSeparator_of_isBetweenWords (hcut.behind b rfl)
      simp only [extentOf, takeWhile_append_separator hb]
  rw [hbehind]
  rcases List.eq_nil_or_concat front with rfl | ⟨init, b, rfl⟩
  · rfl
  · have hb := Atom.isSeparator_of_isBetweenWords (hcut.front b (by simp))
    rw [List.concat_eq_append, List.append_assoc]
    exact extentOf_append_before hb init before a others

/-- Whether nothing but quotes stands in front of the next separator. -/
def onlyQuotes (atoms : List Atom) : Bool :=
  (atoms.takeWhile fun b => !b.kind.isSeparator).all Atom.isQuote

theorem onlyQuotes_of_forall {atoms : List Atom} (h : ∀ b ∈ atoms, b.kind.isSeparator = false) :
    onlyQuotes atoms = atoms.all Atom.isQuote := by
  rw [onlyQuotes, List.takeWhile_eq_self_iff.mpr fun b hb => by simp [h b hb]]

theorem onlyQuotes_append (front behind : List Atom) :
    onlyQuotes (front ++ behind) ↔ onlyQuotes front ∧
      ((∀ b ∈ front, b.kind.isSeparator = false) → onlyQuotes behind) := by
  induction front with
  | nil => simp [onlyQuotes]
  | cons b front ih =>
    simp only [onlyQuotes, List.cons_append, List.takeWhile_cons, List.forall_mem_cons] at ih ⊢
    cases hb : b.kind.isSeparator with
    | true => simp
    | false => simp [ih, and_assoc]

variable {before behind : List Atom} {a : Atom}

theorem extentOf_eq_wholeWord_iff (ha : a.kind.isSeparator = false) :
    extentOf before a behind = .wholeWord ↔
      onlyQuotes before.reverse ∧ onlyQuotes behind := by
  simp only [extentOf, ha, onlyQuotes]
  split_ifs <;> simp_all

theorem extentOf_ne_unknown (ha : a.kind.isSeparator = false) :
    extentOf before a behind ≠ .unknown := by
  simp only [extentOf, ha]
  split_ifs <;> simp_all

theorem extentOf_whole_or_part (ha : a.kind.isSeparator = false) :
    extentOf before a behind = .wholeWord ∨ extentOf before a behind = .wordPart := by
  have hne : extentOf before a behind ≠ .unknown := extentOf_ne_unknown ha
  cases h : extentOf before a behind <;> simp_all

/-- Nothing but quotes stands around an atom if the word around it is made of quotes and ends where
the atoms do. -/
theorem all_isQuote_iff (ha : a.kind.isSeparator = false) :
    (before ++ behind).all Atom.isQuote ↔ extentOf before a behind = .wholeWord ∧
      ∀ b ∈ before ++ behind, b.kind.isSeparator = false := by
  rw [extentOf_eq_wholeWord_iff ha]
  constructor
  · intro h
    have hseparator : ∀ b ∈ before ++ behind, b.kind.isSeparator = false := fun b hb =>
      Atom.not_isSeparator_of_isQuote (List.all_eq_true.mp h b hb)
    rw [onlyQuotes_of_forall fun b hb => hseparator b (by simp_all),
      onlyQuotes_of_forall fun b hb => hseparator b (by simp_all)]
    simp_all
  · rintro ⟨h, hseparator⟩
    rw [onlyQuotes_of_forall fun b hb => hseparator b (by simp_all),
      onlyQuotes_of_forall fun b hb => hseparator b (by simp_all)] at h
    simp_all

end Use

/-- A reference is the sole one of its word if all others of the word are quotes. -/
theorem Word.soleReference?_eq_some_iff {w : Word} {before behind : List Atom} {a : Atom}
    {r : Reference} (hparts : w.atoms = before ++ a :: behind) (hr : a.kind = .reference r) :
    w.soleReference? = some r ↔ (before ++ behind).all Atom.isQuote := by
  have hquote : a.isQuote = false := by simp [Atom.isQuote, Atom.quoteTo?, hr]
  have hsole : a.reference? = some r := by simp [Atom.reference?, hr, AtomKind.reference?]
  have hfilter (atoms : List Atom) :
      atoms.filter (fun b => !b.isQuote) = [] ↔ atoms.all Atom.isQuote := by
    simp [List.filter_eq_nil_iff]
  have hatoms : w.atoms.filter (fun b => !b.isQuote) =
      before.filter (fun b => !b.isQuote) ++ a :: behind.filter fun b => !b.isQuote := by
    simp [hparts, hquote]
  rw [soleReference?, hatoms, List.all_append, Bool.and_eq_true, ← hfilter, ← hfilter]
  constructor
  · intro h
    split at h
    case h_1 b hb =>
      have hlength := congrArg List.length hb
      simp only [List.length_append, List.length_cons, List.length_nil] at hlength
      exact ⟨List.eq_nil_of_length_eq_zero (by omega), List.eq_nil_of_length_eq_zero (by omega)⟩
    case h_2 => simp at h
  · rintro ⟨hbefore, hbehind⟩
    rw [hbefore, hbehind]
    exact hsole

/-- A reference is in a word of the line.  It is the sole one there if and only if it is judged to
make up a whole word and the word holds no separator; else it is judged to be a part, or a separator
stands in the word, and that can only be in a backtick command. -/
theorem lex_soleReference?_iff {text : Text} {q : Quoting} {a : Atom} {r : Reference}
    (ha : a ∈ (lex text q).atoms) (hr : a.kind = .reference r) (site : Site) :
    (∃ w, Token.word w ∈ Token.ofAtoms (lex text q).atoms (lex text q).quoting ∧ a ∈ w.atoms) ∧
    ∀ w, Token.word w ∈ Token.ofAtoms (lex text q).atoms (lex text q).quoting → a ∈ w.atoms →
      (w.soleReference? = some r ↔
        (Use.ofPosition (lex text q).atoms a.span.start site).extent = .wholeWord ∧
          ∀ b ∈ w.atoms, b.kind.isSeparator = false) ∧
      ((Use.ofPosition (lex text q).atoms a.span.start site).extent = .wholeWord ∨
        (Use.ofPosition (lex text q).atoms a.span.start site).extent = .wordPart) ∧
      ∀ b ∈ w.atoms, b.kind.isSeparator → b.quoting.inBackticks := by
  have hseparator : a.kind.isSeparator = false := by simp [hr, AtomKind.isSeparator]
  refine ⟨Token.exists_word_of_mem (by simp [Atom.isBetweenWords, hseparator]) ha,
    fun w hw haw => ?_⟩
  obtain ⟨front, behind, hcut⟩ := Token.cutFrom_of_mem hw
  obtain ⟨before, others, hparts⟩ := List.append_of_mem haw
  have hatoms : (lex text q).atoms = (front ++ before) ++ a :: (others ++ behind) := by
    have h := hcut.parts
    rw [hparts] at h
    simpa using h
  have htile := lex_tile text q
  rw [hatoms] at htile
  have hextent : (Use.ofPosition (lex text q).atoms a.span.start site).extent =
      Use.extentOf before a others := by
    rw [hatoms, Use.ofPosition_start htile]
    exact Use.extentOf_cutFrom hcut
  rw [hextent]
  refine ⟨?_, Use.extentOf_whole_or_part hseparator, fun b hb hseparator => ?_⟩
  · rw [Word.soleReference?_eq_some_iff hparts hr, Use.all_isQuote_iff hseparator, hparts]
    simp [hseparator, or_imp, forall_and]
  · have hmem : b ∈ (lex text q).atoms := by
      rw [hcut.parts]
      simp [hb]
    have hinside := hcut.inside b hb
    have hquoting := b.quoting.allowsOperators_iff.mp ((suits_of_mem_lex hmem).separator hseparator)
    rcases hquoting with hq | hq | hq
    · simp [Atom.isBetweenWords, hq, hseparator] at hinside
    · simp [hq, Quoting.inBackticks]
    · simp [hq, Quoting.inBackticks]

/-- In `"$x"` the reference makes up the word. -/
theorem lex_soleReference?_quoted :
    ∃ a w, a ∈ (lex ['"', '$', 'x', '"'] .plain).atoms ∧
      a.kind = .reference (Reference.bareOf 'x') ∧
      Token.word w ∈ Token.ofAtoms (lex ['"', '$', 'x', '"'] .plain).atoms .plain ∧
      a ∈ w.atoms ∧ w.soleReference? = some (Reference.bareOf 'x') ∧
      (Use.ofPosition (lex ['"', '$', 'x', '"'] .plain).atoms a.span.start .recipe).extent =
        .wholeWord := by
  let whole : Atom := ⟨.reference (Reference.bareOf 'x'), ['$', 'x'], ⟨1, 3⟩, .double⟩
  let atoms : List Atom := [⟨.text, ['"'], ⟨0, 1⟩, .plain⟩, whole, ⟨.text, ['"'], ⟨3, 4⟩, .double⟩]
  have hlex : lex ['"', '$', 'x', '"'] .plain =
      ⟨atoms, .plain, [⟨.ambiguousName ['x'], ⟨1, 3⟩⟩]⟩ := by
    unfold lex
    rw [Lexer.run_of_rest_cons rfl, Lexer.run_of_rest_cons (by with_unfolding_all rfl),
      Lexer.run_of_rest_cons (by with_unfolding_all rfl),
      Lexer.run_of_rest_nil (by with_unfolding_all rfl)]
    with_unfolding_all rfl
  have ha : whole ∈ (lex ['"', '$', 'x', '"'] .plain).atoms := by
    rw [hlex]
    exact .tail _ (.head _)
  let w : Word := ⟨atoms, ⟨0, 4⟩, true⟩
  have hw : Token.word w ∈ Token.ofAtoms (lex ['"', '$', 'x', '"'] .plain).atoms
      (lex ['"', '$', 'x', '"'] .plain).quoting := by
    rw [hlex]
    exact .head _
  have haw : whole ∈ w.atoms := .tail _ (.head _)
  have hextent : (Use.ofPosition (lex ['"', '$', 'x', '"'] .plain).atoms whole.span.start
      .recipe).extent = .wholeWord := by
    rw [hlex]
    rfl
  have hseparator : ∀ b ∈ w.atoms, b.kind.isSeparator = false := by
    simp [w, atoms, whole, AtomKind.isSeparator]
  have hsole := ((lex_soleReference?_iff ha rfl .recipe).2 w hw haw).1.mpr ⟨hextent, hseparator⟩
  rw [hlex] at hw
  exact ⟨whole, w, ha, rfl, by rwa [hlex], haw, hsole, hextent⟩

/-- In `$x` and two backticks around a blank, the reference is judged to make up a word, though the
backtick command is in the word with it. -/
theorem lex_soleReference?_backticks :
    ∃ a w, a ∈ (lex ['$', 'x', '\x60', ' ', '\x60'] .plain).atoms ∧
      a.kind = .reference (Reference.bareOf 'x') ∧ a.quoting = .plain ∧
      Token.word w ∈ Token.ofAtoms (lex ['$', 'x', '\x60', ' ', '\x60'] .plain).atoms .plain ∧
      a ∈ w.atoms ∧ w.text = ['$', 'x', '\x60', ' ', '\x60'] ∧ w.soleReference? = none ∧
      (Use.ofPosition (lex ['$', 'x', '\x60', ' ', '\x60'] .plain).atoms a.span.start
        .recipe).extent = .wholeWord := by
  let a : Atom := ⟨.reference (Reference.bareOf 'x'), ['$', 'x'], ⟨0, 2⟩, .plain⟩
  let atoms : List Atom := [a, ⟨.text, ['\x60'], ⟨2, 3⟩, .plain⟩,
    ⟨.space, [' '], ⟨3, 4⟩, .backticks⟩, ⟨.text, ['\x60'], ⟨4, 5⟩, .backticks⟩]
  have hlex : lex ['$', 'x', '\x60', ' ', '\x60'] .plain =
      ⟨atoms, .plain, [⟨.ambiguousName ['x'], ⟨0, 2⟩⟩]⟩ := by
    unfold lex
    rw [Lexer.run_of_rest_cons rfl, Lexer.run_of_rest_cons (by with_unfolding_all rfl),
      Lexer.run_of_rest_cons (by with_unfolding_all rfl),
      Lexer.run_of_rest_cons (by with_unfolding_all rfl),
      Lexer.run_of_rest_nil (by with_unfolding_all rfl)]
    with_unfolding_all rfl
  rw [hlex]
  exact ⟨a, ⟨atoms, ⟨0, 5⟩, true⟩, .head _, rfl, rfl, .head _, .head _, rfl, rfl, rfl⟩

end RecipeLint

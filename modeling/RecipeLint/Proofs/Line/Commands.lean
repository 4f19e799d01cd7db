import RecipeLint.Proofs.Lexer.Backticks
import RecipeLint.Proofs.Line.WholeWords

/-!
# References in a backtick command

The use of a reference in a backtick command of the line is compared with its use in that command
alone.  Its quotes are the same.  Its extent goes on across the backticks where no separator stands
between them and the reference, and there the line counts too.
-/

namespace RecipeLint

theorem Text.append_inj_byteSize {s t s' t' : Text} (h : s ++ t = s' ++ t')
    (hsize : byteSize s = byteSize s') : s = s' ∧ t = t' := by
  have hsplit := splitAtByte?_byteSize s t
  rw [h, hsize, splitAtByte?_byteSize] at hsplit
  obtain ⟨rfl, rfl⟩ := Prod.mk.inj (Option.some.inj hsplit)
  exact ⟨rfl, rfl⟩

namespace Use

/-! ## The word around a command -/

/-- What stands around two quotes counts for an atom between them where no separator stands between
it and the quote. -/
theorem extentOf_between_quotes {before front behind others : List Atom} {opening closing a : Atom}
    (ha : a.kind.isSeparator = false) (hopening : opening.isQuote) (hclosing : closing.isQuote) :
    extentOf (before ++ opening :: front) a (others ++ closing :: behind) = .wholeWord ↔
      extentOf (opening :: front) a (others ++ [closing]) = .wholeWord ∧
        ((∀ b ∈ front, b.kind.isSeparator = false) → onlyQuotes before.reverse) ∧
        ((∀ b ∈ others, b.kind.isSeparator = false) → onlyQuotes behind) := by
  have hfront : (before ++ opening :: front).reverse =
      (opening :: front).reverse ++ before.reverse := by simp
  have hothers : others ++ closing :: behind = others ++ [closing] ++ behind := by simp
  have hseparator := Atom.not_isSeparator_of_isQuote hopening
  have hseparator' := Atom.not_isSeparator_of_isQuote hclosing
  rw [extentOf_eq_wholeWord_iff ha, extentOf_eq_wholeWord_iff ha, hfront, hothers,
    onlyQuotes_append, onlyQuotes_append (others ++ [closing])]
  have hall : (∀ b ∈ (opening :: front).reverse, b.kind.isSeparator = false) ↔
      ∀ b ∈ front, b.kind.isSeparator = false := by
    simp [or_imp, forall_and, hseparator]
  have hall' : (∀ b ∈ others ++ [closing], b.kind.isSeparator = false) ↔
      ∀ b ∈ others, b.kind.isSeparator = false := by
    simp [or_imp, forall_and, hseparator']
  rw [hall, hall', and_and_and_comm]

end Use

/-! ## The command in the line -/

theorem Atom.Tile.text_between {p c s : Text} {d e : Char} {before inside behind : List Atom}
    {opening closing : Atom} (h : Tile 0 (before ++ opening :: (inside ++ closing :: behind)))
    (htext : (before ++ opening :: (inside ++ closing :: behind)).flatMap Atom.text =
      p ++ d :: (c ++ e :: s))
    (hopening : opening.span.start = Text.byteSize p) (hd : opening.text = [d])
    (hclosing : closing.span.start = Text.byteSize (p ++ d :: c)) :
    inside.flatMap Atom.text = c := by
  obtain ⟨-, -, hspan, htile⟩ := Atom.Tile.append.mp h
  have hbefore : Text.byteSize (before.flatMap Atom.text) = Text.byteSize p := by
    rw [← hopening, hspan, Nat.zero_add]
  simp only [List.flatMap_append, List.flatMap_cons, hd] at htext
  obtain ⟨-, hbehind⟩ := Text.append_inj_byteSize htext hbefore
  rw [List.singleton_append, List.cons.injEq] at hbehind
  obtain ⟨-, -, hspan', -⟩ := Atom.Tile.append.mp htile
  have hinside : Text.byteSize (inside.flatMap Atom.text) = Text.byteSize c := by
    rw [hspan'] at hclosing
    simp only [hspan, hbefore, hd, Text.byteSize_append, Text.byteSize_cons,
      Text.byteSize_nil] at hclosing
    omega
  exact (Text.append_inj_byteSize hbehind.2 hinside).1

/-- Between the backticks of a command of the line stand the atoms of the command alone. -/
theorem lex_inBackticks {p c s : Text} {q : Quoting} {before inside behind : List Atom}
    {opening closing : Atom}
    (hatoms : (lex (p ++ c.inBackticks ++ s) q).atoms =
      before ++ opening :: (inside ++ closing :: behind))
    (hopening : opening.span.start = Text.byteSize p ∧ opening.OpensCommand)
    (hclosing : closing.span.start = Text.byteSize (p ++ '\x60' :: c) ∧ closing.ClosesCommand) :
    (lex c.inBackticks .plain).atoms.map (Atom.shift (Text.byteSize p)) =
      opening :: (inside ++ [closing]) := by
  have htile := lex_tile (p ++ c.inBackticks ++ s) q
  have htext := flatMap_text_lex (p ++ c.inBackticks ++ s) q
  have hline : p ++ c.inBackticks ++ s = p ++ '\x60' :: (c ++ '\x60' :: s) := by
    simp [Text.inBackticks]
  rw [hatoms] at htile htext
  have hinside := htile.text_between (htext.trans hline) hopening.1 hopening.2.text_eq hclosing.1
  have halone := lex_command hatoms hopening.2 hclosing.2
  rwa [hinside, hopening.1] at halone

theorem Use.ofPosition_between {position : Nat} {before front others behind : List Atom}
    {opening closing a : Atom}
    (h : Atom.Tile position (before ++ opening :: (front ++ a :: others ++ closing :: behind)))
    (site : Site) :
    ofPosition (before ++ opening :: (front ++ a :: others ++ closing :: behind)) a.span.start
      site = among site (before ++ opening :: front) a (others ++ closing :: behind) := by
  have hparts : before ++ opening :: (front ++ a :: others ++ closing :: behind) =
      (before ++ opening :: front) ++ a :: (others ++ closing :: behind) := by simp
  rw [hparts] at h ⊢
  exact ofPosition_start h site

/-- A reference in a backtick command of the line stands in the command alone too, with the same
quotes.  It makes up a whole word of the line if and only if it makes up one of the command, and on
each side where no separator comes between it and the backtick, nothing but quotes stands up to the
next separator of the line. -/
theorem lex_use_command {p c s : Text} {q : Quoting} {before inside behind : List Atom}
    {opening closing : Atom}
    (hatoms : (lex (p ++ c.inBackticks ++ s) q).atoms =
      before ++ opening :: (inside ++ closing :: behind))
    (hopening : opening.span.start = Text.byteSize p ∧ opening.OpensCommand)
    (hclosing : closing.span.start = Text.byteSize (p ++ '\x60' :: c) ∧ closing.ClosesCommand)
    (site : Site) :
    (lex c.inBackticks .plain).atoms.map (Atom.shift (Text.byteSize p)) =
      opening :: (inside ++ [closing]) ∧
    ∀ front a others r, inside = front ++ a :: others → a.kind = .reference r →
      ∃ alone ∈ (lex c.inBackticks .plain).atoms, a = alone.shift (Text.byteSize p) ∧
        (Use.ofPosition (lex (p ++ c.inBackticks ++ s) q).atoms a.span.start site).quoting =
          (Use.ofPosition (lex c.inBackticks .plain).atoms alone.span.start site).quoting ∧
        (Use.ofPosition (lex (p ++ c.inBackticks ++ s) q).atoms a.span.start site).extent ≠
          .unknown ∧
        (Use.ofPosition (lex c.inBackticks .plain).atoms alone.span.start site).extent ≠
          .unknown ∧
        ((Use.ofPosition (lex (p ++ c.inBackticks ++ s) q).atoms a.span.start site).extent =
            .wholeWord ↔
          (Use.ofPosition (lex c.inBackticks .plain).atoms alone.span.start site).extent =
              .wholeWord ∧
            ((∀ b ∈ front, b.kind.isSeparator = false) → Use.onlyQuotes before.reverse) ∧
            ((∀ b ∈ others, b.kind.isSeparator = false) → Use.onlyQuotes behind)) := by
  have halone := lex_inBackticks hatoms hopening hclosing
  refine ⟨halone, ?_⟩
  rintro front a others r rfl hr
  have hseparator : a.kind.isSeparator = false := by simp [hr, AtomKind.isSeparator]
  obtain ⟨alone, hmem, rfl⟩ : ∃ alone ∈ (lex c.inBackticks .plain).atoms,
      alone.shift (Text.byteSize p) = a := by
    rw [← List.mem_map, halone]
    simp
  refine ⟨alone, hmem, rfl, ?_⟩
  have htile := lex_tile (p ++ c.inBackticks ++ s) q
  rw [hatoms] at htile
  -- The command stands at its place in the line, so that it has the same tiles alone.
  have hcommand : Atom.Tile (0 + Text.byteSize (before.flatMap Atom.text))
      ([] ++ opening :: (front ++ alone.shift (Text.byteSize p) :: others ++ closing :: [])) := by
    have h := (Atom.Tile.append.mp htile).2
    have hparts : opening :: (front ++ alone.shift (Text.byteSize p) :: others ++
        closing :: behind) = (opening :: (front ++ alone.shift (Text.byteSize p) :: others ++
          [closing])) ++ behind := by simp
    rw [hparts] at h
    exact (Atom.Tile.append.mp h).1
  have huse : Use.ofPosition (lex c.inBackticks .plain).atoms alone.span.start site =
      Use.among site ([] ++ opening :: front) (alone.shift (Text.byteSize p))
        (others ++ closing :: []) := by
    rw [← Use.ofPosition_shift (Text.byteSize p), halone]
    exact Use.ofPosition_between hcommand site
  rw [hatoms, Use.ofPosition_between htile, huse]
  have hquote {b : Atom} {next : Quoting} (h : b.quoteTo? = some next) : b.isQuote := by
    simp [Atom.isQuote, h]
  exact ⟨rfl, Use.extentOf_ne_unknown hseparator, Use.extentOf_ne_unknown hseparator,
    Use.extentOf_between_quotes hseparator (hquote hopening.2.2) (hquote hclosing.2.2)⟩

theorem lex_inBackticks_reference :
    (lex (Text.inBackticks ['$', 'x']) .plain).atoms =
      [⟨.text, ['\x60'], ⟨0, 1⟩, .plain⟩,
        ⟨.reference (Reference.bareOf 'x'), ['$', 'x'], ⟨1, 3⟩, .backticks⟩,
        ⟨.text, ['\x60'], ⟨3, 4⟩, .backticks⟩] := by
  unfold lex
  rw [Lexer.run_of_rest_cons rfl, Lexer.run_of_rest_cons (by with_unfolding_all rfl),
    Lexer.run_of_rest_cons (by with_unfolding_all rfl),
    Lexer.run_of_rest_nil (by with_unfolding_all rfl)]
  with_unfolding_all rfl

/-- Behind a blank such a reference makes up a word of the line as it does in the command. -/
theorem lex_use_command_blank :
    ∃ a ∈ (lex ([' '] ++ Text.inBackticks ['$', 'x'] ++ []) .plain).atoms,
      a.kind = .reference (Reference.bareOf 'x') ∧
      (Use.ofPosition (lex ([' '] ++ Text.inBackticks ['$', 'x'] ++ []) .plain).atoms
        a.span.start .recipe).quoting = .backticks ∧
      (Use.ofPosition (lex ([' '] ++ Text.inBackticks ['$', 'x'] ++ []) .plain).atoms
        a.span.start .recipe).extent = .wholeWord := by
  let blank : Atom := ⟨.space, [' '], ⟨0, 1⟩, .plain⟩
  let opening : Atom := ⟨.text, ['\x60'], ⟨1, 2⟩, .plain⟩
  let a : Atom := ⟨.reference (Reference.bareOf 'x'), ['$', 'x'], ⟨2, 4⟩, .backticks⟩
  let closing : Atom := ⟨.text, ['\x60'], ⟨4, 5⟩, .backticks⟩
  have hatoms : (lex ([' '] ++ Text.inBackticks ['$', 'x'] ++ []) .plain).atoms =
      [blank] ++ opening :: ([a] ++ closing :: []) := by
    unfold lex
    rw [Lexer.run_of_rest_cons rfl, Lexer.run_of_rest_cons (by with_unfolding_all rfl),
      Lexer.run_of_rest_cons (by with_unfolding_all rfl),
      Lexer.run_of_rest_cons (by with_unfolding_all rfl),
      Lexer.run_of_rest_nil (by with_unfolding_all rfl)]
    with_unfolding_all rfl
  obtain ⟨alone, -, hshift, hquoting, -, -, hextent⟩ :=
    (lex_use_command hatoms ⟨rfl, rfl, rfl⟩ ⟨rfl, rfl, rfl⟩ .recipe).2 [] a [] _ rfl rfl
  have hstart : alone.span.start = 1 := (Nat.succ.inj (congrArg (·.span.start) hshift)).symm
  rw [hstart, lex_inBackticks_reference] at hquoting hextent
  refine ⟨a, ?_, rfl, hquoting, hextent.mpr ⟨rfl, fun _ => rfl, fun _ => rfl⟩⟩
  rw [hatoms]
  exact .tail _ (.tail _ (.head _))

/-- Behind a letter it is judged to be a part of one, though in the command alone it makes up a
word. -/
theorem lex_use_command_letter :
    ∃ before opening a closing,
      (lex (['a'] ++ Text.inBackticks ['$', 'x'] ++ []) .plain).atoms =
        before ++ opening :: ([a] ++ closing :: []) ∧
      opening.span.start = 1 ∧ opening.OpensCommand ∧
      closing.span.start = 4 ∧ closing.ClosesCommand ∧
      a.kind = .reference (Reference.bareOf 'x') ∧
      (Use.ofPosition (lex (['a'] ++ Text.inBackticks ['$', 'x'] ++ []) .plain).atoms
        a.span.start .recipe).extent = .wordPart ∧
      ∃ alone ∈ (lex (Text.inBackticks ['$', 'x']) .plain).atoms, a = alone.shift 1 ∧
        (Use.ofPosition (lex (Text.inBackticks ['$', 'x']) .plain).atoms
          alone.span.start .recipe).extent = .wholeWord := by
  let opening : Atom := ⟨.text, ['\x60'], ⟨1, 2⟩, .plain⟩
  let a : Atom := ⟨.reference (Reference.bareOf 'x'), ['$', 'x'], ⟨2, 4⟩, .backticks⟩
  let closing : Atom := ⟨.text, ['\x60'], ⟨4, 5⟩, .backticks⟩
  have hatoms : (lex (['a'] ++ Text.inBackticks ['$', 'x'] ++ []) .plain).atoms =
      [⟨.text, ['a'], ⟨0, 1⟩, .plain⟩] ++ opening :: ([a] ++ closing :: []) := by
    unfold lex
    rw [Lexer.run_of_rest_cons rfl, Lexer.run_of_rest_cons (by with_unfolding_all rfl),
      Lexer.run_of_rest_cons (by with_unfolding_all rfl),
      Lexer.run_of_rest_cons (by with_unfolding_all rfl),
      Lexer.run_of_rest_nil (by with_unfolding_all rfl)]
    with_unfolding_all rfl
  rw [hatoms, lex_inBackticks_reference]
  exact ⟨_, opening, a, closing, rfl, rfl, ⟨rfl, rfl⟩, rfl, ⟨rfl, rfl⟩, rfl, rfl,
    ⟨.reference (Reference.bareOf 'x'), ['$', 'x'], ⟨1, 3⟩, .backticks⟩, .tail _ (.head _),
    rfl, rfl⟩

end RecipeLint

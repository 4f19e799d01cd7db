import RecipeLint.Proofs.Line.Grouping

/-!
# Words part the line

The tokens of a line are its atoms, put together: what is left out are the blanks of the line itself,
each other atom is in one word or a token of its own, and nothing changes its place.  A word that
starts on the line itself is closed unless the text ends in it.
-/

namespace RecipeLint

/-! ## Blanks -/

namespace AtomReading

variable {q : Quoting} {wordStart : Bool} {c : Char} {rest : Text}

theorem isBlank_of_space (h : (read q wordStart c rest).kind = .space) :
    ∀ d ∈ c :: rest.take (read q wordStart c rest).more, d = ' ' ∨ d = '\t' := by
  have hbreak : (read q wordStart c rest).kind.isBreak := by rw [h]; rfl
  obtain ⟨hdollar, hq, ⟨n, op, hop⟩ | ⟨hop, hnext, hc⟩⟩ := read_of_isBreak hbreak
  · simp [read, hdollar, hq, hop] at h
  · have hread : read q wordStart c rest =
        ⟨.space, (rest.takeWhile fun d => d == ' ' || d == '\t').length, [], q⟩ := by
      simp only [read, hdollar, hq, hop, hnext, ofBlank, hc, if_false, if_true]
    intro d hd
    rw [hread, (List.prefix_iff_eq_take.mp (List.takeWhile_prefix _)).symm] at hd
    rcases List.mem_cons.mp hd with rfl | hd
    · exact hc
    · simpa using List.mem_takeWhile_imp hd

end AtomReading

theorem Lexer.isBlank_of_mem_run {l : Lexer} {a : Atom} (ha : a ∈ l.run.1)
    (hkind : a.kind = .space) : ∀ c ∈ a.text, c = ' ' ∨ c = '\t' := by
  induction l using Lexer.run.induct with
  | case1 l hrest => simp [run_of_rest_nil hrest] at ha
  | case2 l c rest hrest step =>
    rename_i ih
    rw [run_of_rest_cons hrest] at ha
    rcases List.mem_cons.mp ha with rfl | ha
    · exact AtomReading.isBlank_of_space hkind
    · exact ih ha

namespace Atom

theorem Tile.exists_contains_iff {position p : Nat} {atoms : List Atom}
    (h : Tile position atoms) : (∃ a ∈ atoms, a.span.contains p) ↔
      position ≤ p ∧ p < position + Text.byteSize (atoms.flatMap Atom.text) := by
  induction atoms generalizing position with
  | nil =>
    constructor
    · rintro ⟨a, ha, -⟩
      simp at ha
    · rintro ⟨hstart, hstop⟩
      exact absurd hstop (Nat.not_lt.mpr hstart)
  | cons a atoms ih =>
    obtain ⟨-, hspan, hrest⟩ := h
    have hbehind := ih hrest
    have hself : a.span.contains p ↔ position ≤ p ∧ p < position + Text.byteSize a.text := by
      simp [hspan, Span.contains]
    rw [hspan] at hbehind
    rw [List.exists_mem_cons_iff, hself, hbehind, List.flatMap_cons, Text.byteSize_append]
    dsimp only
    omega

theorem Tile.eq_of_contains {position p : Nat} {atoms : List Atom} (h : Tile position atoms)
    {a b : Atom} (ha : a ∈ atoms) (hb : b ∈ atoms) (hap : a.span.contains p)
    (hbp : b.span.contains p) : a = b := by
  simp only [Span.contains, Bool.and_eq_true, decide_eq_true_eq] at hap hbp
  obtain ⟨before, behind, rfl⟩ := List.append_of_mem ha
  obtain ⟨-, hbefore, hbehind⟩ := h.apart
  rcases List.mem_append.mp hb with hb | hb
  · have hstop := (hbefore b hb).2
    omega
  · rcases List.mem_cons.mp hb with rfl | hb
    · rfl
    · have hstart := hbehind b hb
      omega

def isBlank (a : Atom) : Bool :=
  match a.kind with
  | .space => a.quoting == .plain
  | _ => false

theorem isBlank_iff {a : Atom} : a.isBlank ↔ a.quoting = .plain ∧ a.kind = .space := by
  unfold isBlank
  cases a.kind <;> simp

theorem isBetweenWords_of_isBlank {a : Atom} (h : a.isBlank) : a.isBetweenWords := by
  obtain ⟨hquoting, hkind⟩ := isBlank_iff.mp h
  simp [isBetweenWords, hquoting, hkind, AtomKind.isSeparator]

end Atom

/-! ## Atoms and tokens -/

namespace Token

variable {after : Quoting}

theorem words_append (tokens tokens' : List Token) :
    words (tokens ++ tokens') = words tokens ++ words tokens' :=
  List.filterMap_append

theorem words_ofSeparator? (a : Atom) : words (ofSeparator? a).toList = [] := by
  unfold ofSeparator?
  split <;> rfl

theorem flatMap_atoms_ofWord? (atoms : List Atom) (after : Quoting) :
    (words (ofWord? atoms after).toList).flatMap Word.atoms = atoms := by
  cases atoms with
  | nil => rfl
  | cons a atoms =>
    obtain ⟨w, hw⟩ := Word.exists_ofAtoms? (List.cons_ne_nil a atoms) after
    have hatoms := Word.atoms_of_ofAtoms? hw
    simp [ofWord?, hw, words, hatoms]

theorem flatMap_atoms_words (before atoms : List Atom) :
    (words (ofAtomsAfter after before atoms)).flatMap Word.atoms =
      before ++ atoms.filter fun a => !a.isBetweenWords := by
  induction atoms generalizing before with
  | nil => simpa [ofAtomsAfter] using flatMap_atoms_ofWord? before after
  | cons a atoms ih =>
    rw [ofAtomsAfter]
    by_cases ha : a.isBetweenWords
    · have hempty := ih []
      rw [List.nil_append] at hempty
      rw [if_pos ha, words_append, words_append, words_ofSeparator?, List.append_nil,
        List.flatMap_append, flatMap_atoms_ofWord?, hempty]
      simp [ha]
    · rw [if_neg ha, ih]
      simp [ha]

theorem covers_ofWord?_iff {position p : Nat} {atoms : List Atom}
    (htile : Atom.Tile position atoms) :
    (∃ t ∈ (ofWord? atoms after).toList, t.span.contains p) ↔ ∃ a ∈ atoms, a.span.contains p := by
  rw [htile.exists_contains_iff]
  constructor
  · rintro ⟨t, ht, hp⟩
    rw [(span_of_ofWord? htile ht).2] at hp
    simpa [Span.contains] using hp
  · rintro ⟨hstart, hstop⟩
    have hne : atoms ≠ [] := by
      rintro rfl
      simp only [List.flatMap_nil, Text.byteSize_nil] at hstop
      omega
    obtain ⟨w, hw⟩ := Word.exists_ofAtoms? hne after
    have hmem : word w ∈ (ofWord? atoms after).toList := word_mem_ofWord?.mpr hw
    refine ⟨word w, hmem, ?_⟩
    rw [(span_of_ofWord? htile hmem).2]
    simp [Span.contains, hstart, hstop]

theorem covers_ofSeparator?_iff {p : Nat} {a : Atom} (ha : a.isBetweenWords) :
    (∃ t ∈ (ofSeparator? a).toList, t.span.contains p) ↔
      a.isBlank = false ∧ a.span.contains p := by
  have hplain := Atom.quoting_of_isBetweenWords ha
  have hseparator := Atom.isSeparator_of_isBetweenWords ha
  cases hkind : a.kind <;>
    simp_all [ofSeparator?, Atom.isBlank, AtomKind.isSeparator, Token.span]

/-- The tokens cover all atoms but the blanks of the line itself. -/
theorem covers_ofAtomsAfter_iff {position p : Nat} {before atoms : List Atom}
    (htile : Atom.Tile position (before ++ atoms))
    (hbefore : ∀ b ∈ before, b.isBetweenWords = false) :
    (∃ t ∈ ofAtomsAfter after before atoms, t.span.contains p) ↔
      ∃ a ∈ before ++ atoms, a.isBlank = false ∧ a.span.contains p := by
  have hsolid {b : Atom} (hb : b.isBetweenWords = false) : b.isBlank = false :=
    Bool.eq_false_iff.mpr fun h => by simp [Atom.isBetweenWords_of_isBlank h] at hb
  have hword {before : List Atom} (hbefore : ∀ b ∈ before, b.isBetweenWords = false) :
      (∃ a ∈ before, a.span.contains p) ↔
        ∃ a ∈ before, a.isBlank = false ∧ a.span.contains p := by
    refine exists_congr fun a => and_congr_right fun ha => ?_
    simp [hsolid (hbefore a ha)]
  induction atoms generalizing position before with
  | nil =>
    rw [List.append_nil] at htile ⊢
    rw [ofAtomsAfter, covers_ofWord?_iff htile, hword hbefore]
  | cons a atoms ih =>
    rw [ofAtomsAfter]
    by_cases ha : a.isBetweenWords
    · obtain ⟨hfront, hrest⟩ := Atom.Tile.append.mp htile
      have hbehind := @ih a.span.stop [] hrest.2.2 (by simp)
      rw [if_pos ha]
      simp only [List.mem_append, or_and_right, exists_or, covers_ofWord?_iff hfront,
        hword hbefore, covers_ofSeparator?_iff ha, hbehind, List.nil_append, List.mem_cons,
        exists_eq_left, or_assoc]
    · have hopen : ∀ b ∈ before ++ [a], b.isBetweenWords = false := by
        intro b hb
        rcases List.mem_append.mp hb with hb | hb
        · exact hbefore b hb
        · obtain rfl := List.mem_singleton.mp hb
          simpa using ha
      rw [if_neg ha]
      simpa using ih (by simpa using htile) hopen

/-- The token stands where these atoms do, from a position on.  If it is a word, they are its
atoms. -/
structure Spans (position : Nat) (atoms : List Atom) (t : Token) : Prop where
  solid : atoms.flatMap Atom.text ≠ []
  span : t.span = ⟨position, position + Text.byteSize (atoms.flatMap Atom.text)⟩
  atoms : ∀ w, t = word w → w.atoms = atoms

theorem spans_of_ofWord? {position : Nat} {atoms : List Atom} (htile : Atom.Tile position atoms)
    {t : Token} (ht : t ∈ (ofWord? atoms after).toList) : t.Spans position atoms := by
  refine ⟨?_, (span_of_ofWord? htile ht).2, ?_⟩
  · cases atoms with
    | nil => simp [ofWord?, Word.ofAtoms?] at ht
    | cons a atoms => simp [htile.1]
  · rintro w rfl
    exact Word.atoms_of_ofAtoms? (word_mem_ofWord?.mp ht)

theorem spans_of_ofSeparator? {position : Nat} {a : Atom} {atoms : List Atom}
    (htile : Atom.Tile position (a :: atoms)) (ha : a.isBetweenWords) {t : Token}
    (ht : t ∈ (ofSeparator? a).toList) : t.Spans position [a] := by
  refine ⟨by simpa using htile.1, ?_, ?_⟩
  · rw [(span_of_ofSeparator? ha ht).2, htile.2.1]
    simp
  · rintro w rfl
    exact absurd ht word_not_mem_ofSeparator?

theorem exists_spans_of_mem {position : Nat} {before atoms : List Atom}
    (htile : Atom.Tile position (before ++ atoms)) {t : Token}
    (ht : t ∈ ofAtomsAfter after before atoms) : ∃ front inside behind,
      before ++ atoms = front ++ (inside ++ behind) ∧
      t.Spans (position + Text.byteSize (front.flatMap Atom.text)) inside := by
  induction atoms generalizing position before with
  | nil =>
    rw [List.append_nil] at htile
    exact ⟨[], before, [], rfl, spans_of_ofWord? htile ht⟩
  | cons a atoms ih =>
    rw [ofAtomsAfter] at ht
    split at ht
    case isFalse => simpa using ih (by simpa using htile) ht
    case isTrue ha =>
      obtain ⟨hbefore, hrest⟩ := Atom.Tile.append.mp htile
      rw [List.mem_append, List.mem_append] at ht
      rcases ht with (ht | ht) | ht
      · exact ⟨[], before, a :: atoms, rfl, spans_of_ofWord? hbefore ht⟩
      · exact ⟨before, [a], atoms, rfl, spans_of_ofSeparator? hrest ha ht⟩
      · obtain ⟨front, inside, behind, hparts, hspans⟩ := @ih a.span.stop [] hrest.2.2 ht
        rw [List.nil_append] at hparts
        refine ⟨before ++ a :: front, inside, behind, by simp [hparts], ?_⟩
        have hstart : a.span.stop + Text.byteSize (front.flatMap Atom.text) =
            position + Text.byteSize ((before ++ a :: front).flatMap Atom.text) := by
          rw [hrest.2.1]
          simp [Nat.add_assoc]
        rwa [hstart] at hspans

/-- Where the words end: each but one at the end of the text is closed, and that one starts on the
line itself. -/
theorem exists_last_word (before : List Atom) {atoms : List Atom}
    (hchain : Atom.Chain .plain (before ++ atoms) after) :
    ∃ front last, ofAtomsAfter after before atoms = front ++ (ofWord? last after).toList ∧
      Atom.Chain .plain last after ∧ ∀ w, word w ∈ front → w.closed := by
  induction atoms generalizing before with
  | nil => exact ⟨[], before, rfl, by simpa using hchain, by simp⟩
  | cons a atoms ih =>
    rw [ofAtomsAfter]
    by_cases ha : a.isBetweenWords
    · have hrest := hchain.of_append
      rw [Atom.quotingBehind_of_isBetweenWords ha] at hrest
      obtain ⟨front, last, htokens, hlast, hclosed⟩ := ih [] hrest
      refine ⟨(ofWord? before .plain).toList ++ (ofSeparator? a).toList ++ front, last, ?_, hlast,
        fun w hw => ?_⟩
      · rw [if_pos ha, htokens, List.append_assoc _ front]
      · rw [List.mem_append, List.mem_append] at hw
        rcases hw with (hw | hw) | hw
        · have hw := word_mem_ofWord?.mp hw
          cases before with
          | nil => simp [Word.ofAtoms?] at hw
          | cons b before =>
            rw [Word.closed_of_ofAtoms? hw, hchain.1]
            rfl
        · exact absurd hw word_not_mem_ofSeparator?
        · exact hclosed w hw
    · rw [if_neg ha]
      exact ih (before ++ [a]) (by simpa using hchain)

theorem closed_eq_false_iff {atoms : List Atom} (hchain : Atom.Chain .plain atoms after)
    {front behind : List Token} {w : Word} (h : ofAtoms atoms after = front ++ word w :: behind) :
    w.closed = false ↔ behind = [] ∧ after ≠ .plain := by
  obtain ⟨closed, last, htokens, hlast, hclosed⟩ := exists_last_word [] hchain
  have hparts : front ++ word w :: behind = closed ++ (ofWord? last after).toList :=
    h.symm.trans htokens
  cases last with
  | nil =>
    -- Behind the last word something separates words, so the text ends on the line itself.
    have hplain : after = .plain := hlast
    have hmem : word w ∈ closed := by
      have hnone : (ofWord? [] after).toList = [] := rfl
      rw [hnone, List.append_nil] at hparts
      simp [← hparts]
    simp [hclosed w hmem, hplain]
  | cons a others =>
    obtain ⟨v, hv⟩ := Word.exists_ofAtoms? (List.cons_ne_nil a others) after
    have hopen : v.closed = (Quoting.plain == after) := by
      rw [Word.closed_of_ofAtoms? hv, hlast.1]
    have hone : (ofWord? (a :: others) after).toList = [word v] := by simp [ofWord?, hv]
    rw [hone] at hparts
    rcases List.eq_nil_or_concat behind with rfl | ⟨init, t, rfl⟩
    · obtain ⟨-, hwv⟩ := List.append_inj' hparts rfl
      obtain rfl := word.inj (List.cons.inj hwv).1
      rw [hopen]
      cases after <;> simp
    · have hmem : word w ∈ closed := by
        rw [List.concat_eq_append, ← List.cons_append, ← List.append_assoc] at hparts
        obtain ⟨hfront, -⟩ := List.append_inj' hparts rfl
        simp [← hfront]
      simp [hclosed w hmem]

end Token

theorem lex_token_spans {text : Text} {q : Quoting} {t : Token}
    (ht : t ∈ Token.ofAtoms (lex text q).atoms (lex text q).quoting) :
    ∃ front inside behind, text = front ++ inside.flatMap Atom.text ++ behind ∧
      t.Spans (Text.byteSize front) inside := by
  have htile : Atom.Tile 0 ([] ++ (lex text q).atoms) := lex_tile text q
  obtain ⟨front, inside, behind, hparts, hspans⟩ := Token.exists_spans_of_mem htile ht
  have htext : ([] ++ (lex text q).atoms).flatMap Atom.text = text := flatMap_text_lex text q
  rw [hparts, List.flatMap_append, List.flatMap_append, ← List.append_assoc] at htext
  rw [Nat.zero_add] at hspans
  exact ⟨_, inside, _, htext.symm, hspans⟩

/-- What no token covers are the blanks of the line itself. -/
theorem lex_tokens_uncovered {text : Text} {q : Quoting} {p : Nat} (hp : p < Text.byteSize text) :
    (∀ t ∈ Token.ofAtoms (lex text q).atoms (lex text q).quoting, t.span.contains p = false) ↔
      ∃ a ∈ (lex text q).atoms, a.isBlank ∧ a.span.contains p := by
  have htile : Atom.Tile 0 ([] ++ (lex text q).atoms) := lex_tile text q
  have hcovers := @Token.covers_ofAtomsAfter_iff (lex text q).quoting 0 p [] _ htile (by simp)
  have hatom : ∃ a ∈ (lex text q).atoms, a.span.contains p := by
    rw [(lex_tile text q).exists_contains_iff, flatMap_text_lex]
    omega
  constructor
  · intro hnone
    obtain ⟨a, ha, hcontains⟩ := hatom
    refine ⟨a, ha, Classical.byContradiction fun hblank => ?_, hcontains⟩
    obtain ⟨t, ht, hcovered⟩ := hcovers.mpr ⟨a, ha, by simpa using hblank, hcontains⟩
    simp [hnone t ht] at hcovered
  · rintro ⟨a, ha, hblank, hcontains⟩ t ht
    refine Bool.eq_false_iff.mpr fun hcovered => ?_
    obtain ⟨b, hb, hsolid, hcontains'⟩ := hcovers.mp ⟨t, ht, hcovered⟩
    obtain rfl : a = b := (lex_tile text q).eq_of_contains ha hb hcontains hcontains'
    simp [hblank] at hsolid

/-- The words and the blanks of a line.  The tokens stand one behind the other, each on some bytes of
its own, and what none of them covers are spaces and tabs of the line itself.  Each atom that does
not separate words is in one word, in the order of the atoms, and a word has the characters at its
span.  On a line that starts in no quotes a word is open just if it is the last token and the text
ends in quotes. -/
theorem lex_tokens_partition (text : Text) (q : Quoting) :
    (∀ t ∈ Token.ofAtoms (lex text q).atoms (lex text q).quoting,
      t.span.start < t.span.stop ∧ t.span.stop ≤ Text.byteSize text) ∧
    (Token.ofAtoms (lex text q).atoms (lex text q).quoting).Pairwise
      (fun s t => s.span.stop ≤ t.span.start) ∧
    (∀ p < Text.byteSize text,
      (∀ t ∈ Token.ofAtoms (lex text q).atoms (lex text q).quoting, t.span.contains p = false) ↔
        ∃ a ∈ (lex text q).atoms, a.quoting = .plain ∧ a.kind = .space ∧ a.span.contains p) ∧
    (∀ a ∈ (lex text q).atoms, a.kind = .space → ∀ c ∈ a.text, c = ' ' ∨ c = '\t') ∧
    (Token.words (Token.ofAtoms (lex text q).atoms (lex text q).quoting)).flatMap Word.atoms =
      (lex text q).atoms.filter (fun a => !a.isBetweenWords) ∧
    (∀ w, Token.word w ∈ Token.ofAtoms (lex text q).atoms (lex text q).quoting →
      w.span.slice? text = some w.text) ∧
    (q = .plain → ∀ front w behind,
      Token.ofAtoms (lex text q).atoms (lex text q).quoting = front ++ .word w :: behind →
        (w.closed = false ↔ behind = [] ∧ (lex text q).quoting ≠ .plain)) := by
  refine ⟨fun t ht => ?_, ?_, fun p hp => ?_, fun a ha hkind => ?_, ?_, fun w hw => ?_, ?_⟩
  · obtain ⟨front, inside, behind, htext, hspans⟩ := lex_token_spans ht
    have hpos := Text.byteSize_pos hspans.solid
    have hsize := congrArg Text.byteSize htext
    simp only [Text.byteSize_append] at hsize
    rw [hspans.span]
    dsimp only
    omega
  · exact (lex_tokens_precede text q).imp fun h => h.2
  · rw [lex_tokens_uncovered hp]
    simp only [Atom.isBlank_iff, and_assoc]
  · exact Lexer.isBlank_of_mem_run ha hkind
  · exact Token.flatMap_atoms_words [] _
  · obtain ⟨front, inside, behind, htext, hspans⟩ := lex_token_spans hw
    have hspan : w.span = _ := hspans.span
    rw [hspan, ← Text.byteSize_append, htext, Word.text, hspans.atoms w rfl]
    exact Span.slice?_eq _ _ _
  · rintro rfl front w behind htokens
    exact Token.closed_eq_false_iff (lex_chain text .plain) htokens

end RecipeLint

import RecipeLint.Proofs.Lexer.References
import RecipeLint.Proofs.Lexer.Repeats
import RecipeLint.Proofs.Lexer.Resume
import RecipeLint.Proofs.Line.Rendering
import RecipeLint.Proofs.Reading.Levels

/-!
# The limit of nesting

References may be nested up to a limit.  A nest of braces is one atom on either side of the limit:
the reference that it is, or text with one finding.  What follows it is split in the same way, so
the limit makes no difference beyond the nest.
-/

namespace RecipeLint

theorem Cause.not_isUnterminatedQuote {c : Cause} (h : ∀ o q, c.Apart (.unterminatedQuote o q)) :
    ¬c.isUnterminatedQuote := by
  intro hquote
  cases c with
  | unterminatedQuote o q => exact (h o q).message_ne rfl
  | _ => simp [isUnterminatedQuote] at hquote

namespace Lexing

def findingsWithin (lexing : Lexing) (s : Span) : List Finding :=
  lexing.findings.filter fun f =>
    s.start ≤ f.span.start ∧ f.span.stop ≤ s.stop ∧ ¬f.value.isUnterminatedQuote

end Lexing

namespace Lexer

theorem findings_run (l : Lexer) : ∃ more, l.run.2.findings = l.findings ++ more ∧
    ∀ f ∈ more, l.position < f.span.stop ∨ f.value.isUnterminatedQuote := by
  induction l using Lexer.run.induct with
  | case1 l hrest =>
    rw [run_of_rest_nil hrest]
    unfold finish
    split
    case h_1 opener _ _ =>
      exact ⟨_, rfl, fun f hf => .inr (List.mem_singleton.mp hf ▸ rfl)⟩
    case h_2 => exact ⟨[], (List.append_nil _).symm, by simp⟩
  | case2 l c rest hrest step =>
    rename_i ih
    obtain ⟨more, hmore, hstop⟩ := ih
    rw [run_of_rest_cons hrest]
    refine ⟨_, hmore.trans (List.append_assoc _ _ _), fun f hf => ?_⟩
    rcases List.mem_append.mp hf with hf | hf
    · obtain ⟨g, hg, rfl⟩ := List.mem_map.mp hf
      have hwithin := (AtomReading.read_tells l.quoting l.wordStart c rest).within g hg
      left
      simp only [Located.shift, Span.shift]
      omega
    · have hle : l.position ≤ step.2.position := Nat.le_add_right _ _
      exact (hstop f hf).imp_left fun h => Nat.lt_of_le_of_lt hle h

end Lexer

section

variable {c : Char} {s t : Text} {q : Quoting} {kind : AtomKind} {fs : List Finding}

/-- A first atom that leaves the state as it is.  Behind it, the text is split as if it came first
in the same state, and what is found there is not found within the atom. -/
theorem lex_first (hread : AtomReading.read q true c (s ++ t) = ⟨kind, s.length, fs, q⟩)
    (hstarts : Lexer.startsWord kind q q = false) :
    (lex (c :: (s ++ t)) q).atoms = ⟨kind, c :: s, ⟨0, Text.byteSize (c :: s)⟩, q⟩ ::
        (Lexer.startInWord t q).run.1.map (Atom.shift (Text.byteSize (c :: s))) ∧
      (lex (c :: (s ++ t)) q).quoting = (Lexer.startInWord t q).run.2.quoting ∧
      ∃ more, (lex (c :: (s ++ t)) q).findings = fs ++ more ∧
        ∀ f ∈ more, Text.byteSize (c :: s) < f.span.stop ∨ f.value.isUnterminatedQuote := by
  have hshift : fs.map (Located.shift 0) = fs := List.map_id fs
  have hadvance : (Lexer.start (c :: (s ++ t)) q).advance c (s ++ t) =
      (⟨kind, c :: s, ⟨0, Text.byteSize (c :: s)⟩, q⟩,
        ⟨t, Text.byteSize (c :: s), q, 0, false, fs, false⟩) := by
    simp [Lexer.advance, Lexer.start, hread, hstarts, hshift]
    exact ite_self 0
  have hrun := Lexer.run_of_rest_cons (l := Lexer.start (c :: (s ++ t)) q) rfl
  rw [hadvance] at hrun
  have hmoves : Lexer.Moves (Text.byteSize (c :: s)) (Lexer.startInWord t q)
      ⟨t, Text.byteSize (c :: s), q, 0, false, fs, false⟩ :=
    ⟨rfl, by simp [Lexer.startInWord, Lexer.start], rfl, rfl⟩
  obtain ⟨hatoms, hquoting⟩ := hmoves.run
  simp only [lex, hrun, hatoms, hquoting]
  exact ⟨trivial, trivial, Lexer.findings_run _⟩

end

/-- What a first atom has within it, if that is all before and whatever follows stops behind. -/
theorem findingsWithin_of_append {lexing : Lexing} {fs more : List Finding} {size : Nat}
    (hfindings : lexing.findings = fs ++ more)
    (hfs : ∀ f ∈ fs, f.span.stop ≤ size ∧ ¬f.value.isUnterminatedQuote)
    (hmore : ∀ f ∈ more, size < f.span.stop ∨ f.value.isUnterminatedQuote) :
    lexing.findingsWithin ⟨0, size⟩ = fs := by
  have hnone : more.filter (fun f => 0 ≤ f.span.start ∧ f.span.stop ≤ size ∧
      ¬f.value.isUnterminatedQuote) = [] := by
    refine List.filter_eq_nil_iff.mpr fun f hf hwithin => ?_
    obtain ⟨-, hle, hnot⟩ := of_decide_eq_true hwithin
    rcases hmore f hf with hlt | hquote
    · omega
    · exact hnot hquote
  have hall : fs.filter (fun f => 0 ≤ f.span.start ∧ f.span.stop ≤ size ∧
      ¬f.value.isUnterminatedQuote) = fs :=
    List.filter_eq_self.mpr fun f hf => decide_eq_true ⟨Nat.zero_le _, hfs f hf⟩
  rw [Lexing.findingsWithin, hfindings, List.filter_append, hall, hnone, List.append_nil]

/-- A nest is read in one step, to the reference or to one failure. -/
theorem AtomReading.read_nest {x : Text} (hne : x ≠ []) (hx : ∀ c ∈ x, isNameChar c) (n : Nat)
    (t : Text) (q : Quoting) : ∃ s kind fs, (Reference.nest x n).text = '$' :: s ∧
      read q true '$' (s ++ t) = ⟨kind, s.length, fs, q⟩ ∧ Lexer.startsWord kind q q = false ∧
      (n + 1 ≤ maxNesting → kind = .reference (Reference.nest x n) ∧ fs = []) ∧
      (maxNesting < n + 1 → kind = .text ∧ ∃ span,
        fs = [⟨.badReference (.nestingTooDeep maxNesting), span⟩]) := by
  obtain ⟨s, hs⟩ := Reference.nest_opens x n
  by_cases hn : n < maxNesting
  · have hread : Reference.read (_ ++ t) = _ := Reference.readWithin_nest hne hx hn t
    refine ⟨'\x7b' :: s, .reference (Reference.nest x n), [], hs.symm, ?_, ?_, fun _ => ⟨rfl, rfl⟩,
      fun hlt => by omega⟩
    · rw [← hs] at hread
      simp at hread
      simp [read, ofDollar, hread]
    · simp [Lexer.startsWord, AtomKind.isSeparator, AtomKind.isText]
  · obtain ⟨span, hspan⟩ := Reference.readWithin_nest_tooDeep hx (Nat.le_of_not_lt hn) t
    have hread : Reference.read (_ ++ t) = _ := hspan
    refine ⟨'\x7b' :: s, .text, [⟨.badReference (.nestingTooDeep maxNesting), span⟩], hs.symm, ?_,
      ?_, fun hle => by omega, fun _ => ⟨rfl, span, rfl⟩⟩
    · rw [← hs] at hread
      simp at hread
      simp [read, ofDollar, hread]
    · simp [Lexer.startsWord, AtomKind.isSeparator]

/-- A nest of braces around a name is one atom, however deep it is.  Up to the limit it is the
reference with all its levels, and nothing is found within it.  Beyond the limit it is text, and the
only thing that is found within is that it is nested too deep.  What follows is split in the same
way behind every nest.  And no reference of any text has more levels than the limit. -/
theorem lex_nest :
    (∀ {x : Text}, x ≠ [] → (∀ c ∈ x, isNameChar c) → ∀ (n : Nat) (t : Text) (q : Quoting),
      let text := (List.replicate (n + 1) ['$', '\x7b']).flatten ++ x ++
        List.replicate (n + 1) '\x7d'
      let lexing := lex (text ++ t) q
      ∃ a, lexing.atoms =
          a :: (Lexer.startInWord t q).run.1.map (Atom.shift (Text.byteSize text)) ∧
        lexing.quoting = (Lexer.startInWord t q).run.2.quoting ∧
        a.text = text ∧ a.span = ⟨0, Text.byteSize text⟩ ∧
        (n + 1 ≤ maxNesting → a.kind = .reference (Reference.nest x n) ∧
          (Reference.nest x n).levels = n + 1 ∧ lexing.findingsWithin a.span = []) ∧
        (maxNesting < n + 1 → a.kind = .text ∧ ∃ span, lexing.findingsWithin a.span =
          [⟨.badReference (.nestingTooDeep maxNesting), span⟩])) ∧
    ∀ {text : Text} {q : Quoting} {a : Atom} {r : Reference}, a ∈ (lex text q).atoms →
      a.kind = .reference r → r.levels ≤ maxNesting := by
  refine ⟨fun {x} hne hx n t q => ?_, fun ha hkind => (readBy_of_mem_lex ha hkind).1.levels_le⟩
  intro text lexing
  obtain ⟨s, kind, fs, hs, hread, hstarts, hfits, hdeep⟩ :=
    AtomReading.read_nest hne hx n t q
  have htext : text = '$' :: s := (Reference.nest_text x n).symm.trans hs
  obtain ⟨hatoms, hquoting, more, hfindings, hmore⟩ := lex_first hread hstarts
  have htells := AtomReading.read_tells q true '$' (s ++ t)
  rw [hread, List.take_left] at htells
  have hends (f : Finding) (hf : f ∈ fs) :
      f.span.stop ≤ Text.byteSize ('$' :: s) ∧ ¬f.value.isUnterminatedQuote :=
    ⟨(htells.within f hf).2, Cause.not_isUnterminatedQuote (htells.notQuote f hf)⟩
  have hwithin := findingsWithin_of_append hfindings hends hmore
  rw [← List.cons_append, ← htext] at hatoms hquoting hwithin
  refine ⟨_, hatoms, hquoting, rfl, rfl, fun hle => ?_, fun hlt => ?_⟩
  · obtain ⟨hkind, hnone⟩ := hfits hle
    exact ⟨hkind, Reference.levels_nest x n, hwithin.trans hnone⟩
  · obtain ⟨hkind, span, hone⟩ := hdeep hlt
    exact ⟨hkind, span, hwithin.trans hone⟩

/-- In front of a blank, 64 braces around a name are a reference and 65 are text. -/
theorem lex_nest_limit :
    let text (n : Nat) : Text := (List.replicate (n + 1) ['$', '\x7b']).flatten ++ ['a'] ++
      List.replicate (n + 1) '\x7d'
    let lexing (n : Nat) := lex (text n ++ [' ', 'b']) .double
    maxNesting = 64 ∧ isNameChar 'a' ∧
      (∃ a ∈ (lexing 63).atoms, a.kind = .reference (Reference.nest ['a'] 63) ∧
        (Reference.nest ['a'] 63).levels = 64 ∧ (lexing 63).findingsWithin a.span = []) ∧
      ∃ a ∈ (lexing 64).atoms, a.kind = .text ∧ a.text = text 64 ∧
        ∃ span, (lexing 64).findingsWithin a.span =
          [⟨.badReference (.nestingTooDeep 64), span⟩] := by
  intro text lexing
  have hname : ∀ c ∈ ['a'], isNameChar c := List.all_eq_true.mp (by decide)
  obtain ⟨a, ha, -, -, -, hread, -⟩ :=
    lex_nest.1 (x := ['a']) (by decide) hname 63 [' ', 'b'] .double
  obtain ⟨b, hb, -, htext, -, -, hskipped⟩ :=
    lex_nest.1 (x := ['a']) (by decide) hname 64 [' ', 'b'] .double
  obtain ⟨hkind, hfindings⟩ := hskipped (by decide)
  have hmem : a ∈ (lexing 63).atoms := by
    rw [ha]
    exact List.mem_cons_self
  have hmem' : b ∈ (lexing 64).atoms := by
    rw [hb]
    exact List.mem_cons_self
  exact ⟨rfl, by decide, ⟨a, hmem, hread (by decide)⟩, b, hmem', hkind, htext, hfindings⟩

end RecipeLint

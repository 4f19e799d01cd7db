import RecipeLint.Proofs.Lexer.States
import RecipeLint.Proofs.Lexer.Truncation

/-!
# Cutting a text behind a separator

A run of the lexer can be cut behind a blank or an operator.  The text in front gives the atoms up
to there, and on the line itself the text behind, split on its own, gives the others, so that
nothing the lexer keeps in mind leads across.
-/

namespace RecipeLint

def AtomKind.isBreak : AtomKind → Bool
  | space | operator _ => true
  | _ => false

theorem AtomKind.isSeparator_of_isBreak {kind : AtomKind} (h : kind.isBreak) :
    kind.isSeparator := by
  cases kind <;> simp_all [isBreak, isSeparator]

def Atom.shift (offset : Nat) (a : Atom) : Atom :=
  { a with span := a.span.shift offset }

/-! ## Blanks and operators -/

theorem Operator.fence_mem_of_read? {text : Text} {n : Nat} {op : Operator}
    (h : read? text = some (n, op)) : ∃ b ∈ text.take n, isFence b := by
  obtain ⟨-, ⟨digits, kind, -, -, htake⟩ | ⟨which, -, hstarts⟩⟩ := read?_cases h
  · rw [htake]
    have hany : kind.symbol.any isFence := by cases kind <;> decide
    obtain ⟨b, hmem, hb⟩ := List.any_eq_true.mp hany
    exact ⟨b, List.mem_append_right digits hmem, hb⟩
  · have hany : which.symbol.any isFence := by cases which <;> decide
    obtain ⟨b, hmem, hb⟩ := List.any_eq_true.mp hany
    exact ⟨b, hstarts.subset hmem, hb⟩

namespace AtomReading

variable {q : Quoting} {wordStart : Bool} {c : Char} {rest : Text}

theorem ofText_kind (q : Quoting) (c : Char) (rest : Text) : (ofText q c rest).kind = .text := by
  unfold ofText
  split_ifs
  · split <;> rfl
  · rfl
  · rfl

theorem isSeparator_ofDollar (q : Quoting) (rest : Text) :
    (ofDollar q rest).kind.isSeparator = false := by
  unfold ofDollar
  split
  case h_1 => split <;> rfl
  case h_2 =>
    extract_lets reading
    split <;> rfl

theorem read_of_isBreak (h : (read q wordStart c rest).kind.isBreak) :
    c ≠ '$' ∧ q.allowsOperators ∧
      ((∃ n op, Operator.read? (c :: rest) = some (n, op)) ∨
        Operator.read? (c :: rest) = none ∧ q.next? c = none ∧ (c = ' ' ∨ c = '\t')) := by
  unfold read at h
  split_ifs at h with hdollar hq
  · have hseparator := AtomKind.isSeparator_of_isBreak h
    rw [isSeparator_ofDollar] at hseparator
    exact absurd hseparator Bool.false_ne_true
  · refine ⟨hdollar, hq, ?_⟩
    cases hop : Operator.read? (c :: rest) with
    | some found => exact .inl ⟨found.1, found.2, rfl⟩
    | none =>
      simp only [hop] at h
      cases hnext : q.next? c with
      | some next => simp [hnext, AtomKind.isBreak] at h
      | none =>
        simp only [hnext, ofBlank] at h
        split_ifs at h with hblank hcomment hbackticks
        · exact .inr ⟨rfl, rfl, hblank⟩
        · exact absurd h Bool.false_ne_true
        · exact absurd h Bool.false_ne_true
        · rw [ofText_kind] at h
          exact absurd h Bool.false_ne_true
  · cases hnext : q.next? c with
    | some next => simp [hnext, AtomKind.isBreak] at h
    | none =>
      simp only [hnext, ofText_kind] at h
      exact absurd h Bool.false_ne_true

theorem quoting_of_isBreak (h : (read q wordStart c rest).kind.isBreak) :
    (read q wordStart c rest).quoting = q := by
  have hbehind := (read_agrees q wordStart c rest).behind ⟨0, 0⟩
  rw [Atom.quotingBehind_of_quoteTo?] at hbehind
  · exact hbehind.symm
  · apply Atom.quoteTo?_eq_none_of_not_isText
    change (read q wordStart c rest).kind.isText = false
    cases hkind : (read q wordStart c rest).kind <;> simp_all [AtomKind.isBreak, AtomKind.isText]

theorem exists_fence_of_isBreak (h : (read q wordStart c rest).kind.isBreak) :
    ∃ b ∈ c :: rest.take (read q wordStart c rest).more, isFence b := by
  obtain ⟨hdollar, hq, ⟨n, op, hop⟩ | ⟨-, -, hblank⟩⟩ := read_of_isBreak h
  · obtain ⟨b, hmem, hb⟩ := Operator.fence_mem_of_read? hop
    have hread : read q wordStart c rest = ⟨.operator op, n - 1, [], q⟩ := by
      simp [read, hdollar, hq, hop]
    rw [hread, (Text.cons_take_pred (Operator.takes_of_read? hop).1 c rest).1]
    exact ⟨b, hmem, hb⟩
  · refine ⟨c, List.mem_cons_self, ?_⟩
    rcases hblank with rfl | rfl <;> rfl

theorem read_take_of_isBreak (h : (read q wordStart c rest).kind.isBreak) :
    read q wordStart c (rest.take (read q wordStart c rest).more) = read q wordStart c rest := by
  have hlength : (read q wordStart c rest).more ≤
      (rest.take (read q wordStart c rest).more).length := by
    have hle := (read_fits q wordStart c rest).more_le
    rw [List.length_take]
    omega
  generalize hs : rest.take (read q wordStart c rest).more = s at hlength
  obtain ⟨y, hrest⟩ : ∃ y, rest = s ++ y := ⟨_, by rw [← hs, List.take_append_drop]⟩
  clear hs
  subst hrest
  obtain ⟨hdollar, hq, hcases⟩ := read_of_isBreak h
  have hop : Operator.read? (c :: s) = Operator.read? (c :: (s ++ y)) := by
    rw [← List.cons_append]
    apply Operator.read?_truncate
    intro n op hop
    rw [List.cons_append] at hop
    simp only [read, hdollar, hq, hop, if_false, if_true] at hlength
    rw [List.length_cons]
    omega
  rcases hcases with ⟨n, op, hread⟩ | ⟨hread, hnext, hblank⟩
  · simp only [read, hdollar, hq, hop, hread, if_false, if_true]
  · simp only [read, ofBlank, hdollar, hq, hop, hread, hnext, hblank, if_false, if_true]
      at hlength ⊢
    rw [Text.takeWhile_truncate hlength]

/-- Any atom is read in the same way when the text ends somewhere behind a seam that follows it. -/
theorem read_take_append {text y : Text}
    (hrest : rest.drop (read q wordStart c rest).more = text ++ y) (hseam : ∃ b ∈ text, Seam b) :
    read q wordStart c (rest.take (read q wordStart c rest).more ++ text) =
      read q wordStart c rest := by
  obtain ⟨b, hmem, hb⟩ := hseam
  obtain ⟨front, tail, rfl⟩ := List.append_of_mem hmem
  have hcons : rest = rest.take (read q wordStart c rest).more ++ front ++ b :: (tail ++ y) := by
    have htake := List.take_append_drop (read q wordStart c rest).more rest
    rw [hrest] at htake
    simpa using htake.symm
  have hmore : (read q wordStart c rest).more ≤
      (rest.take (read q wordStart c rest).more ++ front).length := by
    have hle := (read_fits q wordStart c rest).more_le
    rw [List.length_append, List.length_take]
    omega
  generalize rest.take (read q wordStart c rest).more = s at hcons hmore ⊢
  rw [← List.append_assoc, hcons]
  rw [hcons] at hmore
  exact read_truncate hb wordStart y hmore

end AtomReading

/-! ## The text in front -/

namespace Lexer

def withRest (l : Lexer) (rest : Text) : Lexer :=
  { l with rest }

def skip (l : Lexer) : Nat → Lexer
  | 0 => l
  | n + 1 => l.next.2.skip n

theorem skip_add (l : Lexer) (m n : Nat) : l.skip (m + n) = (l.skip m).skip n := by
  induction m generalizing l with
  | zero => rw [Nat.zero_add, skip]
  | succ m ih => rw [Nat.succ_add, skip, skip, ih]

theorem next_of_rest_cons {l : Lexer} {c : Char} {rest : Text} (h : l.rest = c :: rest) :
    l.next = (some (l.advance c rest).1, (l.advance c rest).2) := by
  simp only [next, h]

theorem skip_of_rest_cons {l : Lexer} {c : Char} {rest : Text} (h : l.rest = c :: rest) (n : Nat) :
    l.skip (n + 1) = (l.advance c rest).2.skip n := by
  rw [skip, next_of_rest_cons h]

/-- A text that was cut off somewhere behind an atom gives that atom and then those of what is left
behind it, if the atom is read in the same way. -/
theorem run_truncate (l : Lexer) {c : Char} {rest text : Text}
    (hread : AtomReading.read l.quoting l.wordStart c
        (rest.take (AtomReading.read l.quoting l.wordStart c rest).more ++ text) =
      AtomReading.read l.quoting l.wordStart c rest) :
    (l.withRest ((l.advance c rest).1.text ++ text)).run =
      ((l.advance c rest).1 :: ((l.advance c rest).2.withRest text).run.1,
        ((l.advance c rest).2.withRest text).run.2) := by
  have hle := (AtomReading.read_fits l.quoting l.wordStart c rest).more_le
  have hlength : (rest.take (AtomReading.read l.quoting l.wordStart c rest).more).length =
      (AtomReading.read l.quoting l.wordStart c rest).more := by
    rw [List.length_take]
    omega
  have hadvance : (l.withRest ((l.advance c rest).1.text ++ text)).advance c
      (rest.take (AtomReading.read l.quoting l.wordStart c rest).more ++ text) =
      ((l.advance c rest).1, (l.advance c rest).2.withRest text) := by
    simp only [advance, withRest, hread]
    rw [List.take_left' hlength, List.drop_left' hlength]
    rfl
  have hcons : (l.withRest ((l.advance c rest).1.text ++ text)).rest = c ::
      (rest.take (AtomReading.read l.quoting l.wordStart c rest).more ++ text) := rfl
  rw [run_of_rest_cons hcons, hadvance]

theorem run_seam {l : Lexer} {before atoms : List Atom} (hrun : l.run.1 = before ++ atoms) :
    ∃ m : Lexer, m = l.skip before.length ∧ m.run = (atoms, l.run.2) ∧
      m.position = l.position + Text.byteSize (before.flatMap Atom.text) ∧ m.ended = l.ended ∧
      l.rest = before.flatMap Atom.text ++ m.rest ∧
      ∀ text y, m.rest = text ++ y → (∃ b ∈ text, Seam b) →
        (l.withRest (before.flatMap Atom.text ++ text)).run =
          (before ++ (m.withRest text).run.1, (m.withRest text).run.2) := by
  -- Each atom in front of the place is followed by the seam, which is all that it may see.
  induction before generalizing l with
  | nil => exact ⟨l, rfl, Prod.ext hrun rfl, rfl, rfl, rfl, fun _ _ _ _ => rfl⟩
  | cons x before ih =>
    cases hrest : l.rest with
    | nil => simp [run_of_rest_nil hrest] at hrun
    | cons c rest =>
      rw [run_of_rest_cons hrest] at hrun ⊢
      obtain ⟨rfl, hbehind⟩ := List.cons.inj hrun
      obtain ⟨m, hskip, hm, hposition, hended, htext, hcut⟩ := ih hbehind
      refine ⟨m, ?_, hm, ?_, hended, ?_, fun text y hy hseam => ?_⟩
      · rw [hskip, List.length_cons, skip_of_rest_cons hrest]
      · rw [hposition, List.flatMap_cons, Text.byteSize_append, ← Nat.add_assoc]
        rfl
      · rw [List.flatMap_cons, List.append_assoc, ← htext, advance_text]
      · have hdrop : rest.drop (AtomReading.read l.quoting l.wordStart c rest).more =
            before.flatMap Atom.text ++ text ++ y := by
          rw [List.append_assoc, ← hy, ← htext]
          rfl
        obtain ⟨b, hb, hseam'⟩ := hseam
        have hread := AtomReading.read_take_append hdrop
          ⟨b, List.mem_append_right _ hb, hseam'⟩
        rw [List.flatMap_cons, List.append_assoc, run_truncate l hread, hcut text y hy
          ⟨b, hb, hseam'⟩]
        rfl

/-- The run on the text up to a blank or an operator gives the atoms up to there, and the state
that it reaches is the one from which the whole run goes on. -/
theorem run_cut {l : Lexer} {before behind : List Atom} {a : Atom}
    (hrun : l.run.1 = before ++ a :: behind) (ha : a.kind.isBreak) :
    ∃ m : Lexer, m = l.skip (before.length + 1) ∧ m.run = (behind, l.run.2) ∧
      m.position = a.span.stop ∧ m.quoting = a.quoting ∧ m.wordStart ∧ m.ended = l.ended ∧
      l.rest = (before ++ [a]).flatMap Atom.text ++ m.rest ∧
      (l.withRest ((before ++ [a]).flatMap Atom.text)).run =
        (before ++ [a], (m.withRest []).finish) := by
  obtain ⟨m, hskip, hm, -, hended, htext, hcut⟩ := run_seam hrun
  cases hrest : m.rest with
  | nil => simp [run_of_rest_nil hrest] at hm
  | cons c rest =>
    rw [run_of_rest_cons hrest] at hm
    obtain ⟨hatoms, hlast⟩ := Prod.mk.inj hm
    obtain ⟨rfl, hbehind⟩ := List.cons.inj hatoms
    have hparts := m.advance_text c rest
    have hread := AtomReading.read_take_of_isBreak ha
    rw [← List.append_nil (List.take _ rest)] at hread
    have hfirst : (m.withRest (m.advance c rest).1.text).run =
        ([(m.advance c rest).1], ((m.advance c rest).2.withRest []).finish) := by
      rw [← List.append_nil (m.advance c rest).1.text, run_truncate m hread, run_of_rest_nil rfl]
    refine ⟨(m.advance c rest).2, ?_, Prod.ext hbehind hlast, rfl,
      AtomReading.quoting_of_isBreak ha, ?_, hended, ?_, ?_⟩
    · rw [skip_add, ← hskip, skip_of_rest_cons hrest, skip]
    · exact Bool.or_eq_true_iff.mpr (.inl (AtomKind.isSeparator_of_isBreak ha))
    · rw [htext, hrest, List.flatMap_append, List.flatMap_singleton, List.append_assoc, hparts]
    · obtain ⟨b, hb, hfence⟩ := AtomReading.exists_fence_of_isBreak ha
      rw [List.flatMap_append, List.flatMap_singleton,
        hcut _ _ (hrest.trans hparts.symm) ⟨b, hb, seam_of_isFence hfence⟩, hfirst]

/-! ## The text behind -/

def startInWord (text : Text) (q : Quoting) : Lexer :=
  { Lexer.start text q with wordStart := false }

/-- The second lexer goes on like the first one, further right, whatever was found before. -/
structure Moves (offset : Nat) (l l' : Lexer) : Prop where
  rest : l'.rest = l.rest
  position : l'.position = l.position + offset
  quoting : l'.quoting = l.quoting
  wordStart : l'.wordStart = l.wordStart

namespace Moves

variable {offset : Nat} {l l' : Lexer}

theorem advance (h : Moves offset l l') (c : Char) (rest : Text) :
    (l'.advance c rest).1 = (l.advance c rest).1.shift offset ∧
      Moves offset (l.advance c rest).2 (l'.advance c rest).2 := by
  refine ⟨?_, ?_, ?_, ?_, ?_⟩ <;>
    simp only [Lexer.advance, Atom.shift, Span.shift, h.position, h.quoting, h.wordStart,
      Nat.add_right_comm _ offset]

theorem run (h : Moves offset l l') :
    l'.run.1 = l.run.1.map (Atom.shift offset) ∧ l'.run.2.quoting = l.run.2.quoting := by
  induction l using Lexer.run.induct generalizing l' with
  | case1 l hrest =>
    rw [run_of_rest_nil hrest, run_of_rest_nil (h.rest.trans hrest)]
    exact ⟨rfl, by rw [finish_quoting, finish_quoting, h.quoting]⟩
  | case2 l c rest hrest step =>
    rename_i ih
    obtain ⟨hatom, hstep⟩ := h.advance c rest
    obtain ⟨hatoms, hlast⟩ := ih hstep
    rw [run_of_rest_cons hrest, run_of_rest_cons (h.rest.trans hrest), hatom, hatoms]
    exact ⟨rfl, hlast⟩

/-- One step finds the same, further right. -/
theorem findings_advance (h : Moves offset l l') {front : List Finding}
    (hfindings : l'.findings = front ++ l.findings.map (Located.shift offset)) (c : Char)
    (rest : Text) : (l'.advance c rest).2.findings =
      front ++ (l.advance c rest).2.findings.map (Located.shift offset) := by
  simp [Lexer.advance, hfindings, h.position, h.quoting, h.wordStart, Located.shift,
    Function.comp_def]

end Moves

/-- The second lexer goes on like the first one, further right and with findings from before. Where
the outermost quote starts matters only while one is open. -/
structure Resumes (offset : Nat) (front : List Finding) (l l' : Lexer) : Prop
    extends Moves offset l l' where
  quoteStart : l.quoting = .plain ∨ l'.quoteStart = l.quoteStart + offset
  findings : l'.findings = front ++ l.findings.map (Located.shift offset)
  ended : l'.ended = l.ended

namespace Resumes

variable {offset : Nat} {front : List Finding} {l l' : Lexer}

theorem advance (h : Resumes offset front l l') (c : Char) (rest : Text) :
    (l'.advance c rest).1 = (l.advance c rest).1.shift offset ∧
      Resumes offset front (l.advance c rest).2 (l'.advance c rest).2 := by
  obtain ⟨hatom, hmoves⟩ := h.toMoves.advance c rest
  refine ⟨hatom, hmoves, .inr ?_, h.findings_advance h.findings c rest, h.ended⟩
  simp only [Lexer.advance, h.quoting, h.position]
  rcases h.quoteStart with hplain | hstart
  · rw [if_pos hplain, if_pos hplain]
  · split_ifs
    · rfl
    · exact hstart

theorem finish (h : Resumes offset front l l') : Resumes offset front l.finish l'.finish := by
  unfold Lexer.finish
  rw [h.ended, h.quoting]
  split
  case h_1 opener hended houtermost =>
    have hopen : l.quoting ≠ .plain := by
      intro hplain
      simp [hplain, Quoting.outermost?] at houtermost
    have hstart := h.quoteStart.resolve_left hopen
    refine ⟨⟨h.rest, h.position, rfl, h.wordStart⟩, .inr hstart, ?_, rfl⟩
    simp [h.findings, h.position, hstart, Located.shift, Span.shift]
  case h_2 =>
    exact ⟨⟨h.rest, h.position, rfl, h.wordStart⟩, h.quoteStart, h.findings, rfl⟩

theorem run (h : Resumes offset front l l') :
    l'.run.1 = l.run.1.map (Atom.shift offset) ∧ Resumes offset front l.run.2 l'.run.2 := by
  induction l using Lexer.run.induct generalizing l' with
  | case1 l hrest =>
    rw [run_of_rest_nil hrest, run_of_rest_nil (h.rest.trans hrest)]
    exact ⟨rfl, h.finish⟩
  | case2 l c rest hrest step =>
    rename_i ih
    obtain ⟨hatom, hstep⟩ := h.advance c rest
    obtain ⟨hatoms, hlast⟩ := ih hstep
    rw [run_of_rest_cons hrest, run_of_rest_cons (h.rest.trans hrest), hatom, hatoms]
    exact ⟨rfl, hlast⟩

end Resumes

end Lexer

theorem Atom.Tile.stop_eq {position : Nat} {before behind : List Atom} {a : Atom}
    (h : Tile position (before ++ a :: behind)) :
    a.span.stop = position + Text.byteSize ((before ++ [a]).flatMap Atom.text) := by
  induction before generalizing position with
  | nil =>
    obtain ⟨-, hspan, -⟩ := h
    simp [hspan]
  | cons b before ih =>
    obtain ⟨-, hspan, hrest⟩ := h
    have hstop : b.span.stop = position + Text.byteSize b.text := by rw [hspan]
    rw [ih hrest, hstop, List.cons_append, List.flatMap_cons, Text.byteSize_append, Nat.add_assoc]

/-- Splitting a text is splitting the part up to a blank or an operator of the line itself, and then
the part behind it. -/
theorem lex_cut {text : Text} {q : Quoting} {before behind : List Atom} {a : Atom}
    (hatoms : (lex text q).atoms = before ++ a :: behind) (ha : a.kind.isBreak)
    (hplain : a.quoting = .plain) :
    ∃ u v, text = u ++ v ∧ a.span.stop = Text.byteSize u ∧
      (lex u q).atoms = before ++ [a] ∧ (lex u q).quoting = .plain ∧
      behind = (lex v .plain).atoms.map (Atom.shift a.span.stop) ∧
      (lex text q).quoting = (lex v .plain).quoting ∧
      (lex text q).findings =
        (lex u q).findings ++ (lex v .plain).findings.map (Located.shift a.span.stop) := by
  have htile := lex_tile text q
  rw [hatoms] at htile
  have hstop := htile.stop_eq
  rw [Nat.zero_add] at hstop
  obtain ⟨m, -, hm, hposition, hquoting, hstart, hended, htext, hcut⟩ :=
    Lexer.run_cut (l := Lexer.start text q) hatoms ha
  have hfinish : (m.withRest []).finish = { m with rest := [], ended := true } := by
    simp [Lexer.finish, Lexer.withRest, hquoting, hplain, Quoting.outermost?]
  have hresumes : Lexer.Resumes a.span.stop m.findings (Lexer.start m.rest .plain) m :=
    ⟨⟨rfl, by simp [Lexer.start, hposition], by simp [Lexer.start, hquoting, hplain],
      by simpa [Lexer.start] using hstart⟩, .inl rfl, by simp [Lexer.start], hended⟩
  obtain ⟨hbehind, hlast⟩ := hresumes.run
  have hu : lex ((before ++ [a]).flatMap Atom.text) q =
      ⟨before ++ [a], m.quoting, m.findings⟩ := by
    have hfront : Lexer.start ((before ++ [a]).flatMap Atom.text) q =
        (Lexer.start text q).withRest ((before ++ [a]).flatMap Atom.text) := rfl
    simp only [lex, hfront, hcut, hfinish]
  refine ⟨(before ++ [a]).flatMap Atom.text, m.rest, htext, hstop, ?_, ?_, ?_, ?_, ?_⟩
  · rw [hu]
  · rw [hu, hquoting, hplain]
  · rw [hm] at hbehind
    exact hbehind
  · rw [hm] at hlast
    exact hlast.quoting
  · rw [hm] at hlast
    rw [hu]
    exact hlast.findings

end RecipeLint

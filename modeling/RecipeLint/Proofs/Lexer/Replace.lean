import RecipeLint.Proofs.Lexer.DollarAhead
import RecipeLint.Proofs.Lexer.References

/-!
# Replacing a reference

A reference atom can be replaced by another spelling that is read as a reference wherever it stands.
That leaves the atoms in front as they are and moves those behind it, since neither see more of a
reference than its dollar sign.
-/

namespace RecipeLint

open Reading

theorem Reference.exists_cons_of_reads {levels : Nat} {s t : Text} {r : Reference}
    (h : Reads (fun rest => readWithin levels ('$' :: rest)) 1 s (some r) t) :
    ∃ d s', s = d :: s' ∧ d ≠ '$' := by
  rcases reads_readWithin.mp h with
    ⟨_, _, opening, _, s', _, _, -, hwrites, rfl, -, -⟩ | ⟨c, rfl, hc, -⟩
  · exact ⟨opening, _, rfl, by cases hwrites <;> decide⟩
  · refine ⟨c, [], rfl, ?_⟩
    rintro rfl
    exact absurd hc (by decide)

theorem Atom.Tile.append {position : Nat} {front behind : List Atom} :
    Tile position (front ++ behind) ↔
      Tile position front ∧ Tile (position + Text.byteSize (front.flatMap Atom.text)) behind := by
  induction front generalizing position with
  | nil => simp [Tile]
  | cons a front ih =>
    rw [List.cons_append, Tile, Tile, ih, List.flatMap_cons, Text.byteSize_append, ← Nat.add_assoc]
    constructor
    · rintro ⟨hne, hspan, hfront, hbehind⟩
      rw [hspan] at hbehind
      exact ⟨⟨hne, hspan, hfront⟩, hbehind⟩
    · rintro ⟨⟨hne, hspan, hfront⟩, hbehind⟩
      exact ⟨hne, hspan, hfront, by rw [hspan]; exact hbehind⟩

/-- An atom somewhere in front of a dollar sign is read again when something else stands behind the
dollar sign. -/
theorem AtomReading.read_dollar_of_drop {q : Quoting} {wordStart : Bool} {c d d' : Char}
    {rest u t : Text} (hd : d ≠ '$') (hd' : d' ≠ '$')
    (hdrop : rest.drop (read q wordStart c rest).more = u ++ '$' :: d :: t) (t' : Text) :
    read q wordStart c (rest.take (read q wordStart c rest).more ++ (u ++ '$' :: d' :: t')) =
      read q wordStart c rest := by
  have hparts : rest = rest.take (read q wordStart c rest).more ++ u ++ '$' :: d :: t := by
    rw [List.append_assoc, ← hdrop, List.take_append_drop]
  have hmore : (read q wordStart c rest).more ≤
      (rest.take (read q wordStart c rest).more ++ u).length := by
    have hle := (read_fits q wordStart c rest).more_le
    rw [List.length_append, List.length_take]
    omega
  generalize rest.take (read q wordStart c rest).more = front at hparts hmore ⊢
  subst hparts
  rw [← List.append_assoc]
  exact read_dollar hd hd' wordStart t' hmore

namespace Lexer

/-- What comes in front of a reference atom is split as before when something else stands behind
the dollar sign. -/
theorem run_dollar {l : Lexer} {before behind : List Atom} {a : Atom}
    (hrun : l.run.1 = before ++ a :: behind) {d : Char} {s : Text} (htext : a.text = '$' :: d :: s)
    (hd : d ≠ '$') :
    ∃ m : Lexer, m.run = (a :: behind, l.run.2) ∧ l.rest = before.flatMap Atom.text ++ m.rest ∧
      ∀ d' t', d' ≠ '$' → (l.withRest (before.flatMap Atom.text ++ '$' :: d' :: t')).run =
        (before ++ (m.withRest ('$' :: d' :: t')).run.1, (m.withRest ('$' :: d' :: t')).run.2) := by
  -- Each atom in front of `a` sees no more of it than the dollar sign.
  induction before generalizing l with
  | nil => exact ⟨l, Prod.ext hrun rfl, rfl, fun _ _ _ => rfl⟩
  | cons x before ih =>
    cases hrest : l.rest with
    | nil => simp [run_of_rest_nil hrest] at hrun
    | cons c rest =>
      rw [run_of_rest_cons hrest] at hrun ⊢
      obtain ⟨rfl, hbehind⟩ := List.cons.inj hrun
      obtain ⟨m, hm, hmrest, hreplace⟩ := ih hbehind
      refine ⟨m, hm, ?_, fun d' t' hd' => ?_⟩
      · rw [List.flatMap_cons, List.append_assoc, ← hmrest, advance_text]
      · have hmtext : m.rest = '$' :: d :: (s ++ behind.flatMap Atom.text) := by
          rw [← flatMap_text_run m, hm, List.flatMap_cons, htext]
          rfl
        have hdrop : rest.drop (AtomReading.read l.quoting l.wordStart c rest).more =
            before.flatMap Atom.text ++ '$' :: d :: (s ++ behind.flatMap Atom.text) := by
          rw [← hmtext, ← hmrest]
          rfl
        have hread := AtomReading.read_dollar_of_drop hd hd' hdrop t'
        rw [List.flatMap_cons, List.append_assoc, run_truncate l hread, hreplace d' t' hd']
        rfl

theorem run_reference {l : Lexer} {s t : Text} {r : Reference}
    (hread : Reads (fun rest => Reference.read ('$' :: rest)) 1 s (some r) t)
    (hrest : l.rest = '$' :: (s ++ t)) :
    ∃ next : Lexer, l.run = (⟨.reference r, '$' :: s, ⟨l.position,
        l.position + Text.byteSize ('$' :: s)⟩, l.quoting⟩ :: next.run.1, next.run.2) ∧
      next.rest = t ∧ next.position = l.position + Text.byteSize ('$' :: s) ∧
      next.quoting = l.quoting ∧ next.wordStart = false := by
  have hatom : AtomReading.read l.quoting l.wordStart '$' (s ++ t) =
      ⟨.reference r, s.length, (Reference.read ('$' :: (s ++ t))).findings, l.quoting⟩ := by
    have hmore : (Reference.read ('$' :: (s ++ t))).taken - 1 = s.length := by
      rw [hread.taken, Nat.add_sub_cancel_left]
    rw [AtomReading.read, if_pos rfl, AtomReading.ofDollar_of_outcome hread.outcome, hmore]
  have hbytes : ('$' :: (s ++ t).take s.length) = '$' :: s := by rw [List.take_left]
  refine ⟨(l.advance '$' (s ++ t)).2, ?_, ?_, ?_, ?_, ?_⟩
  · rw [run_of_rest_cons hrest]
    simp only [advance, hatom, List.take_left]
  all_goals simp [advance, hatom, startsWord, AtomKind.isSeparator, AtomKind.isText]

end Lexer

def Atom.respelled (a : Atom) (r : Reference) : Atom :=
  ⟨.reference r, r.text, ⟨a.span.start, a.span.start + Text.byteSize r.text⟩, a.quoting⟩

/-- A reference atom in another spelling leaves the atoms in front as they are, and moves those
behind. -/
theorem Lexer.run_respelled {l : Lexer} {before behind : List Atom} {a : Atom} {r r' : Reference}
    (hrun : l.run.1 = before ++ a :: behind) (hkind : a.kind = .reference r)
    (hread : ∀ t, Reads Reference.read 0 r'.text (some r') t) :
    ∃ tail : List Atom, behind = tail.map (Atom.shift a.span.stop) ∧
      (l.withRest (before.flatMap Atom.text ++ r'.text ++ behind.flatMap Atom.text)).run.1 =
        before ++ a.respelled r' :: tail.map (Atom.shift (a.respelled r').span.stop) ∧
      (l.withRest (before.flatMap Atom.text ++ r'.text ++ behind.flatMap Atom.text)).run.2.quoting =
        l.run.2.quoting := by
  obtain ⟨s, t, htext, hold⟩ := reads_of_mem_run (hrun ▸ by simp : a ∈ l.run.1) hkind
  obtain ⟨d, s, rfl, hd⟩ := Reference.exists_cons_of_reads hold
  obtain ⟨m, hm, -, hreplace⟩ := run_dollar hrun htext hd
  have hrest : m.rest = '$' :: (d :: s ++ behind.flatMap Atom.text) := by
    rw [← flatMap_text_run m, hm, List.flatMap_cons, htext]
    rfl
  obtain ⟨s', hs'⟩ := Reference.exists_cons_of_outcome (hread []).outcome
  have hnew (t : Text) : Reads (fun rest => Reference.read ('$' :: rest)) 1 s' (some r') t := by
    have h := hread t
    rwa [hs', reads_cons] at h
  obtain ⟨d', s', rfl, hd'⟩ := Reference.exists_cons_of_reads (hnew [])
  -- The lexer goes on from the reference as from the other spelling, at another place.
  obtain ⟨next, hnext, hback, hposition, hquoting, hstart⟩ :=
    run_reference ((Reference.extends_readWithin (Nat.le_refl _)).reference hold _) hrest
  obtain ⟨next', hnext', hback', hposition', hquoting', hstart'⟩ :=
    run_reference (l := m.withRest ('$' :: (d' :: s' ++ behind.flatMap Atom.text)))
      (hnew (behind.flatMap Atom.text)) rfl
  rw [hm] at hnext
  obtain ⟨hatoms, hlast⟩ := Prod.mk.inj hnext
  obtain ⟨ha, hbehind⟩ := List.cons.inj hatoms
  have hmoves : Moves next.position { next with position := 0 } next :=
    ⟨rfl, (Nat.zero_add _).symm, rfl, rfl⟩
  have hmoves' : Moves next'.position { next with position := 0 } next' :=
    ⟨hback'.trans hback.symm, (Nat.zero_add _).symm, hquoting'.trans hquoting.symm,
      hstart'.trans hstart.symm⟩
  have hstop : next.position = a.span.stop := by rw [hposition, ha]
  have hstop' : next'.position = (a.respelled r').span.stop := by
    rw [hposition', ha, ← hs']
    rfl
  have hfirst : a.respelled r' = ⟨.reference r', '$' :: d' :: s', ⟨m.position,
      m.position + Text.byteSize ('$' :: d' :: s')⟩, m.quoting⟩ := by
    rw [Atom.respelled, hs', ha]
  have htext' : before.flatMap Atom.text ++ r'.text ++ behind.flatMap Atom.text =
      before.flatMap Atom.text ++ '$' :: d' :: (s' ++ behind.flatMap Atom.text) := by
    simp [hs']
  refine ⟨(run { next with position := 0 }).1, ?_, ?_, ?_⟩
  · rw [hbehind, hmoves.run.1, hstop]
  · rw [htext', hreplace d' _ hd', ← List.cons_append, hnext', hmoves'.run.1, hstop', hfirst]
    rfl
  · rw [htext', hreplace d' _ hd', ← List.cons_append, hnext', hlast]
    exact hmoves'.run.2.trans hmoves.run.2.symm

theorem lex_respelled {text : Text} {q : Quoting} {before behind : List Atom} {a : Atom}
    {r r' : Reference} (hatoms : (lex text q).atoms = before ++ a :: behind)
    (hkind : a.kind = .reference r) (hread : ∀ t, Reads Reference.read 0 r'.text (some r') t) :
    ∃ (front back : Text) (tail : List Atom), text = front ++ a.text ++ back ∧
      a.span = ⟨Text.byteSize front, Text.byteSize (front ++ a.text)⟩ ∧
      behind = tail.map (Atom.shift a.span.stop) ∧
      (lex (front ++ r'.text ++ back) q).atoms =
        before ++ a.respelled r' :: tail.map (Atom.shift (a.respelled r').span.stop) ∧
      (lex (front ++ r'.text ++ back) q).quoting = (lex text q).quoting := by
  obtain ⟨tail, hbehind, hnew, hquoting⟩ :=
    Lexer.run_respelled (l := Lexer.start text q) hatoms hkind hread
  have htile := lex_tile text q
  rw [hatoms] at htile
  have hspan := (Atom.Tile.append.mp htile).2.2.1
  rw [Nat.zero_add, ← Text.byteSize_append] at hspan
  refine ⟨before.flatMap Atom.text, behind.flatMap Atom.text, tail, ?_, hspan, hbehind, hnew,
    hquoting⟩
  rw [← flatMap_text_lex text q, hatoms, List.flatMap_append, List.flatMap_cons, List.append_assoc]

end RecipeLint

import RecipeLint.Proofs.Lexer.Repeats
import RecipeLint.Proofs.Lexer.Trees
import RecipeLint.Proofs.Reading.Styles

/-!
# Round parentheses of a text

Where nothing failed to be read, the findings about round parentheses and the references in round
parentheses are told apart by separators alone: each such reference has one finding, and the findings
left over lie in separators.
-/

namespace RecipeLint

open Finding Reference

/-! ## References of a text -/

def Atom.references (a : Atom) : List (Nat × Reference) :=
  match a.reference? with
  | none => []
  | some r => (a.span.start, r) :: r.nested a.span.start

namespace Lexing

def references (l : Lexing) : List (Nat × Reference) :=
  l.atoms.flatMap Atom.references

def parenthesised (l : Lexing) : List Span :=
  (l.references.filter fun x => x.2.delimiter == .parentheses).map fun x => x.2.spanAt x.1

def styleSpans (l : Lexing) : List Span :=
  (l.findings.filter fun f => f.value.isStyle).map Located.span

/-- The span lies in a separator of one of the references. -/
def Hides (l : Lexing) (s : Span) : Prop :=
  ∃ x ∈ l.references, Reference.Hides x s

end Lexing

namespace Atom

theorem references_cases (a : Atom) : a.references = [] ∨
    ∃ r, a.kind = .reference r ∧ a.references = (a.span.start, r) :: r.nested a.span.start := by
  unfold references reference? AtomKind.reference?
  cases a.kind <;> simp

theorem exists_of_mem_references {a : Atom} {x : Nat × Reference} (hx : x ∈ a.references) :
    ∃ r, a.kind = .reference r ∧ x ∈ (a.span.start, r) :: r.nested a.span.start := by
  rcases a.references_cases with hnone | ⟨r, hkind, hsome⟩
  · simp [hnone] at hx
  · exact ⟨r, hkind, hsome ▸ hx⟩

theorem followedBy_held (references : List (Nat × Reference)) (a : Atom) :
    (⟨references, []⟩ : Holding).followedBy a.span.start (Reference.held a.reference?) =
      ⟨references ++ a.references, []⟩ := by
  unfold Atom.references
  cases a.reference? with
  | none => rfl
  | some r => simp [Holding.followedBy, Holding.shift, Reference.held, shiftStart,
      ← Reference.nested_shift]

theorem Tile.inOrder {position : Nat} {atoms : List Atom} (h : Tile position atoms) :
    InOrder (fun a : Atom => Text.byteSize a.text) position
      (atoms.map fun a => (a.span.start, a))
      (position + Text.byteSize (atoms.flatMap Atom.text)) := by
  induction atoms generalizing position with
  | nil => exact .nil (Nat.le_add_right _ _)
  | cons a atoms ih =>
    obtain ⟨-, hspan, hrest⟩ := h
    have hstart : a.span.start = position := congrArg Span.start hspan
    have hbehind := ih hrest
    rw [hspan] at hbehind
    rw [List.flatMap_cons, Text.byteSize_append, ← Nat.add_assoc]
    refine .cons (Nat.le_of_eq hstart.symm) ?_
    show InOrder _ (a.span.start + Text.byteSize a.text) _ _
    rw [hstart]
    exact hbehind

end Atom

section

variable {text : Text} {q : Quoting} {a : Atom} {x y : Nat × Reference}

theorem bounds_of_mem_references (ha : a ∈ (lex text q).atoms) (hx : x ∈ a.references) :
    a.span.start ≤ x.1 ∧ x.1 < (x.2.spanAt x.1).stop ∧
      (x.2.spanAt x.1).stop ≤ a.span.start + Text.byteSize a.text := by
  obtain ⟨r, hkind, hx⟩ := Atom.exists_of_mem_references hx
  obtain ⟨hread, htext⟩ := readBy_of_mem_lex ha hkind
  rw [htext]
  exact hread.bounds_of_mem hx

/-- The references of a text start one behind the other. -/
theorem pairwise_references (text : Text) (q : Quoting) :
    (lex text q).references.Pairwise fun x y => x.1 < y.1 := by
  have hatoms : (lex text q).atoms.Pairwise fun a b =>
      a.span.start + Text.byteSize a.text ≤ b.span.start :=
    List.pairwise_map.mp (lex_tile text q).inOrder.pairwise
  refine List.pairwise_flatMap.mpr ⟨fun a ha => ?_, hatoms.imp_of_mem fun ha hb hab x hx y hy => ?_⟩
  · rcases a.references_cases with hnone | ⟨r, hkind, hsome⟩
    · rw [hnone]
      exact .nil
    · rw [hsome]
      exact (readBy_of_mem_lex ha hkind).1.pairwise_start
  · have hfirst := bounds_of_mem_references ha hx
    have hsecond := bounds_of_mem_references hb hy
    omega

/-- No reference of a text has the span of something that a separator of the text hides. -/
theorem spanAt_ne_of_hides {s : Span} (hx : x ∈ (lex text q).references) (hs : Reference.Hides x s)
    (hy : y ∈ (lex text q).references) : y.2.spanAt y.1 ≠ s := by
  obtain ⟨a, ha, hx⟩ := List.mem_flatMap.mp hx
  obtain ⟨b, hb, hy⟩ := List.mem_flatMap.mp hy
  obtain ⟨r, hkind, hr⟩ := Atom.exists_of_mem_references hx
  obtain ⟨hread, htext⟩ := readBy_of_mem_lex ha hkind
  have hplace {a : Atom} (ha : a ∈ (lex text q).atoms) :
      (a.span.start, a) ∈ (lex text q).atoms.map fun a => (a.span.start, a) :=
    List.mem_map_of_mem ha
  -- Within one atom it is a matter of its tree, and two atoms share no characters.
  rcases (lex_tile text q).inOrder.eq_or_apart (hplace ha) (hplace hb) with heq | hapart
  · obtain rfl := (Prod.mk.inj heq).2
    obtain ⟨r', hkind', hy⟩ := Atom.exists_of_mem_references hy
    obtain rfl := AtomKind.reference.inj (hkind.symm.trans hkind')
    exact hread.spanAt_ne_of_hides hr hs hy
  · rintro rfl
    have hhidden := hread.bounds_of_hides hr hs
    have hsecond := bounds_of_mem_references hb hy
    rw [← htext] at hhidden
    simp only [spanAt] at hhidden hsecond hapart
    omega

end

/-! ## Reading -/

namespace AtomReading

/-- Where no style is found, no reference needs to be known. -/
theorem styles_of_silent {fs : List Finding} (h : ∀ f ∈ fs, f.value.isStyle = false) (s : Text) :
    Styles s .empty fs :=
  (Styles.nil s).append_other h

theorem ofText_styles (q : Quoting) (c : Char) (rest s : Text) :
    Styles s .empty (ofText q c rest).findings := by
  apply styles_of_silent
  intro f hf
  unfold ofText at hf
  split at hf
  case isTrue =>
    split at hf
    case h_1 => exact List.mem_singleton.mp hf ▸ rfl
    case h_2 | h_3 | h_4 => simp at hf
  case isFalse =>
    split at hf
    case isTrue => simp at hf
    case isFalse => exact List.mem_singleton.mp hf ▸ rfl

theorem ofDollar_styles (q : Quoting) (rest : Text)
    (hok : ∀ f ∈ (ofDollar q rest).findings, f.value.isFailure = false) :
    Styles ('$' :: rest.take (ofDollar q rest).more)
      (Reference.held (ofDollar q rest).kind.reference?) (ofDollar q rest).findings := by
  have hlogs := Reference.readWithin_logs Styles.logging maxNesting rest
  revert hok
  unfold ofDollar
  split
  case h_1 => split <;> exact fun _ => Styles.nil _
  case h_2 =>
    extract_lets reading
    split
    case h_1 r hr =>
      intro _
      have hne : reading.outcome ≠ .ok none := by simp [hr]
      have htaken := Reference.taken_pos_readWithin maxNesting _ hne
      have htake : '$' :: rest.take (reading.taken - 1) = ('$' :: rest).take reading.taken :=
        (Text.cons_take_pred htaken '$' rest).1
      rw [htake]
      exact hlogs.value _ hr
    case h_2 => exact fun _ => Styles.nil _
    case h_3 failure hfailure =>
      intro hok
      have hfound := hok _ (List.mem_append_right _ List.mem_cons_self)
      simp [Cause.isFailure] at hfound

theorem read_styles (q : Quoting) (wordStart : Bool) (c : Char) (rest : Text)
    (hok : ∀ f ∈ (read q wordStart c rest).findings, f.value.isFailure = false) :
    Styles (c :: rest.take (read q wordStart c rest).more)
      (Reference.held (read q wordStart c rest).kind.reference?)
      (read q wordStart c rest).findings := by
  revert hok
  unfold read
  split
  case isTrue hc => exact hc ▸ ofDollar_styles q rest
  case isFalse =>
    intro _
    split
    case h_1 => exact Styles.nil _
    case h_2 =>
      split
      case h_1 => exact Styles.nil _
      case h_2 =>
        split
        case isTrue =>
          unfold ofBlank
          split_ifs
          · exact Styles.nil _
          · exact Styles.nil _
          · exact Styles.nil _
          · rw [ofText_kind]
            exact ofText_styles q c rest _
        case isFalse =>
          rw [ofText_kind]
          exact ofText_styles q c rest _

end AtomReading

namespace Lexer

theorem mem_findings_run {l : Lexer} {f : Finding} (hf : f ∈ l.findings) :
    f ∈ l.run.2.findings := by
  induction l using Lexer.run.induct with
  | case1 l hrest =>
    rw [run_of_rest_nil hrest]
    unfold finish
    split
    case h_1 => exact List.mem_append_left _ hf
    case h_2 => exact hf
  | case2 l c rest hrest step =>
    rename_i ih
    rw [run_of_rest_cons hrest]
    exact ih (List.mem_append_left _ hf)

/-- What the lexer has found so far fits the references of what it has read. -/
structure Notes (front : Text) (references : List (Nat × Reference)) (l : Lexer) : Prop where
  position : l.position = Text.byteSize front
  styles : Styles front ⟨references, []⟩ l.findings

namespace Notes

variable {front : Text} {references : List (Nat × Reference)} {l : Lexer}

theorem advance (h : l.Notes front references) (c : Char) (rest : Text)
    (hok : ∀ f ∈ (l.advance c rest).2.findings, f.value.isFailure = false) :
    (l.advance c rest).2.Notes (front ++ (l.advance c rest).1.text)
      (references ++ (l.advance c rest).1.references) := by
  have hread := AtomReading.read_styles l.quoting l.wordStart c rest
    fun f hf => hok (f.shift l.position) (List.mem_append_right _ (List.mem_map_of_mem hf))
  refine ⟨?_, ?_⟩
  · rw [Text.byteSize_append, ← h.position]
    rfl
  · have hstyles := h.styles.append hread
    rw [← h.position] at hstyles
    rw [← Atom.followedBy_held]
    exact hstyles

theorem run (h : l.Notes front references)
    (hok : ∀ f ∈ l.run.2.findings, f.value.isFailure = false) :
    Styles (front ++ l.rest) ⟨references ++ l.run.1.flatMap Atom.references, []⟩
      l.run.2.findings := by
  induction l using Lexer.run.induct generalizing front references with
  | case1 l hrest =>
    rw [run_of_rest_nil hrest] at hok ⊢
    rw [hrest, List.append_nil, List.flatMap_nil, List.append_nil]
    revert hok
    unfold Lexer.finish
    split
    case h_1 =>
      intro hok
      have hfound := hok _ (List.mem_append_right _ List.mem_cons_self)
      simp [Cause.isFailure] at hfound
    case h_2 => exact fun _ => h.styles
  | case2 l c rest hrest step =>
    rename_i ih
    rw [run_of_rest_cons hrest] at hok ⊢
    -- No finding is forgotten, so what failed in this step would have failed at the end.
    have hnotes := h.advance c rest fun f hf => hok f (mem_findings_run hf)
    have hlast := ih hnotes hok
    rw [List.append_assoc, advance_text, List.append_assoc] at hlast
    rw [hrest]
    exact hlast

end Notes

end Lexer

/-! ## Findings and references -/

section

variable {text : Text} {q : Quoting}

theorem lex_styles (hread : ∀ f ∈ (lex text q).findings, f.value.isFailure = false) :
    Styles text ⟨(lex text q).references, []⟩ (lex text q).findings := by
  have hstart : (Lexer.start text q).Notes [] [] := ⟨rfl, Styles.nil []⟩
  exact hstart.run hread

/-- Two findings about round parentheses have different spans, since they have the same message. -/
theorem nodup_styleSpans (text : Text) (q : Quoting) : (lex text q).styleSpans.Nodup := by
  have hdiffer := (lex_findings_differ text q).filter fun f => f.value.isStyle
  refine List.pairwise_map.mpr (hdiffer.imp_of_mem fun {f g} hf hg hfg hspan => ?_)
  have hf := (List.mem_filter.mp hf).2
  have hg := (List.mem_filter.mp hg).2
  exact Cause.not_apart_of_isStyle hf hg (hfg hspan)

theorem nodup_parenthesised (text : Text) (q : Quoting) : (lex text q).parenthesised.Nodup := by
  have hstarts := (pairwise_references text q).filter fun x => x.2.delimiter == .parentheses
  refine List.pairwise_map.mpr (hstarts.imp fun hlt hspan => ?_)
  have hstart := congrArg Span.start hspan
  exact absurd hstart (Nat.ne_of_lt hlt)

theorem mem_parenthesised {s : Span} : s ∈ (lex text q).parenthesised ↔
    ∃ x ∈ (lex text q).references, x.2.delimiter = .parentheses ∧ x.2.spanAt x.1 = s := by
  simp [Lexing.parenthesised, and_assoc]

theorem mem_styleSpans {s : Span} : s ∈ (lex text q).styleSpans ↔
    ∃ f ∈ (lex text q).findings, f.value.isStyle ∧ f.span = s := by
  simp [Lexing.styleSpans, and_assoc]

/-- Where nothing fails to be read, the findings about round parentheses are about the references in
round parentheses that no separator hides, one about each.  A separator hides none unless there is a
dollar sign in front of a parenthesis in it. -/
theorem lex_styleSpans (hread : ∀ f ∈ (lex text q).findings, f.value.isFailure = false) :
    (lex text q).styleSpans.Nodup ∧ (lex text q).parenthesised.Nodup ∧
    (∀ s, s ∈ (lex text q).parenthesised ↔
      s ∈ (lex text q).styleSpans ∧ ¬(lex text q).Hides s) ∧
    ((∀ x ∈ (lex text q).references, ∀ m ∈ x.2.modifiers, ¬m.MayHide) →
      (lex text q).styleSpans.Perm (lex text q).parenthesised) := by
  have hstyles := lex_styles hread
  have hfound {s : Span} (hs : s ∈ (lex text q).parenthesised) : s ∈ (lex text q).styleSpans := by
    obtain ⟨x, hx, hdelimiter, rfl⟩ := mem_parenthesised.mp hs
    exact mem_styleSpans.mpr (hstyles.found x hx hdelimiter)
  have hexplained {s : Span} (hs : s ∈ (lex text q).styleSpans) :
      s ∈ (lex text q).parenthesised ∨ ∃ x ∈ (lex text q).references,
        ∃ y ∈ x.2.placedModifiers x.1, Modifier.Hides y s ∧ y.2.MayHide := by
    obtain ⟨f, hf, hstyle, rfl⟩ := mem_styleSpans.mp hs
    rcases hstyles.explained f hf hstyle with hlisted | ⟨y, hy, hhides⟩
    · exact .inl (mem_parenthesised.mpr hlisted)
    · obtain ⟨x, hx, hy⟩ := List.mem_flatMap.mp hy
      exact .inr ⟨x, hx, y, hy, hhides⟩
  refine ⟨nodup_styleSpans text q, nodup_parenthesised text q, fun s => ⟨fun hs => ?_, ?_⟩,
    fun hshown => ?_⟩
  · refine ⟨hfound hs, ?_⟩
    rintro ⟨x, hx, hhides⟩
    obtain ⟨y, hy, -, hspan⟩ := mem_parenthesised.mp hs
    exact spanAt_ne_of_hides hx hhides hy hspan
  · rintro ⟨hs, hshown⟩
    rcases hexplained hs with hlisted | ⟨x, hx, y, hy, hhides, -⟩
    · exact hlisted
    · exact absurd ⟨x, hx, y, hy, hhides⟩ hshown
  · refine (List.perm_ext_iff_of_nodup (nodup_styleSpans text q)
      (nodup_parenthesised text q)).mpr fun s => ⟨fun hs => ?_, hfound⟩
    rcases hexplained hs with hlisted | ⟨x, hx, y, hy, -, hmay⟩
    · exact hlisted
    · exact absurd hmay (hshown x hx y.2 (mem_modifiers_of_mem_placedModifiers hy))

end

/-- In `${X:!=$(Y)}` an exclamation mark is tried as a command first, and the reference inside is
found and listed once. -/
theorem lex_styleSpans_suffix :
    let text : Text := ['$', '\x7b', 'X', ':', '!', '=', '$', '(', 'Y', ')', '\x7d']
    (∀ f ∈ (lex text .plain).findings, f.value.isFailure = false) ∧
      (lex text .plain).styleSpans = [⟨6, 10⟩] ∧
      (lex text .plain).styleSpans.Perm (lex text .plain).parenthesised := by
  intro text
  let inner : Reference := ⟨.parentheses, [.literal ['Y']], [], ['$', '(', 'Y', ')']⟩
  let whole : Reference := ⟨.braces, [.literal ['X']],
    [.colon (.suffix [.literal ['!']] [.reference inner])], text⟩
  have hfindings : (lex text .plain).findings = [⟨.roundParentheses ['Y'] [], ⟨6, 10⟩⟩] := by
    with_unfolding_all rfl
  have hreferences : (lex text .plain).references = [(0, whole), (6, inner)] := by
    with_unfolding_all rfl
  have hread : ∀ f ∈ (lex text .plain).findings, f.value.isFailure = false := by
    simp [hfindings, Cause.isFailure]
  refine ⟨hread, ?_, (lex_styleSpans hread).2.2.2 ?_⟩
  · simp [Lexing.styleSpans, hfindings, Cause.isStyle]
  · rw [hreferences]
    simp [whole, inner, Reference.modifiers, Link.modifier?, Modifier.MayHide]

/-- In `${X:ts$(Y)}` only the characters of the reference inside are kept, for a separator: it is
found, but not listed. -/
theorem lex_styleSpans_separator :
    let text : Text := ['$', '\x7b', 'X', ':', 't', 's', '$', '(', 'Y', ')', '\x7d']
    (∀ f ∈ (lex text .plain).findings, f.value.isFailure = false) ∧
      (lex text .plain).styleSpans = [⟨6, 10⟩] ∧ (lex text .plain).parenthesised = [] ∧
      ¬(lex text .plain).styleSpans.Perm (lex text .plain).parenthesised := by
  intro text
  have hfindings : (lex text .plain).findings =
      [⟨.roundParentheses ['Y'] [], ⟨6, 10⟩⟩,
        ⟨.invalidSeparator ['$', '(', 'Y', ')'] ['X'], ⟨4, 10⟩⟩] := by
    with_unfolding_all rfl
  have hspans : (lex text .plain).styleSpans = [⟨6, 10⟩] := by
    simp [Lexing.styleSpans, hfindings, Cause.isStyle]
  have hlisted : (lex text .plain).parenthesised = [] := by
    with_unfolding_all rfl
  refine ⟨?_, hspans, hlisted, ?_⟩
  · simp [hfindings, Cause.isFailure]
  · rw [hspans, hlisted]
    simp

end RecipeLint

import RecipeLint.Proofs.Lexer.Causes
import RecipeLint.Proofs.Lexer.Replace
import RecipeLint.Proofs.Line.Order
import RecipeLint.Proofs.Line.Uses

/-!
# Quoting causes atom by atom

What a report says about the quoting of a reference is said at the span of its atom, and no other
atom has that span.  It depends on the reference, on the state it stands in, and on the atoms around
it as far as they separate words or are quotes.
-/

namespace RecipeLint

/-! ## Atoms apart -/

namespace Atom

theorem Tile.bounds {position : Nat} {atoms : List Atom} (h : Tile position atoms) {a : Atom}
    (ha : a ∈ atoms) : position ≤ a.span.start ∧ a.span.start < a.span.stop ∧
      a.span.stop ≤ position + Text.byteSize (atoms.flatMap Atom.text) := by
  obtain ⟨hne, front, behind, htext, hstart, hstop⟩ := h.cut_of_mem ha
  have hpos := Text.byteSize_pos hne
  have hsize := congrArg Text.byteSize htext
  simp only [Text.byteSize_append] at hsize hstop
  omega

theorem Tile.apart {position : Nat} {before behind : List Atom} {a : Atom}
    (h : Tile position (before ++ a :: behind)) : a.span.start < a.span.stop ∧
      (∀ b ∈ before, b.span.start < b.span.stop ∧ b.span.stop ≤ a.span.start) ∧
      ∀ b ∈ behind, a.span.stop ≤ b.span.start := by
  obtain ⟨hbefore, hrest⟩ := Tile.append.mp h
  have ha := hrest.bounds List.mem_cons_self
  refine ⟨ha.2.1, fun b hb => ?_, fun b hb => (hrest.2.2.bounds hb).1⟩
  have hb := hbefore.bounds hb
  omega

def role (a : Atom) : Bool × Bool :=
  (a.kind.isSeparator, a.isQuote)

theorem map_role_shift (offset : Nat) (atoms : List Atom) :
    (atoms.map (Atom.shift offset)).map role = atoms.map role := by
  rw [List.map_map]
  rfl

end Atom

/-! ## Uses -/

namespace Use

def among (site : Site) (before : List Atom) (a : Atom) (behind : List Atom) : Use :=
  ⟨site.time, if site.isLoop then .forLoop else .ofQuoting a.quoting, extentOf before a behind,
    site.type?⟩

theorem ofPosition_start {position : Nat} {before behind : List Atom} {a : Atom}
    (h : Atom.Tile position (before ++ a :: behind)) (site : Site) :
    ofPosition (before ++ a :: behind) a.span.start site = among site before a behind := by
  obtain ⟨ha, hbefore, -⟩ := h.apart
  have hnone : ∀ b ∈ before, b.span.contains a.span.start = false := by
    intro b hb
    have hstop := (hbefore b hb).2
    simp only [Span.contains, Bool.and_eq_false_iff, decide_eq_false_iff_not, Nat.not_lt]
    exact .inr hstop
  have hself : a.span.contains a.span.start := by simp [Span.contains, ha]
  have hfocus : focus? a.span.start (before ++ a :: behind) = some (before, a, behind) := by
    rw [focus?_append_of_forall _ hnone, focus?, if_pos hself]
    simp
  rw [ofPosition, hfocus]
  rfl

/-- The extent of an atom depends on what the others do to the word. -/
theorem extentOf_congr {before before' behind behind' : List Atom} {a a' : Atom}
    (hbefore : before.map Atom.role = before'.map Atom.role) (ha : a.role = a'.role)
    (hbehind : behind.map Atom.role = behind'.map Atom.role) :
    extentOf before a behind = extentOf before' a' behind' := by
  have hall (atoms : List Atom) :
      (atoms.takeWhile fun b => !b.kind.isSeparator).all Atom.isQuote =
        ((atoms.map Atom.role).takeWhile fun b => !b.1).all Prod.snd := by
    rw [List.takeWhile_map, List.all_map]
    rfl
  have hseparator : a.kind.isSeparator = a'.kind.isSeparator := congrArg Prod.fst ha
  simp only [extentOf, List.all_append, hall, List.map_reverse, hbefore, hbehind, hseparator]

theorem among_congr {site : Site} {before before' behind behind' : List Atom} {a a' : Atom}
    (hbefore : before.map Atom.role = before'.map Atom.role) (ha : a.role = a'.role)
    (hbehind : behind.map Atom.role = behind'.map Atom.role) (hquoting : a.quoting = a'.quoting) :
    among site before a behind = among site before' a' behind' := by
  rw [among, among, extentOf_congr hbefore ha hbehind, hquoting]

end Use

/-! ## Reports -/

def LineReport.quotingAt (report : LineReport) (span : Span) : List Cause :=
  (report.findings.filter fun f => f.span = span ∧ f.value.isQuoting).map Located.value

namespace LineCheck

variable (types : Registry) (settings : Settings) (site : Site)

/-- What is wrong with the quoting of an atom between others. -/
def quotingCauses (before : List Atom) (a : Atom) (behind : List Atom) : List Cause :=
  match a.reference? with
  | none => []
  | some r => (causes types r (Use.among site before a behind)).filter Cause.isQuoting

theorem quotingCauses_congr {before before' behind behind' : List Atom} {a a' : Atom}
    (hbefore : before.map Atom.role = before'.map Atom.role) (ha : a.role = a'.role)
    (hbehind : behind.map Atom.role = behind'.map Atom.role) (hquoting : a.quoting = a'.quoting)
    (hreference : a.reference? = a'.reference?) :
    quotingCauses types site before a behind = quotingCauses types site before' a' behind' := by
  rw [quotingCauses, quotingCauses, Use.among_congr hbefore ha hbehind hquoting, hreference]

theorem filter_sorted {p : Finding → Bool} {start : Nat}
    (hp : ∀ f, p f → f.span.start = start) (findings : List Finding) :
    (sorted findings).filter p = findings.filter p := by
  have hfilter (fs : List Finding) : fs.filter p = (startingAt start fs).filter p := by
    rw [startingAt, List.filter_filter]
    apply List.filter_congr
    intro f _
    cases hf : p f with
    | true => simp [hp f hf]
    | false => rfl
  rw [hfilter, startingAt_sorted, ← hfilter]

theorem filter_select (span : Span) (findings : List Finding) :
    (settings.select findings).filter (fun f => f.span = span ∧ f.value.isQuoting) =
      if settings.warnQuoting then findings.filter fun f => f.span = span ∧ f.value.isQuoting
      else [] := by
  have hreports (c : Cause) (hc : c.isQuoting) : settings.reports c = settings.warnQuoting := by
    have hstyle : c.isStyle = false := by cases c <;> simp_all [Cause.isQuoting, Cause.isStyle]
    simp [Settings.reports, hc, hstyle]
  rw [Settings.select, List.filter_filter]
  cases hwarn : settings.warnQuoting with
  | true =>
    apply List.filter_congr
    intro f _
    by_cases hf : f.value.isQuoting <;> simp [hf, hreports, hwarn]
  | false =>
    rw [if_neg Bool.false_ne_true, List.filter_eq_nil_iff]
    intro f _
    by_cases hf : f.value.isQuoting <;> simp [hf, hreports, hwarn]

/-- The findings about the use of an atom are the only ones at its span. -/
theorem filter_useFindings {position : Nat} {before behind : List Atom} {a : Atom}
    (h : Atom.Tile position (before ++ a :: behind)) :
    (useFindings types site (before ++ a :: behind)).filter
        (fun f => f.span = a.span ∧ f.value.isQuoting) =
      (quotingCauses types site before a behind).map fun cause => ⟨cause, a.span⟩ := by
  obtain ⟨ha, hbefore, hbehind⟩ := h.apart
  have hother (b : Atom) (hb : b ∈ before ∨ b ∈ behind) : b.span ≠ a.span := by
    intro hspan
    rcases hb with hb | hb
    · have := hbefore b hb
      rw [hspan] at this
      omega
    · have := hbehind b hb
      rw [hspan] at this
      omega
  have hnone (b : Atom) (hb : b ∈ before ∨ b ∈ behind) (r? : Option Reference) (use : Use) :
      List.filter (fun f => f.span = a.span ∧ f.value.isQuoting)
        (match r? with
        | none => []
        | some r => (causes types r use).map fun cause => (⟨cause, b.span⟩ : Finding)) = [] := by
    rw [List.filter_eq_nil_iff]
    intro f hf
    cases r? with
    | none => simp at hf
    | some r =>
      obtain ⟨cause, -, rfl⟩ := List.mem_map.mp hf
      simp [hother b hb]
  have hbefore' := List.flatMap_eq_nil_iff.mpr fun b hb =>
    hnone b (.inl hb) b.reference? (Use.ofPosition (before ++ a :: behind) b.span.start site)
  have hbehind' := List.flatMap_eq_nil_iff.mpr fun b hb =>
    hnone b (.inr hb) b.reference? (Use.ofPosition (before ++ a :: behind) b.span.start site)
  rw [useFindings, List.filter_flatMap, List.flatMap_append, List.flatMap_cons]
  refine (congrArg₂ _ hbefore' (congrArg₂ _ rfl hbehind')).trans ?_
  rw [List.nil_append, List.append_nil, Use.ofPosition_start h, quotingCauses]
  cases a.reference? with
  | none => rfl
  | some r =>
    rw [List.filter_map]
    simp [Function.comp_def]

theorem quotingAt_lintLine {text : Text} {q : Quoting} {before behind : List Atom} {a : Atom}
    (hatoms : (lintLine types settings text q site).atoms = before ++ a :: behind) :
    (lintLine types settings text q site).quotingAt a.span =
      if settings.warnQuoting then quotingCauses types site before a behind else [] := by
  have hlex : (lex text q).atoms = before ++ a :: behind := hatoms
  have htile := lex_tile text q
  rw [hlex] at htile
  have hfront :
      (lex text q).findings.filter (fun f => f.span = a.span ∧ f.value.isQuoting) = [] := by
    rw [List.filter_eq_nil_iff]
    intro f hf
    simp [lex_leavesQuoting text q f hf]
  have hstart (f : Finding) (hf : decide (f.span = a.span ∧ f.value.isQuoting)) :
      f.span.start = a.span.start := congrArg Span.start (of_decide_eq_true hf).1
  rw [LineReport.quotingAt, lintLine]
  simp only [filter_sorted hstart, filter_select, List.filter_append, hfront, List.nil_append, hlex,
    filter_useFindings types site htile]
  split
  · rw [List.map_map]
    exact List.map_id _
  · rfl

end LineCheck

end RecipeLint

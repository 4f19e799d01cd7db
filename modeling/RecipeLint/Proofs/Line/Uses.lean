import Mathlib.Data.List.Basic
import RecipeLint.Proofs.Line.Shift

/-!
# References on both sides of a separator

How a reference is used depends on the atoms of its own word, and a word does not go on across a
blank, an operator or a comment.  So on each side of such an atom references are judged as if the
other side were not there.
-/

namespace RecipeLint

namespace Use

variable {position : Nat}

/-! ## The atom at a position -/

theorem focus?_shift (offset position : Nat) (atoms : List Atom) :
    focus? (position + offset) (atoms.map (Atom.shift offset)) =
      (focus? position atoms).map fun (before, a, behind) =>
        (before.map (Atom.shift offset), a.shift offset, behind.map (Atom.shift offset)) := by
  induction atoms with
  | nil => rfl
  | cons a atoms ih =>
    have hcontains : (a.shift offset).span.contains (position + offset) =
        a.span.contains position := by
      simp [Atom.shift, Span.shift, Span.contains]
    rw [List.map_cons, focus?, focus?, hcontains, ih]
    by_cases ha : a.span.contains position
    · rw [if_pos ha, if_pos ha]
      rfl
    · rw [if_neg ha, if_neg ha]
      cases focus? position atoms <;> rfl

theorem focus?_of_exists {atoms : List Atom} (h : ∃ x ∈ atoms, x.span.contains position) :
    ∃ before a behind, atoms = before ++ a :: behind ∧
      ∀ others, focus? position (atoms ++ others) = some (before, a, behind ++ others) := by
  induction atoms with
  | nil => simp at h
  | cons b atoms ih =>
    by_cases hb : b.span.contains position
    · refine ⟨[], b, atoms, rfl, fun others => ?_⟩
      rw [List.cons_append, focus?, if_pos hb]
    · have hrest : ∃ x ∈ atoms, x.span.contains position := by
        obtain ⟨x, hmem, hx⟩ := h
        rcases List.mem_cons.mp hmem with rfl | hmem
        · exact absurd hx hb
        · exact ⟨x, hmem, hx⟩
      obtain ⟨before, a, behind, rfl, hfocus⟩ := ih hrest
      refine ⟨b :: before, a, behind, rfl, fun others => ?_⟩
      rw [List.cons_append, focus?, if_neg hb, hfocus]
      rfl

theorem focus?_append_of_forall {atoms : List Atom} (others : List Atom)
    (h : ∀ x ∈ atoms, x.span.contains position = false) :
    focus? position (atoms ++ others) =
      (focus? position others).map fun (before, a, behind) => (atoms ++ before, a, behind) := by
  induction atoms with
  | nil => simp
  | cons b atoms ih =>
    have hb : ¬ b.span.contains position := by simp [h b List.mem_cons_self]
    rw [List.cons_append, focus?, if_neg hb, ih fun x hx => h x (List.mem_cons_of_mem b hx)]
    cases focus? position others <;> rfl

/-! ## The word around it -/

theorem extentOf_shift (offset : Nat) (before : List Atom) (a : Atom) (behind : List Atom) :
    extentOf (before.map (Atom.shift offset)) (a.shift offset) (behind.map (Atom.shift offset)) =
      extentOf before a behind := by
  have hkind (b : Atom) : (b.shift offset).kind = b.kind := rfl
  have hquote (b : Atom) : (b.shift offset).isQuote = b.isQuote := rfl
  unfold extentOf
  simp only [← List.map_reverse, List.takeWhile_map, Function.comp_def, hkind, ← List.map_append,
    List.all_map, hquote]

theorem takeWhile_append_separator {a : Atom} (ha : a.kind.isSeparator) (atoms others : List Atom) :
    (atoms ++ a :: others).takeWhile (fun b => !b.kind.isSeparator) =
      atoms.takeWhile fun b => !b.kind.isSeparator := by
  induction atoms with
  | nil => simp [ha]
  | cons b atoms ih => simp only [List.cons_append, List.takeWhile_cons, ih]

/-- What comes behind a separator that follows an atom does not matter to its extent. -/
theorem extentOf_append_behind {a : Atom} (ha : a.kind.isSeparator)
    (before : List Atom) (b : Atom) (behind others : List Atom) :
    extentOf before b (behind ++ a :: others) = extentOf before b (behind ++ [a]) := by
  simp only [extentOf, takeWhile_append_separator ha]

theorem extentOf_append_before {a : Atom} (ha : a.kind.isSeparator)
    (front before : List Atom) (b : Atom) (behind : List Atom) :
    extentOf (front ++ a :: before) b behind = extentOf before b behind := by
  simp only [extentOf, List.reverse_append, List.reverse_cons, List.append_assoc,
    List.singleton_append, takeWhile_append_separator ha]

theorem extentOf_of_isSeparator {a : Atom} (ha : a.kind.isSeparator) (before behind : List Atom) :
    extentOf before a behind = .unknown :=
  if_pos ha

/-! ## Uses -/

theorem ofPosition_shift (offset position : Nat) (atoms : List Atom) (site : Site) :
    ofPosition (atoms.map (Atom.shift offset)) (position + offset) site =
      ofPosition atoms position site := by
  unfold ofPosition
  rw [focus?_shift]
  cases hfocus : focus? position atoms with
  | none => rfl
  | some found =>
    obtain ⟨before, a, behind⟩ := found
    simp only [Option.map_some, extentOf_shift]
    rfl

variable {front : List Atom} {a : Atom}

/-- A use up to a separator does not depend on what comes behind the separator. -/
theorem ofPosition_front (ha : a.kind.isSeparator) (others : List Atom) (site : Site)
    (h : ∃ x ∈ front ++ [a], x.span.contains position) :
    ofPosition (front ++ a :: others) position site = ofPosition (front ++ [a]) position site := by
  obtain ⟨before, b, behind, hparts, hfocus⟩ := focus?_of_exists h
  have hwhole : front ++ a :: others = (front ++ [a]) ++ others := by simp
  have hself := hfocus []
  rw [List.append_nil, List.append_nil] at hself
  have hextent : extentOf before b (behind ++ others) = extentOf before b behind := by
    rcases List.eq_nil_or_concat behind with rfl | ⟨init, last, rfl⟩
    · have hb : a = b := (List.append_inj' hparts rfl).2 |> List.cons.inj |>.1
      rw [extentOf_of_isSeparator (hb ▸ ha), extentOf_of_isSeparator (hb ▸ ha)]
    · rw [List.concat_eq_append, ← List.cons_append, ← List.append_assoc] at hparts
      obtain rfl : a = last := (List.append_inj' hparts rfl).2 |> List.cons.inj |>.1
      rw [List.concat_eq_append, List.append_assoc, List.singleton_append,
        extentOf_append_behind ha]
  simp only [ofPosition, hwhole, hfocus, hself, hextent]

theorem ofPosition_behind (ha : a.kind.isSeparator) (others : List Atom) (site : Site)
    (h : ∀ x ∈ front ++ [a], x.span.contains position = false) :
    ofPosition (front ++ a :: others) position site = ofPosition others position site := by
  have hwhole : front ++ a :: others = (front ++ [a]) ++ others := by simp
  unfold ofPosition
  rw [hwhole, focus?_append_of_forall others h]
  cases hfocus : focus? position others with
  | none => rfl
  | some found =>
    obtain ⟨before, b, behind⟩ := found
    simp only [Option.map_some, List.append_assoc, List.singleton_append,
      extentOf_append_before ha]

end Use

namespace LineCheck

variable (types : Registry) (site : Site)

theorem useFindings_shift (offset : Nat) (atoms : List Atom) :
    useFindings types site (atoms.map (Atom.shift offset)) =
      (useFindings types site atoms).map (Located.shift offset) := by
  unfold useFindings
  rw [List.flatMap_map, List.map_flatMap]
  apply List.flatMap_congr
  intro a _
  have hreference : (a.shift offset).reference? = a.reference? := rfl
  have hstart : (a.shift offset).span.start = a.span.start + offset := rfl
  rw [hreference, hstart, Use.ofPosition_shift]
  cases a.reference? with
  | none => rfl
  | some r =>
    simp only [List.map_map]
    rfl

theorem useFindings_append {place : Nat} {front behind : List Atom} {a : Atom}
    (ha : a.kind.isSeparator)
    (hfront : ∀ x ∈ front ++ [a], x.span.start < x.span.stop ∧ x.span.stop ≤ place)
    (hbehind : ∀ x ∈ behind, place ≤ x.span.start) :
    useFindings types site (front ++ a :: behind) =
      useFindings types site (front ++ [a]) ++ useFindings types site behind := by
  have hparts : front ++ a :: behind = (front ++ [a]) ++ behind := by simp
  unfold useFindings
  conv => lhs; arg 2; rw [hparts]
  rw [List.flatMap_append]
  congr 1
  · apply List.flatMap_congr
    intro x hx
    have hcovered : ∃ y ∈ front ++ [a], y.span.contains x.span.start :=
      ⟨x, hx, by simp [Span.contains, (hfront x hx).1]⟩
    rw [Use.ofPosition_front ha behind site hcovered]
  · apply List.flatMap_congr
    intro x hx
    have hbefore (y : Atom) (hy : y ∈ front ++ [a]) : y.span.contains x.span.start = false := by
      have hstop := (hfront y hy).2
      have hstart := hbehind x hx
      have hle : y.span.stop ≤ x.span.start := Nat.le_trans hstop hstart
      simp only [Span.contains, Bool.and_eq_false_iff, decide_eq_false_iff_not, Nat.not_lt]
      exact .inr hle
    rw [Use.ofPosition_behind ha behind site hbefore]

theorem exists_atom_of_mem_useFindings {atoms : List Atom} {f : Finding}
    (h : f ∈ useFindings types site atoms) : ∃ a ∈ atoms, f.span = a.span := by
  obtain ⟨a, ha, hf⟩ := List.mem_flatMap.mp h
  cases hreference : a.reference? with
  | none => simp [hreference] at hf
  | some r =>
    rw [hreference] at hf
    obtain ⟨cause, -, rfl⟩ := List.mem_map.mp hf
    exact ⟨a, ha, rfl⟩

end LineCheck

end RecipeLint

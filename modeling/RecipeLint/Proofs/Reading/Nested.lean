import Mathlib.Data.List.Chain
import RecipeLint.Proofs.Reading.Members

/-!
# The shape of what was read

Make text that was read is in normal form, however it was put together.  And references that were
read lie in one another like brackets: each between the delimiters of the one around it, in the order
of the text, and any two of them apart or one inside the other.
-/

namespace RecipeLint

/-! ## Normal form -/

def Part.isLiteral : Part → Bool
  | literal _ => true
  | reference _ => false

namespace MakeText

/-- No literal part is empty, and no two literal parts stand side by side. -/
structure Normal (v : MakeText) : Prop where
  nonempty : Part.literal [] ∉ v
  apart : v.IsChain fun x y => ¬(x.isLiteral ∧ y.isLiteral)

namespace Normal

variable {v parts : MakeText} {part : Part}

theorem nil : Normal [] :=
  ⟨List.not_mem_nil, .nil⟩

theorem tail (h : Normal (part :: parts)) : Normal parts :=
  ⟨fun hmem => h.nonempty (List.mem_cons_of_mem _ hmem), (List.isChain_cons.mp h.apart).2⟩

theorem reference (h : Normal v) (r : Reference) : Normal (.reference r :: v) := by
  refine ⟨by simpa using h.nonempty, List.isChain_cons.mpr ⟨fun x _ => ?_, h.apart⟩⟩
  simp [Part.isLiteral]

theorem literal (h : Normal v) {text : Text} (htext : text ≠ [])
    (hhead : ∀ x ∈ v.head?, x.isLiteral = false) : Normal (.literal text :: v) := by
  refine ⟨by simpa [htext.symm] using h.nonempty,
    List.isChain_cons.mpr ⟨fun x hx => ?_, h.apart⟩⟩
  simp [hhead x hx]

theorem head_tail {text : Text} (h : Normal (.literal text :: parts)) :
    text ≠ [] ∧ ∀ x ∈ parts.head?, x.isLiteral = false := by
  constructor
  · rintro rfl
    exact h.nonempty List.mem_cons_self
  · intro x hx
    have happart := (List.isChain_cons.mp h.apart).1 x hx
    simpa [Part.isLiteral] using happart

theorem consLiteral (h : Normal v) (front : Text) : Normal (MakeText.consLiteral front v) := by
  unfold MakeText.consLiteral
  split
  case h_1 text parts =>
    obtain ⟨htext, hhead⟩ := h.head_tail
    exact h.tail.literal (by simp [htext]) hhead
  case h_2 hne =>
    by_cases hfront : front.isEmpty
    · rwa [if_pos hfront]
    · rw [if_neg hfront]
      refine h.literal (by simpa using hfront) fun x hx => ?_
      cases x with
      | literal text =>
        obtain ⟨parts, hparts⟩ := List.head?_eq_some_iff.mp hx
        exact absurd hparts (hne text parts)
      | reference r => rfl

end Normal

theorem head_of_cut? {c : Char} {v before behind : MakeText} {x : Part}
    (h : cut? c v = some (before, behind)) (hx : x ∈ before.head?) :
    ∃ y ∈ v.head?, y.isLiteral = x.isLiteral := by
  cases v with
  | nil => simp [cut?] at h
  | cons part parts =>
    refine ⟨part, rfl, ?_⟩
    cases part with
    | reference r =>
      obtain ⟨⟨b, a⟩, -, heq⟩ := Option.map_eq_some_iff.mp h
      obtain ⟨rfl, -⟩ := Prod.mk.inj heq
      rw [← Option.some.inj hx]
    | literal text =>
      unfold cut? at h
      by_cases hmem : text.contains c
      · rw [if_pos hmem] at h
        obtain ⟨rfl, -⟩ := Prod.mk.inj (Option.some.inj h)
        by_cases hnil : (text.takeWhile (· != c)).isEmpty
        · simp [consLiteral, hnil] at hx
        · rw [consLiteral, if_neg hnil] at hx
          · rw [← Option.some.inj hx]
            rfl
          · simp
      · rw [if_neg hmem] at h
        obtain ⟨⟨b, a⟩, -, heq⟩ := Option.map_eq_some_iff.mp h
        obtain ⟨rfl, -⟩ := Prod.mk.inj heq
        rw [← Option.some.inj hx]

theorem Normal.cut {c : Char} {v before behind : MakeText}
    (h : cut? c v = some (before, behind)) (hv : Normal v) : Normal before ∧ Normal behind := by
  fun_induction cut? c v generalizing before with
  | case1 => simp at h
  | case2 chars parts hmem =>
    obtain ⟨rfl, rfl⟩ := Prod.mk.inj (Option.some.inj h)
    exact ⟨nil.consLiteral _, hv.tail.consLiteral _⟩
  | case3 chars parts hmem ih =>
    obtain ⟨⟨b, a⟩, hcut, heq⟩ := Option.map_eq_some_iff.mp h
    obtain ⟨rfl, rfl⟩ := Prod.mk.inj heq
    obtain ⟨hb, ha⟩ := ih hcut hv.tail
    obtain ⟨hchars, hhead⟩ := hv.head_tail
    refine ⟨hb.literal hchars fun x hx => ?_, ha⟩
    obtain ⟨y, hy, hsame⟩ := head_of_cut? hcut hx
    rw [← hsame, hhead y hy]
  | case4 part parts hpart ih =>
    obtain ⟨⟨b, a⟩, hcut, heq⟩ := Option.map_eq_some_iff.mp h
    obtain ⟨rfl, rfl⟩ := Prod.mk.inj heq
    obtain ⟨hb, ha⟩ := ih hcut hv.tail
    cases part with
    | literal text => exact absurd rfl (hpart text)
    | reference r => exact ⟨hb.reference r, ha⟩

end MakeText

section

variable {nested : Reader (Option Reference)} {stop : Char → Bool} {pairs : Bool} {s t : Text}
  {v : MakeText} {b : Char}

theorem Pieces.normal (h : Pieces nested stop pairs b t s v) : v.Normal := by
  induction h with
  | stop => exact .nil
  | reference _ _ _ ih => exact ih.reference _
  | pair _ ih => exact ih.consLiteral _
  | lone _ _ _ ih => exact ih.consLiteral _
  | escaped _ _ _ ih => exact ih.consLiteral _
  | plain _ _ _ _ ih => exact ih.consLiteral _

theorem MakeText.lasts_normal (hfits : FitsDollar nested) : Lasts nested Normal where
  read h := (pieces_of_reads hfits h).normal
  consLiteral front _ h := h.consLiteral front
  cut hcut h := h.cut hcut
  nil := .nil

end

/-! ## References in references -/

namespace Reference

variable {levels start : Nat} {r : Reference}

theorem ReadBy.spells (h : r.ReadBy (readWithin levels)) : r.Spells r.text := by
  obtain ⟨s, t, hread⟩ := h
  have hspells : r.Spells _ := ((readWithin_fits levels).fits_of_ok hread.outcome).value _ hread.outcome
  exact hspells.1 ▸ hspells

theorem ReadBy.normal (h : r.ReadBy (readWithin levels)) :
    ∀ x ∈ r.placedTexts start, MakeText.Normal x.2 := by
  rcases h.placedTexts with ⟨inner, -, hlasts⟩ | ⟨c, rfl⟩
  · exact hlasts _ (MakeText.lasts_normal (readWithin_fits inner))
  · intro x hx
    obtain rfl := List.mem_singleton.mp hx
    exact MakeText.Normal.nil.literal (by simp) nofun

theorem ReadBy.bounds_of_mem_nested {x : Nat × Reference} (h : r.ReadBy (readWithin levels))
    (hx : x ∈ r.nested start) :
    start + r.nameOffset ≤ x.1 ∧ x.1 + Text.byteSize x.2.text ≤ start + r.closingOffset := by
  induction levels using Nat.strong_induction_on generalizing r start with
  | h levels ih =>
    rw [nested_eq] at hx
    obtain ⟨y, hy, hx⟩ := List.mem_flatMap.mp hx
    obtain ⟨inner, hlt, hinner⟩ := h.of_mem_placed hy
    obtain ⟨hlow, hhigh⟩ := (inOrder_placed start r).bounds_of_mem hy
    rcases List.mem_cons.mp hx with rfl | hx
    · exact ⟨hlow, hhigh⟩
    · have hbounds := ih inner hlt hinner hx
      have hclosing := hinner.spells.closingOffset_add
      omega

/-- A reference and all inside it have some character, and lie within its span. -/
theorem ReadBy.bounds_of_mem {x : Nat × Reference} (h : r.ReadBy (readWithin levels))
    (hx : x ∈ (start, r) :: r.nested start) :
    start ≤ x.1 ∧ x.1 < (x.2.spanAt x.1).stop ∧
      (x.2.spanAt x.1).stop ≤ (r.spanAt start).stop := by
  have hpos {levels : Nat} {r : Reference} (hr : r.ReadBy (readWithin levels)) :
      0 < Text.byteSize r.text := by
    rw [hr.spells.2]
    exact Text.byteSize_pos (by simp)
  rcases List.mem_cons.mp hx with rfl | hx
  · have hr := hpos h
    refine ⟨Nat.le_refl _, ?_, Nat.le_refl _⟩
    simp only [spanAt]
    omega
  · obtain ⟨inner, -, hinner⟩ := h.of_mem_nested hx
    have hinner := hpos hinner
    have hbounds := h.bounds_of_mem_nested hx
    have hclosing := h.spells.closingOffset_add
    simp only [spanAt]
    omega

end Reference

/-- Brackets in the order in which they open: the second opens behind the first, and stands behind
all of it or closes no later. -/
def Span.OpensBefore (s t : Span) : Prop :=
  s.start < t.start ∧ (s.stop ≤ t.start ∨ t.stop ≤ s.stop)

namespace Reference

variable {levels start : Nat} {r : Reference}

/-- References inside one another are brackets in the order of the text. -/
theorem ReadBy.pairwise_nested (h : r.ReadBy (readWithin levels)) :
    (r.nested start).Pairwise fun x y => (x.2.spanAt x.1).OpensBefore (y.2.spanAt y.1) := by
  induction levels using Nat.strong_induction_on generalizing r start with
  | h levels ih =>
    rw [nested_eq, List.pairwise_flatMap]
    constructor
    · intro x hx
      obtain ⟨inner, hlt, hinner⟩ := h.of_mem_placed hx
      refine List.pairwise_cons.mpr ⟨fun y hy => ?_, ih inner hlt hinner⟩
      have hoffset : 0 < x.2.nameOffset := by
        unfold nameOffset
        omega
      have hbounds := hinner.bounds_of_mem_nested hy
      have hstop := (hinner.bounds_of_mem (List.mem_cons_of_mem _ hy)).2.2
      refine ⟨?_, .inr hstop⟩
      simp only [spanAt]
      omega
    · have hapart := (inOrder_placed start r).pairwise
      refine hapart.imp_of_mem fun {x y} hx hy hxy a ha b hb => ?_
      obtain ⟨_, -, hfirst⟩ := h.of_mem_placed hx
      obtain ⟨_, -, hsecond⟩ := h.of_mem_placed hy
      have ha := hfirst.bounds_of_mem ha
      have hb := hsecond.bounds_of_mem hb
      simp only [spanAt, Span.OpensBefore] at *
      omega

theorem ReadBy.pairwise_start (h : r.ReadBy (readWithin levels)) :
    ((start, r) :: r.nested start).Pairwise fun x y => x.1 < y.1 := by
  refine List.pairwise_cons.mpr ⟨fun x hx => ?_, h.pairwise_nested.imp fun hxy => hxy.1⟩
  have hbounds := (h.bounds_of_mem_nested hx).1
  simp only [nameOffset] at hbounds
  omega

theorem ReadBy.stands_of_mem {text : Text} {x : Nat × Reference}
    (h : r.ReadBy (readWithin levels)) (hstands : text.Stands start r.text)
    (hx : x ∈ (start, r) :: r.nested start) : text.Stands x.1 x.2.text := by
  induction levels using Nat.strong_induction_on generalizing r start with
  | h levels ih =>
    rcases List.mem_cons.mp hx with rfl | hx
    · exact hstands
    · rw [nested_eq] at hx
      obtain ⟨y, hy, hx⟩ := List.mem_flatMap.mp hx
      obtain ⟨inner, hlt, hinner⟩ := h.of_mem_placed hy
      exact ih inner hlt hinner (h.spells.stands_of_mem_placed hstands hy) hx

end Reference

end RecipeLint

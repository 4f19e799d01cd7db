import RecipeLint.Proofs.Reading.Logged
import RecipeLint.Proofs.Reading.Nested

/-!
# References in round parentheses

The style finding is made for each reference in round parentheses as soon as it is read, and the
references inside one another are collected later, from what was kept of them.  The two agree but for
separators: of the references in a separator only the characters are kept, so the findings about them
are about no reference that is collected.
-/

namespace RecipeLint

open Reading

/-! ## Separators -/

namespace Modifier

def Hides (x : Nat × Modifier) (s : Span) : Prop :=
  ∃ text, x.2 = .separator text ∧ x.1 + 2 ≤ s.start ∧ s.stop ≤ x.1 + 2 + Text.byteSize text

def MayHide (m : Modifier) : Prop :=
  ∃ text, m = .separator text ∧ ['$', '('] <:+: text

theorem Hides.shift {x : Nat × Modifier} {s : Span} (h : Hides x s) (n : Nat) :
    Hides (x.1 + n, x.2) (s.shift n) := by
  obtain ⟨text, hx, hstart, hstop⟩ := h
  refine ⟨text, hx, ?_, ?_⟩
  all_goals
    simp only [Span.shift]
    omega

/-- What a separator hides lies in the modifier, and no argument does. -/
theorem Hides.bounds {x : Nat × Modifier} {s : Span} (h : Hides x s) :
    x.1 < s.start ∧ s.stop ≤ x.1 + Text.byteSize x.2.source ∧ x.2.arguments = [] := by
  obtain ⟨text, hx, hstart, hstop⟩ := h
  have hsize : Text.byteSize x.2.source = 2 + Text.byteSize text := by
    rw [hx]
    exact Text.byteSize_append ['t', 's'] text
  refine ⟨by omega, by omega, ?_⟩
  rw [hx]
  rfl

end Modifier

namespace Reference

def Hides (x : Nat × Reference) (s : Span) : Prop :=
  ∃ y ∈ x.2.placedModifiers x.1, Modifier.Hides y s

theorem placedModifiers_shift (n start : Nat) (r : Reference) :
    r.placedModifiers (start + n) = (r.placedModifiers start).map fun y => (y.1 + n, y.2) := by
  rw [placedModifiers, Nat.add_right_comm, Link.placed_shift]
  rfl

theorem spanAt_shift (n start : Nat) (r : Reference) :
    r.spanAt (start + n) = (r.spanAt start).shift n := by
  simp [spanAt, Span.shift, Nat.add_right_comm]

theorem mem_modifiers_of_mem_placedModifiers {start : Nat} {r : Reference} {y : Nat × Modifier}
    (hy : y ∈ r.placedModifiers start) : y.2 ∈ r.modifiers := by
  have hmem : y.2 ∈ (r.placedModifiers start).map Prod.snd := List.mem_map_of_mem hy
  rwa [map_snd_placedModifiers] at hmem

variable {levels start : Nat} {r : Reference} {s : Span}

theorem Spells.bounds_of_hides (h : r.Spells r.text) (hs : Hides (start, r) s) :
    start + r.chainOffset < s.start ∧ s.stop ≤ start + Text.byteSize r.text := by
  obtain ⟨y, hy, hhides⟩ := hs
  obtain ⟨hstart, hstop, -⟩ := hhides.bounds
  obtain ⟨hlow, hhigh⟩ := (inOrder_placedModifiers start r).bounds_of_mem hy
  have hclosing := h.closingOffset_add
  omega

theorem ReadBy.bounds_of_hides {x : Nat × Reference} (h : r.ReadBy (readWithin levels))
    (hx : x ∈ (start, r) :: r.nested start) (hs : Hides x s) :
    start < s.start ∧ s.stop ≤ start + Text.byteSize r.text := by
  have hspells : x.2.Spells x.2.text := by
    rcases List.mem_cons.mp hx with rfl | hx
    · exact h.spells
    · obtain ⟨_, -, hinner⟩ := h.of_mem_nested hx
      exact hinner.spells
  have hbounds := h.bounds_of_mem hx
  have hhides := hspells.bounds_of_hides hs
  simp only [spanAt] at hbounds
  omega

/-- What a separator of a reference hides lies in none of its make text. -/
theorem apart_of_hides (hs : Hides (start, r) s) {x : Nat × MakeText}
    (hx : x ∈ r.placedTexts start) : x.1 + MakeText.size x.2 < s.start ∨ s.stop ≤ x.1 := by
  obtain ⟨y, hy, hhides⟩ := hs
  obtain ⟨hstart, hstop, hnone⟩ := hhides.bounds
  have horder := inOrder_placedModifiers start r
  rcases List.mem_cons.mp hx with rfl | hx
  · left
    have hlow := (horder.bounds_of_mem hy).1
    show start + r.nameOffset + MakeText.size r.name < s.start
    rw [Nat.add_assoc]
    exact Nat.lt_of_le_of_lt hlow hstart
  · obtain ⟨m, hm, hx⟩ := List.mem_flatMap.mp hx
    have hbounds := Modifier.bounds_of_mem_placedTexts hx
    rcases horder.eq_or_apart hm hy with rfl | hbefore | hbehind
    · rw [Modifier.placedTexts, hnone, List.zip_nil_right] at hx
      exact absurd hx List.not_mem_nil
    · left
      omega
    · right
      omega

theorem ReadBy.spanAt_ne_of_mem_nested {y : Nat × Reference} (h : r.ReadBy (readWithin levels))
    (hs : Hides (start, r) s) (hy : y ∈ r.nested start) : y.2.spanAt y.1 ≠ s := by
  rintro rfl
  rw [nested_eq] at hy
  obtain ⟨w, hw, hy⟩ := List.mem_flatMap.mp hy
  obtain ⟨inner, -, hinner⟩ := h.of_mem_placed hw
  obtain ⟨x, hx, hw⟩ := List.mem_flatMap.mp hw
  have hmade := (MakeText.inOrder_placed x.1 x.2).bounds_of_mem hw
  have hbounds := hinner.bounds_of_mem hy
  have hapart := apart_of_hides hs hx
  simp only [spanAt] at hbounds hapart
  omega

/-- No reference of a tree has the span of something that a separator of the tree hides. -/
theorem ReadBy.spanAt_ne_of_hides {x y : Nat × Reference} (h : r.ReadBy (readWithin levels))
    (hx : x ∈ (start, r) :: r.nested start) (hs : Hides x s)
    (hy : y ∈ (start, r) :: r.nested start) : y.2.spanAt y.1 ≠ s := by
  induction levels using Nat.strong_induction_on generalizing r start with
  | h levels ih =>
    rcases List.mem_cons.mp hx with rfl | hx
    · rcases List.mem_cons.mp hy with rfl | hy
      · rintro rfl
        have hbehind := (h.spells.bounds_of_hides hs).1
        simp only [spanAt] at hbehind
        omega
      · exact h.spanAt_ne_of_mem_nested hs hy
    · rw [nested_eq] at hx
      obtain ⟨v, hv, hx⟩ := List.mem_flatMap.mp hx
      obtain ⟨inner, hlt, hinner⟩ := h.of_mem_placed hv
      obtain ⟨hlow, hhigh⟩ := hinner.bounds_of_hides hx hs
      rcases List.mem_cons.mp hy with rfl | hy
      · rintro rfl
        have hplace := ((inOrder_placed start r).bounds_of_mem hv).1
        simp only [spanAt] at hlow
        omega
      · rw [nested_eq] at hy
        obtain ⟨w, hw, hy⟩ := List.mem_flatMap.mp hy
        obtain ⟨_, -, hsecond⟩ := h.of_mem_placed hw
        -- Separator and reference lie in one reference inside, or in two that stand apart.
        rcases (inOrder_placed start r).eq_or_apart hv hw with rfl | hapart
        · exact ih inner hlt hinner hx hy
        · rintro rfl
          have hbounds := hsecond.bounds_of_mem hy
          simp only [spanAt] at hbounds hlow hhigh
          omega

end Reference

/-! ## What is held -/

namespace Holding

def allModifiers (h : Holding) : List (Nat × Modifier) :=
  h.modifiers ++ h.references.flatMap fun x => x.2.placedModifiers x.1

/-- The span is that of a reference in round parentheses, or it is hidden in a separator that may
hide one. -/
def Explains (h : Holding) (s : Span) : Prop :=
  (∃ x ∈ h.references, x.2.delimiter = .parentheses ∧ x.2.spanAt x.1 = s) ∨
    ∃ y ∈ h.allModifiers, Modifier.Hides y s ∧ y.2.MayHide

variable {h k : Holding} {s : Span}

theorem allModifiers_shift (n : Nat) (h : Holding) :
    (h.shift n).allModifiers = h.allModifiers.map fun y => (y.1 + n, y.2) := by
  simp [allModifiers, shift, List.map_flatMap, List.flatMap_map, Reference.shiftStart,
    Reference.placedModifiers_shift]

theorem Explains.shift (hs : h.Explains s) (n : Nat) : (h.shift n).Explains (s.shift n) := by
  rcases hs with ⟨x, hx, hdelimiter, rfl⟩ | ⟨y, hy, hhides, hmay⟩
  · exact .inl ⟨_, List.mem_map_of_mem hx, hdelimiter, Reference.spanAt_shift n x.1 x.2⟩
  · refine .inr ⟨(y.1 + n, y.2), ?_, hhides.shift n, hmay⟩
    rw [allModifiers_shift]
    exact List.mem_map_of_mem (f := fun y : Nat × Modifier => (y.1 + n, y.2)) hy

theorem Explains.mono (hs : h.Explains s) (href : ∀ x ∈ h.references, x ∈ k.references)
    (hmod : ∀ y ∈ h.allModifiers, y ∈ k.allModifiers) : k.Explains s := by
  rcases hs with ⟨x, hx, hrest⟩ | ⟨y, hy, hrest⟩
  · exact .inl ⟨x, href x hx, hrest⟩
  · exact .inr ⟨y, hmod y hy, hrest⟩

end Holding

theorem Reference.shift_followedBy_held (r : Reference) :
    ((MakeText.held r.name).followedBy (Text.byteSize r.varname) (Link.held r.chain)).shift
      r.nameOffset = ⟨r.nested 0, r.placedModifiers 0⟩ := by
  have hnested : r.nested 0 = MakeText.nested (0 + r.nameOffset) r.name ++
      Link.nestedAll (0 + r.chainOffset) r.chain := by
    cases r
    rfl
  have hoffset : Text.byteSize r.varname + r.nameOffset = r.chainOffset := Nat.add_comm _ _
  rw [Holding.followedBy, Link.shift_held, Holding.shift, hnested, placedModifiers,
    Nat.zero_add r.chainOffset, ← hoffset]
  simp only [MakeText.held, List.nil_append, List.map_append, ← MakeText.nested_shift,
    ← Link.nestedAll_shift, ← Link.placed_shift]

/-! ## Findings and references -/

theorem Reference.mem_styleFindings {r : Reference} {f : Finding} : f ∈ r.styleFindings ↔
    r.delimiter = .parentheses ∧
      f = ⟨.roundParentheses r.varname r.modifierText, r.spanAt 0⟩ := by
  have hspan : r.spanAt 0 = .ofSize (Text.byteSize r.text) := by simp [spanAt, Span.ofSize]
  unfold styleFindings
  split
  case isTrue hdelimiter => simp [hdelimiter, hspan]
  case isFalse hdelimiter => simp [hdelimiter]

theorem Reference.isStyle_nameFindings {r : Reference} :
    ∀ f ∈ r.nameFindings, f.value.isStyle = false := by
  intro f hf
  unfold nameFindings at hf
  split at hf
  case h_1 => simp at hf
  case h_2 => exact List.mem_singleton.mp hf ▸ rfl

namespace Finding

/-- Each reference in round parentheses that the text holds has its finding, and each such finding
is about one of them or about one that a separator hides. -/
structure Styles (s : Text) (h : Holding) (fs : List Finding) : Prop where
  found : ∀ x ∈ h.references, x.2.delimiter = .parentheses →
    ∃ f ∈ fs, f.value.isStyle ∧ f.span = x.2.spanAt x.1
  explained : ∀ f ∈ fs, f.value.isStyle → h.Explains f.span
  inside : ∀ f ∈ fs, f.value.isStyle → f.span.stop ≤ Text.byteSize s ∧ ['$', '('] <:+: s

namespace Styles

variable {s t : Text} {h k : Holding} {fs gs : List Finding}

theorem nil (s : Text) : Styles s .empty [] :=
  ⟨by simp [Holding.empty], by simp, by simp⟩

theorem append (hs : Styles s h fs) (ht : Styles t k gs) :
    Styles (s ++ t) (h.followedBy (Text.byteSize s) k)
      (fs ++ gs.map (Located.shift (Text.byteSize s))) := by
  refine ⟨?_, ?_, ?_⟩
  · intro x hx hdelimiter
    rcases List.mem_append.mp hx with hx | hx
    · obtain ⟨f, hf, hstyle, hspan⟩ := hs.found x hx hdelimiter
      exact ⟨f, List.mem_append_left _ hf, hstyle, hspan⟩
    · obtain ⟨y, hy, rfl⟩ := List.mem_map.mp hx
      obtain ⟨f, hf, hstyle, hspan⟩ := ht.found y hy hdelimiter
      refine ⟨_, List.mem_append_right _ (List.mem_map_of_mem hf), hstyle, ?_⟩
      exact (congrArg (Span.shift _) hspan).trans (Reference.spanAt_shift _ y.1 y.2).symm
  all_goals
    intro f hf hstyle
    rcases List.mem_append.mp hf with hf | hf
  · refine (hs.explained f hf hstyle).mono (fun x hx => List.mem_append_left _ hx) fun y hy => ?_
    rcases List.mem_append.mp hy with hy | hy
    · exact List.mem_append_left _ (List.mem_append_left _ hy)
    · refine List.mem_append_right _ ?_
      rw [Holding.followedBy, List.flatMap_append]
      exact List.mem_append_left _ hy
  · obtain ⟨g, hg, rfl⟩ := List.mem_map.mp hf
    refine ((ht.explained g hg hstyle).shift _).mono (fun x hx => List.mem_append_right _ hx)
      fun y hy => ?_
    rcases List.mem_append.mp hy with hy | hy
    · exact List.mem_append_left _ (List.mem_append_right _ hy)
    · refine List.mem_append_right _ ?_
      rw [Holding.followedBy, List.flatMap_append]
      exact List.mem_append_right _ hy
  · obtain ⟨hstop, hopening⟩ := hs.inside f hf hstyle
    rw [Text.byteSize_append]
    exact ⟨Nat.le_add_right_of_le hstop, hopening.trans (List.infix_append' [] s t)⟩
  · obtain ⟨g, hg, rfl⟩ := List.mem_map.mp hf
    obtain ⟨hstop, hopening⟩ := ht.inside g hg hstyle
    refine ⟨?_, hopening.trans (List.suffix_append s t).isInfix⟩
    rw [Text.byteSize_append, Nat.add_comm]
    exact Nat.add_le_add_right hstop _

theorem append_other (hs : Styles s h fs) (hgs : ∀ g ∈ gs, g.value.isStyle = false) :
    Styles s h (fs ++ gs) := by
  refine ⟨?_, ?_, ?_⟩
  · intro x hx hdelimiter
    obtain ⟨f, hf, hstyle, hspan⟩ := hs.found x hx hdelimiter
    exact ⟨f, List.mem_append_left _ hf, hstyle, hspan⟩
  all_goals
    intro f hf hstyle
    rcases List.mem_append.mp hf with hf | hf
  · exact hs.explained f hf hstyle
  · rw [hgs f hf] at hstyle
    exact absurd hstyle Bool.false_ne_true
  · exact hs.inside f hf hstyle
  · rw [hgs f hf] at hstyle
    exact absurd hstyle Bool.false_ne_true

theorem modifier (hs : Styles s h fs) (m : Modifier) :
    Styles s ⟨h.references, (0, m) :: h.modifiers⟩ fs where
  found := hs.found
  explained f hf hstyle := (hs.explained f hf hstyle).mono (fun _ hx => hx)
    fun _ hy => List.mem_cons_of_mem _ hy
  inside := hs.inside

theorem separator (hs : Styles s h fs) :
    Styles ('t' :: 's' :: s) (Modifier.held (some (.separator s)))
      (fs.map (Located.shift 2)) := by
  refine ⟨by simp [Modifier.held, Modifier.nested], ?_, ?_⟩
  all_goals
    intro f hf hstyle
    obtain ⟨g, hg, rfl⟩ := List.mem_map.mp hf
    obtain ⟨hstop, hopening⟩ := hs.inside g hg hstyle
  · refine .inr ⟨(0, .separator s), List.mem_cons_self, ⟨s, rfl, ?_, ?_⟩, s, rfl, hopening⟩
    all_goals
      simp only [Located.shift, Span.shift]
      omega
  · have hsize : Text.byteSize ('t' :: 's' :: s) = 2 + Text.byteSize s :=
      Text.byteSize_append ['t', 's'] s
    refine ⟨?_, hopening.trans (List.suffix_append ['t', 's'] s).isInfix⟩
    simp only [Located.shift, Span.shift]
    omega

theorem inner {r : Reference} (hr : r.Spells r.text)
    (hname : Styles r.varname (MakeText.held r.name) fs)
    (hchain : Styles r.modifierText (Link.held r.chain) gs) :
    Styles r.text ⟨r.nested 0, r.placedModifiers 0⟩
      (fs.map (Located.shift r.nameOffset) ++ gs.map (Located.shift r.chainOffset)) := by
  have hoffset : Text.byteSize r.varname + r.nameOffset = r.chainOffset := Nat.add_comm _ _
  have hopening : Styles _ (((MakeText.held r.name).followedBy _ (Link.held r.chain)).shift
      r.nameOffset) ([] ++ List.map (Located.shift r.nameOffset) _) :=
    (nil ('$' :: r.delimiter.opening)).append (hname.append hchain)
  have hclosing := hopening.append (nil r.delimiter.closing)
  rw [Holding.followedBy_empty, Reference.shift_followedBy_held] at hclosing
  rw [hr.2]
  simpa [Function.comp_def, Located.shift_shift, hoffset] using hclosing

theorem outer {r : Reference} (h : Styles r.text ⟨r.nested 0, r.placedModifiers 0⟩ fs)
    (hr : r.Spells r.text) :
    Styles r.text (Reference.held (some r)) (fs ++ r.styleFindings) := by
  refine ⟨?_, ?_, ?_⟩
  · intro x hx hdelimiter
    rcases List.mem_cons.mp hx with rfl | hx
    · have hmem := Reference.mem_styleFindings.mpr ⟨hdelimiter, rfl⟩
      exact ⟨_, List.mem_append_right _ hmem, rfl, rfl⟩
    · obtain ⟨f, hf, hrest⟩ := h.found x hx hdelimiter
      exact ⟨f, List.mem_append_left _ hf, hrest⟩
  all_goals
    intro f hf hstyle
    rcases List.mem_append.mp hf with hf | hf
  · refine (h.explained f hf hstyle).mono (fun x hx => List.mem_cons_of_mem _ hx) fun y hy => ?_
    simpa [Holding.allModifiers, Reference.held] using hy
  · obtain ⟨hdelimiter, rfl⟩ := Reference.mem_styleFindings.mp hf
    exact .inl ⟨(0, r), List.mem_cons_self, hdelimiter, rfl⟩
  · exact h.inside f hf hstyle
  · obtain ⟨hdelimiter, rfl⟩ := Reference.mem_styleFindings.mp hf
    refine ⟨Nat.le_of_eq (Nat.zero_add _), ?_⟩
    rw [hr.2, hdelimiter]
    exact List.infix_append [] ['$', '('] _

theorem logging : Logging Styles fun _ _ => True where
  plain := nil
  append := append
  lose _ := trivial
  append_lost _ _ := trivial
  lost_append _ _ := trivial
  modifier := modifier
  separator := separator
  note {s h fs cause} hs _ hcause _ := by
    refine hs.append_other fun g hg => ?_
    obtain rfl := List.mem_singleton.mp hg
    cases cause <;> simp_all [Cause.isNote, Cause.isStyle]
  bare c := by
    refine ⟨?_, by simp, by simp⟩
    intro x hx hdelimiter
    obtain rfl := List.mem_singleton.mp hx
    simp [Reference.bareOf] at hdelimiter
  reference hr _ hname hchain _ :=
    ((hname.inner hr hchain).append_other Reference.isStyle_nameFindings).outer hr

end Styles

end Finding

end RecipeLint

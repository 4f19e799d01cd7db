import RecipeLint.Proofs.Reading.Source

/-!
# Where the parts of a reference stand

The parts of a reference are written one behind the other, so each of them stands where the sizes of
those before it add up to.  Here every part gets its place: modifiers, make text, and the references
directly inside.  All of them are characters of the reference, and they keep the order of the text.
-/

namespace RecipeLint

/-! ## Characters at a place -/

def Text.Stands (text : Text) (start : Nat) (s : Text) : Prop :=
  ∃ front behind, text = front ++ s ++ behind ∧ start = Text.byteSize front

namespace Text.Stands

variable {text s t : Text} {start : Nat}

theorem left (h : Stands text start (s ++ t)) : Stands text start s := by
  obtain ⟨front, behind, rfl, rfl⟩ := h
  exact ⟨front, t ++ behind, by simp, rfl⟩

theorem right (h : Stands text start (s ++ t)) : Stands text (start + byteSize s) t := by
  obtain ⟨front, behind, rfl, rfl⟩ := h
  exact ⟨front ++ s, behind, by simp, by simp⟩

theorem inside {before after : Text} (h : Stands text start (before ++ s ++ after)) :
    Stands text (start + byteSize before) s :=
  h.left.right

theorem slice?_eq (h : Stands text start s) :
    (Span.mk start (start + byteSize s)).slice? text = some s := by
  obtain ⟨front, behind, rfl, rfl⟩ := h
  rw [← byteSize_append]
  exact Span.slice?_eq front s behind

end Text.Stands

/-! ## Things in order -/

/-- Things that start at `low` or behind it, each where the one before stops or behind that, and that
stop at `high` or before it. -/
inductive InOrder {α : Type} (size : α → Nat) : (low : Nat) → List (Nat × α) → (high : Nat) → Prop
  | nil {low high : Nat} : low ≤ high → InOrder size low [] high
  | cons {low high : Nat} {x : Nat × α} {xs : List (Nat × α)} : low ≤ x.1 →
      InOrder size (x.1 + size x.2) xs high → InOrder size low (x :: xs) high

namespace InOrder

variable {α β : Type} {size : α → Nat} {low middle high : Nat} {xs ys : List (Nat × α)}

theorem single {x : Nat × α} (hlow : low ≤ x.1) (hhigh : x.1 + size x.2 ≤ high) :
    InOrder size low [x] high :=
  .cons hlow (.nil hhigh)

theorem le (h : InOrder size low xs high) : low ≤ high := by
  induction h with
  | nil hle => exact hle
  | cons hlow _ ih => omega

theorem mono_low (h : InOrder size middle xs high) (hle : low ≤ middle) :
    InOrder size low xs high := by
  cases h with
  | nil hhigh => exact .nil (by omega)
  | cons hlow hrest => exact .cons (by omega) hrest

theorem append (hxs : InOrder size low xs middle) (hys : InOrder size middle ys high) :
    InOrder size low (xs ++ ys) high := by
  induction hxs with
  | nil hle => exact hys.mono_low hle
  | cons hlow _ ih => exact .cons hlow (ih hys)

/-- What stands inside of things in order is in order. -/
theorem flatMap {inner : β → Nat} {f : Nat × α → List (Nat × β)} (h : InOrder size low xs high)
    (hinside : ∀ x ∈ xs, InOrder inner x.1 (f x) (x.1 + size x.2)) :
    InOrder inner low (xs.flatMap f) high := by
  induction h with
  | nil hle => exact .nil hle
  | @cons low high x xs hlow hrest ih =>
    have hx := (hinside x List.mem_cons_self).mono_low hlow
    exact hx.append (ih fun y hy => hinside y (List.mem_cons_of_mem _ hy))

theorem bounds_of_mem (h : InOrder size low xs high) {x : Nat × α} (hx : x ∈ xs) :
    low ≤ x.1 ∧ x.1 + size x.2 ≤ high := by
  induction h with
  | nil _ => simp at hx
  | @cons low high y ys hlow hrest ih =>
    rcases List.mem_cons.mp hx with rfl | hx
    · exact ⟨hlow, hrest.le⟩
    · have hbounds := ih hx
      omega

theorem pairwise (h : InOrder size low xs high) :
    xs.Pairwise fun x y => x.1 + size x.2 ≤ y.1 := by
  induction h with
  | nil _ => exact .nil
  | cons _ hrest ih => exact .cons (fun y hy => (hrest.bounds_of_mem hy).1) ih

theorem eq_or_apart (h : InOrder size low xs high) {x y : Nat × α} (hx : x ∈ xs) (hy : y ∈ xs) :
    x = y ∨ x.1 + size x.2 ≤ y.1 ∨ y.1 + size y.2 ≤ x.1 := by
  induction h with
  | nil _ => simp at hx
  | cons _ hrest ih =>
    rcases List.mem_cons.mp hx with hfirst | hx'
    · rcases List.mem_cons.mp hy with hsecond | hy'
      · exact .inl (hfirst.trans hsecond.symm)
      · exact .inr (.inl (hfirst ▸ (hrest.bounds_of_mem hy').1))
    · rcases List.mem_cons.mp hy with hsecond | hy'
      · exact .inr (.inr (hsecond ▸ (hrest.bounds_of_mem hx').1))
      · exact ih hx' hy'

end InOrder

/-! ## Make text -/

namespace MakeText

theorem size_cons (part : Part) (parts : MakeText) :
    size (part :: parts) = Text.byteSize part.source + size parts := by
  simp [size]

def placed (start : Nat) : MakeText → List (Nat × Reference)
  | [] => []
  | .literal text :: parts => placed (start + Text.byteSize text) parts
  | .reference inner :: parts =>
    (start, inner) :: placed (start + Text.byteSize inner.text) parts

theorem nested_eq (start : Nat) (v : MakeText) :
    MakeText.nested start v = (placed start v).flatMap fun x => x :: x.2.nested x.1 := by
  induction v generalizing start with
  | nil => rfl
  | cons part parts ih =>
    cases part with
    | literal text => exact ih _
    | reference inner =>
      rw [MakeText.nested, Part.nested, ih]
      rfl

theorem mem_of_mem_placed {start : Nat} {v : MakeText} {x : Nat × Reference}
    (hx : x ∈ placed start v) : Part.reference x.2 ∈ v := by
  induction v generalizing start with
  | nil => simp [placed] at hx
  | cons part parts ih =>
    cases part with
    | literal text => exact List.mem_cons_of_mem _ (ih hx)
    | reference inner =>
      rcases List.mem_cons.mp hx with rfl | hx
      · exact List.mem_cons_self
      · exact List.mem_cons_of_mem _ (ih hx)

theorem inOrder_placed (start : Nat) (v : MakeText) :
    InOrder (fun r : Reference => Text.byteSize r.text) start (placed start v)
      (start + size v) := by
  induction v generalizing start with
  | nil => exact .nil (Nat.le_add_right _ _)
  | cons part parts ih =>
    rw [size_cons, ← Nat.add_assoc]
    cases part with
    | literal text => exact (ih _).mono_low (Nat.le_add_right _ _)
    | reference inner => exact .cons (Nat.le_refl _) (ih _)

theorem stands_of_mem_placed {text : Text} {start : Nat} {v : MakeText} {x : Nat × Reference}
    (h : text.Stands start (source v)) (hx : x ∈ placed start v) : text.Stands x.1 x.2.text := by
  induction v generalizing start with
  | nil => simp [placed] at hx
  | cons part parts ih =>
    rw [source_cons] at h
    cases part with
    | literal text => exact ih h.right hx
    | reference inner =>
      rcases List.mem_cons.mp hx with rfl | hx
      · exact h.left
      · exact ih h.right hx

end MakeText

/-! ## Modifiers -/

namespace Modifier

def placedTexts (start : Nat) (m : Modifier) : List (Nat × MakeText) :=
  [start + m.firstOffset, start + m.secondOffset].zip m.arguments

theorem nested_eq (start : Nat) (m : Modifier) :
    m.nested start = (m.placedTexts start).flatMap fun x => MakeText.nested x.1 x.2 := by
  cases m <;> simp [Modifier.nested, placedTexts, arguments]

theorem map_snd_placedTexts (start : Nat) (m : Modifier) :
    (m.placedTexts start).map Prod.snd = m.arguments := by
  cases m <;> rfl

theorem exists_source_of_mem_placedTexts {start : Nat} {m : Modifier} {x : Nat × MakeText}
    (hx : x ∈ m.placedTexts start) : ∃ before after,
      m.source = before ++ MakeText.source x.2 ++ after ∧ x.1 = start + Text.byteSize before := by
  cases m <;>
    simp only [placedTexts, arguments, List.zip_cons_cons, List.zip_nil_right, List.mem_cons,
      List.not_mem_nil, or_false] at hx
  case select keep pattern =>
    subst hx
    cases keep
    · exact ⟨['N'], [], by simp [source], rfl⟩
    · exact ⟨['M'], [], by simp [source], rfl⟩
  case ifUnset value =>
    subst hx
    exact ⟨['U'], [], by simp [source], rfl⟩
  case ifSet value =>
    subst hx
    exact ⟨['D'], [], by simp [source], rfl⟩
  case forEach loopVariable body closed =>
    subst hx
    have hmark : '@'.utf8Size = 1 := rfl
    refine ⟨'@' :: loopVariable ++ ['@'], if closed then ['@'] else [], by simp [source], ?_⟩
    simp only [firstOffset, Text.byteSize_append, Text.byteSize_cons, Text.byteSize_nil, hmark]
    omega
  case assign op value =>
    subst hx
    exact ⟨op.symbol, [], by simp [source], rfl⟩
  case shell command =>
    subst hx
    exact ⟨['!'], ['!'], by simp [source], rfl⟩
  case suffix old new =>
    rcases hx with rfl | rfl
    · exact ⟨[], '=' :: MakeText.source new, by simp [source], rfl⟩
    · have hmark : '='.utf8Size = 1 := rfl
      refine ⟨MakeText.source old ++ ['='], [], by simp [source], ?_⟩
      simp [secondOffset, MakeText.size, hmark]
  case choose yes no =>
    rcases hx with rfl | rfl
    · exact ⟨['?'], ':' :: MakeText.source no, by simp [source], rfl⟩
    · have hfirst : '?'.utf8Size = 1 := rfl
      have hsecond : ':'.utf8Size = 1 := rfl
      refine ⟨'?' :: MakeText.source yes ++ [':'], [], by simp [source], ?_⟩
      simp [secondOffset, MakeText.size, hfirst, hsecond, Nat.add_assoc]
  case substitute regex bound old new flags =>
    have hletter : (if regex then 'C' else 'S').utf8Size = 1 := by cases regex <;> rfl
    rcases hx with rfl | rfl
    · refine ⟨[if regex then 'C' else 'S', bound], bound :: MakeText.source new ++ bound :: flags,
        by simp [source], ?_⟩
      simp [firstOffset, hletter]
    · refine ⟨(if regex then 'C' else 'S') :: bound :: MakeText.source old ++ [bound],
        bound :: flags, by simp [source], ?_⟩
      simp [secondOffset, MakeText.size, hletter, Nat.add_assoc]

theorem stands_of_mem_placedTexts {text : Text} {start : Nat} {m : Modifier} {x : Nat × MakeText}
    (h : text.Stands start m.source) (hx : x ∈ m.placedTexts start) :
    text.Stands x.1 (MakeText.source x.2) := by
  obtain ⟨before, after, hsource, hstart⟩ := exists_source_of_mem_placedTexts hx
  rw [hsource] at h
  rw [hstart]
  exact h.inside

theorem bounds_of_mem_placedTexts {start : Nat} {m : Modifier} {x : Nat × MakeText}
    (hx : x ∈ m.placedTexts start) :
    start ≤ x.1 ∧ x.1 + MakeText.size x.2 ≤ start + Text.byteSize m.source := by
  obtain ⟨before, after, hsource, hstart⟩ := exists_source_of_mem_placedTexts hx
  rw [hsource, hstart, MakeText.size]
  simp only [Text.byteSize_append]
  omega

theorem firstOffset_add_size_le {m : Modifier} {first second : MakeText} {others : List MakeText}
    (h : m.arguments = first :: second :: others) :
    m.firstOffset + MakeText.size first ≤ m.secondOffset := by
  cases m <;> simp only [arguments, List.cons.injEq, reduceCtorEq, and_false] at h
  all_goals
    obtain ⟨rfl, -⟩ := h
    simp only [firstOffset, secondOffset]
    omega

theorem inOrder_placedTexts (start : Nat) (m : Modifier) :
    InOrder MakeText.size start (m.placedTexts start) (start + Text.byteSize m.source) := by
  have hbounds {x : Nat × MakeText} (hx : x ∈ m.placedTexts start) := bounds_of_mem_placedTexts hx
  unfold placedTexts at hbounds ⊢
  cases harguments : m.arguments with
  | nil => exact .nil (Nat.le_add_right _ _)
  | cons first others =>
    cases others with
    | nil =>
      rw [harguments] at hbounds
      obtain ⟨hlow, hhigh⟩ := hbounds List.mem_cons_self
      exact .single hlow hhigh
    | cons second others =>
      have hbetween := firstOffset_add_size_le harguments
      rw [harguments] at hbounds
      obtain ⟨hlow, -⟩ := hbounds List.mem_cons_self
      obtain ⟨-, hhigh⟩ := hbounds (List.mem_cons_of_mem _ List.mem_cons_self)
      exact .cons hlow (.single (by dsimp only; omega) hhigh)

end Modifier

/-! ## Chains -/

namespace Link

def placed (start : Nat) : List Link → List (Nat × Modifier)
  | [] => []
  | .empty :: chain => placed (start + 1) chain
  | .colon m :: chain => (start + 1, m) :: placed (start + 1 + Text.byteSize m.source) chain
  | .joined m :: chain => (start, m) :: placed (start + Text.byteSize m.source) chain

theorem map_snd_placed (start : Nat) (chain : List Link) :
    (placed start chain).map Prod.snd = chain.filterMap modifier? := by
  induction chain generalizing start with
  | nil => rfl
  | cons link chain ih =>
    rw [List.filterMap_cons]
    cases link <;> simp [placed, modifier?, ih]

theorem byteSize_source_colon (m : Modifier) :
    Text.byteSize (colon m).source = 1 + Text.byteSize m.source :=
  rfl

theorem nestedAll_eq (start : Nat) (chain : List Link) :
    nestedAll start chain = (placed start chain).flatMap fun x => x.2.nested x.1 := by
  induction chain generalizing start with
  | nil => rfl
  | cons link chain ih =>
    cases link with
    | empty => exact ih _
    | colon m =>
      rw [nestedAll, ih, byteSize_source_colon, ← Nat.add_assoc]
      rfl
    | joined m =>
      rw [nestedAll, ih]
      rfl

theorem inOrder_placed (start : Nat) (chain : List Link) :
    InOrder (fun m : Modifier => Text.byteSize m.source) start (placed start chain)
      (start + Text.byteSize (chain.flatMap source)) := by
  induction chain generalizing start with
  | nil => exact .nil (Nat.le_add_right _ _)
  | cons link chain ih =>
    rw [List.flatMap_cons, Text.byteSize_append, ← Nat.add_assoc]
    cases link with
    | empty => exact (ih _).mono_low (Nat.le_add_right _ _)
    | colon m =>
      rw [byteSize_source_colon, ← Nat.add_assoc]
      exact .cons (Nat.le_add_right _ _) (ih _)
    | joined m => exact .cons (Nat.le_refl _) (ih _)

theorem stands_of_mem_placed {text : Text} {start : Nat} {chain : List Link} {x : Nat × Modifier}
    (h : text.Stands start (chain.flatMap source)) (hx : x ∈ placed start chain) :
    text.Stands x.1 x.2.source := by
  induction chain generalizing start with
  | nil => simp [placed] at hx
  | cons link chain ih =>
    rw [List.flatMap_cons] at h
    cases link with
    | empty => exact ih h.right hx
    | colon m =>
      have hm : text.Stands (start + 1) m.source := Text.Stands.right (s := [':']) h.left
      rcases List.mem_cons.mp hx with rfl | hx
      · exact hm
      · refine ih ?_ hx
        have hrest := h.right
        rwa [byteSize_source_colon, ← Nat.add_assoc] at hrest
    | joined m =>
      rcases List.mem_cons.mp hx with rfl | hx
      · exact h.left
      · exact ih h.right hx

end Link

/-! ## References -/

namespace Reference

def spanAt (start : Nat) (r : Reference) : Span :=
  ⟨start, start + Text.byteSize r.text⟩

def closingOffset (r : Reference) : Nat :=
  r.chainOffset + Text.byteSize r.modifierText

def placedModifiers (start : Nat) (r : Reference) : List (Nat × Modifier) :=
  Link.placed (start + r.chainOffset) r.chain

def placedTexts (start : Nat) (r : Reference) : List (Nat × MakeText) :=
  (start + r.nameOffset, r.name) ::
    (r.placedModifiers start).flatMap fun x => x.2.placedTexts x.1

def placed (start : Nat) (r : Reference) : List (Nat × Reference) :=
  (r.placedTexts start).flatMap fun x => MakeText.placed x.1 x.2

theorem nested_eq (start : Nat) (r : Reference) :
    r.nested start = (r.placed start).flatMap fun x => x :: x.2.nested x.1 := by
  obtain ⟨delimiter, name, chain, text⟩ := r
  rw [Reference.nested, Link.nestedAll_eq]
  simp only [placed, placedTexts, placedModifiers, List.flatMap_cons, List.flatMap_append,
    List.flatMap_assoc, MakeText.nested_eq, Modifier.nested_eq]

theorem map_snd_placedModifiers (start : Nat) (r : Reference) :
    (r.placedModifiers start).map Prod.snd = r.modifiers :=
  Link.map_snd_placed _ r.chain

theorem map_snd_placedTexts (start : Nat) (r : Reference) :
    (r.placedTexts start).map Prod.snd = r.name :: r.modifiers.flatMap Modifier.arguments := by
  simp only [placedTexts, List.map_cons, List.map_flatMap, Modifier.map_snd_placedTexts,
    ← map_snd_placedModifiers start r, List.flatMap_map]

theorem mem_of_mem_placedTexts {start : Nat} {r : Reference} {x : Nat × MakeText}
    (hx : x ∈ r.placedTexts start) : x.2 = r.name ∨ ∃ m ∈ r.modifiers, x.2 ∈ m.arguments := by
  have hmem : x.2 ∈ (r.placedTexts start).map Prod.snd := List.mem_map_of_mem hx
  rwa [map_snd_placedTexts, List.mem_cons, List.mem_flatMap] at hmem

theorem inOrder_placedModifiers (start : Nat) (r : Reference) :
    InOrder (fun m : Modifier => Text.byteSize m.source) (start + r.chainOffset)
      (r.placedModifiers start) (start + r.closingOffset) := by
  have hchain := Link.inOrder_placed (start + r.chainOffset) r.chain
  rwa [Nat.add_assoc] at hchain

theorem inOrder_placedTexts (start : Nat) (r : Reference) :
    InOrder MakeText.size (start + r.nameOffset) (r.placedTexts start)
      (start + r.closingOffset) := by
  refine .cons (Nat.le_refl _) ?_
  rw [Nat.add_assoc]
  exact (inOrder_placedModifiers start r).flatMap fun x _ =>
    Modifier.inOrder_placedTexts x.1 x.2

theorem inOrder_placed (start : Nat) (r : Reference) :
    InOrder (fun inner : Reference => Text.byteSize inner.text) (start + r.nameOffset)
      (r.placed start) (start + r.closingOffset) :=
  (inOrder_placedTexts start r).flatMap fun x _ => MakeText.inOrder_placed x.1 x.2

namespace Spells

variable {r : Reference} {text : Text} {start : Nat}

theorem closingOffset_add (h : r.Spells r.text) :
    r.closingOffset + Text.byteSize r.delimiter.closing = Text.byteSize r.text := by
  have hdollar : '$'.utf8Size = 1 := rfl
  rw [h.2]
  simp only [closingOffset, chainOffset, nameOffset, MakeText.size, varname, List.cons_append,
    Text.byteSize_cons, Text.byteSize_append, hdollar]
  omega

theorem stands_of_mem_placedTexts (h : r.Spells r.text) (hstands : text.Stands start r.text)
    {x : Nat × MakeText} (hx : x ∈ r.placedTexts start) :
    text.Stands x.1 (MakeText.source x.2) := by
  rw [h.2] at hstands
  have hopening : start + Text.byteSize ('$' :: r.delimiter.opening) = start + r.nameOffset := rfl
  have hname : text.Stands (start + r.nameOffset) r.varname :=
    hopening ▸ hstands.left.left.right
  have hchain : text.Stands (start + r.chainOffset) r.modifierText := by
    have hbehind := hstands.left.right
    rw [Text.byteSize_append, ← Nat.add_assoc, hopening, Nat.add_assoc] at hbehind
    exact hbehind
  rcases List.mem_cons.mp hx with rfl | hx
  · exact hname
  · obtain ⟨y, hy, hx⟩ := List.mem_flatMap.mp hx
    exact Modifier.stands_of_mem_placedTexts (Link.stands_of_mem_placed hchain hy) hx

theorem stands_of_mem_placed (h : r.Spells r.text) (hstands : text.Stands start r.text)
    {x : Nat × Reference} (hx : x ∈ r.placed start) : text.Stands x.1 x.2.text := by
  obtain ⟨y, hy, hx⟩ := List.mem_flatMap.mp hx
  exact MakeText.stands_of_mem_placed (h.stands_of_mem_placedTexts hstands hy) hx

end Spells

end Reference

end RecipeLint

import RecipeLint.Proofs.Reading.Logged

/-!
# Findings that differ

No two findings made while reading a reference have both the same span and the same message.  Each is
about characters that it was not put behind, or is told from those inside by where it starts or stops.
Only the finding about a part of a name may cover just what another one covers, and that has another
message.
-/

namespace RecipeLint

open Reading

/-! ## Messages -/

/-- The first letters of the message of a failure, as many as it takes to tell the messages of all
findings apart. -/
def ReferenceFailure.letters : ReferenceFailure → Text
  | missingClose .. => ['M', 'i']
  | invalidModifier .. => ['I', 'n', 'v', 'a', 'l', 'i', 'd', ' ', 'v']
  | loneDollar _ => ['I', 'n', 'v', 'a', 'l', 'i', 'd', ' ', '"']
  | nestingTooDeep _ => ['V']

theorem ReferenceFailure.letters_prefix (failure : ReferenceFailure) :
    failure.letters <+: failure.message.toList := by
  unfold letters message
  cases failure with
  | missingClose | invalidModifier | loneDollar | nestingTooDeep =>
    simp only [toString, String.toList_append, List.append_assoc]
    exact List.IsPrefix.trans (by decide) (List.prefix_append _ _)

namespace Cause

def letters : Cause → Text
  | badReference failure => failure.letters
  | unterminatedQuote .. => ['U', 'n', 't']
  | unexpectedChar .. => ['U', 'n', 'e']
  | trailingBackslash => ['B']
  | ambiguousName _ => ['$']
  | invalidNamePart .. => ['I', 'n', 'v', 'a', 'l', 'i', 'd', ' ', 'p']
  | invalidSeparator .. => ['I', 'n', 'v', 'a', 'l', 'i', 'd', ' ', 's']
  | unclosedLoop .. => ['M', 'o']
  | roundParentheses .. => ['P']
  | loadTimeUse _ | quotedInQuotes _ | unquotedPart _ | unquoted .. | needlessQuoting _
  | quotedInDoubleQuotes => []

theorem letters_prefix (c : Cause) : c.letters <+: c.message.toList := by
  unfold letters message
  cases c with
  | badReference failure => exact failure.letters_prefix
  | unterminatedQuote | unexpectedChar | ambiguousName | invalidNamePart | invalidSeparator
  | unclosedLoop | roundParentheses =>
    simp only [toString, String.toList_append, List.append_assoc]
    exact List.IsPrefix.trans (by decide) (List.prefix_append _ _)
  | trailingBackslash => decide
  | loadTimeUse | quotedInQuotes | unquotedPart | unquoted | needlessQuoting
  | quotedInDoubleQuotes => exact List.nil_prefix

def Apart (c d : Cause) : Prop :=
  ¬c.letters <+: d.letters ∧ ¬d.letters <+: c.letters

theorem Apart.symm {c d : Cause} (h : Apart c d) : Apart d c :=
  ⟨h.2, h.1⟩

theorem Apart.message_ne {c d : Cause} (h : Apart c d) : c.message ≠ d.message := by
  intro heq
  have hc := c.letters_prefix
  rw [heq] at hc
  rcases List.prefix_or_prefix_of_prefix hc d.letters_prefix with hprefix | hprefix
  · exact h.1 hprefix
  · exact h.2 hprefix

def isAboutReference : Cause → Bool
  | ambiguousName _ | invalidNamePart .. | invalidSeparator .. | unclosedLoop ..
  | roundParentheses .. => true
  | _ => false

def isNamePart : Cause → Bool
  | invalidNamePart .. => true
  | _ => false

theorem apart_namePart {c : Cause} (habout : c.isAboutReference) (hpart : c.isNamePart = false)
    (valid invalid : Text) : c.Apart (invalidNamePart valid invalid) := by
  cases c <;> simp_all [isAboutReference, isNamePart, Apart, letters]

theorem not_apart_of_isStyle {c d : Cause} (hc : c.isStyle) (hd : d.isStyle) : ¬c.Apart d := by
  have hletters {c : Cause} (h : c.isStyle) : c.letters = ['P'] := by
    cases c <;> simp_all [isStyle, letters]
  have hsame : c.letters = d.letters := (hletters hc).trans (hletters hd).symm
  intro hapart
  exact hapart.1 (hsame ▸ List.prefix_refl _)

/-- Findings about text that could not be read have messages of their own. -/
theorem apart_of_isFailure {c d : Cause} (hc : c.isFailure) (hd : d.isAboutReference) :
    c.Apart d := by
  cases c with
  | badReference failure =>
    cases failure <;> cases d <;>
      simp_all [isAboutReference, Apart, letters, ReferenceFailure.letters]
  | unterminatedQuote | unexpectedChar | trailingBackslash =>
    cases d <;> simp_all [isAboutReference, Apart, letters]
  | _ => simp [isFailure] at hc

theorem apart_openQuote {c : Cause} (hc : c.isFailure) (hne : ∀ o q, c ≠ unterminatedQuote o q)
    (opener : Char) (quoting : Quoting) : c.Apart (unterminatedQuote opener quoting) := by
  cases c with
  | badReference failure => cases failure <;> simp [Apart, letters, ReferenceFailure.letters]
  | unterminatedQuote o q => exact absurd rfl (hne o q)
  | unexpectedChar | trailingBackslash => simp [Apart, letters]
  | _ => simp [isFailure] at hc

end Cause

/-! ## Spread -/

namespace Finding

def Differs (f g : Finding) : Prop :=
  f.span = g.span → f.value.Apart g.value

theorem Differs.of_start {f g : Finding} (h : f.span.start ≠ g.span.start) : Differs f g :=
  fun hspan => absurd (congrArg Span.start hspan) h

theorem Differs.of_stop {f g : Finding} (h : f.span.stop ≠ g.span.stop) : Differs f g :=
  fun hspan => absurd (congrArg Span.stop hspan) h

theorem differs_shift {n : Nat} {f g : Finding} :
    Differs (f.shift n) (g.shift n) ↔ Differs f g := by
  have hspan : (f.shift n).span = (g.shift n).span ↔ f.span = g.span := by
    obtain ⟨_, _, _⟩ := f
    obtain ⟨_, _, _⟩ := g
    simp [Located.shift, Span.shift]
  exact imp_congr_left hspan

/-- Findings about references in the first `size` bytes that differ from one another.  The one about a
part of a name stops before a closing delimiter. -/
structure Spread (size : Nat) (fs : List Finding) : Prop where
  differs : fs.Pairwise Differs
  within : ∀ f ∈ fs, f.span.start < f.span.stop ∧ f.span.stop ≤ size
  about : ∀ f ∈ fs, f.value.isAboutReference
  namePart : ∀ f ∈ fs, f.value.isNamePart → f.span.stop < size

namespace Spread

variable {m n : Nat} {fs gs : List Finding}

theorem nil : Spread n [] :=
  ⟨.nil, by simp, by simp, by simp⟩

theorem mono (h : Spread m fs) (hle : m ≤ n) : Spread n fs where
  differs := h.differs
  within f hf := ⟨(h.within f hf).1, Nat.le_trans (h.within f hf).2 hle⟩
  about := h.about
  namePart f hf hpart := Nat.lt_of_lt_of_le (h.namePart f hf hpart) hle

theorem append (hfs : Spread m fs) (hgs : Spread n gs) :
    Spread (m + n) (fs ++ gs.map (Located.shift m)) := by
  refine ⟨List.pairwise_append.mpr ⟨hfs.differs, ?_, ?_⟩, ?_, ?_, ?_⟩
  · exact List.pairwise_map.mpr (hgs.differs.imp fun h => differs_shift.mpr h)
  · intro f hf g hg
    obtain ⟨g, hg, rfl⟩ := List.mem_map.mp hg
    have hwithin := hfs.within f hf
    apply Differs.of_start
    simp only [Located.shift, Span.shift]
    omega
  all_goals
    intro f hf
    rcases List.mem_append.mp hf with hf | hf
  · have hwithin := hfs.within f hf
    omega
  · obtain ⟨g, hg, rfl⟩ := List.mem_map.mp hf
    have hwithin := hgs.within g hg
    simp only [Located.shift, Span.shift]
    omega
  · exact hfs.about f hf
  · obtain ⟨g, hg, rfl⟩ := List.mem_map.mp hf
    exact hgs.about g hg
  · intro hpart
    have hstop := hfs.namePart f hf hpart
    omega
  · obtain ⟨g, hg, rfl⟩ := List.mem_map.mp hf
    intro hpart
    have hstop := hgs.namePart g hg hpart
    simp only [Located.shift, Span.shift]
    omega

theorem concat {f : Finding} (h : Spread m fs) (hle : m ≤ n) (hdiffers : ∀ g ∈ fs, Differs g f)
    (hwithin : f.span.start < f.span.stop ∧ f.span.stop ≤ n) (habout : f.value.isAboutReference)
    (hpart : f.value.isNamePart → f.span.stop < n) : Spread n (fs ++ [f]) := by
  have hfs := h.mono hle
  refine ⟨List.pairwise_append.mpr ⟨hfs.differs, List.pairwise_singleton _ _, ?_⟩, ?_, ?_, ?_⟩
  · intro g hg f' hf'
    obtain rfl := List.mem_singleton.mp hf'
    exact hdiffers g hg
  all_goals
    intro g hg
    rcases List.mem_append.mp hg with hg | hg
  · exact hfs.within g hg
  · exact List.mem_singleton.mp hg ▸ hwithin
  · exact hfs.about g hg
  · exact List.mem_singleton.mp hg ▸ habout
  · exact hfs.namePart g hg
  · exact List.mem_singleton.mp hg ▸ hpart

/-- The finding about the name covers its end, where no finding inside it stops that is about a part
of a name. -/
theorem nameFindings {r : Reference} (hfs : Spread (MakeText.size r.name) fs)
    (hgs : Spread n gs) (hn : r.chainOffset + n < m) :
    Spread m (fs.map (Located.shift r.nameOffset) ++ gs.map (Located.shift r.chainOffset) ++
      r.nameFindings) := by
  have hinner : Spread (r.chainOffset + n)
      (fs.map (Located.shift r.nameOffset) ++ gs.map (Located.shift r.chainOffset)) := by
    have hshifted := (nil (n := r.nameOffset)).append (hfs.append hgs)
    have hoffset : MakeText.size r.name + r.nameOffset = r.chainOffset := Nat.add_comm _ _
    simp only [List.map_append, List.map_map, Function.comp_def, Located.shift_shift, hoffset,
      List.nil_append] at hshifted
    rwa [← Nat.add_assoc] at hshifted
  have hsplit := Reference.append_splitName r.name
  unfold Reference.nameFindings
  split
  case h_1 => simpa using hinner.mono (Nat.le_of_lt hn)
  case h_2 valid invalid hinvalid heq =>
    have hsize : Text.byteSize valid + Text.byteSize invalid = MakeText.size r.name := by
      rw [MakeText.size, ← hsplit, heq, Text.byteSize_append]
    have hpos : 0 < Text.byteSize invalid := Text.byteSize_pos hinvalid
    have hchain : r.chainOffset = r.nameOffset + MakeText.size r.name := rfl
    refine hinner.concat (Nat.le_of_lt hn) (fun g hg => ?_) ?_ rfl fun _ => ?_
    · rcases List.mem_append.mp hg with hg | hg
      · obtain ⟨f, hf, rfl⟩ := List.mem_map.mp hg
        by_cases hpart : f.value.isNamePart
        · have hstop := hfs.namePart f hf hpart
          apply Differs.of_stop
          simp only [Located.shift, Span.shift, Span.ofSize]
          omega
        · intro _
          exact Cause.apart_namePart (hfs.about f hf) (by simpa using hpart) valid invalid
      · obtain ⟨f, hf, rfl⟩ := List.mem_map.mp hg
        apply Differs.of_start
        simp only [Located.shift, Span.shift, Span.ofSize]
        omega
    · simp only [Span.shift, Span.ofSize]
      omega
    · simp only [Span.shift, Span.ofSize]
      omega

/-- Only the finding about the whole reference starts where the reference does. -/
theorem start_pos_of_mem {r : Reference} {f : Finding}
    (hf : f ∈ fs.map (Located.shift r.nameOffset) ++ gs.map (Located.shift r.chainOffset) ++
      r.nameFindings) : 0 < f.span.start := by
  have hpos : 0 < r.nameOffset := Nat.lt_of_lt_of_le Nat.one_pos (Nat.le_add_right _ _)
  have hle : r.nameOffset ≤ r.chainOffset := Nat.le_add_right _ _
  have hshift {g : Finding} {offset : Nat} (hoffset : r.nameOffset ≤ offset) :
      0 < (g.shift offset).span.start := by
    simp only [Located.shift, Span.shift]
    omega
  rcases List.mem_append.mp hf with hf | hf
  · rcases List.mem_append.mp hf with hf | hf
    · obtain ⟨g, -, rfl⟩ := List.mem_map.mp hf
      exact hshift (Nat.le_refl _)
    · obtain ⟨g, -, rfl⟩ := List.mem_map.mp hf
      exact hshift hle
  · unfold Reference.nameFindings at hf
    split at hf
    case h_1 => simp at hf
    case h_2 =>
      obtain rfl := List.mem_singleton.mp hf
      simp only [Span.shift]
      omega

theorem reference {r : Reference} (hr : r.Spells r.text) (hdelimiter : r.delimiter ≠ .bare)
    (hfs : Spread (MakeText.size r.name) fs) (hgs : Spread (Text.byteSize r.modifierText) gs) :
    Spread (Text.byteSize r.text)
      (fs.map (Located.shift r.nameOffset) ++ gs.map (Located.shift r.chainOffset) ++
        r.nameFindings ++ r.styleFindings) := by
  have hpos : 0 < Text.byteSize r.delimiter.closing := by
    cases hd : r.delimiter with
    | bare => exact absurd hd hdelimiter
    | braces => exact Nat.one_pos
    | parentheses => exact Nat.one_pos
  have hclosing : r.chainOffset + Text.byteSize r.modifierText < Text.byteSize r.text := by
    rw [← hr.closingOffset_add]
    exact Nat.lt_add_of_pos_right hpos
  have hname := hfs.nameFindings hgs hclosing
  unfold Reference.styleFindings
  split
  case isTrue =>
    have hsize : 0 < Text.byteSize r.text := Nat.lt_of_le_of_lt (Nat.zero_le _) hclosing
    exact hname.concat (Nat.le_refl _) (fun g hg => .of_start (Nat.ne_of_gt (start_pos_of_mem hg)))
      ⟨hsize, Nat.le_refl _⟩ rfl nofun
  case isFalse => simpa using hname

theorem logging : Logging (fun s _ fs => Spread (Text.byteSize s) fs)
    (fun s fs => Spread (Text.byteSize s) fs) where
  plain _ := nil
  append hfs hgs := by
    rw [Text.byteSize_append]
    exact hfs.append hgs
  lose h := h
  append_lost hfs hgs := by
    rw [Text.byteSize_append]
    exact hfs.append hgs
  lost_append h t := h.mono (by simp)
  modifier h _ := h
  separator {s h fs} hfs := by
    have hsize : Text.byteSize ('t' :: 's' :: s) = 2 + Text.byteSize s :=
      Text.byteSize_append ['t', 's'] s
    rw [hsize]
    exact nil.append hfs
  note {s h fs cause} hfs hstart hcause hs := by
    have hsize := Text.byteSize_pos hs
    refine hfs.concat (Nat.le_refl _) (fun g hg => .of_start ?_) ⟨hsize, Nat.le_refl _⟩ ?_ ?_
    · exact Nat.ne_of_gt (hstart g hg)
    · cases cause <;> simp_all [Cause.isNote, Cause.isAboutReference]
    · cases cause <;> simp_all [Cause.isNote, Cause.isNamePart]
  bare _ := nil
  reference hr hdelimiter hfs hgs _ := hfs.reference hr hdelimiter hgs

end Spread

end Finding

end RecipeLint

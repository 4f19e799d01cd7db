import RecipeLint.Proofs.Reading.Respell
import RecipeLint.Proofs.Reading.Styles

/-!
# The arguments that are no make text

The argument of a range, the flags of a substitution and the variable of a loop are runs of
characters of their own.  Flags and variables are what they should be.  A range takes any run of
digits, hyphens and dots, which need not be a number or two.  A separator may be anything, but one
that is neither a character nor an escape is found where it stands; the escape of a character by its
octal number may have any digits, though.
-/

namespace RecipeLint

open Reading

theorem Text.filter_take_one {p : Char → Bool} {text rest : Text} {c : Char}
    (h : (text.take 1).filter p = c :: rest) : rest = [] ∧ p c := by
  have hmem : c ∈ (text.take 1).filter p := h ▸ List.mem_cons_self
  have hlength := List.length_filter_le p (text.take 1)
  rw [h, List.length_cons, List.length_take] at hlength
  exact ⟨List.eq_nil_of_length_eq_zero (by omega), (List.mem_filter.mp hmem).2⟩

namespace Modifier

/-! ## Forms -/

def IsRange (s : Text) : Prop :=
  s ∈ [['#'], ['@'], ['*']] ∨ s ≠ [] ∧ ∀ c ∈ s, c.isDigit ∨ c = '-' ∨ c = '.'

def IsNumber (s : Text) : Prop :=
  ∃ digits, (s = digits ∨ s = '-' :: digits) ∧ digits ≠ [] ∧ ∀ c ∈ digits, c.isDigit

/-- What a range is for: a mark, a number, or two with two dots between them. -/
def IsIndex (s : Text) : Prop :=
  s ∈ [['#'], ['@'], ['*']] ∨ IsNumber s ∨
    ∃ first last, IsNumber first ∧ IsNumber last ∧ s = first ++ '.' :: '.' :: last

def isOctalDigit (c : Char) : Bool :=
  c.isDigit && c != '8' && c != '9'

/-- A character, the escape of a line break or a tab, or a backslash before digits of some kind. -/
def IsSeparator (isDigit : Char → Bool) (s : Text) : Prop :=
  s.length = 1 ∨ s = ['\\', 'n'] ∨ s = ['\\', 't'] ∨
    ∃ digits, s = '\\' :: digits ∧ ∀ c ∈ digits, isDigit c

def Formed (HasForm : Text → Prop) : Modifier → Prop
  | index range => HasForm range
  | substitute _ _ _ _ flags => ∀ c ∈ flags, c = '1' ∨ c = 'g' ∨ c = 'W'
  | forEach loopVariable _ _ =>
    loopVariable ≠ [] ∧ ∀ c ∈ loopVariable, c.isAlphanum ∨ c = '_' ∨ c = '.'
  | _ => True

theorem IsNumber.chars {s : Text} (h : IsNumber s) :
    s ≠ [] ∧ ∀ c ∈ s, c.isDigit ∨ c = '-' ∨ c = '.' := by
  obtain ⟨digits, rfl | rfl, hne, hdigits⟩ := h
  · exact ⟨hne, fun c hc => .inl (hdigits c hc)⟩
  · refine ⟨List.cons_ne_nil _ _, fun c hc => ?_⟩
    rcases List.mem_cons.mp hc with rfl | hc
    · exact .inr (.inl rfl)
    · exact .inl (hdigits c hc)

theorem IsNumber.exists_digit {s : Text} (h : IsNumber s) : ∃ c ∈ s, c.isDigit := by
  obtain ⟨digits, hs, hne, hdigits⟩ := h
  obtain ⟨c, cs, rfl⟩ := List.exists_cons_of_ne_nil hne
  refine ⟨c, ?_, hdigits c List.mem_cons_self⟩
  rcases hs with rfl | rfl
  · exact List.mem_cons_self
  · exact List.mem_cons_of_mem _ List.mem_cons_self

theorem IsIndex.exists_digit {s : Text} (h : IsIndex s) (hmark : s ∉ [['#'], ['@'], ['*']]) :
    ∃ c ∈ s, c.isDigit := by
  rcases h with h | hnumber | ⟨first, last, hfirst, -, rfl⟩
  · exact absurd h hmark
  · exact hnumber.exists_digit
  · obtain ⟨c, hc, hdigit⟩ := hfirst.exists_digit
    exact ⟨c, List.mem_append_left _ hc, hdigit⟩

theorem IsIndex.isRange {s : Text} (h : IsIndex s) : IsRange s := by
  rcases h with hmark | hnumber | ⟨first, last, hfirst, hlast, rfl⟩
  · exact .inl hmark
  · exact .inr hnumber.chars
  · refine .inr ⟨by simp, fun c hc => ?_⟩
    simp only [List.mem_append, List.mem_cons] at hc
    rcases hc with hc | rfl | rfl | hc
    · exact hfirst.chars.2 c hc
    · exact .inr (.inr rfl)
    · exact .inr (.inr rfl)
    · exact hlast.chars.2 c hc

theorem isSeparator_iff {s : Text} : isSeparator s ↔ IsSeparator Char.isDigit s := by
  unfold isSeparator IsSeparator
  split
  case h_1 | h_2 | h_3 => simp
  case h_4 digits hn ht hone =>
    simp only [List.all_eq_true]
    constructor
    · exact fun h => .inr (.inr (.inr ⟨digits, rfl, h⟩))
    · rintro (hlength | heq | heq | ⟨_, heq, hdigits⟩)
      · obtain ⟨c, hc⟩ := List.length_eq_one_iff.mp hlength
        exact absurd (List.cons.inj hc).2 hone
      · exact absurd (List.cons.inj heq).2 hn
      · exact absurd (List.cons.inj heq).2 ht
      · exact (List.cons.inj heq).2 ▸ hdigits
  case h_5 hn ht hone hbackslash =>
    simp only [Bool.false_eq_true, false_iff]
    rintro (hlength | heq | heq | ⟨digits, heq, -⟩)
    · obtain ⟨c, hc⟩ := List.length_eq_one_iff.mp hlength
      exact hone c hc
    · exact hn heq
    · exact ht heq
    · exact hbackslash digits heq

/-- Decimal digits that escape a character by its octal number are octal. -/
theorem IsSeparator.octal_of_digits {digits : Text}
    (h : IsSeparator isOctalDigit ('\\' :: digits)) (hdigits : ∀ c ∈ digits, c.isDigit) :
    ∀ c ∈ digits, isOctalDigit c := by
  rcases h with hone | hbreak | htab | ⟨digits', hs, hoctal⟩
  · obtain rfl : digits = [] := by simpa using hone
    exact fun c hc => absurd hc List.not_mem_nil
  · obtain rfl : digits = ['n'] := by simpa using hbreak
    exact absurd (hdigits 'n' List.mem_cons_self) (by decide)
  · obtain rfl : digits = ['t'] := by simpa using htab
    exact absurd (hdigits 't' List.mem_cons_self) (by decide)
  · exact (List.cons.inj hs).2 ▸ hoctal

theorem Formed.of_index {P Q : Text → Prop} {m : Modifier} (h : m.Formed P)
    (hindex : ∀ range, m = .index range → Q range) : m.Formed Q := by
  cases m with
  | index range => exact hindex range rfl
  | _ => exact h

theorem range?_eq_some_iff {text range : Text} :
    range? text = some range ↔ IsRange range ∧ ∃ behind, text = range ++ ']' :: behind := by
  constructor
  · intro h
    refine ⟨?_, append_of_range? h⟩
    unfold range? at h
    extract_lets digits chosen at h
    split at h
    case h_2 => simp at h
    case h_1 c cs behind heq hbehind =>
      obtain rfl := Option.some.inj h
      by_cases hempty : digits.isEmpty
      · left
        have hchosen : chosen = (text.take 1).filter "#@*".toList.contains := if_pos hempty
        obtain ⟨rfl, hmark⟩ := Text.filter_take_one (hchosen.symm.trans heq)
        rw [heq]
        simpa using hmark
      · right
        have hchosen : chosen = digits := if_neg hempty
        rw [hchosen] at heq ⊢
        refine ⟨by simpa using hempty, fun d hd => ?_⟩
        have hrange : isRangeChar d := List.mem_takeWhile_imp hd
        simpa [isRangeChar, or_assoc] using hrange
  · rintro ⟨hmark | ⟨hne, hall⟩, behind, rfl⟩
    · simp only [List.mem_cons, List.not_mem_nil, or_false] at hmark
      rcases hmark with rfl | rfl | rfl <;> rfl
    · have hdigits : (range ++ ']' :: behind).takeWhile isRangeChar = range := by
        refine Text.takeWhile_eq_iff.mpr ⟨List.all_eq_true.mpr fun c hc => ?_, by decide⟩
        simpa [isRangeChar, or_assoc] using hall c hc
      obtain ⟨c, cs, rfl⟩ := List.exists_cons_of_ne_nil hne
      rw [range?, hdigits]
      simp only [List.isEmpty_cons, Bool.false_eq_true, if_false, List.drop_left]

/-! ## Reading -/

theorem formed_of_reads {nested : Reader (Option Reference)} {close b : Char} {name t : Text}
    {m : Modifier} (h : Reads (read nested close name) 0 m.source (some m) (b :: t)) :
    m.Formed IsRange := by
  cases m with
  | index range =>
    rcases reads_indexForm.mp (readForm_of_reads h (by simp) (by simp)) with
      ⟨range', hrange, -, hm⟩ | ⟨-, hgeneral⟩
    · obtain rfl : range = range' := by simpa using hm
      exact (range?_eq_some_iff.mp hrange).1
    · obtain ⟨_, _, hm⟩ := exists_suffix_of_readGeneral hgeneral
      simp at hm
  | substitute regex bound old new flags =>
    have hform : ∃ s letter, Reads (substitutionForm nested close name letter) 1 s
        (some (substitute regex bound old new flags)) (b :: t) := by
      cases regex with
      | false => exact ⟨_, 'S', readForm_of_reads h (by simp) (by simp)⟩
      | true => exact ⟨_, 'C', readForm_of_reads h (by simp) (by simp)⟩
    obtain ⟨s, letter, hform⟩ := hform
    obtain ⟨_, _, -, hread⟩ := (reads_substitutionForm letter).mp hform
    split at hread
    case isTrue =>
      obtain ⟨_, _, hm⟩ := exists_suffix_of_readGeneral hread
      simp at hm
    case isFalse =>
      obtain ⟨_, -, hread⟩ := hread
      obtain ⟨_, _, flags', _, _, -, hm, hflags, -⟩ := reads_readSubstitution.mp hread
      obtain ⟨-, -, -, -, rfl⟩ : _ ∧ _ ∧ _ ∧ _ ∧ flags = flags' := by simpa using hm
      intro c hc
      simpa [isFlag, or_assoc] using List.all_eq_true.mp hflags c hc
  | forEach loopVariable body closed =>
    rcases reads_loopForm.mp (readForm_of_reads h (by simp) (by simp)) with
      ⟨loopVariable', _, hloop, -, hread⟩ | ⟨-, hgeneral⟩
    · obtain ⟨hne, hall, -⟩ := loopVariable?_eq_some_iff.mp hloop
      obtain rfl : loopVariable = loopVariable' := by
        obtain ⟨_, ⟨_, -, hm, -⟩ | ⟨-, hm, -⟩⟩ := reads_readLoop.mp hread <;> simp_all
      refine ⟨hne, fun c hc => ?_⟩
      simpa [isLoopChar, isIdentifierChar, or_assoc] using List.all_eq_true.mp hall c hc
    · obtain ⟨_, _, hm⟩ := exists_suffix_of_readGeneral hgeneral
      simp at hm
  | _ => trivial

end Modifier

/-! ## What is found about separators -/

def Reference.holding (start : Nat) (r : Reference) : Holding :=
  ⟨[], r.placedModifiers start⟩

/-- What is to be found about the separators in the references that a text holds is found, and only
separators that take a word are found. -/
structure Finding.Notes (h : Holding) (fs : List Finding) : Prop where
  found : ∀ x ∈ h.references, (x.2.holding x.1).Noted x.2.varname fs
  justified : ∀ f ∈ fs, ∀ s name, f.value = .invalidSeparator s name →
    ¬Modifier.IsSeparator Char.isDigit s

theorem Reference.shift_holding (n start : Nat) (r : Reference) :
    (r.holding start).shift n = r.holding (start + n) := by
  rw [holding, holding, placedModifiers_shift]
  rfl

theorem Reference.value_of_mem_nameFindings {r : Reference} {f : Finding}
    (hf : f ∈ r.nameFindings) : ∃ valid invalid, f.value = .invalidNamePart valid invalid := by
  unfold nameFindings at hf
  split at hf
  case h_1 => simp at hf
  case h_2 valid invalid _ _ =>
    obtain rfl := List.mem_singleton.mp hf
    exact ⟨valid, invalid, rfl⟩

namespace Finding.Notes

variable {h k : Holding} {fs gs : List Finding} {r : Reference}

theorem nil : Notes .empty [] :=
  ⟨fun _ hx => absurd hx List.not_mem_nil, fun _ hf => absurd hf List.not_mem_nil⟩

theorem append (hs : Notes h fs) (ht : Notes k gs) (n : Nat) :
    Notes (h.followedBy n k) (fs ++ gs.map (Located.shift n)) where
  found x hx := by
    rcases List.mem_append.mp hx with hx | hx
    · exact (hs.found x hx).mono (List.subset_append_left _ _)
    · obtain ⟨y, hy, rfl⟩ := List.mem_map.mp hx
      have hshift := (ht.found y hy).shift n
      rw [Reference.shift_holding] at hshift
      exact hshift.mono (List.subset_append_right _ _)
  justified f hf s name hvalue := by
    rcases List.mem_append.mp hf with hf | hf
    · exact hs.justified f hf s name hvalue
    · obtain ⟨g, hg, rfl⟩ := List.mem_map.mp hf
      exact ht.justified g hg s name hvalue

theorem shift (hs : Notes h fs) (n : Nat) : Notes (h.shift n) (fs.map (Located.shift n)) :=
  nil.append hs n

theorem append_other (hs : Notes h fs)
    (hgs : ∀ g ∈ gs, ∀ s name, g.value = .invalidSeparator s name →
      ¬Modifier.IsSeparator Char.isDigit s) : Notes h (fs ++ gs) where
  found x hx := (hs.found x hx).mono (List.subset_append_left _ _)
  justified f hf := (List.mem_append.mp hf).elim (hs.justified f) (hgs f)

theorem note {cause : Cause} (hs : Notes h fs) (hcause : cause.isNote) (span : Span) :
    Notes h (fs ++ [⟨cause, span⟩]) := by
  refine hs.append_other (List.forall_mem_singleton.mpr fun s name hvalue => ?_)
  subst hvalue
  rw [Cause.isNote, Bool.not_eq_true'] at hcause
  rw [← Modifier.isSeparator_iff, hcause]
  exact Bool.false_ne_true

theorem inner (hname : Notes (MakeText.held r.name) fs) (hchain : Notes (Link.held r.chain) gs) :
    Notes ⟨r.nested 0, r.placedModifiers 0⟩
      (fs.map (Located.shift r.nameOffset) ++ gs.map (Located.shift r.chainOffset)) := by
  have hoffset : Text.byteSize r.varname + r.nameOffset = r.chainOffset := Nat.add_comm _ _
  have hinside := (hname.append hchain (Text.byteSize r.varname)).shift r.nameOffset
  rw [Reference.shift_followedBy_held] at hinside
  simpa [Function.comp_def, Located.shift_shift, hoffset] using hinside

theorem reference (hname : Notes (MakeText.held r.name) fs)
    (hchain : Notes (Link.held r.chain) gs) (hnoted : (Link.held r.chain).Noted r.varname gs) :
    Notes (Reference.held (some r))
      (fs.map (Located.shift r.nameOffset) ++ gs.map (Located.shift r.chainOffset)) where
  found := by
    refine List.forall_mem_cons.mpr ⟨?_, (hname.inner hchain).found⟩
    have hshift := hnoted.shift r.chainOffset
    rw [Link.shift_held] at hshift
    have hown : (r.holding 0).Noted r.varname (gs.map (Located.shift r.chainOffset)) := by
      rw [Reference.holding, Reference.placedModifiers, Nat.zero_add]
      exact hshift
    exact hown.mono (List.subset_append_right _ _)
  justified := (hname.inner hchain).justified

theorem logging : Logging (fun _ h fs => Notes h fs) fun _ _ => True where
  plain _ := nil
  append hs ht := hs.append ht _
  lose _ := trivial
  append_lost _ _ := trivial
  lost_append _ _ := trivial
  modifier hs _ := ⟨hs.found, hs.justified⟩
  separator hs := by
    refine ⟨fun x hx => absurd hx List.not_mem_nil, fun f hf s name hvalue => ?_⟩
    obtain ⟨g, hg, rfl⟩ := List.mem_map.mp hf
    exact hs.justified g hg s name hvalue
  note hs _ hcause _ := hs.note hcause _
  bare c := ⟨List.forall_mem_singleton.mpr fun y hy => absurd hy List.not_mem_nil,
    fun f hf => absurd hf List.not_mem_nil⟩
  reference {r fs gs} _ _ hname hchain hnoted := by
    refine ((hname.reference hchain hnoted).append_other ?_).append_other ?_
    · intro f hf s name hvalue
      obtain ⟨valid, invalid, hpart⟩ := Reference.value_of_mem_nameFindings hf
      cases hpart.symm.trans hvalue
    · intro f hf s name hvalue
      rw [(Reference.mem_styleFindings.mp hf).2] at hvalue
      cases hvalue

end Finding.Notes

/-! ## References -/

namespace Reference

variable {r : Reference}

theorem ReadBy.formed {levels : Nat} (h : r.ReadBy (readWithin levels)) :
    ∀ m ∈ r.modifiers, m.Formed Modifier.IsRange := by
  intro m hm
  obtain ⟨s, t, hread⟩ := h
  rcases reads_readWithin.mp hread with
    ⟨inner, _, _, _, _, _, _, -, hwrites, -, rfl, hbody⟩ | ⟨c, -, -, rfl⟩
  · obtain ⟨-, -, hstand⟩ := (reads_readBody (readWithin_fits inner) hwrites.opens).mp hbody
    obtain ⟨c, rest, hreads⟩ := hstand.exists_reads m hm
    exact Modifier.formed_of_reads hreads
  · exact absurd hm List.not_mem_nil

theorem notes_read {text : Text} (h : (read text).outcome = .ok (some r)) :
    Finding.Notes (held (some r)) (read text).findings := by
  obtain ⟨s, t, rfl, -, -⟩ := exists_reads_of_outcome h
  exact (readWithin_logs Finding.Notes.logging maxNesting (s ++ t)).value _ h

theorem reads_range {range : Text} (h : Modifier.IsRange range) (t : Text) :
    Reads read 0 (bracedSpelling ['X'] (':' :: Modifier.source (.index range)))
      (some ((bareOf 'X').withChain [.colon (.index range)])) t := by
  have hrange : Modifier.range? (range ++ [']'] ++ '\x7d' :: t) = some range :=
    Modifier.range?_eq_some_iff.mpr ⟨h, '\x7d' :: t, by simp⟩
  have hread : Reads (Modifier.read (readWithin (maxNesting - 1)) '\x7d' ['X']) 0
      (Modifier.source (.index range)) (some (.index range)) ('\x7d' :: t) :=
    (Modifier.reads_read rfl).mpr
      (.inr ⟨rfl, Modifier.reads_indexForm.mpr (.inl ⟨range, hrange, rfl, rfl⟩)⟩)
  have hbody : Reads (readBody (readWithin (maxNesting - 1)) '\x7d') 0
      ((bareOf 'X').varname ++ [Link.colon (.index range)].flatMap Link.source)
      ((bareOf 'X').name, [.colon (.index range)]) ('\x7d' :: t) :=
    (reads_readBody (readWithin_fits (maxNesting - 1)) .braces).mpr
      ⟨rfl, Modifier.reads_bareName (by decide) _, hread, trivial⟩
  have htext : ((bareOf 'X').withChain [.colon (.index range)]).text =
      bracedSpelling ['X'] (':' :: Modifier.source (.index range)) := by
    rw [withChain, List.flatMap_singleton]
    rfl
  rw [← htext]
  exact reads_withChain hbody

theorem reads_index {range : Text} (h : Modifier.IsIndex range) (t : Text) :
    Reads read 0 (bracedSpelling ['X'] (':' :: Modifier.source (.index range)))
      (some ((bareOf 'X').withChain [.colon (.index range)])) t :=
  reads_range h.isRange t

def separatorFinding (r : Reference) (start : Nat) (s : Text) : Finding :=
  ⟨.invalidSeparator s r.varname, ⟨start, start + Text.byteSize (Modifier.source (.separator s))⟩⟩

section

variable {text : Text} (hread : (read text).outcome = .ok (some r)) {x : Nat × Reference}
  (hx : x ∈ (0, r) :: r.nested 0) {y : Nat × Modifier} (hy : y ∈ x.2.placedModifiers x.1)

include hread hx hy

theorem formed_of_read : y.2.Formed Modifier.IsRange := by
  obtain ⟨s, t, -, -, hreads⟩ := exists_reads_of_outcome hread
  have hself : r.ReadBy (readWithin maxNesting) := ⟨s, t, hreads⟩
  have hmem := mem_modifiers_of_mem_placedModifiers hy
  rcases List.mem_cons.mp hx with rfl | hx
  · exact hself.formed _ hmem
  · obtain ⟨inner, -, hinner⟩ := hself.of_mem_nested hx
    exact hinner.formed _ hmem

theorem separatorFinding_mem_iff {s : Text} (hs : y.2 = .separator s) :
    x.2.separatorFinding y.1 s ∈ (read text).findings ↔
      ¬Modifier.IsSeparator Char.isDigit s := by
  refine ⟨fun hf => (notes_read hread).justified _ hf s _ rfl, fun hinvalid => ?_⟩
  have hmem : ⟨.invalidSeparator s x.2.varname,
      .ofSize (Text.byteSize (Modifier.source (.separator s)))⟩ ∈
        Modifier.separatorFindings x.2.varname y.2 := by
    rw [hs, Modifier.separatorFindings, if_neg (mt Modifier.isSeparator_iff.mp hinvalid)]
    exact List.mem_singleton_self _
  have hfound := (notes_read hread).found x hx y hy _ hmem
  simpa [separatorFinding, Located.shift, Span.shift, Span.ofSize, Nat.add_comm] using hfound

/-- In a reference that was read and in those inside it, flags and loop variables are what they
should be, a range is a mark or a run of digits, hyphens and dots, and a separator is found where it
stands unless it is a character, an escape or a backslash before decimal digits.  So a modifier has
the arguments that it is for, or its separator is found, if and only if a range is what it is for and
the digits behind a backslash are octal. -/
theorem read_arguments :
    y.2.Formed Modifier.IsRange ∧
    (∀ s, y.2 = .separator s → (x.2.separatorFinding y.1 s ∈ (read text).findings ↔
      ¬Modifier.IsSeparator Char.isDigit s)) ∧
    ((y.2.Formed Modifier.IsIndex ∧ ∀ s, y.2 = .separator s →
        Modifier.IsSeparator Modifier.isOctalDigit s ∨
          x.2.separatorFinding y.1 s ∈ (read text).findings) ↔
      (∀ range, y.2 = .index range → Modifier.IsIndex range) ∧
        ∀ digits, y.2 = .separator ('\\' :: digits) → (∀ c ∈ digits, c.isDigit) →
          ∀ c ∈ digits, Modifier.isOctalDigit c) := by
  have hformed := formed_of_read hread hx hy
  have hfound {s : Text} (hs : y.2 = .separator s) := separatorFinding_mem_iff hread hx hy hs
  refine ⟨hformed, fun s hs => hfound hs, ?_, ?_⟩
  · rintro ⟨hindex, hseparator⟩
    refine ⟨fun range hrange => ?_, fun digits hs hdigits => ?_⟩
    · rwa [hrange] at hindex
    · rcases hseparator _ hs with hoctal | hmem
      · exact hoctal.octal_of_digits hdigits
      · exact absurd (.inr (.inr (.inr ⟨digits, rfl, hdigits⟩))) ((hfound hs).mp hmem)
  · rintro ⟨hindex, hoctal⟩
    refine ⟨hformed.of_index hindex, fun s hs => ?_⟩
    by_cases hdecimal : Modifier.IsSeparator Char.isDigit s
    · left
      rcases hdecimal with hone | hbreak | htab | ⟨digits, rfl, hdigits⟩
      · exact .inl hone
      · exact .inr (.inl hbreak)
      · exact .inr (.inr (.inl htab))
      · exact .inr (.inr (.inr ⟨digits, rfl, hoctal digits hs hdigits⟩))
    · exact .inr ((hfound hs).mpr hdecimal)

end

/-- The range of `${X:[2..-1]:tsab}` is what a range is for, and its separator is found. -/
theorem read_arguments_separator :
    ∃ r, (read "$\x7bX:[2..-1]:tsab\x7d".toList).outcome = .ok (some r) ∧
      r.modifiers = [.index "2..-1".toList, .separator "ab".toList] ∧
      Modifier.IsRange "2..-1".toList ∧
      ⟨.invalidSeparator "ab".toList "X".toList, ⟨12, 16⟩⟩ ∈
        (read "$\x7bX:[2..-1]:tsab\x7d".toList).findings := by
  let r : Reference := ⟨.braces, [.literal ['X']],
    [.colon (.index "2..-1".toList), .colon (.separator "ab".toList)],
    "$\x7bX:[2..-1]:tsab\x7d".toList⟩
  have hread : (read r.text).outcome = .ok (some r) := by with_unfolding_all rfl
  have hindex : (4, .index "2..-1".toList) ∈ r.placedModifiers 0 := List.mem_cons_self
  have hseparator : (12, .separator "ab".toList) ∈ r.placedModifiers 0 :=
    List.mem_cons_of_mem _ List.mem_cons_self
  have hrange := read_arguments hread List.mem_cons_self hindex
  have hfound := read_arguments hread List.mem_cons_self hseparator
  have hinvalid : ¬Modifier.IsSeparator Char.isDigit "ab".toList :=
    mt Modifier.isSeparator_iff.mpr (by decide)
  exact ⟨r, hread, rfl, hrange.1, (hfound.2.1 _ rfl).mpr hinvalid⟩

/-- Neither is the range of `${X:[--]}` what a range is for, nor is the separator of `${X:ts\9}` the
octal number of a character, but nothing is found. -/
theorem read_arguments_loose :
    (∃ r, (read "$\x7bX:[--]\x7d".toList).outcome = .ok (some r) ∧
      (read "$\x7bX:[--]\x7d".toList).findings = [] ∧
      r.modifiers = [.index "--".toList] ∧ ¬Modifier.IsIndex "--".toList) ∧
    ∃ r, (read "$\x7bX:ts\\9\x7d".toList).outcome = .ok (some r) ∧
      (read "$\x7bX:ts\\9\x7d".toList).findings = [] ∧
      r.modifiers = [.separator ['\\', '9']] ∧
      ¬Modifier.IsSeparator Modifier.isOctalDigit ['\\', '9'] := by
  let r : Reference := ⟨.braces, [.literal ['X']], [.colon (.index "--".toList)],
    "$\x7bX:[--]\x7d".toList⟩
  let r' : Reference := ⟨.braces, [.literal ['X']], [.colon (.separator ['\\', '9'])],
    "$\x7bX:ts\\9\x7d".toList⟩
  have hread : (read r.text).outcome = .ok (some r) := by with_unfolding_all rfl
  have hread' : (read r'.text).outcome = .ok (some r') := by with_unfolding_all rfl
  refine ⟨⟨r, hread, by with_unfolding_all rfl, rfl, fun hindex => ?_⟩,
    r', hread', by with_unfolding_all rfl, rfl, fun hseparator => ?_⟩
  · obtain ⟨c, hc, hdigit⟩ := hindex.exists_digit (by simp)
    obtain rfl : c = '-' := by simpa using hc
    exact absurd hdigit (by decide)
  · have hdigit : ∀ c ∈ ['9'], c.isDigit := List.forall_mem_singleton.mpr rfl
    exact absurd (hseparator.octal_of_digits hdigit '9' List.mem_cons_self) (by decide)

end Reference

end RecipeLint

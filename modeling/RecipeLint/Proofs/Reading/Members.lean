import RecipeLint.Proofs.Reading.Body
import RecipeLint.Proofs.Reading.Places

/-!
# References inside references

Names and arguments hold no reference but what the reader of references has read among their
characters.  So each reference inside one that was read was itself read somewhere, with fewer
delimiters left to open, and is read again wherever it stands.
-/

namespace RecipeLint

open Reading

def Reference.ReadBy (nested : Reader (Option Reference)) (r : Reference) : Prop :=
  ∃ s t, Reads (fun rest => nested ('$' :: rest)) 1 s (some r) t

def MakeText.AllReadBy (nested : Reader (Option Reference)) (v : MakeText) : Prop :=
  ∀ r, Part.reference r ∈ v → r.ReadBy nested

/-- A property of all make text that is read in references: what is read has it, and it is kept where
literal characters are put in front and where the text is cut in two. -/
structure MakeText.Lasts (nested : Reader (Option Reference)) (P : MakeText → Prop) : Prop where
  read : ∀ {stop pairs s v b t}, Reads (makeText nested stop pairs) 0 s v (b :: t) → P v
  consLiteral : ∀ front {v}, P v → P (consLiteral front v)
  cut : ∀ {c v before behind}, cut? c v = some (before, behind) → P v → P before ∧ P behind
  nil : P []

namespace MakeText

variable {nested : Reader (Option Reference)}

theorem reference_mem_consLiteral {front : Text} {v : MakeText} {r : Reference} :
    Part.reference r ∈ consLiteral front v ↔ Part.reference r ∈ v := by
  unfold consLiteral
  split
  · simp
  · split <;> simp

theorem AllReadBy.consLiteral {v : MakeText} (h : AllReadBy nested v) (front : Text) :
    AllReadBy nested (MakeText.consLiteral front v) :=
  fun r hr => h r (reference_mem_consLiteral.mp hr)

theorem reference_mem_of_cut? {c : Char} {text before behind : MakeText} {r : Reference}
    (h : cut? c text = some (before, behind))
    (hr : Part.reference r ∈ before ∨ Part.reference r ∈ behind) : Part.reference r ∈ text := by
  fun_induction cut? c text generalizing before with
  | case1 => simp at h
  | case2 chars parts hmem =>
    obtain ⟨rfl, rfl⟩ := Prod.mk.inj (Option.some.inj h)
    simpa [reference_mem_consLiteral] using hr
  | case3 chars parts hmem ih =>
    obtain ⟨⟨b, a⟩, hcut, heq⟩ := Option.map_eq_some_iff.mp h
    obtain ⟨rfl, rfl⟩ := Prod.mk.inj heq
    exact List.mem_cons_of_mem _ (ih hcut (hr.imp_left fun h => by simpa using h))
  | case4 part parts hpart ih =>
    obtain ⟨⟨b, a⟩, hcut, heq⟩ := Option.map_eq_some_iff.mp h
    obtain ⟨rfl, rfl⟩ := Prod.mk.inj heq
    rw [List.mem_cons] at hr ⊢
    rcases hr with (hr | hr) | hr
    · exact .inl hr
    · exact .inr (ih hcut (.inl hr))
    · exact .inr (ih hcut (.inr hr))

end MakeText

section

variable {nested : Reader (Option Reference)} {stop : Char → Bool} {pairs : Bool} {s t : Text}
  {v : MakeText} {b : Char}

theorem Pieces.allReadBy (h : Pieces nested stop pairs b t s v) : MakeText.AllReadBy nested v := by
  induction h with
  | stop => exact fun r hr => by simp at hr
  | @reference front s r v hpair hread h ih =>
    intro r' hr'
    rcases List.mem_cons.mp hr' with heq | hmem
    · obtain rfl := Part.reference.inj heq
      exact ⟨front, _, hread⟩
    · exact ih r' hmem
  | _ => exact MakeText.AllReadBy.consLiteral ‹_› _

theorem MakeText.lasts_allReadBy (hfits : FitsDollar nested) :
    Lasts nested (AllReadBy nested) where
  read h := (pieces_of_reads hfits h).allReadBy
  consLiteral front _ h := h.consLiteral front
  cut hcut h := ⟨fun r hr => h r (reference_mem_of_cut? hcut (.inl hr)),
    fun r hr => h r (reference_mem_of_cut? hcut (.inr hr))⟩
  nil r hr := by simp at hr

end

namespace Modifier

def AllTexts (P : MakeText → Prop) (m : Modifier) : Prop :=
  ∀ v ∈ m.arguments, P v

variable {nested : Reader (Option Reference)} {P : MakeText → Prop}
  (hlasts : MakeText.Lasts nested P) {close b : Char} {name s t : Text} {m : Modifier}

include hlasts

theorem allTexts_of_general {v : MakeText} (hv : P v) (h : general name v = .ok (some m)) :
    m.AllTexts P := by
  obtain ⟨old, new, hcut, rfl⟩ := general_eq_some_iff.mp h
  obtain ⟨hold, hnew⟩ := hlasts.cut hcut hv
  intro w hw
  simp only [arguments, List.mem_cons, List.not_mem_nil, or_false] at hw
  rcases hw with rfl | rfl
  · exact hold
  · exact hnew

theorem allTexts_of_readGeneral
    (h : Reads (readGeneral nested close name) 0 s (some m) (b :: t)) : m.AllTexts P := by
  obtain ⟨v, hv, hm⟩ := reads_readGeneral.mp h
  exact allTexts_of_general hlasts (hlasts.read hv) hm

theorem allTexts_of_separatorForm (hfits : FitsDollar nested)
    (h : Reads (separatorForm nested close name) 1 s (some m) (b :: t)) : m.AllTexts P := by
  by_cases hs : ∃ s', s = 's' :: s'
  · obtain ⟨s, rfl⟩ := hs
    obtain ⟨rfl, -⟩ := (reads_readSeparator hfits).mp ((reads_separatorForm s).mp h)
    exact fun v hv => by simp [arguments] at hv
  · rw [not_exists] at hs
    exact allTexts_of_readGeneral hlasts ((reads_separatorForm_of_ne hs).mp h).2

theorem allTexts_of_readChoice
    (h : Reads (readChoice nested close name) 1 s (some m) (b :: t)) : m.AllTexts P := by
  rcases reads_readChoice.mp h with ⟨s₁, s₂, yes, no, rfl, rfl, hyes, hno⟩ | ⟨v, hb, hv, hm⟩
  · intro v hv
    simp only [arguments, List.mem_cons, List.not_mem_nil, or_false] at hv
    rcases hv with rfl | rfl
    · exact hlasts.read hyes
    · exact hlasts.read hno
  · exact allTexts_of_general hlasts (hlasts.consLiteral _ (hlasts.read hv)) hm

theorem allTexts_of_readCommand
    (h : Reads (readCommand nested close name) 1 s (some m) (b :: t)) : m.AllTexts P := by
  obtain ⟨v, ⟨s, rfl, rfl, hv⟩ | ⟨hb, hv, hcolon, hm⟩⟩ := reads_readCommand.mp h
  · intro w hw
    obtain rfl := List.mem_singleton.mp hw
    exact hlasts.read hv
  · exact allTexts_of_general hlasts (hlasts.consLiteral _ (hlasts.read hv)) hm

theorem allTexts_of_indexForm
    (h : Reads (indexForm nested close name) 1 s (some m) (b :: t)) : m.AllTexts P := by
  rcases reads_indexForm.mp h with ⟨range, hrange, rfl, rfl⟩ | ⟨hrange, hgeneral⟩
  · exact fun v hv => by simp [arguments] at hv
  · exact allTexts_of_readGeneral hlasts hgeneral

theorem allTexts_of_loopForm
    (h : Reads (loopForm nested close name) 1 s (some m) (b :: t)) : m.AllTexts P := by
  rcases reads_loopForm.mp h with ⟨loopVariable, s, hloop, rfl, hread⟩ | ⟨hloop, hgeneral⟩
  · obtain ⟨v, ⟨s, rfl, rfl, hv⟩ | ⟨hb, rfl, hv⟩⟩ := reads_readLoop.mp hread
    all_goals
      intro w hw
      obtain rfl := List.mem_singleton.mp hw
      exact hlasts.read hv
  · exact allTexts_of_readGeneral hlasts hgeneral

theorem allTexts_of_assignForm
    (h : Reads (assignForm nested close) 1 s (some m) (b :: t)) : m.AllTexts P := by
  obtain ⟨op, s', v, hop, hs, rfl, hv⟩ := reads_assignForm.mp h
  intro w hw
  obtain rfl := List.mem_singleton.mp hw
  exact hlasts.read hv

theorem allTexts_of_substitutionForm (letter : Char)
    (h : Reads (substitutionForm nested close name letter) 1 s (some m) (b :: t)) :
    m.AllTexts P := by
  obtain ⟨bound, rest, hrest, hform⟩ := (reads_substitutionForm letter).mp h
  split at hform
  case isTrue => exact allTexts_of_readGeneral hlasts hform
  case isFalse =>
    obtain ⟨s, rfl, hread⟩ := hform
    obtain ⟨s₁, s₂, flags, old, new, -, rfl, -, -, hold, hnew⟩ := reads_readSubstitution.mp hread
    have hold : P old := by
      rcases reads_readOld.mp hold with ⟨s', v', -, rfl, hv⟩ | ⟨-, hv⟩
      · exact hlasts.consLiteral _ (hlasts.read hv)
      · exact hlasts.read hv
    intro v hv
    simp only [arguments, List.mem_cons, List.not_mem_nil, or_false] at hv
    rcases hv with rfl | rfl
    · exact hold
    · exact hlasts.read hnew

theorem allTexts_of_argumentForm (letter : Char) (build : MakeText → Modifier)
    (hbuild : ∀ v, ∀ w ∈ (build v).arguments, w = v ∨ w = [])
    (h : Reads
      (fun rest => ((argument nested close true rest).map (some <| build ·)).after [letter])
      1 s (some m) (b :: t)) : m.AllTexts P := by
  obtain ⟨v, hv, rfl⟩ := (reads_argumentForm letter build).mp h
  intro w hw
  rcases hbuild v w hw with rfl | rfl
  · exact hlasts.read hv
  · exact hlasts.nil

theorem allTexts_of_readForm (hfits : FitsDollar nested) (first : Char)
    (h : Reads (readForm nested close name first) 1 s (some m) (b :: t)) : m.AllTexts P := by
  revert h
  unfold readForm
  split
  case h_1 | h_2 | h_3 | h_4 | h_5 =>
    exact allTexts_of_argumentForm hlasts _ _ fun v w hw => by simp [arguments] at hw; tauto
  case h_6 => exact allTexts_of_separatorForm hlasts hfits
  case h_7 => exact allTexts_of_readChoice hlasts
  case h_8 => exact allTexts_of_readCommand hlasts
  case h_9 => exact allTexts_of_indexForm hlasts
  case h_10 => exact allTexts_of_loopForm hlasts
  case h_11 => exact allTexts_of_assignForm hlasts
  case h_12 | h_13 => exact allTexts_of_substitutionForm hlasts _
  case h_14 => exact fun h => allTexts_of_readGeneral hlasts ((reads_cons first).mpr h)

theorem allTexts_of_read (hfits : FitsDollar nested)
    (h : Reads (read nested close name) 0 s (some m) (b :: t)) : m.AllTexts P := by
  have hsource : m.source = s := source_of_read hfits h
  cases s with
  | nil => exact absurd hsource (source_ne_nil m)
  | cons c s =>
    rcases (reads_read rfl).mp h with ⟨hword, -⟩ | ⟨-, hform⟩
    · obtain rfl | ⟨op, rfl⟩ := word_of_ofWord? hword
      all_goals exact fun v hv => by simp [arguments] at hv
    · exact allTexts_of_readForm hlasts hfits c hform

end Modifier

theorem Link.AllStand.exists_reads {nested : Reader (Option Reference)} {close b : Char}
    {name t : Text} {mayJoin : Bool} {chain : List Link}
    (h : AllStand nested close name mayJoin (b :: t) chain) : ∀ m ∈ chain.filterMap modifier?,
      ∃ c rest, Reads (Modifier.read nested close name) 0 m.source (some m) (c :: rest) := by
  induction chain generalizing mayJoin with
  | nil => exact fun m hm => by simp at hm
  | cons link chain ih =>
    obtain ⟨hstands, hrest⟩ := h
    obtain ⟨c, rest, hc⟩ : ∃ c rest, chain.flatMap source ++ b :: t = c :: rest := by
      cases chain.flatMap source <;> simp
    rw [hc] at hstands
    have hself {m : Modifier} (hm : link.modifier? = some m) :
        Reads (Modifier.read nested close name) 0 m.source (some m) (c :: rest) := by
      cases link with
      | empty => simp [modifier?] at hm
      | colon m' =>
        obtain rfl := Option.some.inj hm
        exact hstands
      | joined m' =>
        obtain rfl := Option.some.inj hm
        exact hstands.2.2
    intro m hmem
    obtain ⟨link', hlink', hm⟩ := List.mem_filterMap.mp hmem
    rcases List.mem_cons.mp hlink' with rfl | hlink'
    · exact ⟨c, rest, hself hm⟩
    · exact ih hrest m (List.mem_filterMap.mpr ⟨link', hlink', hm⟩)

theorem Link.AllStand.allTexts {nested : Reader (Option Reference)} (hfits : FitsDollar nested)
    {P : MakeText → Prop} (hlasts : MakeText.Lasts nested P) {close b : Char} {name t : Text}
    {mayJoin : Bool} {chain : List Link} (h : AllStand nested close name mayJoin (b :: t) chain) :
    ∀ m ∈ chain.filterMap modifier?, m.AllTexts P := by
  intro m hm
  obtain ⟨c, rest, hread⟩ := h.exists_reads m hm
  exact Modifier.allTexts_of_read hlasts hfits hread

/-! ## Depth -/

namespace Reference

variable {levels start : Nat} {r : Reference}

/-- The make text of a reference in delimiters was read with fewer delimiters left to open. -/
theorem ReadBy.placedTexts (h : r.ReadBy (readWithin levels)) :
    (∃ inner < levels, ∀ P, MakeText.Lasts (readWithin inner) P →
      ∀ x ∈ r.placedTexts start, P x.2) ∨ ∃ c, r = bareOf c := by
  obtain ⟨s, t, hread⟩ := h
  rcases reads_readWithin.mp hread with
    ⟨inner, delimiter, opening, close, s', name, chain, rfl, hwrites, -, rfl, hbody⟩ |
    ⟨c, -, -, rfl⟩
  · refine .inl ⟨inner, Nat.lt_succ_self inner, fun P hlasts x hx => ?_⟩
    have hfits := readWithin_fits inner
    obtain ⟨-, hname, hstand⟩ := (reads_readBody hfits hwrites.opens).mp hbody
    rcases mem_of_mem_placedTexts hx with hx | ⟨m, hm, hx⟩
    · obtain ⟨b, rest, hb, -⟩ := head_of_allStand hstand
      rw [hb] at hname
      exact hx ▸ hlasts.read hname
    · exact hstand.allTexts hfits hlasts m hm _ hx
  · exact .inr ⟨c, rfl⟩

theorem ReadBy.of_mem_placed {x : Nat × Reference} (h : r.ReadBy (readWithin levels))
    (hx : x ∈ r.placed start) : ∃ inner < levels, x.2.ReadBy (readWithin inner) := by
  obtain ⟨y, hy, hx⟩ := List.mem_flatMap.mp hx
  rcases h.placedTexts with ⟨inner, hlt, hlasts⟩ | ⟨c, rfl⟩
  · have hall := hlasts _ (MakeText.lasts_allReadBy (readWithin_fits inner)) y hy
    exact ⟨inner, hlt, hall _ (MakeText.mem_of_mem_placed hx)⟩
  · obtain rfl := List.mem_singleton.mp hy
    simp [bareOf, MakeText.placed] at hx

/-- A reference inside one that was read was read with fewer delimiters left to open. -/
theorem ReadBy.of_mem_nested {q : Nat × Reference} (h : r.ReadBy (readWithin levels))
    (hq : q ∈ r.nested start) : ∃ inner < levels, q.2.ReadBy (readWithin inner) := by
  induction levels using Nat.strong_induction_on generalizing r start with
  | h levels ih =>
    rw [nested_eq] at hq
    obtain ⟨x, hx, hq⟩ := List.mem_flatMap.mp hq
    obtain ⟨inner, hlt, hinner⟩ := h.of_mem_placed hx
    rcases List.mem_cons.mp hq with rfl | hq
    · exact ⟨inner, hlt, hinner⟩
    · obtain ⟨innermost, hlt', hread⟩ := ih inner hlt hinner hq
      exact ⟨innermost, Nat.lt_trans hlt' hlt, hread⟩

end Reference

end RecipeLint

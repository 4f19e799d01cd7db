import RecipeLint.Proofs.Reading.Source
import RecipeLint.Settings

/-!
# Leaving findings out

Findings of some causes can be left out of a reading afterwards, or while the references inside are
read: what a reader takes and what it makes of it never depends on what was found.  So a reading that
asks a setting before it says something about round parentheses is the full one without these
findings.
-/

namespace RecipeLint

/-- What is found about a reference that was read: its spelling is doubtful. -/
def Cause.isSpelling : Cause → Bool
  | ambiguousName _ | invalidNamePart .. | invalidSeparator .. | unclosedLoop .. => true
  | _ => false

/-- Some causes are kept as the settings have it: all that are about spelling, but those about style
only with the setting for it. -/
structure Settings.Allows (settings : Settings) (keep : Cause → Bool) : Prop where
  spelling : ∀ c, c.isSpelling → keep c
  style : ∀ c, c.isStyle → keep c = settings.warnStyle

namespace Reading

variable {α β : Type} (keep : Cause → Bool)

def pick (r : Reading α) : Reading α :=
  { r with findings := r.findings.filter fun f => keep f.value }

@[simp] theorem taken_pick (r : Reading α) : (r.pick keep).taken = r.taken := rfl

@[simp] theorem outcome_pick (r : Reading α) : (r.pick keep).outcome = r.outcome := rfl

@[simp] theorem findings_pick (r : Reading α) :
    (r.pick keep).findings = r.findings.filter fun f => keep f.value := rfl

@[simp] theorem pick_take (count : Nat) (v : α) :
    (Reading.take count v).pick keep = .take count v := rfl

@[simp] theorem pick_done (v : α) : (Reading.done v).pick keep = .done v := rfl

@[simp] theorem pick_map (f : α → β) (r : Reading α) :
    (r.map f).pick keep = (r.pick keep).map f := rfl

@[simp] theorem pick_judge (f : α → Except (Located ReferenceFailure) β) (r : Reading α) :
    (r.judge f).pick keep = (r.pick keep).judge f := rfl

@[simp] theorem pick_after (front : Text) (r : Reading α) :
    (r.after front).pick keep = (r.pick keep).after front := by
  simp only [pick, Reading.after, List.filter_map]
  rfl

@[simp] theorem pick_literal (front : Text) (r : Reading MakeText) :
    (r.literal front).pick keep = (r.pick keep).literal front := by
  simp only [Reading.literal, pick_after, pick_map]

@[simp] theorem pick_andThen (first : Reading α) (front : Text) (second : Reading β) :
    (first.andThen front second).pick keep =
      (first.pick keep).andThen front (second.pick keep) := by
  simp only [Reading.andThen, ← pick_after]
  simp only [pick, List.filter_append]

theorem pick_followedBy (first : Reading α) (text : Text) (next : α → Reader β) :
    (first.followedBy text next).pick keep =
      (first.pick keep).followedBy text fun v rest => (next v rest).pick keep := by
  cases h : first.outcome <;> simp only [Reading.followedBy, outcome_pick, h, pick_andThen,
    taken_pick]
  rfl

variable {keep}

theorem pick_found {findings : List Finding} (r : Reading α)
    (h : ∀ f ∈ findings, keep f.value) :
    (r.found findings).pick keep = (r.pick keep).found findings := by
  simp only [pick, Reading.found, List.filter_append, List.filter_eq_self.mpr h]

theorem pick_noting {findings : α → List Finding} (r : Reading α)
    (h : ∀ v, ∀ f ∈ findings v, keep f.value) :
    (r.noting findings).pick keep = (r.pick keep).noting findings := by
  cases hr : r.outcome <;> simp only [Reading.noting, outcome_pick, hr, pick_found r (h _)]

end Reading

/-! ## Make text and modifiers -/

section

variable (keep : Cause → Bool) (nested : Reader (Option Reference))

def Reader.pick {α : Type} (read : Reader α) : Reader α :=
  fun text => (read text).pick keep

theorem makeText_pick (stop : Char → Bool) (pairs : Bool) (text : Text) :
    makeText (Reader.pick keep nested) stop pairs text =
      (makeText nested stop pairs text).pick keep := by
  fun_induction makeText nested stop pairs text with
  | case1 => rw [makeText, Reading.pick_done]
  | case2 rest ih => rw [makeText, ih, Reading.pick_literal]
  | case3 rest hdollar inner reference hread ih =>
    have hpicked : (Reader.pick keep nested ('$' :: rest)).outcome = .ok (some reference) := hread
    rw [makeText, hpicked, Reading.pick_andThen, Reading.pick_map, ← ih]
    · rfl
    · exact hdollar
  | case4 rest hdollar inner hread ih =>
    have hpicked : (Reader.pick keep nested ('$' :: rest)).outcome = .ok none := hread
    rw [makeText, hpicked, ih, Reading.pick_literal]
    exact hdollar
  | case5 rest hdollar inner c span hread ih =>
    have hpicked : (Reader.pick keep nested ('$' :: rest)).outcome =
      .error ⟨.loneDollar c, span⟩ := hread
    rw [makeText, hpicked, ih, Reading.pick_literal]
    exact hdollar
  | case6 rest hdollar inner failure hlone hread =>
    have hpicked : (Reader.pick keep nested ('$' :: rest)).outcome = .error failure := hread
    rw [makeText, hpicked]
    · split
      case h_1 h | h_2 h => simp at h
      case h_3 c span h => exact absurd (Except.error.inj h) (hlone c span)
      case h_4 h =>
        obtain rfl := Except.error.inj h
        rfl
    · exact hdollar
  | case7 c rest hstop => rw [makeText, if_pos hstop, Reading.pick_done]
  | case8 c rest hstop hpairs ih =>
    rw [makeText, if_neg hstop, if_pos hpairs, ih, Reading.pick_literal]
  | case9 c rest hstop hpairs ih =>
    rw [makeText, if_neg hstop, if_neg hpairs, ih, Reading.pick_literal]
  | case10 c rest hdollars hdollar hescape hstop =>
    rw [makeText, if_pos hstop, Reading.pick_done] <;> assumption
  | case11 c rest hdollars hdollar hescape hstop ih =>
    rw [makeText, if_neg hstop, ih, Reading.pick_literal] <;> assumption

namespace Modifier

variable (close : Char) (name : Text)

theorem argument_pick (pairs : Bool) (text : Text) :
    argument (Reader.pick keep nested) close pairs text =
      (argument nested close pairs text).pick keep :=
  makeText_pick keep nested _ pairs text

theorem readGeneral_pick (text : Text) :
    readGeneral (Reader.pick keep nested) close name text =
      (readGeneral nested close name text).pick keep := by
  rw [readGeneral, argument_pick]
  rfl

theorem readOld_pick (bound : Char) (text : Text) :
    readOld (Reader.pick keep nested) close bound text =
      (readOld nested close bound text).pick keep := by
  unfold readOld
  split
  · rw [readHalf, makeText_pick, Reading.pick_literal]
    rfl
  · exact makeText_pick keep nested _ true text

theorem readSubstitution_pick (regex : Bool) (bound : Char) (text : Text) :
    readSubstitution (Reader.pick keep nested) close regex bound text =
      (readSubstitution nested close regex bound text).pick keep := by
  rw [readSubstitution, readSubstitution, Reading.pick_followedBy, readOld_pick]
  congr 1
  funext old rest
  split
  · rfl
  · split
    · rw [readHalf, makeText_pick, Reading.pick_after, Reading.pick_followedBy]
      congr 2
      funext new rest
      split
      · rfl
      · split <;> rfl
    · rfl

theorem substitutionForm_pick (letter : Char) (rest : Text) :
    substitutionForm (Reader.pick keep nested) close name letter rest =
      (substitutionForm nested close name letter rest).pick keep := by
  unfold substitutionForm
  split
  · exact readGeneral_pick keep nested close name _
  · split
    · exact readGeneral_pick keep nested close name _
    · rw [readSubstitution_pick, ← Reading.pick_after, Reading.pick_judge]
      rfl

theorem readChoice_pick (text : Text) :
    readChoice (Reader.pick keep nested) close name text =
      (readChoice nested close name text).pick keep := by
  rw [readChoice, readChoice, Reading.pick_judge, Reading.pick_after, Reading.pick_followedBy,
    argument_pick]
  congr 3
  funext yes rest
  split
  · rw [argument_pick, Reading.pick_after, Reading.pick_map]
  · rfl

theorem readCommand_pick (text : Text) :
    readCommand (Reader.pick keep nested) close name text =
      (readCommand nested close name text).pick keep := by
  rw [readCommand, readCommand, Reading.pick_judge, Reading.pick_after, Reading.pick_followedBy,
    makeText_pick]
  congr 3
  funext command rest
  split <;> rfl

theorem indexForm_pick (rest : Text) :
    indexForm (Reader.pick keep nested) close name rest =
      (indexForm nested close name rest).pick keep := by
  unfold indexForm
  split
  · rfl
  · exact readGeneral_pick keep nested close name _

theorem assignForm_pick (rest : Text) :
    assignForm (Reader.pick keep nested) close rest = (assignForm nested close rest).pick keep := by
  unfold assignForm
  split
  · rw [argument_pick, Reading.pick_after, Reading.pick_map]
  · rfl

variable {keep} (hkeep : ∀ c, c.isSpelling → keep c)

include hkeep

theorem separatorForm_pick (rest : Text) :
    separatorForm (Reader.pick keep nested) close name rest =
      (separatorForm nested close name rest).pick keep := by
  have hfindings (m : Modifier) : ∀ f ∈ separatorFindings name m, keep f.value := by
    unfold separatorFindings
    split
    · split
      · simp
      · simpa using hkeep _ rfl
    · simp
  have hread (text : Text) : readSeparator (Reader.pick keep nested) close text =
      (readSeparator nested close text).pick keep := by
    rw [readSeparator, readSeparator, Reading.pick_followedBy, argument_pick]
    congr 1
    funext value rest
    split <;> rfl
  unfold separatorForm
  split
  · rw [hread, Reading.pick_map, Reading.pick_noting _ hfindings, Reading.pick_after]
  · exact readGeneral_pick keep nested close name _

theorem loopForm_pick (rest : Text) :
    loopForm (Reader.pick keep nested) close name rest =
      (loopForm nested close name rest).pick keep := by
  have hfindings (m : Modifier) : ∀ f ∈ loopFindings name m, keep f.value := by
    unfold loopFindings
    split
    · simpa using hkeep _ rfl
    · simp
  have hread (loopVariable text : Text) :
      readLoop (Reader.pick keep nested) close loopVariable text =
        (readLoop nested close loopVariable text).pick keep := by
    rw [readLoop, readLoop, Reading.pick_followedBy, makeText_pick]
    congr 1
    funext body rest
    split <;> rfl
  unfold loopForm
  split
  · rw [hread, Reading.pick_map, Reading.pick_noting _ hfindings, Reading.pick_after]
  · exact readGeneral_pick keep nested close name _

theorem readForm_pick (first : Char) (rest : Text) :
    readForm (Reader.pick keep nested) close name first rest =
      (readForm nested close name first rest).pick keep := by
  unfold readForm
  split
  case h_1 | h_2 | h_3 | h_4 | h_5 =>
    rw [argument_pick, Reading.pick_after, Reading.pick_map]
  case h_6 => exact separatorForm_pick nested close name hkeep rest
  case h_7 => exact readChoice_pick keep nested close name rest
  case h_8 => exact readCommand_pick keep nested close name rest
  case h_9 => exact indexForm_pick keep nested close name rest
  case h_10 => exact loopForm_pick nested close name hkeep rest
  case h_11 => exact assignForm_pick keep nested close rest
  case h_12 | h_13 => exact substitutionForm_pick keep nested close name _ rest
  case h_14 => exact readGeneral_pick keep nested close name _

theorem read_pick (text : Text) :
    read (Reader.pick keep nested) close name text = (read nested close name text).pick keep := by
  unfold read
  extract_lets word
  split
  · rfl
  · rfl
  · exact readForm_pick nested close name hkeep _ _

end Modifier

namespace Reference

variable {keep} (hkeep : ∀ c, c.isSpelling → keep c) (close : Char)

include hkeep

theorem readChain_pick (name : Text) (mayJoin : Bool) (text : Text) :
    readChain (Reader.pick keep nested) close name mayJoin text =
      (readChain nested close name mayJoin text).pick keep := by
  have hread (text : Text) := Modifier.read_pick nested close name hkeep text
  fun_induction readChain nested close name mayJoin text with
  | case1 => rw [readChain, Reading.pick_done]
  | case2 mayJoin rest step failure hstep =>
    have hpicked : (Modifier.read (Reader.pick keep nested) close name rest).outcome =
      .error failure := by rw [hread]; exact hstep
    rw [readChain, Reading.pick_after]
    simp only [hpicked]
    rw [hread]
    rfl
  | case3 mayJoin rest step modifier? hstep ih =>
    have hpicked : (Modifier.read (Reader.pick keep nested) close name rest).outcome =
      .ok modifier? := by rw [hread]; exact hstep
    rw [readChain, Reading.pick_after, Reading.pick_map, Reading.pick_andThen, ← ih]
    simp only [hpicked]
    rw [hread]
    rfl
  | case4 c rest hcolon step failure hstep =>
    have hpicked : (Modifier.read (Reader.pick keep nested) close name (c :: rest)).outcome =
      .error failure := by rw [hread]; exact hstep
    rw [readChain]
    · simp only [hpicked, if_true]
      rw [hread]
      rfl
    · assumption
  | case5 c rest hcolon step hstep =>
    have hpicked : (Modifier.read (Reader.pick keep nested) close name (c :: rest)).outcome =
      .ok none := by rw [hread]; exact hstep
    rw [readChain]
    · simp only [hpicked, if_true]
      rfl
    · assumption
  | case6 c rest hcolon step modifier hstep ih =>
    have hpicked : (Modifier.read (Reader.pick keep nested) close name (c :: rest)).outcome =
      .ok (some modifier) := by rw [hread]; exact hstep
    rw [readChain]
    · simp only [hpicked, if_true]
      rw [Reading.pick_map, Reading.pick_andThen, ← ih, hread]
      rfl
    · assumption
  | case7 mayJoin c rest hcolon hjoin =>
    rw [readChain]
    · simp [hjoin]
    · assumption

theorem readBody_pick (text : Text) :
    readBody (Reader.pick keep nested) close text = (readBody nested close text).pick keep := by
  rw [readBody, readBody, Reading.pick_followedBy, makeText_pick]
  congr 1
  funext name rest
  rw [readChain_pick nested hkeep, Reading.pick_map]

end Reference

end

/-! ## References -/

namespace Reference

section

variable (settings : Settings)

def endDelimitedFor (close : Char) (delimiter : Delimiter) (text : Text)
    (body : Reading (MakeText × List Link)) : Reading Reference :=
  let rest := text.drop body.taken
  let toClose := closeLength [close] rest
  match body.outcome with
  | .error failure => ⟨body.taken + toClose, body.findings, .error failure⟩
  | .ok (name, chain) =>
    match rest with
    | [] =>
      let failure := ReferenceFailure.missingClose close (MakeText.source name)
      ⟨body.taken, body.findings, .error ⟨failure, .ofSize (Text.byteSize text)⟩⟩
    | c :: _ =>
      if c = close then
        let r : Reference := ⟨delimiter, name, chain, text.take (body.taken + 1)⟩
        let style := if settings.warnStyle then r.styleFindings else []
        ⟨body.taken + 1, body.findings ++ r.nameFindings ++ style, .ok r⟩
      else
        let junk := rest.take toClose
        let failure :=
          ReferenceFailure.invalidModifier (Text.withoutEnding [close] junk) (MakeText.source name)
        let span := Span.shift (Text.byteSize (text.take body.taken)) (.ofSize (Text.byteSize junk))
        ⟨body.taken + toClose, body.findings, .error ⟨failure, span⟩⟩

def readDelimitedFor (nested : Reader (Option Reference)) (close : Char) (delimiter : Delimiter)
    (text : Text) : Reading Reference :=
  endDelimitedFor settings close delimiter text
    ((readBody nested close (text.drop 2)).after (text.take 2))

def readWithinFor : (levels : Nat) → Reader (Option Reference)
  | 0 => readDollar fun _ close => skipDelimited close
  | levels + 1 =>
    readDollar fun delimiter close =>
      readDelimitedFor settings (readWithinFor levels) close delimiter

def readFor : Reader (Option Reference) :=
  readWithinFor settings maxNesting

end

variable {settings : Settings} {keep : Cause → Bool}

theorem endDelimited_pick (h : settings.Allows keep) (close : Char) (delimiter : Delimiter)
    (text : Text) (body : Reading (MakeText × List Link)) :
    (endDelimited close delimiter text body).pick keep =
      endDelimitedFor settings close delimiter text (body.pick keep) := by
  have hname (r : Reference) : r.nameFindings.filter (fun f => keep f.value) = r.nameFindings := by
    unfold nameFindings
    split
    · rfl
    · rename_i valid invalid _ _
      simp [h.spelling (.invalidNamePart valid invalid) rfl]
  have hstyle (r : Reference) : r.styleFindings.filter (fun f => keep f.value) =
      if settings.warnStyle then r.styleFindings else [] := by
    unfold styleFindings
    split
    · simp [h.style (.roundParentheses r.varname r.modifierText) rfl, List.filter_cons]
    · simp
  unfold endDelimited endDelimitedFor
  simp only [Reading.taken_pick, Reading.outcome_pick, Reading.findings_pick]
  cases body.outcome with
  | error failure => rfl
  | ok read =>
    cases text.drop body.taken with
    | nil => rfl
    | cons c behind =>
      dsimp only
      split
      · simp only [Reading.pick, List.filter_append, hname, hstyle]
      · rfl

theorem readDollar_pick {delimited delimited' : Delimiter → Char → Reader Reference}
    (hkeep : ∀ c, c.isSpelling → keep c)
    (h : ∀ delimiter close text,
      (delimited delimiter close text).pick keep = delimited' delimiter close text) (text : Text) :
    (readDollar delimited text).pick keep = readDollar delimited' text := by
  unfold readDollar
  split
  case h_1 | h_5 => rfl
  case h_2 | h_3 => rw [Reading.pick_map, h]
  case h_4 c rest _ _ _ =>
    unfold readBare
    extract_lets r
    split_ifs
    · exact Reading.pick_found _ (by simpa using hkeep _ rfl)
    · rfl
    · rfl

/-- A reading that asks the settings on the way is the full one without the findings that they turn
off. -/
theorem readWithin_pick (h : settings.Allows keep) (levels : Nat) (text : Text) :
    (readWithin levels text).pick keep = readWithinFor settings levels text := by
  induction levels generalizing text with
  | zero => exact readDollar_pick h.spelling (fun _ _ _ => rfl) text
  | succ levels ih =>
    refine readDollar_pick h.spelling (fun delimiter close text => ?_) text
    have hnested : Reader.pick keep (readWithin levels) = readWithinFor settings levels :=
      funext ih
    rw [readDelimited, endDelimited_pick h, readDelimitedFor, Reading.pick_after,
      ← readBody_pick _ h.spelling, hnested]

theorem readWithinFor_all (levels : Nat) (text : Text) :
    readWithinFor .all levels text = readWithin levels text := by
  have hall : Settings.all.Allows fun _ => true := ⟨fun _ _ => rfl, fun _ _ => rfl⟩
  rw [← readWithin_pick hall, Reading.pick, List.filter_eq_self.mpr fun _ _ => rfl]

/-- Reading a reference finds nothing but what is about its spelling. -/
theorem keep_of_mem_readWithin (keep : Cause → Bool) (hspelling : ∀ c, c.isSpelling → keep c)
    (hstyle : ∀ c, c.isStyle → keep c) {levels : Nat} {text : Text} {f : Finding}
    (hf : f ∈ (readWithin levels text).findings) : keep f.value := by
  have hall : Settings.all.Allows keep := ⟨hspelling, hstyle⟩
  have hfindings := congrArg Reading.findings (readWithin_pick hall levels text)
  rw [readWithinFor_all] at hfindings
  exact List.filter_eq_self.mp hfindings f hf

end Reference

end RecipeLint

import Mathlib.Algebra.GroupWithZero.Nat
import RecipeLint.Proofs.Reading.Chain
import RecipeLint.Proofs.Reading.Places
import RecipeLint.Proofs.Reading.Spread

/-!
# Progress

Reading a reference takes nothing where there is none, and otherwise some characters: those of the
reference, or those among which it failed.

The modifiers of a reference are read in a loop, which may go on without a colon behind a
substitution and may find no modifier where it goes on.  A pass of the loop takes a character unless
both come together, and then it is the last one.
-/

namespace RecipeLint

open Reading

/-! ## One pass -/

/-- What one pass of the loop over modifiers does: it takes a colon or goes on without one, and reads
a modifier from there. -/
structure Pass where
  colon : Bool
  step : Reading (Option Modifier)

namespace Pass

def front (p : Pass) : Text :=
  if p.colon then [':'] else []

def taken (p : Pass) : Nat :=
  p.front.length + p.step.taken

def links (p : Pass) (m? : Option Modifier) : List Link :=
  if p.colon then [.ofColon m?] else m?.toList.map .joined

/-- Whether the pass found neither a colon nor a modifier. -/
def Idle (p : Pass) : Prop :=
  p.colon = false ∧ p.step.outcome = .ok none

end Pass

section

variable (nested : Reader (Option Reference)) (close : Char) (name : Text)

/-- The pass that the loop makes in front of a text.  Without a colon it makes one only where a
modifier may be joined to the one before. -/
def Pass.next? (mayJoin : Bool) (text : Text) : Option Pass :=
  match text with
  | ':' :: rest => some ⟨true, Modifier.read nested close name rest⟩
  | _ => if mayJoin then some ⟨false, Modifier.read nested close name text⟩ else none

/-- The passes that the loop makes until it ends or fails, and what it has read then. -/
inductive Loops : (mayJoin : Bool) → Text → List Pass → Reading (List Link) → Prop
  | stop {mayJoin : Bool} {text : Text} (hnext : Pass.next? nested close name mayJoin text = none) :
      Loops mayJoin text [] (.done [])
  | fail {mayJoin : Bool} {text : Text} {p : Pass} {e : Located ReferenceFailure}
      (hnext : Pass.next? nested close name mayJoin text = some p) (he : p.step.outcome = .error e) :
      Loops mayJoin text [p] (Reading.after p.front ⟨p.step.taken, p.step.findings, .error e⟩)
  | go {mayJoin : Bool} {text : Text} {p : Pass} {m? : Option Modifier} {ps : List Pass}
      {r : Reading (List Link)} (hnext : Pass.next? nested close name mayJoin text = some p)
      (hm : p.step.outcome = .ok m?)
      (hrest : Loops (m?.any Modifier.isSubstitution) (text.drop p.taken) ps r) :
      Loops mayJoin text (p :: ps)
        (((p.step.andThen ((text.drop p.front.length).take p.step.taken) r).map
          (p.links m? ++ ·)).after p.front)

end

section

variable {nested : Reader (Option Reference)} {close : Char} {name text : Text} {mayJoin : Bool}
  {p : Pass} {ps ps' : List Pass} {r r' : Reading (List Link)}

theorem Pass.next?_colon (rest : Text) : next? nested close name mayJoin (':' :: rest) =
    some ⟨true, Modifier.read nested close name rest⟩ := rfl

theorem Pass.next?_of_ne (h : ∀ rest, text ≠ ':' :: rest) : next? nested close name mayJoin text =
    if mayJoin then some ⟨false, Modifier.read nested close name text⟩ else none := by
  unfold next?
  split
  case h_1 rest => exact absurd rfl (h rest)
  case h_2 => rfl

theorem Pass.next?_joined {c : Char} (hc : c ≠ ':') (rest : Text) :
    next? nested close name true (c :: rest) =
      some ⟨false, Modifier.read nested close name (c :: rest)⟩ :=
  next?_of_ne fun _ heq => hc (List.cons.inj heq).1

theorem Pass.next?_stop {c : Char} (hc : c ≠ ':') (rest : Text) :
    next? nested close name false (c :: rest) = none :=
  next?_of_ne fun _ heq => hc (List.cons.inj heq).1

theorem Pass.of_next? (h : next? nested close name mayJoin text = some p) :
    p.step = Modifier.read nested close name (text.drop p.front.length) ∧
      p.front.length ≤ text.length ∧
      (p.colon = false → mayJoin ∧ ∀ rest, text ≠ ':' :: rest) := by
  by_cases hcolon : ∃ rest, text = ':' :: rest
  · obtain ⟨rest, rfl⟩ := hcolon
    obtain rfl := Option.some.inj ((next?_colon rest).symm.trans h)
    exact ⟨rfl, Nat.succ_le_succ (Nat.zero_le _), nofun⟩
  · rw [not_exists] at hcolon
    rw [next?_of_ne hcolon, Option.ite_none_right_eq_some] at h
    obtain ⟨hjoin, heq⟩ := h
    obtain rfl := Option.some.inj heq
    exact ⟨rfl, Nat.zero_le _, fun _ => ⟨hjoin, hcolon⟩⟩

/-- The loop can be run in one way only. -/
theorem Loops.unique (h : Loops nested close name mayJoin text ps r)
    (h' : Loops nested close name mayJoin text ps' r') : ps = ps' ∧ r = r' := by
  induction h generalizing ps' r' with
  | stop hnext =>
    cases h' with
    | stop => exact ⟨rfl, rfl⟩
    | fail hnext' | go hnext' => simp [hnext] at hnext'
  | fail hnext he =>
    cases h' with
    | stop hnext' => simp [hnext] at hnext'
    | fail hnext' he' =>
      obtain rfl := Option.some.inj (hnext.symm.trans hnext')
      obtain rfl := Except.error.inj (he.symm.trans he')
      exact ⟨rfl, rfl⟩
    | go hnext' hm =>
      obtain rfl := Option.some.inj (hnext.symm.trans hnext')
      simp [he] at hm
  | go hnext hm _ ih =>
    cases h' with
    | stop hnext' => simp [hnext] at hnext'
    | fail hnext' he =>
      obtain rfl := Option.some.inj (hnext.symm.trans hnext')
      simp [hm] at he
    | go hnext' hm' hrest =>
      obtain rfl := Option.some.inj (hnext.symm.trans hnext')
      obtain rfl := Except.ok.inj (hm.symm.trans hm')
      obtain ⟨rfl, rfl⟩ := ih hrest
      exact ⟨rfl, rfl⟩

/-! ## What a pass takes -/

theorem Reading.after_nil {α : Type} (r : Reading α) : r.after [] = r := by
  obtain ⟨taken, findings, outcome⟩ := r
  have hfindings : findings.map (Located.shift 0) = findings := List.map_id findings
  cases outcome with
  | error e => simp [Reading.after, hfindings, Except.mapError, Located.shift]
  | ok v => simp [Reading.after, hfindings, Except.mapError]

end

section

variable {levels : Nat} {close : Char} {name text : Text} {mayJoin : Bool} {p : Pass}
  {ps : List Pass} {r : Reading (List Link)}

theorem Modifier.read_spread (levels : Nat) (close : Char) (name text : Text) :
    (Modifier.read (Reference.readWithin levels) close name text).Logs
      (fun _ s fs => Finding.Spread (Text.byteSize s) fs)
      (fun s fs => Finding.Spread (Text.byteSize s) fs) text :=
  Modifier.read_logs Finding.Spread.logging (Reference.readWithin_fits levels)
    (Reference.readWithin_logs Finding.Spread.logging levels) close text

theorem Modifier.taken_pos_of_error (levels : Nat) (close : Char) (name : Text) {text : Text}
    {e : Located ReferenceFailure}
    (h : (Modifier.read (Reference.readWithin levels) close name text).outcome = .error e) :
    0 < (Modifier.read (Reference.readWithin levels) close name text).taken := by
  have hfits := Modifier.read_fits (Reference.readWithin_fits levels) close name text
  obtain ⟨hspan, -⟩ := (Modifier.read_spread levels close name text).failure e h
  have hstop := (hfits.failure e h).2.stop_le
  apply Nat.pos_of_ne_zero
  intro hzero
  rw [hzero, List.take_zero, Text.byteSize_nil] at hstop
  omega

/-- An idle pass does nothing at all. -/
theorem Pass.Idle.step_eq (hidle : p.Idle)
    (h : next? (Reference.readWithin levels) close name mayJoin text = some p) :
    p.step = .done none := by
  obtain ⟨hcolon, hnone⟩ := hidle
  obtain ⟨hstep, -, -⟩ := of_next? h
  have hfront : p.front.length = 0 := by simp [front, hcolon]
  rw [hfront, List.drop_zero] at hstep
  rw [hstep] at hnone ⊢
  cases text with
  | nil => rfl
  | cons c rest =>
    have htaken := Modifier.taken_of_none (Reference.readWithin_fits levels) close name hnone
    have hspread := (Modifier.read_spread levels close name (c :: rest)).value none hnone
    rw [htaken, List.take_zero] at hspread
    have hfindings : (Modifier.read (Reference.readWithin levels) close name
        (c :: rest)).findings = [] := by
      refine List.eq_nil_iff_forall_not_mem.mpr fun f hf => ?_
      have hwithin := hspread.within f hf
      simp only [Text.byteSize_nil] at hwithin
      omega
    generalize Modifier.read (Reference.readWithin levels) close name (c :: rest) = reading at *
    obtain ⟨taken, findings, outcome⟩ := reading
    subst htaken hfindings hnone
    rfl

theorem Pass.taken_pos (h : next? (Reference.readWithin levels) close name mayJoin text = some p)
    (hidle : ¬p.Idle) : 0 < p.taken := by
  obtain ⟨hstep, -, -⟩ := of_next? h
  cases hcolon : p.colon with
  | true =>
    have hfront : p.front = [':'] := by simp [front, hcolon]
    rw [taken, hfront, List.length_singleton]
    omega
  | false =>
    refine Nat.lt_of_lt_of_le ?_ (Nat.le_add_left _ _)
    cases hread : p.step.outcome with
    | error e =>
      rw [hstep] at hread ⊢
      exact Modifier.taken_pos_of_error levels close name hread
    | ok m? =>
      cases m? with
      | none => exact absurd ⟨hcolon, hread⟩ hidle
      | some m =>
        rw [hstep] at hread ⊢
        exact Modifier.taken_pos_of_some (Reference.readWithin_fits levels) close name hread

theorem Pass.Idle.taken_eq (hidle : p.Idle)
    (h : next? (Reference.readWithin levels) close name mayJoin text = some p) : p.taken = 0 := by
  rw [taken, hidle.step_eq h, front, hidle.1]
  rfl

theorem Pass.Idle.next?_eq_none (hidle : p.Idle)
    (h : next? (Reference.readWithin levels) close name mayJoin text = some p) :
    next? (Reference.readWithin levels) close name false (text.drop p.taken) = none := by
  obtain ⟨-, -, hjoin⟩ := of_next? h
  rw [hidle.taken_eq h, List.drop_zero, next?_of_ne (hjoin hidle.1).2, if_neg Bool.false_ne_true]

/-! ## The loop -/

theorem Loops.idle (hidle : p.Idle)
    (h : Pass.next? (Reference.readWithin levels) close name mayJoin text = some p) :
    Loops (Reference.readWithin levels) close name mayJoin text [p] (.done []) := by
  have hgo := Loops.go h hidle.2 (.stop (hidle.next?_eq_none h))
  have hstep := hidle.step_eq h
  obtain ⟨colon, step⟩ := p
  obtain rfl : colon = false := hidle.1
  obtain rfl : step = .done none := hstep
  exact hgo

/-- The loop comes to its end, and what it has read then is the chain. -/
theorem exists_loops (levels : Nat) (close : Char) (name : Text) (mayJoin : Bool) (text : Text) :
    ∃ ps, Loops (Reference.readWithin levels) close name mayJoin text ps
      (Reference.readChain (Reference.readWithin levels) close name mayJoin text) := by
  have hfits := Reference.readWithin_fits levels
  fun_induction Reference.readChain (Reference.readWithin levels) close name mayJoin text with
  | case1 mayJoin =>
    cases mayJoin with
    | false => exact ⟨[], .stop rfl⟩
    | true => exact ⟨_, .go (p := ⟨false, .done none⟩) rfl rfl (.stop rfl)⟩
  | case2 mayJoin rest step failure hfailure =>
    exact ⟨_, .fail (Pass.next?_colon rest) hfailure⟩
  | case3 mayJoin rest step m? hok ih =>
    obtain ⟨ps, hps⟩ := ih
    have hdrop : (':' :: rest).drop (Pass.taken ⟨true, step⟩) = rest.drop step.taken := by
      rw [Pass.taken, Nat.add_comm]
      rfl
    rw [← hdrop] at hps
    have hnext := @Pass.next?_colon (Reference.readWithin levels) close name mayJoin rest
    exact ⟨_, hdrop ▸ Loops.go hnext hok hps⟩
  | case4 c rest hc step failure hfailure =>
    have hfail := Loops.fail (p := ⟨false, step⟩) (Pass.next?_joined hc rest) hfailure
    rw [Pass.front, if_neg Bool.false_ne_true, Reading.after_nil] at hfail
    exact ⟨_, hfail⟩
  | case5 c rest hc step hnone =>
    exact ⟨_, Loops.idle (p := ⟨false, step⟩) ⟨rfl, hnone⟩ (Pass.next?_joined hc rest)⟩
  | case6 c rest hc step m hok ih =>
    obtain ⟨ps, hps⟩ := ih
    have hnext := @Pass.next?_joined (Reference.readWithin levels) close name c hc rest
    have htaken : Pass.taken ⟨false, step⟩ = step.taken := Nat.zero_add _
    have hpos := Pass.taken_pos hnext fun hidle => by cases hok.symm.trans hidle.2
    obtain ⟨htake, hdrop⟩ := Text.cons_take_pred (htaken ▸ hpos) c rest
    have hbehind : (c :: rest).drop (Pass.taken ⟨false, step⟩) = rest.drop (step.taken - 1) := by
      rw [htaken, hdrop]
    rw [← hbehind] at hps
    have hgo := Loops.go hnext hok hps
    rw [Pass.front, if_neg Bool.false_ne_true, Reading.after_nil] at hgo
    rw [htake, ← hbehind]
    exact ⟨_, hgo⟩
  | case7 mayJoin c rest hc hjoin =>
    rw [Bool.not_eq_true] at hjoin
    exact ⟨[], .stop (by rw [hjoin]; exact Pass.next?_stop hc rest)⟩

theorem Loops.taken_eq (h : Loops (Reference.readWithin levels) close name mayJoin text ps r) :
    r.taken = (ps.map Pass.taken).sum := by
  induction h with
  | stop => rfl
  | fail => simp [Reading.after, Pass.taken]
  | @go mayJoin text p m? ps r hnext hm _ ih =>
    obtain ⟨hstep, -, -⟩ := Pass.of_next? hnext
    have hle : p.step.taken ≤ (text.drop p.front.length).length :=
      hstep ▸ (Modifier.read_fits (Reference.readWithin_fits levels) close name _).taken_le
    simp only [Reading.after, Reading.map, Reading.andThen, List.length_take, List.map_cons,
      List.sum_cons, Pass.taken, ih]
    omega

/-- Every pass takes a character, but for one that is idle, and behind that there is none. -/
theorem Loops.taken_pos_or_idle
    (h : Loops (Reference.readWithin levels) close name mayJoin text ps r)
    {front back : List Pass} (hp : ps = front ++ p :: back) :
    0 < p.taken ∨ p.Idle ∧ p.taken = 0 ∧ back = [] := by
  induction h generalizing front with
  | stop => simp at hp
  | @fail mayJoin text q e hnext he =>
    obtain ⟨rfl, hq, rfl⟩ : front = [] ∧ q = p ∧ back = [] := by
      cases front <;> simp_all
    subst hq
    exact .inl (Pass.taken_pos hnext fun hidle => by cases he.symm.trans hidle.2)
  | @go mayJoin text q m? qs r hnext hm hrest ih =>
    cases front with
    | cons d front => exact ih (List.cons.inj hp).2
    | nil =>
      obtain ⟨rfl, rfl⟩ := List.cons.inj hp
      by_cases hidle : q.Idle
      · right
        have hstop := hidle.next?_eq_none hnext
        obtain rfl : m? = none := Except.ok.inj (hm.symm.trans hidle.2)
        cases hrest with
        | stop => exact ⟨hidle, hidle.taken_eq hnext, rfl⟩
        | fail hnext' | go hnext' => cases hstop.symm.trans hnext'
      · exact .inl (Pass.taken_pos hnext hidle)

theorem Pass.length_le_taken
    (h : ∀ front p back, ps = front ++ p :: back → 0 < p.taken ∨ p.Idle ∧ p.taken = 0 ∧ back = []) :
    ps.length ≤ (ps.map taken).sum + 1 := by
  induction ps with
  | nil => exact Nat.zero_le _
  | cons p ps ih =>
    rw [List.length_cons, List.map_cons, List.sum_cons]
    rcases h [] p ps rfl with hpos | ⟨-, -, rfl⟩
    · have hle := ih fun front q back heq => h (p :: front) q back (congrArg (p :: ·) heq)
      omega
    · exact Nat.succ_le_succ (Nat.zero_le _)

end

/-! ## The cursor -/

def Reading.cursor {α : Type} (text : Text) (r : Reading α) : Nat :=
  Text.byteSize (text.take r.taken)

/-- A reading leaves a cursor at `start` where it is if there is no reference.  Else it moves it
further, to a character of the text or to its end: behind the reference, or behind the characters
among which it failed. -/
structure Reading.Advances (text : Text) (start : Nat) (r : Reading (Option Reference)) :
    Prop where
  taken_le : r.taken ≤ text.length
  none : r.outcome = .ok none → r.cursor text = start
  some : ∀ x, r.outcome = .ok (some x) → start < r.cursor text ∧
    x.spanAt start = ⟨start, r.cursor text⟩ ∧ (x.spanAt start).slice? text = some x.text
  error : ∀ e, r.outcome = .error e → start < r.cursor text ∧
    start ≤ e.span.start ∧ e.span.stop ≤ r.cursor text ∧ e.span.Cuts (text.take r.taken)

theorem Reading.take_after {α : Type} (front rest : Text) (r : Reading α) :
    (front ++ rest).take (r.after front).taken = front ++ rest.take r.taken :=
  List.take_length_add_append r.taken

theorem Reading.cursor_after {α : Type} (front rest : Text) (r : Reading α) :
    (r.after front).cursor (front ++ rest) = Text.byteSize front + r.cursor rest := by
  rw [cursor, take_after, Text.byteSize_append, cursor]

theorem Reading.lt_cursor_after {α : Type} {rest : Text} {r : Reading α}
    (hle : r.taken ≤ rest.length) (hpos : 0 < r.taken) (front : Text) :
    Text.byteSize front < (r.after front).cursor (front ++ rest) := by
  rw [cursor_after]
  have hlength : (rest.take r.taken).length = r.taken := List.length_take_of_le hle
  have hbytes := Text.length_le_byteSize (rest.take r.taken)
  rw [hlength] at hbytes
  exact Nat.lt_add_of_pos_right (Nat.lt_of_lt_of_le hpos hbytes)

theorem Reading.within_after {α : Type} {rest : Text} {r : Reading α} {s : Span}
    (h : s.Cuts (rest.take r.taken)) (front : Text) :
    Text.byteSize front ≤ (s.shift (Text.byteSize front)).start ∧
      (s.shift (Text.byteSize front)).stop ≤ (r.after front).cursor (front ++ rest) ∧
      (s.shift (Text.byteSize front)).Cuts ((front ++ rest).take (r.after front).taken) := by
  rw [take_after, cursor, take_after]
  have hcuts := h.shift front
  exact ⟨Nat.le_add_left _ _, hcuts.stop_le, hcuts⟩

/-- A reading that fits its text moves a cursor that stands in front of that, if it takes anything
where it does not find nothing. -/
theorem Reading.Fits.advances {rest : Text} {r : Reading (Option Reference)}
    (h : r.Fits Reference.SpellsOptional rest) (hpos : r.outcome ≠ .ok none → 0 < r.taken)
    (front : Text) : (r.after front).Advances (front ++ rest) (Text.byteSize front) where
  taken_le := by
    rw [List.length_append]
    exact Nat.add_le_add_left h.taken_le _
  none hnone := by
    have htake : rest.take r.taken = [] := h.value _ (outcome_after_eq_ok_iff.mp hnone)
    rw [cursor_after, cursor, htake, Text.byteSize_nil, Nat.add_zero]
  some x hx := by
    have hok := outcome_after_eq_ok_iff.mp hx
    obtain ⟨htext, -⟩ : x.Spells (rest.take r.taken) := h.value _ hok
    have hcursor : (r.after front).cursor (front ++ rest) =
        Text.byteSize front + Text.byteSize x.text := by rw [cursor_after, cursor, htext]
    have hslice := Span.slice?_eq front x.text (rest.drop r.taken)
    rw [List.append_assoc, htext, List.take_append_drop, Text.byteSize_append, ← htext] at hslice
    refine ⟨lt_cursor_after h.taken_le (hpos (by simp [hok])) front, ?_, hslice⟩
    rw [hcursor, Reference.spanAt]
  error e he := by
    obtain ⟨e', herror, rfl⟩ := outcome_after_eq_error_iff.mp he
    have hcuts := (h.failure e' herror).2
    exact ⟨lt_cursor_after h.taken_le (hpos (by simp [herror])) front, within_after hcuts front⟩

theorem Reading.advances_lone (front : Text) (c : Char) (behind : Text) :
    ((lone c).after front).Advances (front ++ '$' :: c :: behind) (Text.byteSize front) where
  taken_le := by simp [after, lone]
  none h := by cases outcome_after_eq_ok_iff.mp h
  some x h := by cases outcome_after_eq_ok_iff.mp h
  error e he := by
    obtain ⟨e', herror, rfl⟩ := outcome_after_eq_error_iff.mp he
    obtain rfl := Except.error.inj herror
    exact ⟨lt_cursor_after (by simp [lone]) Nat.one_pos front,
      within_after (Span.cuts_ofSize_self ['$']) front⟩

namespace Reference

/-- A reading moves a cursor that stands anywhere in a text. -/
theorem advances_readWithin (levels : Nat) (front rest : Text) :
    ((readWithin levels rest).after front).Advances (front ++ rest) (Text.byteSize front) := by
  have hpos := taken_pos_readWithin levels rest
  by_cases hdollar : ∃ behind, rest = '$' :: behind
  · obtain ⟨behind, rfl⟩ := hdollar
    rcases readWithin_fits levels behind with hfits | ⟨c, behind, rfl, hlone⟩
    · exact hfits.advances hpos front
    · exact hlone ▸ advances_lone front c behind
  · have hnone : readWithin levels rest = .done none := by
      obtain ⟨delimited, -, heq⟩ := takesOpening_readWithin levels
      rw [heq]
      unfold readDollar
      split <;> simp_all
    rw [hnone] at hpos ⊢
    have hfits : (Reading.done none).Fits SpellsOptional rest := .done rfl
    exact hfits.advances hpos front

/-- Reading a reference makes progress.  It leaves a cursor in front of what is no reference and
moves every other further.  Its loop over modifiers is made of passes that each take a character,
but for the last one, which may find neither a colon nor a modifier; so there are not many more
passes than bytes. -/
theorem readWithin_progress (levels : Nat) :
    (∀ front rest : Text,
      ((readWithin levels rest).after front).Advances (front ++ rest) (Text.byteSize front)) ∧
    ∀ close name mayJoin text,
      let chain := readChain (readWithin levels) close name mayJoin text
      ∃ ps, Loops (readWithin levels) close name mayJoin text ps chain ∧
        (∀ ps' chain', Loops (readWithin levels) close name mayJoin text ps' chain' →
          ps' = ps ∧ chain' = chain) ∧
        (∀ front p back, ps = front ++ p :: back →
          0 < p.taken ∨ p.Idle ∧ p.taken = 0 ∧ back = []) ∧
        (ps.map Pass.taken).sum = chain.taken ∧
        ps.length ≤ chain.cursor text + 1 := by
  refine ⟨advances_readWithin levels, fun close name mayJoin text => ?_⟩
  intro chain
  obtain ⟨ps, hps⟩ := exists_loops levels close name mayJoin text
  have hpasses : ∀ front p back, ps = front ++ p :: back →
      0 < p.taken ∨ p.Idle ∧ p.taken = 0 ∧ back = [] := fun _ _ _ => hps.taken_pos_or_idle
  refine ⟨ps, hps, fun ps' chain' h => h.unique hps, hpasses, hps.taken_eq.symm, ?_⟩
  have hle : chain.taken ≤ text.length :=
    (readChain_fits (readWithin_fits levels) close name mayJoin text).taken_le
  calc ps.length ≤ (ps.map Pass.taken).sum + 1 := Pass.length_le_taken hpasses
    _ = (text.take chain.taken).length + 1 := by rw [← hps.taken_eq, List.length_take_of_le hle]
    _ ≤ chain.cursor text + 1 := Nat.succ_le_succ (Text.length_le_byteSize _)

end Reference

end RecipeLint

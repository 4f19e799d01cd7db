import RecipeLint.Proofs.Reading.Again
import RecipeLint.Proofs.Reading.Lookahead

/-!
# What may follow make text

Make text that ends in front of one character ends in front of another one just so, if that one
ends it too.  The exception is a dollar sign at its end, which must not start anything there.
-/

namespace RecipeLint

open Reading

def isBareName (c : Char) : Bool :=
  isIdentifierChar c || isAutomaticName c

/-- Characters in front of which a dollar sign starts nothing. -/
def leavesDollar (c : Char) : Bool :=
  !isBareName c && !"$\x7b(".toList.contains c

theorem ne_dollar_of_leavesDollar {c : Char} (h : leavesDollar c) : c ≠ '$' := by
  rintro rfl
  exact absurd h (by decide)

def Text.endsInDollar (pairs : Bool) : Text → Bool
  | [] => false
  | ['$'] => true
  | '$' :: '$' :: rest => endsInDollar pairs rest
  | '\\' :: c :: rest => if pairs then endsInDollar pairs rest else endsInDollar pairs (c :: rest)
  | _ :: rest => endsInDollar pairs rest

theorem Text.endsInDollar_cons {pairs : Bool} {c : Char} (hdollar : c ≠ '$')
    (hbackslash : c = '\\' → ¬pairs) (rest : Text) :
    endsInDollar pairs (c :: rest) = endsInDollar pairs rest := by
  by_cases hc : c = '\\'
  · cases rest <;> simp_all [endsInDollar]
  · cases rest <;> simp [endsInDollar, hdollar, hc]

/-- Whether a character stands in a text for itself. With `pairs`, a backslash hides the character
behind it. -/
def Text.shows (pairs : Bool) (c : Char) : Text → Bool
  | [] => false
  | '\\' :: d :: rest =>
    c == '\\' || if pairs then shows pairs c rest else shows pairs c (d :: rest)
  | d :: rest => c == d || shows pairs c rest

theorem Text.shows_cons {pairs : Bool} {c d : Char} (hbackslash : d = '\\' → ¬pairs) (rest : Text) :
    shows pairs c (d :: rest) = (c == d || shows pairs c rest) := by
  by_cases hd : d = '\\'
  · cases rest <;> simp_all [shows]
  · cases rest <;> simp [shows, hd]

@[simp] theorem Text.shows_false (c : Char) (text : Text) :
    shows false c text = text.contains c := by
  induction text with
  | nil => rfl
  | cons d rest ih => rw [shows_cons (fun _ => Bool.false_ne_true), ih, List.contains_cons]

namespace MakeText

def shows (pairs : Bool) (c : Char) (text : MakeText) : Bool :=
  text.any fun
    | .literal chars => Text.shows pairs c chars
    | .reference _ => false

theorem shows_false (c : Char) (text : MakeText) : shows false c text = hasLiteral c text := by
  unfold shows hasLiteral
  congr 1
  funext part
  cases part <;> simp

@[simp] theorem shows_nil (pairs : Bool) (c : Char) : shows pairs c [] = false := rfl

theorem shows_reference (pairs : Bool) (c : Char) (r : Reference) (text : MakeText) :
    shows pairs c (.reference r :: text) = shows pairs c text := by
  simp [shows]

def ofText (nested : Reader (Option Reference)) (text : Text) : MakeText :=
  match (makeText nested (fun _ => false) false text).outcome with
  | .ok v => v
  | .error _ => []

theorem shows_consLiteral {pairs : Bool} {c : Char} {front : Text} (hfront : ∀ rest,
    Text.shows pairs c (front ++ rest) = (Text.shows pairs c front || Text.shows pairs c rest))
    (text : MakeText) :
    shows pairs c (consLiteral front text) = (Text.shows pairs c front || shows pairs c text) := by
  unfold consLiteral
  split
  case h_1 chars parts => simp [shows, hfront, Bool.or_assoc]
  case h_2 =>
    split
    case isTrue hempty => simp [List.isEmpty_iff.mp hempty, Text.shows]
    case isFalse => simp [shows]

def endsInDollar (pairs : Bool) (text : MakeText) : Bool :=
  match text.getLast? with
  | some (.literal chars) => Text.endsInDollar pairs chars
  | _ => false

theorem hasLiteral_consLiteral (c : Char) (front : Text) (text : MakeText) :
    hasLiteral c (consLiteral front text) = (front.contains c || hasLiteral c text) := by
  unfold consLiteral
  split
  case h_1 chars parts => simp [hasLiteral, Bool.or_assoc]
  case h_2 =>
    split
    case isTrue hempty => simp [List.isEmpty_iff.mp hempty]
    case isFalse => simp [hasLiteral]

theorem endsInDollar_reference (pairs : Bool) (r : Reference) (text : MakeText) :
    endsInDollar pairs (.reference r :: text) = endsInDollar pairs text := by
  cases text <;> simp [endsInDollar]

/-- Characters in front matter to the end of make text as they matter to the end of a text. -/
theorem endsInDollar_consLiteral (pairs : Bool) (front : Text) (text : MakeText)
    (hnil : text = [] → Text.endsInDollar pairs front = false)
    (hcons : ∀ chars, text = [.literal chars] →
      Text.endsInDollar pairs (front ++ chars) = Text.endsInDollar pairs chars) :
    endsInDollar pairs (consLiteral front text) = endsInDollar pairs text := by
  match text with
  | [] =>
    unfold consLiteral
    split
    case h_1 heq => simp at heq
    case h_2 => split <;> simp [endsInDollar, hnil]
  | [.literal chars] => simp [consLiteral, endsInDollar, hcons chars rfl]
  | .literal chars :: part :: parts => simp [consLiteral, endsInDollar]
  | .reference r :: parts =>
    simp only [consLiteral]
    split
    · rfl
    · simp [endsInDollar]

/-- The text may end in front of `b'` where it ended in front of `b`: a dollar sign at its end is
left alone there. -/
def Leaves (pairs : Bool) (text : MakeText) (b b' : Char) : Prop :=
  b' = b ∨ leavesDollar b' ∨ b' ≠ '$' ∧ endsInDollar pairs text = false

theorem Leaves.of_eq {pairs : Bool} {text text' : MakeText} {b b' : Char}
    (h : Leaves pairs text b b') (heq : endsInDollar pairs text = endsInDollar pairs text') :
    Leaves pairs text' b b' :=
  h.imp_right fun h => h.imp_right fun h => ⟨h.1, heq ▸ h.2⟩

theorem Leaves.ne_dollar {pairs : Bool} {text : MakeText} {b b' : Char}
    (h : Leaves pairs text b b') (hb : b ≠ '$') : b' ≠ '$' := by
  rcases h with rfl | h | h
  · exact hb
  · exact ne_dollar_of_leavesDollar h
  · exact h.1

end MakeText

theorem Text.uncons_pos {s t rest : Text} {b c : Char} (hlength : 0 < s.length)
    (h : s ++ b :: t = c :: rest) : ∃ s', s = c :: s' ∧ rest = s' ++ b :: t := by
  cases s with
  | nil => simp at hlength
  | cons d s =>
    obtain ⟨rfl, rfl⟩ := List.cons.inj h
    exact ⟨s, rfl, rfl⟩

/-! ## Make text, piece by piece -/

def StartsNothing (nested : Reader (Option Reference)) (rest : Text) : Prop :=
  (nested ('$' :: rest)).outcome = .ok none ∨
    ∃ c span, (nested ('$' :: rest)).outcome = .error ⟨.loneDollar c, span⟩

/-- The characters are taken for make text in front of the character `b`, one piece after the
other. -/
inductive Pieces (nested : Reader (Option Reference)) (stop : Char → Bool) (pairs : Bool) (b : Char)
    (t : Text) : Text → MakeText → Prop
  | stop (hdollar : b ≠ '$') (hstop : stop b) : Pieces nested stop pairs b t [] []
  | pair {s : Text} {v : MakeText} (h : Pieces nested stop pairs b t s v) :
      Pieces nested stop pairs b t ('$' :: '$' :: s) (.consLiteral ['$', '$'] v)
  | reference {front s : Text} {r : Reference} {v : MakeText}
      (hpair : ∀ rest, front ++ (s ++ b :: t) ≠ '$' :: rest)
      (hread : Reads (fun rest => nested ('$' :: rest)) 1 front (some r) (s ++ b :: t))
      (h : Pieces nested stop pairs b t s v) :
      Pieces nested stop pairs b t ('$' :: (front ++ s)) (.reference r :: v)
  | lone {s : Text} {v : MakeText} (hpair : ∀ rest, s ++ b :: t ≠ '$' :: rest)
      (hnothing : StartsNothing nested (s ++ b :: t)) (h : Pieces nested stop pairs b t s v) :
      Pieces nested stop pairs b t ('$' :: s) (.consLiteral ['$'] v)
  | escaped {c : Char} {s : Text} {v : MakeText} (hstop : ¬stop '\\') (hpairs : pairs)
      (h : Pieces nested stop pairs b t s v) :
      Pieces nested stop pairs b t ('\\' :: c :: s) (.consLiteral ['\\', c] v)
  | plain {c : Char} {s : Text} {v : MakeText} (hdollar : c ≠ '$')
      (hbackslash : c = '\\' → ¬pairs) (hstop : ¬stop c) (h : Pieces nested stop pairs b t s v) :
      Pieces nested stop pairs b t (c :: s) (.consLiteral [c] v)

theorem makeText_stop (nested : Reader (Option Reference)) {stop : Char → Bool} (pairs : Bool)
    {c : Char} (hdollar : c ≠ '$') (hstop : stop c) (rest : Text) :
    makeText nested stop pairs (c :: rest) = .done [] := by
  by_cases hbackslash : c = '\\'
  · subst hbackslash
    cases rest <;> simp [makeText, hstop]
  · rw [makeText_plain _ _ _ hdollar hbackslash, if_pos hstop]

theorem makeText_nothing {nested : Reader (Option Reference)} {rest : Text}
    (hpair : ∀ behind, rest ≠ '$' :: behind) (hnothing : StartsNothing nested rest)
    (stop : Char → Bool) (pairs : Bool) : makeText nested stop pairs ('$' :: rest) =
      (makeText nested stop pairs rest).literal ['$'] := by
  rw [makeText.eq_3 _ _ _ _ hpair]
  rcases hnothing with hnone | ⟨c, span, hlone⟩
  · simp only [hnone]
  · simp only [hlone]

theorem makeText_literal {nested : Reader (Option Reference)} {stop : Char → Bool} {pairs : Bool}
    {c b : Char} {s t : Text} (hdollar : c ≠ '$') (hbackslash : c = '\\' → ¬pairs)
    (hstop : ¬stop c) : makeText nested stop pairs (c :: (s ++ b :: t)) =
      (makeText nested stop pairs (s ++ b :: t)).literal [c] := by
  by_cases hc : c = '\\'
  · subst hc
    cases s <;> simp only [List.nil_append, List.cons_append] <;>
      rw [makeText, if_neg hstop, if_neg (hbackslash rfl)]
  · rw [makeText_plain _ _ _ hdollar hc, if_neg hstop]

section

variable {nested : Reader (Option Reference)} {stop : Char → Bool} {pairs : Bool} {s t : Text}
  {v : MakeText} {b : Char}

theorem reads_consLiteral (front : Text)
    (hread : makeText nested stop pairs (front ++ (s ++ b :: t)) =
      (makeText nested stop pairs (s ++ b :: t)).literal front)
    (h : Reads (makeText nested stop pairs) 0 s v (b :: t)) :
    Reads (makeText nested stop pairs) 0 (front ++ s) (.consLiteral front v) (b :: t) := by
  refine ⟨?_, ?_⟩
  · rw [List.append_assoc, hread, taken_literal, h.taken, List.length_append]
    omega
  · rw [List.append_assoc, hread]
    exact outcome_literal_eq_ok_iff.mpr ⟨v, h.outcome, rfl⟩

theorem reads_of_pieces (h : Pieces nested stop pairs b t s v) :
    Reads (makeText nested stop pairs) 0 s v (b :: t) := by
  induction h with
  | stop hdollar hstop =>
    exact .congr (reads_done.mpr ⟨rfl, rfl⟩) (makeText_stop nested pairs hdollar hstop t)
  | pair h ih => exact reads_consLiteral ['$', '$'] (by simp [makeText]) ih
  | @reference front s r v hpair hread h ih =>
    have htaken : (nested ('$' :: (front ++ (s ++ b :: t)))).taken = 1 + front.length := hread.taken
    have hpred : 1 + front.length - 1 = front.length := by omega
    have htext : makeText nested stop pairs ('$' :: (front ++ s) ++ b :: t) =
        (nested ('$' :: (front ++ (s ++ b :: t)))).andThen ('$' :: front)
          ((makeText nested stop pairs (s ++ b :: t)).map (.reference r :: ·)) := by
      rw [List.cons_append, List.append_assoc, makeText.eq_3 _ _ _ _ hpair]
      simp only [hread.outcome, htaken, hpred, List.take_left, List.drop_left]
    refine ⟨?_, ?_⟩
    · rw [htext, taken_andThen, taken_map, ih.taken, List.length_cons, List.length_cons,
        List.length_append]
      omega
    · rw [htext]
      exact outcome_after_eq_ok_iff.mpr (outcome_map_eq_ok_iff.mpr ⟨v, ih.outcome, rfl⟩)
  | lone hpair hnothing h ih =>
    exact reads_consLiteral ['$'] (makeText_nothing hpair hnothing stop pairs) ih
  | @escaped c s v hstop hpairs h ih =>
    exact reads_consLiteral ['\\', c] (by simp [makeText, hstop, hpairs]) ih
  | @plain c s v hdollar hbackslash hstop h ih =>
    exact reads_consLiteral [c] (makeText_literal hdollar hbackslash hstop) ih

/-- What is read behind literal characters was taken in front of what follows. -/
theorem exists_of_literal {front rest : Text} {r : Reading MakeText}
    (htext : s ++ b :: t = front ++ rest) (htaken : (r.literal front).taken = 0 + s.length)
    (houtcome : (r.literal front).outcome = .ok v) :
    ∃ s' w, s = front ++ s' ∧ rest = s' ++ b :: t ∧ r.taken = 0 + s'.length ∧ r.outcome = .ok w ∧
      v = .consLiteral front w := by
  rw [taken_literal] at htaken
  obtain ⟨w, hw, rfl⟩ := outcome_literal_eq_ok_iff.mp houtcome
  have hle : front.length ≤ s.length := by omega
  obtain ⟨s', rfl⟩ : front <+: s :=
    List.prefix_of_prefix_length_le ⟨rest, htext.symm⟩ (List.prefix_append s _) hle
  rw [List.append_assoc] at htext
  rw [List.length_append] at htaken
  exact ⟨s', w, rfl, (List.append_cancel_left htext).symm, by omega, hw, rfl⟩

theorem pieces_of_reads (hfits : FitsDollar nested)
    (h : Reads (makeText nested stop pairs) 0 s v (b :: t)) :
    Pieces nested stop pairs b t s v := by
  obtain ⟨htaken, houtcome⟩ := h
  generalize htext : s ++ b :: t = text at htaken houtcome
  fun_induction makeText nested stop pairs text generalizing s v with
  | case1 => simp at htext
  | case2 rest ih =>
    obtain ⟨s, w, rfl, rfl, hrest, hw, rfl⟩ := exists_of_literal htext htaken houtcome
    exact .pair (ih rfl hrest hw)
  | case3 rest hne inner reference hok =>
    rename_i ih
    simp only [taken_andThen, taken_map, List.length_cons, List.length_take] at htaken
    obtain ⟨s, rfl, rfl⟩ := Text.uncons_pos (by omega) htext
    have hpos : 0 < inner.taken := hfits.taken_pos hok
    rw [List.length_append, List.length_cons, List.length_cons] at htaken
    have hle : inner.taken - 1 ≤ s.length := by omega
    simp only [List.drop_append_of_le_length hle] at ih htaken houtcome
    simp only [Reading.andThen, outcome_after_eq_ok_iff, outcome_map_eq_ok_iff] at houtcome
    obtain ⟨w, hw, rfl⟩ := houtcome
    have hpieces := ih rfl (by rw [List.length_drop]; omega) hw
    obtain ⟨front, s, rfl, htook⟩ : ∃ front behind, s = front ++ behind ∧
        front.length = inner.taken - 1 :=
      ⟨_, _, (List.take_append_drop (inner.taken - 1) s).symm, List.length_take_of_le hle⟩
    rw [← htook, List.drop_left] at hpieces
    have htaken : inner.taken = 1 + front.length := by omega
    simp only [inner, List.append_assoc] at hne htaken hok
    exact .reference hne ⟨htaken, hok⟩ hpieces
  | case4 rest hne inner hok =>
    rename_i ih
    obtain ⟨s, w, rfl, rfl, hrest, hw, rfl⟩ := exists_of_literal htext htaken houtcome
    exact .lone hne (.inl hok) (ih rfl hrest hw)
  | case5 rest hne inner next span hlone =>
    rename_i ih
    obtain ⟨s, w, rfl, rfl, hrest, hw, rfl⟩ := exists_of_literal htext htaken houtcome
    exact .lone hne (.inr ⟨next, span, hlone⟩) (ih rfl hrest hw)
  | case6 => simp at houtcome
  | case7 c rest hstop =>
    obtain rfl : s = [] := by simpa [Reading.done, eq_comm] using htaken
    obtain rfl := Except.ok.inj houtcome
    obtain ⟨rfl, rfl⟩ := List.cons.inj htext
    exact .stop (by decide) hstop
  | case10 c rest _ hdollar _ hstop =>
    obtain rfl : s = [] := by simpa [Reading.done, eq_comm] using htaken
    obtain rfl := Except.ok.inj houtcome
    obtain ⟨rfl, rfl⟩ := List.cons.inj htext
    exact .stop hdollar hstop
  | case8 c rest hstop hpairs ih =>
    obtain ⟨s, w, rfl, rfl, hrest, hw, rfl⟩ := exists_of_literal htext htaken houtcome
    exact .escaped hstop hpairs (ih rfl hrest hw)
  | case9 c rest hstop hpairs ih =>
    obtain ⟨s, w, rfl, hbehind, hrest, hw, rfl⟩ := exists_of_literal htext htaken houtcome
    exact .plain (by decide) (fun _ => hpairs) hstop (ih hbehind.symm hrest hw)
  | case11 c rest _ hdollar hbackslash hstop ih =>
    obtain ⟨s, w, rfl, rfl, hrest, hw, rfl⟩ := exists_of_literal htext htaken houtcome
    have hne : c ≠ '\\' := by
      rintro rfl
      cases s <;> exact hbackslash _ _ rfl rfl
    exact .plain hdollar (fun h => absurd h hne) hstop (ih rfl hrest hw)

theorem Pieces.stops (h : Pieces nested stop pairs b t s v) : b ≠ '$' ∧ stop b := by
  induction h with
  | stop hdollar hstop => exact ⟨hdollar, hstop⟩
  | _ => assumption

theorem Pieces.source_eq (hfits : FitsDollar nested) (h : Pieces nested stop pairs b t s v) :
    MakeText.source v = s := by
  induction h with
  | stop => rfl
  | @reference front s r v hpair hread h ih =>
    have hvalue := (hfits.fits_of_ok hread.outcome).value _ hread.outcome
    rw [hread.taken] at hvalue
    obtain ⟨htext, -⟩ := hvalue
    rw [MakeText.source_cons, Part.source, ih, htext, Nat.add_comm, List.take_succ_cons,
      List.take_left, List.cons_append]
  | _ => simp [*]

theorem makeText_stops (hfits : FitsDollar nested)
    (h : Reads (makeText nested stop pairs) 0 s v (b :: t)) : stop b :=
  (pieces_of_reads hfits h).stops.2

theorem source_of_makeText (hfits : FitsDollar nested)
    (h : Reads (makeText nested stop pairs) 0 s v (b :: t)) : MakeText.source v = s :=
  (pieces_of_reads hfits h).source_eq hfits

end

/-- Two readers of references, the second of which reads all that the first one does, and leaves the
same dollar signs alone. -/
structure Extends (nested nested' : Reader (Option Reference)) : Prop where
  fits : FitsDollar nested
  fits' : FitsDollar nested'
  reference : ∀ {s r t}, Reads (fun rest => nested ('$' :: rest)) 1 s (some r) t → ∀ t',
    Reads (fun rest => nested' ('$' :: rest)) 1 s (some r) t'
  leaves : ∀ {c rest}, c ≠ '$' → StartsNothing nested (c :: rest) → leavesDollar c
  nothing : ∀ {c} rest, leavesDollar c → StartsNothing nested' (c :: rest)
  nothing_nil : StartsNothing nested' []

theorem Text.ne_cons_of_swap {s t t' : Text} {b b' c : Char} (h : ∀ rest, s ++ b :: t ≠ c :: rest)
    (hb' : b' ≠ c) (rest : Text) : s ++ b' :: t' ≠ c :: rest := by
  cases s with
  | nil => exact fun heq => hb' (List.cons.inj heq).1
  | cons d s => exact fun heq => h (s ++ b :: t) (by rw [List.cons_append, (List.cons.inj heq).1])

section

variable {nested nested' : Reader (Option Reference)} (hextends : Extends nested nested')
  {stop stop' : Char → Bool} {pairs : Bool} {s t : Text} {v : MakeText} {b b' : Char}

include hextends

theorem Pieces.leaves_lone (h : Pieces nested stop pairs b t s v)
    (hpair : ∀ rest, s ++ b :: t ≠ '$' :: rest) (hnothing : StartsNothing nested (s ++ b :: t))
    (hleaves : MakeText.Leaves pairs (MakeText.consLiteral ['$'] v) b b') :
    MakeText.Leaves pairs v b b' ∧ ∀ t', StartsNothing nested' (s ++ b' :: t') := by
  cases s with
  | nil =>
    cases h with
    | stop hdollar hstop =>
      have hb' : leavesDollar b' := by
        rcases hleaves with rfl | h | ⟨-, h⟩
        · exact hextends.leaves hdollar hnothing
        · exact h
        · simp [MakeText.consLiteral, MakeText.endsInDollar, Text.endsInDollar] at h
      exact ⟨.inr (.inl hb'), fun t' => hextends.nothing t' hb'⟩
  | cons c s =>
    have hc : c ≠ '$' := by
      rintro rfl
      exact hpair _ rfl
    have hsource := h.source_eq hextends.fits
    refine ⟨hleaves.of_eq (MakeText.endsInDollar_consLiteral pairs ['$'] v ?_ ?_), fun t' =>
      hextends.nothing _ (hextends.leaves hc hnothing)⟩
    · rintro rfl
      simp at hsource
    · rintro chars rfl
      obtain rfl : chars = c :: s := by simpa [Part.source] using hsource
      simp [Text.endsInDollar, hc]

/-- What is read as make text in front of a character is read so again in front of another one
that ends it. With another way to end it, no literal character may do so. -/
theorem Pieces.again (h : Pieces nested stop pairs b t s v) (hstop : stop' b')
    (hleaves : MakeText.Leaves pairs v b b')
    (hclear : ∀ c, MakeText.shows pairs c v → stop' c → stop c) (t' : Text) :
    Pieces nested' stop' pairs b' t' s v := by
  have hb' : b' ≠ '$' := hleaves.ne_dollar h.stops.1
  have hfront {front : Text} {w : MakeText} (hunit : ∀ c rest, Text.shows pairs c (front ++ rest) =
        (Text.shows pairs c front || Text.shows pairs c rest))
      (hclear : ∀ c, MakeText.shows pairs c (MakeText.consLiteral front w) → stop' c → stop c) :
      (∀ c, MakeText.shows pairs c w → stop' c → stop c) ∧
        ∀ c, Text.shows pairs c front → stop' c → stop c := by
    refine ⟨fun c hc => hclear c ?_, fun c hc => hclear c ?_⟩ <;>
      simp [MakeText.shows_consLiteral (hunit c), hc]
  induction h with
  | stop => exact .stop hb' hstop
  | @pair s w h ih =>
    have hends := MakeText.endsInDollar_consLiteral pairs ['$', '$'] w (fun _ => rfl)
      fun chars _ => by simp [Text.endsInDollar]
    exact .pair (ih (hleaves.of_eq hends) (hfront (by simp [Text.shows]) hclear).1)
  | @reference front s r w hpair hread h ih =>
    rw [← List.append_assoc] at hpair
    have hpair' (rest : Text) := @Text.ne_cons_of_swap _ _ t' _ _ _ hpair hb' rest
    rw [List.append_assoc] at hpair'
    refine .reference hpair' (hextends.reference hread _)
      (ih (hleaves.of_eq (MakeText.endsInDollar_reference pairs r w)) fun c hc => hclear c ?_)
    rwa [MakeText.shows_reference]
  | @lone s w hpair hnothing h ih =>
    obtain ⟨hleaves, hnothing⟩ := h.leaves_lone hextends hpair hnothing hleaves
    exact .lone (Text.ne_cons_of_swap hpair hb') (hnothing t')
      (ih hleaves (hfront (by simp [Text.shows]) hclear).1)
  | @escaped c s w hstop hpairs h ih =>
    have hends := MakeText.endsInDollar_consLiteral pairs ['\\', c] w
      (fun _ => by simp [Text.endsInDollar, hpairs])
      fun chars _ => by simp [Text.endsInDollar, hpairs]
    obtain ⟨hrest, hescape⟩ := hfront (by simp [Text.shows, hpairs]) hclear
    exact .escaped (fun h => hstop (hescape _ (by simp [Text.shows]) h)) hpairs
      (ih (hleaves.of_eq hends) hrest)
  | @plain c s w hdollar hbackslash hstop h ih =>
    have hends := MakeText.endsInDollar_consLiteral pairs [c] w
      (fun _ => Text.endsInDollar_cons hdollar hbackslash [])
      fun chars _ => Text.endsInDollar_cons hdollar hbackslash chars
    have hunit (d : Char) (rest : Text) : Text.shows pairs d ([c] ++ rest) =
        (Text.shows pairs d [c] || Text.shows pairs d rest) := by
      simp [Text.shows_cons hbackslash, Text.shows]
    obtain ⟨hrest, hplain⟩ := hfront hunit hclear
    exact .plain hdollar hbackslash
      (fun h => hstop (hplain _ (by simp [Text.shows_cons hbackslash]) h))
      (ih (hleaves.of_eq hends) hrest)

theorem makeText_again (h : Reads (makeText nested stop pairs) 0 s v (b :: t)) (hstop : stop' b')
    (hleaves : MakeText.Leaves pairs v b b')
    (hclear : ∀ c, MakeText.shows pairs c v → stop' c → stop c) (t' : Text) :
    Reads (makeText nested' stop' pairs) 0 s v (b' :: t') :=
  reads_of_pieces ((pieces_of_reads hextends.fits h).again hextends hstop hleaves hclear t')

theorem Pieces.ofText (h : Pieces nested stop false b t s v) :
    MakeText.ofText nested' s = v := by
  suffices houtcome : (makeText nested' (fun _ => false) false s).outcome = .ok v by
    rw [MakeText.ofText, houtcome]
  induction h with
  | stop => simp [makeText, Reading.done]
  | pair h ih => exact makeText.eq_2 .. ▸ outcome_literal_eq_ok_iff.mpr ⟨_, ih, rfl⟩
  | @reference front s r v hpair hread h ih =>
    have hread' := hextends.reference hread s
    have hpred : 1 + front.length - 1 = front.length := by omega
    have hpair' (rest : Text) : front ++ s ≠ '$' :: rest := fun heq =>
      hpair (rest ++ b :: t) (by rw [← List.append_assoc, heq, List.cons_append])
    rw [makeText.eq_3 _ _ _ _ hpair']
    simp only [hread'.outcome, hread'.taken, hpred, List.drop_left]
    exact outcome_after_eq_ok_iff.mpr (outcome_map_eq_ok_iff.mpr ⟨v, ih, rfl⟩)
  | @lone s v hpair hnothing h ih =>
    have hnothing' : (∀ rest, s ≠ '$' :: rest) ∧ StartsNothing nested' s := by
      cases s with
      | nil => exact ⟨by simp, hextends.nothing_nil⟩
      | cons c s =>
        have hc : c ≠ '$' := by
          rintro rfl
          exact hpair _ rfl
        exact ⟨by simp [hc], hextends.nothing _ (hextends.leaves hc hnothing)⟩
    rw [makeText_nothing hnothing'.1 hnothing'.2]
    exact outcome_literal_eq_ok_iff.mpr ⟨v, ih, rfl⟩
  | escaped hstop hpairs => exact absurd hpairs Bool.false_ne_true
  | @plain c s v hdollar hbackslash hstop h ih =>
    have hread : makeText nested' (fun _ => false) false (c :: s) =
        (makeText nested' (fun _ => false) false s).literal [c] := by
      by_cases hc : c = '\\'
      · subst hc
        cases s <;> simp [makeText]
      · simp [makeText_plain _ _ _ hdollar hc]
    rw [hread]
    exact outcome_literal_eq_ok_iff.mpr ⟨v, ih, rfl⟩

end

end RecipeLint

import RecipeLint.Proofs.Reading.Members

/-!
# How deep references are nested

Each pair of delimiters around something makes it one level deeper.  The reader counts down what it
may still open, so no reference that it returns has more levels than it was given.  A reference that
is nested too deep is skipped up to its own closing delimiter, and then each of those around it
finds its own, so that the text behind a nest is read in the same way however deep the nest is.
-/

namespace RecipeLint

open Reading

/-! ## Levels -/

mutual

def Part.levels : Part → Nat
  | .literal _ => 0
  | .reference inner => inner.levels

def MakeText.levels : List Part → Nat
  | [] => 0
  | part :: parts => max part.levels (MakeText.levels parts)

/-- How many delimiters stand open at once in a reference, its own counted. -/
def Reference.levels : Reference → Nat
  | ⟨delimiter, name, chain, _⟩ =>
    max (MakeText.levels name) (Link.levelsAll chain) + if delimiter = .bare then 0 else 1

def Link.levelsAll : List Link → Nat
  | [] => 0
  | link :: chain => max link.levels (Link.levelsAll chain)

def Link.levels : Link → Nat
  | .empty => 0
  | .colon modifier | .joined modifier => modifier.levels

def Modifier.levels : Modifier → Nat
  | .select _ text | .ifUnset text | .ifSet text | .forEach _ text _ | .assign _ text
  | .shell text => MakeText.levels text
  | .substitute _ _ first second _ | .suffix first second | .choose first second =>
    max (MakeText.levels first) (MakeText.levels second)
  | .quote | .index _ | .transform _ | .separator _ => 0

end

theorem MakeText.levels_le {v : MakeText} {n : Nat}
    (h : ∀ r, Part.reference r ∈ v → r.levels ≤ n) : MakeText.levels v ≤ n := by
  induction v with
  | nil => exact Nat.zero_le _
  | cons part parts ih =>
    refine Nat.max_le.mpr ⟨?_, ih fun r hr => h r (List.mem_cons_of_mem _ hr)⟩
    cases part with
    | literal text => exact Nat.zero_le _
    | reference r => exact h r List.mem_cons_self

theorem Modifier.levels_le {m : Modifier} {n : Nat}
    (h : ∀ v ∈ m.arguments, MakeText.levels v ≤ n) : m.levels ≤ n := by
  cases m with
  | substitute | suffix | choose =>
    simp only [arguments, List.forall_mem_cons] at h
    exact Nat.max_le.mpr ⟨h.1, h.2.1⟩
  | select | ifUnset | ifSet | forEach | assign | shell => exact h _ List.mem_cons_self
  | quote | index | transform | separator => exact Nat.zero_le n

theorem Link.levelsAll_le {chain : List Link} {n : Nat}
    (h : ∀ m ∈ chain.filterMap modifier?, m.levels ≤ n) : levelsAll chain ≤ n := by
  induction chain with
  | nil => exact Nat.zero_le _
  | cons link chain ih =>
    refine Nat.max_le.mpr ⟨?_, ih fun m hm => h m ?_⟩
    · cases link with
      | empty => exact Nat.zero_le _
      | colon m => exact h m (List.mem_filterMap.mpr ⟨_, List.mem_cons_self, rfl⟩)
      | joined m => exact h m (List.mem_filterMap.mpr ⟨_, List.mem_cons_self, rfl⟩)
    · obtain ⟨link', hlink', hm'⟩ := List.mem_filterMap.mp hm
      exact List.mem_filterMap.mpr ⟨link', List.mem_cons_of_mem _ hlink', hm'⟩

namespace Reference

theorem levels_le {r : Reference} {n : Nat} (hname : MakeText.levels r.name ≤ n)
    (hmodifiers : ∀ m ∈ r.modifiers, ∀ v ∈ m.arguments, MakeText.levels v ≤ n) :
    r.levels ≤ n + 1 := by
  have hchain : Link.levelsAll r.chain ≤ n :=
    Link.levelsAll_le fun m hm => Modifier.levels_le (hmodifiers m hm)
  obtain ⟨delimiter, name, chain, text⟩ := r
  simp only [levels] at hname hchain ⊢
  split_ifs <;> omega

/-- A reference has no more levels than might be opened where it was read. -/
theorem ReadBy.levels_le {levels : Nat} {r : Reference} (h : r.ReadBy (readWithin levels)) :
    r.levels ≤ levels := by
  induction levels using Nat.strong_induction_on generalizing r with
  | h levels ih =>
    rcases h.placedTexts with ⟨inner, hlt, hlasts⟩ | ⟨c, rfl⟩
    · have htexts {v : MakeText} (hv : v ∈ (r.placedTexts 0).map Prod.snd) :
          MakeText.levels v ≤ inner := by
        obtain ⟨x, hx, rfl⟩ := List.mem_map.mp hv
        have hall := hlasts _ (MakeText.lasts_allReadBy (readWithin_fits inner)) x hx
        exact MakeText.levels_le fun r hr => ih inner hlt (hall r hr)
      rw [map_snd_placedTexts] at htexts
      refine Nat.le_trans (Reference.levels_le (htexts List.mem_cons_self) fun m hm v hv => ?_) hlt
      exact htexts (List.mem_cons_of_mem _ (List.mem_flatMap.mpr ⟨m, hm, hv⟩))
    · exact Nat.zero_le _

/-! ## Nests -/

def inBraces (name : MakeText) : Reference :=
  ⟨.braces, name, [], '$' :: '\x7b' :: (MakeText.source name ++ ['\x7d'])⟩

/-- Literal characters in braces, with `n` more braces around. -/
def nest (x : Text) : (n : Nat) → Reference
  | 0 => inBraces [.literal x]
  | n + 1 => inBraces [.reference (nest x n)]

theorem nest_text (x : Text) (n : Nat) : (nest x n).text =
    (List.replicate (n + 1) ['$', '\x7b']).flatten ++ x ++ List.replicate (n + 1) '\x7d' := by
  induction n with
  | zero => simp [nest, inBraces, Part.source]
  | succ n ih =>
    have htext : (nest x (n + 1)).text = ['$', '\x7b'] ++ (nest x n).text ++ ['\x7d'] := by
      simp [nest, inBraces, Part.source]
    rw [htext, ih, List.replicate_succ (n := n + 1) (a := ['$', '\x7b']),
      List.replicate_succ' (n := n + 1) (a := '\x7d')]
    simp only [List.flatten_cons, List.append_assoc]

theorem nest_eq_inBraces (x : Text) (n : Nat) : nest x n = inBraces (nest x n).name := by
  cases n <;> rfl

theorem nest_opens (x : Text) (n : Nat) : ['$', '\x7b'] <+: (nest x n).text := by
  rw [nest_eq_inBraces]
  exact ⟨_, rfl⟩

theorem source_nest_zero (x : Text) : MakeText.source (nest x 0).name = x := by
  simp [nest, inBraces, Part.source]

theorem source_nest_succ (x : Text) (n : Nat) :
    MakeText.source (nest x (n + 1)).name = (nest x n).text := by
  simp [nest, inBraces, Part.source]

theorem levels_nest (x : Text) (n : Nat) : (nest x n).levels = n + 1 := by
  induction n with
  | zero => simp [nest, inBraces, levels, MakeText.levels, Part.levels, Link.levelsAll]
  | succ n ih =>
    simp [nest, inBraces, levels, MakeText.levels, Part.levels, Link.levelsAll, ih]

section

variable {levels : Nat} {name : MakeText} {t : Text}

theorem inBraces_text_append (name : MakeText) (t : Text) :
    (inBraces name).text ++ t = '$' :: '\x7b' :: (MakeText.source name ++ '\x7d' :: t) := by
  simp [inBraces]

theorem length_inBraces (name : MakeText) :
    (inBraces name).text.length = 2 + (MakeText.source name).length + 1 := by
  simp [inBraces]
  omega

theorem drop_inBraces (name : MakeText) (t : Text) :
    ('$' :: '\x7b' :: (MakeText.source name ++ '\x7d' :: t)).drop
      (2 + (MakeText.source name).length) = '\x7d' :: t := by
  rw [drop_opening, List.drop_left]

theorem readWithin_braces (levels : Nat) (rest : Text) :
    readWithin (levels + 1) ('$' :: '\x7b' :: rest) =
      (endDelimited '\x7d' .braces ('$' :: '\x7b' :: rest)
        ((readBody (readWithin levels) '\x7d' rest).after ['$', '\x7b'])).map some :=
  rfl

theorem findings_inBraces (hvalid : (MakeText.splitName name).2 = []) :
    (inBraces name).nameFindings ++ (inBraces name).styleFindings = [] := by
  have hsplit : MakeText.splitName (inBraces name).name =
      ((MakeText.splitName name).1, []) := Prod.ext rfl hvalid
  simp only [nameFindings, hsplit]
  rfl

theorem readWithin_inBraces
    (hname : Modifier.argument (readWithin levels) '\x7d' false
      (MakeText.source name ++ '\x7d' :: t) = ⟨(MakeText.source name).length, [], .ok name⟩)
    (hvalid : (MakeText.splitName name).2 = []) :
    readWithin (levels + 1) ((inBraces name).text ++ t) =
      ⟨(inBraces name).text.length, [], .ok (some (inBraces name))⟩ := by
  have hbody : readBody (readWithin levels) '\x7d' (MakeText.source name ++ '\x7d' :: t) =
      ⟨(MakeText.source name).length, [], .ok (name, [])⟩ := by
    unfold Modifier.argument at hname
    simp [readBody, hname, Reading.followedBy, Reading.andThen, Reading.after, Reading.map,
      Reading.done, readChain_close .braces, Except.map, Except.mapError]
  have hwhole : ('$' :: '\x7b' :: (MakeText.source name ++ '\x7d' :: t)).take
      (2 + (MakeText.source name).length + 1) = (inBraces name).text := by
    rw [← inBraces_text_append, List.take_left' (length_inBraces name)]
  have hfindings := findings_inBraces hvalid
  rw [inBraces_text_append, readWithin_braces, hbody, length_inBraces]
  simp only [endDelimited, Reading.after, List.length_cons, List.length_nil, Nat.zero_add,
    Nat.reduceAdd, drop_inBraces, hwhole, Except.mapError, if_true, List.map_nil, List.nil_append]
  exact congrArg (fun fs => Reading.mk _ fs _) hfindings

theorem readWithin_inBraces_of_error {failure : Located ReferenceFailure}
    (hname : Modifier.argument (readWithin levels) '\x7d' false
      (MakeText.source name ++ '\x7d' :: t) =
        ⟨(MakeText.source name).length, [], .error failure⟩) :
    readWithin (levels + 1) ((inBraces name).text ++ t) =
      ⟨(inBraces name).text.length, [], .error (failure.shift 2)⟩ := by
  have hbody : readBody (readWithin levels) '\x7d' (MakeText.source name ++ '\x7d' :: t) =
      ⟨(MakeText.source name).length, [], .error failure⟩ := by
    unfold Modifier.argument at hname
    simp only [readBody, hname, Reading.followedBy]
  rw [inBraces_text_append, readWithin_braces, hbody, length_inBraces]
  simp only [endDelimited, Reading.after, List.length_cons, List.length_nil, Nat.zero_add,
    Nat.reduceAdd, drop_inBraces, closeLength_close (by decide : '\x7d' ≠ '$'), closeLength_empty,
    Except.mapError, List.map_nil]
  rfl

/-- Where nothing more may be opened, a reference in braces is skipped up to its closing brace. -/
theorem readWithin_zero_inBraces
    (hclose : Passes '\x7d' (MakeText.source name ++ '\x7d' :: t) (MakeText.source name).length) :
    readWithin 0 ((inBraces name).text ++ t) =
      ⟨(inBraces name).text.length, [],
        .error ⟨.nestingTooDeep maxNesting, .ofSize (Text.byteSize (inBraces name).text)⟩⟩ := by
  have hlength : 2 + closeLength ['\x7d'] (MakeText.source name ++ '\x7d' :: t) =
      (inBraces name).text.length := by
    rw [hclose [], List.drop_left, closeLength_close (by decide), closeLength_empty,
      length_inBraces]
    omega
  have hskip : readWithin 0 ('$' :: '\x7b' :: (MakeText.source name ++ '\x7d' :: t)) =
      (skipDelimited '\x7d' ('$' :: '\x7b' :: (MakeText.source name ++ '\x7d' :: t))).map some :=
    rfl
  rw [inBraces_text_append, hskip]
  simp only [skipDelimited, List.drop_succ_cons, List.drop_zero, hlength]
  rw [← inBraces_text_append, List.take_left]
  rfl

end

/-! ## Reading a nest -/

theorem of_isNameChar {c : Char} (hc : isNameChar c) :
    c ≠ '$' ∧ c ≠ '\\' ∧ c ≠ ':' ∧ c ≠ '\x7d' := by
  refine ⟨?_, ?_, ?_, ?_⟩ <;>
  · rintro rfl
    exact absurd hc (by decide)

variable {x : Text}

theorem argument_nameChars (nested : Reader (Option Reference)) (hx : ∀ c ∈ x, isNameChar c)
    (t : Text) : Modifier.argument nested '\x7d' false (x ++ '\x7d' :: t) =
      ⟨x.length, [], .ok (MakeText.consLiteral x [])⟩ := by
  induction x with
  | nil => exact makeText_stop nested false (by decide) (by decide) t
  | cons c x ih =>
    obtain ⟨hdollar, hbackslash, hcolon, hbrace⟩ := of_isNameChar (hx c List.mem_cons_self)
    have hrest := ih fun d hd => hx d (List.mem_cons_of_mem c hd)
    unfold Modifier.argument at hrest ⊢
    rw [List.cons_append, makeText_plain nested _ _ hdollar hbackslash,
      if_neg (by simp [hcolon, hbrace]), hrest]
    cases x <;> simp [Reading.literal, Reading.map, Reading.after, MakeText.consLiteral,
      Except.map, Except.mapError, Nat.add_comm]

theorem argument_opening {nested : Reader (Option Reference)} {s t : Text}
    (outcome : Except (Located ReferenceFailure) Reference) (hopens : ['$', '\x7b'] <+: s)
    (hread : nested (s ++ '\x7d' :: t) = ⟨s.length, [], outcome.map some⟩)
    (hlone : ∀ c span, outcome ≠ .error ⟨.loneDollar c, span⟩) :
    Modifier.argument nested '\x7d' false (s ++ '\x7d' :: t) =
      ⟨s.length, [], outcome.map ([.reference ·])⟩ := by
  obtain ⟨s, rfl⟩ := hopens
  have hstop : Modifier.argument nested '\x7d' false ('\x7d' :: t) = .done [] :=
    makeText_stop nested false (by decide) (by decide) t
  unfold Modifier.argument at hstop ⊢
  simp only [List.cons_append, List.nil_append, List.length_cons] at hread ⊢
  rw [makeText.eq_3 _ _ _ _ (by simp)]
  cases outcome with
  | ok r =>
    simp [hread, hstop, Reading.andThen, Reading.after, Reading.map, Reading.done, Except.map,
      Except.mapError, Nat.add_comm]
  | error failure =>
    obtain ⟨value, span⟩ := failure
    cases value <;> simp_all [Except.map]

/-- The name of a nest holds no character that is none of a name. -/
theorem splitName_nest (hx : ∀ c ∈ x, isNameChar c) (n : Nat) :
    (MakeText.splitName (nest x n).name).2 = [] := by
  cases n with
  | zero =>
    have hspan : x.span isNameChar = (x, []) := by
      rw [List.span_eq_takeWhile_dropWhile, List.takeWhile_eq_self_iff.mpr hx,
        List.dropWhile_eq_nil_iff.mpr hx]
    simp only [nest, inBraces, MakeText.splitName, hspan]
  | succ n => rfl

/-- The scan for the closing brace passes over the name of a nest. -/
theorem passes_nest (hx : ∀ c ∈ x, isNameChar c) (n : Nat) (t : Text) :
    Passes '\x7d' (MakeText.source (nest x n).name ++ '\x7d' :: t)
      (MakeText.source (nest x n).name).length := by
  induction n generalizing t with
  | zero =>
    rw [source_nest_zero]
    refine Passes.append (fun c hc => ?_) _
    obtain ⟨hdollar, -, -, hbrace⟩ := of_isNameChar (hx c hc)
    exact ⟨hdollar, hbrace⟩
  | succ n ih =>
    have hclose : closeLength ['\x7d'] (MakeText.source (nest x n).name ++ '\x7d' :: '\x7d' :: t) =
        (MakeText.source (nest x n).name).length + 1 := by
      rw [ih ('\x7d' :: t) [], List.drop_left, closeLength_close (by decide), closeLength_empty]
    rw [source_nest_succ, nest_eq_inBraces, inBraces_text_append, length_inBraces, Nat.add_assoc,
      ← hclose]
    exact Passes.delimited .braces _

theorem readWithin_nest (hne : x ≠ []) (hx : ∀ c ∈ x, isNameChar c) {n levels : Nat}
    (h : n < levels) (t : Text) : readWithin levels ((nest x n).text ++ t) =
      ⟨(nest x n).text.length, [], .ok (some (nest x n))⟩ := by
  induction n generalizing levels t with
  | zero =>
    obtain ⟨inner, rfl⟩ := Nat.exists_eq_add_one_of_ne_zero (Nat.ne_of_gt h)
    refine readWithin_inBraces ?_ (splitName_nest hx 0)
    have hname : MakeText.consLiteral x [] = [.literal x] := by simp [MakeText.consLiteral, hne]
    simpa [Part.source, hname] using argument_nameChars (readWithin inner) hx t
  | succ n ih =>
    obtain ⟨inner, rfl⟩ := Nat.exists_eq_add_one_of_ne_zero (Nat.ne_of_gt (Nat.zero_lt_of_lt h))
    refine readWithin_inBraces ?_ (splitName_nest hx (n + 1))
    have hread := ih (Nat.lt_of_succ_lt_succ h) ('\x7d' :: t)
    have hname := argument_opening (.ok (nest x n)) (nest_opens x n) hread (by simp)
    simpa [Part.source, Except.map] using hname

theorem readWithin_nest_tooDeep (hx : ∀ c ∈ x, isNameChar c) {n levels : Nat}
    (h : levels ≤ n) (t : Text) : ∃ span, readWithin levels ((nest x n).text ++ t) =
      ⟨(nest x n).text.length, [], .error ⟨.nestingTooDeep maxNesting, span⟩⟩ := by
  induction levels generalizing n t with
  | zero =>
    rw [nest_eq_inBraces]
    exact ⟨_, readWithin_zero_inBraces (passes_nest hx n t)⟩
  | succ levels ih =>
    obtain ⟨n, rfl⟩ := Nat.exists_eq_add_one_of_ne_zero (Nat.ne_of_gt (Nat.zero_lt_of_lt h))
    obtain ⟨span, hread⟩ := ih (Nat.le_of_succ_le_succ h) ('\x7d' :: t)
    have hname := argument_opening (.error ⟨.nestingTooDeep maxNesting, span⟩) (nest_opens x n)
      hread (by simp)
    exact ⟨_, @readWithin_inBraces_of_error levels [.reference (nest x n)] t
      ⟨.nestingTooDeep maxNesting, span⟩ (by simpa [Part.source, Except.map] using hname)⟩

end Reference

end RecipeLint

import RecipeLint.Proofs.Reading.Source

/-!
# Keeping pace with the scan

The scan for a closing delimiter knows nothing of names and modifiers.  A reader keeps pace with it
if it only ever stops where the scan comes by with the same delimiters open, since from there both
find the same end.  Readers are made of pieces that keep pace, so there is one rule for each way to
put readings together.

A reader may lose pace only by failing, and the reasons for which it may are left open here.
-/

namespace RecipeLint

/-- The character behind a dollar sign that opens a reference, and the one that closes it. -/
inductive Opens : (opening close : Char) → Prop
  | braces : Opens '\x7b' '\x7d'
  | parentheses : Opens '(' ')'

/-- Characters that mean nothing to a scan, whatever it looks for. -/
def isInert (c : Char) : Bool :=
  c != '$' && c != '\x7d' && c != ')'

theorem isInert_iff {c : Char} : isInert c ↔ c ≠ '$' ∧ c ≠ '\x7d' ∧ c ≠ ')' := by
  simp only [isInert, Bool.and_eq_true, bne_iff_ne, and_assoc]

/-! ## The scan -/

theorem closeLength_empty (text : Text) : closeLength [] text = 0 := by
  rw [closeLength]

theorem closeLength_nil (stack : List Char) : closeLength stack [] = 0 := by
  cases stack <;> rfl

theorem closeLength_pair (close : Char) (stack : List Char) (rest : Text) :
    closeLength (close :: stack) ('$' :: '$' :: rest) = closeLength (close :: stack) rest + 2 := by
  simp [closeLength]

theorem closeLength_opens {opening close : Char} (h : Opens opening close) (outer : Char)
    (stack : List Char) (rest : Text) :
    closeLength (outer :: stack) ('$' :: opening :: rest) =
      closeLength (close :: outer :: stack) rest + 2 := by
  cases h <;> simp [closeLength]

theorem closeLength_other {close c : Char} (hdollar : c ≠ '$') (hclose : c ≠ close)
    (stack : List Char) (rest : Text) :
    closeLength (close :: stack) (c :: rest) = closeLength (close :: stack) rest + 1 := by
  rw [closeLength.eq_6 _ _ _ _ (fun _ h => absurd h hdollar) (fun _ h => absurd h hdollar)
    (fun _ h => absurd h hdollar), if_neg hclose]

theorem closeLength_close {close : Char} (hdollar : close ≠ '$') (stack : List Char)
    (rest : Text) : closeLength (close :: stack) (close :: rest) = closeLength stack rest + 1 := by
  rw [closeLength.eq_6 _ _ _ _ (fun _ h => absurd h hdollar) (fun _ h => absurd h hdollar)
    (fun _ h => absurd h hdollar), if_pos rfl]

/-- A dollar sign opens something only in front of a dollar sign or an opening delimiter. -/
theorem closeLength_dollar {close : Char} (hclose : '$' ≠ close) (stack : List Char) {rest : Text}
    (hpair : ∀ behind, rest ≠ '$' :: behind) (hbrace : ∀ behind, rest ≠ '\x7b' :: behind)
    (hparenthesis : ∀ behind, rest ≠ '(' :: behind) :
    closeLength (close :: stack) ('$' :: rest) = closeLength (close :: stack) rest + 1 := by
  rw [closeLength.eq_6 _ _ _ _ (fun behind _ h => hpair behind h)
    (fun behind _ h => hbrace behind h) (fun behind _ h => hparenthesis behind h), if_neg hclose]

theorem closeLength_append (inner outer : List Char) (text : Text) :
    closeLength (inner ++ outer) text =
      closeLength inner text + closeLength outer (text.drop (closeLength inner text)) := by
  fun_induction closeLength inner text with
  | case1 => simp
  | case2 => simp [closeLength_nil]
  | case3 stack rest hne ih =>
    cases stack with
    | nil => exact absurd rfl hne
    | cons close stack =>
      rw [List.cons_append] at ih ⊢
      rw [closeLength_pair, ih, List.drop_succ_cons, List.drop_succ_cons]
      omega
  | case4 stack rest hne ih =>
    cases stack with
    | nil => exact absurd rfl hne
    | cons close stack =>
      rw [List.cons_append, List.cons_append] at ih
      rw [List.cons_append, closeLength_opens .braces, ih, List.drop_succ_cons,
        List.drop_succ_cons]
      omega
  | case5 stack rest hne ih =>
    cases stack with
    | nil => exact absurd rfl hne
    | cons close stack =>
      rw [List.cons_append, List.cons_append] at ih
      rw [List.cons_append, closeLength_opens .parentheses, ih, List.drop_succ_cons,
        List.drop_succ_cons]
      omega
  | case6 close stack c rest h1 h2 h3 ih =>
    -- Only the innermost delimiter is closed, and that is one of the inner stack.
    have hstack : (if c = close then stack ++ outer else close :: (stack ++ outer)) =
        (if c = close then stack else close :: stack) ++ outer := by
      split_ifs <;> rfl
    rw [List.cons_append, closeLength.eq_6 _ _ _ _ h1 h2 h3, hstack, ih, List.drop_succ_cons]
    omega

/-- Behind some characters of the text, the scan for a closing delimiter comes by with the same
delimiters open as at the start. -/
def Passes (close : Char) (text : Text) (count : Nat) : Prop :=
  ∀ stack, closeLength (close :: stack) text =
    count + closeLength (close :: stack) (text.drop count)

namespace Passes

variable {close : Char} {text : Text}

theorem zero : Passes close text 0 :=
  fun _ => by rw [List.drop_zero, Nat.zero_add]

theorem le_length {count : Nat} (h : Passes close text count) : count ≤ text.length := by
  have hle := closeLength_le [close] text
  rw [h []] at hle
  omega

theorem trans {m n : Nat} (hm : Passes close text m) (hn : Passes close (text.drop m) n) :
    Passes close text (m + n) := by
  intro stack
  rw [hm stack, hn stack, List.drop_drop, Nat.add_assoc]

theorem cons {c : Char} (hdollar : c ≠ '$') (hclose : c ≠ close) (rest : Text) :
    Passes close (c :: rest) 1 := by
  intro stack
  rw [closeLength_other hdollar hclose, List.drop_succ_cons, List.drop_zero, Nat.add_comm]

/-- The scan passes over characters that mean nothing to it. -/
theorem append {front : Text} (hfront : ∀ c ∈ front, c ≠ '$' ∧ c ≠ close) (rest : Text) :
    Passes close (front ++ rest) front.length := by
  induction front with
  | nil => exact zero
  | cons c front ih =>
    have hc := hfront c List.mem_cons_self
    have hrest := ih fun d hd => hfront d (List.mem_cons_of_mem c hd)
    rw [List.cons_append, List.length_cons, Nat.add_comm]
    exact (cons hc.1 hc.2 _).trans hrest

theorem inert {opening : Char} (h : Opens opening close) (front : Text)
    (hfront : front.all isInert) (rest : Text) : Passes close (front ++ rest) front.length := by
  refine append (fun c hc => ?_) rest
  obtain ⟨hdollar, hbrace, hparenthesis⟩ := isInert_iff.mp (List.all_eq_true.mp hfront c hc)
  cases h
  · exact ⟨hdollar, hbrace⟩
  · exact ⟨hdollar, hparenthesis⟩

theorem pair (rest : Text) : Passes close ('$' :: '$' :: rest) 2 := by
  intro stack
  rw [closeLength_pair, List.drop_succ_cons, List.drop_succ_cons, List.drop_zero, Nat.add_comm]

theorem dollar (hclose : '$' ≠ close) {rest : Text} (hpair : ∀ behind, rest ≠ '$' :: behind)
    (hbrace : ∀ behind, rest ≠ '\x7b' :: behind) (hparenthesis : ∀ behind, rest ≠ '(' :: behind) :
    Passes close ('$' :: rest) 1 := by
  intro stack
  rw [closeLength_dollar hclose stack hpair hbrace hparenthesis, List.drop_succ_cons,
    List.drop_zero, Nat.add_comm]

/-- The scan passes over all that is between an opening delimiter and the one that closes it. -/
theorem delimited {opening inner : Char} (h : Opens opening inner) (rest : Text) :
    Passes close ('$' :: opening :: rest) (2 + closeLength [inner] rest) := by
  intro stack
  have happend := closeLength_append [inner] (close :: stack) rest
  rw [List.singleton_append] at happend
  rw [closeLength_opens h, happend, Nat.add_comm 2, List.drop_succ_cons, List.drop_succ_cons]
  omega

end Passes

/-! ## Readings -/

namespace Reading

variable {α β : Type}

def FailsBehind (r : Reading α) (front : Text) (taken : Nat) (failure : Located ReferenceFailure) :
    Prop :=
  r.taken = front.length + taken ∧ r.outcome = .error (failure.shift (Text.byteSize front))

/-- The reading fails somewhere in the text for a reason `lost`: this may be about the text there,
how much of it was taken, and how that failed. -/
def LosesPace (lost : Text → Nat → Located ReferenceFailure → Prop) (text : Text)
    (r : Reading α) : Prop :=
  ∃ front behind taken failure, text = front ++ behind ∧ lost behind taken failure ∧
    r.FailsBehind front taken failure

/-- The reading stops where the scan comes by, or fails for a reason `lost`. -/
def KeepsPace (lost : Text → Nat → Located ReferenceFailure → Prop) (close : Char) (text : Text)
    (r : Reading α) : Prop :=
  Passes close text r.taken ∨ LosesPace lost text r

namespace LosesPace

variable {lost : Text → Nat → Located ReferenceFailure → Prop} {text : Text} {r : Reading α}

theorem congr {r' : Reading β} (h : r.LosesPace lost text) (htaken : r'.taken = r.taken)
    (herror : ∀ e, r.outcome = .error e → r'.outcome = .error e) : r'.LosesPace lost text := by
  obtain ⟨front, behind, taken, failure, htext, hlost, hcount, hfailure⟩ := h
  exact ⟨front, behind, taken, failure, htext, hlost, htaken.trans hcount, herror _ hfailure⟩

theorem after (front : Text) (h : r.LosesPace lost text) :
    (r.after front).LosesPace lost (front ++ text) := by
  obtain ⟨before, behind, taken, failure, rfl, hlost, hcount, hfailure⟩ := h
  refine ⟨front ++ before, behind, taken, failure, by simp, hlost, ?_, ?_⟩
  · rw [taken_after, hcount, List.length_append, Nat.add_assoc]
  · rw [outcome_after_eq_error_iff]
    exact ⟨_, hfailure, by simp [Located.shift, Nat.add_comm]⟩

end LosesPace

namespace KeepsPace

variable {lost : Text → Nat → Located ReferenceFailure → Prop} {close : Char} {text : Text}
  {r : Reading α}

theorem take {count : Nat} (v : α) (h : Passes close text count) :
    (Reading.take count v).KeepsPace lost close text :=
  .inl h

theorem done (v : α) : (Reading.done v).KeepsPace lost close text :=
  take v .zero

theorem passes {v : α} (h : r.KeepsPace lost close text) (hv : r.outcome = .ok v) :
    Passes close text r.taken := by
  rcases h with h | ⟨_, _, _, _, -, -, -, hfailure⟩
  · exact h
  · simp [hv] at hfailure

theorem congr {r' : Reading β} (h : r.KeepsPace lost close text) (htaken : r'.taken = r.taken)
    (herror : ∀ e, r.outcome = .error e → r'.outcome = .error e) :
    r'.KeepsPace lost close text :=
  h.imp (fun h => htaken ▸ h) fun h => h.congr htaken herror

theorem map (f : α → β) (h : r.KeepsPace lost close text) :
    (r.map f).KeepsPace lost close text :=
  h.congr rfl fun _ he => outcome_map_eq_error_iff.mpr he

theorem judge (f : α → Except (Located ReferenceFailure) β) (h : r.KeepsPace lost close text) :
    (r.judge f).KeepsPace lost close text :=
  h.congr rfl fun _ he => outcome_judge_eq_error_iff.mpr (.inl he)

theorem noting (findings : α → List Finding) (h : r.KeepsPace lost close text) :
    (r.noting findings).KeepsPace lost close text := by
  refine h.congr (taken_noting findings r) fun e he => ?_
  simp [Reading.noting, he]

theorem error {e : Located ReferenceFailure} (h : r.KeepsPace lost close text)
    (he : r.outcome = .error e) (findings : List Finding) :
    KeepsPace lost close text (⟨r.taken, findings, .error e⟩ : Reading β) :=
  h.congr rfl fun _ he' => congrArg Except.error (Except.error.inj (he.symm.trans he'))

theorem after (front : Text) (hfront : Passes close (front ++ text) front.length)
    (h : r.KeepsPace lost close text) : (r.after front).KeepsPace lost close (front ++ text) := by
  refine h.imp (fun h => hfront.trans ?_) fun h => h.after front
  rwa [List.drop_left]

theorem literal {r : Reading MakeText} (front : Text)
    (hfront : Passes close (front ++ text) front.length) (h : r.KeepsPace lost close text) :
    (r.literal front).KeepsPace lost close (front ++ text) :=
  (h.map _).after front hfront

theorem andThen {second : Reading β} (hfirst : Passes close text r.taken)
    (hsecond : second.KeepsPace lost close (text.drop r.taken)) :
    (r.andThen (text.take r.taken) second).KeepsPace lost close text := by
  have hlength : (text.take r.taken).length = r.taken :=
    List.length_take_of_le hfirst.le_length
  have hfront : Passes close (text.take r.taken ++ text.drop r.taken)
      (text.take r.taken).length := by
    rwa [List.take_append_drop, hlength]
  have hafter := hsecond.after _ hfront
  rw [List.take_append_drop] at hafter
  exact hafter.congr rfl fun _ he => he

theorem followedBy {next : α → Reader β} (hfirst : r.KeepsPace lost close text)
    (hnext : ∀ v, r.outcome = .ok v →
      (next v (text.drop r.taken)).KeepsPace lost close (text.drop r.taken)) :
    (r.followedBy text next).KeepsPace lost close text := by
  unfold Reading.followedBy
  split
  case h_1 e he => exact hfirst.error he _
  case h_2 v hv => exact andThen (hfirst.passes hv) (hnext v hv)

end KeepsPace

end Reading

end RecipeLint

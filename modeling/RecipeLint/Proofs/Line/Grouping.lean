import Mathlib.Data.List.Forall2
import RecipeLint.Proofs.Line.Assignments

/-!
# What a command is made of

A command is what stands between two control operators.  It is read token by token, with a
redirection that awaits its target in between.  Nothing gets lost that way: from the words and
redirections of the tokens between two control operators it follows what the command is, each word
is used once, and where there are none there is no command.
-/

namespace RecipeLint

namespace Token

def isControl : Token → Bool
  | operator op _ => op.isControl
  | _ => false

def isPart : Token → Bool
  | word _ => true
  | operator op _ => !op.isControl
  | comment .. => false

def runs (tokens : List Token) : List (List Token) :=
  tokens.splitOnP isControl

def words (tokens : List Token) : List Word :=
  tokens.filterMap fun
    | word w => some w
    | _ => none

/-- The redirections of some tokens.  The word directly behind one is its target. -/
def redirects : List Token → List Redirect
  | [] => []
  | operator (.redirect descriptor? kind) span :: word w :: tokens =>
    ⟨descriptor?, kind, some w, span.merge w.span⟩ :: redirects tokens
  | operator (.redirect descriptor? kind) span :: tokens =>
    ⟨descriptor?, kind, none, span⟩ :: redirects tokens
  | _ :: tokens => redirects tokens

/-- The words of some tokens that are not the target of a redirection. -/
def otherWords : List Token → List Word
  | [] => []
  | operator (.redirect _ _) _ :: word _ :: tokens => otherWords tokens
  | word w :: tokens => w :: otherWords tokens
  | _ :: tokens => otherWords tokens

end Token

structure Command.Divides (words : List Word) (assignments : List Assignment) (name? : Option Word)
    (args : List Word) : Prop where
  words : ∃ front, words = front ++ name?.toList ++ args ∧
    front.map Assignment.ofWord? = assignments.map some
  name : ∀ w, name? = some w → Assignment.ofWord? w = none
  args : name? = none → args = []

/-- The command is made of these tokens. -/
structure Command.Groups (tokens : List Token) (c : Command) : Prop where
  redirects : c.redirects = Token.redirects tokens
  words : Divides (Token.otherWords tokens) c.assignments c.name? c.args
  span : ∃ first last, (tokens.filter Token.isPart).head? = some first ∧
    (tokens.filter Token.isPart).getLast? = some last ∧ c.span = ⟨first.span.start, last.span.stop⟩

/-! ## Words -/

namespace Token

/-- A redirection without a word behind it has no target. -/
theorem otherWords_redirect {tokens : List Token}
    (h : ∀ w behind, tokens = word w :: behind → False) (descriptor? : Option Nat)
    (kind : Redirection) (span : Span) :
    otherWords (operator (.redirect descriptor? kind) span :: tokens) = otherWords tokens := by
  cases tokens with
  | nil => rfl
  | cons t tokens =>
    cases t with
    | word w => exact (h w tokens rfl).elim
    | operator | comment => rfl

theorem words_perm (tokens : List Token) :
    ((redirects tokens).filterMap Redirect.target? ++ otherWords tokens).Perm (words tokens) ∧
      ((redirects tokens).filterMap Redirect.target?).Sublist (words tokens) ∧
      (otherWords tokens).Sublist (words tokens) := by
  fun_induction redirects tokens with
  | case1 => exact ⟨.nil, .slnil, .slnil⟩
  | case2 descriptor? kind span w tokens ih =>
    obtain ⟨hperm, htargets, hothers⟩ := ih
    exact ⟨hperm.cons w, htargets.cons_cons w, hothers.cons w⟩
  | case3 descriptor? kind span tokens hword ih =>
    rw [otherWords_redirect hword]
    exact ih
  | case4 t tokens hword hredirect ih =>
    cases t with
    | word w =>
      obtain ⟨hperm, htargets, hothers⟩ := ih
      exact ⟨List.perm_middle.trans (hperm.cons w), htargets.cons w, hothers.cons_cons w⟩
    | operator op span =>
      cases op with
      | control which => exact ih
      | redirect descriptor? kind => exact absurd rfl (hredirect descriptor? kind span)
    | comment text span => exact ih

theorem runs_of_isControl {t : Token} (ht : t.isControl) (tokens : List Token) :
    runs (t :: tokens) = [] :: runs tokens := by
  rw [runs, List.splitOnP_cons_eq_if_modifyHead, if_pos ht, runs]

theorem exists_runs {t : Token} (ht : t.isControl = false) (tokens : List Token) :
    ∃ first others, runs tokens = first :: others ∧ runs (t :: tokens) = (t :: first) :: others := by
  obtain ⟨first, others, hruns⟩ := List.exists_cons_of_ne_nil
    (List.splitOnP_ne_nil isControl tokens)
  refine ⟨first, others, hruns, ?_⟩
  rw [runs, List.splitOnP_cons_eq_if_modifyHead, if_neg (by simp [ht]), hruns, List.modifyHead_cons]

theorem of_mem_runs {tokens run : List Token} (h : run ∈ runs tokens) :
    run.Sublist tokens ∧ ∀ t ∈ run, t.isControl = false := by
  induction tokens generalizing run with
  | nil =>
    obtain rfl : run = [] := by simpa [runs] using h
    exact ⟨.slnil, by simp⟩
  | cons t tokens ih =>
    cases ht : t.isControl with
    | true =>
      rw [runs_of_isControl ht] at h
      rcases List.mem_cons.mp h with rfl | h
      · exact ⟨List.nil_sublist _, by simp⟩
      · exact ⟨(ih h).1.cons t, (ih h).2⟩
    | false =>
      obtain ⟨first, others, hruns, hcons⟩ := exists_runs ht tokens
      rw [hruns] at ih
      rw [hcons] at h
      rcases List.mem_cons.mp h with rfl | h
      · obtain ⟨hsublist, hcontrol⟩ := ih List.mem_cons_self
        exact ⟨hsublist.cons_cons t, List.forall_mem_cons.mpr ⟨ht, hcontrol⟩⟩
      · obtain ⟨hsublist, hcontrol⟩ := ih (List.mem_cons_of_mem _ h)
        exact ⟨hsublist.cons t, hcontrol⟩

theorem flatMap_words_runs (tokens : List Token) : (runs tokens).flatMap words = words tokens := by
  induction tokens with
  | nil => rfl
  | cons t tokens ih =>
    cases ht : t.isControl with
    | true =>
      rw [runs_of_isControl ht]
      cases t with
      | operator op span => exact ih
      | word | comment => exact absurd ht Bool.false_ne_true
    | false =>
      obtain ⟨first, others, hruns, hcons⟩ := exists_runs ht tokens
      rw [hruns, List.flatMap_cons] at ih
      rw [hcons, List.flatMap_cons]
      cases t with
      | word w => exact congrArg (w :: ·) ih
      | operator | comment => exact ih

end Token

/-! ## Drafts -/

namespace Command

namespace Draft

def read (d : Draft) : Token → Draft
  | .word w => d.word w
  | .operator (.redirect descriptor? kind) span => d.redirect ⟨descriptor?, kind, none, span⟩
  | .operator (.control _) _ | .comment .. => d

def readAll (d : Draft) (tokens : List Token) : Draft :=
  tokens.foldl read d

theorem readAll_append (d : Draft) (tokens : List Token) (t : Token) :
    d.readAll (tokens ++ [t]) = (d.readAll tokens).read t := by
  simp [readAll]

end Draft

theorem ofTokensAfter_of_isControl {t : Token} (ht : t.isControl) (d : Draft)
    (tokens : List Token) :
    ofTokensAfter d (t :: tokens) = d.close?.toList ++ ofTokensAfter {} tokens := by
  cases t with
  | operator op span =>
    cases op with
    | control which => rfl
    | redirect => exact absurd ht Bool.false_ne_true
  | word | comment => exact absurd ht Bool.false_ne_true

theorem ofTokensAfter_of_not_isControl {t : Token} (ht : t.isControl = false) (d : Draft)
    (tokens : List Token) : ofTokensAfter d (t :: tokens) = ofTokensAfter (d.read t) tokens := by
  cases t with
  | operator op span =>
    cases op with
    | control which => exact absurd ht.symm Bool.false_ne_true
    | redirect => rfl
  | word | comment => rfl

/-- Tokens are read from one control operator to the next. -/
theorem ofTokensAfter_eq_filterMap {front : List Token} (hfront : ∀ t ∈ front, t.isControl = false)
    (tokens : List Token) : ofTokensAfter (({} : Draft).readAll front) tokens =
      (Token.runs (front ++ tokens)).filterMap fun run => (({} : Draft).readAll run).close? := by
  induction tokens generalizing front with
  | nil =>
    rw [List.append_nil, Token.runs, List.splitOnP_eq_singleton hfront, ofTokensAfter]
    cases hclose : (({} : Draft).readAll front).close? <;> simp [hclose]
  | cons t tokens ih =>
    cases ht : t.isControl with
    | true =>
      have hruns : Token.runs (front ++ t :: tokens) = front :: Token.runs tokens :=
        List.splitOnP_append_cons_of_forall_mem hfront t ht tokens
      have hempty := @ih [] (by simp)
      rw [List.nil_append] at hempty
      rw [ofTokensAfter_of_isControl ht, hruns, List.filterMap_cons, ← hempty]
      cases (({} : Draft).readAll front).close? <;> rfl
    | false =>
      have hmore : ∀ u ∈ front ++ [t], u.isControl = false := by
        intro u hu
        rcases List.mem_append.mp hu with hu | hu
        · exact hfront u hu
        · exact List.mem_singleton.mp hu ▸ ht
      rw [ofTokensAfter_of_not_isControl ht, ← Draft.readAll_append, ih hmore, List.append_assoc,
        List.singleton_append]

theorem ofTokens_eq_filterMap (tokens : List Token) : ofTokens tokens =
    (Token.runs tokens).filterMap fun run => (({} : Draft).readAll run).close? := by
  have hempty := @ofTokensAfter_eq_filterMap [] (by simp) tokens
  rwa [List.nil_append] at hempty

/-! ## The parts of a command -/

namespace Divides

variable {words args : List Word} {assignments : List Assignment} {w : Word}

theorem nil : Divides [] [] none [] :=
  ⟨⟨[], rfl, rfl⟩, nofun, fun _ => rfl⟩

theorem assignment (h : Divides words assignments none args) {a : Assignment}
    (ha : Assignment.ofWord? w = some a) :
    Divides (words ++ [w]) (assignments ++ [a]) none args := by
  obtain ⟨⟨front, hwords, hfront⟩, -, hargs⟩ := h
  refine ⟨⟨front ++ [w], ?_, by simp [hfront, ha]⟩, nofun, hargs⟩
  rw [hwords, hargs rfl]
  simp

theorem command (h : Divides words assignments none args) (hw : Assignment.ofWord? w = none) :
    Divides (words ++ [w]) assignments (some w) args := by
  obtain ⟨⟨front, hwords, hfront⟩, -, hargs⟩ := h
  refine ⟨⟨front, ?_, hfront⟩, ?_, nofun⟩
  · rw [hwords, hargs rfl]
    simp
  · intro v hv
    rwa [← Option.some.inj hv]

theorem arg {name : Word} (h : Divides words assignments (some name) args) (w : Word) :
    Divides (words ++ [w]) assignments (some name) (args ++ [w]) := by
  obtain ⟨⟨front, hwords, hfront⟩, hname, -⟩ := h
  exact ⟨⟨front, by rw [hwords, List.append_assoc _ args], hfront⟩, hname, nofun⟩

end Divides

namespace Draft

/-- The draft has these redirections and these other words, and awaits nothing. -/
structure Holds (d : Draft) (redirects : List Redirect) (words : List Word) : Prop where
  redirects : d.redirects = redirects
  awaiting : d.awaiting? = none
  words : Divides words d.assignments d.name? d.args

/-- A redirection that awaits its target gets none unless a word comes next. -/
theorem settle_readAll (d : Draft) {tokens : List Token}
    (hword : ∀ w behind, tokens = .word w :: behind → False)
    (hcomment : tokens.Pairwise fun s _ => s.isComment = false)
    (hcontrol : ∀ t ∈ tokens, t.isControl = false) :
    (d.settle.readAll tokens).settle = (d.readAll tokens).settle := by
  have hsettle : d.settle.settle = d.settle := by simp [settle]
  cases tokens with
  | nil => exact hsettle
  | cons t tokens =>
    cases t with
    | word w => exact (hword w tokens rfl).elim
    | operator op span =>
      cases op with
      | control which => exact absurd (hcontrol _ List.mem_cons_self).symm Bool.false_ne_true
      | redirect descriptor? kind =>
        -- The next redirection settles this one.
        have hread : d.settle.read (.operator (.redirect descriptor? kind) span) =
            d.read (.operator (.redirect descriptor? kind) span) := by
          simp [read, redirect, cover, settle]
        rw [readAll, readAll, List.foldl_cons, List.foldl_cons, hread]
    | comment text span =>
      have hlast : tokens = [] := List.eq_nil_iff_forall_not_mem.mpr fun t ht =>
        Bool.false_ne_true (List.rel_of_pairwise_cons hcomment ht).symm
      subst hlast
      exact hsettle

namespace Holds

variable {d : Draft} {redirects : List Redirect} {words : List Word}

theorem word (h : d.Holds redirects words) (w : Word) :
    (d.word w).Holds redirects (words ++ [w]) := by
  have hawaiting : (d.cover w.span).awaiting? = none := h.awaiting
  have hwords := h.words
  unfold Draft.word
  simp only [hawaiting]
  split
  case h_1 name hname =>
    have hname : d.name? = some name := hname
    rw [hname] at hwords
    exact ⟨h.redirects, rfl, by simpa [hname, cover] using hwords.arg w⟩
  case h_2 a hname ha =>
    have hname : d.name? = none := hname
    rw [hname] at hwords
    exact ⟨h.redirects, rfl, by simpa [hname, cover] using hwords.assignment ha⟩
  case h_3 hname ha =>
    have hname : d.name? = none := hname
    rw [hname] at hwords
    exact ⟨h.redirects, rfl, hwords.command ha⟩

theorem target (h : d.Holds redirects words) (r : Redirect) (w : Word) :
    ((d.redirect r).word w).Holds
      (redirects ++ [{ r with target? := some w, span := r.span.merge w.span }]) words := by
  have hsettle : (d.redirect r).redirects = redirects := by
    simp [redirect, settle, cover, h.redirects, h.awaiting]
  exact ⟨by rw [← hsettle]; rfl, rfl, h.words⟩

theorem settle (h : d.Holds redirects words) (r : Redirect) :
    (d.redirect r).settle.Holds (redirects ++ [r]) words := by
  have hsettle : (d.redirect r).redirects = redirects := by
    simp [redirect, Draft.settle, cover, h.redirects, h.awaiting]
  exact ⟨by rw [← hsettle]; rfl, rfl, h.words⟩

theorem run (h : d.Holds redirects words) {tokens : List Token}
    (hcomment : tokens.Pairwise fun s _ => s.isComment = false)
    (hcontrol : ∀ t ∈ tokens, t.isControl = false) :
    (d.readAll tokens).settle.Holds (redirects ++ Token.redirects tokens)
      (words ++ Token.otherWords tokens) := by
  fun_induction Token.redirects tokens generalizing d redirects words with
  | case1 =>
    have hsettle : d.settle = d := by
      have hawaiting := h.awaiting
      cases d
      simp_all [Draft.settle]
    have hread : d.readAll [] = d := rfl
    rw [hread, hsettle, Token.otherWords, List.append_nil, List.append_nil]
    exact h
  | case2 descriptor? kind span w tokens ih =>
    have hlater := ih (h.target ⟨descriptor?, kind, none, span⟩ w) hcomment.tail.tail
      fun t ht => hcontrol t (by simp [ht])
    rw [List.append_assoc] at hlater
    exact hlater
  | case3 descriptor? kind span tokens hword ih =>
    have hlater := ih (h.settle ⟨descriptor?, kind, none, span⟩) hcomment.tail
      fun t ht => hcontrol t (by simp [ht])
    rw [settle_readAll _ hword hcomment.tail fun t ht => hcontrol t (by simp [ht]),
      List.append_assoc] at hlater
    rw [Token.otherWords_redirect hword]
    exact hlater
  | case4 t tokens hword hredirect ih =>
    have hrest : tokens.Pairwise fun s _ => s.isComment = false := hcomment.tail
    have hnone : ∀ t ∈ tokens, t.isControl = false := fun t ht => hcontrol t (by simp [ht])
    cases t with
    | word w =>
      have hlater := ih (h.word w) hrest hnone
      rw [List.append_assoc] at hlater
      exact hlater
    | operator op span =>
      cases op with
      | control which => exact ih h hrest hnone
      | redirect descriptor? kind => exact absurd rfl (hredirect descriptor? kind span)
    | comment text span => exact ih h hrest hnone

end Holds

theorem span?_read (d : Draft) (t : Token) : (d.read t).span? =
    if t.isPart then some (d.span?.elim t.span (·.merge t.span)) else d.span? := by
  cases t with
  | word w =>
    unfold read word
    dsimp only
    repeat' split
    all_goals simp_all [cover, Token.isPart, Token.span]
  | operator op span => cases op <;> rfl
  | comment text span => rfl

theorem span?_readAll_of_some {d : Draft} {s : Span} (hd : d.span? = some s) (hs : s.start ≤ s.stop)
    {tokens : List Token}
    (hbounds : ∀ t ∈ tokens, s.stop ≤ t.span.start ∧ t.span.start ≤ t.span.stop)
    (hprecedes : tokens.Pairwise Token.Precedes) :
    (d.readAll tokens).span? = some ⟨s.start,
      (tokens.filter Token.isPart).getLast?.elim s.stop fun t => t.span.stop⟩ := by
  induction tokens generalizing d s with
  | nil => exact hd
  | cons t tokens ih =>
    obtain ⟨ht, hbounds⟩ := List.forall_mem_cons.mp hbounds
    obtain ⟨hfirst, hprecedes⟩ := List.pairwise_cons.mp hprecedes
    have hread := d.span?_read t
    have hcons : d.readAll (t :: tokens) = (d.read t).readAll tokens := rfl
    rw [hcons, List.filter_cons]
    split
    case isTrue hpart =>
      have hmerge : s.merge t.span = ⟨s.start, t.span.stop⟩ := by
        simp only [Span.merge, Span.mk.injEq]
        omega
      rw [if_pos hpart, hd, Option.elim_some, hmerge] at hread
      have hbehind : ∀ u ∈ tokens, t.span.stop ≤ u.span.start ∧ u.span.start ≤ u.span.stop :=
        fun u hu => ⟨(hfirst u hu).2, (hbounds u hu).2⟩
      rw [ih hread (by dsimp only; omega) hbehind hprecedes, List.getLast?_cons]
      cases (tokens.filter Token.isPart).getLast? <;> rfl
    case isFalse hpart =>
      rw [if_neg hpart, hd] at hread
      exact ih hread hs hbounds hprecedes

theorem span?_readAll_of_none {d : Draft} (hd : d.span? = none) {tokens : List Token}
    (hbounds : ∀ t ∈ tokens, t.span.start ≤ t.span.stop)
    (hprecedes : tokens.Pairwise Token.Precedes) :
    tokens.filter Token.isPart = [] ∧ (d.readAll tokens).span? = none ∨
      ∃ first last, (tokens.filter Token.isPart).head? = some first ∧
        (tokens.filter Token.isPart).getLast? = some last ∧
        (d.readAll tokens).span? = some ⟨first.span.start, last.span.stop⟩ := by
  induction tokens generalizing d with
  | nil => exact .inl ⟨rfl, hd⟩
  | cons t tokens ih =>
    obtain ⟨ht, hbounds⟩ := List.forall_mem_cons.mp hbounds
    obtain ⟨hfirst, hprecedes⟩ := List.pairwise_cons.mp hprecedes
    have hread := d.span?_read t
    have hcons : d.readAll (t :: tokens) = (d.read t).readAll tokens := rfl
    rw [hcons, List.filter_cons]
    split
    case isTrue hpart =>
      rw [if_pos hpart, hd, Option.elim_none] at hread
      rw [span?_readAll_of_some hread ht (fun u hu => ⟨(hfirst u hu).2, hbounds u hu⟩) hprecedes,
        List.getLast?_cons]
      refine .inr ⟨t, _, rfl, rfl, ?_⟩
      cases (tokens.filter Token.isPart).getLast? <;> rfl
    case isFalse hpart =>
      rw [if_neg hpart, hd] at hread
      exact ih hread hbounds hprecedes

end Draft

/-- The tokens between two control operators make a command, unless there is no word and no
redirection among them. -/
theorem close?_readAll {run : List Token} (hcontrol : ∀ t ∈ run, t.isControl = false)
    (hbounds : ∀ t ∈ run, t.span.start ≤ t.span.stop) (hprecedes : run.Pairwise Token.Precedes) :
    run.any Token.isPart = false ∧ (({} : Draft).readAll run).close? = none ∨
      run.any Token.isPart ∧ ∃ c, (({} : Draft).readAll run).close? = some c ∧ Groups run c := by
  have hcomment : run.Pairwise fun s _ => s.isComment = false := hprecedes.imp And.left
  have hempty : ({} : Draft).Holds [] [] := ⟨rfl, rfl, .nil⟩
  have hholds := hempty.run hcomment hcontrol
  rw [List.nil_append, List.nil_append] at hholds
  have hspan := Draft.span?_readAll_of_none (d := {}) rfl hbounds hprecedes
  have hsettle : (({} : Draft).readAll run).settle.span? = (({} : Draft).readAll run).span? := rfl
  unfold Draft.close?
  dsimp only
  rw [hsettle]
  rcases hspan with ⟨hnone, hspan⟩ | ⟨first, last, hfirst, hlast, hspan⟩
  · rw [hspan]
    refine .inl ⟨?_, rfl⟩
    rw [List.any_eq_false]
    exact List.filter_eq_nil_iff.mp hnone
  · rw [hspan]
    refine .inr ⟨?_, _, rfl, hholds.redirects, hholds.words, first, last, hfirst, hlast, rfl⟩
    obtain ⟨hmem, hpart⟩ := List.mem_filter.mp (List.mem_of_head? hfirst)
    exact List.any_eq_true.mpr ⟨first, hmem, hpart⟩

end Command

theorem forall₂_filter_filterMap {α β : Type} {R : α → β → Prop} {p : α → Bool} {f : α → Option β}
    {xs : List α} (h : ∀ x ∈ xs, p x = false ∧ f x = none ∨ p x ∧ ∃ y, f x = some y ∧ R x y) :
    List.Forall₂ R (xs.filter p) (xs.filterMap f) := by
  induction xs with
  | nil => exact .nil
  | cons x xs ih =>
    obtain ⟨hx, hxs⟩ := List.forall_mem_cons.mp h
    rcases hx with ⟨hp, hf⟩ | ⟨hp, y, hf, hy⟩
    · rw [List.filter_cons_of_neg (by simp [hp]), List.filterMap_cons_none hf]
      exact ih hxs
    · rw [List.filter_cons_of_pos hp, List.filterMap_cons_some hf]
      exact .cons hy (ih hxs)

/-- Grouping tokens into commands loses, doubles and reorders nothing.  There is one command for each
stretch between control operators with a word or a redirection in it, in their order, and it is made
of what stands there: each word is the target of the redirection in front of it or one of the other
words, which are assignments, then the name of the command, and then its arguments.  What an
assignment says is what its word does. -/
theorem lex_commands (text : Text) (q : Quoting) :
    List.Forall₂ Command.Groups
      ((Token.runs (Token.ofAtoms (lex text q).atoms (lex text q).quoting)).filter
        fun run => run.any Token.isPart)
      (Command.ofTokens (Token.ofAtoms (lex text q).atoms (lex text q).quoting)) ∧
    (Token.runs (Token.ofAtoms (lex text q).atoms (lex text q).quoting)).flatMap Token.words =
      Token.words (Token.ofAtoms (lex text q).atoms (lex text q).quoting) ∧
    (∀ run ∈ Token.runs (Token.ofAtoms (lex text q).atoms (lex text q).quoting),
      ((Token.redirects run).filterMap Redirect.target? ++ Token.otherWords run).Perm
        (Token.words run) ∧
      ((Token.redirects run).filterMap Redirect.target?).Sublist (Token.words run) ∧
      (Token.otherWords run).Sublist (Token.words run)) ∧
    ∀ w a, Token.word w ∈ Token.ofAtoms (lex text q).atoms (lex text q).quoting →
      Assignment.ofWord? w = some a → a.Reads text w := by
  refine ⟨?_, Token.flatMap_words_runs _, fun run _ => Token.words_perm run,
    fun w a hw ha => Assignment.reads_of_ofWord? hw ha⟩
  rw [Command.ofTokens_eq_filterMap]
  refine forall₂_filter_filterMap fun run hrun => ?_
  obtain ⟨hsublist, hcontrol⟩ := Token.of_mem_runs hrun
  exact Command.close?_readAll hcontrol
    (fun t ht => lex_tokens_span text q t (hsublist.subset ht))
    ((lex_tokens_precede text q).sublist hsublist)

end RecipeLint

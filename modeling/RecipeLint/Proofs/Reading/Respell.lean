import RecipeLint.Proofs.Reading.Shown
import RecipeLint.Reference.Spelling

/-!
# References with and without the quoting modifier

A spelling in braces that keeps the name and adds a link to the chain, or drops one, is read as the
reference with just that change, whatever is put behind it.  The last modifier must not be one that
a colon would continue, and what stood in parentheses must not hold the closing brace.
-/

namespace RecipeLint

open Reading

theorem Link.AllStand.append {nested : Reader (Option Reference)} {close : Char} {name : Text}
    {mayJoin : Bool} {behind : Text} {front : List Link} {m : Modifier} :
    AllStand nested close name mayJoin behind (front ++ [.colon m]) ↔
      AllStand nested close name mayJoin (':' :: (m.source ++ behind)) front ∧
        Reads (Modifier.read nested close name) 0 m.source (some m) behind := by
  induction front generalizing mayJoin with
  | nil => simp [AllStand, Stands]
  | cons link front ih =>
    have htext : (front ++ [colon m]).flatMap source ++ behind =
        front.flatMap source ++ ':' :: (m.source ++ behind) := by simp [source]
    rw [List.cons_append, AllStand, AllStand, htext, ih, and_assoc]

theorem Modifier.reads_quote {nested : Reader (Option Reference)} {close : Char} {name t : Text}
    (hclose : close.isAlphanum = false) :
    Reads (read nested close name) 0 ['Q'] (some .quote) (close :: t) := by
  have hword : (['Q'] ++ close :: t).takeWhile Char.isAlphanum = ['Q'] := by simp [hclose]
  exact (reads_read hword).mpr (.inl ⟨rfl, rfl⟩)

/-- The name of a reference of one character is read between braces, too. -/
theorem Modifier.reads_bareName {nested : Reader (Option Reference)} {c : Char}
    (hc : isBareName c) (rest : Text) :
    Reads (argument nested '\x7d' false) 0 [c] [.literal [c]] (':' :: rest) := by
  have hne {d : Char} (hd : isBareName d = false) : c ≠ d := by
    rintro rfl
    simp [hc] at hd
  have hcolon : c ≠ ':' := hne (by decide)
  have hbrace : c ≠ '\x7d' := hne (by decide)
  have hplain : Pieces nested (fun c => c == ':' || c == '\x7d') false ':' rest [c]
      (MakeText.consLiteral [c] []) :=
    .plain (hne (by decide)) (by simp) (by simp [hcolon, hbrace]) (.stop (by decide) rfl)
  exact reads_of_pieces hplain

namespace Reference

def hasLiteral (c : Char) (r : Reference) : Bool :=
  MakeText.hasLiteral c r.name || r.modifiers.any (Modifier.hasLiteral c)

def withChain (r : Reference) (chain : List Link) : Reference :=
  ⟨.braces, r.name, chain, bracedSpelling r.varname (chain.flatMap Link.source)⟩

theorem text_withChain_append_quote (r : Reference) :
    (r.withChain (r.chain ++ [.colon .quote])).text = r.quoted := by
  simp [quoted, withChain, modifierText, Link.source, Modifier.source]

theorem text_withChain_of_append_quote {r : Reference} {init : List Link}
    (h : r.chain = init ++ [.colon .quote]) : (r.withChain init).text = r.unquoted := by
  have hsuffix : [':', 'Q'].isSuffixOf (init.flatMap Link.source ++ [':', 'Q']) :=
    List.isSuffixOf_iff_suffix.mpr (List.suffix_append _ _)
  simp [unquoted, withChain, modifierText, h, Link.source, Modifier.source, Text.withoutEnding,
    hsuffix]

theorem reads_withChain {inner : Nat} {r : Reference} {chain : List Link} {t : Text}
    (h : Reads (readBody (readWithin inner) '\x7d') 0 (r.varname ++ chain.flatMap Link.source)
      (r.name, chain) ('\x7d' :: t)) :
    Reads (readWithin (inner + 1)) 0 (r.withChain chain).text (some (r.withChain chain)) t :=
  (reads_cons '$').mpr (reads_readWithin.mpr (.inl
    ⟨inner, .braces, '\x7b', '\x7d', _, r.name, chain, rfl, .braces, rfl, rfl, h⟩))

theorem getLast?_modifiers {r : Reference} {link : Link} {m : Modifier}
    (hlast : r.chain.getLast? = some link) (hm : link.modifier? = some m) :
    r.modifiers.getLast? = some m := by
  obtain ⟨init, hinit⟩ := List.getLast?_eq_some_iff.mp hlast
  simp [modifiers, hinit, hm]

theorem reads_quoted {r : Reference} (h : r.ReadBy (readWithin maxNesting))
    (hdelimiter : r.delimiter ≠ .parentheses)
    (hlast : ∀ m, r.modifiers.getLast? = some m → m.needsClose = false) (t : Text) :
    Reads read 0 r.quoted (some (r.withChain (r.chain ++ [.colon .quote]))) t := by
  rw [← text_withChain_append_quote]
  obtain ⟨s, t₀, hread⟩ := h
  rcases reads_readWithin.mp hread with
    ⟨inner, delimiter, opening, close, s', name, chain, hlevels, hwrites, -, rfl, hbody⟩ |
    ⟨c, -, hc, rfl⟩
  · have hextends : Extends (readWithin inner) (readWithin inner) :=
      extends_readWithin (Nat.le_refl inner)
    cases hwrites with
    | parentheses => exact absurd rfl hdelimiter
    | braces =>
      obtain ⟨-, hname, hstand⟩ := (reads_readBody hextends.fits .braces).mp hbody
      have hfront : Link.AllStand (readWithin inner) '\x7d' (MakeText.source name) false
          (':' :: (['Q'] ++ '\x7d' :: t)) chain := by
        refine hstand.again hextends .braces .braces Opens.braces.isEnd
          (fun _ _ _ _ => .inl rfl) (.inr ⟨rfl, rfl, .inr fun link m hlink hm => ?_⟩)
        exact hlast m (getLast?_modifiers hlink hm)
      obtain rfl : inner = 63 := (Nat.succ.inj hlevels).symm
      exact reads_withChain (readBody_of_allStand hextends .braces .braces hbody (.inl rfl)
        (Link.AllStand.append.mpr ⟨hfront, Modifier.reads_quote (by decide)⟩))
  · exact reads_withChain ((reads_readBody (readWithin_fits 63) .braces).mpr
      ⟨rfl, Modifier.reads_bareName hc _, Modifier.reads_quote (by decide), trivial⟩)

/-- The reference without the quoting modifier at its end is read from its spelling. -/
theorem reads_unquoted {r : Reference} (h : r.ReadBy (readWithin maxNesting)) {init : List Link}
    (hchain : r.chain = init ++ [.colon .quote])
    (hclear : r.delimiter = .braces ∨ r.hasLiteral '\x7d' = false) (t : Text) :
    Reads read 0 r.unquoted (some (r.withChain init)) t := by
  rw [← text_withChain_of_append_quote hchain]
  obtain ⟨s, t₀, hread⟩ := h
  rcases reads_readWithin.mp hread with
    ⟨inner, delimiter, opening, close, s', name, chain, hlevels, hwrites, -, rfl, hbody⟩ |
    ⟨c, -, hc, rfl⟩
  · have hextends : Extends (readWithin inner) (readWithin inner) :=
      extends_readWithin (Nat.le_refl inner)
    obtain rfl : inner = 63 := (Nat.succ.inj hlevels).symm
    obtain rfl : chain = init ++ [.colon .quote] := hchain
    obtain ⟨-, hname, hstand⟩ := (reads_readBody hextends.fits hwrites.opens).mp hbody
    have hclear' : '\x7d' = close ∨ MakeText.shows false '\x7d' name = false ∧
        ∀ link ∈ init, ∀ m, link.modifier? = some m →
          m.shows (readWithin 63) '\x7d' = false := by
      rcases hclear with hbraces | hclear
      · cases hwrites with
        | braces => exact .inl rfl
        | parentheses => simp at hbraces
      · obtain ⟨hname, hmodifiers⟩ := Bool.or_eq_false_iff.mp hclear
        refine .inr ⟨MakeText.not_shows_of_not_hasLiteral hname, fun link hlink m hm =>
          Modifier.not_shows_of_not_hasLiteral hextends.fits ?_⟩
        have hmem : m ∈ modifiers ⟨delimiter, name, init ++ [.colon .quote], '$' :: s⟩ :=
          List.mem_filterMap.mpr ⟨link, List.mem_append_left _ hlink, hm⟩
        simpa using List.any_eq_false.mp hmodifiers m hmem
    have hfront := (Link.AllStand.append.mp hstand).1
    exact reads_withChain (readBody_of_allStand hextends hwrites.opens .braces hbody
      (hclear'.imp_right And.left) (hfront.again hextends hwrites.opens .braces (by decide)
        (fun link hlink m hm => hclear'.imp_right fun h => h.2 link hlink m hm) (.inl rfl)))
  · simp [bareOf] at hchain

end Reference

end RecipeLint

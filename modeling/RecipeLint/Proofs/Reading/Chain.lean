import RecipeLint.Proofs.Reading.Reread

/-!
# Chains link by link

A chain in front of the closing delimiter is read as some links if the characters are those of the
links and each link stands: it is read so in front of those that follow it.  Links can then be
added, taken away or written under another delimiter one by one.
-/

namespace RecipeLint

open Reading

namespace Link

def isOpen (link : Link) : Bool :=
  link.modifier?.any Modifier.isSubstitution

/-- The link is read in front of what follows, where `mayJoin` says whether it needs no colon. -/
def Stands (nested : Reader (Option Reference)) (close : Char) (name : Text) (mayJoin : Bool)
    (behind : Text) : Link → Prop
  | empty => Reads (Modifier.read nested close name) 0 [] none behind
  | colon m => Reads (Modifier.read nested close name) 0 m.source (some m) behind
  | joined m => mayJoin ∧ (∀ rest, m.source ++ behind ≠ ':' :: rest) ∧
      Reads (Modifier.read nested close name) 0 m.source (some m) behind

def AllStand (nested : Reader (Option Reference)) (close : Char) (name : Text) (mayJoin : Bool)
    (behind : Text) : List Link → Prop
  | [] => True
  | link :: chain => link.Stands nested close name mayJoin (chain.flatMap source ++ behind) ∧
      AllStand nested close name link.isOpen behind chain

end Link

namespace Reference

variable {nested : Reader (Option Reference)} {opening close : Char} {name : Text} {mayJoin : Bool}
  {s t : Text} {b : Char} {chain : List Link}

theorem readChain_colon (rest : Text) : readChain nested close name mayJoin (':' :: rest) =
    ((Modifier.read nested close name rest).followedBy rest fun m? rest =>
      (readChain nested close name (m?.any Modifier.isSubstitution) rest).map
        (Link.ofColon m? :: ·)).after [':'] := by
  rw [readChain]
  cases hok : (Modifier.read nested close name rest).outcome with
  | error failure => simp only [hok, Reading.followedBy]
  | ok m? =>
    simp only [hok, Reading.followedBy, andThen_map]

theorem readChain_joined (hfits : FitsDollar nested) {c : Char} {rest : Text} {m : Modifier}
    (hc : c ≠ ':') (hok : (Modifier.read nested close name (c :: rest)).outcome = .ok (some m)) :
    readChain nested close name true (c :: rest) =
      (Modifier.read nested close name (c :: rest)).followedBy (c :: rest) fun _ rest =>
        (readChain nested close name m.isSubstitution rest).map (.joined m :: ·) := by
  have hpos := Modifier.taken_pos_of_some hfits close name hok
  obtain ⟨htake, hdrop⟩ := Text.cons_take_pred hpos c rest
  rw [readChain.eq_3 _ _ _ _ _ _ hc]
  simp only [hok, Reading.followedBy, htake, hdrop, if_true, andThen_map]

theorem readChain_stop {c : Char} {rest : Text} (hc : c ≠ ':')
    (h : mayJoin → (Modifier.read nested close name (c :: rest)).outcome = .ok none) :
    readChain nested close name mayJoin (c :: rest) = .done [] := by
  rw [readChain.eq_3 _ _ _ _ _ _ hc]
  cases mayJoin with
  | false => rfl
  | true => simp only [h rfl, if_true]

theorem read_close (hopens : Opens opening close) :
    Modifier.read nested close name (close :: t) = .done none := by
  have hletter : close.isAlphanum = false := eq_false_of_isEnd (by decide) hopens.isEnd
  have hword : (close :: t).takeWhile Char.isAlphanum = [] := by
    rw [List.takeWhile_cons, hletter]
    rfl
  have hform : Modifier.readForm nested close name close t =
      Modifier.readGeneral nested close name (close :: t) :=
    Modifier.readForm_of_isFence close name (by cases hopens <;> decide) t
  have hstop : Modifier.argument nested close false (close :: t) = .done [] :=
    makeText_stop nested false (ne_of_isEnd hopens.isEnd (by decide)) (by simp) t
  have hread : Modifier.read nested close name (close :: t) =
      Modifier.readForm nested close name close t := by
    simp only [Modifier.read, hword]
    rfl
  rw [hread, hform, Modifier.readGeneral, hstop]
  rfl

theorem readChain_close (hopens : Opens opening close) :
    readChain nested close name mayJoin (close :: t) = .done [] :=
  readChain_stop hopens.ne_colon fun _ => by rw [read_close hopens]; rfl

theorem reads_readChain_colon :
    Reads (readChain nested close name mayJoin) 0 (':' :: s) chain (b :: t) ↔
    ∃ s₁ s₂ m? links, s = s₁ ++ s₂ ∧ chain = .ofColon m? :: links ∧
      Reads (Modifier.read nested close name) 0 s₁ m? (s₂ ++ b :: t) ∧
      Reads (readChain nested close name (m?.any Modifier.isSubstitution)) 0 s₂ links (b :: t) := by
  rw [reads_cons, funext readChain_colon]
  refine (reads_after [':']).trans (reads_followedBy.trans ?_)
  constructor
  · rintro ⟨s₁, s₂, m?, rfl, hread, hchain⟩
    obtain ⟨links, hlinks, rfl⟩ := reads_map.mp hchain
    exact ⟨s₁, s₂, m?, links, rfl, rfl, hread, hlinks⟩
  · rintro ⟨s₁, s₂, m?, links, rfl, rfl, hread, hlinks⟩
    exact ⟨s₁, s₂, m?, rfl, hread, reads_map.mpr ⟨links, hlinks, rfl⟩⟩

theorem reads_readChain_joined (hfits : FitsDollar nested) {c : Char} (hc : c ≠ ':') :
    Reads (readChain nested close name mayJoin) 0 (c :: s) chain (b :: t) ↔
      mayJoin ∧ ∃ s₁ s₂ m links, c :: s = s₁ ++ s₂ ∧ chain = .joined m :: links ∧
        Reads (Modifier.read nested close name) 0 s₁ (some m) (s₂ ++ b :: t) ∧
        Reads (readChain nested close name m.isSubstitution) 0 s₂ links (b :: t) := by
  have htext {s₁ s₂ : Text} (h : c :: s = s₁ ++ s₂) :
      s₁ ++ (s₂ ++ b :: t) = c :: (s ++ b :: t) := by
    rw [← List.append_assoc, ← h, List.cons_append]
  constructor
  · intro h
    have hstop (hnone : mayJoin →
        (Modifier.read nested close name (c :: (s ++ b :: t))).outcome = .ok none) : False := by
      have htaken := h.taken
      rw [List.cons_append, readChain_stop hc hnone] at htaken
      simp [Reading.done] at htaken
    cases mayJoin with
    | false => exact (hstop (by simp)).elim
    | true =>
      refine ⟨rfl, ?_⟩
      cases hok : (Modifier.read nested close name (c :: (s ++ b :: t))).outcome with
      | error failure =>
        have houtcome := h.outcome
        rw [List.cons_append, readChain.eq_3 _ _ _ _ _ _ hc] at houtcome
        simp [hok] at houtcome
      | ok m? =>
        cases m? with
        | none => exact (hstop fun _ => hok).elim
        | some m =>
          obtain ⟨s₁, s₂, m?, hs, hread, hchain⟩ := reads_followedBy.mp
            ((reads_congr _ (readChain_joined hfits hc hok)).mp h)
          obtain ⟨links, hlinks, rfl⟩ := reads_map.mp hchain
          obtain rfl : m? = some m := by
            have houtcome := hread.outcome
            rw [htext hs, hok] at houtcome
            exact (Except.ok.inj houtcome).symm
          exact ⟨s₁, s₂, m, links, hs, rfl, hread, hlinks⟩
  · rintro ⟨hjoin, s₁, s₂, m, links, hs, rfl, hread, hlinks⟩
    subst hjoin
    have hok := hread.outcome
    rw [htext hs] at hok
    exact (reads_congr _ (readChain_joined hfits hc hok)).mpr
      (reads_followedBy.mpr ⟨s₁, s₂, some m, hs, hread, reads_map.mpr ⟨links, hlinks, rfl⟩⟩)

/-- A chain in front of the closing delimiter is what its links are. -/
theorem reads_readChain (hfits : FitsDollar nested) (hopens : Opens opening close) :
    Reads (readChain nested close name mayJoin) 0 s chain (close :: t) ↔
      s = chain.flatMap Link.source ∧
        Link.AllStand nested close name mayJoin (close :: t) chain := by
  induction chain generalizing mayJoin s with
  | nil =>
    constructor
    · intro h
      cases s with
      | nil => exact ⟨rfl, trivial⟩
      | cons c s =>
        by_cases hc : c = ':'
        · subst hc
          obtain ⟨s₁, s₂, m?, links, -, hlinks, -⟩ := reads_readChain_colon.mp h
          simp at hlinks
        · obtain ⟨-, s₁, s₂, m, links, -, hlinks, -⟩ := (reads_readChain_joined hfits hc).mp h
          simp at hlinks
    · rintro ⟨rfl, -⟩
      exact (reads_done.mpr ⟨rfl, rfl⟩).congr (readChain_close hopens)
  | cons link chain ih =>
    constructor
    · intro h
      cases s with
      | nil =>
        have houtcome := h.outcome
        rw [List.nil_append, readChain_close hopens] at houtcome
        simp [Reading.done] at houtcome
      | cons c s =>
        by_cases hc : c = ':'
        · subst hc
          obtain ⟨s₁, s₂, m?, links, rfl, hlinks, hread, hrest⟩ := reads_readChain_colon.mp h
          obtain ⟨rfl, rfl⟩ := List.cons.inj hlinks
          have hsource := Modifier.source_of_read hfits hread
          cases m? with
          | none =>
            obtain rfl : [] = s₁ := hsource
            obtain ⟨rfl, hstand⟩ := ih.mp hrest
            exact ⟨rfl, hread, hstand⟩
          | some m =>
            obtain rfl : m.source = s₁ := hsource
            obtain ⟨rfl, hstand⟩ := ih.mp hrest
            exact ⟨rfl, hread, hstand⟩
        · obtain ⟨hjoin, s₁, s₂, m, links, hs, hlinks, hread, hrest⟩ :=
            (reads_readChain_joined hfits hc).mp h
          obtain ⟨rfl, rfl⟩ := List.cons.inj hlinks
          obtain rfl : m.source = s₁ := Modifier.source_of_read hfits hread
          obtain ⟨rfl, hstand⟩ := ih.mp hrest
          refine ⟨hs, ⟨hjoin, fun rest hrest => ?_, hread⟩, hstand⟩
          rw [← List.append_assoc, ← hs] at hrest
          exact hc (List.cons.inj hrest).1
    · rintro ⟨rfl, hstands, hstand⟩
      have hrest := ih.mpr ⟨rfl, hstand⟩
      cases link with
      | empty =>
        exact reads_readChain_colon.mpr ⟨[], _, none, chain, rfl, rfl, hstands, hrest⟩
      | colon m =>
        exact reads_readChain_colon.mpr ⟨m.source, _, some m, chain, rfl, rfl, hstands, hrest⟩
      | joined m =>
        obtain ⟨hjoin, hcolon, hread⟩ := hstands
        obtain ⟨c, s, hs⟩ := List.exists_cons_of_ne_nil (Modifier.source_ne_nil m)
        have hc : c ≠ ':' := by
          rintro rfl
          exact hcolon (s ++ (chain.flatMap Link.source ++ close :: t)) (by rw [hs]; rfl)
        have htext : (Link.joined m :: chain).flatMap Link.source =
            c :: (s ++ chain.flatMap Link.source) := by
          rw [List.flatMap_cons, Link.source, hs, List.cons_append]
        rw [htext]
        refine (reads_readChain_joined hfits hc).mpr
          ⟨hjoin, m.source, _, m, chain, ?_, rfl, hread, hrest⟩
        rw [hs, List.cons_append]

/-! ## Chains read again -/

theorem read_colon (rest : Text) :
    Modifier.read nested close name (':' :: rest) = Modifier.assignForm nested close rest := by
  have hword : (':' :: rest).takeWhile Char.isAlphanum = [] := rfl
  simp only [Modifier.read, hword]
  rfl

/-- Behind a colon, another colon is an assignment or the next link. -/
theorem reads_read_none (rest : Text) :
    Reads (Modifier.read nested close name) 0 [] none (':' :: rest) ↔
      Modifier.assigning? (':' :: rest) = none := by
  cases hop : Modifier.assigning? (':' :: rest) with
  | none =>
    have hread : Modifier.read nested close name (':' :: rest) = .done none := by
      rw [read_colon, Modifier.assignForm, hop]
    exact ⟨fun _ => rfl, fun _ => (reads_done.mpr ⟨rfl, rfl⟩).congr hread⟩
  | some op =>
    refine ⟨fun h => ?_, fun h => by simp at h⟩
    have houtcome := h.outcome
    rw [List.nil_append, read_colon, Modifier.assignForm, hop] at houtcome
    simp at houtcome

end Reference

theorem Modifier.assigning?_end {b : Char} (hb : isEnd b) (s t : Text) :
    assigning? (':' :: (s ++ b :: t)) = assigning? (':' :: s) := by
  have hsymbol (op : Assigning) : op.symbol.isPrefixOf (':' :: (s ++ b :: t)) =
      op.symbol.isPrefixOf (':' :: s) := by
    have htail : b ∉ op.symbol.tail := by
      have hall : op.symbol.tail.all fun c => !isEnd c := by cases op <;> decide
      intro hmem
      simpa [hb] using List.all_eq_true.mp hall b hmem
    cases op <;> exact Text.isPrefixOf_fence s t htail
  unfold assigning?
  simp only [hsymbol]

section

variable {nested nested' : Reader (Option Reference)} (hextends : Extends nested nested')
  {opening opening' close close' : Char} (hopens : Opens opening close)
  (hopens' : Opens opening' close') {name t t' : Text} {mayJoin : Bool} {b b' : Char}

include hextends hopens hopens'

theorem Link.Stands.again {link : Link} (h : link.Stands nested close name mayJoin (b :: t))
    (hclear : ∀ m, link.modifier? = some m → m.Clear nested' close close')
    (hfollow : ∀ m, link.modifier? = some m → m.MayFollow close' b b')
    (hempty : link = .empty → b' = close' ∨ b' = ':' ∧ Modifier.assigning? (':' :: t') = none) :
    link.Stands nested' close' name mayJoin (b' :: t') := by
  cases link with
  | empty =>
    rcases hempty rfl with rfl | ⟨rfl, hnone⟩
    · exact (reads_done.mpr ⟨rfl, rfl⟩).congr (Reference.read_close hopens')
    · exact (Reference.reads_read_none t').mpr hnone
  | colon m => exact Modifier.read_again hextends hopens hopens' (hfollow m rfl) (hclear m rfl) t' h
  | joined m =>
    obtain ⟨hjoin, hcolon, hread⟩ := h
    obtain ⟨c, s, hs⟩ := List.exists_cons_of_ne_nil m.source_ne_nil
    refine ⟨hjoin, fun rest hrest => ?_,
      Modifier.read_again hextends hopens hopens' (hfollow m rfl) (hclear m rfl) t' hread⟩
    rw [hs] at hrest hcolon
    exact hcolon (s ++ b :: t) (by rw [List.cons_append, (List.cons.inj hrest).1])

theorem Link.AllStand.again {chain : List Link}
    (h : AllStand nested close name mayJoin (b :: t) chain) (hb : isEnd b)
    (hclear : ∀ link ∈ chain, ∀ m, link.modifier? = some m → m.Clear nested' close close')
    (hend : b' = close' ∨ b' = ':' ∧ Modifier.assigning? (':' :: t') = none ∧
      (b = ':' ∨ ∀ link m, chain.getLast? = some link → link.modifier? = some m →
        m.needsClose = false)) :
    AllStand nested' close' name mayJoin (b' :: t') chain := by
  have hb' : isEnd b' := Modifier.isEnd_of_stops hopens' (hend.symm.imp_left And.left)
  induction chain generalizing mayJoin with
  | nil => trivial
  | cons link chain ih =>
    obtain ⟨hstands, hrest⟩ := h
    refine ⟨?_, ih hrest (fun link hlink => hclear link (List.mem_cons_of_mem _ hlink)) ?_⟩
    · have hlink := hclear link List.mem_cons_self
      cases chain with
      | nil =>
        refine hstands.again hextends hopens hopens' hlink (fun m hm => ?_) fun _ => ?_
        · exact hend.imp_right fun h => .inl ⟨h.1, h.2.2.imp_right fun h => h link m rfl hm⟩
        · exact hend.imp_right fun h => ⟨h.1, h.2.1⟩
      | cons next chain =>
        -- The next link starts with the same character in both texts.
        obtain ⟨c, s, hs, hnext⟩ : ∃ c s, (next :: chain).flatMap source = c :: s ∧
            (c = ':' ∨ link.isOpen) := by
          cases next with
          | empty => exact ⟨':', chain.flatMap source, rfl, .inl rfl⟩
          | colon m => exact ⟨':', m.source ++ chain.flatMap source, rfl, .inl rfl⟩
          | joined m =>
            obtain ⟨c, s, hs⟩ := List.exists_cons_of_ne_nil m.source_ne_nil
            exact ⟨c, s ++ chain.flatMap source, by rw [List.flatMap_cons, source, hs]; rfl,
              .inr hrest.1.1⟩
        rw [hs] at hstands ⊢
        refine hstands.again hextends hopens hopens' hlink (fun m hm => ?_) ?_
        · rcases hnext with rfl | hopen
          · exact .inr (.inl ⟨rfl, .inl rfl⟩)
          · exact .inr (.inr ⟨by simpa [isOpen, hm] using hopen, .inl rfl⟩)
        · rintro rfl
          obtain rfl : c = ':' := hnext.resolve_right (by simp [isOpen, modifier?])
          have hnone := (Reference.reads_read_none (s ++ b :: t)).mp hstands
          rw [Modifier.assigning?_end hb] at hnone
          exact .inr ⟨rfl, by rw [← hnone]; exact Modifier.assigning?_end hb' s t'⟩
    · exact hend.imp_right fun h => ⟨h.1, h.2.1, h.2.2.imp_right fun hneeds last m hlast hm =>
        hneeds last m (by simp [List.getLast?_cons, hlast]) hm⟩

end

end RecipeLint

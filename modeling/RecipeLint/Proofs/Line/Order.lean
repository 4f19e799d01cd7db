import RecipeLint.LineCheck

/-!
# The order of findings

Findings are shown by their start, and those with the same start in the order in which they were
made.  This fixes the order: a list of findings by start is known from its findings at each start.
So findings that were made in two parts of a line can be put into order part by part.
-/

namespace RecipeLint.LineCheck

def startingAt (start : Nat) (findings : List Finding) : List Finding :=
  findings.filter fun f => f.span.start == start

def ByStart (findings : List Finding) : Prop :=
  findings.Pairwise fun f g => f.span.start ≤ g.span.start

theorem startingAt_append (start : Nat) (fs gs : List Finding) :
    startingAt start (fs ++ gs) = startingAt start fs ++ startingAt start gs :=
  List.filter_append _ _

theorem startingAt_eq_nil {start : Nat} {fs : List Finding}
    (h : ∀ f ∈ fs, f.span.start ≠ start) : startingAt start fs = [] := by
  rw [startingAt, List.filter_eq_nil_iff]
  intro f hf
  simpa using h f hf

theorem ByStart.le_of_mem {f g : Finding} {fs : List Finding} (h : ByStart (f :: fs))
    (hg : g ∈ f :: fs) : f.span.start ≤ g.span.start := by
  rcases List.mem_cons.mp hg with rfl | hg
  · exact Nat.le_refl _
  · exact List.rel_of_pairwise_cons h hg

theorem mem_of_startingAt {f : Finding} {fs gs : List Finding}
    (h : startingAt f.span.start fs = startingAt f.span.start gs) (hf : f ∈ fs) : f ∈ gs := by
  have hat : f ∈ startingAt f.span.start gs := h ▸ List.mem_filter.mpr ⟨hf, by simp⟩
  exact (List.mem_filter.mp hat).1

/-- Findings by start are known from the findings at each start. -/
theorem eq_of_byStart {fs gs : List Finding} (hfs : ByStart fs) (hgs : ByStart gs)
    (h : ∀ start, startingAt start fs = startingAt start gs) : fs = gs := by
  induction fs generalizing gs with
  | nil =>
    cases gs with
    | nil => rfl
    | cons g gs => simpa using mem_of_startingAt (h g.span.start).symm List.mem_cons_self
  | cons f fs ih =>
    cases gs with
    | nil => simpa using mem_of_startingAt (h f.span.start) List.mem_cons_self
    | cons g gs =>
      have hstart : f.span.start = g.span.start := Nat.le_antisymm
        (hfs.le_of_mem (mem_of_startingAt (h g.span.start).symm List.mem_cons_self))
        (hgs.le_of_mem (mem_of_startingAt (h f.span.start) List.mem_cons_self))
      have hfirst := h f.span.start
      simp only [startingAt, List.filter_cons, beq_self_eq_true, hstart, if_true] at hfirst
      obtain ⟨rfl, htail⟩ := List.cons.inj hfirst
      have htails (start : Nat) : startingAt start fs = startingAt start gs := by
        by_cases hat : f.span.start = start
        · exact hat ▸ htail
        · have hrest := h start
          simpa only [startingAt, List.filter_cons, beq_iff_eq, hat, if_false] using hrest
      exact congrArg (f :: ·) (ih hfs.tail hgs.tail htails)

theorem start_le_trans (f g k : Finding) :
    decide (f.span.start ≤ g.span.start) → decide (g.span.start ≤ k.span.start) →
      decide (f.span.start ≤ k.span.start) := by
  simp only [decide_eq_true_eq]
  exact Nat.le_trans

theorem start_le_total (f g : Finding) :
    decide (f.span.start ≤ g.span.start) || decide (g.span.start ≤ f.span.start) := by
  simp only [Bool.or_eq_true, decide_eq_true_eq]
  exact Nat.le_total _ _

theorem byStart_sorted (findings : List Finding) : ByStart (sorted findings) := by
  apply (List.pairwise_mergeSort start_le_trans start_le_total findings).imp
  intro f g h
  exact of_decide_eq_true h

/-- Putting findings into order does not change the order of those with the same start. -/
theorem startingAt_sorted (start : Nat) (findings : List Finding) :
    startingAt start (sorted findings) = startingAt start findings := by
  have hperm : (sorted findings).Perm findings := List.mergeSort_perm _ _
  have hsame : (startingAt start findings).Pairwise
      fun f g => decide (f.span.start ≤ g.span.start) := by
    apply List.pairwise_of_forall_mem_list
    intro f hf g hg
    have hf := (List.mem_filter.mp hf).2
    have hg := (List.mem_filter.mp hg).2
    simp only [beq_iff_eq] at hf hg
    simp [hf, hg]
  have hsublist : (startingAt start findings).Sublist (sorted findings) :=
    List.sublist_mergeSort start_le_trans start_le_total hsame List.filter_sublist
  have hfilter := hsublist.filter fun f => f.span.start == start
  have hidem : (startingAt start findings).filter (fun f => f.span.start == start) =
      startingAt start findings := by
    simp [startingAt]
  rw [hidem] at hfilter
  exact (hfilter.eq_of_length (hperm.filter _).length_eq.symm).symm

/-- Findings in front of a place and behind it are put into order apart, where those of the line
come before those about uses at the same start. -/
theorem sorted_split {place : Nat} {front behind useFront useBehind : List Finding}
    (hfront : ∀ f ∈ front, f.span.start ≤ place) (huseFront : ∀ f ∈ useFront, f.span.start < place)
    (hbehind : ∀ f ∈ behind, place ≤ f.span.start)
    (huseBehind : ∀ f ∈ useBehind, place ≤ f.span.start) :
    sorted ((front ++ behind) ++ (useFront ++ useBehind)) =
      sorted (front ++ useFront) ++ sorted (behind ++ useBehind) := by
  apply eq_of_byStart (byStart_sorted _)
  · rw [ByStart, List.pairwise_append]
    refine ⟨byStart_sorted _, byStart_sorted _, fun f hf g hg => ?_⟩
    have hf : f.span.start ≤ place := by
      rcases List.mem_append.mp (List.mem_mergeSort.mp hf) with hf | hf
      · exact hfront f hf
      · exact Nat.le_of_lt (huseFront f hf)
    have hg : place ≤ g.span.start := by
      rcases List.mem_append.mp (List.mem_mergeSort.mp hg) with hg | hg
      · exact hbehind g hg
      · exact huseBehind g hg
    exact Nat.le_trans hf hg
  · intro start
    simp only [startingAt_sorted, startingAt_append, List.append_assoc]
    -- At the place itself a finding of the line may be from the front, one about a use never is.
    rcases Nat.lt_or_ge start place with hlt | hge
    · have hnone : startingAt start behind = [] :=
        startingAt_eq_nil fun f hf => by have := hbehind f hf; omega
      simp [hnone]
    · have hnone : startingAt start useFront = [] :=
        startingAt_eq_nil fun f hf => by have := huseFront f hf; omega
      simp [hnone]

theorem sorted_shift (offset : Nat) (findings : List Finding) :
    sorted (findings.map (Located.shift offset)) = (sorted findings).map (Located.shift offset) := by
  refine (List.map_mergeSort fun f _ g _ => ?_).symm
  simp [Located.shift, Span.shift]

end RecipeLint.LineCheck

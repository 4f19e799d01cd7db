import Mathlib.Data.List.Nodup
import RecipeLint.TypeTable

/-!
# Declarations put onto a table

A name that is declared again keeps its place, and a new one goes behind all others.  So a run of
declarations leaves the old names where they stand and adds the new ones in order.
-/

namespace RecipeLint.TypeTable.Entries

variable {entries inserted : Entries} {name : Text} {type : VarType} {entry : Text × VarType}
  {i : Nat}

theorem mem_names (h : (name, type) ∈ entries) : name ∈ names entries :=
  List.mem_map_of_mem h

theorem not_mem_names_cons :
    name ∉ names (entry :: entries) ↔ name ≠ entry.1 ∧ name ∉ names entries := by
  rw [names, List.map_cons, List.mem_cons, not_or]
  rfl

/-! ## One declaration -/

theorem put_of_not_mem (h : name ∉ names entries) :
    put name type entries = entries ++ [(name, type)] := by
  induction entries with
  | nil => rfl
  | cons entry entries ih =>
    obtain ⟨hne, hrest⟩ := not_mem_names_cons.mp h
    rw [put, if_neg (Ne.symm hne), ih hrest, List.cons_append]

theorem getElem?_put_of_ne (h : entries[i]? = some entry) (hne : entry.1 ≠ name) :
    (put name type entries)[i]? = some entry := by
  induction entries generalizing i with
  | nil => simp at h
  | cons first entries ih =>
    unfold put
    cases i with
    | zero =>
      obtain rfl : first = entry := Option.some.inj h
      rw [if_neg hne]
      rfl
    | succ i =>
      split_ifs
      · exact h
      · exact ih h

theorem getElem?_put_self (hdistinct : (names entries).Nodup) (h : entries[i]? = some entry)
    (heq : entry.1 = name) : (put name type entries)[i]? = some (name, type) := by
  induction entries generalizing i with
  | nil => simp at h
  | cons first entries ih =>
    obtain ⟨hfirst, hrest⟩ := List.nodup_cons.mp hdistinct
    unfold put
    cases i with
    | zero =>
      obtain rfl : first = entry := Option.some.inj h
      rw [if_pos heq]
      rfl
    | succ i =>
      have hmem : name ∈ names entries :=
        heq ▸ List.mem_map_of_mem (List.mem_of_getElem? h)
      rw [if_neg fun hname : first.1 = name => hfirst (hname ▸ hmem)]
      exact ih hrest h

theorem put_of_mem (hdistinct : (names entries).Nodup) (h : (name, type) ∈ entries) :
    put name type entries = entries := by
  induction entries with
  | nil => simp at h
  | cons first entries ih =>
    obtain ⟨hfirst, hrest⟩ := List.nodup_cons.mp hdistinct
    unfold put
    rcases List.mem_cons.mp h with rfl | h
    · rw [if_pos rfl]
    · rw [if_neg fun hname : first.1 = name => hfirst (hname ▸ mem_names h), ih hrest h]

theorem nodup_put (hdistinct : (names entries).Nodup) : (names (put name type entries)).Nodup := by
  rw [names_put]
  split_ifs with h
  · exact hdistinct
  · rw [← List.concat_eq_append]
    exact hdistinct.concat h

/-! ## A run of declarations -/

def putAll (entries : Entries) : (inserted : Entries) → Entries
  | [] => entries
  | (name, type) :: inserted => putAll (put name type entries) inserted

theorem nodup_putAll (hdistinct : (names entries).Nodup) :
    (names (putAll entries inserted)).Nodup := by
  induction inserted generalizing entries with
  | nil => exact hdistinct
  | cons first inserted ih => exact ih (nodup_put hdistinct)

theorem getElem?_putAll_of_not_mem (h : entries[i]? = some entry)
    (hnot : entry.1 ∉ names inserted) : (putAll entries inserted)[i]? = some entry := by
  induction inserted generalizing entries with
  | nil => exact h
  | cons first inserted ih =>
    obtain ⟨hne, hrest⟩ := not_mem_names_cons.mp hnot
    exact ih (getElem?_put_of_ne h hne) hrest

theorem getElem?_putAll_of_mem (hdistinct : (names entries).Nodup)
    (hinserted : (names inserted).Nodup) (h : entries[i]? = some entry)
    (hmem : (entry.1, type) ∈ inserted) :
    (putAll entries inserted)[i]? = some (entry.1, type) := by
  induction inserted generalizing entries entry with
  | nil => simp at hmem
  | cons first inserted ih =>
    obtain ⟨hfirst, hrest⟩ := List.nodup_cons.mp hinserted
    rcases List.mem_cons.mp hmem with rfl | hmem
    · have hput : (put entry.1 type entries)[i]? = some (entry.1, type) :=
        getElem?_put_self hdistinct h rfl
      rw [putAll]
      exact getElem?_putAll_of_not_mem hput hfirst
    · have hne : entry.1 ≠ first.1 := fun heq => hfirst (heq ▸ mem_names hmem)
      exact ih (nodup_put hdistinct) hrest (getElem?_put_of_ne h hne) hmem

theorem drop_putAll (hinserted : (names inserted).Nodup) :
    (putAll entries inserted).drop entries.length =
      inserted.filter fun entry => entry.1 ∉ names entries := by
  induction inserted generalizing entries with
  | nil => simp [putAll]
  | cons first inserted ih =>
    obtain ⟨name, type⟩ := first
    obtain ⟨hfirst, hrest⟩ := List.nodup_cons.mp hinserted
    have hlength : (put name type entries).length = (names (put name type entries)).length := by
      simp [names]
    by_cases hmem : name ∈ names entries
    · have hnames : names (put name type entries) = names entries := by
        rw [names_put, if_pos hmem]
      have hsame : (put name type entries).length = entries.length := by
        rw [hlength, hnames, names, List.length_map]
      have hih := @ih (put name type entries) hrest
      rw [hsame, hnames] at hih
      rw [List.filter_cons_of_neg (by simpa using hmem)]
      exact hih
    · have hput : put name type entries = entries ++ [(name, type)] := put_of_not_mem hmem
      have hplace : (putAll (put name type entries) inserted)[entries.length]? =
          some (name, type) :=
        getElem?_putAll_of_not_mem (by simp [hput]) hfirst
      obtain ⟨hlt, hget⟩ := List.getElem?_eq_some_iff.mp hplace
      have hfilter : (inserted.filter fun entry => entry.1 ∉ names (put name type entries)) =
          inserted.filter fun entry => entry.1 ∉ names entries := by
        refine List.filter_congr fun entry hentry => ?_
        have hne : entry.1 ≠ name := fun heq => hfirst (heq ▸ mem_names hentry)
        simp [names_put, hmem, hne]
      have hih := @ih (put name type entries) hrest
      rw [hfilter, hput, List.length_append, ← hput] at hih
      rw [List.filter_cons_of_pos (by simpa using hmem), ← hih]
      exact (List.drop_eq_getElem_cons hlt).trans (congrArg (· :: _) hget)

theorem mem_put_self (name : Text) (type : VarType) (entries : Entries) :
    (name, type) ∈ put name type entries := by
  induction entries with
  | nil => exact List.mem_cons_self
  | cons entry entries ih =>
    unfold put
    split_ifs
    · exact List.mem_cons_self
    · exact List.mem_cons_of_mem _ ih

theorem mem_putAll (hinserted : (names inserted).Nodup) (h : (name, type) ∈ inserted) :
    (name, type) ∈ putAll entries inserted := by
  induction inserted generalizing entries with
  | nil => simp at h
  | cons first inserted ih =>
    obtain ⟨hfirst, hrest⟩ := List.nodup_cons.mp hinserted
    rcases List.mem_cons.mp h with rfl | h
    · obtain ⟨i, hi⟩ := List.mem_iff_getElem?.mp (mem_put_self name type entries)
      rw [putAll]
      exact List.mem_of_getElem? (getElem?_putAll_of_not_mem hi hfirst)
    · exact ih hrest h

theorem putAll_of_subset (hdistinct : (names entries).Nodup) (h : inserted ⊆ entries) :
    putAll entries inserted = entries := by
  induction inserted with
  | nil => rfl
  | cons first inserted ih =>
    obtain ⟨hfirst, hrest⟩ := List.cons_subset.mp h
    rw [putAll, put_of_mem hdistinct hfirst, ih hrest]

theorem putAll_putAll (hdistinct : (names entries).Nodup) (hinserted : (names inserted).Nodup) :
    putAll (putAll entries inserted) inserted = putAll entries inserted :=
  putAll_of_subset (nodup_putAll hdistinct) fun _ h => mem_putAll hinserted h

/-- What a table is after some declarations were put onto it. -/
structure PutOnto (old inserted new : Entries) : Prop where
  /-- Another name keeps its type and its place. -/
  kept : ∀ (i : Nat) (entry : Text × VarType), old[i]? = some entry →
    entry.1 ∉ inserted.names → new[i]? = some entry
  /-- A name that was there keeps its place and has the new type. -/
  replaced : ∀ (i : Nat) (entry : Text × VarType) (type : VarType), old[i]? = some entry →
    (entry.1, type) ∈ inserted → new[i]? = some (entry.1, type)
  /-- New names follow all old ones in order. -/
  added : new.drop old.length = inserted.filter fun entry => entry.1 ∉ old.names
  distinct : new.names.Nodup

theorem putOnto_putAll (hdistinct : (names entries).Nodup) (hinserted : (names inserted).Nodup) :
    PutOnto entries inserted (putAll entries inserted) where
  kept _ _ h hnot := getElem?_putAll_of_not_mem h hnot
  replaced _ _ _ h hmem := getElem?_putAll_of_mem hdistinct hinserted h hmem
  added := drop_putAll hinserted
  distinct := nodup_putAll hdistinct

end RecipeLint.TypeTable.Entries

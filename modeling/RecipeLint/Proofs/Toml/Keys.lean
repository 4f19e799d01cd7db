import Mathlib.Data.List.Nodup
import RecipeLint.Overlay.Document

/-!
# Keys of a document

No table of a document has a key twice, however deep it lies and however many lines have added to
it.  Each step of the reader keeps that up: a key is added only where it is not yet there, and a
change to a table further inside leaves the keys around it as they are.  So an overlay that a
document writes declares no name twice.
-/

namespace RecipeLint.Toml

inductive Value.Distinct : Value → Prop
  | string (text : Text) : Distinct (.string text)
  | boolean (value : Bool) : Distinct (.boolean value)
  | number : Distinct .number
  | moment (spelling : Text) : Distinct (.moment spelling)
  | array {items : List Value} (h : ∀ v ∈ items, Distinct v) : Distinct (.array items)
  | table {kind : TableKind} {entries : List (Text × Value)}
      (hkeys : (entries.map Prod.fst).Nodup) (h : ∀ entry ∈ entries, Distinct entry.2) :
      Distinct (.table kind entries)
  | tables {items : List (List (Text × Value))}
      (hkeys : ∀ entries ∈ items, (entries.map Prod.fst).Nodup)
      (h : ∀ entries ∈ items, ∀ entry ∈ entries, Distinct entry.2) : Distinct (.tables items)

structure Entries.Distinct (entries : Entries) : Prop where
  keys : (entries.map Prod.fst).Nodup
  values : ∀ entry ∈ entries, entry.2.Distinct

theorem Value.distinct_table_iff {kind : TableKind} {entries : Entries} :
    Distinct (.table kind entries) ↔ entries.Distinct := by
  constructor
  · intro h
    cases h with
    | table hkeys h => exact ⟨hkeys, h⟩
  · exact fun h => .table h.keys h.values

theorem Value.distinct_tables_iff {items : List Entries} :
    Distinct (.tables items) ↔ ∀ entries ∈ items, entries.Distinct := by
  constructor
  · intro h
    cases h with
    | tables hkeys h => exact fun entries hmem => ⟨hkeys entries hmem, h entries hmem⟩
  · exact fun h => .tables (fun entries hmem => (h entries hmem).keys)
      fun entries hmem => (h entries hmem).values

namespace Entries

variable {entries new : Entries} {key : Text}

namespace Distinct

theorem nil : Distinct [] :=
  ⟨List.nodup_nil, by simp⟩

theorem append (h : Distinct entries) (hkey : key ∉ entries.map Prod.fst) {v : Value}
    (hv : v.Distinct) : Distinct (entries ++ [(key, v)]) := by
  refine ⟨?_, ?_⟩
  · rw [List.map_append, List.map_singleton, ← List.concat_eq_append]
    exact h.keys.concat hkey
  · intro entry hentry
    rcases List.mem_append.mp hentry with hentry | hentry
    · exact h.values entry hentry
    · exact List.mem_singleton.mp hentry ▸ hv

theorem filter (h : Distinct entries) (keep : Text × Value → Bool) :
    Distinct (entries.filter keep) :=
  ⟨(List.filter_sublist.map Prod.fst).nodup h.keys,
    fun entry hentry => h.values entry (List.mem_filter.mp hentry |>.1)⟩

theorem get? (h : Distinct entries) {v : Value} (hv : get? key entries = some v) :
    v.Distinct := by
  obtain ⟨entry, hentry, rfl⟩ := Option.map_eq_some_iff.mp hv
  exact h.values entry (List.mem_of_find?_eq_some hentry)

end Distinct

theorem not_mem_of_get? (h : get? key entries = none) : key ∉ entries.map Prod.fst := by
  rw [get?, Option.map_eq_none_iff, List.find?_eq_none] at h
  rintro hmem
  obtain ⟨entry, hentry, rfl⟩ := List.mem_map.mp hmem
  exact h entry hentry (beq_self_eq_true _)

/-! ## Changes -/

/-- A change of a value that keeps keys distinct, and may make a new one. -/
def KeepsDistinct (change : Option Value → Option Value) : Prop :=
  ∀ old new, (∀ v, old = some v → v.Distinct) → change old = some new → new.Distinct

theorem keys_of_alter? {change : Option Value → Option Value}
    (h : alter? key change entries = some new) :
    new.map Prod.fst = entries.map Prod.fst ∨
      key ∉ entries.map Prod.fst ∧ new.map Prod.fst = entries.map Prod.fst ++ [key] := by
  induction entries generalizing new with
  | nil =>
    obtain ⟨v, -, rfl⟩ := Option.map_eq_some_iff.mp h
    exact .inr ⟨by simp, rfl⟩
  | cons entry entries ih =>
    unfold alter? at h
    split at h
    case isTrue heq =>
      obtain ⟨v, -, rfl⟩ := Option.map_eq_some_iff.mp h
      exact .inl (by simp [heq])
    case isFalse hne =>
      obtain ⟨rest, hrest, rfl⟩ := Option.map_eq_some_iff.mp h
      rcases ih hrest with hkeys | ⟨hkey, hkeys⟩
      · exact .inl (by simp [hkeys])
      · exact .inr ⟨by simpa [Ne.symm hne] using hkey, by simp [hkeys]⟩

theorem Distinct.alter? {change : Option Value → Option Value} (hentries : Distinct entries)
    (hchange : KeepsDistinct change) (h : alter? key change entries = some new) :
    Distinct new := by
  refine ⟨?_, ?_⟩
  · rcases keys_of_alter? h with hkeys | ⟨hkey, hkeys⟩
    · exact hkeys ▸ hentries.keys
    · rw [hkeys, ← List.concat_eq_append]
      exact hentries.keys.concat hkey
  · have hvalues := hentries.values
    clear hentries
    induction entries generalizing new with
    | nil =>
      obtain ⟨v, hv, rfl⟩ := Option.map_eq_some_iff.mp h
      simpa using hchange none v (by simp) hv
    | cons entry entries ih =>
      obtain ⟨hentry, hrest⟩ := List.forall_mem_cons.mp hvalues
      unfold Entries.alter? at h
      split at h
      case isTrue heq =>
        obtain ⟨v, hv, rfl⟩ := Option.map_eq_some_iff.mp h
        exact List.forall_mem_cons.mpr ⟨hchange _ v (by simpa using hentry) hv, hrest⟩
      case isFalse hne =>
        obtain ⟨rest, hnew, rfl⟩ := Option.map_eq_some_iff.mp h
        exact List.forall_mem_cons.mpr ⟨hentry, ih hnew hrest⟩

theorem Distinct.add? {v : Value} (hentries : Distinct entries) (hv : v.Distinct)
    (h : add? key v entries = some new) : Distinct new := by
  unfold Entries.add? at h
  split at h
  case isTrue => simp at h
  case isFalse hnone =>
    obtain rfl := Option.some.inj h
    exact hentries.append (not_mem_of_get? (by simpa using hnone)) hv

def EditKeepsDistinct (edit : TableKind → Entries → Option Entries) : Prop :=
  ∀ kind old new, Distinct old → edit kind old = some new → Distinct new

theorem Distinct.descend? {edit : TableKind → Entries → Option Entries} {fresh kind : TableKind}
    {path : List Text} (hentries : Distinct entries) (hedit : EditKeepsDistinct edit)
    (h : descend? edit fresh path kind entries = some new) : Distinct new := by
  induction path generalizing kind entries new with
  | nil => exact hedit kind entries new hentries h
  | cons key path ih =>
    refine hentries.alter? (fun old new hold hnew => ?_) h
    split at hnew
    case h_1 =>
      obtain ⟨inner, hinner, rfl⟩ := Option.map_eq_some_iff.mp hnew
      exact Value.distinct_table_iff.mpr (ih .nil hinner)
    case h_2 kind inner =>
      have hold := Value.distinct_table_iff.mp (hold _ rfl)
      split at hnew
      case isTrue => simp at hnew
      case isFalse =>
        obtain ⟨inner, hinner, rfl⟩ := Option.map_eq_some_iff.mp hnew
        exact Value.distinct_table_iff.mpr (ih hold hinner)
    case h_3 items =>
      have hold := Value.distinct_tables_iff.mp (hold _ rfl)
      split at hnew
      case h_1 last hlast =>
        obtain ⟨inner, hinner, rfl⟩ := Option.map_eq_some_iff.mp hnew
        have hmem := List.mem_of_getLast? hlast
        refine Value.distinct_tables_iff.mpr fun item hitem => ?_
        rcases List.mem_append.mp hitem with hitem | hitem
        · exact hold item (List.dropLast_subset items hitem)
        · exact List.mem_singleton.mp hitem ▸ ih (hold last hmem) hinner
      case h_2 => simp at hnew
    case h_4 => simp at hnew

theorem Distinct.put? {path : List Text} {v : Value} {kind : TableKind}
    (hentries : Distinct entries) (hv : v.Distinct) (h : put? path v kind entries = some new) :
    Distinct new := by
  unfold Entries.put? at h
  split at h
  case h_1 => simp at h
  case h_2 key hkey =>
    refine hentries.descend? (fun kind old new hold hnew => ?_) h
    split at hnew
    case isTrue => exact hold.add? hv hnew
    case isFalse => simp at hnew

theorem Distinct.openTable? {path : List Text} (hentries : Distinct entries)
    (h : openTable? path entries = some new) : Distinct new := by
  unfold Entries.openTable? at h
  split at h
  case h_1 => simp at h
  case h_2 key hkey =>
    refine hentries.descend? (fun _ old new hold hnew => ?_) h
    split at hnew
    case h_1 hnone =>
      obtain rfl := Option.some.inj hnew
      exact hold.append (not_mem_of_get? hnone) (Value.distinct_table_iff.mpr .nil)
    case h_2 inner hsome =>
      -- The table leaves its place, so that its key is free at the end.
      obtain rfl := Option.some.inj hnew
      have hinner := Value.distinct_table_iff.mp (hold.get? hsome)
      exact (hold.filter _).append (by simp) (Value.distinct_table_iff.mpr hinner)
    case h_3 => simp at hnew

theorem Distinct.openItem? {path : List Text} (hentries : Distinct entries)
    (h : openItem? path entries = some new) : Distinct new := by
  unfold Entries.openItem? at h
  split at h
  case h_1 => simp at h
  case h_2 key hkey =>
    refine hentries.descend? (fun _ old new hold hnew => ?_) h
    refine hold.alter? (fun old new hold hnew => ?_) hnew
    split at hnew
    case h_1 =>
      obtain rfl := Option.some.inj hnew
      exact Value.distinct_tables_iff.mpr (by simpa using Distinct.nil)
    case h_2 items =>
      obtain rfl := Option.some.inj hnew
      have hitems := Value.distinct_tables_iff.mp (hold _ rfl)
      refine Value.distinct_tables_iff.mpr fun item hitem => ?_
      rcases List.mem_append.mp hitem with hitem | hitem
      · exact hitems item hitem
      · exact List.mem_singleton.mp hitem ▸ .nil
    case h_3 => simp at hnew

end Entries

/-! ## Readers -/

def ReadsDistinct (value : Text → Option (Value × Text)) : Prop :=
  ∀ text v rest, value text = some (v, rest) → v.Distinct

section

variable {value : Text → Option (Value × Text)} (hvalue : ReadsDistinct value)

include hvalue

theorem distinct_of_keyValue? {text rest : Text} {path : List Text} {v : Value}
    (h : keyValue? value text = some ((path, v), rest)) : v.Distinct := by
  obtain ⟨⟨path', behind⟩, -, hbehind⟩ := Option.bind_eq_some_iff.mp h
  dsimp only at hbehind
  split at hbehind
  case h_1 text' =>
    obtain ⟨⟨v', rest'⟩, hv, heq⟩ := Option.bind_eq_some_iff.mp hbehind
    obtain ⟨⟨rfl, rfl⟩, rfl⟩ := by simpa using heq
    exact hvalue _ _ _ hv
  case h_2 => simp at hbehind

theorem distinct_of_items? {fuel : Nat} {text rest : Text} {items : List Value}
    (h : items? value fuel text = some (items, rest)) : ∀ v ∈ items, v.Distinct := by
  induction fuel generalizing text rest items with
  | zero => simp [items?] at h
  | succ fuel ih =>
    obtain ⟨behind, -, hbehind⟩ := Option.bind_eq_some_iff.mp h
    split at hbehind
    case h_1 =>
      obtain ⟨rfl, -⟩ := by simpa using hbehind
      simp
    case h_2 =>
      obtain ⟨⟨v, rest'⟩, hv, hrest⟩ := Option.bind_eq_some_iff.mp hbehind
      have hv := hvalue _ _ _ hv
      obtain ⟨behind', -, hbehind'⟩ := Option.bind_eq_some_iff.mp hrest
      split at hbehind'
      case h_1 =>
        obtain ⟨⟨vs, rest''⟩, hvs, heq⟩ := Option.bind_eq_some_iff.mp hbehind'
        obtain ⟨rfl, -⟩ := by simpa using heq
        exact List.forall_mem_cons.mpr ⟨hv, ih hvs⟩
      case h_2 =>
        obtain ⟨rfl, -⟩ := by simpa using hbehind'
        exact List.forall_mem_singleton.mpr hv
      case h_3 => simp at hbehind'

theorem distinct_of_members? {fuel : Nat} {text rest : Text} {entries new : Entries}
    (hentries : entries.Distinct) (h : members? value fuel entries text = some (new, rest)) :
    new.Distinct := by
  induction fuel generalizing text entries with
  | zero => simp [members?] at h
  | succ fuel ih =>
    obtain ⟨⟨⟨path, v⟩, behind⟩, hkeyValue, hbehind⟩ := Option.bind_eq_some_iff.mp h
    obtain ⟨entries', hput, hrest⟩ := Option.bind_eq_some_iff.mp hbehind
    have hentries' := hentries.put? (distinct_of_keyValue? hvalue hkeyValue) hput
    split at hrest
    case h_1 => exact ih hentries' hrest
    case h_2 =>
      obtain ⟨rfl, -⟩ := by simpa using hrest
      exact hentries'
    case h_3 => simp at hrest

theorem distinct_of_inlineTable? {text rest : Text} {entries : Entries}
    (h : inlineTable? value text = some (entries, rest)) : entries.Distinct := by
  unfold inlineTable? at h
  split at h
  case h_1 =>
    obtain ⟨rfl, -⟩ := by simpa using h
    exact .nil
  case h_2 => exact distinct_of_members? hvalue .nil h

end

theorem distinct_of_scalar? {run : Text} {v : Value} (h : scalar? run = some v) : v.Distinct := by
  unfold scalar? at h
  split at h
  · exact Option.some.inj h ▸ .boolean true
  · split at h
    · exact Option.some.inj h ▸ .boolean false
    · split at h
      · exact Option.some.inj h ▸ .number
      · obtain ⟨spelling, -, rfl⟩ := Option.map_eq_some_iff.mp h
        exact .moment spelling

theorem readsDistinct_atom? : ReadsDistinct value?.atom? := by
  intro text v rest h
  unfold value?.atom? at h
  split at h
  case h_1 | h_2 =>
    obtain ⟨⟨chars, behind⟩, -, heq⟩ := Option.map_eq_some_iff.mp h
    exact (Prod.mk.inj heq).1 ▸ .string chars
  case h_3 =>
    obtain ⟨v', hv, heq⟩ := Option.map_eq_some_iff.mp h
    exact (Prod.mk.inj heq).1 ▸ distinct_of_scalar? hv

theorem readsDistinct_value? (depth : Nat) : ReadsDistinct (value? depth) := by
  induction depth with
  | zero => exact readsDistinct_atom?
  | succ depth ih =>
    intro text v rest h
    unfold value? at h
    split at h
    case h_1 =>
      obtain ⟨⟨items, behind⟩, hitems, heq⟩ := Option.map_eq_some_iff.mp h
      exact (Prod.mk.inj heq).1 ▸ .array (distinct_of_items? ih hitems)
    case h_2 =>
      obtain ⟨⟨entries, behind⟩, hentries, heq⟩ := Option.map_eq_some_iff.mp h
      exact (Prod.mk.inj heq).1 ▸
        Value.distinct_table_iff.mpr (distinct_of_inlineTable? ih hentries)
    case h_3 => exact readsDistinct_atom? _ _ _ h

/-! ## Documents -/

theorem distinct_of_line? {draft new : Draft} {text rest : Text} (hdraft : draft.entries.Distinct)
    (h : line? draft text = some (new, rest)) : new.entries.Distinct := by
  unfold line? at h
  split at h
  case h_1 =>
    obtain ⟨⟨path, behind⟩, -, hbehind⟩ := Option.bind_eq_some_iff.mp h
    dsimp only at hbehind
    split at hbehind
    case h_1 =>
      obtain ⟨entries, hopen, heq⟩ := Option.bind_eq_some_iff.mp hbehind
      obtain ⟨rfl, -⟩ := by simpa using heq
      exact hdraft.openItem? hopen
    case h_2 => simp at hbehind
  case h_2 =>
    obtain ⟨⟨path, behind⟩, -, hbehind⟩ := Option.bind_eq_some_iff.mp h
    dsimp only at hbehind
    split at hbehind
    case h_1 =>
      obtain ⟨entries, hopen, heq⟩ := Option.bind_eq_some_iff.mp hbehind
      obtain ⟨rfl, -⟩ := by simpa using heq
      exact hdraft.openTable? hopen
    case h_2 => simp at hbehind
  case h_3 =>
    obtain ⟨⟨⟨path, v⟩, behind⟩, hkeyValue, hbehind⟩ := Option.bind_eq_some_iff.mp h
    obtain ⟨entries, hdescend, heq⟩ := Option.bind_eq_some_iff.mp hbehind
    obtain ⟨rfl, -⟩ := by simpa using heq
    have hv := distinct_of_keyValue? (readsDistinct_value? maxDepth) hkeyValue
    exact hdraft.descend? (fun kind old new hold hnew => hold.put? hv hnew) hdescend

theorem distinct_of_lines? {fuel : Nat} {draft : Draft} {text : Text} {entries : Entries}
    (hdraft : draft.entries.Distinct) (h : lines? fuel draft text = some entries) :
    entries.Distinct := by
  induction fuel generalizing draft text with
  | zero => simp [lines?] at h
  | succ fuel ih =>
    obtain ⟨behind, -, hbehind⟩ := Option.bind_eq_some_iff.mp h
    split at hbehind
    case h_1 => exact Option.some.inj hbehind ▸ hdraft
    case h_2 =>
      obtain ⟨⟨draft', rest⟩, hline, hrest⟩ := Option.bind_eq_some_iff.mp hbehind
      obtain ⟨rest', -, hlines⟩ := Option.bind_eq_some_iff.mp hrest
      exact ih (distinct_of_line? hdraft hline) hlines

/-- No table of a document has a key twice. -/
theorem distinct_of_document? {text : Text} {entries : Entries}
    (h : document? text = some entries) : entries.Distinct := by
  obtain ⟨text, -, hlines⟩ := Option.bind_eq_some_iff.mp h
  exact distinct_of_lines? .nil hlines

end RecipeLint.Toml

/-! ## Overlays -/

namespace RecipeLint.Overlay

open Toml

theorem names_of_mapM {entries : Entries} {declarations : List (Text × Declaration)}
    (h : entries.mapM (fun (name, value) => (declaration? value).map (name, ·)) =
      some declarations) : declarations.map Prod.fst = entries.map Prod.fst := by
  induction entries generalizing declarations with
  | nil =>
    obtain rfl := Option.some.inj h
    rfl
  | cons entry entries ih =>
    rw [List.mapM_cons] at h
    obtain ⟨first, hfirst, hrest⟩ := Option.bind_eq_some_iff.mp h
    obtain ⟨d, -, rfl⟩ := Option.map_eq_some_iff.mp hfirst
    obtain ⟨rest, hmapM, heq⟩ := Option.bind_eq_some_iff.mp hrest
    obtain rfl := Option.some.inj heq
    rw [List.map_cons, List.map_cons, ih hmapM]

theorem nodup_of_declarations? {value : Value} {declarations : List (Text × Declaration)}
    (hvalue : value.Distinct) (h : declarations? value = some declarations) :
    (declarations.map Prod.fst).Nodup := by
  obtain ⟨entries, hentries, hmapM⟩ := Option.bind_eq_some_iff.mp h
  rw [names_of_mapM hmapM]
  cases value with
  | table kind inner =>
    obtain rfl := Option.some.inj hentries
    exact (Value.distinct_table_iff.mp hvalue).keys
  | moment spelling =>
    obtain rfl := Option.some.inj hentries
    exact List.nodup_singleton _
  | _ => simp [Value.entries?] at hentries

/-- No name is declared twice in an overlay. -/
theorem nodup_of_read? {text : Text} {overlay : Overlay} (h : read? text = some overlay) :
    (overlay.declarations.map Prod.fst).Nodup := by
  obtain ⟨entries, hdocument, hoverlay⟩ := Option.bind_eq_some_iff.mp h
  have hdistinct := distinct_of_document? hdocument
  unfold ofDocument? at hoverlay
  split_ifs at hoverlay
  obtain ⟨settings, -, hrest⟩ := Option.bind_eq_some_iff.mp hoverlay
  obtain ⟨declarations?, hmember, heq⟩ := Option.bind_eq_some_iff.mp hrest
  obtain rfl := Option.some.inj heq
  unfold member? at hmember
  split at hmember
  case h_1 =>
    obtain rfl := Option.some.inj hmember
    exact List.nodup_nil
  case h_2 value hvalue =>
    obtain ⟨declarations, hdeclarations, rfl⟩ := Option.map_eq_some_iff.mp hmember
    exact nodup_of_declarations? (hdistinct.get? hvalue) hdeclarations

end RecipeLint.Overlay

import RecipeLint.Config
import RecipeLint.Proofs.Config.Tables
import RecipeLint.Proofs.Toml.Keys

/-!
# Merging overlays

An overlay is merged up to its first declaration that means nothing.  What stands before that is put
onto the table in the order of the document, and as no name is declared twice in a document, merging
it twice is merging it once.
-/

namespace RecipeLint

/-! ## What declarations mean -/

theorem BasicType.ofName?_eq_some {name : Text} {basic : BasicType}
    (h : ofName? name = some basic) : basic.name.toList = name := by
  simpa using List.find?_some h

theorem BasicType.ne_of_ofName?_eq_none {name : Text} (h : ofName? name = none)
    (basic : BasicType) : basic.name.toList ≠ name := by
  rintro rfl
  rw [ofName?_name] at h
  exact Option.some_ne_none _ h

theorem Permission.ofName?_name (p : Permission) : ofName? p.name.toList = some p := by
  cases p <;> decide

theorem Permission.ofName?_eq_some {name : Text} {p : Permission} (h : ofName? name = some p) :
    p.name.toList = name := by
  simpa using List.find?_some h

theorem Permission.ne_of_ofName?_eq_none {name : Text} (h : ofName? name = none) (p : Permission) :
    p.name.toList ≠ name := by
  rintro rfl
  rw [ofName?_name] at h
  exact Option.some_ne_none _ h

theorem Permission.name_injective {p p' : Permission} (h : p.name.toList = p'.name.toList) :
    p = p' := by
  have hsome := ofName?_name p
  rw [h, ofName?_name] at hsome
  exact (Option.some.inj hsome).symm

def Permissions.ofName (name : Text) : Except Text Permission :=
  match Permission.ofName? name with
  | some p => .ok p
  | none => .error name

theorem Permissions.mapM_ofName (names : List Text) :
    (∃ granted : List Permission, names.mapM ofName = .ok granted ∧
      names = granted.map (·.name.toList)) ∨
    ∃ front name behind, names = front ++ name :: behind ∧ names.mapM ofName = .error name ∧
      (∀ n ∈ front, ∃ p : Permission, p.name.toList = n) ∧
      ∀ p : Permission, p.name.toList ≠ name := by
  induction names with
  | nil => exact .inl ⟨[], rfl, rfl⟩
  | cons name names ih =>
    rw [List.mapM_cons]
    cases hname : Permission.ofName? name with
    | none =>
      exact .inr ⟨[], name, names, rfl, by simp [ofName, hname, Bind.bind, Except.bind], by simp,
        Permission.ne_of_ofName?_eq_none hname⟩
    | some p =>
      have hp := Permission.ofName?_eq_some hname
      rcases ih with ⟨granted, hgranted, rfl⟩ | ⟨front, n, behind, rfl, herror, hfront, hn⟩
      · refine .inl ⟨p :: granted, ?_, by simp [hp]⟩
        simp [ofName, hname, hgranted, Bind.bind, Except.bind, pure, Except.pure]
      · refine .inr ⟨name :: front, n, behind, rfl,
          by simp [ofName, hname, herror, Bind.bind, Except.bind], ?_, hn⟩
        exact List.forall_mem_cons.mpr ⟨⟨p, hp⟩, hfront⟩

theorem Permissions.ofNames_cases (names : List Text) :
    (∃ permissions, ofNames names = .ok permissions ∧
      (∀ name ∈ names, ∃ p : Permission, p.name.toList = name) ∧
      ∀ p, permissions.grants p ↔ p.name.toList ∈ names) ∨
    ∃ front name behind, names = front ++ name :: behind ∧ ofNames names = .error name ∧
      (∀ n ∈ front, ∃ p : Permission, p.name.toList = n) ∧
      ∀ p : Permission, p.name.toList ≠ name := by
  have hofNames : ofNames names = ofList <$> names.mapM ofName := rfl
  rcases mapM_ofName names with ⟨granted, hgranted, rfl⟩ | ⟨front, name, behind, rfl, herror, h⟩
  · refine .inl ⟨ofList granted, by rw [hofNames, hgranted]; rfl, ?_, fun p => ?_⟩
    · intro name hname
      obtain ⟨p, -, hp⟩ := List.mem_map.mp hname
      exact ⟨p, hp⟩
    · rw [grants_ofList, List.contains_iff_mem, List.mem_map]
      constructor
      · exact fun hp => ⟨p, hp, rfl⟩
      · rintro ⟨p', hp', hname⟩
        exact Permission.name_injective hname ▸ hp'
  · exact .inr ⟨front, name, behind, rfl, by rw [hofNames, herror]; rfl, h⟩

namespace Declaration

structure Means (d : Declaration) (type : VarType) : Prop where
  basic : type.basic.name.toList = d.basic
  list : type.list = d.list
  guessed : type.guessed = d.guessed
  unrestricted : d.permissions? = none → type.permissions = .unrestricted
  known : ∀ names, d.permissions? = some names → ∀ name ∈ names,
    ∃ p : Permission, p.name.toList = name
  grants : ∀ names, d.permissions? = some names →
    ∀ p, type.permissions.grants p ↔ p.name.toList ∈ names

/-- The declaration has this name that means nothing, and no other before it. -/
inductive Fails (d : Declaration) : UnknownName → Prop
  | type (h : ∀ basic : BasicType, basic.name.toList ≠ d.basic) : Fails d (.type d.basic)
  | permission {front behind : List Text} {name : Text}
      (hbasic : ∃ basic : BasicType, basic.name.toList = d.basic)
      (hnames : d.permissions? = some (front ++ name :: behind))
      (hfront : ∀ n ∈ front, ∃ p : Permission, p.name.toList = n)
      (hname : ∀ p : Permission, p.name.toList ≠ name) : Fails d (.permission name)

theorem Means.not_fails {d : Declaration} {type : VarType} (h : d.Means type)
    (unknown : UnknownName) : ¬d.Fails unknown := by
  intro hfails
  cases hfails with
  | type hbasic => exact hbasic type.basic h.basic
  | permission _ hnames _ hname =>
    obtain ⟨p, hp⟩ := h.known _ hnames _ (List.mem_append_right _ List.mem_cons_self)
    exact hname p hp

theorem resolve_cases (d : Declaration) :
    (∃ type, d.resolve = .ok type ∧ d.Means type) ∨
      ∃ unknown, d.resolve = .error unknown ∧ d.Fails unknown := by
  cases hbasic : BasicType.ofName? d.basic with
  | none =>
    exact .inr ⟨_, by simp [resolve, hbasic], .type (BasicType.ne_of_ofName?_eq_none hbasic)⟩
  | some basic =>
    have hname := BasicType.ofName?_eq_some hbasic
    cases hpermissions : d.permissions? with
    | none =>
      refine .inl ⟨_, by simp only [resolve, hbasic, hpermissions, Option.map_none]; rfl, ?_⟩
      exact ⟨hname, rfl, rfl, fun _ => rfl, by simp [hpermissions], by simp [hpermissions]⟩
    | some names =>
      rcases Permissions.ofNames_cases names with
        ⟨permissions, hok, hknown, hgrants⟩ | ⟨front, name, behind, rfl, herror, hfront, hunknown⟩
      · refine .inl ⟨_, by simp only [resolve, hbasic, hpermissions, Option.map_some, hok]; rfl, ?_⟩
        exact ⟨hname, rfl, rfl, by simp [hpermissions], by simpa [hpermissions] using hknown,
          by simpa [hpermissions] using hgrants⟩
      · refine .inr ⟨.permission name, ?_,
          .permission ⟨basic, hname⟩ hpermissions hfront hunknown⟩
        simp only [resolve, hbasic, hpermissions, Option.map_some, herror]

theorem means_of_resolve {d : Declaration} {type : VarType} (h : d.resolve = .ok type) :
    d.Means type := by
  rcases d.resolve_cases with ⟨type', htype', hmeans⟩ | ⟨unknown, hunknown, -⟩
  · exact Except.ok.inj (h.symm.trans htype') ▸ hmeans
  · simp [h] at hunknown

theorem fails_of_resolve {d : Declaration} {unknown : UnknownName}
    (h : d.resolve = .error unknown) : d.Fails unknown := by
  rcases d.resolve_cases with ⟨type, htype, -⟩ | ⟨unknown', hunknown', hfails⟩
  · simp [h] at htype
  · exact Except.error.inj (h.symm.trans hunknown') ▸ hfails

end Declaration

/-! ## The table -/

theorem TypeTable.eq_of_entries {types types' : TypeTable} (h : types.entries = types'.entries) :
    types = types' := by
  cases types
  cases types'
  simpa using h

namespace Config

open TypeTable

def Yields (d : Text × Declaration) (entry : Text × VarType) : Prop :=
  d.1 = entry.1 ∧ d.2.resolve = .ok entry.2

/-- Declarations are put onto the table up to the first one that does not resolve. -/
theorem declare_cases (types : TypeTable) (declarations : List (Text × Declaration)) :
    ∃ front behind inserted, declarations = front ++ behind ∧
      List.Forall₂ Yields front inserted ∧
      (declare types declarations).1.entries = types.entries.putAll inserted ∧
      (behind = [] ∧ (declare types declarations).2 = none ∨
        ∃ name d rest unknown, behind = (name, d) :: rest ∧ d.resolve = .error unknown ∧
          (declare types declarations).2 = some (.unknownName unknown name)) := by
  induction declarations generalizing types with
  | nil => exact ⟨[], [], [], rfl, .nil, rfl, .inl ⟨rfl, rfl⟩⟩
  | cons first declarations ih =>
    obtain ⟨name, d⟩ := first
    cases hresolve : d.resolve with
    | ok type =>
      have hdeclare : declare types ((name, d) :: declarations) =
          declare (types.insert name type) declarations := by simp only [declare, hresolve]
      obtain ⟨front, behind, inserted, hsplit, hfront, hentries, hend⟩ :=
        ih (types.insert name type)
      refine ⟨(name, d) :: front, behind, (name, type) :: inserted, by rw [hsplit]; rfl,
        .cons ⟨rfl, hresolve⟩ hfront, ?_, ?_⟩
      · rw [hdeclare, hentries]
        rfl
      · rwa [hdeclare]
    | error unknown =>
      have hdeclare : declare types ((name, d) :: declarations) =
          (types, some (.unknownName unknown name)) := by simp only [declare, hresolve]
      exact ⟨[], (name, d) :: declarations, [], rfl, .nil, by rw [hdeclare]; rfl,
        .inr ⟨name, d, declarations, unknown, rfl, hresolve, by rw [hdeclare]⟩⟩

theorem names_of_yields {front : List (Text × Declaration)} {inserted : Entries}
    (h : List.Forall₂ Yields front inserted) : front.map Prod.fst = Entries.names inserted := by
  induction h with
  | nil => rfl
  | cons hfirst _ ih => exact List.cons_eq_cons.mpr ⟨hfirst.1, ih⟩

theorem exists_means_of_yields {front : List (Text × Declaration)} {inserted : Entries}
    (h : List.Forall₂ Yields front inserted) : ∀ d ∈ front, ∃ type, d.2.Means type := by
  induction h with
  | nil => simp
  | @cons _ entry _ _ hfirst _ ih =>
    exact List.forall_mem_cons.mpr ⟨⟨entry.2, Declaration.means_of_resolve hfirst.2⟩, ih⟩

theorem declare_of_yields {declarations : List (Text × Declaration)} {inserted : Entries}
    (h : List.Forall₂ Yields declarations inserted) (types : TypeTable) :
    (declare types declarations).1.entries = types.entries.putAll inserted ∧
      (declare types declarations).2 = none := by
  induction h generalizing types with
  | nil => exact ⟨rfl, rfl⟩
  | @cons d entry declarations inserted hfirst _ ih =>
    obtain ⟨name, d⟩ := d
    obtain ⟨rfl, hresolve⟩ := hfirst
    have hdeclare : declare types ((entry.1, d) :: declarations) =
        declare (types.insert entry.1 entry.2) declarations := by simp only [declare, hresolve]
    rw [hdeclare]
    exact ih (types.insert entry.1 entry.2)

/-- Declaring the same once more changes nothing. -/
theorem declare_declare {types : TypeTable} {declarations : List (Text × Declaration)}
    (hdistinct : (declarations.map Prod.fst).Nodup) (h : (declare types declarations).2 = none) :
    declare (declare types declarations).1 declarations = declare types declarations := by
  obtain ⟨front, behind, inserted, hsplit, hfront, hentries, hend⟩ :=
    declare_cases types declarations
  rcases hend with ⟨rfl, -⟩ | ⟨name, d, rest, unknown, -, -, herror⟩
  · obtain rfl : declarations = front := hsplit.trans (List.append_nil front)
    obtain ⟨hagain, hnone⟩ := declare_of_yields hfront (declare types declarations).1
    rw [names_of_yields hfront] at hdistinct
    refine Prod.ext (TypeTable.eq_of_entries ?_) (hnone.trans h.symm)
    rw [hagain, hentries, Entries.putAll_putAll types.distinct hdistinct]
  · simp [h] at herror

theorem declare_eq_none_iff {types : TypeTable} {declarations : List (Text × Declaration)} :
    (declare types declarations).2 = none ↔ ∀ d ∈ declarations, ∃ type, d.2.Means type := by
  obtain ⟨front, behind, inserted, hsplit, hfront, -, hend⟩ := declare_cases types declarations
  rcases hend with ⟨rfl, hnone⟩ | ⟨name, d, rest, unknown, rfl, hresolve, herror⟩
  · refine ⟨fun _ d hd => ?_, fun _ => hnone⟩
    rw [hsplit, List.append_nil] at hd
    exact exists_means_of_yields hfront d hd
  · constructor
    · intro hnone
      simp [hnone] at herror
    · intro hall
      obtain ⟨type, hmeans⟩ := hall (name, d) (hsplit ▸ by simp)
      exact absurd (Declaration.fails_of_resolve hresolve) (hmeans.not_fails unknown)

variable {overlay : Overlay}

theorem apply_cases (config : Config) (hdistinct : (overlay.declarations.map Prod.fst).Nodup) :
    ∃ front behind inserted, overlay.declarations = front ++ behind ∧
      List.Forall₂ (fun d (entry : Text × VarType) => d.1 = entry.1 ∧ d.2.Means entry.2)
        front inserted ∧
      Entries.PutOnto config.types.entries inserted (config.apply overlay).1.types.entries ∧
      (behind = [] ∧ (config.apply overlay).2 = none ∨
        ∃ name d rest unknown, behind = (name, d) :: rest ∧ d.Fails unknown ∧
          (config.apply overlay).2 = some (.unknownName unknown name)) := by
  obtain ⟨front, behind, inserted, hsplit, hfront, hentries, hend⟩ :=
    declare_cases config.types overlay.declarations
  have hinserted : (Entries.names inserted).Nodup := by
    rw [← names_of_yields hfront]
    rw [hsplit, List.map_append] at hdistinct
    exact hdistinct.of_append_left
  refine ⟨front, behind, inserted, hsplit,
    hfront.imp fun d entry h => ⟨h.1, Declaration.means_of_resolve h.2⟩, ?_, hend.imp_right ?_⟩
  · have hput := Entries.putOnto_putAll config.types.distinct hinserted
    rw [← hentries] at hput
    exact hput
  · rintro ⟨name, d, rest, unknown, hbehind, hresolve, herror⟩
    exact ⟨name, d, rest, unknown, hbehind, Declaration.fails_of_resolve hresolve, herror⟩

theorem apply_apply {config : Config} (hdistinct : (overlay.declarations.map Prod.fst).Nodup)
    (h : (config.apply overlay).2 = none) :
    (config.apply overlay).1.apply overlay = config.apply overlay := by
  have hsettings (setting? : Option Bool) (old : Bool) :
      setting?.getD (setting?.getD old) = setting?.getD old := by cases setting? <;> rfl
  have hnone : (declare config.types overlay.declarations).2 = none := h
  simp only [apply, declare_declare hdistinct hnone, hsettings]

/-- How a text is merged, whatever its format, as long as no name is declared twice in it.  One that
is no overlay changes nothing.  Otherwise each setting that it has replaces its own value only, and
the declarations are put onto the table in order, up to the first one that means nothing, which is
the error.  There is no error just if all declarations mean something, and then merging the text once
more changes nothing. -/
theorem mergeWith_text (config : Config) (decode : Text → Option Overlay) (text : Text)
    (hdistinct : ∀ overlay, decode text = some overlay →
      (overlay.declarations.map Prod.fst).Nodup) :
    (decode text = none → config.mergeWith decode text = (config, some .malformed)) ∧
    (∀ overlay, decode text = some overlay →
      (config.mergeWith decode text).1.settings =
        ⟨overlay.warnQuoting?.getD config.settings.warnQuoting,
          overlay.warnStyle?.getD config.settings.warnStyle⟩ ∧
      ((config.mergeWith decode text).2 = none ↔
        ∀ d ∈ overlay.declarations, ∃ type, d.2.Means type) ∧
      ∃ front behind inserted, overlay.declarations = front ++ behind ∧
        List.Forall₂ (fun d (entry : Text × VarType) => d.1 = entry.1 ∧ d.2.Means entry.2)
          front inserted ∧
        Entries.PutOnto config.types.entries inserted
          (config.mergeWith decode text).1.types.entries ∧
        (behind = [] ∧ (config.mergeWith decode text).2 = none ∨
          ∃ name d rest unknown, behind = (name, d) :: rest ∧ d.Fails unknown ∧
            (config.mergeWith decode text).2 = some (.unknownName unknown name))) ∧
    ((config.mergeWith decode text).2 = none →
      (config.mergeWith decode text).1.mergeWith decode text = config.mergeWith decode text) := by
  cases h : decode text with
  | none =>
    have hmerge : config.mergeWith decode text = (config, some .malformed) := by
      simp only [mergeWith, h]
    refine ⟨fun _ => hmerge, by simp, fun hok => ?_⟩
    simp [hmerge] at hok
  | some overlay =>
    have hdeclared := hdistinct overlay h
    have hmerge (config : Config) : config.mergeWith decode text = config.apply overlay := by
      simp only [mergeWith, h]
    simp only [hmerge]
    refine ⟨by simp, ?_, apply_apply hdeclared⟩
    intro _ hoverlay
    obtain rfl := Option.some.inj hoverlay
    exact ⟨rfl, declare_eq_none_iff, apply_cases config hdeclared⟩

/-- A document that changes a setting, replaces a type and adds one, and then names a type that there
is not: what follows that is left out. -/
theorem mergeWith_text_stopped :
    let text : Text := ("[settings]\nwarn_style = false\n\n[vars]\nCC = \"ShellCommand\"\n" ++
      "FLAGS = \x7b type = \"CFlag\", list = true \x7d\nX = \"Nothing\"\nHOME = \"Tool\"\n").toList
    let config : Config := ⟨.all, .ofList [("CC".toList, .ofBasic .tool false),
      ("HOME".toList, .ofBasic .pathname false)]⟩
    ∃ overlay, Overlay.read? text = some overlay ∧ (overlay.declarations.map Prod.fst).Nodup ∧
      (config.mergeWith Overlay.read? text).1.settings = ⟨true, false⟩ ∧
      (config.mergeWith Overlay.read? text).1.types.entries =
        [("CC".toList, .ofBasic .shellCommand false), ("HOME".toList, .ofBasic .pathname false),
          ("FLAGS".toList, .ofBasic .cFlag true)] ∧
      ∃ front d rest inserted, overlay.declarations = front ++ ("X".toList, d) :: rest ∧
        List.Forall₂ (fun d (entry : Text × VarType) => d.1 = entry.1 ∧ d.2.Means entry.2)
          front inserted ∧
        Entries.PutOnto config.types.entries inserted
          (config.mergeWith Overlay.read? text).1.types.entries ∧
        d.Fails (.type "Nothing".toList) ∧
        (config.mergeWith Overlay.read? text).2 =
          some (.unknownName (.type "Nothing".toList) "X".toList) := by
  intro text config
  let overlay : Overlay := ⟨none, some false, [("CC".toList, .short "ShellCommand".toList),
    ("FLAGS".toList, .full "CFlag".toList true false none),
    ("X".toList, .short "Nothing".toList), ("HOME".toList, .short "Tool".toList)]⟩
  have hread : Overlay.read? text = some overlay := by decide +kernel +revert
  have hmerged : config.mergeWith Overlay.read? text = config.apply overlay := by
    simp only [mergeWith, hread]
  have hentries : (config.apply overlay).1.types.entries =
      [("CC".toList, .ofBasic .shellCommand false), ("HOME".toList, .ofBasic .pathname false),
        ("FLAGS".toList, .ofBasic .cFlag true)] := by decide +kernel
  have herror : (config.apply overlay).2 =
      some (.unknownName (.type "Nothing".toList) "X".toList) := by decide +kernel
  obtain ⟨-, happlied, -⟩ :=
    mergeWith_text config Overlay.read? text fun _ h => Overlay.nodup_of_read? h
  obtain ⟨hsettings, -, front, behind, inserted, hsplit, hfront, hput, hend⟩ :=
    happlied overlay hread
  rw [hmerged] at hsettings hput hend ⊢
  refine ⟨overlay, hread, Overlay.nodup_of_read? hread, hsettings, hentries, ?_⟩
  rcases hend with ⟨-, hnone⟩ | ⟨name, d, rest, unknown, rfl, hfails, hsome⟩
  · cases herror.symm.trans hnone
  · obtain ⟨rfl, rfl⟩ := MergeError.unknownName.inj (Option.some.inj (herror.symm.trans hsome))
    exact ⟨front, d, rest, inserted, hsplit, hfront, hput, hfails, herror⟩

end Config

end RecipeLint

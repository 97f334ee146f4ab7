import Mathlib.Data.List.Nodup
import Mathlib.Data.List.Perm.Basic
import Sigil.Proofs.OutputLines

namespace Sigil

namespace OutputLine

/-- Whether a line inside a function starts the declaration of a constant. -/
def isConstant (l : OutputLine) : Bool := "  const ".toList.isPrefixOf l.text.toList

/-- A line that declares `names` as constants. -/
def Binds (l : OutputLine) (names : List String) : Prop :=
  ∃ value, l.text = "  const " ++ bindingPattern names ++ " = " ++ value

theorem binds_constant (names : List String) (value : String) (origin : Nat) :
    (constant names value origin).Binds names :=
  ⟨value ++ ";", String.append_assoc⟩

end OutputLine

namespace Declaration

open Component OutputLine

theorem isConstant_of_binds {l : OutputLine} {names : List String} (h : l.Binds names) :
    l.isConstant := by
  obtain ⟨value, htext⟩ := h
  rw [String.append_assoc, String.append_assoc] at htext
  rw [isConstant, htext, String.toList_append]
  exact List.isPrefixOf_iff_prefix.mpr (List.prefix_append _ _)

/-- A line that goes on with something else behind its indentation declares no constant. -/
theorem not_isConstant {l : OutputLine} (h : l.text.toList[2]? ≠ some 'c') :
    l.isConstant = false := by
  refine Bool.eq_false_iff.mpr fun hl => h ?_
  obtain ⟨rest, hrest⟩ := List.isPrefixOf_iff_prefix.mp hl
  rw [← hrest]
  rfl

/-- A declaration that binds names sets them as constants on its line. -/
theorem headline_eq_constant (d : Dialect) (c : Component) {x : Declaration}
    (hprop : ∀ p, x ≠ prop p) (hbound : x.boundNames ≠ []) :
    ∃ value, x.headline d c = (constant x.boundNames value x.line).text := by
  cases x with
  | prop x => exact absurd rfl (hprop x)
  | effect x | layoutEffect x | handle x => exact absurd rfl hbound
  | _ => exact ⟨_, rfl⟩

theorem not_isConstant_of_unbound (d : Dialect) (c : Component) {x : Declaration}
    (hbound : x.boundNames = []) : ∀ l ∈ x.lines d c, l.isConstant = false := by
  have hbody (e : EffectDecl) : ∀ l ∈ furtherLines c (.effect e), l.isConstant = false := by
    intro l hl
    rcases List.mem_cons.mp hl with rfl | hl
    · exact not_isConstant (by simp [unmapped])
    · obtain rfl := List.mem_singleton.mp hl
      exact not_isConstant (by simp [unmapped])
  have hmethod (m : KeyedEntry) : (c.methodLine m).isConstant = false :=
    not_isConstant (by simp [methodLine, unmapped])
  have hhook (text : String) (h : text.toList[2]? ≠ some 'c') (line : Nat) :
      (mapped text line).isConstant = false := not_isConstant h
  cases x with
  | effect x =>
    have hfirst := hhook "  useEffect(() => \x7b" (by decide) x.line
    exact List.forall_mem_cons.mpr ⟨hfirst, hbody x⟩
  | layoutEffect x =>
    have hfirst := hhook "  useLayoutEffect(() => \x7b" (by decide) x.line
    exact List.forall_mem_cons.mpr ⟨hfirst, hbody x⟩
  | handle x =>
    have hfirst := hhook ("  useImperativeHandle(" ++ x.name ++ ", () => (\x7b") (by simp) x.line
    refine List.forall_mem_cons.mpr ⟨hfirst, ?_⟩
    refine List.forall_mem_append.mpr ⟨List.forall_mem_map.mpr fun m _ => hmethod m, ?_⟩
    exact List.forall_mem_singleton.mpr (not_isConstant (by decide))
  | _ => cases hbound

/-- A declaration that binds names does so on its one line; no line of any other is a constant. -/
theorem constants_lines (d : Dialect) (c : Component) {x : Declaration} (hprop : ∀ p, x ≠ prop p) :
    List.Forall₂ Binds ((x.lines d c).filter isConstant)
      (if x.boundNames.isEmpty then [] else [x.boundNames]) := by
  by_cases hbound : x.boundNames = []
  · rw [if_pos (by simp [hbound]), List.filter_eq_nil_iff.mpr]
    · exact .nil
    · intro l hl
      rw [not_isConstant_of_unbound d c hbound l hl]
      decide
  · obtain ⟨value, hheadline⟩ := headline_eq_constant d c hprop hbound
    have hbinds : Binds (mapped (x.headline d c) x.line) x.boundNames := by
      rw [hheadline]
      exact binds_constant x.boundNames value x.line
    have hfurther : x.furtherLines c = [] := by
      cases x with
      | effect x | layoutEffect x | handle x => exact absurd rfl hbound
      | _ => rfl
    rw [if_neg (by simpa using hbound), lines, hfurther,
      List.filter_cons_of_pos (isConstant_of_binds hbinds)]
    exact .cons hbinds .nil

end Declaration

namespace Component

/-- All declarations in the order in which the function binds their names. -/
def functionDeclarations (c : Component) : List Declaration :=
  c.props.map .prop ++ c.bodyDeclarations

def declaredNames (c : Component) : List String :=
  c.functionDeclarations.filterMap Declaration.ownName?

def derivedNames (c : Component) : List String :=
  c.bodyDeclarations.flatMap Declaration.derivedNames

/-- The names that the constants of the function bind, line by line. -/
def constants (c : Component) : List (List String) :=
  (c.bodyDeclarations.map Declaration.boundNames).filter (!·.isEmpty)

/-- All names that the function binds: those its parameter is taken apart into, and its
constants. -/
def boundNames (c : Component) : List String := c.props.map (·.name) ++ c.constants.flatten

/-- The function's text binds the names: the parameter has a field for each prop, and the lines that
declare constants bind them in order. -/
structure FunctionBinds (d : Dialect) (c : Component) : Prop where
  signature : ∃ fields : List String,
    List.Forall₂ (fun field name => field = name ∨ ∃ value, field = name ++ " = " ++ value) fields
      (c.props.map (·.name)) ∧
    (c.signatureLine d).text = "function " ++ c.name ++ "(" ++
      (if fields.isEmpty then ""
        else inBraces (" " ++ joinWith ", " fields ++ " ") ++ d.propsAnnotation c.name) ++ ") \x7b"
  constants : List.Forall₂ OutputLine.Binds
    ((c.declarationLines d).filter OutputLine.isConstant) c.constants

theorem propParam_cases (p : PropDecl) :
    propParam p = p.name ∨ ∃ value, propParam p = p.name ++ " = " ++ value := by
  unfold propParam
  split
  next e _ => exact .inr ⟨e.render [], rfl⟩
  next => exact .inl rfl

theorem ne_prop_of_mem_bodyDeclarations {c : Component} {x : Declaration}
    (h : x ∈ c.bodyDeclarations) (p : PropDecl) : x ≠ .prop p := by
  rintro rfl
  delta bodyDeclarations at h
  simp at h

theorem constants_flatMap (d : Dialect) (c : Component) {ds : List Declaration}
    (h : ∀ x ∈ ds, ∀ p, x ≠ .prop p) :
    List.Forall₂ OutputLine.Binds (ds.flatMap fun x => (x.lines d c).filter OutputLine.isConstant)
      ((ds.map Declaration.boundNames).filter (!·.isEmpty)) := by
  induction ds with
  | nil => exact .nil
  | cons x ds ih =>
    obtain ⟨hx, hds⟩ := List.forall_mem_cons.mp h
    have hsplit : ((x :: ds).map Declaration.boundNames).filter (!·.isEmpty) =
        (if x.boundNames.isEmpty then [] else [x.boundNames]) ++
          (ds.map Declaration.boundNames).filter (!·.isEmpty) := by
      rw [List.map_cons, List.filter_cons]
      cases x.boundNames.isEmpty <;> rfl
    rw [hsplit, List.flatMap_cons]
    exact List.rel_append (Declaration.constants_lines d c hx) (ih hds)

theorem functionBinds (d : Dialect) (c : Component) : c.FunctionBinds d where
  signature := by
    refine ⟨c.props.map propParam, ?_, ?_⟩
    · rw [List.forall₂_map_left_iff, List.forall₂_map_right_iff, List.forall₂_same]
      exact fun p _ => propParam_cases p
    · rw [signatureLine, signatureParams]
      simp only [List.isEmpty_map, List.isEmpty_iff]
  constants := by
    rw [declarationLines_eq, List.filter_flatMap]
    exact constants_flatMap d c fun x hx => ne_prop_of_mem_bodyDeclarations hx

theorem boundNames_eq (c : Component) :
    c.boundNames = c.functionDeclarations.flatMap Declaration.boundNames := by
  unfold boundNames constants functionDeclarations
  rw [List.flatten_filter_not_isEmpty, List.flatMap_append, List.flatMap_map, List.flatMap_def]
  congr 1
  exact List.map_eq_flatMap

theorem boundNames_perm (c : Component) :
    c.boundNames.Perm (c.declaredNames ++ c.derivedNames) := by
  have hderived : c.functionDeclarations.flatMap Declaration.derivedNames = c.derivedNames := by
    rw [functionDeclarations, List.flatMap_append, List.flatMap_map]
    simp [Declaration.derivedNames, derivedNames]
  have hdeclared : c.functionDeclarations.flatMap (fun x => x.ownName?.toList) =
      c.declaredNames := (List.filterMap_eq_flatMap_toList _ _).symm
  rw [boundNames_eq, ← hderived, ← hdeclared]
  exact (List.flatMap_append_perm _ _ _).symm

def setters (c : Component) : List String := (c.states.map (·.name)).map Names.setter

def adders (c : Component) : List String := (c.optimistics.map (·.name)).map Names.optimisticAdder

def dispatchers (c : Component) : List String := (c.reducers.map (·.name)).map Names.dispatch

def pendingFlags (c : Component) : List String :=
  (c.actions.map (·.name) ++ c.transitions.map (·.name)).map Names.pending

def starters (c : Component) : List String :=
  (c.transitions.map (·.name)).map Names.transitionStarter

def wrappers (c : Component) : List String := (c.actions.map (·.name)).map Names.action

/-- The derived names that start with a word of their own, scheme by scheme, each with the two
characters that its word starts with. -/
def schemes (c : Component) : List (List Char × List String) :=
  [(['s', 'e'], c.setters), (['a', 'd'], c.adders), (['d', 'i'], c.dispatchers),
    (['i', 's'], c.pendingFlags), (['s', 't'], c.starters)]

theorem derivedNames_perm (c : Component) :
    c.derivedNames.Perm (c.schemes.flatMap (·.2) ++ c.wrappers) := by
  have hactions : (c.actions.flatMap fun x => [Names.action x.name, Names.pending x.name]).Perm
      (c.wrappers ++ (c.actions.map (·.name)).map Names.pending) := by
    have hperm := List.flatMap_append_perm c.actions (fun x => [Names.action x.name])
      fun x => [Names.pending x.name]
    rw [← List.map_eq_flatMap, ← List.map_eq_flatMap] at hperm
    rw [wrappers, List.map_map, List.map_map]
    exact hperm.symm
  have htransitions : (c.transitions.flatMap fun x =>
      [Names.pending x.name, Names.transitionStarter x.name]).Perm
      ((c.transitions.map (·.name)).map Names.pending ++ c.starters) := by
    have hperm := List.flatMap_append_perm c.transitions (fun x => [Names.pending x.name])
      fun x => [Names.transitionStarter x.name]
    rw [← List.map_eq_flatMap, ← List.map_eq_flatMap] at hperm
    rw [starters, List.map_map, List.map_map]
    exact hperm.symm
  have hnone {α : Type} (xs : List α) : (xs.flatMap fun _ => ([] : List String)) = [] :=
    List.flatMap_eq_nil_iff.mpr fun _ _ => rfl
  have hbody : c.derivedNames = c.setters ++ c.adders ++
      (c.actions.flatMap fun x => [Names.action x.name, Names.pending x.name]) ++ c.dispatchers ++
      c.transitions.flatMap fun x => [Names.pending x.name, Names.transitionStarter x.name] := by
    delta derivedNames bodyDeclarations
    simp only [List.flatMap_append, List.flatMap_map, Declaration.derivedNames, hnone,
      List.append_nil]
    simp only [setters, adders, dispatchers, List.map_map]
    simp only [List.map_eq_flatMap, Function.comp_def]
  -- Both sides hold each name equally often.
  refine List.perm_iff_count.mpr fun name => ?_
  have hcount := hactions.count_eq name
  have hcount' := htransitions.count_eq name
  rw [List.count_append] at hcount hcount'
  simp only [hbody, schemes, pendingFlags, List.map_append, List.flatMap_cons, List.flatMap_nil,
    List.count_append, List.count_nil, hcount, hcount']
  omega

theorem take_of_mem_schemes {c : Component} {scheme : List Char × List String}
    (h : scheme ∈ c.schemes) {name : String} (hname : name ∈ scheme.2) :
    name.toList.take 2 = scheme.1 := by
  have hlead {derive : String → String} {lead : List Char}
      (hderive : ∀ name, (derive name).toList.take 2 = lead) {names : List String}
      (hmem : name ∈ names.map derive) : name.toList.take 2 = lead := by
    obtain ⟨stem, _, rfl⟩ := List.mem_map.mp hmem
    exact hderive stem
  simp only [schemes, List.mem_cons, List.not_mem_nil, or_false] at h
  rcases h with rfl | rfl | rfl | rfl | rfl
  · exact hlead (by simp [Names.setter]) hname
  · exact hlead (by simp [Names.optimisticAdder]) hname
  · exact hlead (by simp [Names.dispatch]) hname
  · exact hlead (by simp [Names.pending]) hname
  · exact hlead (by simp [Names.transitionStarter]) hname

/-- Names of different schemes differ in their first two characters. -/
theorem schemes_disjoint (c : Component) :
    c.schemes.Pairwise fun s s' => s.2.Disjoint s'.2 := by
  have hleads : c.schemes.Pairwise fun s s' => s.1 ≠ s'.1 := by
    simp [schemes]
  refine hleads.imp_of_mem fun hs hs' hne name hname hname' => hne ?_
  rw [← take_of_mem_schemes hs hname, take_of_mem_schemes hs' hname']

theorem wrappers_disjoint_starters (c : Component) : c.wrappers.Disjoint c.starters := by
  intro name hwrapper hstarter
  obtain ⟨a, _, rfl⟩ := List.mem_map.mp hwrapper
  obtain ⟨b, _, heq⟩ := List.mem_map.mp hstarter
  -- The names end in different letters before a common ending.
  have hend : ∀ s : String, (s ++ "Action").toList.reverse[4]? = some 'c' := by simp
  have hend' : ∀ s : String, (s ++ "Transition").toList.reverse[4]? = some 'i' := by simp
  have hletter := hend a
  rw [← Names.action, ← heq, Names.transitionStarter, hend'] at hletter
  exact absurd hletter (by decide)

theorem nodup_map_iff_capitalize (derive : String → String)
    (h : ∀ a b, derive a = derive b ↔ Names.capitalize a = Names.capitalize b)
    (names : List String) : (names.map derive).Nodup ↔ (names.map Names.capitalize).Nodup := by
  unfold List.Nodup
  rw [List.pairwise_map, List.pairwise_map]
  simp only [ne_eq, h]

theorem schemes_nodup_iff (c : Component) :
    (c.schemes.flatMap (·.2)).Nodup ↔ ((c.states.map (·.name)).map Names.capitalize).Nodup ∧
      ((c.optimistics.map (·.name)).map Names.capitalize).Nodup ∧
      ((c.reducers.map (·.name)).map Names.capitalize).Nodup ∧
      ((c.actions.map (·.name) ++ c.transitions.map (·.name)).map Names.capitalize).Nodup := by
  have hsetters := nodup_map_iff_capitalize Names.setter (by simp [Names.setter])
    (c.states.map (·.name))
  have hadders := nodup_map_iff_capitalize Names.optimisticAdder
    (by simp [Names.optimisticAdder]) (c.optimistics.map (·.name))
  have hdispatchers := nodup_map_iff_capitalize Names.dispatch
    (by simp [Names.dispatch]) (c.reducers.map (·.name))
  have hpending := nodup_map_iff_capitalize Names.pending (by simp [Names.pending])
    (c.actions.map (·.name) ++ c.transitions.map (·.name))
  have hstarters := nodup_map_iff_capitalize Names.transitionStarter
    (by simp [Names.transitionStarter]) (c.transitions.map (·.name))
  rw [List.nodup_flatMap]
  constructor
  · rintro ⟨hnodup, _⟩
    simp only [schemes, List.forall_mem_cons] at hnodup
    obtain ⟨hset, hadd, hdispatch, hpend, _⟩ := hnodup
    exact ⟨hsetters.mp hset, hadders.mp hadd, hdispatchers.mp hdispatch, hpending.mp hpend⟩
  · rintro ⟨hstates, hoptimistics, hreducers, hpend⟩
    have htransitions := hpend
    rw [List.map_append] at htransitions
    have hstart := hstarters.mpr (List.nodup_append.mp htransitions).2.1
    refine ⟨?_, c.schemes_disjoint⟩
    simp only [schemes, List.forall_mem_cons]
    exact ⟨hsetters.mpr hstates, hadders.mpr hoptimistics, hdispatchers.mpr hreducers,
      hpending.mpr hpend, hstart, List.forall_mem_nil _⟩

/-- When the names that are derived from the declarations of a component stay apart. -/
structure NamesApart (c : Component) : Prop where
  /-- No derived name is declared. -/
  undeclared : c.derivedNames.Disjoint c.declaredNames
  states : ((c.states.map (·.name)).map Names.capitalize).Nodup
  optimistics : ((c.optimistics.map (·.name)).map Names.capitalize).Nodup
  reducers : ((c.reducers.map (·.name)).map Names.capitalize).Nodup
  pending : ((c.actions.map (·.name) ++ c.transitions.map (·.name)).map Names.capitalize).Nodup
  /-- Only the name of an action's wrapper does not start with a word of its own. -/
  wrappers : c.wrappers.Disjoint (c.setters ++ c.adders ++ c.dispatchers ++ c.pendingFlags)

theorem actions_sublist (c : Component) : (c.actions.map (·.name)).Sublist c.declaredNames := by
  have hactions : (c.actions.map Declaration.action).Sublist c.functionDeclarations := by
    delta functionDeclarations bodyDeclarations
    simp only [List.append_assoc]
    iterate 6 apply List.sublist_append_of_sublist_right
    exact List.sublist_append_left _ _
  have hnames := hactions.filterMap Declaration.ownName?
  rw [List.filterMap_map] at hnames
  have hsome : Declaration.ownName? ∘ Declaration.action = some ∘ ActionDecl.name := rfl
  rwa [hsome, List.filterMap_eq_map] at hnames

theorem disjoint_schemes_iff (c : Component) :
    (c.schemes.flatMap (·.2)).Disjoint c.wrappers ↔
      c.wrappers.Disjoint (c.setters ++ c.adders ++ c.dispatchers ++ c.pendingFlags) := by
  have hstarters := c.wrappers_disjoint_starters
  simp only [schemes, List.flatMap_cons, List.flatMap_nil, List.append_nil]
  rw [List.disjoint_comm]
  simp only [List.disjoint_append_right, hstarters, and_true, and_assoc]

theorem boundNames_nodup_iff (c : Component) (h : c.declaredNames.Nodup) :
    c.boundNames.Nodup ↔ c.NamesApart := by
  have hactions := h.sublist c.actions_sublist
  have hwrappers : c.wrappers.Nodup :=
    hactions.map fun a b hab => (String.append_left_inj "Action").mp hab
  have hsides : c.declaredNames.Disjoint c.derivedNames ↔ c.derivedNames.Disjoint c.declaredNames :=
    List.disjoint_comm
  rw [c.boundNames_perm.nodup_iff, List.nodup_append', c.derivedNames_perm.nodup_iff,
    List.nodup_append', schemes_nodup_iff, disjoint_schemes_iff, hsides]
  constructor
  · rintro ⟨_, ⟨⟨hstates, hoptimistics, hreducers, hpending⟩, _, hapart⟩, hundeclared⟩
    exact ⟨hundeclared, hstates, hoptimistics, hreducers, hpending, hapart⟩
  · rintro ⟨hundeclared, hstates, hoptimistics, hreducers, hpending, hapart⟩
    exact ⟨h, ⟨⟨hstates, hoptimistics, hreducers, hpending⟩, hwrappers, hapart⟩, hundeclared⟩

end Component

/-- What a function binds is what its text says, and if the declared names differ, all bound names
differ exactly if the derived ones stay apart. -/
theorem function_bindings_nodup_iff (d : Dialect) (c : Component) (h : c.declaredNames.Nodup) :
    c.FunctionBinds d ∧ (c.boundNames.Nodup ↔ c.NamesApart) :=
  ⟨c.functionBinds d, c.boundNames_nodup_iff h⟩

/-- A transition binds no name of its own, so it can be called like the wrapper of an action. -/
theorem function_bindings_nodup_schemes :
    ∃ c, Component.ofSource "Form"
        "@n = 0\n@saveAction:transition\naction save = \x7bf, n\x7d\n<p></p>" = .ok c ∧
      c.boundNames = ["n", "setN", "save", "saveAction", "isPendingSave", "isPendingSaveAction",
        "startSaveActionTransition"] ∧
      c.declaredNames.Nodup ∧ c.FunctionBinds .typed ∧ c.NamesApart := by
  have hread : ((Component.ofSource "Form"
      "@n = 0\n@saveAction:transition\naction save = \x7bf, n\x7d\n<p></p>").toOption.map
        fun c => (c.boundNames, c.declaredNames)) =
      some (["n", "setN", "save", "saveAction", "isPendingSave", "isPendingSaveAction",
        "startSaveActionTransition"], ["n", "save"]) := by
    decide +kernel
  obtain ⟨c, hc, hnames⟩ := Option.map_eq_some_iff.mp hread
  obtain ⟨hbound, hdeclared⟩ := Prod.mk.inj hnames
  have hnodup : c.declaredNames.Nodup := by rw [hdeclared]; decide
  obtain ⟨hbinds, hiff⟩ := function_bindings_nodup_iff .typed c hnodup
  exact ⟨c, eq_ok_of_toOption hc, hbound, hnodup, hbinds, hiff.mp (by rw [hbound]; decide)⟩

/-- An event can be called like the setter of a state, and the function then binds that name
twice. -/
theorem function_bindings_clash :
    ∃ c, Component.ofSource "Component" "@count = 0\n!setCount = count\n<p></p>" = .ok c ∧
      c.declaredNames = ["count", "setCount"] ∧ c.declaredNames.Nodup ∧
      c.declaredNames.all isName ∧ c.boundNames = ["count", "setCount", "setCount"] ∧
      ¬ c.boundNames.Nodup := by
  have hread : ((Component.ofSource "Component"
      "@count = 0\n!setCount = count\n<p></p>").toOption.map
        fun c => (c.declaredNames, c.boundNames)) =
      some (["count", "setCount"], ["count", "setCount", "setCount"]) := by
    decide +kernel
  obtain ⟨c, hc, hnames⟩ := Option.map_eq_some_iff.mp hread
  obtain ⟨hdeclared, hbound⟩ := Prod.mk.inj hnames
  refine ⟨c, eq_ok_of_toOption hc, hdeclared, ?_, ?_, hbound, ?_⟩
  · rw [hdeclared]
    decide
  · rw [hdeclared]
    decide
  · rw [hbound]
    decide

end Sigil

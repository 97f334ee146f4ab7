import Sigil.Proofs.LineTexts

namespace Sigil

/-- No line of the output is broken by a newline in its text. -/
def AllOneLine (ls : List OutputLine) : Prop := ∀ l ∈ ls, OneLine l.text

instance (ls : List OutputLine) : Decidable (AllOneLine ls) :=
  inferInstanceAs (Decidable (∀ l ∈ ls, OneLine l.text))

theorem allOneLine_nil : AllOneLine [] := by simp [AllOneLine]

theorem allOneLine_singleton {l : OutputLine} : AllOneLine [l] ↔ OneLine l.text :=
  List.forall_mem_singleton

theorem allOneLine_cons {l : OutputLine} {ls : List OutputLine} :
    AllOneLine (l :: ls) ↔ OneLine l.text ∧ AllOneLine ls :=
  List.forall_mem_cons

theorem allOneLine_append {ls ls' : List OutputLine} :
    AllOneLine (ls ++ ls') ↔ AllOneLine ls ∧ AllOneLine ls' :=
  List.forall_mem_append

theorem allOneLine_map {α : Type} {f : α → OutputLine} {as : List α}
    (h : ∀ a ∈ as, OneLine (f a).text) : AllOneLine (as.map f) := by
  intro l hl
  obtain ⟨a, ha, rfl⟩ := List.mem_map.mp hl
  exact h a ha

theorem allOneLine_flatMap {α : Type} {f : α → List OutputLine} {as : List α}
    (h : ∀ a ∈ as, AllOneLine (f a)) : AllOneLine (as.flatMap f) := by
  intro l hl
  obtain ⟨a, ha, hl⟩ := List.mem_flatMap.mp hl
  exact h a ha l hl

namespace Component

theorem oneLine_importLines (c : Component) : AllOneLine c.importLines := by
  have huses : ∀ hook ∈ c.hookUses.map Prod.fst, OneLine hook := by
    unfold hookUses
    dsimp only [List.map]
    decide
  have hhooks : OneLine (joinWith ", " c.hooks) := by
    refine oneLine_joinWith (by decide) fun p hp => ?_
    obtain ⟨u, hu, rfl⟩ := List.mem_map.mp hp
    exact huses u.1 (List.mem_map_of_mem (List.mem_filter.mp hu).1)
  have hbraces : OneLine (inBraces (" " ++ joinWith ", " c.hooks ++ " ")) :=
    oneLine_inBraces (by simp +decide [hhooks])
  have himported : OneLine (if c.hooks.isEmpty then ""
      else ", " ++ inBraces (" " ++ joinWith ", " c.hooks ++ " ")) := by
    split
    · decide
    · exact oneLine_append.mpr ⟨by decide, hbraces⟩
  rw [importLines, allOneLine_cons, allOneLine_singleton]
  exact ⟨oneLine_between (by decide) himported (by decide), by decide⟩

theorem oneLine_actionLines {a : KeyedEntry} (h : a.Spelled) :
    AllOneLine (actionLines a) := by
  have hvalue := h.2.oneLine_render []
  rw [actionLines, allOneLine_cons, allOneLine_singleton]
  constructor
  · exact oneLine_between (by decide) (oneLine_quote a.key) (by decide)
  · exact oneLine_between (by decide) hvalue (by decide)

theorem oneLine_reducerSignature (d : Dialect) {r : ReducerDecl}
    (h : Declaration.Spelled (.reducer r)) : OneLine (d.reducerSignature r) := by
  have hname := Token.oneLine_of_isName h.1
  have htype := TypeExpr.oneLine_renderOrAny h.2.1
  have hfunction : OneLine (Names.reducerFunction r.name) :=
    oneLine_append.mpr ⟨hname, by decide⟩
  cases d with
  | plain => exact oneLine_between (by decide) hfunction (by decide)
  | typed =>
    change OneLine ("function " ++ Names.reducerFunction r.name ++ "(state: " ++
      TypeExpr.renderOrAny r.type? ++ ", action: \x7b type: string; payload?: any \x7d): " ++
      TypeExpr.renderOrAny r.type? ++ " \x7b")
    simp only [hfunction, htype, oneLine_append, and_true]
    decide

theorem oneLine_reducerLines (d : Dialect) {r : ReducerDecl}
    (h : Declaration.Spelled (.reducer r)) : AllOneLine (reducerLines d r) := by
  have hsignature := oneLine_reducerSignature d h
  have hactions := allOneLine_flatMap fun a ha => oneLine_actionLines (h.2.2.2 a ha)
  have hend : AllOneLine [.unmapped "    default:", .unmapped "      return state;",
      .unmapped "  \x7d", .unmapped "\x7d", .blank] := by decide
  rw [reducerLines, allOneLine_append, allOneLine_append, allOneLine_cons, allOneLine_singleton]
  exact ⟨⟨⟨hsignature, by decide⟩, hactions⟩, hend⟩

theorem oneLine_propField {p : PropDecl} (h : Declaration.Spelled (.prop p)) :
    OneLine (Dialect.propField p) := by
  have hname := Token.oneLine_of_isName h.1
  have htype := TypeExpr.oneLine_renderOrAny h.2.1
  have hmark : OneLine (if p.default?.isSome then "?" else "") := by split <;> decide
  simp +decide only [Dialect.propField, oneLine_append, hname, hmark, htype, and_self]

theorem oneLine_interfaceLines (d : Dialect) {c : Component} (hname : OneLine c.name)
    (h : ∀ p ∈ c.props, Declaration.Spelled (.prop p)) :
    AllOneLine (c.interfaceLines d) := by
  have hhead : OneLine ("interface " ++ c.name ++ "Props \x7b") :=
    oneLine_between (by decide) hname (by decide)
  unfold interfaceLines
  split
  · exact allOneLine_nil
  · rw [allOneLine_append, allOneLine_append, allOneLine_singleton, allOneLine_cons,
      allOneLine_singleton]
    refine ⟨⟨hhead, ?_⟩, by decide, by decide⟩
    exact allOneLine_map fun p hp => oneLine_propField (h p hp)

theorem oneLine_propParam {p : PropDecl} (h : Declaration.Spelled (.prop p)) :
    OneLine (propParam p) := by
  have hname := Token.oneLine_of_isName h.1
  unfold propParam
  split
  next e he => simp +decide [hname, (h.2.2 e he).oneLine_render []]
  next => exact hname

theorem oneLine_signatureLine (d : Dialect) {c : Component} (hname : OneLine c.name)
    (h : ∀ p ∈ c.props, Declaration.Spelled (.prop p)) : OneLine (c.signatureLine d).text := by
  have hannotation : OneLine (d.propsAnnotation c.name) := by
    cases d with
    | plain => exact (by decide : OneLine "")
    | typed => simp +decide [Dialect.propsAnnotation, hname]
  have hfields : OneLine (joinWith ", " (c.props.map propParam)) := by
    refine oneLine_joinWith (by decide) fun s hs => ?_
    obtain ⟨p, hp, rfl⟩ := List.mem_map.mp hs
    exact oneLine_propParam (h p hp)
  have hparams : OneLine (c.signatureParams d) := by
    unfold signatureParams
    split
    · decide
    · refine oneLine_append.mpr ⟨oneLine_inBraces ?_, hannotation⟩
      simp +decide [hfields]
  simp +decide [signatureLine, hname, hparams]

end Component

theorem oneLine_bracketList {items : List String} (h : ∀ s ∈ items, OneLine s) :
    OneLine (bracketList items) :=
  oneLine_between (by decide) (oneLine_joinWith (by decide) h) (by decide)

namespace OutputLine

theorem oneLine_constant {names : List String} (hnames : ∀ s ∈ names, OneLine s) {value : String}
    (hvalue : OneLine value) (origin : Nat) : OneLine (constant names value origin).text := by
  have hpattern : OneLine (bindingPattern names) := by
    unfold bindingPattern
    split
    · exact List.forall_mem_singleton.mp hnames
    · exact oneLine_bracketList hnames
  simp +decide [constant, mapped, hpattern, hvalue]

theorem oneLine_hookConstant {names : List String} (hnames : ∀ s ∈ names, OneLine s)
    {hook typeArgs : String} (hhook : OneLine hook) (htype : OneLine typeArgs)
    {args : List String} (hargs : ∀ s ∈ args, OneLine s) (origin : Nat) :
    OneLine (hookConstant names hook typeArgs args origin).text := by
  have hjoined : OneLine (joinWith ", " args) := oneLine_joinWith (by decide) hargs
  exact oneLine_constant hnames (by simp +decide [hhook, htype, hjoined]) origin

end OutputLine

namespace Declaration

open Component OutputLine

/-- The name under which a declaration's value is known in the function. Transitions are known by
what is derived from their names, effects have no names, and a handle only uses that of a ref. -/
def ownName? : Declaration → Option String
  | prop x => some x.name
  | state x => some x.name
  | reducer x => some x.name
  | deferred x => some x.name
  | optimistic x => some x.name
  | memo x => some x.name
  | event x => some x.name
  | callback x => some x.name
  | ref x => some x.name
  | context x => some x.name
  | id x => some x.name
  | store x => some x.name
  | action x => some x.name
  | transition _ | effect _ | layoutEffect _ | handle _ => none

/-- The names that are derived from the name of a declaration. -/
def derivedNames : Declaration → List String
  | state x => [Names.setter x.name]
  | optimistic x => [Names.optimisticAdder x.name]
  | action x => [Names.action x.name, Names.pending x.name]
  | reducer x => [Names.dispatch x.name]
  | transition x => [Names.pending x.name, Names.transitionStarter x.name]
  | _ => []

/-- All names that a declaration binds in the function. -/
def boundNames (x : Declaration) : List String := x.ownName?.toList ++ x.derivedNames

/-- The line of a declaration's hook or constant; a prop has its field instead. -/
def headline (d : Dialect) (c : Component) : Declaration → String
  | prop x => Dialect.propField x
  | state x => (stateLine d x).text
  | reducer x => (reducerLine x).text
  | transition x => (transitionLine x).text
  | deferred x => (deferredLine d x).text
  | optimistic x => (optimisticLine d x).text
  | memo x => (memoLine d x).text
  | effect _ => "  useEffect(() => \x7b"
  | layoutEffect _ => "  useLayoutEffect(() => \x7b"
  | event x => (c.eventLine x).text
  | callback x => (c.callbackLine x).text
  | handle x => "  useImperativeHandle(" ++ x.name ++ ", () => (\x7b"
  | ref x => (refLine d x).text
  | context x => (contextLine d x).text
  | id x => (idLine x).text
  | store x => (storeLine d x).text
  | action x => (actionStateLine d x).text

/-- What follows the line of a declaration's hook. -/
def furtherLines (c : Component) : Declaration → List OutputLine
  | effect x | layoutEffect x =>
    [unmapped ("    " ++ c.renderStatement x.body ++ ";"),
      unmapped ("  \x7d, " ++ bracketList (effectDependencies x) ++ ");")]
  | handle x => x.methods.map c.methodLine ++ [unmapped "  \x7d));"]
  | _ => []

/-- The lines of a declaration in the function of its component. -/
def lines (d : Dialect) (c : Component) (x : Declaration) : List OutputLine :=
  mapped (x.headline d c) x.line :: x.furtherLines c

theorem oneLine_ownName {x : Declaration} (h : x.Spelled) : ∀ name ∈ x.ownName?, OneLine name := by
  intro name hname
  cases x with
  | transition _ | effect _ | layoutEffect _ | handle _ => cases hname
  | id x =>
    cases hname
    exact Token.oneLine_of_isName h
  | _ =>
    cases hname
    exact Token.oneLine_of_isName h.1

theorem oneLine_derivedNames {x : Declaration} (h : x.Spelled) :
    ∀ name ∈ x.derivedNames, OneLine name := by
  cases x with
  | state x => simp [derivedNames, Names.oneLine_setter (Token.oneLine_of_isName h.1)]
  | optimistic x =>
    have hname := Names.oneLine_capitalize (Token.oneLine_of_isName h.1)
    simp +decide [derivedNames, Names.optimisticAdder, hname]
  | action x =>
    have hname := Token.oneLine_of_isName h.1
    simp +decide [derivedNames, Names.action, Names.pending, hname, Names.oneLine_capitalize hname]
  | reducer x =>
    have hname := Names.oneLine_capitalize (Token.oneLine_of_isName h.1)
    simp +decide [derivedNames, Names.dispatch, hname]
  | transition x =>
    have hname := Names.oneLine_capitalize (Token.oneLine_of_isName h)
    simp +decide [derivedNames, Names.pending, Names.transitionStarter, hname]
  | _ => simp [derivedNames]

theorem oneLine_boundNames {x : Declaration} (h : x.Spelled) :
    ∀ name ∈ x.boundNames, OneLine name := by
  refine List.forall_mem_append.mpr ⟨fun name hname => ?_, oneLine_derivedNames h⟩
  exact oneLine_ownName h name (Option.mem_toList.mp hname)

theorem oneLine_headline (d : Dialect) (c : Component) {x : Declaration} (h : x.Spelled) :
    OneLine (x.headline d c) := by
  have hnames := oneLine_boundNames h
  cases x with
  | prop x => exact oneLine_propField h
  | state x | deferred x =>
    have htype := TypeExpr.oneLine_typeArgs d h.2.1
    have hvalue := h.2.2.oneLine_render []
    exact oneLine_hookConstant hnames (by decide) htype (by simp [hvalue]) x.line
  | reducer x =>
    have hfunction : OneLine (Names.reducerFunction x.name) :=
      oneLine_append.mpr ⟨Token.oneLine_of_isName h.1, by decide⟩
    have hvalue := h.2.2.1.oneLine_render []
    exact oneLine_hookConstant hnames (by decide) (by decide) (by simp [hfunction, hvalue]) x.line
  | transition x | id x =>
    exact oneLine_hookConstant hnames (by decide) (by decide) (by simp) x.line
  | optimistic x | action x =>
    have htype := TypeExpr.oneLine_typeArgs d h.2.1
    have hfirst := h.2.2.1.oneLine_render []
    have hsecond := h.2.2.2.oneLine_render []
    exact oneLine_hookConstant hnames (by decide) htype (by simp [hfirst, hsecond]) x.line
  | memo x =>
    have htype := TypeExpr.oneLine_typeArgs d h.2.1
    have hvalue : OneLine ("() => " ++ x.value.render []) :=
      oneLine_append.mpr ⟨by decide, h.2.2.oneLine_render []⟩
    have hdeps := oneLine_bracketList h.2.2.oneLine_dependencies
    exact oneLine_hookConstant hnames (by decide) htype (by simp [hvalue, hdeps]) x.line
  | effect x => exact (by decide : OneLine "  useEffect(() => \x7b")
  | layoutEffect x => exact (by decide : OneLine "  useLayoutEffect(() => \x7b")
  | event x => exact oneLine_constant hnames (c.oneLine_renderHandler [] h.2) x.line
  | callback x =>
    have hvalue := c.oneLine_renderHandler [] h.2
    have hdeps := oneLine_bracketList h.2.oneLine_dependencies
    exact oneLine_hookConstant hnames (by decide) (by decide) (by simp [hvalue, hdeps]) x.line
  | handle x => exact oneLine_between (by decide) (Token.oneLine_of_isName h.1) (by decide)
  | ref x =>
    have htype := TypeExpr.oneLine_typeArgs d h.2.1
    have hvalue : OneLine ((x.initial?.map (·.render [])).getD "null") := by
      cases hinitial : x.initial? with
      | none => exact (by decide : OneLine "null")
      | some e => exact (h.2.2 e hinitial).oneLine_render []
    exact oneLine_hookConstant hnames (by decide) htype (by simp [hvalue]) x.line
  | context x =>
    have htype := TypeExpr.oneLine_typeArgs d h.2.1
    have hsource := Token.oneLine_of_isName h.2.2
    exact oneLine_hookConstant hnames (by decide) htype (by simp [hsource]) x.line
  | store x =>
    have htype := TypeExpr.oneLine_typeArgs d h.2.1
    refine oneLine_hookConstant hnames (by decide) htype (List.forall_mem_map.mpr fun e he => ?_)
      x.line
    simp only [List.cons_append, List.nil_append, List.mem_cons, Option.mem_toList] at he
    rcases he with rfl | rfl | he
    · exact h.2.2.1.oneLine_render []
    · exact h.2.2.2.1.oneLine_render []
    · exact (h.2.2.2.2 e he).oneLine_render []

theorem oneLine_effectDependencies {x : EffectDecl} (h : Spelled (.effect x)) :
    ∀ s ∈ effectDependencies x, OneLine s := by
  unfold effectDependencies
  split
  next deps hdeps =>
    exact List.forall_mem_map.mpr fun e he => (h.1 deps hdeps e he).oneLine_render []
  next => exact h.2.oneLine_dependencies

theorem oneLine_effectBody (c : Component) {x : EffectDecl} (h : Spelled (.effect x)) :
    AllOneLine (furtherLines c (.effect x)) := by
  have hlist := oneLine_bracketList (oneLine_effectDependencies h)
  have hbody : OneLine ("    " ++ c.renderStatement x.body ++ ";") :=
    oneLine_between (by decide) (c.oneLine_renderStatement h.2) (by decide)
  have hdeps : OneLine ("  \x7d, " ++ bracketList (effectDependencies x) ++ ");") :=
    oneLine_between (by decide) hlist (by decide)
  exact allOneLine_cons.mpr ⟨hbody, allOneLine_singleton.mpr hdeps⟩

theorem oneLine_methodLine (c : Component) {m : KeyedEntry} (h : m.Spelled) :
    OneLine (c.methodLine m).text := by
  simp only [methodLine, unmapped, h.1, c.oneLine_renderHandler [] h.2, oneLine_append, and_true]
  decide

theorem oneLine_lines (d : Dialect) (c : Component) {x : Declaration} (h : x.Spelled) :
    AllOneLine (x.lines d c) := by
  refine allOneLine_cons.mpr ⟨oneLine_headline d c h, ?_⟩
  cases x with
  | effect x => exact oneLine_effectBody c h
  | layoutEffect x => exact oneLine_effectBody c h
  | handle x =>
    refine allOneLine_append.mpr ⟨allOneLine_map fun m hm => oneLine_methodLine c (h.2 m hm), ?_⟩
    exact allOneLine_singleton.mpr (by decide)
  | _ => exact allOneLine_nil

end Declaration

namespace Component

/-- The declarations that have lines in the function, in the order of their lines. -/
def bodyDeclarations (c : Component) : List Declaration :=
  c.states.map .state ++ c.ids.map .id ++ c.deferreds.map .deferred ++
    c.optimistics.map .optimistic ++ c.stores.map .store ++ c.actions.map .action ++
    c.reducers.map .reducer ++ c.transitions.map .transition ++ c.contexts.map .context ++
    c.callbacks.map .callback ++ c.refs.map .ref ++ c.handles.map .handle ++ c.memos.map .memo ++
    c.effects.map .effect ++ c.layoutEffects.map .layoutEffect ++ c.events.map .event

theorem declarationLines_eq (d : Dialect) (c : Component) :
    c.declarationLines d = c.bodyDeclarations.flatMap (·.lines d c) := by
  delta declarationLines bodyDeclarations
  simp only [List.flatMap_append, List.flatMap_map]
  simp only [List.map_eq_flatMap]
  rfl

/-- Only the props have no lines in the function. -/
theorem mem_declarations_iff {c : Component} {x : Declaration} :
    x ∈ c.declarations ↔ x ∈ c.props.map .prop ∨ x ∈ c.bodyDeclarations := by
  delta declarations bodyDeclarations
  simp only [List.mem_append]
  grind

theorem infix_flatMap_of_mem {α β : Type} {f : α → List β} {as : List α} {a : α} (h : a ∈ as) :
    f a <:+: as.flatMap f := by
  rw [List.flatMap_def]
  exact List.infix_of_mem_flatten (List.mem_map_of_mem h)

/-- The lines of a declaration stand together in the output. -/
theorem lines_infix_outputLines (d : Dialect) {c : Component} {x : Declaration}
    (hprop : ∀ p, x ≠ .prop p) (hx : c.Declares x) : x.lines d c <:+: c.outputLines d := by
  have hbody : x ∈ c.bodyDeclarations := by
    rcases mem_declarations_iff.mp (mem_declarations.mpr hx) with h | h
    · obtain ⟨p, _, rfl⟩ := List.mem_map.mp h
      exact absurd rfl (hprop p)
    · exact h
  have hlines : x.lines d c <:+: c.declarationLines d := by
    rw [declarationLines_eq]
    exact infix_flatMap_of_mem hbody
  have hfunction : c.declarationLines d <:+: c.functionLines d := by
    simp only [functionLines, List.append_assoc]
    exact ⟨[c.signatureLine d], _, List.append_assoc _ _ _⟩
  have houtput : c.functionLines d <:+: c.outputLines d := ⟨_, _, rfl⟩
  exact (hlines.trans hfunction).trans houtput

theorem newline_not_mem_linesOf {cs line : List Char} (h : line ∈ linesOf cs) : '\n' ∉ line := by
  fun_induction linesOf cs generalizing line with
  | case1 => cases h
  | case2 cs ih =>
    rcases List.mem_cons.mp h with rfl | h
    · simp
    · exact ih h
  | case3 cs ih =>
    rcases List.mem_cons.mp h with rfl | h
    · simp
    · exact ih h
  | case4 c cs hnewline hreturn hlines ih =>
    obtain rfl := List.mem_singleton.mp h
    simpa [eq_comm] using hnewline
  | case5 c cs hnewline hreturn first others hlines ih =>
    rcases List.mem_cons.mp h with rfl | h
    · have hfirst := @ih first (by simp [hlines])
      simpa [hfirst, eq_comm] using hnewline
    · exact ih (by simp [hlines, h])

theorem text_mem_of_mem_block {origin : Option Nat} {ss : List String} {l : OutputLine}
    (h : l ∈ OutputLine.block origin ss) : l.text ∈ ss := by
  cases ss with
  | nil => cases h
  | cons s ss =>
    rcases List.mem_cons.mp h with rfl | h
    · exact List.mem_cons_self
    · obtain ⟨s', hs', rfl⟩ := List.mem_map.mp h
      exact List.mem_cons_of_mem s hs'

theorem oneLine_markupLines (d : Dialect) (c : Component) : AllOneLine (c.markupLines d) := by
  intro l hl
  obtain ⟨cs, hcs, htext⟩ := List.mem_map.mp (text_mem_of_mem_block hl)
  rw [← htext, OneLine, String.toList_ofList]
  exact newline_not_mem_linesOf hcs

theorem oneLine_functionLines (d : Dialect) {c : Component} (hname : OneLine c.name)
    (h : c.Spelled) : AllOneLine (c.functionLines d) := by
  have hprops : ∀ p ∈ c.props, Declaration.Spelled (.prop p) := fun p hp =>
    h.declaration (mem_declarations.mpr hp)
  have hdeclarations : AllOneLine (c.declarationLines d) := by
    rw [declarationLines_eq]
    refine allOneLine_flatMap fun x hx => ?_
    exact Declaration.oneLine_lines d c (h.declaration (mem_declarations_iff.mpr (.inr hx)))
  have hgap : AllOneLine (if (c.declarationLines d).isEmpty then [] else [OutputLine.blank]) := by
    split
    · decide
    · decide
  have hreturn : AllOneLine [.unmapped "  return ("] := by decide
  have hend : AllOneLine [.unmapped "  );", .unmapped "\x7d", .blank] := by decide
  have hsignature : AllOneLine [c.signatureLine d] :=
    allOneLine_singleton.mpr (oneLine_signatureLine d hname hprops)
  simp only [functionLines, allOneLine_append]
  exact ⟨⟨⟨⟨⟨hsignature, hdeclarations⟩, hgap⟩, hreturn⟩, oneLine_markupLines d c⟩, hend⟩

/-- Nothing that is read off a source breaks a line of the output. -/
theorem oneLine_outputLines (d : Dialect) {c : Component} (hname : OneLine c.name)
    (h : c.Spelled) : AllOneLine (c.outputLines d) := by
  have hreducers : AllOneLine (c.reducers.flatMap (reducerLines d)) :=
    allOneLine_flatMap fun r hr =>
      oneLine_reducerLines d (h.declaration (mem_declarations.mpr hr))
  have hinterface : AllOneLine (c.interfaceLines d) :=
    oneLine_interfaceLines d hname fun p hp => h.declaration (mem_declarations.mpr hp)
  have hexport : OneLine ("export default " ++ c.name ++ ";") :=
    oneLine_between (by decide) hname (by decide)
  simp only [outputLines, allOneLine_append]
  exact ⟨⟨⟨⟨c.oneLine_importLines, hreducers⟩, hinterface⟩, oneLine_functionLines d hname h⟩,
    allOneLine_singleton.mpr hexport⟩

end Component

end Sigil

import Sigil.Proofs.OutputLines
import Sigil.Proofs.Renumbering

namespace Sigil

variable {f : Nat → Nat}

namespace Component

theorem isState_renumber (c : Component) (name : String) :
    (c.renumber f).isState name = c.isState name := by
  rw [isState, isState, renumber, List.any_map]
  rfl

theorem isCollection_state?_renumber (c : Component) (name : String) :
    ((c.renumber f).state? name).any (·.isCollection) = (c.state? name).any (·.isCollection) := by
  rw [state?, state?, renumber, ← List.map_reverse, List.find?_map, Option.any_map]
  rfl

/-- A component writes an update in the same way wherever its declarations stand. -/
theorem updateCall?_renumber (c : Component) (items : List String) (e : Expr) :
    (c.renumber f).updateCall? items e = c.updateCall? items e := by
  unfold updateCall?
  split
  · rw [isState_renumber]
  · rw [isCollection_state?_renumber]
  · rfl

theorem renderUpdate_renumber (c : Component) (items : List String) (e : Expr) :
    (c.renumber f).renderUpdate items e = c.renderUpdate items e := by
  rw [renderUpdate, renderUpdate, updateCall?_renumber]

theorem renderHandler_renumber (c : Component) (items : List String) (e : Expr) :
    (c.renumber f).renderHandler items e = c.renderHandler items e := by
  unfold renderHandler
  split
  · rw [renderUpdate_renumber]
  · rw [renderUpdate_renumber]

theorem renderStatement_renumber (c : Component) (e : Expr) :
    (c.renumber f).renderStatement e = c.renderStatement e := by
  fun_induction renderStatement c e with
  | case1 body ih => rw [renderStatement, ih]
  | case2 e he =>
    rw [renderStatement, renderUpdate_renumber]
    exact he

end Component

theorem Attribute.render_renumber (d : Dialect) (c : Component) (items : List String) (tag : String)
    (a : Attribute) : a.render d (c.renumber f) items tag = a.render d c items tag := by
  unfold render
  simp only [Component.renderHandler_renumber]

theorem openTag_renumber (d : Dialect) (c : Component) (items : List String) (keyed : Bool)
    (tag : String) (attributes : List Attribute) :
    openTag d (c.renumber f) items keyed tag attributes =
      openTag d c items keyed tag attributes := by
  unfold openTag
  simp only [Attribute.render_renumber]

namespace Markup

theorem isNested_renumber (m : Markup) : (m.renumber f).isNested = m.isNested := by
  cases m <;> rfl

theorem isText_renumber (m : Markup) : (m.renumber f).isText = m.isText := by
  cases m <;> rfl

theorem useBlock_renumberAll (ms : List Markup) : useBlock (renumberAll f ms) = useBlock ms := by
  have hnested : isNested ∘ renumber f = isNested := funext isNested_renumber
  have htext : isText ∘ renumber f = isText := funext isText_renumber
  rw [useBlock, useBlock, renumberAll_eq_map, List.any_map, List.any_map, hnested, htext]

theorem onOneLine_renumberElement (e : Element Markup) :
    onOneLine (renumberElement f e) = onOneLine e := by
  obtain ⟨tag, attributes, children, selfClosing, line⟩ := e
  rw [onOneLine, onOneLine, renumberElement, useBlock_renumberAll]

mutual

theorem inline_renumber (d : Dialect) (c : Component) (items : List String) (m : Markup) :
    inline d (c.renumber f) items (m.renumber f) = inline d c items m := by
  cases m with
  | element e =>
    rw [renumber, inline, inline, inlineElement_renumber]
  | fragment children line =>
    rw [renumber, inline, inline, inlineAll_renumber]
  | interpolation e => rw [renumber, inline, inline]
  | text s => rw [renumber, inline, inline]
  | each binding itemType source template =>
    rw [renumber, inline, inline, inlineElement_renumber]

theorem inlineElement_renumber (d : Dialect) (c : Component) (items : List String) (keyed : Bool)
    (e : Element Markup) :
    inlineElement d (c.renumber f) items keyed (renumberElement f e) =
      inlineElement d c items keyed e := by
  obtain ⟨tag, attributes, children, selfClosing, line⟩ := e
  rw [renumberElement, inlineElement, inlineElement, openTag_renumber, inlineAll_renumber]

theorem inlineAll_renumber (d : Dialect) (c : Component) (items : List String) (ms : List Markup) :
    inlineAll d (c.renumber f) items (renumberAll f ms) = inlineAll d c items ms := by
  cases ms with
  | nil => rw [renumberAll, inlineAll, inlineAll]
  | cons m ms => rw [renumberAll, inlineAll, inlineAll, inline_renumber, inlineAll_renumber]

end

mutual

theorem block_renumber (d : Dialect) (c : Component) (depth : Nat) (items : List String)
    (m : Markup) : block d (c.renumber f) depth items (m.renumber f) = block d c depth items m := by
  have hinline := inline_renumber (f := f) d c items m
  cases m with
  | element e =>
    rw [renumber, block, block, blockElement_renumber]
  | fragment children line =>
    rw [renumber] at hinline
    rw [renumber, block, block, useBlock_renumberAll, blockAll_renumber, hinline]
  | interpolation e =>
    rw [renumber] at hinline
    rw [renumber, block, block, hinline]
    all_goals nofun
  | text s =>
    rw [renumber] at hinline
    rw [renumber, block, block, hinline]
    all_goals nofun
  | each binding itemType source template =>
    rw [renumber, block, block, onOneLine_renumberElement, inlineElement_renumber,
      blockElement_renumber]

theorem blockElement_renumber (d : Dialect) (c : Component) (depth : Nat) (items : List String)
    (keyed : Bool) (e : Element Markup) :
    blockElement d (c.renumber f) depth items keyed (renumberElement f e) =
      blockElement d c depth items keyed e := by
  have hinline := inlineElement_renumber (f := f) d c items keyed e
  have honOneLine := onOneLine_renumberElement (f := f) e
  obtain ⟨tag, attributes, children, selfClosing, line⟩ := e
  rw [renumberElement] at hinline honOneLine
  rw [renumberElement, blockElement, blockElement, hinline, honOneLine, openTag_renumber,
    blockAll_renumber]

theorem blockAll_renumber (d : Dialect) (c : Component) (depth : Nat) (items : List String)
    (ms : List Markup) :
    blockAll d (c.renumber f) depth items (renumberAll f ms) = blockAll d c depth items ms := by
  cases ms with
  | nil => rw [renumberAll, blockAll, blockAll]
  | cons m ms => rw [renumberAll, blockAll, blockAll, block_renumber, blockAll_renumber]

end

end Markup

namespace Declaration

open Component OutputLine

theorem headline_renumber (d : Dialect) (c : Component) (x : Declaration) :
    (x.renumber f).headline d (c.renumber f) = x.headline d c := by
  cases x with
  | event x =>
    change ((c.renumber f).eventLine _).text = (c.eventLine x).text
    simp only [eventLine, renderHandler_renumber]
    rfl
  | callback x =>
    change ((c.renumber f).callbackLine _).text = (c.callbackLine x).text
    simp only [callbackLine, renderHandler_renumber]
    rfl
  | _ => rfl

theorem furtherLines_renumber (c : Component) (x : Declaration) :
    (x.renumber f).furtherLines (c.renumber f) = x.furtherLines c := by
  cases x with
  | effect x =>
    simp only [renumber, furtherLines, renderStatement_renumber]
    rfl
  | layoutEffect x =>
    simp only [renumber, furtherLines, renderStatement_renumber]
    rfl
  | handle x =>
    have hmethod : (c.renumber f).methodLine = c.methodLine := by
      funext m
      simp only [methodLine, renderHandler_renumber]
    simp only [renumber, furtherLines, hmethod]
  | _ => rfl

/-- The lines of a declaration say the same wherever it stands. -/
theorem texts_renumber (d : Dialect) (c : Component) (x : Declaration) :
    ((x.renumber f).lines d (c.renumber f)).map (·.text) = (x.lines d c).map (·.text) := by
  rw [lines, lines, List.map_cons, List.map_cons, furtherLines_renumber]
  simp only [mapped, headline_renumber]

end Declaration

namespace Component

open OutputLine

theorem bodyDeclarations_renumber (c : Component) :
    (c.renumber f).bodyDeclarations = c.bodyDeclarations.map (Declaration.renumber f) := by
  delta bodyDeclarations
  simp only [renumber, List.map_append, List.map_map]
  rfl

theorem declarationTexts_renumber (d : Dialect) (c : Component) :
    ((c.renumber f).declarationLines d).map (·.text) = (c.declarationLines d).map (·.text) := by
  rw [declarationLines_eq, declarationLines_eq, bodyDeclarations_renumber, List.map_flatMap,
    List.map_flatMap, List.flatMap_map]
  simp only [Declaration.texts_renumber]

theorem hooks_renumber (c : Component) : (c.renumber f).hooks = c.hooks := by
  have huses : (c.renumber f).hookUses = c.hookUses := by
    simp only [hookUses, renumber, List.length_map]
  rw [hooks, hooks, huses]

theorem reducerTexts_renumber (d : Dialect) (r : ReducerDecl) (line : Nat) :
    (reducerLines d { r with line }).map (·.text) = (reducerLines d r).map (·.text) := rfl

theorem props_renumber_eq_nil (c : Component) : (c.renumber f).props = [] ↔ c.props = [] :=
  List.map_eq_nil_iff

theorem interfaceTexts_renumber (d : Dialect) (c : Component) :
    ((c.renumber f).interfaceLines d).map (·.text) = (c.interfaceLines d).map (·.text) := by
  unfold interfaceLines
  simp only [props_renumber_eq_nil]
  split
  · rfl
  · simp only [renumber, List.map_append, List.map_map]
    rfl

theorem signatureParams_renumber (d : Dialect) (c : Component) :
    (c.renumber f).signatureParams d = c.signatureParams d := by
  have hparams : (c.renumber f).props.map propParam = c.props.map propParam := by
    rw [renumber, List.map_map]
    rfl
  simp only [signatureParams, props_renumber_eq_nil, hparams]
  rfl

theorem texts_block (origin : Option Nat) (ss : List String) :
    (OutputLine.block origin ss).map (·.text) = ss := by
  cases ss with
  | nil => rfl
  | cons s ss =>
    rw [OutputLine.block, List.map_cons, List.map_map]
    exact congrArg (s :: ·) (List.map_id ss)

theorem functionTexts_renumber (d : Dialect) (c : Component) :
    ((c.renumber f).functionLines d).map (·.text) = (c.functionLines d).map (·.text) := by
  have hlines := declarationTexts_renumber (f := f) d c
  have hempty : ((c.renumber f).declarationLines d).isEmpty = (c.declarationLines d).isEmpty := by
    have hmap := congrArg List.isEmpty hlines
    rwa [List.isEmpty_map, List.isEmpty_map] at hmap
  have hmarkup : ((c.renumber f).markupLines d).map (·.text) = (c.markupLines d).map (·.text) := by
    rw [markupLines, markupLines, texts_block, texts_block]
    exact congrArg (fun ls => splitLines (joinWith "\n" ls))
      (Markup.block_renumber d c 2 [] c.markup)
  have hsignature : ((c.renumber f).signatureLine d).text = (c.signatureLine d).text := by
    simp only [signatureLine, signatureParams_renumber]
    rfl
  unfold functionLines
  simp only [List.map_append, List.map_cons, List.map_nil, hlines, hempty, hmarkup, hsignature]

/-- No line of the source is written into the code. -/
theorem code_renumber (d : Dialect) (c : Component) : (c.renumber f).code d = c.code d := by
  have hreducers : ((c.renumber f).reducers.flatMap (reducerLines d)).map (·.text) =
      (c.reducers.flatMap (reducerLines d)).map (·.text) := by
    rw [renumber, List.flatMap_map, List.map_flatMap, List.map_flatMap]
    simp only [reducerTexts_renumber]
  have hlines : ((c.renumber f).outputLines d).map (·.text) = (c.outputLines d).map (·.text) := by
    simp only [outputLines, importLines, List.map_append, hreducers, hooks_renumber,
      interfaceTexts_renumber, functionTexts_renumber]
    rfl
  have hcode (c : Component) :
      c.code d = joinWith "" (((c.outputLines d).map (·.text)).map (· ++ "\n")) := by
    rw [code, List.map_map]
    rfl
  rw [hcode, hcode, hlines]

end Component

end Sigil

import Sigil.Module
import Sigil.Proofs.Dependencies

namespace Sigil

theorem oneLine_of_isVariable {s : String} (h : isVariable s) : OneLine s :=
  Token.oneLine_of_isName (isVariable_isName h)

theorem joinWith_eq_intercalate (separator : String) (parts : List String) :
    joinWith separator parts = separator.intercalate parts := by
  induction parts with
  | nil => simp [joinWith]
  | cons first others ih =>
    cases others with
    | nil => simp [joinWith]
    | cons second others =>
      rw [String.intercalate_cons_cons, ← ih]
      rfl

theorem oneLine_joinWith {separator : String} (hs : OneLine separator) {parts : List String}
    (hparts : ∀ p ∈ parts, OneLine p) : OneLine (joinWith separator parts) := by
  rw [joinWith_eq_intercalate]
  exact oneLine_intercalate hs hparts

theorem oneLine_lookup {table : List (String × String)} (ht : ∀ entry ∈ table, OneLine entry.2)
    (name : String) {other : String} (hother : OneLine other) :
    OneLine ((table.lookup name).getD other) := by
  cases h : table.lookup name with
  | none => exact hother
  | some other =>
    obtain ⟨_, _, hsplit, _⟩ := List.lookup_eq_some_iff.mp h
    exact ht (name, other) (by simp [hsplit])

/-- A literal has no newline of its own: one in its text is written as an escape. -/
theorem oneLine_quote (s : String) : OneLine (quote s) := by
  have hchar (c : Char) : '\n' ∉ quotedChar c := by
    unfold quotedChar
    split
    · decide
    · split
      · decide
      · split
        · decide
        · simpa [eq_comm]
  have hinner : OneLine (String.ofList (s.toList.flatMap quotedChar)) := by
    simp [OneLine, hchar]
  simp +decide [quote, hinner]

theorem oneLine_renderName {items : List String} {name : String} (h : OneLine name) :
    OneLine (renderName items name) := by
  unfold renderName
  split
  · decide
  · exact h

theorem oneLine_renderParams {params : List String} (h : ∀ p ∈ params, isName p) :
    OneLine (renderParams params) := by
  have hjoined : OneLine (joinWith ", " params) :=
    oneLine_joinWith (by decide) fun p hp => Token.oneLine_of_isName (h p hp)
  simp +decide [renderParams, hjoined]

theorem Literal.Spelled.oneLine_render {l : Literal} (h : l.Spelled) : OneLine l.render := by
  cases l with
  | string s => exact oneLine_quote s
  | number s =>
    rcases h with h | ⟨ds, hs, h⟩
    · exact Token.isNumeral_no_newline h
    · have hds := Token.isNumeral_no_newline h
      simp [Literal.render, OneLine, hs, hds]
  | boolean b => cases b <;> decide
  | null => decide
  | undefined => decide

namespace Expr

theorem renderAll_eq_map (items : List String) (es : List Expr) :
    renderAll items es = es.map (·.render items) := by
  induction es with
  | nil => rfl
  | cons e es ih => rw [renderAll, ih, List.map_cons]

theorem oneLine_renderList {items : List String} {es : List Expr}
    (h : ∀ e ∈ es, OneLine (e.render items)) : OneLine (joinWith ", " (renderAll items es)) := by
  rw [renderAll_eq_map]
  refine oneLine_joinWith (by decide) fun p hp => ?_
  obtain ⟨e, he, rfl⟩ := List.mem_map.mp hp
  exact h e he

end Expr

namespace Phrase

/-- What can be read as an expression is written on one line. -/
theorem oneLine_render {role : Role} {e : Expr} (h : Phrase role e) (items : List String) :
    OneLine (e.render items) := by
  induction h generalizing items with
  | source hname => exact oneLine_renderName (Token.oneLine_of_isName hname)
  | ident hname => exact oneLine_renderName (oneLine_of_isVariable hname)
  | call hcallee _ ih =>
    have hname : OneLine (renderName items _) := oneLine_renderName (oneLine_of_isVariable hcallee)
    have hargs := Expr.oneLine_renderList fun e he => ih e he items
    simp +decide [Expr.render, hname, hargs]
  | array _ ih =>
    have hargs := Expr.oneLine_renderList fun e he => ih e he items
    simp +decide [Expr.render, hargs]
  | member _ _ hproperty ih =>
    simp +decide [Expr.render, ih items, Token.oneLine_of_isName hproperty]
  | method _ _ hname _ ih ihargs =>
    have hargs := Expr.oneLine_renderList fun e he => ihargs e he items
    simp +decide [Expr.render, ih items, Token.oneLine_of_isName hname, hargs]
  | chain _ ih => exact ih items
  | literal hl => exact hl.oneLine_render
  | operand _ ih => exact ih items
  | @binary op _ _ _ _ ihl ihr =>
    have hop : OneLine op.text := by cases op <;> decide
    simp +decide [Expr.render, ihl items, ihr items, hop]
  | @step target op htarget _ =>
    have hname : OneLine (renderName items _) := oneLine_renderName (oneLine_of_isVariable htarget)
    have hop : OneLine op.text := by cases op <;> decide
    simp +decide [Expr.render, hname, hop]
  | assign htarget _ ih =>
    have hname : OneLine (renderName items _) := oneLine_renderName (oneLine_of_isVariable htarget)
    simp +decide [Expr.render, hname, ih items]
  | arrow hparams _ ih =>
    simp +decide [Expr.render, oneLine_renderParams hparams, ih]
  | whole _ ih => exact ih items
  | spread _ ih => simp +decide [Expr.render, ih items]

/-- The names that an expression reads are spelled like identifiers. -/
theorem isName_of_references {role : Role} {e : Expr} (h : Phrase role e) {n : String}
    (hn : e.references n = true) : isName n := by
  have hany {es : List Expr} (ih : ∀ e ∈ es, e.references n = true → isName n)
      (hes : Expr.anyReferences n es = true) : isName n := by
    induction es with
    | nil => cases hes
    | cons e es ihes =>
      obtain ⟨he, hothers⟩ := List.forall_mem_cons.mp ih
      rw [Expr.anyReferences, Bool.or_eq_true] at hes
      exact hes.elim he (ihes hothers)
  induction h with
  | source hname =>
    obtain rfl := eq_of_beq hn
    exact hname
  | ident hname =>
    obtain rfl := eq_of_beq hn
    exact isVariable_isName hname
  | call hcallee _ ih =>
    rw [Expr.references, Bool.or_eq_true, beq_iff_eq] at hn
    rcases hn with rfl | hn
    · exact isVariable_isName hcallee
    · exact hany ih hn
  | array _ ih => exact hany ih hn
  | member _ _ _ ih => exact ih hn
  | method _ _ _ _ ih ihargs =>
    rw [Expr.references, Bool.or_eq_true] at hn
    exact hn.elim ih (hany ihargs)
  | chain _ ih => exact ih hn
  | literal _ => cases hn
  | operand _ ih => exact ih hn
  | binary _ _ ihl ihr =>
    rw [Expr.references, Bool.or_eq_true] at hn
    exact hn.elim ihl ihr
  | step htarget _ =>
    obtain rfl := eq_of_beq hn
    exact isVariable_isName htarget
  | assign htarget _ ih =>
    rw [Expr.references, Bool.or_eq_true, beq_iff_eq] at hn
    rcases hn with rfl | hn
    · exact isVariable_isName htarget
    · exact ih hn
  | arrow _ _ ih =>
    rw [Expr.references, Bool.and_eq_true] at hn
    exact ih hn.2
  | whole _ ih => exact ih hn
  | spread _ ih => exact ih hn

theorem oneLine_dependencies {role : Role} {e : Expr} (h : Phrase role e) :
    ∀ n ∈ e.dependencies, OneLine n := fun _ hn =>
  Token.oneLine_of_isName (h.isName_of_references (Expr.mem_dependencies.mp hn))

end Phrase

namespace Names

theorem oneLine_setter {name : String} (h : OneLine name) : OneLine (setter name) := by
  simp +decide [setter, oneLine_capitalize h]

theorem oneLine_tag {name : String} (h : OneLine name) : OneLine (tag name) :=
  oneLine_lookup (by decide) name h

theorem oneLine_attributeName {name : String} (h : OneLine name) : OneLine (attributeName name) :=
  oneLine_lookup (by decide) name h

theorem oneLine_eventAttribute {event : String} (h : OneLine event) :
    OneLine (eventAttribute event) := by
  have hwords : OneLine (pascalCase event) := by
    have hmem := newline_not_mem_joinWords h true
    simpa [OneLine, pascalCase] using hmem
  exact oneLine_lookup (by decide) event (by simp +decide [hwords])

end Names

namespace TypeExpr

theorem oneLine_typeName {name : String} (h : OneLine name) : OneLine (typeName name) :=
  oneLine_lookup (by decide) name h

theorem renderAll_eq_map (ts : List TypeExpr) : renderAll ts = ts.map render := by
  induction ts with
  | nil => rfl
  | cons t ts ih => rw [renderAll, ih, List.map_cons]

theorem Spelled.oneLine_render {t : TypeExpr} (h : t.Spelled) : OneLine t.render := by
  have hall {separator : String} (hs : OneLine separator) {ts : List TypeExpr}
      (ih : ∀ t ∈ ts, OneLine t.render) : OneLine (joinWith separator (renderAll ts)) := by
    rw [renderAll_eq_map]
    exact oneLine_joinWith hs (by simpa using ih)
  induction h with
  | simple hname => exact oneLine_typeName hname
  | array helement => simp +decide [render, oneLine_typeName helement]
  | union _ ih => exact hall (by decide) ih
  | generic hname _ ih =>
    have hparams := hall (by decide : OneLine ", ") ih
    simp +decide [render, oneLine_typeName hname, hparams]

theorem oneLine_renderOrAny {type? : Option TypeExpr} (h : ∀ t ∈ type?, t.Spelled) :
    OneLine (renderOrAny type?) := by
  cases type? with
  | none => exact (by decide : OneLine "any")
  | some t => exact (h t rfl).oneLine_render

theorem oneLine_typeArgs (d : Dialect) {type? : Option TypeExpr} (h : ∀ t ∈ type?, t.Spelled) :
    OneLine (d.typeArgs type?) := by
  unfold Dialect.typeArgs
  split
  next t => simp +decide [(h t rfl).oneLine_render]
  next => decide

theorem oneLine_eachParams (d : Dialect) {type? : Option TypeExpr} (h : ∀ t ∈ type?, t.Spelled) :
    OneLine (d.eachParams type?) := by
  unfold Dialect.eachParams
  split
  next t => simp +decide [(h t rfl).oneLine_render]
  next => decide

end TypeExpr

namespace Component

theorem oneLine_updateCall (c : Component) (items : List String) {e : Expr} {call : String}
    (he : Phrase .whole e) (h : c.updateCall? items e = some call) : OneLine call := by
  unfold updateCall? at h
  split at h
  next target op value? =>
    obtain ⟨htarget, hvalue⟩ := he.update_cases
    have hname : OneLine target := oneLine_of_isVariable htarget
    have hcurrent : OneLine (renderName items target) := oneLine_renderName hname
    split at h
    next =>
      cases h
      rcases hvalue with ⟨hop, rfl⟩ | ⟨value, rfl, rfl, hvalue⟩
      · cases op with
        | increment => simp +decide [Names.oneLine_setter hname, hcurrent]
        | decrement => simp +decide [Names.oneLine_setter hname, hcurrent]
        | addAssign => exact absurd rfl hop
      · simp +decide [Names.oneLine_setter hname, hcurrent, hvalue.oneLine_render items]
    next => cases h
  next target args =>
    obtain ⟨hobject, hargs⟩ := he.method_cases
    have hcurrent : OneLine (renderName items target) := hobject.oneLine_render items
    have hname : OneLine target := hobject.oneLine_render []
    have helements : OneLine (joinWith ", "
        (("..." ++ renderName items target) :: Expr.renderAll items args)) := by
      refine oneLine_joinWith (by decide) (List.forall_mem_cons.mpr ⟨?_, ?_⟩)
      · simpa +decide using hcurrent
      · rw [Expr.renderAll_eq_map]
        simpa using fun e he => (hargs e he).oneLine_render items
    split at h
    next =>
      cases h
      simp +decide [Names.oneLine_setter hname, helements]
    next => cases h
  next => cases h

theorem oneLine_renderUpdate (c : Component) (items : List String) {e : Expr}
    (h : Phrase .whole e) : OneLine (c.renderUpdate items e) := by
  unfold renderUpdate
  cases hcall : c.updateCall? items e with
  | none => exact h.oneLine_render items
  | some call => exact c.oneLine_updateCall items h hcall

theorem oneLine_renderHandler (c : Component) (items : List String) {e : Expr}
    (h : Phrase .whole e) : OneLine (c.renderHandler items e) := by
  unfold renderHandler
  split
  next params body =>
    obtain ⟨hparams, hbody⟩ := h.arrow_cases
    simp +decide [oneLine_renderParams hparams, c.oneLine_renderUpdate (shadow items params) hbody]
  next => simp +decide [c.oneLine_renderUpdate items h]

theorem oneLine_renderStatement (c : Component) {e : Expr} (h : Phrase .whole e) :
    OneLine (c.renderStatement e) := by
  rw [renderStatement_eq]
  exact (lowered_phrase h.statementBody).oneLine_render []

end Component

theorem oneLine_inBraces {s : String} (h : OneLine s) : OneLine (inBraces s) := by
  simp +decide [inBraces, h]

theorem oneLine_changeParam (d : Dialect) (tag : String) : OneLine (d.changeParam tag) := by
  have hinterface : OneLine (elementInterface tag) := by
    unfold elementInterface
    split
    · decide
    · split <;> decide
  cases d with
  | plain => exact (by decide : OneLine "e")
  | typed =>
    change OneLine ("e: React.ChangeEvent<" ++ elementInterface tag ++ ">")
    rw [oneLine_append, oneLine_append]
    exact ⟨⟨by decide, hinterface⟩, by decide⟩

theorem Attribute.Spelled.oneLine_render {a : Attribute} (h : a.Spelled) (d : Dialect)
    (c : Component) (items : List String) (tag : String) : OneLine (a.render d c items tag) := by
  obtain ⟨hname, hvalue⟩ := h
  have hevent := Names.oneLine_eventAttribute hname
  have hplain := Names.oneLine_attributeName hname
  unfold Attribute.render
  split
  next handler hv =>
    rw [hv] at hvalue
    have hhandler : OneLine (renderName items handler) :=
      oneLine_renderName (Token.oneLine_of_isName hvalue)
    simp +decide [hevent, oneLine_inBraces hhandler]
  next e hv =>
    rw [hv] at hvalue
    simp +decide [hevent, oneLine_inBraces (c.oneLine_renderHandler items hvalue)]
  next e hv =>
    replace hvalue : Phrase .whole e := by rwa [hv] at hvalue
    have he := oneLine_inBraces (hvalue.oneLine_render items)
    split
    next =>
      split
      next name =>
        have hread : OneLine (renderName items name) := hvalue.oneLine_render items
        have hname : OneLine name := hvalue.oneLine_render []
        simp +decide [inBraces, hread, Names.oneLine_setter hname, oneLine_changeParam d tag]
      next => simp +decide [he]
    next => simp +decide [hplain, he]
  next s hv =>
    rw [hv] at hvalue
    have hs : OneLine s := hvalue
    split
    · simp +decide [hplain, oneLine_inBraces (oneLine_quote s)]
    · simp +decide [hplain, hs]
  next => exact hplain

theorem oneLine_indent (depth : Nat) : OneLine (indent depth) := by
  simp [OneLine, indent, List.mem_replicate]

theorem oneLine_escapeText {s : String} (h : OneLine s) : OneLine (escapeText s) := by
  have hchar (c : Char) (hc : c ≠ '\n') : '\n' ∉ escapedChar c := by
    unfold escapedChar
    split
    · simp [Ne.symm hc]
    · simpa [eq_comm] using hc
  simp only [OneLine, escapeText, String.toList_ofList, List.mem_flatMap, not_exists, not_and]
  intro c hc
  refine hchar c ?_
  rintro rfl
  exact h hc

theorem oneLine_openTag (d : Dialect) (c : Component) (items : List String) (keyed : Bool)
    {tag : String} (htag : OneLine tag) {attributes : List Attribute}
    (h : ∀ a ∈ attributes, a.Spelled) : OneLine (openTag d c items keyed tag attributes) := by
  have hkey : OneLine (if keyed then " key=" ++ inBraces Names.index else "") := by
    cases keyed <;> decide
  have hattributes : OneLine (joinWith ""
      (attributes.map fun a => " " ++ a.render d c items tag)) := by
    refine oneLine_joinWith (by decide) fun p hp => ?_
    obtain ⟨a, ha, rfl⟩ := List.mem_map.mp hp
    simp +decide [(h a ha).oneLine_render d c items tag]
  simp only [openTag, oneLine_append]
  exact ⟨⟨⟨by decide, htag⟩, hkey⟩, hattributes⟩

theorem oneLine_loopHead (d : Dialect) (items : List String) {itemType : Option TypeExpr}
    (htype : ∀ t ∈ itemType, t.Spelled) {source : Expr} (hsource : Phrase .source source) :
    OneLine (loopHead d items itemType source) := by
  simp +decide [loopHead, hsource.oneLine_render items, TypeExpr.oneLine_eachParams d htype]

namespace Markup

mutual

theorem oneLine_inline (d : Dialect) (c : Component) (items : List String) (m : Markup)
    (h : m.Spelled) : OneLine (inline d c items m) := by
  cases m with
  | element e =>
    rw [inline]
    exact oneLine_inlineElement d c items false e h
  | fragment children line =>
    cases h with
    | fragment hchildren => simp +decide [inline, oneLine_inlineAll d c items children hchildren]
  | interpolation e =>
    cases h with
    | interpolation he => exact oneLine_inBraces (he.oneLine_render items)
  | text s =>
    cases h with
    | text hs => exact oneLine_escapeText hs
  | each binding itemType source template =>
    cases h with
    | each _ htype hsource htemplate =>
      have helement := oneLine_inlineElement d c (items ++ [binding]) true template htemplate
      simp +decide [inline, oneLine_loopHead d items htype hsource, helement]

theorem oneLine_inlineElement (d : Dialect) (c : Component) (items : List String) (keyed : Bool)
    (e : Element Markup) (h : Markup.Spelled (.element e)) :
    OneLine (inlineElement d c items keyed e) := by
  cases e with
  | mk tag attributes children selfClosing line =>
    cases h with
    | element htag hattributes hchildren =>
      have htag := Names.oneLine_tag htag
      have hopen := oneLine_openTag d c items keyed htag hattributes
      have hinner := oneLine_inlineAll d c items children hchildren
      rw [inlineElement]
      split
      · simp +decide [hopen]
      · simp +decide [hopen, hinner, htag]

theorem oneLine_inlineAll (d : Dialect) (c : Component) (items : List String) (ms : List Markup)
    (h : ∀ m ∈ ms, m.Spelled) : OneLine (inlineAll d c items ms) := by
  cases ms with
  | nil => exact (by decide : OneLine "")
  | cons m ms =>
    obtain ⟨hm, hms⟩ := List.forall_mem_cons.mp h
    rw [inlineAll, oneLine_append]
    exact ⟨oneLine_inline d c items m hm, oneLine_inlineAll d c items ms hms⟩

end

end Markup

end Sigil

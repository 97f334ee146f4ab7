import Sigil.Markup.Layout
import Sigil.Proofs.Trees

namespace Sigil

/-- Two lists of loop variables share what they have of the names that are read. -/
def SameItems (reads : String → Bool) (items items' : List String) : Prop :=
  ∀ n, reads n = true → (n ∈ items ↔ n ∈ items')

theorem SameItems.mono {reads reads' : String → Bool} {items items' : List String}
    (h : SameItems reads items items') (hsub : ∀ n, reads' n = true → reads n = true) :
    SameItems reads' items items' :=
  fun n hn => h n (hsub n hn)

theorem SameItems.renderName {reads : String → Bool} {items items' : List String} {name : String}
    (h : SameItems reads items items') (hname : reads name = true) :
    renderName items name = renderName items' name := by
  unfold Sigil.renderName
  by_cases hm : name ∈ items
  · have hm' : name ∈ items' := (h name hname).mp hm
    simp [hm, hm']
  · have hm' : name ∉ items' := fun hm' => hm ((h name hname).mpr hm')
    simp [hm, hm']

/-- The parameters of an arrow hide the same names from both lists. -/
theorem SameItems.shadow {reads : String → Bool} {items items' params : List String}
    (h : SameItems (fun n => !params.contains n && reads n) items items') :
    SameItems reads (shadow items params) (shadow items' params) := by
  intro n hn
  simp only [Sigil.shadow, List.mem_filter]
  by_cases hp : n ∈ params
  · simp [hp]
  · have hn' : n ∈ items ↔ n ∈ items' := h n (by simp [hp, hn])
    rw [hn']

namespace Expr

mutual

/-- The text of an expression depends on the loop variables that it reads. -/
theorem render_congr {items items' : List String} (e : Expr)
    (h : SameItems (e.references ·) items items') : e.render items = e.render items' := by
  cases e with
  | literal l => rfl
  | ident name => exact h.renderName (by simp [references])
  | binary op left right =>
    have hleft := left.render_congr (h.mono fun n hn => by simp [references, hn])
    have hright := right.render_congr (h.mono fun n hn => by simp [references, hn])
    rw [render, render, hleft, hright]
  | update target op value? =>
    cases value? with
    | none =>
      have htarget : renderName items target = renderName items' target :=
        h.renderName (by simp [references])
      rw [render, render, htarget]
    | some value =>
      have htarget : renderName items target = renderName items' target :=
        h.renderName (by simp [references])
      have hvalue := value.render_congr (h.mono fun n hn => by simp [references, hn])
      rw [render, render, htarget, hvalue]
  | member object property =>
    rw [render, render, object.render_congr (h.mono fun n hn => hn)]
  | method object name args =>
    have hobject := object.render_congr (h.mono fun n hn => by simp [references, hn])
    have hargs := renderAll_congr args (h.mono fun n hn => by simp [references, hn])
    rw [render, render, hobject, hargs]
  | call callee args =>
    have hcallee : renderName items callee = renderName items' callee :=
      h.renderName (by simp [references])
    have hargs := renderAll_congr args (h.mono fun n hn => by simp [references, hn])
    rw [render, render, hcallee, hargs]
  | arrow params body =>
    have hbody : body.render (shadow items params) = body.render (shadow items' params) :=
      body.render_congr (.shadow h)
    rw [render, render, hbody]
  | array elements =>
    rw [render, render, renderAll_congr elements (h.mono fun n hn => hn)]
  | spread inner =>
    rw [render, render, inner.render_congr (h.mono fun n hn => hn)]

theorem renderAll_congr {items items' : List String} (es : List Expr)
    (h : SameItems (anyReferences · es) items items') :
    renderAll items es = renderAll items' es := by
  cases es with
  | nil => rfl
  | cons e es =>
    have he := e.render_congr (h.mono fun n hn => by simp [anyReferences, hn])
    have hes := renderAll_congr es (h.mono fun n hn => by simp [anyReferences, hn])
    rw [renderAll, renderAll, he, hes]

end

end Expr

namespace Component

theorem updateCall?_congr (c : Component) {items items' : List String} {e : Expr}
    (h : SameItems (e.references ·) items items') :
    c.updateCall? items e = c.updateCall? items' e := by
  unfold updateCall?
  split
  next target op value? =>
    have htarget : renderName items target = renderName items' target := by
      refine h.renderName ?_
      cases value? <;> simp [Expr.references]
    have hvalue : ∀ value ∈ value?, value.render items = value.render items' := by
      rintro value rfl
      exact value.render_congr (h.mono fun n hn => by simp [Expr.references, hn])
    rw [htarget]
    split
    next =>
      split
      · rfl
      · rfl
      next value => rw [hvalue value rfl]
      · rfl
    next => rfl
  next target args =>
    have htarget : renderName items target = renderName items' target :=
      h.renderName (by simp [Expr.references])
    have hargs : Expr.renderAll items args = Expr.renderAll items' args :=
      Expr.renderAll_congr args (h.mono fun n hn => by simp [Expr.references, hn])
    rw [htarget, hargs]
  next => rfl

theorem renderUpdate_congr (c : Component) {items items' : List String} {e : Expr}
    (h : SameItems (e.references ·) items items') :
    c.renderUpdate items e = c.renderUpdate items' e := by
  unfold renderUpdate
  rw [c.updateCall?_congr h, e.render_congr h]

theorem renderHandler_congr (c : Component) {items items' : List String} {e : Expr}
    (h : SameItems (e.references ·) items items') :
    c.renderHandler items e = c.renderHandler items' e := by
  unfold renderHandler
  split
  next params body =>
    have hbody : SameItems (body.references ·) (shadow items params) (shadow items' params) :=
      .shadow h
    rw [c.renderUpdate_congr hbody]
  next => rw [c.renderUpdate_congr h]

end Component

theorem Attribute.render_congr (d : Dialect) (c : Component) {items items' : List String}
    (tag : String) {a : Attribute} (h : SameItems (a.value.references ·) items items') :
    a.render d c items tag = a.render d c items' tag := by
  unfold render
  split
  next name hvalue =>
    have hname : renderName items name = renderName items' name :=
      h.renderName (by simp [hvalue, AttributeValue.references])
    rw [hname]
  next e hvalue =>
    have he : SameItems (e.references ·) items items' := by
      simpa only [hvalue, AttributeValue.references] using h
    rw [c.renderHandler_congr he]
  next e hvalue =>
    have he : SameItems (e.references ·) items items' := by
      simpa only [hvalue, AttributeValue.references] using h
    split
    next =>
      split
      next name => rw [he.renderName (by simp [Expr.references])]
      next => rw [e.render_congr he]
    next => rw [e.render_congr he]
  · rfl
  · rfl

theorem openTag_congr (d : Dialect) (c : Component) {items items' : List String} (keyed : Bool)
    (tag : String) (attributes : List Attribute)
    (h : SameItems (fun n => attributes.any (·.value.references n)) items items') :
    openTag d c items keyed tag attributes = openTag d c items' keyed tag attributes := by
  have hmap : attributes.map (fun a => " " ++ a.render d c items tag) =
      attributes.map (fun a => " " ++ a.render d c items' tag) := by
    refine List.map_congr_left fun a ha => ?_
    rw [Attribute.render_congr d c tag (h.mono fun n hn => List.any_eq_true.mpr ⟨a, ha, hn⟩)]
  unfold openTag
  rw [hmap]

theorem loopHead_congr (d : Dialect) {items items' : List String} (itemType : Option TypeExpr)
    (source : Expr) (h : SameItems (source.references ·) items items') :
    loopHead d items itemType source = loopHead d items' itemType source := by
  unfold loopHead
  rw [source.render_congr h]

namespace Markup

/-- Inside a loop both lists have its variable. -/
theorem sameItems_template {items items' : List String} {binding : String}
    {itemType : Option TypeExpr} {source : Expr} {template : Element Markup}
    (h : SameItems (references · (each binding itemType source template)) items items') :
    SameItems (elementReferences · template) (items ++ [binding]) (items' ++ [binding]) := by
  intro n hn
  by_cases hb : n = binding
  · simp [hb]
  · have hn' : n ∈ items ↔ n ∈ items' := h n (by simp [references, Ne.symm hb, hn])
    simp [hb, hn']

mutual

/-- The text of a tree on one line depends on the loop variables that the tree reads. -/
theorem inline_congr (d : Dialect) (c : Component) {items items' : List String} (m : Markup)
    (h : SameItems (m.references ·) items items') : inline d c items m = inline d c items' m := by
  cases m with
  | element e =>
    rw [inline, inline]
    exact inlineElement_congr d c false e h
  | fragment children line =>
    rw [inline, inline, inlineAll_congr d c children h]
  | interpolation e => rw [inline, inline, e.render_congr h]
  | text s => rfl
  | each binding itemType source template =>
    have hhead := loopHead_congr d itemType source (h.mono fun n hn => by simp [references, hn])
    rw [inline, inline, hhead, inlineElement_congr d c true template (sameItems_template h)]

theorem inlineElement_congr (d : Dialect) (c : Component) {items items' : List String}
    (keyed : Bool) (e : Element Markup) (h : SameItems (elementReferences · e) items items') :
    inlineElement d c items keyed e = inlineElement d c items' keyed e := by
  cases e with
  | mk tag attributes children selfClosing line =>
    have hopen := openTag_congr d c keyed (Names.tag tag) attributes
      (h.mono fun n hn => by simp only [elementReferences, hn, Bool.true_or])
    have hchildren := inlineAll_congr d c children
      (h.mono fun n hn => by simp only [elementReferences, hn, Bool.or_true])
    rw [inlineElement, inlineElement, hopen, hchildren]

theorem inlineAll_congr (d : Dialect) (c : Component) {items items' : List String}
    (ms : List Markup) (h : SameItems (anyReferences · ms) items items') :
    inlineAll d c items ms = inlineAll d c items' ms := by
  cases ms with
  | nil => rfl
  | cons m ms =>
    have hm := m.inline_congr d c (h.mono fun n hn => by simp [anyReferences, hn])
    have hms := inlineAll_congr d c ms (h.mono fun n hn => by simp [anyReferences, hn])
    rw [inlineAll, inlineAll, hm, hms]

end

mutual

/-- The lines of a tree depend on the loop variables that the tree reads. -/
theorem block_congr (d : Dialect) (c : Component) (depth : Nat) {items items' : List String}
    (m : Markup) (h : SameItems (m.references ·) items items') :
    block d c depth items m = block d c depth items' m := by
  cases m with
  | element e =>
    rw [block, block]
    exact blockElement_congr d c depth false e h
  | fragment children line =>
    have hall := blockAll_congr d c (depth + 1) children h
    rw [block, block, hall, inline_congr d c _ h]
  | interpolation e => exact congrArg (fun s => [indent depth ++ s]) (inline_congr d c _ h)
  | text s => rfl
  | each binding itemType source template =>
    have hhead := loopHead_congr d itemType source (h.mono fun n hn => by simp [references, hn])
    have hinline := inlineElement_congr d c true template (sameItems_template h)
    have hblock := blockElement_congr d c (depth + 1) true template (sameItems_template h)
    rw [block, block, hhead, hinline, hblock]

theorem blockElement_congr (d : Dialect) (c : Component) (depth : Nat) {items items' : List String}
    (keyed : Bool) (e : Element Markup) (h : SameItems (elementReferences · e) items items') :
    blockElement d c depth items keyed e = blockElement d c depth items' keyed e := by
  have hinline := inlineElement_congr d c keyed e h
  cases e with
  | mk tag attributes children selfClosing line =>
    have hopen := openTag_congr d c keyed (Names.tag tag) attributes
      (h.mono fun n hn => by simp only [elementReferences, hn, Bool.true_or])
    have hchildren := blockAll_congr d c (depth + 1) children
      (h.mono fun n hn => by simp only [elementReferences, hn, Bool.or_true])
    rw [blockElement, blockElement, hinline, hopen, hchildren]

theorem blockAll_congr (d : Dialect) (c : Component) (depth : Nat) {items items' : List String}
    (ms : List Markup) (h : SameItems (anyReferences · ms) items items') :
    blockAll d c depth items ms = blockAll d c depth items' ms := by
  cases ms with
  | nil => rfl
  | cons m ms =>
    have hm := m.block_congr d c depth (h.mono fun n hn => by simp [anyReferences, hn])
    have hms := blockAll_congr d c depth ms (h.mono fun n hn => by simp [anyReferences, hn])
    rw [blockAll, blockAll, hm, hms]

end

end Markup

/-- A name that is not read makes no difference among the loop variables. -/
theorem SameItems.insert {reads : String → Bool} {name : String} (h : reads name = false)
    (before behind : List String) :
    SameItems reads (before ++ name :: behind) (before ++ behind) := by
  intro n hn
  have hne : n ≠ name := by
    rintro rfl
    rw [h] at hn
    cases hn
  simp [hne]

/-- A tree that does not read a name is written in the same way whether the name is a loop variable
or not, on one line and in lines of its own. -/
theorem markup_write_unread {m : Markup} {name : String} (h : m.references name = false)
    (d : Dialect) (c : Component) (before behind : List String) :
    Markup.inline d c (before ++ name :: behind) m = Markup.inline d c (before ++ behind) m ∧
      ∀ depth, Markup.block d c depth (before ++ name :: behind) m =
        Markup.block d c depth (before ++ behind) m := by
  have hitems : SameItems (m.references ·) (before ++ name :: behind) (before ++ behind) :=
    .insert h before behind
  exact ⟨m.inline_congr d c hitems, fun depth => m.block_congr d c depth hitems⟩

/-- A name that is only the parameter of a handler and the variable of a loop is not read. -/
theorem markup_write_unread_bound :
    ∃ c, Component.ofSource "Rows" ("@y = []\n<ul @tap=\x7bx => y.push(x)\x7d>" ++
        "<each x in xs><li>\x7bx\x7d</li></each></ul>") = .ok c ∧
      c.markup.references "x" = false ∧
      Markup.inline .plain c ["y", "x"] c.markup = Markup.inline .plain c ["y"] c.markup ∧
      Markup.block .plain c 0 ["y", "x"] c.markup = Markup.block .plain c 0 ["y"] c.markup ∧
      Markup.block .plain c 0 ["y"] c.markup =
        ["<ul onTap=\x7b(x) => setY([...__item, x])\x7d>",
          "  \x7bxs.map((__item, __index) => <li key=\x7b__index\x7d>\x7b__item\x7d</li>)\x7d",
          "</ul>"] := by
  have hread : ((Component.ofSource "Rows" ("@y = []\n<ul @tap=\x7bx => y.push(x)\x7d>" ++
      "<each x in xs><li>\x7bx\x7d</li></each></ul>")).toOption.map fun c =>
      (c.markup.references "x", Markup.block .plain c 0 ["y"] c.markup)) =
      some (false, ["<ul onTap=\x7b(x) => setY([...__item, x])\x7d>",
        "  \x7bxs.map((__item, __index) => <li key=\x7b__index\x7d>\x7b__item\x7d</li>)\x7d",
        "</ul>"]) := by
    decide +kernel
  obtain ⟨c, hc, hread⟩ := Option.map_eq_some_iff.mp hread
  obtain ⟨hunread, hlines⟩ := Prod.mk.inj hread
  obtain ⟨hinline, hblock⟩ := markup_write_unread hunread .plain c ["y"] []
  exact ⟨c, eq_ok_of_toOption hc, hunread, hinline, hblock 0, hlines⟩

/-- A loop of a tree: the variables of the loops around it, its own, and what it repeats. -/
structure Loop where
  outer : List String
  binding : String
  template : Element Markup

/-- A place of a tree where names are read: an interpolation, an attribute of an element with the
tag `tag`, or the source of a loop. -/
inductive Site where
  | interpolation (e : Expr)
  | attr (tag : String) (a : Attribute)
  | source (e : Expr)

namespace Site

/-- Whether `name` is read at the site. -/
def references (name : String) : Site → Bool
  | interpolation e => e.references name
  | attr _ a => a.value.references name
  | source e => e.references name

/-- The text of what is read at the site, where `items` are variables of loops. -/
def render (d : Dialect) (c : Component) (items : List String) : Site → String
  | interpolation e => e.render items
  | attr tag a => a.render d c items (Names.tag tag)
  | source e => e.render items

theorem render_congr (d : Dialect) (c : Component) {items items' : List String} {s : Site}
    (h : SameItems (s.references ·) items items') : s.render d c items = s.render d c items' := by
  cases s with
  | interpolation e => exact e.render_congr h
  | attr tag a => exact a.render_congr d c (Names.tag tag) h
  | source e => exact e.render_congr h

end Site

namespace Markup

mutual

/-- The loops of a tree that stands in loops with the variables `outer`. -/
def loops (outer : List String) : Markup → List Loop
  | element e => elementLoops outer e
  | fragment children _ => allLoops outer children
  | interpolation _ => []
  | text _ => []
  | each binding _ _ template =>
    ⟨outer, binding, template⟩ :: elementLoops (outer ++ [binding]) template

def elementLoops (outer : List String) : Element Markup → List Loop
  | ⟨_, _, children, _, _⟩ => allLoops outer children

def allLoops (outer : List String) : List Markup → List Loop
  | [] => []
  | m :: ms => m.loops outer ++ allLoops outer ms

end

mutual

/-- The sites of a tree that are in no loop of the tree. -/
def sites : Markup → List Site
  | element e => elementSites e
  | fragment children _ => allSites children
  | interpolation e => [.interpolation e]
  | text _ => []
  | each _ _ source _ => [.source source]

def elementSites : Element Markup → List Site
  | ⟨tag, attributes, children, _, _⟩ => attributes.map (.attr tag) ++ allSites children

def allSites : List Markup → List Site
  | [] => []
  | m :: ms => m.sites ++ allSites ms

end

mutual

/-- What is read at a site of a tree is read in the tree. -/
theorem references_of_mem_sites {name : String} {s : Site} (m : Markup) (hs : s ∈ m.sites)
    (hr : s.references name = true) : m.references name = true := by
  cases m with
  | element e => exact elementReferences_of_mem_sites e hs hr
  | fragment children line => exact anyReferences_of_mem_sites children hs hr
  | interpolation e =>
    obtain rfl := List.mem_singleton.mp hs
    exact hr
  | text t => cases hs
  | each binding itemType source template =>
    obtain rfl := List.mem_singleton.mp hs
    have hsource : source.references name = true := hr
    simp [references, hsource]

theorem elementReferences_of_mem_sites {name : String} {s : Site} (e : Element Markup)
    (hs : s ∈ elementSites e) (hr : s.references name = true) :
    elementReferences name e = true := by
  cases e with
  | mk tag attributes children selfClosing line =>
    rw [elementSites, List.mem_append] at hs
    rw [elementReferences, Bool.or_eq_true]
    rcases hs with hs | hs
    · obtain ⟨a, ha, rfl⟩ := List.mem_map.mp hs
      exact .inl (List.any_eq_true.mpr ⟨a, ha, hr⟩)
    · exact .inr (anyReferences_of_mem_sites children hs hr)

theorem anyReferences_of_mem_sites {name : String} {s : Site} (ms : List Markup)
    (hs : s ∈ allSites ms) (hr : s.references name = true) : anyReferences name ms = true := by
  cases ms with
  | nil => cases hs
  | cons m ms =>
    rw [allSites, List.mem_append] at hs
    rw [anyReferences, Bool.or_eq_true]
    rcases hs with hs | hs
    · exact .inl (references_of_mem_sites m hs hr)
    · exact .inr (anyReferences_of_mem_sites ms hs hr)

end

theorem mem_allLoops {outer : List String} {l : Loop} {ms : List Markup} :
    l ∈ allLoops outer ms ↔ ∃ m ∈ ms, l ∈ m.loops outer := by
  induction ms with
  | nil => simp [allLoops]
  | cons m ms ih => simp [allLoops, ih]

end Markup

namespace Loop

/-- The template reads no variable of the loops around the loop but one that has the name of the
loop's own. -/
def Closed (l : Loop) : Prop :=
  ∀ o ∈ l.outer, o ≠ l.binding → Markup.elementReferences o l.template = false

theorem Closed.eq_binding {l : Loop} (h : l.Closed) {n : String}
    (hr : Markup.elementReferences n l.template = true) (hn : n ∈ l.outer ++ [l.binding]) :
    n = l.binding := by
  rcases List.mem_append.mp hn with hn | hn
  · by_contra hne
    have hfalse := h n hn hne
    rw [hr] at hfalse
    cases hfalse
  · exact List.mem_singleton.mp hn

theorem Closed.sameItems {l : Loop} (h : l.Closed) :
    SameItems (Markup.elementReferences · l.template) (l.outer ++ [l.binding]) [l.binding] := by
  intro n hr
  constructor
  · intro hn
    exact List.mem_singleton.mpr (h.eq_binding hr hn)
  · intro hn
    exact List.mem_append_right _ hn

end Loop

namespace Rule

open Sigil.Parser

instance : SuffixClosed (fun _ => True) where
  of_suffix _ _ := trivial

theorem closed_inherited :
    Inherited (fun _ => True) (fun _ => True) (fun _ => True) (fun _ => True) (fun _ => True)
      (fun _ => True) (fun outer m => ∀ l ∈ m.loops outer, l.Closed)
      (fun outer ms => ∀ m ∈ ms, ∀ l ∈ m.loops outer, l.Closed) where
  name _ := yields_trivial _
  attr := (yields_trivial _).mono fun round _ => by cases round <;> trivial
  siblings parent hnode := by
    refine yields_many (yields_childRound hnode (fun startsLine => ?_) ?_ parent)
    · unfold textRun
      refine yields_get fun before _ => ?_
      refine yields_bind (yields_trivial _) fun run _ => ?_
      exact yields_get fun behind _ => yields_pure (by simp [Markup.loops])
    · exact (yields_trivial _).mono fun e _ => by simp [Markup.loops]
  ident _ := yields_trivial _
  type? := yields_trivial _
  source _ := yields_trivial _
  childless _ _ l hl := by
    obtain ⟨m, hm, _⟩ := Markup.mem_allLoops.mp hl
    cases hm
  element _ _ hchildren l hl := by
    obtain ⟨m, hm, hl⟩ := Markup.mem_allLoops.mp hl
    exact hchildren m hm l hl
  fragment hchildren l hl := by
    obtain ⟨m, hm, hl⟩ := Markup.mem_allLoops.mp hl
    exact hchildren m hm l hl
  each _ _ _ htemplate hfree := List.forall_mem_cons.mpr ⟨hfree, htemplate⟩

theorem yields_unit_closed (name : String) :
    Yields (fun _ => True) (unit name) (fun c => ∀ l ∈ c.markup.loops [], l.Closed) := by
  unfold unit
  refine yields_bind (yields_trivial _) fun leading _ => ?_
  refine yields_bind yields_kind fun k _ => ?_
  refine yields_guard (yields_fail _) fun _ => ?_
  refine yields_bind closed_inherited.yields_markup fun m hm => ?_
  refine yields_bind yields_endStatement fun _ _ => ?_
  exact yields_bind (yields_trivial _) fun trailing _ => yields_pure hm

end Rule

/-- No loop of a component that is read captures a variable of a loop around it. What is read in its
template is written as it is where its own variable is the only one. -/
theorem loop_render_own_variable {name : String} {ts : List Token} {c : Component}
    (h : Component.ofTokens name ts = .ok c) {l : Loop} (hl : l ∈ c.markup.loops [])
    (d : Dialect) :
    (∀ s ∈ Markup.elementSites l.template,
      s.render d c (l.outer ++ [l.binding]) = s.render d c [l.binding] ∧
        ∀ n, s.references n = true → n ∈ l.outer ++ [l.binding] → n = l.binding) ∧
      Markup.inlineElement d c (l.outer ++ [l.binding]) true l.template =
        Markup.inlineElement d c [l.binding] true l.template ∧
      ∀ depth, Markup.blockElement d c depth (l.outer ++ [l.binding]) true l.template =
        Markup.blockElement d c depth [l.binding] true l.template := by
  obtain ⟨rest, hunit⟩ := Component.ofTokens_eq_ok h
  have hclosed : l.Closed := (Rule.yields_unit_closed name trivial hunit).2 l hl
  refine ⟨fun s hs => ⟨?_, fun n hr hn => ?_⟩, ?_, fun depth => ?_⟩
  · refine Site.render_congr d c (hclosed.sameItems.mono fun n hr => ?_)
    exact Markup.elementReferences_of_mem_sites l.template hs hr
  · exact hclosed.eq_binding (Markup.elementReferences_of_mem_sites l.template hs hr) hn
  · exact Markup.inlineElement_congr d c true l.template hclosed.sameItems
  · exact Markup.blockElement_congr d c depth true l.template hclosed.sameItems

theorem loop_render_own_variable_nested :
    ∃ ts c l s, Component.ofTokens "List" ts = .ok c ∧ l ∈ c.markup.loops [] ∧ l.outer = ["a"] ∧
      l.binding = "b" ∧ s ∈ Markup.elementSites l.template ∧
      s.render .plain c (l.outer ++ [l.binding]) = s.render .plain c [l.binding] ∧
      s.render .plain c [l.binding] = "onTap=\x7b(a) => f(a, __item)\x7d" := by
  have hread : ((Component.ofSource "List" ("<ul><each a in as><li><each b in a.bs>" ++
      "<p @tap=\x7ba => f(a, b)\x7d /></each></li></each></ul>")).toOption.bind fun c =>
      (c.markup.loops [])[1]?.bind fun l => (Markup.elementSites l.template)[0]?.map fun s =>
        (l.outer, l.binding, s.render .plain c [l.binding])) =
      some (["a"], "b", "onTap=\x7b(a) => f(a, __item)\x7d") := by decide +kernel
  obtain ⟨c, hc, hread⟩ := Option.bind_eq_some_iff.mp hread
  obtain ⟨l, hl, hread⟩ := Option.bind_eq_some_iff.mp hread
  obtain ⟨s, hs, hread⟩ := Option.map_eq_some_iff.mp hread
  obtain ⟨houter, hbinding, hrender⟩ := Prod.mk.inj hread |>.imp id Prod.mk.inj
  have hl := List.mem_of_getElem? hl
  have hs := List.mem_of_getElem? hs
  obtain ⟨ts, _, hts⟩ := Component.ofSource_eq_ok (eq_ok_of_toOption hc)
  refine ⟨ts, c, l, s, hts, hl, houter, hbinding, hs, ?_, hrender⟩
  exact ((loop_render_own_variable hts hl .plain).1 s hs).1

end Sigil

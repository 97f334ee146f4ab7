import Sigil.Component

namespace Sigil

variable {f : Nat → Nat}

namespace Markup

mutual

/-- The tree with each line `n` that it notes as `f n` instead. -/
def renumber (f : Nat → Nat) : Markup → Markup
  | element e => element (renumberElement f e)
  | fragment children line => fragment (renumberAll f children) (f line)
  | interpolation e => interpolation e
  | text s => text s
  | each binding itemType source template =>
    each binding itemType source (renumberElement f template)

def renumberElement (f : Nat → Nat) : Element Markup → Element Markup
  | ⟨tag, attributes, children, selfClosing, line⟩ =>
    ⟨tag, attributes, renumberAll f children, selfClosing, f line⟩

def renumberAll (f : Nat → Nat) : List Markup → List Markup
  | [] => []
  | m :: ms => m.renumber f :: renumberAll f ms

end

theorem renumberAll_eq_map (ms : List Markup) : renumberAll f ms = ms.map (renumber f) := by
  induction ms with
  | nil => rfl
  | cons m ms ih => rw [renumberAll, ih, List.map_cons]

mutual

/-- What a tree reads does not depend on where it stands. -/
theorem references_renumber (name : String) (m : Markup) :
    references name (m.renumber f) = references name m := by
  cases m with
  | element e => exact elementReferences_renumber name e
  | fragment children line => exact anyReferences_renumber name children
  | interpolation e => rfl
  | text s => rfl
  | each binding itemType source template =>
    simp only [renumber, references, elementReferences_renumber name template]

theorem elementReferences_renumber (name : String) (e : Element Markup) :
    elementReferences name (renumberElement f e) = elementReferences name e := by
  obtain ⟨tag, attributes, children, selfClosing, line⟩ := e
  simp only [renumberElement, elementReferences, anyReferences_renumber name children]

theorem anyReferences_renumber (name : String) (ms : List Markup) :
    anyReferences name (renumberAll f ms) = anyReferences name ms := by
  cases ms with
  | nil => rfl
  | cons m ms =>
    simp only [renumberAll, anyReferences, references_renumber name m,
      anyReferences_renumber name ms]

end

mutual

theorem renumber_id (m : Markup) : m.renumber id = m := by
  cases m with
  | element e => rw [renumber, renumberElement_id]
  | fragment children line => rw [renumber, renumberAll_id, id]
  | interpolation e => rfl
  | text s => rfl
  | each binding itemType source template => rw [renumber, renumberElement_id]

theorem renumberElement_id (e : Element Markup) : renumberElement id e = e := by
  obtain ⟨tag, attributes, children, selfClosing, line⟩ := e
  rw [renumberElement, renumberAll_id, id]

theorem renumberAll_id (ms : List Markup) : renumberAll id ms = ms := by
  cases ms with
  | nil => rfl
  | cons m ms => rw [renumberAll, renumber_id, renumberAll_id]

end

end Markup

namespace Declaration

/-- The declaration with its line `n` as `f n` instead. -/
def renumber (f : Nat → Nat) : Declaration → Declaration
  | prop d => prop { d with line := f d.line }
  | state d => state { d with line := f d.line }
  | reducer d => reducer { d with line := f d.line }
  | transition d => transition { d with line := f d.line }
  | deferred d => deferred { d with line := f d.line }
  | optimistic d => optimistic { d with line := f d.line }
  | memo d => memo { d with line := f d.line }
  | effect d => effect { d with line := f d.line }
  | layoutEffect d => layoutEffect { d with line := f d.line }
  | event d => event { d with line := f d.line }
  | callback d => callback { d with line := f d.line }
  | handle d => handle { d with line := f d.line }
  | ref d => ref { d with line := f d.line }
  | context d => context { d with line := f d.line }
  | id d => id { d with line := f d.line }
  | store d => store { d with line := f d.line }
  | action d => action { d with line := f d.line }

end Declaration

namespace Component

/-- The component with each line `n` that it notes as `f n` instead. -/
def renumber (f : Nat → Nat) (c : Component) : Component where
  name := c.name
  props := c.props.map fun d => { d with line := f d.line }
  states := c.states.map fun d => { d with line := f d.line }
  reducers := c.reducers.map fun d => { d with line := f d.line }
  transitions := c.transitions.map fun d => { d with line := f d.line }
  deferreds := c.deferreds.map fun d => { d with line := f d.line }
  optimistics := c.optimistics.map fun d => { d with line := f d.line }
  memos := c.memos.map fun d => { d with line := f d.line }
  effects := c.effects.map fun d => { d with line := f d.line }
  layoutEffects := c.layoutEffects.map fun d => { d with line := f d.line }
  events := c.events.map fun d => { d with line := f d.line }
  callbacks := c.callbacks.map fun d => { d with line := f d.line }
  handles := c.handles.map fun d => { d with line := f d.line }
  refs := c.refs.map fun d => { d with line := f d.line }
  contexts := c.contexts.map fun d => { d with line := f d.line }
  ids := c.ids.map fun d => { d with line := f d.line }
  stores := c.stores.map fun d => { d with line := f d.line }
  actions := c.actions.map fun d => { d with line := f d.line }
  markup := c.markup.renumber f

theorem renumber_id (c : Component) : c.renumber id = c := by
  obtain ⟨⟩ := c
  simp [renumber, Markup.renumber_id]

/-- To renumber what declarations make up is to renumber the declarations. -/
theorem renumber_ofDeclarations (name : String) (ds : List Declaration) (m : Markup) :
    (ofDeclarations name ds m).renumber f =
      ofDeclarations name (ds.map (Declaration.renumber f)) (m.renumber f) := by
  simp only [renumber, ofDeclarations, List.map_filterMap, List.filterMap_map, mk.injEq, true_and,
    and_true]
  refine ⟨?_, ?_, ?_, ?_, ?_, ?_, ?_, ?_, ?_, ?_, ?_, ?_, ?_, ?_, ?_, ?_, ?_⟩
  all_goals
    congr 1
    funext d
    cases d <;> rfl

end Component

end Sigil

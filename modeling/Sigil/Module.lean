import Sigil.Expr.Dependencies
import Sigil.Markup.Layout
import Sigil.Text.Lines

namespace Sigil

def bracketList (items : List String) : String := "[" ++ joinWith ", " items ++ "]"

/-- What stands on the left of a constant: its name, or the names that its value is taken apart
into. -/
def bindingPattern : List String → String
  | [name] => name
  | names => bracketList names

/-- A line of the output, with the line of the source it was written for, if it was for one. -/
structure OutputLine where
  text : String
  origin : Option Nat
deriving DecidableEq, Repr

namespace OutputLine

def unmapped (text : String) : OutputLine := ⟨text, none⟩

def mapped (text : String) (origin : Nat) : OutputLine := ⟨text, some origin⟩

def blank : OutputLine := unmapped ""

/-- Lines of which the first was written for a line of the source. -/
def block (origin : Option Nat) : List String → List OutputLine
  | [] => []
  | s :: ss => ⟨s, origin⟩ :: ss.map unmapped

/-- A line that sets constants. -/
def constant (names : List String) (value : String) (origin : Nat) : OutputLine :=
  mapped ("  const " ++ bindingPattern names ++ " = " ++ value ++ ";") origin

/-- A line that sets constants to what a hook gives. -/
def hookConstant (names : List String) (hook typeArgs : String) (args : List String)
    (origin : Nat) : OutputLine :=
  constant names (hook ++ typeArgs ++ "(" ++ joinWith ", " args ++ ")") origin

end OutputLine

namespace Component

open OutputLine

/-- The hooks that the output imports, in order, with how often each is used. -/
def hookUses (c : Component) : List (String × Nat) :=
  [("useState", c.states.length), ("useReducer", c.reducers.length),
    ("useEffect", c.effects.length), ("useLayoutEffect", c.layoutEffects.length),
    ("useMemo", c.memos.length), ("useCallback", c.callbacks.length), ("useRef", c.refs.length),
    ("useContext", c.contexts.length), ("useImperativeHandle", c.handles.length),
    ("useId", c.ids.length), ("useTransition", c.transitions.length),
    ("useDeferredValue", c.deferreds.length), ("useOptimistic", c.optimistics.length),
    ("useSyncExternalStore", c.stores.length), ("useActionState", c.actions.length)]

def hooks (c : Component) : List String := (c.hookUses.filter (0 < ·.2)).map (·.1)

def importLines (c : Component) : List OutputLine :=
  let imported :=
    if c.hooks.isEmpty then "" else ", " ++ inBraces (" " ++ joinWith ", " c.hooks ++ " ")
  [unmapped ("import React" ++ imported ++ " from 'react';"), blank]

def actionLines (a : KeyedEntry) : List OutputLine :=
  [unmapped ("    case " ++ quote a.key ++ ":"),
    unmapped ("      return " ++ a.value.render [] ++ ";")]

/-- The function of a reducer. -/
def reducerLines (d : Dialect) (r : ReducerDecl) : List OutputLine :=
  [mapped (d.reducerSignature r) r.line, unmapped "  switch (action.type) \x7b"] ++
    r.actions.flatMap actionLines ++
    [unmapped "    default:", unmapped "      return state;", unmapped "  \x7d", unmapped "\x7d",
      blank]

/-- The interface of the props, which only the typed output has. -/
def interfaceLines (d : Dialect) (c : Component) : List OutputLine :=
  if d = .plain ∨ c.props = [] then []
  else
    [unmapped ("interface " ++ c.name ++ "Props \x7b")] ++
      c.props.map (fun p => mapped (Dialect.propField p) p.line) ++ [unmapped "\x7d", blank]

def propParam (p : PropDecl) : String :=
  match p.default? with
  | some e => p.name ++ " = " ++ e.render []
  | none => p.name

/-- The parameter that takes the props apart. -/
def signatureParams (d : Dialect) (c : Component) : String :=
  if c.props = [] then ""
  else
    inBraces (" " ++ joinWith ", " (c.props.map propParam) ++ " ") ++ d.propsAnnotation c.name

def signatureLine (d : Dialect) (c : Component) : OutputLine :=
  ⟨"function " ++ c.name ++ "(" ++ c.signatureParams d ++ ") \x7b", c.props.head?.map (·.line)⟩

def stateLine (d : Dialect) (s : StateDecl) : OutputLine :=
  hookConstant [s.name, Names.setter s.name] "useState" (d.typeArgs s.type?) [s.initial.render []]
    s.line

def idLine (i : IdDecl) : OutputLine := hookConstant [i.name] "useId" "" [] i.line

def deferredLine (d : Dialect) (x : DeferredDecl) : OutputLine :=
  hookConstant [x.name] "useDeferredValue" (d.typeArgs x.type?) [x.source.render []] x.line

def optimisticLine (d : Dialect) (x : OptimisticDecl) : OutputLine :=
  hookConstant [x.name, Names.optimisticAdder x.name] "useOptimistic" (d.typeArgs x.type?)
    [x.state.render [], x.update.render []] x.line

def storeLine (d : Dialect) (x : StoreDecl) : OutputLine :=
  let args := [x.subscribe, x.snapshot] ++ x.serverSnapshot?.toList
  hookConstant [x.name] "useSyncExternalStore" (d.typeArgs x.type?) (args.map (·.render [])) x.line

def actionStateLine (d : Dialect) (x : ActionDecl) : OutputLine :=
  hookConstant [x.name, Names.action x.name, Names.pending x.name] "useActionState"
    (d.typeArgs x.type?) [x.action.render [], x.initial.render []] x.line

def reducerLine (r : ReducerDecl) : OutputLine :=
  hookConstant [r.name, Names.dispatch r.name] "useReducer" ""
    [Names.reducerFunction r.name, r.initial.render []] r.line

def transitionLine (t : TransitionDecl) : OutputLine :=
  hookConstant [Names.pending t.name, Names.transitionStarter t.name] "useTransition" "" [] t.line

def contextLine (d : Dialect) (x : ContextDecl) : OutputLine :=
  hookConstant [x.name] "useContext" (d.typeArgs x.type?) [x.source] x.line

def callbackLine (c : Component) (x : CallbackDecl) : OutputLine :=
  hookConstant [x.name] "useCallback" ""
    [c.renderHandler [] x.value, bracketList x.value.dependencies] x.line

def refLine (d : Dialect) (x : RefDecl) : OutputLine :=
  hookConstant [x.name] "useRef" (d.typeArgs x.type?) [(x.initial?.map (·.render [])).getD "null"]
    x.line

def methodLine (c : Component) (m : KeyedEntry) : OutputLine :=
  unmapped ("    " ++ m.key ++ ": " ++ c.renderHandler [] m.value ++ ",")

def handleLines (c : Component) (x : HandleDecl) : List OutputLine :=
  [mapped ("  useImperativeHandle(" ++ x.name ++ ", () => (\x7b") x.line] ++
    x.methods.map c.methodLine ++ [unmapped "  \x7d));"]

def memoLine (d : Dialect) (x : MemoDecl) : OutputLine :=
  hookConstant [x.name] "useMemo" (d.typeArgs x.type?)
    ["() => " ++ x.value.render [], bracketList x.value.dependencies] x.line

/-- What an effect depends on: what is listed, or all that its body reads. -/
def effectDependencies (x : EffectDecl) : List String :=
  match x.deps? with
  | some deps => deps.map (·.render [])
  | none => x.body.dependencies

def effectLines (c : Component) (hook : String) (x : EffectDecl) : List OutputLine :=
  [mapped ("  " ++ hook ++ "(() => \x7b") x.line,
    unmapped ("    " ++ c.renderStatement x.body ++ ";"),
    unmapped ("  \x7d, " ++ bracketList (effectDependencies x) ++ ");")]

def eventLine (c : Component) (x : EventDecl) : OutputLine :=
  constant [x.name] (c.renderHandler [] x.handler) x.line

/-- The declarations inside the component's function, kind by kind. -/
def declarationLines (d : Dialect) (c : Component) : List OutputLine :=
  c.states.map (stateLine d) ++ c.ids.map idLine ++ c.deferreds.map (deferredLine d) ++
    c.optimistics.map (optimisticLine d) ++ c.stores.map (storeLine d) ++
    c.actions.map (actionStateLine d) ++ c.reducers.map reducerLine ++
    c.transitions.map transitionLine ++ c.contexts.map (contextLine d) ++
    c.callbacks.map c.callbackLine ++ c.refs.map (refLine d) ++ c.handles.flatMap c.handleLines ++
    c.memos.map (memoLine d) ++ c.effects.flatMap (c.effectLines "useEffect") ++
    c.layoutEffects.flatMap (c.effectLines "useLayoutEffect") ++ c.events.map c.eventLine

def markupLines (d : Dialect) (c : Component) : List OutputLine :=
  OutputLine.block c.markup.line? (splitLines (joinWith "\n" (Markup.block d c 2 [] c.markup)))

def functionLines (d : Dialect) (c : Component) : List OutputLine :=
  let declarations := c.declarationLines d
  [c.signatureLine d] ++ declarations ++ (if declarations.isEmpty then [] else [blank]) ++
    [unmapped "  return ("] ++ c.markupLines d ++ [unmapped "  );", unmapped "\x7d", blank]

/-- The lines of the module that a component is written as. -/
def outputLines (d : Dialect) (c : Component) : List OutputLine :=
  c.importLines ++ c.reducers.flatMap (reducerLines d) ++ c.interfaceLines d ++ c.functionLines d ++
    [unmapped ("export default " ++ c.name ++ ";")]

/-- The module that a component is written as. -/
def code (d : Dialect) (c : Component) : String :=
  joinWith "" ((c.outputLines d).map (·.text ++ "\n"))

/-- The lines of the output, counted from one, that were written for a line of the source. -/
def lineMappings (d : Dialect) (c : Component) : List (Nat × Nat) :=
  ((c.outputLines d).zipIdx 1).filterMap fun (line, n) => line.origin.map (n, ·)

end Component

end Sigil

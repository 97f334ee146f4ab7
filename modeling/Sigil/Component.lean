import Sigil.Markup

namespace Sigil

structure PropDecl where
  name : String
  type? : Option TypeExpr
  default? : Option Expr
  line : Nat
deriving BEq, Repr

structure StateDecl where
  name : String
  type? : Option TypeExpr
  initial : Expr
  line : Nat
deriving BEq, Repr

/-- A key of a block and the expression it stands for. -/
structure KeyedEntry where
  key : String
  value : Expr
deriving BEq, Repr

structure ReducerDecl where
  name : String
  type? : Option TypeExpr
  initial : Expr
  actions : List KeyedEntry
  line : Nat
deriving BEq, Repr

structure TransitionDecl where
  name : String
  line : Nat
deriving BEq, Repr

structure DeferredDecl where
  name : String
  type? : Option TypeExpr
  source : Expr
  line : Nat
deriving BEq, Repr

structure OptimisticDecl where
  name : String
  type? : Option TypeExpr
  state : Expr
  update : Expr
  line : Nat
deriving BEq, Repr

structure MemoDecl where
  name : String
  type? : Option TypeExpr
  value : Expr
  line : Nat
deriving BEq, Repr

/-- An effect; without explicit dependencies they are those of its body. -/
structure EffectDecl where
  deps? : Option (List Expr)
  body : Expr
  line : Nat
deriving BEq, Repr

structure EventDecl where
  name : String
  handler : Expr
  line : Nat
deriving BEq, Repr

structure CallbackDecl where
  name : String
  value : Expr
  line : Nat
deriving BEq, Repr

structure HandleDecl where
  name : String
  methods : List KeyedEntry
  line : Nat
deriving BEq, Repr

structure RefDecl where
  name : String
  type? : Option TypeExpr
  initial? : Option Expr
  line : Nat
deriving BEq, Repr

structure ContextDecl where
  name : String
  type? : Option TypeExpr
  source : String
  line : Nat
deriving BEq, Repr

structure IdDecl where
  name : String
  line : Nat
deriving BEq, Repr

structure StoreDecl where
  name : String
  type? : Option TypeExpr
  subscribe : Expr
  snapshot : Expr
  serverSnapshot? : Option Expr
  line : Nat
deriving BEq, Repr

structure ActionDecl where
  name : String
  type? : Option TypeExpr
  action : Expr
  initial : Expr
  line : Nat
deriving BEq, Repr

/-- A declaration of any kind. -/
inductive Declaration where
  | prop (d : PropDecl)
  | state (d : StateDecl)
  | reducer (d : ReducerDecl)
  | transition (d : TransitionDecl)
  | deferred (d : DeferredDecl)
  | optimistic (d : OptimisticDecl)
  | memo (d : MemoDecl)
  | effect (d : EffectDecl)
  | layoutEffect (d : EffectDecl)
  | event (d : EventDecl)
  | callback (d : CallbackDecl)
  | handle (d : HandleDecl)
  | ref (d : RefDecl)
  | context (d : ContextDecl)
  | id (d : IdDecl)
  | store (d : StoreDecl)
  | action (d : ActionDecl)
deriving BEq, Repr

/-- A component: its declarations, kind by kind in the order of the source, and its markup. -/
structure Component where
  name : String
  props : List PropDecl := []
  states : List StateDecl := []
  reducers : List ReducerDecl := []
  transitions : List TransitionDecl := []
  deferreds : List DeferredDecl := []
  optimistics : List OptimisticDecl := []
  memos : List MemoDecl := []
  effects : List EffectDecl := []
  layoutEffects : List EffectDecl := []
  events : List EventDecl := []
  callbacks : List CallbackDecl := []
  handles : List HandleDecl := []
  refs : List RefDecl := []
  contexts : List ContextDecl := []
  ids : List IdDecl := []
  stores : List StoreDecl := []
  actions : List ActionDecl := []
  markup : Markup
deriving BEq, Repr

namespace StateDecl

/-- Whether the state is declared or started as an array. -/
def isCollection (s : StateDecl) : Bool := s.type?.any TypeExpr.isArray || s.initial.isArray

end StateDecl

/-- The name a component has when none is given. -/
def defaultComponentName : String := "Component"

namespace Component

/-- The component that the declarations and the markup make up. -/
def ofDeclarations (name : String) (ds : List Declaration) (markup : Markup) : Component where
  name := name
  props := ds.filterMap fun | .prop d => some d | _ => none
  states := ds.filterMap fun | .state d => some d | _ => none
  reducers := ds.filterMap fun | .reducer d => some d | _ => none
  transitions := ds.filterMap fun | .transition d => some d | _ => none
  deferreds := ds.filterMap fun | .deferred d => some d | _ => none
  optimistics := ds.filterMap fun | .optimistic d => some d | _ => none
  memos := ds.filterMap fun | .memo d => some d | _ => none
  effects := ds.filterMap fun | .effect d => some d | _ => none
  layoutEffects := ds.filterMap fun | .layoutEffect d => some d | _ => none
  events := ds.filterMap fun | .event d => some d | _ => none
  callbacks := ds.filterMap fun | .callback d => some d | _ => none
  handles := ds.filterMap fun | .handle d => some d | _ => none
  refs := ds.filterMap fun | .ref d => some d | _ => none
  contexts := ds.filterMap fun | .context d => some d | _ => none
  ids := ds.filterMap fun | .id d => some d | _ => none
  stores := ds.filterMap fun | .store d => some d | _ => none
  actions := ds.filterMap fun | .action d => some d | _ => none
  markup := markup

/-- The state of a name; of several the one declared last. -/
def state? (c : Component) (name : String) : Option StateDecl :=
  c.states.reverse.find? (·.name == name)

def isState (c : Component) (name : String) : Bool := c.states.any (·.name == name)

/-- How many declarations of each kind there are. -/
def counts (c : Component) : List (String × Nat) :=
  [("prop", c.props.length), ("state", c.states.length), ("reducer", c.reducers.length),
    ("transition", c.transitions.length), ("deferred", c.deferreds.length),
    ("optimistic", c.optimistics.length), ("memo", c.memos.length), ("effect", c.effects.length),
    ("layout effect", c.layoutEffects.length), ("event", c.events.length),
    ("callback", c.callbacks.length), ("imperative handle", c.handles.length),
    ("ref", c.refs.length), ("context", c.contexts.length), ("id", c.ids.length),
    ("external store", c.stores.length), ("action state", c.actions.length)]

end Component

end Sigil

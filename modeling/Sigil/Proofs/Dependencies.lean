import Sigil.Expr.Dependencies
import Sigil.Handler
import Sigil.Proofs.Naming
import Sigil.Proofs.Rereading
import Sigil.Proofs.Spellings

namespace Sigil

namespace Expr

theorem mem_note {bound found : List String} {name n : String} :
    n ∈ note bound found name ↔ n ∈ found ∨ (n ∉ bound ∧ name = n) := by
  unfold note
  split
  next h =>
    constructor
    · exact .inl
    · rintro (hn | ⟨hb, rfl⟩)
      · exact hn
      · simpa [hb] using h
  next h =>
    simp only [Bool.or_eq_true, List.contains_iff_mem, not_or] at h
    rw [List.mem_append, List.mem_singleton]
    constructor
    · rintro (hn | rfl)
      · exact .inl hn
      · exact .inr ⟨h.1, rfl⟩
    · rintro (hn | ⟨_, rfl⟩)
      · exact .inl hn
      · exact .inr rfl

mutual

/-- What is collected are the names found before and those that are read and not bound. -/
theorem mem_collect (e : Expr) (bound found : List String) (n : String) :
    n ∈ e.collect bound found ↔ n ∈ found ∨ (n ∉ bound ∧ e.references n = true) := by
  cases e with
  | literal l => simp [collect, references]
  | ident name => simp [collect, references, mem_note]
  | binary op left right =>
    rw [collect, mem_collect right, mem_collect left, references, Bool.or_eq_true]
    tauto
  | update target op value? =>
    cases value? with
    | none => simp [collect, references, mem_note]
    | some value =>
      rw [collect, mem_collect value, mem_note, references, Bool.or_eq_true, beq_iff_eq]
      tauto
  | member object property => rw [collect, mem_collect object, references]
  | method object name args =>
    rw [collect, mem_collectAll args, mem_collect object, references, Bool.or_eq_true]
    tauto
  | call callee args =>
    rw [collect, mem_collectAll args, mem_note, references, Bool.or_eq_true, beq_iff_eq]
    tauto
  | arrow params body =>
    rw [collect, mem_collect body, references, List.mem_append, Bool.and_eq_true,
      Bool.not_eq_true', List.contains_eq_mem, decide_eq_false_iff_not]
    tauto
  | array elements => rw [collect, mem_collectAll elements, references]
  | spread inner => rw [collect, mem_collect inner, references]

theorem mem_collectAll (es : List Expr) (bound found : List String) (n : String) :
    n ∈ collectAll bound found es ↔ n ∈ found ∨ (n ∉ bound ∧ anyReferences n es = true) := by
  cases es with
  | nil => simp [collectAll, anyReferences]
  | cons e es =>
    rw [collectAll, mem_collectAll es, mem_collect e, anyReferences, Bool.or_eq_true]
    tauto

end

/-- An expression depends on exactly the names that it reads. -/
theorem mem_dependencies {e : Expr} {n : String} :
    n ∈ e.dependencies ↔ e.references n = true := by
  rw [dependencies, mem_collect]
  simp

mutual

/-- The names that are free in an expression, one for each time they are read and from left to
right. The target of an update, what is called and what a method is called on are read; the names of
properties and methods are not, nor are the parameters of an arrow in its body. -/
def freeNames : Expr → List String
  | literal _ => []
  | ident name => [name]
  | binary _ left right => left.freeNames ++ right.freeNames
  | update target _ none => [target]
  | update target _ (some value) => target :: value.freeNames
  | member object _ => object.freeNames
  | method object _ args => object.freeNames ++ allFreeNames args
  | call callee args => callee :: allFreeNames args
  | arrow params body => body.freeNames.filter (!params.contains ·)
  | array elements => allFreeNames elements
  | spread inner => inner.freeNames

def allFreeNames : List Expr → List String
  | [] => []
  | e :: es => e.freeNames ++ allFreeNames es

end

theorem note_append (bound params found : List String) (name : String) :
    note (bound ++ params) found name =
      if !params.contains name then note bound found name else found := by
  unfold note
  by_cases hp : name ∈ params
  · simp [hp]
  · simp [hp]

mutual

/-- To collect the names of an expression is to note those that are free in it one by one. -/
theorem collect_eq_foldl (e : Expr) (bound found : List String) :
    e.collect bound found = e.freeNames.foldl (note bound) found := by
  cases e with
  | literal l => rfl
  | ident name => rfl
  | binary op left right =>
    rw [collect, freeNames, List.foldl_append, collect_eq_foldl left, collect_eq_foldl right]
  | update target op value? =>
    cases value? with
    | none => rfl
    | some value => rw [collect, freeNames, List.foldl_cons, collect_eq_foldl value]
  | member object property => rw [collect, freeNames, collect_eq_foldl object]
  | method object name args =>
    rw [collect, freeNames, List.foldl_append, collect_eq_foldl object, collectAll_eq_foldl args]
  | call callee args => rw [collect, freeNames, List.foldl_cons, collectAll_eq_foldl args]
  | arrow params body =>
    -- What the longer list of bound names keeps out is left out of the names instead.
    have hnote : note (bound ++ params) = fun found name =>
        if !params.contains name then note bound found name else found := by
      funext found name
      exact note_append bound params found name
    rw [collect, freeNames, List.foldl_filter, collect_eq_foldl body, hnote]
  | array elements => rw [collect, freeNames, collectAll_eq_foldl elements]
  | spread inner => rw [collect, freeNames, collect_eq_foldl inner]

theorem collectAll_eq_foldl (es : List Expr) (bound found : List String) :
    collectAll bound found es = (allFreeNames es).foldl (note bound) found := by
  cases es with
  | nil => rfl
  | cons e es =>
    rw [collectAll, allFreeNames, List.foldl_append, collect_eq_foldl e, collectAll_eq_foldl es]

end

/-- Names that are noted one by one stand behind those found before, without these and without
repeats. -/
theorem foldl_note (names found : List String) :
    names.foldl (note []) found = found ++ (names.filter (!found.contains ·)).eraseDups := by
  induction names generalizing found with
  | nil => simp
  | cons name names ih =>
    rw [List.foldl_cons, ih]
    by_cases hm : name ∈ found
    · have hnote : note [] found name = found := by simp [note, hm]
      rw [hnote, List.filter_cons_of_neg (by simp [hm])]
    · have hnote : note [] found name = found ++ [name] := by simp [note, hm]
      rw [hnote, List.filter_cons_of_pos (by simp [hm]), List.eraseDups_cons, List.filter_filter,
        List.append_assoc, List.singleton_append]
      congr 4
      funext n
      grind

theorem nodup_note {found : List String} (h : found.Nodup) (bound : List String) (name : String) :
    (note bound found name).Nodup := by
  unfold note
  split
  next => exact h
  next hnew =>
    simp only [Bool.or_eq_true, List.contains_iff_mem, not_or] at hnew
    refine List.nodup_append.mpr ⟨h, List.pairwise_singleton _ _, fun a ha b hb => ?_⟩
    obtain rfl := List.mem_singleton.mp hb
    rintro rfl
    exact hnew.2 ha

theorem nodup_dependencies (e : Expr) : e.dependencies.Nodup := by
  rw [dependencies, collect_eq_foldl]
  exact List.foldlRecOn (motive := List.Nodup) _ _ .nil fun _ h name _ => nodup_note h [] name

/-- An expression depends on the names that are free in it, in the order they are first read and
each once, and these are the names that it is said to read. -/
theorem dependencies_eq_freeNames (e : Expr) :
    e.dependencies.Nodup ∧ e.dependencies = e.freeNames.eraseDups ∧
      ∀ n, n ∈ e.dependencies ↔ e.references n = true := by
  refine ⟨e.nodup_dependencies, ?_, fun n => mem_dependencies⟩
  rw [dependencies, collect_eq_foldl, foldl_note]
  simp

/-- Behind the arrow that binds it a name is free again. -/
example : dependencies (.method (.method (.ident "items") "map"
    [.arrow ["item"] (.member (.ident "item") "id")]) "concat" [.array [.ident "item"]]) =
    ["items", "item"] := by
  decide

/-- What a handler does: of an arrow it is the body. -/
def handlerBody : Expr → Expr
  | arrow _ body => body
  | e => e

def handlerParams : Expr → List String
  | arrow params _ => params
  | _ => []

/-- What a statement does: of an arrow without parameters it is what its body does. -/
def statementBody : Expr → Expr
  | arrow [] body => body.statementBody
  | e => e

theorem references_handler (e : Expr) (n : String) :
    e.references n = (!e.handlerParams.contains n && e.handlerBody.references n) := by
  cases e with
  | arrow params body => rw [references, handlerParams, handlerBody]
  | _ => simp [handlerParams, handlerBody]

theorem references_statementBody (e : Expr) (n : String) :
    e.statementBody.references n = e.references n := by
  fun_induction statementBody e with
  | case1 body ih => rw [ih]; simp [references]
  | case2 e he => rfl

end Expr

namespace Component

/-- The state that an expression updates, if it is written as a call of the setter of the state. -/
def updated? (c : Component) : Expr → Option String
  | .update target _ _ => if c.isState target then some target else none
  | .method (.ident target) "push" _ =>
    if (c.state? target).any (·.isCollection) then some target else none
  | _ => none

/-- The value that an update of the state `target` gives to it. -/
def assigned (target : String) : Expr → Expr
  | .update _ .increment _ => .binary .add (.ident target) (.literal (.number "1"))
  | .update _ .decrement _ => .binary .sub (.ident target) (.literal (.number "1"))
  | .update _ .addAssign (some value) => .binary .add (.ident target) value
  | .method _ _ args => .array (.spread (.ident target) :: args)
  | _ => .ident target

/-- An expression with its update of a state, if it is one, as a call of the setter. -/
def lowered (c : Component) (e : Expr) : Expr :=
  match c.updated? e with
  | some target => .call (Names.setter target) [assigned target e]
  | none => e

theorem updated?_cases {c : Component} {e : Expr} {target : String}
    (h : c.updated? e = some target) :
    (∃ op value?, e = .update target op value? ∧ c.isState target = true) ∨
      ∃ args, e = .method (.ident target) "push" args ∧
        (c.state? target).any (·.isCollection) = true := by
  unfold updated? at h
  split at h
  next t op value? =>
    split at h
    next hstate =>
      cases h
      exact .inl ⟨op, value?, rfl, hstate⟩
    next => cases h
  next t args =>
    split at h
    next hstate =>
      cases h
      exact .inr ⟨args, rfl, hstate⟩
    next => cases h
  next => cases h

/-- The text of a call that gives the state `target` the value of the update `e`. -/
def setterCall (items : List String) (target : String) (e : Expr) : String :=
  Names.setter target ++ "(" ++ (assigned target e).render items ++ ")"

theorem updateCall?_of_updated {c : Component} {e : Expr} {target : String}
    (h : c.updated? e = some target) (items : List String) :
    c.updateCall? items e = some (setterCall items target e) := by
  unfold setterCall
  obtain ⟨op, value?, rfl, hstate⟩ | ⟨args, rfl, hstate⟩ := updated?_cases h
  · rw [updateCall?, if_pos hstate]
    refine congrArg some (String.toList_inj.mp ?_)
    cases op with
    | increment => simp [assigned, Expr.render, BinaryOp.text, Literal.render]
    | decrement => simp [assigned, Expr.render, BinaryOp.text, Literal.render]
    | addAssign =>
      cases value? with
      | none => simp [assigned, Expr.render]
      | some value => simp [assigned, Expr.render, BinaryOp.text]
  · rw [updateCall?, if_pos hstate]
    refine congrArg some (String.toList_inj.mp ?_)
    simp [assigned, Expr.render, Expr.renderAll]

theorem updateCall?_of_not_updated {c : Component} {e : Expr} (h : c.updated? e = none)
    (items : List String) : c.updateCall? items e = none := by
  unfold updateCall?
  split
  next target op value? =>
    have hstate : c.isState target = false := by simpa [updated?] using h
    rw [hstate, if_neg (by decide)]
  next target args =>
    have hstate : (c.state? target).any (·.isCollection) = false := by
      cases hs : (c.state? target).any (·.isCollection) with
      | false => rfl
      | true => rw [updated?, if_pos hs] at h; cases h
    rw [hstate, if_neg (by decide)]
  next => rfl

/-- The text of an update is that of the call it is written as. -/
theorem renderUpdate_eq (c : Component) (e : Expr) :
    c.renderUpdate [] e = (c.lowered e).render [] := by
  unfold renderUpdate lowered
  split
  next target h =>
    rw [updateCall?_of_updated h, Option.getD_some]
    rfl
  next h => rw [updateCall?_of_not_updated h, Option.getD_none]

end Component

namespace Phrase

theorem update_cases {target : String} {op : UpdateOp} {value? : Option Expr}
    (h : Phrase .whole (.update target op value?)) :
    isVariable target ∧ ((op ≠ .addAssign ∧ value? = none) ∨
      ∃ value, op = .addAssign ∧ value? = some value ∧ Phrase .whole value) := by
  cases h with
  | operand h =>
    rcases h.operand_cases with h | ⟨l, hl, _⟩
    · cases h
    · cases hl
  | step htarget hop => exact ⟨htarget, .inl ⟨hop, rfl⟩⟩
  | assign htarget hvalue => exact ⟨htarget, .inr ⟨_, rfl, rfl, hvalue⟩⟩

theorem arrow_cases {params : List String} {body : Expr} (h : Phrase .whole (.arrow params body)) :
    (∀ p ∈ params, isName p) ∧ Phrase .whole body := by
  cases h with
  | operand h =>
    rcases h.operand_cases with h | ⟨l, hl, _⟩
    · cases h
    · cases hl
  | arrow hparams hbody => exact ⟨hparams, hbody⟩

theorem method_cases {object : Expr} {name : String} {args : List Expr}
    (h : Phrase .whole (.method object name args)) :
    Phrase .chain object ∧ ∀ a ∈ args, Phrase .entry a := by
  cases h with
  | method hrole => exact absurd hrole (by decide)
  | operand h =>
    rcases h.operand_cases with h | ⟨l, hl, _⟩
    · cases h with
      | method _ hobject _ hargs => exact ⟨hobject, hargs⟩
    · cases hl

end Phrase

namespace Component

/-- Writing an update as a call adds the name of the setter and no other. -/
theorem lowered_references {c : Component} {e : Expr} (he : Phrase .whole e) (n : String) :
    (c.lowered e).references n = true ↔
      e.references n = true ∨ ∃ target ∈ c.updated? e, n = Names.setter target := by
  unfold lowered
  split
  next target h =>
    have hsetter : (∃ t ∈ c.updated? e, n = Names.setter t) ↔ Names.setter target = n := by
      simp [h, eq_comm]
    rw [hsetter]
    obtain ⟨op, value?, rfl, _⟩ | ⟨args, rfl, _⟩ := updated?_cases h
    · -- A step that is read has no value, so the call loses no name of one.
      obtain ⟨_, ⟨hop, rfl⟩ | ⟨value, rfl, rfl, _⟩⟩ := he.update_cases
      · cases op with
        | increment => simp [assigned, Expr.references, Expr.anyReferences, or_comm]
        | decrement => simp [assigned, Expr.references, Expr.anyReferences, or_comm]
        | addAssign => exact absurd rfl hop
      · simp [assigned, Expr.references, Expr.anyReferences, or_comm]
    · simp [assigned, Expr.references, Expr.anyReferences, or_comm]
  next h => simp [h]

theorem assigned_phrase {c : Component} {e : Expr} {target : String} (he : Phrase .whole e)
    (h : c.updated? e = some target) :
    isVariable target ∧ Phrase .whole (assigned target e) := by
  have hone : Phrase .whole (.literal (.number "1")) :=
    .operand (.literal (.inl ⟨'1', [], [], rfl, by decide, by simp, .inl rfl⟩))
  obtain ⟨op, value?, rfl, _⟩ | ⟨args, rfl, _⟩ := updated?_cases h
  · obtain ⟨htarget, hvalue⟩ := he.update_cases
    have hcurrent : Phrase .operand (.ident target) := .chain (.ident htarget)
    refine ⟨htarget, ?_⟩
    rcases hvalue with ⟨hop, rfl⟩ | ⟨value, rfl, rfl, hvalue⟩
    · cases op with
      | increment => exact .binary hcurrent hone
      | decrement => exact .binary hcurrent hone
      | addAssign => exact absurd rfl hop
    · exact .binary hcurrent hvalue
  · obtain ⟨hobject, hargs⟩ := he.method_cases
    have hspread : Phrase .entry (.spread (.ident target)) := .spread (.operand (.chain hobject))
    cases hobject with
    | ident htarget =>
      exact ⟨htarget, .operand (.chain (.array (List.forall_mem_cons.mpr ⟨hspread, hargs⟩)))⟩

/-- The call that an update is written as can be read as an expression. -/
theorem lowered_phrase {c : Component} {e : Expr} (he : Phrase .whole e) :
    Phrase .whole (c.lowered e) := by
  unfold lowered
  split
  next target h =>
    obtain ⟨htarget, hassigned⟩ := assigned_phrase he h
    have hsetter := isVariable_setter (isVariable_isName htarget)
    exact .operand (.chain (.call hsetter (List.forall_mem_singleton.mpr (.whole hassigned))))
  next => exact he

/-- A handler is written as an arrow, with its own parameters if it is one. -/
theorem renderHandler_eq (c : Component) (e : Expr) :
    c.renderHandler [] e = (Expr.arrow e.handlerParams (c.lowered e.handlerBody)).render [] := by
  have hshadow : shadow [] e.handlerParams = [] := rfl
  have hnone : "() => " = renderParams [] ++ " => " := by decide
  rw [Expr.render, hshadow, ← renderUpdate_eq]
  cases e with
  | arrow params body => rfl
  | _ => exact congrArg (· ++ _) hnone

theorem renderStatement_eq (c : Component) (e : Expr) :
    c.renderStatement e = (c.lowered e.statementBody).render [] := by
  fun_induction Expr.statementBody e with
  | case1 body ih => rw [renderStatement, ih]
  | case2 e he => rw [renderStatement.eq_2 c e he, renderUpdate_eq]

end Component

namespace Phrase

theorem handler {e : Expr} (h : Phrase .whole e) :
    (∀ p ∈ e.handlerParams, isName p) ∧ Phrase .whole e.handlerBody := by
  cases e with
  | arrow params body => exact h.arrow_cases
  | _ => exact ⟨by simp [Expr.handlerParams], h⟩

theorem statementBody {e : Expr} (h : Phrase .whole e) : Phrase .whole e.statementBody := by
  fun_induction Expr.statementBody e with
  | case1 body ih => exact ih h.arrow_cases.2
  | case2 e he => exact h

end Phrase

end Sigil

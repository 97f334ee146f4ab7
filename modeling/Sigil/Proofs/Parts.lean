import Mathlib.Logic.Relation
import Sigil.Proofs.LineTexts

namespace Sigil

/-- What is reached from a whole by going down to parts any number of times. -/
def Within {α : Type} (parts : α → List α) (whole part : α) : Prop :=
  Relation.ReflTransGen (fun a b => b ∈ parts a) whole part

namespace Within

variable {α : Type} {parts : α → List α} {whole part : α}

/-- What passes from a whole to its parts holds of all that is within the whole. -/
theorem of_step {P : α → Prop} (hstep : ∀ a, P a → ∀ b ∈ parts a, P b)
    (h : Within parts whole part) (hwhole : P whole) : P part := by
  induction h with
  | refl => exact hwhole
  | tail _ hpart ih => exact hstep _ ih _ hpart

/-- What holds of a whole and of all that is within its parts holds of all within the whole. -/
theorem forall_of_parts {P : α → Prop} (hwhole : P whole)
    (hparts : ∀ a ∈ parts whole, ∀ b, Within parts a b → P b) :
    ∀ b, Within parts whole b → P b := by
  intro b hb
  rcases Relation.ReflTransGen.cases_head hb with rfl | ⟨a, ha, hb⟩
  · exact hwhole
  · exact hparts a ha b hb

end Within

namespace TypeExpr

/-- The types that a type is made of. -/
def parts : TypeExpr → List TypeExpr
  | simple _ => []
  | array _ => []
  | union members => members
  | generic _ params => params

/-- The texts of a type, those of its parts left out. -/
def texts : TypeExpr → List String
  | simple name => [name]
  | array element => [element]
  | union _ => []
  | generic name _ => [name]

theorem Spelled.of_mem_parts {t : TypeExpr} (h : t.Spelled) : ∀ u ∈ t.parts, u.Spelled := by
  cases h with
  | simple _ => exact fun u hu => by cases hu
  | array _ => exact fun u hu => by cases hu
  | union hmembers => exact hmembers
  | generic _ hparams => exact hparams

theorem Spelled.oneLine {t : TypeExpr} (h : t.Spelled) : ∀ s ∈ t.texts, OneLine s := by
  cases h with
  | simple hname => exact List.forall_mem_singleton.mpr hname
  | array helement => exact List.forall_mem_singleton.mpr helement
  | union _ => exact fun s hs => by cases hs
  | generic hname _ => exact List.forall_mem_singleton.mpr hname

end TypeExpr

namespace Expr

/-- The expressions in an expression that are no entries of a bracketed list. -/
def operands : Expr → List Expr
  | literal _ => []
  | ident _ => []
  | binary _ left right => [left, right]
  | update _ _ value => value.toList
  | member object _ => [object]
  | method object _ _ => [object]
  | call _ _ => []
  | arrow _ body => [body]
  | array _ => []
  | spread inner => [inner]

/-- The entries of the bracketed list of an array or of what is called. -/
def entries : Expr → List Expr
  | method _ _ args => args
  | call _ args => args
  | array elements => elements
  | _ => []

def parts (e : Expr) : List Expr := e.operands ++ e.entries

/-- The texts of an expression, those of its parts left out. -/
def texts : Expr → List String
  | literal (.string s) => [s]
  | literal (.number spelling) => [spelling]
  | literal _ => []
  | ident name => [name]
  | binary _ _ _ => []
  | update target _ _ => [target]
  | member _ property => [property]
  | method _ name _ => [name]
  | call callee _ => [callee]
  | arrow params _ => params
  | array _ => []
  | spread _ => []

/-- The variable that is read, called or updated. -/
def name? : Expr → Option String
  | ident name => some name
  | call callee _ => some callee
  | update target _ _ => some target
  | _ => none

def isSpread : Expr → Bool
  | spread _ => true
  | _ => false

/-- Whether an expression can stand on the left of an operator. -/
def isOperand : Expr → Bool
  | binary _ _ _ => false
  | update _ _ _ => false
  | arrow _ _ => false
  | spread _ => false
  | _ => true

/-- Whether members can be read off an expression. -/
def isObject : Expr → Bool
  | ident _ => true
  | call _ _ => true
  | member _ _ => true
  | method _ _ _ => true
  | array _ => true
  | _ => false

/-- What stands on the left of an operator, before a dot and behind an update. -/
def Shaped : Expr → Prop
  | binary _ left _ => left.isOperand
  | update _ op value => value.isSome ↔ op = .addAssign
  | member object _ => object.isObject
  | method object _ _ => object.isObject
  | _ => True

/-- No variable within an expression has the name of a literal. -/
def Named (e : Expr) : Prop :=
  ∀ p, Within parts e p → ∀ name ∈ p.name?, name ∉ ["true", "false", "null", "undefined"]

end Expr

def Suffix.args : Suffix → List Expr
  | member _ => []
  | method _ args => args

namespace Phrase

variable {role : Role} {e : Expr}

theorem isObject (hrole : role.isObject) (h : Phrase role e) : e.isObject := by
  cases h with
  | source | ident | call | array | member | method => rfl
  | _ => cases hrole

theorem isOperand (h : Phrase .operand e) : e.isOperand := by
  rcases h.operand_cases with h | ⟨l, rfl, _⟩
  · cases h <;> rfl
  · rfl

theorem not_isSpread (h : Phrase role e) (hrole : role ≠ .entry) : e.isSpread = false := by
  induction h with
  | chain _ ih => exact ih nofun
  | operand _ ih => exact ih nofun
  | whole | spread => exact absurd rfl hrole
  | _ => rfl

theorem shaped (h : Phrase role e) : e.Shaped := by
  induction h with
  | chain _ ih => exact ih
  | operand _ ih => exact ih
  | whole _ ih => exact ih
  | member hrole hobject => exact hobject.isObject hrole
  | method hrole hobject => exact hobject.isObject hrole
  | binary hleft => exact hleft.isOperand
  | step _ hop => simp [Expr.Shaped, hop]
  | assign => simp [Expr.Shaped]
  | _ => trivial

theorem of_mem_entries (h : Phrase role e) : ∀ p ∈ e.entries, Phrase .entry p := by
  induction h with
  | chain _ ih => exact ih
  | operand _ ih => exact ih
  | whole _ ih => exact ih
  | call _ hargs => exact hargs
  | array helements => exact helements
  | method _ _ _ hargs => exact hargs
  | _ => exact fun p hp => by cases hp

/-- An operand of a phrase is a phrase and no entry, and only the source of a loop has an operand
that is read like the source of a loop. -/
theorem of_mem_operands (h : Phrase role e) :
    ∀ p ∈ e.operands, ∃ role', role' ≠ .entry ∧ (role' = .source → role = .source) ∧
      Phrase role' p := by
  have ofWhole {role : Role} {p : Expr} (hp : Phrase .whole p) :
      ∃ role', role' ≠ .entry ∧ (role' = .source → role = .source) ∧ Phrase role' p :=
    ⟨.whole, nofun, nofun, hp⟩
  have ofObject {role : Role} {p : Expr} (hrole : role.isObject) (hp : Phrase role p) :
      ∃ role', role' ≠ .entry ∧ (role' = .source → role = .source) ∧ Phrase role' p := by
    refine ⟨role, ?_, id, hp⟩
    rintro rfl
    cases hrole
  induction h with
  | chain _ ih | operand _ ih | whole _ ih =>
    intro p hp
    obtain ⟨role', hentry, hsource, hphrase⟩ := ih p hp
    exact ⟨role', hentry, fun hrole => absurd (hsource hrole) nofun, hphrase⟩
  | member hrole hobject => exact List.forall_mem_singleton.mpr (ofObject hrole hobject)
  | method hrole hobject => exact List.forall_mem_singleton.mpr (ofObject hrole hobject)
  | binary hleft hright =>
    exact List.forall_mem_cons.mpr
      ⟨ofWhole (.operand hleft), List.forall_mem_singleton.mpr (ofWhole hright)⟩
  | assign _ hvalue => exact List.forall_mem_singleton.mpr (ofWhole hvalue)
  | arrow _ hbody => exact List.forall_mem_singleton.mpr (ofWhole hbody)
  | spread hinner => exact List.forall_mem_singleton.mpr (ofWhole hinner)
  | _ => exact fun p hp => by cases hp

theorem operand_not_isSpread (h : Phrase role e) : ∀ p ∈ e.operands, p.isSpread = false := by
  intro p hp
  obtain ⟨role', hentry, _, hphrase⟩ := h.of_mem_operands p hp
  exact hphrase.not_isSpread hentry

/-- What is within a phrase is a phrase, and only within the source of a loop is there anything that
is read like the source of a loop. -/
theorem of_within {p : Expr} (h : Phrase role e) (hp : Within Expr.parts e p) :
    ∃ role', (role' = .source → role = .source) ∧ Phrase role' p := by
  refine hp.of_step (P := fun p => ∃ role', (role' = .source → role = .source) ∧ Phrase role' p)
    ?_ ⟨role, id, h⟩
  rintro a ⟨role', hrole, ha⟩ b hb
  rcases List.mem_append.mp hb with hb | hb
  · obtain ⟨role'', _, hsource, hphrase⟩ := ha.of_mem_operands b hb
    exact ⟨role'', fun h => hrole (hsource h), hphrase⟩
  · exact ⟨.entry, nofun, ha.of_mem_entries b hb⟩

theorem name_not_literal (h : Phrase role e) (hrole : role ≠ .source) :
    ∀ name ∈ e.name?, name ∉ ["true", "false", "null", "undefined"] := by
  have free {name : String} (hname : isVariable name) :
      ∀ s ∈ some name, s ∉ ["true", "false", "null", "undefined"] := by
    rintro s ⟨rfl⟩ hmem
    have hliteral : (["true", "false", "null", "undefined"].all fun s => !isVariable s) = true := by
      decide
    have hno := List.all_eq_true.mp hliteral name hmem
    rw [hname] at hno
    cases hno
  induction h with
  | source _ => exact absurd rfl hrole
  | chain _ ih => exact ih nofun
  | operand _ ih => exact ih nofun
  | whole _ ih => exact ih nofun
  | ident hname => exact free hname
  | call hname => exact free hname
  | step hname => exact free hname
  | assign hname => exact free hname
  | _ => exact fun name hname => by cases hname

theorem named (h : Phrase role e) (hrole : role ≠ .source) : e.Named := by
  intro p hp
  obtain ⟨role', hsource, hphrase⟩ := h.of_within hp
  exact hphrase.name_not_literal fun h => hrole (hsource h)

/-- The source of a loop is a name with members and methods read off it. -/
theorem source_cases (h : Phrase .source e) :
    ∃ (name : String) (suffixes : List Suffix),
      e = suffixes.foldl Suffix.apply (.ident name) ∧ ∀ s ∈ suffixes, s.Spelled := by
  generalize hsource : Role.source = role at h
  induction h with
  | @source name _ => exact ⟨name, [], rfl, by simp⟩
  | @member role object property _ _ hname ih =>
    obtain ⟨name, suffixes, rfl, hs⟩ := ih hsource
    refine ⟨name, suffixes ++ [.member property], by simp [Suffix.apply], ?_⟩
    exact List.forall_mem_append.mpr ⟨hs, List.forall_mem_singleton.mpr hname⟩
  | @method role object method args _ _ hname hargs ih _ =>
    obtain ⟨name, suffixes, rfl, hs⟩ := ih hsource
    refine ⟨name, suffixes ++ [.method method args], by simp [Suffix.apply], ?_⟩
    exact List.forall_mem_append.mpr ⟨hs, List.forall_mem_singleton.mpr ⟨hname, hargs⟩⟩
  | _ => cases hsource

theorem oneLine (h : Phrase role e) : ∀ s ∈ e.texts, OneLine s := by
  have ofName {name : String} (hname : isName name) : ∀ s ∈ [name], OneLine s :=
    List.forall_mem_singleton.mpr (Token.oneLine_of_isName hname)
  have ofVariable {name : String} (hname : isVariable name) : ∀ s ∈ [name], OneLine s :=
    ofName (isVariable_isName hname)
  induction h with
  | chain _ ih => exact ih
  | operand _ ih => exact ih
  | whole _ ih => exact ih
  | source hname => exact ofName hname
  | member _ _ hname => exact ofName hname
  | method _ _ hname => exact ofName hname
  | ident hname => exact ofVariable hname
  | call hname => exact ofVariable hname
  | step hname => exact ofVariable hname
  | assign hname => exact ofVariable hname
  | arrow hparams => exact fun s hs => Token.oneLine_of_isName (hparams s hs)
  | @literal l hl =>
    cases l with
    | string s => exact List.forall_mem_singleton.mpr hl
    | number s => exact List.forall_mem_singleton.mpr hl.oneLine_render
    | _ => exact fun s hs => by cases hs
  | _ => exact fun s hs => by cases hs

end Phrase

namespace Declaration

/-- The expressions of a declaration, each with the role it is read in. -/
def exprs : Declaration → List (Role × Expr)
  | prop d => d.default?.toList.map (.whole, ·)
  | state d => [(.whole, d.initial)]
  | reducer d => (.whole, d.initial) :: d.actions.map (.whole, ·.value)
  | transition _ => []
  | deferred d => [(.whole, d.source)]
  | optimistic d => [(.entry, d.state), (.entry, d.update)]
  | memo d => [(.whole, d.value)]
  | effect d | layoutEffect d => (.whole, d.body) :: (d.deps?.getD []).map (.entry, ·)
  | event d => [(.whole, d.handler)]
  | callback d => [(.whole, d.value)]
  | handle d => d.methods.map (.whole, ·.value)
  | ref d => d.initial?.toList.map (.whole, ·)
  | context _ => []
  | id _ => []
  | store d =>
    (.entry, d.subscribe) :: (.entry, d.snapshot) :: d.serverSnapshot?.toList.map (.entry, ·)
  | action d => [(.entry, d.action), (.entry, d.initial)]

/-- The type that a declaration gives. -/
def type? : Declaration → Option TypeExpr
  | prop d => d.type?
  | state d => d.type?
  | reducer d => d.type?
  | deferred d => d.type?
  | optimistic d => d.type?
  | memo d => d.type?
  | ref d => d.type?
  | context d => d.type?
  | store d => d.type?
  | action d => d.type?
  | _ => none

/-- The texts of a declaration, those of its type and its expressions left out. -/
def texts : Declaration → List String
  | prop d => [d.name]
  | state d => [d.name]
  | reducer d => d.name :: d.actions.map (·.key)
  | transition d => [d.name]
  | deferred d => [d.name]
  | optimistic d => [d.name]
  | memo d => [d.name]
  | effect _ | layoutEffect _ => []
  | event d => [d.name]
  | callback d => [d.name]
  | handle d => d.name :: d.methods.map (·.key)
  | ref d => [d.name]
  | context d => [d.name, d.source]
  | id d => [d.name]
  | store d => [d.name]
  | action d => [d.name]

variable {d : Declaration}

theorem Spelled.phrase (h : d.Spelled) : ∀ x ∈ d.exprs, Phrase x.1 x.2 := by
  cases d with
  | effect d | layoutEffect d =>
    refine List.forall_mem_cons.mpr ⟨h.2, List.forall_mem_map.mpr fun e he => ?_⟩
    cases hdeps : d.deps? with
    | none => rw [hdeps] at he; cases he
    | some es => rw [hdeps] at he; exact h.1 es hdeps e he
  | _ => simp_all [exprs, Spelled, KeyedEntry.Spelled]

theorem Spelled.type (h : d.Spelled) : ∀ t ∈ d.type?, t.Spelled := by
  cases d <;> simp_all [type?, Spelled]

theorem Spelled.oneLine (h : d.Spelled) : ∀ s ∈ d.texts, OneLine s := by
  cases d <;> simp_all [texts, Spelled, Token.oneLine_of_isName, KeyedEntry.Spelled]

end Declaration

/-- The expression that an attribute is set to. -/
def AttributeValue.expr? : AttributeValue → Option Expr
  | expr e => some e
  | inlineHandler e => some e
  | _ => none

def AttributeValue.text? : AttributeValue → Option String
  | text s => some s
  | handler name => some name
  | _ => none

def Attribute.texts (a : Attribute) : List String := a.name :: a.value.text?.toList

namespace Attribute

variable {a : Attribute}

theorem Spelled.phrase (h : a.Spelled) : ∀ e ∈ a.value.expr?, Phrase .whole e := by
  obtain ⟨name, value⟩ := a
  cases value <;> simp_all [AttributeValue.expr?, Spelled, AttributeValue.Spelled]

theorem Spelled.oneLine (h : a.Spelled) : ∀ s ∈ a.texts, OneLine s := by
  obtain ⟨name, value⟩ := a
  cases value <;> simp_all [texts, AttributeValue.text?, Spelled, AttributeValue.Spelled,
    Token.oneLine_of_isName]

end Attribute

namespace Markup

/-- The children of a tree; a loop has its template. -/
def parts : Markup → List Markup
  | element e => e.children
  | fragment children _ => children
  | interpolation _ => []
  | text _ => []
  | each _ _ _ template => [.element template]

/-- The expressions of a tree, those of its parts left out, each with the role it is read in. -/
def exprs : Markup → List (Role × Expr)
  | element e => e.attributes.filterMap fun a => a.value.expr?.map (.whole, ·)
  | interpolation e => [(.whole, e)]
  | each _ _ source _ => [(.source, source)]
  | _ => []

def type? : Markup → Option TypeExpr
  | each _ itemType _ _ => itemType
  | _ => none

/-- The texts of a tree, those of its parts, its type and its expressions left out. -/
def texts : Markup → List String
  | element e => e.tag :: e.attributes.flatMap (·.texts)
  | text s => [s]
  | each binding _ _ _ => [binding]
  | _ => []

variable {m : Markup}

theorem Spelled.of_mem_parts (h : m.Spelled) : ∀ n ∈ m.parts, n.Spelled := by
  cases h with
  | element _ _ hchildren => exact hchildren
  | fragment hchildren => exact hchildren
  | interpolation _ | text _ => exact fun n hn => by cases hn
  | each _ _ _ htemplate => exact List.forall_mem_singleton.mpr htemplate

theorem Spelled.phrase (h : m.Spelled) : ∀ x ∈ m.exprs, Phrase x.1 x.2 := by
  cases h with
  | element _ hattributes _ =>
    intro x hx
    obtain ⟨a, ha, hx⟩ := List.mem_filterMap.mp hx
    obtain ⟨e, he, rfl⟩ := Option.map_eq_some_iff.mp hx
    exact (hattributes a ha).phrase e he
  | interpolation he => exact List.forall_mem_singleton.mpr he
  | each _ _ hsource _ => exact List.forall_mem_singleton.mpr hsource
  | _ => exact fun x hx => by cases hx

theorem Spelled.type (h : m.Spelled) : ∀ t ∈ m.type?, t.Spelled := by
  cases h with
  | each _ htype _ _ => exact htype
  | _ => exact fun t ht => by cases ht

theorem Spelled.oneLine (h : m.Spelled) : ∀ s ∈ m.texts, OneLine s := by
  cases h with
  | element htag hattributes _ =>
    refine List.forall_mem_cons.mpr ⟨htag, fun s hs => ?_⟩
    obtain ⟨a, ha, hs⟩ := List.mem_flatMap.mp hs
    exact (hattributes a ha).oneLine s hs
  | text hs => exact List.forall_mem_singleton.mpr hs
  | each hbinding _ _ _ =>
    exact List.forall_mem_singleton.mpr (Token.oneLine_of_isName hbinding)
  | _ => exact fun s hs => by cases hs

end Markup

end Sigil

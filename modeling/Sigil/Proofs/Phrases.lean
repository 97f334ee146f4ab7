import Sigil.Grammar.Expressions
import Sigil.Proofs.Rules
import Sigil.Proofs.Tokens

namespace Sigil

/-- Whether a text is spelled like an identifier that stands for no literal. -/
def isVariable (s : String) : Bool := isName s && (Rule.literalWord? s).isNone

/-- What a literal that is read off one line can hold. -/
def Literal.Spelled : Literal → Prop
  | string s => OneLine s
  | number s => IsNumeral s.toList ∨ ∃ ds, s.toList = '-' :: ds ∧ IsNumeral ds
  | _ => True

/-- What an expression is read as: the source of a loop, what members can be read off, the left side
of an operator, a whole expression, or an entry of a list. -/
inductive Role where
  | source | chain | operand | whole | entry
deriving DecidableEq, Repr

/-- Whether members can be read off what is in the role. -/
def Role.isObject : Role → Bool
  | source => true
  | chain => true
  | _ => false

/-- The expressions that can be read, by the role they are read in. -/
inductive Phrase : Role → Expr → Prop where
  | source {name : String} : isName name → Phrase .source (.ident name)
  | ident {name : String} : isVariable name → Phrase .chain (.ident name)
  | call {callee : String} {args : List Expr} :
      isVariable callee → (∀ e ∈ args, Phrase .entry e) → Phrase .chain (.call callee args)
  | array {elements : List Expr} :
      (∀ e ∈ elements, Phrase .entry e) → Phrase .chain (.array elements)
  | member {role : Role} {object : Expr} {property : String} :
      role.isObject → Phrase role object → isName property → Phrase role (.member object property)
  | method {role : Role} {object : Expr} {name : String} {args : List Expr} :
      role.isObject → Phrase role object → isName name → (∀ e ∈ args, Phrase .entry e) →
      Phrase role (.method object name args)
  | chain {e : Expr} : Phrase .chain e → Phrase .operand e
  | literal {l : Literal} : l.Spelled → Phrase .operand (.literal l)
  | operand {e : Expr} : Phrase .operand e → Phrase .whole e
  | binary {op : BinaryOp} {left right : Expr} :
      Phrase .operand left → Phrase .whole right → Phrase .whole (.binary op left right)
  | step {target : String} {op : UpdateOp} :
      isVariable target → op ≠ .addAssign → Phrase .whole (.update target op none)
  | assign {target : String} {value : Expr} :
      isVariable target → Phrase .whole value →
      Phrase .whole (.update target .addAssign (some value))
  | arrow {params : List String} {body : Expr} :
      (∀ p ∈ params, isName p) → Phrase .whole body → Phrase .whole (.arrow params body)
  | whole {e : Expr} : Phrase .whole e → Phrase .entry e
  | spread {e : Expr} : Phrase .whole e → Phrase .entry (.spread e)

namespace Phrase

theorem entry_cases {e : Expr} (h : Phrase .entry e) :
    Phrase .whole e ∨ ∃ inner, e = .spread inner ∧ Phrase .whole inner := by
  cases h with
  | member hrole | method hrole => exact absurd hrole (by decide)
  | whole h => exact .inl h
  | spread h => exact .inr ⟨_, rfl, h⟩

theorem operand_cases {e : Expr} (h : Phrase .operand e) :
    Phrase .chain e ∨ ∃ l, e = .literal l ∧ l.Spelled := by
  cases h with
  | member hrole | method hrole => exact absurd hrole (by decide)
  | chain h => exact .inl h
  | literal h => exact .inr ⟨_, rfl, h⟩

end Phrase

/-- What holds of a dot and what follows it. -/
def Suffix.Spelled : Suffix → Prop
  | member property => isName property
  | method name args => isName name ∧ ∀ e ∈ args, Phrase .entry e

theorem Phrase.suffixes {role : Role} {object : Expr} {suffixes : List Suffix}
    (hrole : role.isObject) (ho : Phrase role object) (hs : ∀ s ∈ suffixes, s.Spelled) :
    Phrase role (suffixes.foldl Suffix.apply object) := by
  induction suffixes generalizing object with
  | nil => exact ho
  | cons s suffixes ih =>
    obtain ⟨hfirst, hothers⟩ := List.forall_mem_cons.mp hs
    refine ih ?_ hothers
    cases s with
    | member property => exact .member hrole ho hfirst
    | method name args => exact .method hrole ho hfirst.1 hfirst.2

theorem Lexeme.Scanned.oneLine_content {t : Lexeme} (ht : t.Scanned) (hk : t.kind = .string) :
    OneLine t.content := by
  have hflat := ht.oneLine (by simp [hk])
  have hvalue := ht.value
  rw [hk] at hvalue
  simp only [OneLine, content, hvalue, Token.valueOf, String.toList_ofList]
  intro hm
  have hinner := Token.mem_unescape hm
  exact hflat (List.mem_of_mem_drop (List.mem_of_mem_dropLast hinner))

namespace Rule

open Sigil.Parser

variable {expr : Rule Expr}

instance : SuffixClosed Lexeme.AllScanned where
  of_suffix hrest hts t ht := hts t (hrest.subset ht)

theorem yields_scanned (k : Kind) (expected : String) :
    Yields Lexeme.AllScanned (take k expected) (fun t => t.Scanned ∧ t.kind = k) :=
  (yields_take k expected).mono fun t ht => ⟨ht.1.elim fun _ hts => hts t (by simp), ht.2⟩

theorem yields_ident (expected : String) :
    Yields Lexeme.AllScanned (ident expected) (fun s => isName s) := by
  unfold ident
  refine yields_bind (yields_scanned .ident expected) fun t ht => ?_
  exact yields_pure (ht.1.name ht.2)

theorem yields_listItem (he : Yields Lexeme.AllScanned expr (Phrase .whole)) :
    Yields Lexeme.AllScanned (listItem expr) (Phrase .entry) := by
  unfold listItem
  refine yields_bind (yields_eat _) fun spread _ => ?_
  split
  · exact yields_bind he fun e h => yields_pure (.spread h)
  · exact he.mono fun e h => .whole h

theorem yields_listRound (he : Yields Lexeme.AllScanned expr (Phrase .whole)) (close : Symbol) :
    Yields Lexeme.AllScanned (listRound expr close) (Round.All (Phrase .entry)) := by
  unfold listRound
  refine yields_bind yields_skipNewlines fun _ _ => ?_
  refine yields_bind (yields_eat _) fun closed _ => ?_
  split
  · exact yields_pure trivial
  · refine yields_bind (yields_listItem he) fun item hitem => ?_
    refine yields_bind yields_skipNewlines fun _ _ => ?_
    refine yields_bind (yields_eat _) fun more _ => ?_
    split
    · exact yields_pure hitem
    · exact yields_bind (yields_expect _) fun _ _ => yields_pure hitem

theorem yields_list (he : Yields Lexeme.AllScanned expr (Phrase .whole)) (opening close : Symbol) :
    Yields Lexeme.AllScanned (list expr opening close) (fun es => ∀ e ∈ es, Phrase .entry e) := by
  unfold list
  exact yields_bind (yields_expect _) fun _ _ => yields_many (yields_listRound he close)

theorem yields_suffixRound (he : Yields Lexeme.AllScanned expr (Phrase .whole)) :
    Yields Lexeme.AllScanned (suffixRound expr) (Round.All Suffix.Spelled) := by
  unfold suffixRound
  refine yields_bind (yields_eat _) fun dot _ => ?_
  split
  · refine yields_bind (yields_ident _) fun name hname => ?_
    refine yields_bind yields_kind fun k _ => ?_
    split
    · exact yields_bind (yields_list he _ _) fun args hargs => yields_pure ⟨hname, hargs⟩
    · exact yields_pure hname
  · exact yields_pure trivial

theorem yields_memberChain {role : Role} {object : Expr}
    (he : Yields Lexeme.AllScanned expr (Phrase .whole)) (hrole : role.isObject)
    (ho : Phrase role object) :
    Yields Lexeme.AllScanned (memberChain expr object) (Phrase role) := by
  unfold memberChain
  refine yields_bind (yields_many (yields_suffixRound he)) fun suffixes hs => ?_
  exact yields_pure (.suffixes hrole ho hs)

theorem yields_operation {left : Expr} (he : Yields Lexeme.AllScanned expr (Phrase .whole))
    (hl : Phrase .operand left) :
    Yields Lexeme.AllScanned (operation expr left) (Phrase .whole) := by
  unfold operation
  refine yields_bind yields_kind fun k _ => ?_
  split
  · refine yields_bind yields_skip fun _ _ => ?_
    exact yields_bind he fun right hr => yields_pure (.binary hl hr)
  · exact yields_pure (.operand hl)

theorem yields_chained {object : Expr} (he : Yields Lexeme.AllScanned expr (Phrase .whole))
    (ho : Phrase .chain object) :
    Yields Lexeme.AllScanned (memberChain expr object >>= operation expr) (Phrase .whole) :=
  yields_bind (yields_memberChain he rfl ho) fun _ h => yields_operation he (.chain h)

theorem literalWord_spelled {name : String} {l : Literal} (h : literalWord? name = some l) :
    l.Spelled := by
  unfold literalWord? at h
  split at h <;> cases h <;> trivial

theorem yields_identExpr (he : Yields Lexeme.AllScanned expr (Phrase .whole)) :
    Yields Lexeme.AllScanned (identExpr expr) (Phrase .whole) := by
  unfold identExpr
  refine yields_bind (yields_ident _) fun name hname => ?_
  split
  next l hl => exact yields_operation he (.literal (literalWord_spelled hl))
  next hl =>
    have hvar : isVariable name := by
      have hnone : literalWord? name = none := Option.eq_none_iff_forall_ne_some.mpr hl
      simp [isVariable, hname, hnone]
    refine yields_bind yields_kind fun k _ => ?_
    split
    · refine yields_bind yields_skip fun _ _ => ?_
      exact yields_bind he fun body hb => yields_pure (.arrow (by simpa using hname) hb)
    · exact yields_bind yields_skip fun _ _ => yields_pure (.step hvar (by simp))
    · exact yields_bind yields_skip fun _ _ => yields_pure (.step hvar (by simp))
    · refine yields_bind yields_skip fun _ _ => ?_
      exact yields_bind he fun value hv => yields_pure (.assign hvar hv)
    · refine yields_bind (yields_list he _ _) fun args hargs => ?_
      exact yields_chained he (.call hvar hargs)
    · exact yields_chained he (.ident hvar)

theorem yields_paramRound :
    Yields Lexeme.AllScanned paramRound (Round.All fun p => isName p) := by
  unfold paramRound
  refine yields_bind (yields_ident _) fun param hparam => ?_
  refine yields_bind (yields_eat _) fun more _ => ?_
  split
  · exact yields_pure hparam
  · exact yields_bind (yields_expect _) fun _ _ => yields_pure hparam

theorem yields_arrowExpr (he : Yields Lexeme.AllScanned expr (Phrase .whole)) :
    Yields Lexeme.AllScanned (arrowExpr expr) (Phrase .whole) := by
  have hparams : Yields Lexeme.AllScanned params (fun ps => ∀ p ∈ ps, isName p) := by
    unfold params
    refine yields_bind (yields_expect _) fun _ _ => ?_
    refine yields_bind (yields_eat _) fun closed _ => ?_
    split
    · exact yields_pure (by simp)
    · exact yields_many yields_paramRound
  unfold arrowExpr
  refine yields_bind hparams fun ps hps => ?_
  refine yields_bind (yields_expect _) fun _ _ => ?_
  exact yields_bind he fun body hb => yields_pure (.arrow hps hb)

theorem yields_expressionStep (he : Yields Lexeme.AllScanned expr (Phrase .whole)) :
    Yields Lexeme.AllScanned (expressionStep expr) (Phrase .whole) := by
  unfold expressionStep
  refine yields_bind yields_kind fun k _ => ?_
  split
  · refine yields_bind (yields_scanned _ _) fun t ht => ?_
    exact yields_operation he (.literal (ht.1.oneLine_content ht.2))
  · refine yields_bind (yields_scanned _ _) fun t ht => ?_
    exact yields_operation he (.literal (.inl (ht.1.numeral ht.2)))
  · refine yields_get fun ts _ => ?_
    split
    · refine yields_bind yields_skip fun _ _ => ?_
      refine yields_bind (yields_scanned _ _) fun t ht => ?_
      exact yields_operation he (.literal (.inr ⟨_, by simp, ht.1.numeral ht.2⟩))
    · exact yields_unexpected _
  · exact yields_identExpr he
  · refine yields_bind (yields_list he _ _) fun elements helements => ?_
    exact yields_chained he (.array helements)
  · exact yields_arrowExpr he
  · exact yields_unexpected _

/-- Only phrases are read as expressions. -/
theorem yields_expression : Yields Lexeme.AllScanned expression (Phrase .whole) := by
  unfold expression
  exact yields_nest (yields_unexpected _) fun part => yields_expressionStep

theorem yields_braced : Yields Lexeme.AllScanned braced (Phrase .whole) := by
  unfold braced
  refine yields_bind (yields_expect _) fun _ _ => ?_
  refine yields_bind yields_skipNewlines fun _ _ => ?_
  refine yields_bind yields_expression fun e he => ?_
  refine yields_bind yields_skipNewlines fun _ _ => ?_
  exact yields_bind (yields_expect _) fun _ _ => yields_pure he

end Rule

end Sigil

import Sigil.Grammar.Unit
import Sigil.Proofs.Rules

namespace Sigil

namespace Rule

open Sigil.Parser

/-- The children that are read under one parent are what is read as a node, an expression in braces
or a text. -/
theorem yields_childRound {I : List Lexeme → Prop} [SuffixClosed I] {P : Markup → Prop}
    {node : Rule Markup} (hnode : Yields I node P)
    (htext : ∀ startsLine, Yields I (textRun startsLine) P)
    (hbraced : Yields I braced (fun e => P (.interpolation e))) (parent : String) :
    Yields I (childRound node parent) (Round.All P) := by
  unfold childRound
  refine yields_bind yields_kind fun front _ => ?_
  refine yields_bind yields_skipNewlines fun _ _ => ?_
  refine yields_bind yields_kind fun k _ => ?_
  split
  · exact yields_unexpected _
  · refine yields_get fun ts _ => ?_
    split
    · exact yields_pure trivial
    · exact yields_bind hnode fun m hm => yields_pure hm
  · exact yields_bind hbraced fun e he => yields_pure he
  · exact yields_unexpected _
  · exact yields_unexpected _
  · exact yields_bind (htext _) fun m hm => yields_pure hm

/-- A property of trees, which may depend on the variables of the loops around a tree, that each
form of tree takes over from the parts that are read for it. -/
structure Inherited (I : List Lexeme → Prop) (Name : String → Prop) (Attr : Attribute → Prop)
    (Ident : String → Prop) (Type? : Option TypeExpr → Prop) (Source : Expr → Prop)
    (P : List String → Markup → Prop) (Siblings : List String → List Markup → Prop) : Prop where
  name (expected : String) : Yields I (hyphenated expected) Name
  attr : Yields I attributeRound (Round.All Attr)
  siblings {outer : List String} {node : Rule Markup} (parent : String) :
    Yields I node (P outer) → Yields I (many (childRound node parent)) (Siblings outer)
  ident (expected : String) : Yields I (ident expected) Ident
  type? : Yields I typeAnnotation Type?
  source {name : String} : Ident name → Yields I (memberChain expression (.ident name)) Source
  childless {outer : List String} {tag : String} {attributes : List Attribute} {line : Nat} :
    Name tag → (∀ a ∈ attributes, Attr a) → P outer (.element ⟨tag, attributes, [], true, line⟩)
  element {outer : List String} {tag : String} {attributes : List Attribute}
    {children : List Markup} {line : Nat} :
    Name tag → (∀ a ∈ attributes, Attr a) → Siblings outer children →
    P outer (.element ⟨tag, attributes, children, false, line⟩)
  fragment {outer : List String} {children : List Markup} {line : Nat} :
    Siblings outer children → P outer (.fragment children line)
  each {outer : List String} {binding : String} {itemType : Option TypeExpr} {source : Expr}
    {template : Element Markup} :
    Ident binding → Type? itemType → Source source →
    P (outer ++ [binding]) (.element template) →
    (∀ o ∈ outer, o ≠ binding → Markup.elementReferences o template = false) →
    P outer (.each binding itemType source template)

namespace Inherited

variable {I : List Lexeme → Prop} [SuffixClosed I] {Name : String → Prop}
  {Attr : Attribute → Prop} {Ident : String → Prop} {Type? : Option TypeExpr → Prop}
  {Source : Expr → Prop} {P : List String → Markup → Prop}
  {Siblings : List String → List Markup → Prop} {outer : List String}

theorem yields_closingTag (h : Inherited I Name Attr Ident Type? Source P Siblings)
    (expected : String) : Yields I (closingTag expected) (fun _ => True) := by
  unfold closingTag
  refine yields_bind (yields_expect _) fun _ _ => ?_
  refine yields_bind (yields_expect _) fun _ _ => ?_
  refine yields_get fun here _ => ?_
  refine yields_bind yields_kind fun k _ => ?_
  have hend (found : String) : Yields I
      (do unless found = expected do failAt here (.mismatchedTag expected found)
          expect (.symbol .rangle) : Rule Unit) (fun _ => True) :=
    yields_guard (yields_failAt _ _) fun _ => yields_expect _
  split
  · exact yields_bind (P := fun _ => True) (yields_pure trivial) fun found _ => hend found
  · exact yields_bind (h.name _) fun found _ => hend found

theorem yields_children (h : Inherited I Name Attr Ident Type? Source P Siblings)
    {node : Rule Markup} (hnode : Yields I node (P outer)) (parent : String) :
    Yields I (children node parent) (Siblings outer) := by
  unfold children
  refine yields_bind (h.siblings parent hnode) fun ms hms => ?_
  exact yields_bind (h.yields_closingTag parent) fun _ _ => yields_pure hms

theorem yields_element (h : Inherited I Name Attr Ident Type? Source P Siblings)
    {node : Rule Markup} (hnode : Yields I node (P outer)) (line : Nat) :
    Yields I (Rule.element node line) (fun e => P outer (.element e)) := by
  unfold Rule.element
  refine yields_bind (h.name _) fun tag htag => ?_
  refine yields_bind (yields_many h.attr) fun attributes hattributes => ?_
  refine yields_bind (yields_eat _) fun selfClosing _ => ?_
  split
  · refine yields_bind (yields_expect _) fun _ _ => yields_pure ?_
    exact h.childless htag hattributes
  · refine yields_bind (yields_expect _) fun _ _ => ?_
    refine yields_bind (h.yields_children hnode tag) fun ms hms => yields_pure ?_
    exact h.element htag hattributes hms

theorem yields_eachLoop (h : Inherited I Name Attr Ident Type? Source P Siblings)
    {node : List String → Rule Markup} (hnode : ∀ outer, Yields I (node outer) (P outer))
    (outer : List String) : Yields I (eachLoop node outer) (P outer) := by
  unfold eachLoop
  refine yields_get fun here _ => ?_
  refine yields_bind yields_skip fun _ _ => ?_
  refine yields_bind (h.ident _) fun binding hbinding => ?_
  refine yields_bind h.type? fun itemType htype => ?_
  refine yields_get fun ts _ => ?_
  refine yields_guard (yields_unexpected _) fun _ => ?_
  refine yields_bind yields_skip fun _ _ => ?_
  refine yields_bind (h.ident _) fun collection hcollection => ?_
  refine yields_bind (h.source hcollection) fun source hsource => ?_
  refine yields_bind (yields_expect _) fun _ _ => ?_
  refine yields_bind yields_skipNewlines fun _ _ => ?_
  refine yields_get fun ts _ => ?_
  refine yields_guard (yields_fail _) fun _ => ?_
  refine yields_bind yields_line fun line _ => ?_
  refine yields_bind yields_skip fun _ _ => ?_
  refine yields_bind (h.yields_element (hnode _) line) fun template htemplate => ?_
  split
  next => exact yields_bind (P := fun _ => False) (yields_failAt _ _) fun _ hfalse => hfalse.elim
  next hfree =>
    have hfind := List.find?_eq_none.mp (Option.eq_none_iff_forall_ne_some.mpr hfree)
    refine yields_bind yields_skipNewlines fun _ _ => ?_
    refine yields_get fun ts _ => ?_
    refine yields_guard (yields_fail _) fun _ => ?_
    refine yields_bind (h.yields_closingTag _) fun _ _ => yields_pure ?_
    refine h.each hbinding htype hsource htemplate fun o ho hne => ?_
    simpa [hne] using hfind o ho

theorem yields_nodeStep (h : Inherited I Name Attr Ident Type? Source P Siblings)
    {node : List String → Rule Markup} (hnode : ∀ outer, Yields I (node outer) (P outer))
    (outer : List String) : Yields I (nodeStep node outer) (P outer) := by
  unfold nodeStep
  refine yields_get fun ts _ => ?_
  refine yields_bind yields_line fun line _ => ?_
  refine yields_bind yields_skip fun _ _ => ?_
  refine yields_bind (yields_eat _) fun closed _ => ?_
  split
  · refine yields_bind (h.yields_children (hnode outer) "") fun ms hms => yields_pure ?_
    exact h.fragment hms
  · split
    · exact h.yields_eachLoop hnode outer
    · exact yields_bind (h.yields_element (hnode outer) line) fun e he => yields_pure he

theorem yields_node (h : Inherited I Name Attr Ident Type? Source P Siblings)
    (outer : List String) : Yields I (node outer) (P outer) := by
  unfold node
  refine yields_nestWith (P := P) (fun _ => yields_unexpected _) (fun part hpart => ?_) outer
  exact h.yields_nodeStep hpart

/-- The markup of a component stands in no loop. -/
theorem yields_markup (h : Inherited I Name Attr Ident Type? Source P Siblings) :
    Yields I markup (P []) := by
  unfold markup
  refine yields_get fun ts _ => ?_
  split
  · exact yields_bind (P := fun _ => False) (yields_fail _) fun _ hfalse => hfalse.elim
  · exact h.yields_node []

end Inherited

theorem element_line {node : Rule Markup} {line : Nat} {ts rest : List Lexeme} {e : Element Markup}
    (h : element node line ts = .ok (e, rest)) : e.line = line := by
  unfold element at h
  obtain ⟨tag, _, _, h⟩ := bind_eq_ok h
  obtain ⟨attributes, _, _, h⟩ := bind_eq_ok h
  obtain ⟨selfClosing, _, _, h⟩ := bind_eq_ok h
  split at h
  next =>
    obtain ⟨_, _, _, h⟩ := bind_eq_ok h
    cases h
    rfl
  next =>
    obtain ⟨_, _, _, h⟩ := bind_eq_ok h
    obtain ⟨children, _, _, h⟩ := bind_eq_ok h
    cases h
    rfl

theorem nodeStep_line {node : List String → Rule Markup} {outer : List String} {t : Lexeme}
    {ts rest : List Lexeme} {m : Markup}
    (hroot : kindAt 0 ts = .symbol .rangle ∨ wordAt 0 "each" ts = false)
    (h : nodeStep node outer (t :: ts) = .ok (m, rest)) : m.line? = some t.line := by
  unfold nodeStep at h
  have hline : line (t :: ts) = .ok (t.line, t :: ts) := rfl
  rw [get_bind_apply, bind_of_ok hline, bind_of_ok (skip_apply _), List.tail_cons] at h
  by_cases hfragment : kindAt 0 ts = .symbol .rangle
  · rw [bind_of_ok ((eat_apply _ _).trans (if_pos hfragment)), if_pos rfl] at h
    obtain ⟨children, _, _, h⟩ := bind_eq_ok h
    cases h
    rfl
  · have hword : wordAt 1 "each" (t :: ts) = false := hroot.resolve_left hfragment
    rw [bind_of_ok (eat_of_ne hfragment), if_neg (by decide), hword, if_neg (by decide)] at h
    obtain ⟨e, _, he, h⟩ := bind_eq_ok h
    cases h
    exact congrArg some (element_line he)

/-- The root of a markup is no loop, and starts where the markup does. -/
theorem markup_line {ts rest : List Lexeme} {m : Markup} (h : markup ts = .ok (m, rest)) :
    ∃ t ∈ ts.head?, m.line? = some t.line := by
  unfold markup at h
  rw [get_bind_apply] at h
  split at h
  next => cases h
  next hroot =>
    change nestFrom _ _ _ _ = _ at h
    rw [nestFrom] at h
    cases ts with
    | nil => cases h
    | cons t ts =>
      have hnext : kindAt 0 ts = .symbol .rangle ∨ wordAt 0 "each" ts = false := by
        by_cases hfragment : kindAt 0 ts = .symbol .rangle
        · exact .inl hfragment
        · exact .inr (Bool.eq_false_iff.mpr fun hword => hroot ⟨hfragment, hword⟩)
      exact ⟨t, by simp, nodeStep_line hnext h⟩

end Rule

namespace Component

theorem ofTokens_eq_ok {name : String} {ts : List Token} {c : Component}
    (h : ofTokens name ts = .ok c) :
    ∃ rest, Rule.unit name (Input.ofTokens ts).lexemes = .ok (c, rest) := by
  have hread : ofLexemes name (Input.ofTokens ts).lexemes = .ok c := by
    cases hr : ofLexemes name (Input.ofTokens ts).lexemes with
    | error e => simp [ofTokens, hr, Except.mapError] at h
    | ok c' => simpa [ofTokens, hr, Except.mapError] using h
  change (do let x ← Rule.unit name (Input.ofTokens ts).lexemes; pure x.1) = .ok c at hread
  cases hr : Rule.unit name (Input.ofTokens ts).lexemes with
  | error e => rw [hr] at hread; cases hread
  | ok x => rw [hr] at hread; cases hread; exact ⟨x.2, rfl⟩

theorem ofSource_eq_ok {name source : String} {c : Component} (h : ofSource name source = .ok c) :
    ∃ tokens, Token.tokenize source = .ok tokens ∧ ofTokens name tokens = .ok c := by
  cases htokens : Token.tokenize source with
  | error d => rw [ofSource, htokens] at h; cases h
  | ok tokens => rw [ofSource, htokens] at h; exact ⟨tokens, rfl, h⟩

end Component

end Sigil
